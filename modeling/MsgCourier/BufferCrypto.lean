import MsgCourier.TextBlock
import Mathlib.Data.List.GetD

/-! `cBuffer::Crypto`: the same call with the same key encrypts a content and restores it. -/
namespace MsgCourier
open ListSearch CText

namespace Buffer

/-- The loop for `n` more bytes from index `i` on, with `pKey` as an index into the key and its
terminator. -/
def cryptoLoop (pszKey : Bytes) : ℕ → ℕ → ℕ → Bytes → Cxx Bytes
  | 0, _, _, mem => pure mem
  | n+1, i, pKey, mem => do
    let c ← peek pszKey pKey
    let pKey := if c = 0 then 0 else pKey
    let keyByte ← peek pszKey pKey
    let byte ← peek mem i
    let mem ← poke mem i (byte ^^^ keyByte ^^^ UInt8.ofNat i)
    cryptoLoop pszKey n (i+1) (pKey+1) mem

def crypto (b : Buffer) (pszKey : Bytes) : Cxx Buffer :=
  match b.pBuffer with
  | none => if 0 < b.tail then .error .undefined else pure b
  | some pBuffer => do
    let pBuffer ← cryptoLoop pszKey b.tail.toNat 0 0 pBuffer
    pure { b with pBuffer := some pBuffer }

/-- The byte that an index is masked with: one of the key, with the index as a `char`. -/
def maskByte (key : Bytes) (i : ℕ) : Byte := key.getD (i%key.length) 0 ^^^ UInt8.ofNat i

def masked (key : Bytes) (i : ℕ) : Bytes → Bytes
  | [] => []
  | b :: c => (b ^^^ maskByte key i) :: masked key (i+1) c

theorem length_masked (key : Bytes) (i : ℕ) (c : Bytes) : (masked key i c).length = c.length := by
  induction c generalizing i with
  | nil => rfl
  | cons b c ih => rw [masked, List.length_cons, ih, List.length_cons]

/-- Two masks cancel. -/
theorem masked_masked (key : Bytes) (i : ℕ) (c : Bytes) : masked key i (masked key i c) = c := by
  induction c generalizing i with
  | nil => rfl
  | cons b c ih => rw [masked, masked, ih, UInt8.xor_assoc, UInt8.xor_self, UInt8.xor_zero]

/-! ### The walk over the key -/

/-- The key with its terminator. -/
def keyBlock (key : Bytes) : Bytes := key ++ [0]

variable {key : Bytes}

/-- The pointer stands in the key or on its terminator, from where it goes back to the start. -/
structure KeyAt (key : Bytes) (i pKey : ℕ) : Prop where
  le : pKey ≤ key.length
  mod : pKey%key.length = i%key.length

theorem KeyAt.zero (key : Bytes) : KeyAt key 0 0 := ⟨Nat.zero_le _, rfl⟩

theorem KeyAt.next {i pKey : ℕ} (h : KeyAt key i pKey) (hlt : pKey < key.length) :
    KeyAt key (i+1) (pKey+1) where
  le := hlt
  mod := by rw [Nat.add_mod, h.mod, ← Nat.add_mod]

theorem peek_keyBlock {p : ℕ} (hp : p ≤ key.length) :
    peek (keyBlock key) p = .ok (key.getD p 0) := by
  rcases Nat.lt_or_eq_of_le hp with hlt | rfl
  · have hsplit : keyBlock key = key.take p ++ key.getD p 0 :: (key.drop (p+1) ++ [0]) := by
      have hget : key.drop p = key.getD p 0 :: key.drop (p+1) := by
        rw [List.getD_eq_getElem _ _ hlt]
        exact List.drop_eq_getElem_cons hlt
      rw [keyBlock, ← List.cons_append, ← hget, ← List.append_assoc, List.take_append_drop]
    have hpeek := peek_append (key.take p) (key.getD p 0) (key.drop (p+1) ++ [0])
    rwa [← hsplit, List.length_take, Nat.min_eq_left hp] at hpeek
  · rw [List.getD_eq_default _ _ (Nat.le_refl _)]
    exact peek_append key 0 []

/-- The byte of the key that an index gets. -/
theorem KeyAt.step {i pKey : ℕ} (h : KeyAt key i pKey) (hkey : key ≠ []) (h0 : 0 ∉ key) :
    ∃ q, q < key.length ∧ KeyAt key i q ∧ (if key.getD pKey 0 = 0 then 0 else pKey) = q ∧
      key.getD q 0 = key.getD (i%key.length) 0 := by
  have hpos := List.length_pos_iff.mpr hkey
  rcases Nat.lt_or_eq_of_le h.le with hlt | heq
  · have hne : key.getD pKey 0 ≠ 0 := by
      rw [List.getD_eq_getElem _ _ hlt]
      exact fun hzero => h0 (hzero ▸ List.getElem_mem hlt)
    exact ⟨pKey, hlt, h, if_neg hne, by rw [← h.mod, Nat.mod_eq_of_lt hlt]⟩
  · have hmod : 0 = i%key.length := by rw [← h.mod, heq, Nat.mod_self]
    refine ⟨0, hpos, ⟨Nat.zero_le _, by rw [Nat.zero_mod, ← hmod]⟩, ?_, by rw [← hmod]⟩
    rw [heq, List.getD_eq_default _ _ (Nat.le_refl _), if_pos rfl]

/-- The loop masks the content and leaves what stands around it. -/
theorem cryptoLoop_eq (hkey : key ≠ []) (h0 : 0 ∉ key) (front : Bytes) (c junk : Bytes) {pKey : ℕ}
    (h : KeyAt key front.length pKey) :
    cryptoLoop (keyBlock key) c.length front.length pKey (front ++ (c ++ junk)) =
      .ok (front ++ (masked key front.length c ++ junk)) := by
  induction c generalizing front pKey with
  | nil => rfl
  | cons b c ih =>
    obtain ⟨q, hq, hat, hback, hbyte⟩ := h.step hkey h0
    rw [List.length_cons, cryptoLoop, peek_keyBlock h.le, ok_bind]
    dsimp only
    rw [hback, peek_keyBlock hq.le, ok_bind, List.cons_append, peek_append, ok_bind, poke_append,
      ok_bind, hbyte]
    have hmask : b ^^^ key.getD (front.length%key.length) 0 ^^^ UInt8.ofNat front.length =
        b ^^^ maskByte key front.length := UInt8.xor_assoc _ _ _
    have hnext : KeyAt key (front ++ [b ^^^ maskByte key front.length]).length (q+1) := by
      rw [List.length_append]
      exact hat.next hq
    have hrest := ih _ hnext
    rw [List.length_append, List.length_singleton, List.append_assoc, List.append_assoc,
      List.singleton_append, List.singleton_append] at hrest
    rw [hmask, hrest, masked, List.cons_append]

theorem crypto_holds {b : Buffer} {c : Bytes} (hkey : key ≠ []) (h0 : 0 ∉ key) (h : b.Holds c) :
    ∃ b', b.crypto (keyBlock key) = .ok b' ∧ b'.Holds (masked key 0 c) ∧
      b'.crypto (keyBlock key) = .ok b := by
  cases h with
  | null => exact ⟨{}, rfl, .null, rfl⟩
  | block c junk hj hs =>
    have hloop (c : Bytes) : cryptoLoop (keyBlock key) c.length 0 0 (c ++ junk) =
        .ok (masked key 0 c ++ junk) := cryptoLoop_eq hkey h0 [] c junk (KeyAt.zero key)
    have hlen := length_masked key 0 c
    have hsize : (masked key 0 c ++ junk).length = (c ++ junk).length := by
      rw [List.length_append, hlen, List.length_append]
    refine ⟨⟨some (masked key 0 c ++ junk), (c ++ junk).length, c.length⟩, ?_, ?_, ?_⟩
    · unfold crypto
      dsimp only
      rw [Int.toNat_natCast, hloop, ok_bind]
      rfl
    · rw [← hsize, ← hlen]
      exact .block _ junk hj (by rwa [hsize])
    · unfold crypto
      dsimp only
      rw [Int.toNat_natCast, ← hlen, hloop, ok_bind, masked_masked]
      rfl

/-! ### An empty key -/

/-- The first byte moves the pointer behind the terminator. -/
theorem cryptoLoop_empty_cons (n : ℕ) (b : Byte) (rest : Bytes) :
    cryptoLoop (keyBlock []) (n+1) 0 0 (b :: rest) =
    cryptoLoop (keyBlock []) n 1 1 (b :: rest) := by
  have hmask : b ^^^ 0 ^^^ UInt8.ofNat 0 = b := by
    rw [UInt8.xor_zero]
    exact UInt8.xor_zero
  have hpoke : poke (b :: rest) 0 (b ^^^ 0 ^^^ UInt8.ofNat 0) = .ok (b :: rest) := by
    rw [hmask]
    exact poke_append [] b rest b
  have hread : peek (b :: rest) (0 : ℕ) = .ok b := peek_append [] b rest
  have hkey : peek (keyBlock []) (0 : ℕ) = .ok 0 := rfl
  rw [cryptoLoop, hkey, ok_bind]
  dsimp only
  rw [if_pos rfl, hkey, ok_bind, hread, ok_bind, hpoke, ok_bind]

theorem cryptoLoop_empty_fail (n i : ℕ) (mem : Bytes) :
    cryptoLoop (keyBlock []) (n+1) i 1 mem = .error .undefined := rfl

theorem crypto_empty {b : Buffer} {c : Bytes} (h : b.Holds c) :
    (c.length ≤ 1 → b.crypto (keyBlock []) = .ok b) ∧
      (1 < c.length → b.crypto (keyBlock []) = .error .undefined) := by
  cases h with
  | null => exact ⟨fun _ => rfl, fun h => absurd h (by simp)⟩
  | block c junk hj hs =>
    unfold crypto
    dsimp only
    rw [Int.toNat_natCast]
    clear hs hj
    cases c with
    | nil => exact ⟨fun _ => rfl, fun h => absurd h (by simp)⟩
    | cons x c =>
      rw [List.length_cons, List.cons_append, cryptoLoop_empty_cons]
      cases c with
      | nil => exact ⟨fun _ => rfl, fun h => absurd h (by simp)⟩
      | cons y c =>
        refine ⟨fun h => absurd h (by simp), fun _ => ?_⟩
        rw [List.length_cons, cryptoLoop_empty_fail]
        rfl

/-- For every content and every key: the call masks the content and a second call restores the
buffer, exactly if the key is not empty or the content has at most one byte. -/
theorem crypto_restores_iff {b : Buffer} {c : Bytes} (h : b.Holds c) (h0 : 0 ∉ key) :
    (∃ b', b.crypto (keyBlock key) = .ok b' ∧ b'.Holds (masked key 0 c) ∧
      b'.crypto (keyBlock key) = .ok b) ↔ key ≠ [] ∨ c.length ≤ 1 := by
  by_cases hkey : key = []
  · subst hkey
    obtain ⟨hshort, hlong⟩ := crypto_empty h
    simp only [ne_eq, not_true_eq_false, false_or]
    constructor
    · rintro ⟨b', hok, -, -⟩
      by_contra hc
      rw [hlong (Nat.lt_of_not_le hc)] at hok
      cases hok
    · intro hc
      have hmasked : masked [] 0 c = c := by
        match c with
        | [] => rfl
        | [x] => exact congrArg (fun y => [y]) (UInt8.xor_zero)
        | x :: y :: c => exact absurd hc (by simp)
      exact ⟨b, hshort hc, hmasked.symm ▸ h, hshort hc⟩
  · exact iff_of_true (crypto_holds hkey h0 h) (.inl hkey)

theorem crypto_restores_hello : ∃ b',
    (terminated (bytes "hello")).crypto (keyBlock (bytes "key")) = .ok b' ∧
      b'.Holds (masked (bytes "key") 0 (bytes "hello")) ∧
      b'.crypto (keyBlock (bytes "key")) = .ok (terminated (bytes "hello")) := by
  have hlen : ((bytes "hello").length : ℤ) < intMax := by decide
  have hkey : 0 ∉ bytes "key" := by decide
  exact (crypto_restores_iff (holds_terminated hlen) hkey).mpr (.inl (by decide))

end Buffer

end MsgCourier
