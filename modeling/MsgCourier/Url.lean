import MsgCourier.Buffer

/-! `cURL::Decode`, and the tokens of a decoded text. -/
namespace MsgCourier
open ListSearch CText

namespace URL

/-- In the locale of the program. -/
def isxdigit (b : Byte) : Bool :=
  (48 ≤ b && b ≤ 57) || (97 ≤ b && b ≤ 102) || (65 ≤ b && b ≤ 70)

/-- Another byte counts as itself. -/
def hexValue (b : Byte) : ℕ :=
  if 48 ≤ b && b ≤ 57 then b.toNat-48
  else if 97 ≤ b && b ≤ 102 then b.toNat-(97-10)
  else if 65 ≤ b && b ≤ 70 then b.toNat-(65-10)
  else b.toNat

/-- The pair as a `char`. -/
def hexToInt (hi lo : Byte) : Byte := UInt8.ofNat (hexValue lo + 16*hexValue hi)

/-- What the loop writes. A `%` that no two digits follow is dropped. -/
def decodeLoop : Bytes → Bytes
  | [] => []
  | b :: s =>
    if b = 37 then
      match s with
      | hi :: lo :: t =>
        if isxdigit hi && isxdigit lo then hexToInt hi lo :: decodeLoop t
        else decodeLoop (hi :: lo :: t)
      | s => decodeLoop s
    else if b = 43 then 32 :: decodeLoop s
    else b :: decodeLoop s

/-- The output block has three bytes for each byte of the input, which for an empty input leaves no
room for the terminator. -/
def decode (sInBuffer : Bytes) : Cxx Bytes :=
  let decoded := decodeLoop (cstr sInBuffer)
  if decoded.length+1 ≤ sInBuffer.length*3 then .ok (cstr decoded) else .error .undefined

theorem length_decodeLoop (s : Bytes) : (decodeLoop s).length ≤ s.length := by
  fun_induction decodeLoop s with
  | case1 => exact Nat.le_refl _
  | case2 hi lo t _ ih =>
    simp only [List.length_cons]
    omega
  | case3 hi lo t _ ih => exact Nat.le_succ_of_le ih
  | case4 s _ ih => exact Nat.le_succ_of_le ih
  | case5 s _ ih => exact Nat.succ_le_succ ih
  | case6 b s _ _ ih => exact Nat.succ_le_succ ih

theorem decode_of_ne_nil {s : Bytes} (hs : s ≠ []) :
    decode s = .ok (cstr (decodeLoop (cstr s))) := by
  have h₁ := length_decodeLoop (cstr s)
  have h₂ := length_cstr_le s
  have h₃ := List.length_pos_iff.mpr hs
  exact if_pos (by omega)

theorem decode_inv {s d : Bytes} (h : decode s = .ok d) : d = cstr (decodeLoop (cstr s)) := by
  unfold decode at h
  dsimp only at h
  split_ifs at h
  exact (Except.ok.inj h).symm

end URL

/-! ### Tokens -/

/-- The tokens of a `char_separator` that drops its separators: the non-empty runs between them. -/
def tokenizer (isSeparator : Byte → Bool) (s : Bytes) : List Bytes :=
  (s.splitOnP isSeparator).filter (· ≠ [])

theorem of_mem_splitOnP {α : Type} {p : α → Bool} {s t : List α} (ht : t ∈ s.splitOnP p) :
    ∀ a ∈ t, a ∈ s ∧ p a = false := by
  induction s generalizing t with
  | nil =>
    rw [List.splitOnP_nil, List.mem_singleton] at ht
    rw [ht]
    exact nofun
  | cons b s ih =>
    have hlater {t : List α} (ht : t ∈ s.splitOnP p) : ∀ a ∈ t, a ∈ b :: s ∧ p a = false :=
      fun a ha => ⟨List.mem_cons_of_mem _ (ih ht a ha).1, (ih ht a ha).2⟩
    rw [List.splitOnP_cons_eq_if_modifyHead] at ht
    split_ifs at ht with hb
    · rcases List.mem_cons.mp ht with rfl | ht
      · exact nofun
      · exact hlater ht
    · -- the first byte belongs to the first part
      obtain ⟨head, rest, hsplit⟩ := List.exists_cons_of_ne_nil (List.splitOnP_ne_nil p s)
      rw [hsplit, List.modifyHead_cons, List.mem_cons] at ht
      rcases ht with rfl | ht
      · intro a ha
        rcases List.mem_cons.mp ha with rfl | ha
        · exact ⟨List.mem_cons_self, by simpa using hb⟩
        · exact hlater (hsplit ▸ List.mem_cons_self) a ha
      · exact hlater (hsplit ▸ List.mem_cons_of_mem _ ht)

theorem length_le_of_mem_splitOnP {α : Type} {p : α → Bool} {s t : List α}
    (ht : t ∈ s.splitOnP p) : t.length ≤ s.length := by
  induction s generalizing t with
  | nil =>
    rw [List.splitOnP_nil, List.mem_singleton] at ht
    rw [ht]
  | cons b s ih =>
    rw [List.splitOnP_cons_eq_if_modifyHead] at ht
    split_ifs at ht with hb
    · rcases List.mem_cons.mp ht with rfl | ht
      · exact Nat.zero_le _
      · exact (ih ht).trans (Nat.le_succ _)
    · obtain ⟨head, rest, hsplit⟩ := List.exists_cons_of_ne_nil (List.splitOnP_ne_nil p s)
      rw [hsplit, List.modifyHead_cons, List.mem_cons] at ht
      rcases ht with rfl | ht
      · exact Nat.succ_le_succ (ih (hsplit ▸ List.mem_cons_self))
      · exact (ih (hsplit ▸ List.mem_cons_of_mem _ ht)).trans (Nat.le_succ _)

theorem of_mem_tokenizer {isSeparator : Byte → Bool} {s t : Bytes}
    (ht : t ∈ tokenizer isSeparator s) : ∀ a ∈ t, a ∈ s ∧ isSeparator a = false :=
  of_mem_splitOnP (List.mem_of_mem_filter ht)

theorem tokenizer_append_cons {isSeparator : Byte → Bool} (s t : Bytes) {sep : Byte}
    (hsep : isSeparator sep = true) :
    tokenizer isSeparator (s ++ sep :: t) = tokenizer isSeparator s ++ tokenizer isSeparator t := by
  rw [tokenizer, List.splitOnP_append_cons s t hsep, List.filter_append, tokenizer, tokenizer]

theorem ne_nil_of_mem_tokenizer {isSeparator : Byte → Bool} {s t : Bytes}
    (ht : t ∈ tokenizer isSeparator s) : t ≠ [] := by
  simpa using List.of_mem_filter ht

end MsgCourier
