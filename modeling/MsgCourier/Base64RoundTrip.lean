import MsgCourier.Base64
import Mathlib.Logic.Relation

/-! A text through `Encode` and `Decode` of `cBase64` objects with any history. -/
namespace MsgCourier
open ListSearch CText ZeroFill

namespace Base64

/-! ### The internal buffer -/

/-- Between two calls: no block yet, or an empty block of at least the smallest size. -/
inductive Emptied : Buffer → Prop
  | null : Emptied {}
  | block (mem : Bytes) (hmin : 32 ≤ mem.length) (hmax : (mem.length : ℤ) ≤ intMax) :
      Emptied ⟨some mem, mem.length, 0⟩

variable {b b' : Buffer} {n : ℤ}

theorem Emptied.reset (h : Emptied b) : b.reset = b := by
  cases h <;> rfl

theorem Emptied.holds (h : Emptied b) : b.Holds [] := by
  cases h with
  | null => exact Buffer.Holds.null
  | block mem hmin hmax =>
    refine Buffer.Holds.block [] mem ?_ hmax
    rintro rfl
    exact absurd hmin (by decide)

theorem adjustSize_bounds (n : ℤ) : 32 ≤ Buffer.adjustSize n ∧ Buffer.adjustSize n ≤ intMax := by
  have hmax := int32_le (n+8)
  unfold Buffer.adjustSize
  dsimp only
  split_ifs with hmin hmid
  · exact ⟨le_rfl, by decide⟩
  · unfold intMax
    omega
  · omega

/-- The block is kept when it is larger than the size that is asked for. -/
theorem Emptied.setBufferSize_inv [Malloc] (h : Emptied b) (hset : b.setBufferSize n = .ok b') :
    ∃ mem, b' = ⟨some mem, mem.length, 0⟩ ∧ Emptied b' ∧
      (b' = b ∧ n < b.bufferSize ∨ (mem.length : ℤ) = Buffer.adjustSize n) := by
  obtain ⟨hmin, hmax⟩ := adjustSize_bounds n
  have hcast : ((Buffer.adjustSize n).toNat : ℤ) = Buffer.adjustSize n :=
    Int.toNat_of_nonneg (by omega)
  have hnew {mem : Bytes} (hlen : (mem.length : ℤ) = Buffer.adjustSize n)
      (hb' : b' = ⟨some mem, Buffer.adjustSize n, 0⟩) :
      ∃ mem, b' = ⟨some mem, mem.length, 0⟩ ∧ Emptied b' ∧
        (b' = b ∧ n < b.bufferSize ∨ (mem.length : ℤ) = Buffer.adjustSize n) := by
    rw [← hlen] at hb'
    subst hb'
    exact ⟨mem, rfl, Emptied.block mem (by omega) (by omega), Or.inr hlen⟩
  unfold Buffer.setBufferSize at hset
  cases h with
  | null =>
    dsimp only at hset
    rw [Buffer.malloc_ok _ (by omega), ok_bind] at hset
    exact hnew (by rw [Malloc.length_block, hcast]) (Except.ok.inj hset).symm
  | block mem hlow hhigh =>
    dsimp only at hset
    by_cases hgrow : (mem.length : ℤ) ≤ n
    · rw [if_pos hgrow, Buffer.malloc_ok _ (by omega), ok_bind] at hset
      obtain ⟨old, -, hset⟩ := bind_eq_ok.mp hset
      obtain ⟨copy, hstore, hset⟩ := bind_eq_ok.mp hset
      apply hnew _ (Except.ok.inj hset).symm
      rw [(Buffer.store_length hstore).1, Malloc.length_block, hcast]
    · rw [if_neg hgrow] at hset
      rw [← Except.ok.inj hset]
      exact ⟨mem, rfl, Emptied.block mem hlow hhigh, Or.inl ⟨rfl, not_le.mp hgrow⟩⟩

/-- A size that is an `int` with its eight bytes more. -/
theorem Emptied.setBufferSize_ok [Malloc] (h : Emptied b) (h0 : 0 ≤ n) (hn : n+8 ≤ intMax) : ∃ mem,
    b.setBufferSize n = .ok ⟨some mem, mem.length, 0⟩ ∧ 32 ≤ mem.length ∧ n < mem.length := by
  obtain ⟨mem, hset, hroom, -, -⟩ := h.holds.setBufferSize h0 (Or.inr hn)
  rw [List.nil_append, List.length_nil, Nat.cast_zero] at hset
  rw [List.nil_append] at hroom
  refine ⟨mem, hset, ?_, hroom⟩
  obtain ⟨-, -, hemptied, -⟩ := h.setBufferSize_inv hset
  cases hemptied with
  | block mem hmin hmax => exact hmin

/-- A size that is none gets the smallest block, or the one that is there. -/
theorem Emptied.setBufferSize_wrapped [Malloc] (h : Emptied b) (hlow : -2147483648 ≤ n)
    (hhigh : n ≤ intMax) (hn : n < 0 ∨ intMax < n+8) {mem : Bytes}
    (hset : b.setBufferSize n = .ok ⟨some mem, mem.length, 0⟩) :
    (mem.length : ℤ) = b.bufferSize ∧ n < b.bufferSize ∨ mem.length = 32 := by
  have hsize : Buffer.adjustSize n = 32 := by
    have hask : int32 (n+8) ≤ 32 := by
      rcases hn with hn | hn
      · rw [int32_eq (by omega) (by unfold intMax; omega)]
        omega
      · unfold intMax at hhigh
        rw [int32_of_gt hn (by omega)]
        omega
    exact if_pos hask
  obtain ⟨mem', hmem, -, hkept | hlen⟩ := h.setBufferSize_inv hset
  · exact Or.inl ⟨congrArg Buffer.bufferSize hkept.1, hkept.2⟩
  · rw [hsize] at hlen
    have heq : (mem.length : ℤ) = mem'.length := congrArg Buffer.bufferSize hmem
    omega

/-! ### Any history -/

/-- A call that returns. -/
def Call [Malloc] (x x' : Base64) : Prop := ∃ (pBuffer pBuffer' : Buffer) (code : ℤ),
  x.encode pBuffer = .ok (code, x', pBuffer') ∨ x.decode pBuffer = .ok (code, x', pBuffer')

/-- The objects that there can be. -/
def Used [Malloc] (x : Base64) : Prop := Relation.ReflTransGen Call {} x

/-- The block that the loops have written in. -/
theorem Emptied.written [Malloc] (h : Emptied b) (hset : b.setBufferSize n = .ok b')
    {buffer : Bytes} (hlen : buffer.length = (b'.pBuffer.getD []).length) :
    Emptied { b' with pBuffer := some buffer } := by
  obtain ⟨mem, rfl, hemptied, -⟩ := h.setBufferSize_inv hset
  change buffer.length = mem.length at hlen
  change Emptied ⟨some buffer, mem.length, 0⟩
  rw [← hlen]
  cases hemptied with
  | block mem hmin hmax => exact Emptied.block buffer (hlen ▸ hmin) (hlen ▸ hmax)

theorem emptied_of_call [Malloc] {x x' : Base64} (hx : Emptied x.internalBuffer) (h : Call x x') :
    Emptied x'.internalBuffer := by
  obtain ⟨pBuffer, pBuffer', code, h | h⟩ := h
  · obtain ⟨s, -, h⟩ := bind_eq_ok.mp h
    obtain ⟨b, hset, h⟩ := bind_eq_ok.mp h
    obtain ⟨r, hloop, h⟩ := bind_eq_ok.mp h
    obtain ⟨t, htail, h⟩ := bind_eq_ok.mp h
    obtain ⟨p, -, h⟩ := bind_eq_ok.mp h
    rw [← (Prod.mk.inj (Prod.mk.inj (Except.ok.inj h)).2).1]
    rw [hx.reset] at hset
    exact hx.written hset ((length_encodeTail htail).trans (length_encodeLoop hloop))
  · obtain ⟨s, -, h⟩ := bind_eq_ok.mp h
    obtain ⟨b, hset, h⟩ := bind_eq_ok.mp h
    obtain ⟨r, hloop, h⟩ := bind_eq_ok.mp h
    obtain ⟨t, htail, h⟩ := bind_eq_ok.mp h
    obtain ⟨p, -, h⟩ := bind_eq_ok.mp h
    rw [← (Prod.mk.inj (Prod.mk.inj (Except.ok.inj h)).2).1]
    rw [hx.reset] at hset
    exact hx.written hset ((length_decodeTail htail).trans (length_decodeLoop hloop))

theorem emptied_of_used [Malloc] {x : Base64} (hx : Used x) : Emptied x.internalBuffer := by
  induction hx with
  | refl => exact Emptied.null
  | tail _ hcall ih => exact emptied_of_call ih hcall

/-! ### The two calls -/

variable {x : Base64} {pBuffer : Buffer} {s : Bytes}

theorem fetch_holds (h : pBuffer.Holds s) :
    fetch (pBuffer.pBuffer.getD []) 0 pBuffer.tail = .ok s := by
  cases h with
  | null => rfl
  | block s junk hj hs =>
    have hread : fetch (s ++ junk) (0 : ℕ) s.length = _ := fetch_ok
      (by rw [List.length_append]; omega)
    rwa [List.drop_zero, List.take_left] at hread

theorem encode_eq [Malloc] (hx : Emptied x.internalBuffer) (h : pBuffer.Holds s) {mem : Bytes}
    (hset : x.internalBuffer.setBufferSize (int32 (2*s.length)) =
      .ok ⟨some mem, mem.length, 0⟩) : x.encode pBuffer =
    if (encoded s).length ≤ mem.length then do
      let r ← pBuffer.replaceWith (some (encoded s ++ mem.drop (encoded s).length))
        (encoded s).length
      pure (base64Ok,
        ⟨⟨some (encoded s ++ mem.drop (encoded s).length), mem.length, 0⟩⟩, r.2)
    else .error .undefined := by
  have hwrite := encode_behind s [] mem
  simp only [List.nil_append, List.length_nil, Nat.zero_add] at hwrite
  unfold encode
  rw [fetch_holds h, ok_bind, h.tail_eq, hx.reset, hset, ok_bind]
  dsimp only [Option.getD_some]
  split_ifs at hwrite ⊢
  · obtain ⟨r, hloop, htail⟩ := bind_eq_ok.mp hwrite
    rw [hloop, ok_bind, htail]
    rfl
  · cases hloop : encodeLoop [] s mem 0 with
    | error e =>
      rw [hloop] at hwrite
      rw [error_bind]
      cases hwrite
      rfl
    | ok r =>
      rw [hloop, ok_bind] at hwrite
      rw [ok_bind, hwrite, error_bind]

theorem decode_eq [Malloc] (hx : Emptied x.internalBuffer) (h : pBuffer.Holds (encoded s))
    {mem : Bytes} (hset : x.internalBuffer.setBufferSize (encoded s).length =
      .ok ⟨some mem, mem.length, 0⟩) : x.decode pBuffer =
    if s.length ≤ mem.length then do
      let r ← pBuffer.replaceWith (some (s ++ mem.drop s.length)) s.length
      pure (base64Ok, ⟨⟨some (s ++ mem.drop s.length), mem.length, 0⟩⟩, r.2)
    else .error .undefined := by
  have hwrite := decode_behind s [] mem
  simp only [List.nil_append, List.length_nil, Nat.zero_add] at hwrite
  unfold decode
  rw [fetch_holds h, ok_bind, h.tail_eq, hx.reset, hset, ok_bind]
  dsimp only [Option.getD_some]
  split_ifs at hwrite ⊢
  · obtain ⟨r, hloop, htail⟩ := bind_eq_ok.mp hwrite
    rw [hloop, ok_bind, htail]
    rfl
  · cases hloop : decodeLoop [] (encoded s) mem 0 with
    | error e =>
      rw [hloop] at hwrite
      rw [error_bind]
      cases hwrite
      rfl
    | ok r =>
      rw [hloop, ok_bind] at hwrite
      rw [ok_bind, hwrite, error_bind]

/-! ### The round trip -/

/-- The text is encoded and decoded within the internal buffers, its code has the length and the
characters that it should have, and every object decodes it. -/
def RoundTrips [Malloc] (x : Base64) (pBuffer : Buffer) (s : Bytes) : Prop :=
  ∃ x' pBuffer' text, x.encode pBuffer = .ok (base64Ok, x', pBuffer') ∧ pBuffer'.Holds text ∧
    text.length = 4*((s.length+2)/3) ∧
    (∃ u k, text = u ++ List.replicate k 61 ∧ k ≤ 2 ∧ ∀ d ∈ u, is_base64 d = true) ∧
    ∀ y, Used y → ∃ y' pBuffer'', y.decode pBuffer' = .ok (base64Ok, y', pBuffer'') ∧
      pBuffer''.Holds s

/-- Twice the length with its eight bytes more is an `int`, or the encoder has the room from a call
before. -/
def HasRoom (x : Base64) (s : Bytes) : Prop :=
  (2*s.length+8 : ℤ) ≤ intMax ∨
    (4*((s.length+2)/3) : ℕ)+8 ≤ intMax ∧
      ((4*((s.length+2)/3) : ℕ) : ℤ) ≤ x.internalBuffer.bufferSize ∧
        int32 (2*s.length) < x.internalBuffer.bufferSize

/-- With room, the internal buffer holds the code. -/
theorem HasRoom.setBufferSize [Malloc] (hroom : x.HasRoom s) (hx : Emptied x.internalBuffer) :
    (4*((s.length+2)/3) : ℕ)+8 ≤ intMax ∧ ∃ mem,
      x.internalBuffer.setBufferSize (int32 (2*s.length)) = .ok ⟨some mem, mem.length, 0⟩ ∧
      (encoded s).length ≤ mem.length := by
  rw [length_encoded]
  rcases hroom with hdouble | ⟨hcode, hkept, hasked⟩
  · have hint : int32 (2*s.length : ℤ) = 2*s.length := int32_eq (by omega) (by omega)
    obtain ⟨mem, hset, hmin, hlen⟩ := hx.setBufferSize_ok (show (0 : ℤ) ≤ 2*s.length by omega)
      hdouble
    rw [hint]
    refine ⟨?_, mem, hset, by omega⟩
    unfold intMax at hdouble ⊢
    omega
  · refine ⟨hcode, ?_⟩
    have hzero : s.length = 0 → int32 (2*s.length : ℤ) = 0 := by
      intro hnil
      rw [hnil]
      rfl
    generalize int32 (2*s.length : ℤ) = ask at hasked hzero ⊢
    cases hb : x.internalBuffer with
    | mk block size tail =>
      rw [hb] at hx hkept hasked
      cases hx with
      | null =>
        change _ ≤ (0 : ℤ) at hkept
        rw [hzero (by omega)] at hasked
        exact absurd hasked (lt_irrefl _)
      | block mem hmin hmax =>
        refine ⟨mem, if_neg (not_le.mpr hasked), ?_⟩
        change _ ≤ (mem.length : ℤ) at hkept
        omega

theorem HasRoom.encode [Malloc] (hroom : x.HasRoom s) (hx : Used x) (h : pBuffer.Holds s) :
    ∃ x' pBuffer', x.encode pBuffer = .ok (base64Ok, x', pBuffer') ∧
      pBuffer'.Holds (encoded s) := by
  obtain ⟨hcode, mem, hset, hlen⟩ := hroom.setBufferSize (emptied_of_used hx)
  have hencode := encode_eq (emptied_of_used hx) h hset
  obtain ⟨pBuffer', hreplace, hholds, -⟩ := h.replaceWith
    (encoded s ++ mem.drop (encoded s).length) (n := (encoded s).length)
    (by rw [List.length_append]; omega)
    (Buffer.Holds.fits_reset (by rw [length_encoded]; exact hcode))
  rw [List.take_left] at hholds
  rw [if_pos hlen, hreplace] at hencode
  exact ⟨_, pBuffer', hencode, hholds⟩

/-- A code whose length has eight bytes more as an `int` is decoded. -/
theorem decode_ok [Malloc] (hx : Used x) (h : pBuffer.Holds (encoded s))
    (hcode : ((encoded s).length+8 : ℤ) ≤ intMax) :
    ∃ x' pBuffer', x.decode pBuffer = .ok (base64Ok, x', pBuffer') ∧ pBuffer'.Holds s := by
  have hlength := length_encoded s
  obtain ⟨mem, hset, -, hlen⟩ := (emptied_of_used hx).setBufferSize_ok
    (n := (encoded s).length) (by omega) hcode
  have hdecode := decode_eq (emptied_of_used hx) h hset
  obtain ⟨pBuffer', hreplace, hholds, -⟩ := h.replaceWith
    (s ++ mem.drop s.length) (n := s.length) (by rw [List.length_append]; omega)
    (Buffer.Holds.fits_reset (by omega))
  rw [List.take_left] at hholds
  rw [if_pos (by omega), hreplace] at hdecode
  exact ⟨_, pBuffer', hdecode, hholds⟩

theorem HasRoom.roundTrips [Malloc] (hroom : x.HasRoom s) (hx : Used x) (h : pBuffer.Holds s) :
    RoundTrips x pBuffer s := by
  obtain ⟨x', pBuffer', hencode, hholds⟩ := hroom.encode hx h
  have hcode := (hroom.setBufferSize (emptied_of_used hx)).1
  refine ⟨x', pBuffer', encoded s, hencode, hholds, length_encoded s, encoded_form s, ?_⟩
  intro y hy
  exact decode_ok hy hholds (by rw [length_encoded]; exact hcode)

/-- A call of `Encode` that returns had room for the code. -/
theorem encode_inv [Malloc] (hx : Emptied x.internalBuffer) (h : pBuffer.Holds s)
    {r : ℤ × Base64 × Buffer} (hr : x.encode pBuffer = .ok r) : ∃ mem,
      x.internalBuffer.setBufferSize (int32 (2*s.length)) = .ok ⟨some mem, mem.length, 0⟩ ∧
      (encoded s).length ≤ mem.length ∧ r.2.2.Holds (encoded s) := by
  have hset : ∃ b, x.internalBuffer.setBufferSize (int32 (2*s.length)) = .ok b := by
    obtain ⟨t, -, hr⟩ := bind_eq_ok.mp hr
    obtain ⟨b, hset, -⟩ := bind_eq_ok.mp hr
    rw [hx.reset, h.tail_eq] at hset
    exact ⟨b, hset⟩
  obtain ⟨b, hset⟩ := hset
  obtain ⟨mem, rfl, -⟩ := hx.setBufferSize_inv hset
  refine ⟨mem, hset, ?_⟩
  rw [encode_eq hx h hset] at hr
  split_ifs at hr with hlen
  obtain ⟨t, hreplace, hr⟩ := bind_eq_ok.mp hr
  have harg : lengthArg (encoded s ++ mem.drop (encoded s).length) (encoded s).length =
      .ok ((encoded s).length : ℤ) := if_neg (by omega)
  obtain ⟨n, hn, -, hholds⟩ := h.replaceWith_inv harg hreplace
  rw [← Nat.cast_inj.mp hn, List.take_left] at hholds
  rw [← Except.ok.inj hr]
  exact ⟨hlen, hholds⟩

/-- A new object decodes no code whose length is almost an `int`. -/
theorem decode_new_inv [Malloc] (h : pBuffer.Holds (encoded s)) {r : ℤ × Base64 × Buffer}
    (hr : ({} : Base64).decode pBuffer = .ok r) : (4*((s.length+2)/3) : ℕ)+8 ≤ intMax := by
  have hset : ∃ b, ({} : Buffer).setBufferSize (encoded s).length = .ok b := by
    obtain ⟨t, -, hr⟩ := bind_eq_ok.mp hr
    obtain ⟨b, hset, -⟩ := bind_eq_ok.mp hr
    rw [h.tail_eq] at hset
    exact ⟨b, hset⟩
  obtain ⟨b, hset⟩ := hset
  obtain ⟨mem, rfl, -⟩ := Emptied.null.setBufferSize_inv hset
  rw [decode_eq Emptied.null h hset] at hr
  split_ifs at hr with hlen
  have hmax := h.length_lt
  rw [← length_encoded]
  by_contra hcode
  have hwrapped := Emptied.null.setBufferSize_wrapped (by omega) (by omega)
    (Or.inr (not_le.mp hcode)) hset
  rw [length_encoded] at hcode hwrapped
  have hsize : ({} : Buffer).bufferSize = 0 := rfl
  rw [hsize] at hwrapped
  have h32 : mem.length = 32 := hwrapped.resolve_left fun h => by omega
  unfold intMax at hcode
  omega

theorem RoundTrips.hasRoom [Malloc] (htrips : RoundTrips x pBuffer s) (hx : Used x)
    (h : pBuffer.Holds s) : x.HasRoom s := by
  obtain ⟨x', pBuffer', text, hencode, -, -, -, hdecode⟩ := htrips
  have hempty := emptied_of_used hx
  obtain ⟨mem, hset, hlen, hcode⟩ := encode_inv hempty h hencode
  obtain ⟨y', pBuffer'', hnew, -⟩ := hdecode {} Relation.ReflTransGen.refl
  have hfits := decode_new_inv hcode hnew
  refine or_iff_not_imp_left.mpr fun hdouble => ⟨hfits, ?_⟩
  have hmax := h.length_lt
  have hwrap : int32 (2*s.length : ℤ) < 0 ∨ intMax < int32 (2*s.length : ℤ)+8 := by
    rcases le_or_gt (2*s.length : ℤ) intMax with hle | hgt
    · rw [int32_eq (by omega) hle]
      exact Or.inr (not_le.mp hdouble)
    · unfold intMax at hmax
      rw [int32_of_gt hgt (by omega)]
      exact Or.inl (by omega)
  rw [length_encoded] at hlen
  -- the smallest block has no room for so long a code
  rcases hempty.setBufferSize_wrapped (int32_ge _) (int32_le _) hwrap hset with ⟨hsize, hask⟩ | h32
  · exact ⟨by omega, hask⟩
  · unfold intMax at hdouble
    omega

/-- Every text comes back exactly when there is room for its code. -/
theorem roundTrips_iff [Malloc] (hx : Used x) (h : pBuffer.Holds s) :
    RoundTrips x pBuffer s ↔ x.HasRoom s :=
  ⟨fun htrips => htrips.hasRoom hx h, fun hroom => hroom.roundTrips hx h⟩

theorem roundTrips_cluster :
    RoundTrips {} (Buffer.terminated (bytes "cluster")) (bytes "cluster") :=
  (roundTrips_iff Relation.ReflTransGen.refl (Buffer.holds_terminated (by decide))).mpr
    (Or.inl (by decide))

/-! ### A long text -/

/-- 2^30 bytes. -/
def longText : Bytes := List.replicate 1073741824 0

/-- The new object asks for a block of a negative size, and gets the smallest one. -/
theorem longText_not_encoded : ¬ RoundTrips {} (Buffer.terminated longText) longText := by
  have hlen : longText.length = 1073741824 := List.length_replicate
  have hshort : (longText.length : ℤ) < intMax := by
    rw [hlen]
    decide
  intro htrips
  rcases htrips.hasRoom Relation.ReflTransGen.refl (Buffer.holds_terminated hshort) with
    hdouble | ⟨-, hkept, -⟩
  · rw [hlen] at hdouble
    exact absurd hdouble (by decide)
  · rw [hlen] at hkept
    exact absurd hkept (by decide)

end Base64
end MsgCourier
