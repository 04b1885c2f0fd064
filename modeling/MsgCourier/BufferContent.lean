import MsgCourier.Buffer

/-! A buffer as the list of its bytes. Every operation the message path uses acts on the
content as the list operation of the same name, as long as sizes stay below `INT_MAX - 8`. -/
namespace MsgCourier
open ListSearch CText

theorem store_ok {mem src : Bytes} {i : ℕ} (h : i+src.length ≤ mem.length) :
    store mem i src = .ok (mem.take i ++ src ++ mem.drop (i+src.length)) := by
  unfold store
  rw [if_pos ⟨by omega, by exact_mod_cast h⟩]
  rfl

theorem fetch_ok {mem : Bytes} {i n : ℕ} (h : i+n ≤ mem.length) :
    fetch mem i n = .ok ((mem.drop i).take n) := by
  unfold fetch
  rw [if_pos ⟨by omega, by omega, by exact_mod_cast h⟩]
  rfl

namespace Buffer

/-- `b` is a buffer with content `c`: no block yet, or a block with room behind the content. -/
inductive Holds : Buffer → Bytes → Prop
  | null : Holds {} []
  | block (c junk : Bytes) (hj : junk ≠ []) (hs : ((c ++ junk).length : ℤ) ≤ intMax) :
      Holds ⟨some (c ++ junk), (c ++ junk).length, c.length⟩ c

/-- A block with a NUL right behind the content. -/
inductive Sealed : Buffer → Bytes → Prop
  | mk (c junk : Bytes) (hs : ((c ++ 0 :: junk).length : ℤ) ≤ intMax) :
      Sealed ⟨some (c ++ 0 :: junk), (c ++ 0 :: junk).length, c.length⟩ c

/-- Room for `n` more bytes, in the block or in one that can still be allocated. -/
def Fits (b : Buffer) (n : ℤ) : Prop := n < b.bufferSize-b.tail ∨ b.tail+n+8 ≤ intMax

theorem Sealed.holds {b : Buffer} {c : Bytes} (h : b.Sealed c) : b.Holds c := by
  obtain ⟨c, junk, hs⟩ := h
  exact Holds.block c (0 :: junk) (List.cons_ne_nil _ _) hs

/-- The smallest block that holds `c`. -/
def terminated (c : Bytes) : Buffer := ⟨some (c ++ [0]), c.length+1, c.length⟩

theorem holds_terminated {c : Bytes} (hc : (c.length : ℤ) < intMax) : (terminated c).Holds c := by
  have hs : ((c ++ [0]).length : ℤ) = c.length+1 := by simp
  rw [terminated, ← hs]
  exact Holds.block c [0] (List.cons_ne_nil _ _) (by omega)

theorem sealed_terminated {c : Bytes} (hc : (c.length : ℤ) < intMax) : (terminated c).Sealed c := by
  have hs : ((c ++ [0]).length : ℤ) = c.length+1 := by simp
  rw [terminated, ← hs]
  exact Sealed.mk c [] (by omega)

theorem Sealed.pBuffer_eq {b : Buffer} {c : Bytes} (h : b.Sealed c) :
    ∃ junk, b.pBuffer = some (c ++ 0 :: junk) := by
  obtain ⟨c, junk, hs⟩ := h
  exact ⟨junk, rfl⟩

theorem Holds.tail_eq {b : Buffer} {c : Bytes} (h : b.Holds c) : b.tail = c.length := by
  cases h <;> rfl

theorem Holds.length_lt {b : Buffer} {c : Bytes} (h : b.Holds c) : (c.length : ℤ) < intMax := by
  cases h with
  | null => decide
  | block c junk hj hs =>
    have := List.length_pos_iff.mpr hj
    simp only [List.length_append, Nat.cast_add] at hs
    omega

theorem Holds.unique {b : Buffer} {c c' : Bytes} (h : b.Holds c) (h' : b.Holds c') : c = c' := by
  have hlen : c.length = c'.length := by
    have := h.tail_eq.symm.trans h'.tail_eq
    exact_mod_cast this
  cases h with
  | null => exact (List.eq_nil_of_length_eq_zero hlen.symm).symm
  | block c junk hj hs =>
    generalize hb : (⟨some (c ++ junk), (c ++ junk).length, c.length⟩ : Buffer) = b at h'
    cases h' with
    | null => exact List.eq_nil_of_length_eq_zero hlen
    | block c' junk' hj' hs' =>
      have hmem : c ++ junk = c' ++ junk' := by
        have := congrArg Buffer.pBuffer hb
        simpa using this
      exact (List.append_inj hmem hlen).1

theorem Holds.reset {b : Buffer} {c : Bytes} (h : b.Holds c) : b.reset.Holds [] := by
  cases h with
  | null => exact Holds.null
  | block c junk hj hs =>
    exact Holds.block [] (c ++ junk) (by simp [hj]) hs

/-- Terminating a block makes the byte behind the content a NUL. -/
theorem makeString_block (c junk : Bytes) (hj : junk ≠ [])
    (hs : ((c ++ junk).length : ℤ) ≤ intMax) :
    ∃ b', makeString ⟨some (c ++ junk), (c ++ junk).length, c.length⟩ = .ok b' ∧ b'.Sealed c := by
  obtain ⟨a, junk, rfl⟩ := List.exists_cons_of_ne_nil hj
  refine ⟨_, ?_, Sealed.mk c junk (by simpa using hs)⟩
  simp only [makeString]
  rw [store_ok (by simp)]
  simp [ok_bind, pure_eq_ok]

theorem Holds.makeString {b : Buffer} {c : Bytes} (h : b.Holds c) :
    (b = {} ∧ c = []) ∨ ∃ b', b.makeString = .ok b' ∧ b'.Sealed c := by
  cases h with
  | null => exact Or.inl ⟨rfl, rfl⟩
  | block c junk hj hs => exact Or.inr (makeString_block c junk hj hs)

theorem Holds.pBuffer_eq {b : Buffer} {c : Bytes} (h : b.Holds c) (hc : c ≠ []) :
    ∃ junk, b.pBuffer = some (c ++ junk) := by
  cases h with
  | null => exact absurd rfl hc
  | block c junk hj hs => exact ⟨junk, rfl⟩

theorem Holds.junk_ne_nil {b : Buffer} {c junk : Bytes} (h : b.Holds c) (hc : c ≠ [])
    (hb : b.pBuffer = some (c ++ junk)) : junk ≠ [] := by
  cases h with
  | null => exact absurd rfl hc
  | block c junk' hj hs =>
    rw [Option.some.injEq, List.append_cancel_left_eq] at hb
    exact hb ▸ hj

/-- Terminating writes a NUL over the first stale byte and keeps the others. -/
theorem Holds.makeString_stale {b : Buffer} {c junk : Bytes} (h : b.Holds c)
    (hb : b.pBuffer = some (c ++ junk)) : ∃ b', b.makeString = .ok b' ∧ b'.Sealed c ∧
      b'.pBuffer = some (c ++ 0 :: junk.tail) := by
  cases h with
  | null => cases hb
  | block c junk' hj hs =>
    rw [Option.some.injEq, List.append_cancel_left_eq] at hb
    subst hb
    obtain ⟨a, junk, rfl⟩ := List.exists_cons_of_ne_nil hj
    refine ⟨⟨some (c ++ 0 :: junk), (c ++ 0 :: junk).length, c.length⟩, ?_,
      Sealed.mk c junk (by simpa using hs), rfl⟩
    simp only [Buffer.makeString]
    rw [store_ok (by simp)]
    simp [ok_bind, pure_eq_ok]

theorem Sealed.makeString {b : Buffer} {c : Bytes} (h : b.Sealed c) : b.makeString = .ok b := by
  obtain ⟨c, junk, hs⟩ := h
  simp only [Buffer.makeString]
  rw [store_ok (by simp)]
  simp [ok_bind, pure_eq_ok]

/-! ### Growing -/

theorem adjustSize_gt {n : ℤ} (h0 : 0 ≤ n) (h : n+8 ≤ intMax) :
    n < adjustSize n ∧ adjustSize n ≤ intMax := by
  have he : int32 (n+8) = n+8 := int32_eq (by omega) h
  unfold adjustSize
  rw [he]
  unfold intMax at h ⊢
  dsimp only
  split_ifs <;> omega

theorem malloc_ok [Malloc] (b : Buffer) {n : ℤ} (h : 0 ≤ n) :
    malloc b n = .ok (Malloc.block b n.toNat) := by
  unfold malloc
  rw [if_neg (by omega)]

/-- The block after `SetBufferSize(n)`: same content, more than `n` bytes. -/
theorem Holds.setBufferSize [Malloc] {b : Buffer} {c : Bytes} (h : b.Holds c) {n : ℤ} (h0 : 0 ≤ n)
    (hf : n < b.bufferSize ∨ n+8 ≤ intMax) :
    ∃ junk, b.setBufferSize n = .ok ⟨some (c ++ junk), (c ++ junk).length, c.length⟩ ∧
      n < (c ++ junk).length ∧ ((c ++ junk).length : ℤ) ≤ intMax ∧ junk ≠ [] := by
  cases h with
  | null =>
    have hn : n+8 ≤ intMax := hf.resolve_left (by simpa using h0)
    obtain ⟨hlo, hhi⟩ := adjustSize_gt h0 hn
    have hlen : ((adjustSize n).toNat : ℤ) = adjustSize n := Int.toNat_of_nonneg (by omega)
    have hblock := Malloc.length_block {} (adjustSize n).toNat
    refine ⟨Malloc.block {} (adjustSize n).toNat, ?_, ?_, ?_, ?_⟩
    · simp [Buffer.setBufferSize, malloc_ok _ (show 0 ≤ adjustSize n by omega), hlen,
        ok_bind, pure_eq_ok]
    · simpa [hlen] using hlo
    · simpa [hlen] using hhi
    · rw [← List.length_pos_iff, hblock]
      omega
  | block c junk hj hs =>
    by_cases hg : ((c ++ junk).length : ℤ) ≤ n
    · have hn : n+8 ≤ intMax := hf.resolve_left (by simpa using hg)
      obtain ⟨hlo, hhi⟩ := adjustSize_gt h0 hn
      have hlen : ((adjustSize n).toNat : ℤ) = adjustSize n := Int.toNat_of_nonneg (by omega)
      set new := Malloc.block ⟨some (c ++ junk), (c ++ junk).length, c.length⟩
        (adjustSize n).toNat with hset
      have hblock : new.length = (adjustSize n).toNat := Malloc.length_block _ _
      refine ⟨junk ++ new.drop (c ++ junk).length, ?_, ?_, ?_, ?_⟩
      · have hold : fetch (c ++ junk) 0 ((c ++ junk).length : ℤ) = .ok (c ++ junk) := by
          have hf := fetch_ok (show 0+(c ++ junk).length ≤ (c ++ junk).length by omega)
          rwa [List.drop_zero, List.take_length] at hf
        have hnew : store new 0 (c ++ junk) =
            .ok ((c ++ junk) ++ new.drop (c ++ junk).length) := by
          have hst := store_ok (show 0+(c ++ junk).length ≤ new.length by omega)
          simpa only [Nat.cast_zero, List.take_zero, List.nil_append, zero_add] using hst
        have hsize : (((c ++ junk) ++ new.drop (c ++ junk).length).length : ℤ) =
            adjustSize n := by
          rw [List.length_append, List.length_drop]
          omega
        simp only [Buffer.setBufferSize, if_pos hg, malloc_ok _ (show 0 ≤ adjustSize n by omega),
          ok_bind, pure_eq_ok, ← hset, hold, hnew, ← List.append_assoc, hsize]
      · simp only [List.length_append, List.length_drop] at hg ⊢
        omega
      · simp only [List.length_append, List.length_drop] at hg ⊢
        omega
      · simp [hj]
    · refine ⟨junk, ?_, by omega, hs, hj⟩
      simp only [Buffer.setBufferSize, if_neg hg, pure_eq_ok]

/-! ### Appending and replacing -/

theorem Holds.length_le {b : Buffer} {c : Bytes} (h : b.Holds c) :
    (c.length : ℤ) ≤ b.bufferSize ∧ b.bufferSize ≤ intMax := by
  cases h with
  | null => exact ⟨le_rfl, by simp [intMax]⟩
  | block c junk hj hs =>
    refine ⟨?_, hs⟩
    simp only [List.length_append, Nat.cast_add]
    omega

/-- After the growth step of `Append` more than `n` bytes are free behind the content. -/
theorem Holds.appendRoom [Malloc] {b : Buffer} {c : Bytes} (h : b.Holds c) {n : ℕ} (hf : b.Fits n) :
    ∃ junk,
      b.appendRoom n = .ok ⟨some (c ++ junk), (c ++ junk).length, c.length⟩ ∧
      n < junk.length ∧ ((c ++ junk).length : ℤ) ≤ intMax := by
  have htail := h.tail_eq
  obtain ⟨hlo, hhi⟩ := h.length_le
  have hfree : int32 (b.bufferSize-b.tail) = b.bufferSize-b.tail :=
    int32_eq (by omega) (by omega)
  unfold Buffer.appendRoom
  rw [hfree]
  dsimp only
  split_ifs with hle
  · have hbound : b.tail+n+8 ≤ intMax := hf.resolve_left (by omega)
    have hnew : int32 ((n : ℤ)-(b.bufferSize-b.tail)) = n-(b.bufferSize-b.tail) :=
      int32_eq (by omega) (by omega)
    have hsize : int32 (n-(b.bufferSize-b.tail)+b.bufferSize) = c.length+n := by
      rw [int32_eq (by omega) (by omega)]
      omega
    rw [hnew, hsize]
    obtain ⟨junk, hset, hroom, hs, _⟩ := h.setBufferSize (n := c.length+n) (by omega)
      (Or.inr (by omega))
    refine ⟨junk, hset, ?_, hs⟩
    simp only [List.length_append, Nat.cast_add] at hroom
    omega
  · cases h with
    | null =>
      simp only [sub_zero] at hle
      omega
    | block c junk hj hs =>
      refine ⟨junk, rfl, ?_, hs⟩
      simp only [List.length_append, Nat.cast_add] at hle
      omega

/-- Appending with a length argument that stands for `n` bytes of the text. -/
theorem Holds.append_arg [Malloc] {b : Buffer} {c : Bytes} (h : b.Holds c) {p : Bytes} {n : ℕ}
    {z : ℤ} (hz : z ≠ 0) (harg : lengthArg p z = .ok n) (hn : n ≤ p.length) (hf : b.Fits n) :
    ∃ b', b.append (some p) z = .ok (0, b') ∧ b'.Sealed (c ++ p.take n) := by
  obtain ⟨junk, hgrow, hroom, hs⟩ := h.appendRoom hf
  have hsrc : fetch p 0 (n : ℤ) = .ok (p.take n) := by
    simpa using fetch_ok (show 0+n ≤ p.length by omega)
  have hlen : (p.take n).length = n := by simp [hn]
  have hst : store (c ++ junk) (c.length : ℤ) (p.take n) =
      .ok ((c ++ p.take n) ++ junk.drop n) := by
    rw [store_ok (by rw [hlen]; simp only [List.length_append]; omega), hlen]
    simp
  have htot : ((c ++ p.take n) ++ junk.drop n).length = (c ++ junk).length := by
    simp only [List.length_append, hlen, List.length_drop]
    omega
  have hnt : int32 ((c.length : ℤ)+n) = ((c ++ p.take n).length : ℤ) := by
    simp only [List.length_append, Nat.cast_add] at hs
    rw [int32_eq (by omega) (by omega), List.length_append, hlen, Nat.cast_add]
  obtain ⟨b', hb', hsealed⟩ := makeString_block (c ++ p.take n) (junk.drop n)
    (by simpa using hroom) (by rw [htot]; exact hs)
  refine ⟨b', ?_, hsealed⟩
  rw [htot] at hb'
  simp only [Buffer.append, if_neg hz, harg, ok_bind, pure_eq_ok, hgrow, hsrc, hst, hnt, hb',
    bufferNoError]

theorem lengthArg_natCast (p : Bytes) (n : ℕ) : lengthArg p n = .ok n := by
  rw [lengthArg, if_neg (by omega), pure_eq_ok]

theorem Holds.append [Malloc] {b : Buffer} {c : Bytes} (h : b.Holds c) (p : Bytes) {n : ℕ}
    (hn : n ≤ p.length) (hf : b.Fits n) :
    ∃ b', b.append (some p) n = .ok (0, b') ∧ b'.Holds (c ++ p.take n) ∧
      (0 < n → b'.Sealed (c ++ p.take n)) := by
  rcases Nat.eq_zero_or_pos n with rfl | hpos
  · exact ⟨b, by simp [Buffer.append, pure_eq_ok], by simpa using h, by omega⟩
  obtain ⟨b', hb', hsealed⟩ := h.append_arg (by omega) (lengthArg_natCast p n) hn hf
  exact ⟨b', hb', hsealed.holds, fun _ => hsealed⟩

theorem store_fail {mem src : Bytes} {i : ℤ} (h : (mem.length : ℤ) < i+src.length) :
    store mem i src = .error .undefined := by
  unfold store
  rw [if_neg (by omega)]

theorem adjustSize_overflow {n : ℤ} (hn : n ≤ intMax) (h : intMax < n+8) : adjustSize n = 32 := by
  unfold adjustSize
  rw [int32_of_gt h (by unfold intMax at *; omega)]
  exact if_pos (by unfold intMax at *; omega)

/-- Close to `INT_MAX` the size computation overflows and the new block has 32 bytes. -/
theorem Holds.setBufferSize_overflow [Malloc] {b b' : Buffer} {c : Bytes} (h : b.Holds c) {n k : ℤ}
    (hn : n ≤ intMax) (hover : intMax < n+8) (hk : n = b.tail+k) (hfull : b.bufferSize ≤ n)
    (hb' : b.setBufferSize n = .ok b') :
    ∃ mem, b'.pBuffer = some mem ∧ (mem.length : ℤ) < b'.tail+k := by
  have hadj := adjustSize_overflow hn hover
  have hmalloc (b : Buffer) : malloc b 32 = .ok (Malloc.block b 32) := rfl
  have hbig : 32 < n := by
    unfold intMax at hover
    omega
  cases h with
  | null =>
    simp only [Buffer.setBufferSize, hadj, hmalloc, ok_bind, pure_eq_ok, Except.ok.injEq] at hb'
    rw [← hb']
    refine ⟨_, rfl, ?_⟩
    simp only at hk
    simp only [Malloc.length_block]
    omega
  | block c junk hj hs =>
    have hfetch := fetch_ok (show 0+(c ++ junk).length ≤ (c ++ junk).length by omega)
    rw [Nat.cast_zero, List.drop_zero, List.take_length] at hfetch
    simp only at hfull hk
    simp only [Buffer.setBufferSize, if_pos hfull, hadj, hmalloc, ok_bind, hfetch] at hb'
    rcases Nat.lt_or_ge 32 (c ++ junk).length with hlt | hge
    · rw [store_fail (by rw [Malloc.length_block]; omega), error_bind] at hb'
      exact absurd hb' (by simp)
    · have hst (b : Buffer) := store_ok (i := 0)
        (show 0+(c ++ junk).length ≤ (Malloc.block b 32).length by
          rw [Malloc.length_block]; omega)
      simp only [Nat.cast_zero] at hst
      rw [hst, ok_bind, pure_eq_ok, Except.ok.injEq] at hb'
      rw [← hb']
      refine ⟨_, rfl, ?_⟩
      simp only [List.take_zero, List.nil_append, List.length_drop, List.length_append,
        Malloc.length_block] at hge hk ⊢
      omega

/-- An append that returns had room: beyond `INT_MAX - 8` the size computation overflows and the
copy leaves the block. -/
theorem Holds.fits_of_append_arg [Malloc] {b : Buffer} {c : Bytes} (h : b.Holds c) {p : Bytes}
    {n : ℕ} {z : ℤ} (hz : z ≠ 0) (harg : lengthArg p z = .ok n) (hn : n ≤ p.length)
    (hmax : (n : ℤ) ≤ intMax) {r : ℤ × Buffer} (hr : b.append (some p) z = .ok r) :
    b.Fits n := by
  by_contra hf
  obtain ⟨hf₁, hf₂⟩ := not_or.mp hf
  have htail := h.tail_eq
  obtain ⟨hlo, hhi⟩ := h.length_le
  have hlen : (p.take n).length = n := by simp [hn]
  have hsrc : fetch p 0 (n : ℤ) = .ok (p.take n) := by
    simpa using fetch_ok (show 0+n ≤ p.length by omega)
  have hfree : int32 (b.bufferSize-b.tail) = b.bufferSize-b.tail :=
    int32_eq (by omega) (by omega)
  have hnew : int32 ((n : ℤ)-(b.bufferSize-b.tail)) = n-(b.bufferSize-b.tail) :=
    int32_eq (by omega) (by omega)
  have hsum : (n : ℤ)-(b.bufferSize-b.tail)+b.bufferSize = b.tail+n := by omega
  -- whatever block there is after the growth step, it ends before the copied bytes do
  have hgrow : ∀ b', b.appendRoom n = .ok b' →
      ∃ mem, b'.pBuffer = some mem ∧ (mem.length : ℤ) < b'.tail+n := by
    intro b' hb'
    unfold Buffer.appendRoom at hb'
    rw [hfree] at hb'
    dsimp only at hb'
    rw [if_pos (by omega), hnew, hsum] at hb'
    rcases le_or_gt (b.tail+n) intMax with hle | hgt
    · rw [int32_eq (by omega) hle] at hb'
      exact h.setBufferSize_overflow hle (by omega) (by omega) (by omega) hb'
    · cases h with
      | null =>
        simp only at hgt
        omega
      | block c junk hj hs =>
        have hneg : ¬ ((c ++ junk).length : ℤ) ≤ c.length+n-4294967296 := by
          unfold intMax at *
          omega
        rw [int32_of_gt hgt (by unfold intMax at *; omega)] at hb'
        simp only [Buffer.setBufferSize, if_neg hneg, pure_eq_ok, Except.ok.injEq] at hb'
        rw [← hb']
        exact ⟨_, rfl, by omega⟩
  simp only [Buffer.append, if_neg hz, harg, ok_bind, pure_eq_ok] at hr
  cases hroom : b.appendRoom n with
  | error e =>
    rw [hroom] at hr
    exact absurd hr (by simp)
  | ok b' =>
    rw [hroom, ok_bind] at hr
    obtain ⟨mem, hmem, hlt⟩ := hgrow b' hroom
    simp only [hmem, hsrc, ok_bind, error_bind,
      store_fail (show (mem.length : ℤ) < b'.tail+(p.take n).length by rw [hlen]; exact hlt)] at hr
    exact absurd hr (by simp)

theorem Holds.fits_of_append [Malloc] {b : Buffer} {c : Bytes} (h : b.Holds c) {p : Bytes} {n : ℕ}
    (h0 : 0 < n) (hn : n ≤ p.length) (hmax : (n : ℤ) ≤ intMax) {r : ℤ × Buffer}
    (hr : b.append (some p) n = .ok r) : b.Fits n :=
  h.fits_of_append_arg (by omega) (lengthArg_natCast p n) hn hmax hr

theorem adjustSize_le (n : ℤ) : adjustSize n ≤ intMax := by
  have := int32_le (n+8)
  unfold adjustSize
  dsimp only
  split_ifs <;> unfold intMax at * <;> omega

theorem store_length {mem src mem' : Bytes} {i : ℤ} (h : store mem i src = .ok mem') :
    mem'.length = mem.length ∧ 0 ≤ i ∧ i+src.length ≤ mem.length := by
  unfold store at h
  split_ifs at h with hi
  refine ⟨?_, hi⟩
  rw [← Except.ok.inj h]
  simp only [List.length_append, List.length_take, List.length_drop]
  omega

/-- No block is longer than an `int` can say. -/
theorem Holds.setBufferSize_le [Malloc] {b b' : Buffer} {c : Bytes} (h : b.Holds c) {n : ℤ}
    (hb' : b.setBufferSize n = .ok b') :
    ∃ mem, b'.pBuffer = some mem ∧ (mem.length : ℤ) ≤ intMax ∧ b'.tail = b.tail := by
  have hle := adjustSize_le n
  have hmalloc : ∀ b mem, malloc b (adjustSize n) = .ok mem → (mem.length : ℤ) ≤ intMax := by
    intro b mem hmem
    unfold malloc at hmem
    split_ifs at hmem with hneg
    rw [← Except.ok.inj hmem, Malloc.length_block]
    omega
  cases h with
  | null =>
    obtain ⟨mem, hmem, hb'⟩ := bind_eq_ok.mp hb'
    rw [← Except.ok.inj hb']
    exact ⟨mem, rfl, hmalloc _ mem hmem, rfl⟩
  | block c junk hj hs =>
    simp only [Buffer.setBufferSize] at hb'
    split_ifs at hb' with hgrow
    · obtain ⟨mem, hmem, hb'⟩ := bind_eq_ok.mp hb'
      obtain ⟨old, hold, hb'⟩ := bind_eq_ok.mp hb'
      obtain ⟨mem', hmem', hb'⟩ := bind_eq_ok.mp hb'
      rw [← Except.ok.inj hb']
      exact ⟨mem', rfl, by rw [(store_length hmem').1]; exact hmalloc _ mem hmem, rfl⟩
    · rw [← Except.ok.inj hb']
      exact ⟨_, rfl, hs, rfl⟩

/-- An append that returns took a length of the text, and there was room for it. -/
theorem Holds.append_inv [Malloc] {b : Buffer} {c : Bytes} (h : b.Holds c) {p : Bytes} {z k : ℤ}
    (hz : z ≠ 0) (harg : lengthArg p z = .ok k) {r : ℤ × Buffer}
    (hr : b.append (some p) z = .ok r) :
    ∃ n : ℕ, k = n ∧ n ≤ p.length ∧ r.2.Holds (c ++ p.take n) := by
  -- the copy is inside the text and inside a block no longer than `INT_MAX`
  have hcopy : 0 ≤ k ∧ k ≤ p.length ∧ k ≤ intMax := by
    have hrun := hr
    simp only [Buffer.append, if_neg hz, harg, ok_bind, pure_eq_ok] at hrun
    obtain ⟨b', hroom, hrun⟩ := bind_eq_ok.mp hrun
    have hblock : ∀ mem, b'.pBuffer = some mem → (mem.length : ℤ) ≤ intMax := by
      intro mem hmem
      unfold Buffer.appendRoom at hroom
      dsimp only at hroom
      split_ifs at hroom
      · obtain ⟨mem', hmem', hle, -⟩ := h.setBufferSize_le hroom
        rw [hmem, Option.some.injEq] at hmem'
        exact hmem' ▸ hle
      · have heq := Except.ok.inj hroom
        subst heq
        cases h with
        | null => cases hmem
        | block c junk hj hs =>
          rw [← Option.some.inj hmem]
          exact hs
    cases hmem : b'.pBuffer with
    | none =>
      rw [hmem] at hrun
      cases hrun
    | some mem =>
      rw [hmem] at hrun
      obtain ⟨src, hsrc, hrun⟩ := bind_eq_ok.mp hrun
      obtain ⟨mem', hmem', -⟩ := bind_eq_ok.mp hrun
      obtain ⟨-, htail0, hfit⟩ := store_length hmem'
      have hle := hblock mem hmem
      unfold fetch at hsrc
      split_ifs at hsrc with hrange
      have hlen : (src.length : ℤ) = k := by
        rw [← Except.ok.inj hsrc, List.length_take, List.length_drop]
        omega
      omega
  obtain ⟨n, rfl⟩ := Int.eq_ofNat_of_zero_le hcopy.1
  have hn : n ≤ p.length := by exact_mod_cast hcopy.2.1
  have hfit := h.fits_of_append_arg hz harg hn hcopy.2.2 hr
  obtain ⟨b', hb', hsealed⟩ := h.append_arg hz harg hn hfit
  rw [hr] at hb'
  rw [Except.ok.inj hb']
  exact ⟨n, rfl, hn, hsealed.holds⟩

theorem Holds.replaceWith [Malloc] {b : Buffer} {c : Bytes} (h : b.Holds c) (p : Bytes) {n : ℕ}
    (hn : n ≤ p.length) (hf : b.reset.Fits n) :
    ∃ b', b.replaceWith (some p) n = .ok (0, b') ∧ b'.Holds (p.take n) ∧
      (0 < n → b'.Sealed (p.take n)) := by
  have hne1 : (n : ℤ) ≠ -1 := by omega
  simpa [Buffer.replaceWith, lengthArg, hne1, ok_bind, pure_eq_ok] using
    h.reset.append p hn hf

theorem Holds.replaceWith_inv [Malloc] {b : Buffer} {c : Bytes} (h : b.Holds c) {p : Bytes}
    {z k : ℤ}
    (harg : lengthArg p z = .ok k) {r : ℤ × Buffer} (hr : b.replaceWith (some p) z = .ok r) :
    ∃ n : ℕ, k = n ∧ n ≤ p.length ∧ r.2.Holds (p.take n) := by
  simp only [Buffer.replaceWith, harg, ok_bind] at hr
  rcases eq_or_ne k 0 with rfl | h0
  · rw [Buffer.append, if_pos rfl] at hr
    rw [← Except.ok.inj hr]
    exact ⟨0, rfl, Nat.zero_le _, by simpa using h.reset⟩
  · have hk : k ≠ -1 := by
      intro hk
      unfold lengthArg strlen at harg
      split_ifs at harg with hz
      · have := Except.ok.inj harg
        omega
      · exact hz (Except.ok.inj harg ▸ hk)
    exact h.reset.append_inv h0 (if_neg hk) hr

theorem Holds.fits_of_replaceWith [Malloc] {b : Buffer} {c : Bytes} (h : b.Holds c) {p : Bytes}
    {n : ℕ} (h0 : 0 < n) (hn : n ≤ p.length) (hmax : (n : ℤ) ≤ intMax) {r : ℤ × Buffer}
    (hr : b.replaceWith (some p) n = .ok r) : b.reset.Fits n := by
  have hne1 : (n : ℤ) ≠ -1 := by omega
  simp only [Buffer.replaceWith, lengthArg, if_neg hne1, pure_eq_ok, ok_bind] at hr
  exact h.reset.fits_of_append h0 hn hmax hr

/-- A size below `INT_MAX - 8` always fits an emptied buffer. -/
theorem Holds.fits_reset {b : Buffer} {n : ℤ} (hn : n+8 ≤ intMax) :
    b.reset.Fits n :=
  Or.inr (by simpa [Buffer.reset] using hn)

/-! ### Printing -/

/-- A text is printed over the block that `setBufferSize` leaves if it and its terminator fit. -/
theorem sprintf_of_setBufferSize [Malloc] {b : Buffer} {n : ℤ} {c junk : Bytes} {a : Byte}
    (hset : b.setBufferSize n = .ok ⟨some (c ++ a :: junk), (c ++ a :: junk).length, c.length⟩)
    (hs : ((c ++ a :: junk).length : ℤ) ≤ intMax) {text : Bytes} (ht : 0 ∉ text) :
    (text.length < (c ++ a :: junk).length → ∃ b', b.sprintf n text = .ok b' ∧ b'.Sealed text) ∧
      ((c ++ a :: junk).length ≤ text.length → b.sprintf n text = .error .undefined) := by
  have hterm : Buffer.makeString ⟨some (c ++ a :: junk), (c ++ a :: junk).length, c.length⟩ =
      .ok ⟨some (c ++ 0 :: junk), (c ++ a :: junk).length, c.length⟩ := by
    simp only [Buffer.makeString]
    rw [store_ok (by simp)]
    simp [ok_bind, pure_eq_ok]
  have hlen : (c ++ 0 :: junk).length = (c ++ a :: junk).length := by simp
  refine ⟨fun hlt => ?_, fun hge => ?_⟩
  · -- the terminator of the text is the first NUL of the new block
    have hst := store_ok (show 0+(text ++ [0]).length ≤ (c ++ 0 :: junk).length by
      simp only [List.length_append, List.length_singleton] at hlen hlt ⊢
      omega)
    obtain ⟨rest, hrest⟩ : ∃ rest, (c ++ 0 :: junk).drop (text ++ [0]).length = rest := ⟨_, rfl⟩
    rw [Nat.cast_zero, List.take_zero, List.nil_append, zero_add, hrest, List.append_assoc,
      List.singleton_append] at hst
    have hcstr : cstr (text ++ 0 :: rest) = text := by rw [cstr_append_zero, cstr_eq_self ht]
    have htot : (text ++ 0 :: rest).length = (c ++ a :: junk).length := by
      have hr := congrArg List.length hrest
      simp only [List.length_drop, List.length_append, List.length_cons, List.length_nil]
        at hr hlen hlt ⊢
      omega
    have hseal := Sealed.mk text rest (by rw [htot]; exact hs)
    rw [htot] at hseal
    refine ⟨_, ?_, hseal⟩
    rw [Buffer.sprintf, hset, ok_bind, hterm, ok_bind]
    dsimp only
    rw [hst, ok_bind, hcstr]
    exact hseal.makeString
  · rw [Buffer.sprintf, hset, ok_bind, hterm, ok_bind]
    dsimp only
    rw [store, if_neg (by
      simp only [List.length_append, List.length_singleton, Nat.cast_add] at hlen hge ⊢
      omega)]
    rfl

/-- The block has more than `n` bytes then. -/
theorem Holds.sprintf [Malloc] {b : Buffer} {c : Bytes} (h : b.Holds c) {n : ℤ} (h0 : 0 ≤ n)
    (hn : n+8 ≤ intMax) {text : Bytes} (ht : 0 ∉ text) : ∃ size : ℕ, n < size ∧
      (text.length < size → ∃ b', b.sprintf n text = .ok b' ∧ b'.Sealed text) ∧
      (size ≤ text.length → b.sprintf n text = .error .undefined) := by
  obtain ⟨junk, hset, hroom, hs, hj⟩ := h.setBufferSize h0 (Or.inr hn)
  obtain ⟨a, junk, rfl⟩ := List.exists_cons_of_ne_nil hj
  exact ⟨_, hroom, sprintf_of_setBufferSize hset hs ht⟩

/-! ### Removing -/

/-- Removing the first `n` bytes of the content. -/
theorem Holds.remove {b : Buffer} {c : Bytes} (h : b.Holds c) {n : ℕ} (h0 : 0 < n)
    (hn : n ≤ c.length) : ∃ b', b.remove 0 n = .ok (0, b') ∧ b'.Holds (c.drop n) := by
  cases h with
  | null => simp at hn; omega
  | block c junk hj hs =>
    have hc : (c.length : ℤ) ≠ 0 := by omega
    have hlen : (c.length : ℤ) + junk.length ≤ intMax := by simpa using hs
    have hjl := List.length_pos_iff.mpr hj
    have hle : ¬ ((c ++ junk).length : ℤ) < n := by
      simp only [List.length_append, Nat.cast_add]
      omega
    have hoff : int32 ((n : ℤ)+0) = n := by
      rw [add_zero]
      exact int32_eq (by omega) (by omega)
    have hne : ¬ ((n : ℤ) = 0 ∨ ((c ++ junk).length : ℤ) < n) := by omega
    have htail : int32 ((c.length : ℤ)-n) = ((c.drop n).length : ℤ) := by
      rw [int32_eq (by omega) (by omega), List.length_drop, Nat.cast_sub hn]
    by_cases heq : (c.length : ℤ) = n
    · -- the whole content goes: the tail moves and the block stays
      have hd : c.drop n = [] := List.drop_eq_nil_of_le (by omega)
      refine ⟨⟨some (c ++ junk), (c ++ junk).length, 0⟩, ?_, ?_⟩
      · rw [hd] at htail
        simp only [Buffer.remove, if_neg hc, if_neg hle, hoff, if_neg hne, if_pos heq, htail,
          bufferNoError, pure_eq_ok, List.length_nil, Nat.cast_zero]
      · rw [hd]
        exact Holds.block [] (c ++ junk) (by simp [hj]) hs
    · have hf : fetch (c ++ junk) (n : ℤ) (int32 ((c.length : ℤ)-n)) = .ok (c.drop n) := by
        rw [htail, fetch_ok (by simp only [List.length_append, List.length_drop]; omega),
          List.drop_append_of_le_length hn, List.take_left]
      rw [htail] at hf
      have hst : store (c ++ junk) 0 (c.drop n) =
          .ok (c.drop n ++ (c ++ junk).drop (c.drop n).length) := by
        simpa using store_ok (show 0+(c.drop n).length ≤ (c ++ junk).length by
          simp only [List.length_append, List.length_drop]; omega)
      have htot : ((c.drop n ++ (c ++ junk).drop (c.drop n).length).length : ℤ) =
          (c ++ junk).length := by
        simp only [List.length_append, List.length_drop]
        omega
      refine ⟨_, ?_, Holds.block (c.drop n) ((c ++ junk).drop (c.drop n).length) ?_ ?_⟩
      · simp only [Buffer.remove, if_neg hc, if_neg hle, hoff, if_neg hne, if_neg heq, hf, hst,
          bufferNoError, ok_bind, pure_eq_ok, htail, htot]
      · intro hnil
        have := congrArg List.length hnil
        simp only [List.length_append, List.length_drop, List.length_nil] at this
        omega
      · rw [htot]
        exact hs

/-- A negative length moves bytes from in front of the block. -/
theorem Sealed.remove_negative {b : Buffer} {c : Bytes} (h : b.Sealed c) (hc : c ≠ []) {n : ℤ}
    (hn : n < 0) (hmin : -2147483648 ≤ n) : b.remove 0 n = .error .undefined := by
  obtain ⟨c, junk, hs⟩ := h
  have hlen := List.length_pos_iff.mpr hc
  have hc0 : ¬ (c.length : ℤ) = 0 := by omega
  have hle : ¬ ((c ++ 0 :: junk).length : ℤ) < n := by omega
  have hoff : int32 (n+0) = n := by
    rw [add_zero]
    exact int32_eq hmin (by unfold intMax; omega)
  have hne : ¬ (n = 0 ∨ ((c ++ 0 :: junk).length : ℤ) < n) := by omega
  have heq : ¬ (c.length : ℤ) = n := by omega
  have hf (k : ℤ) : fetch (c ++ 0 :: junk) n k = .error .undefined := if_neg (by omega)
  simp only [Buffer.remove, if_neg hc0, if_neg hle, hoff, if_neg hne, if_neg heq, hf, error_bind]

/-! ### Searching -/

theorem Holds.find_empty {b : Buffer} (h : b.Holds []) (pat : Bytes) (off : ℤ) :
    b.find pat off = .ok (-1, b) := by
  simp [Buffer.find, h.tail_eq, pure_eq_ok]

/-- `Find` from an offset inside the content searches the text of the content from there. -/
theorem Holds.find {b : Buffer} {c : Bytes} (h : b.Holds c) (hc : c ≠ []) (pat : Bytes) {off : ℕ}
    (ho : off ≤ c.length) : ∃ b', b'.Sealed c ∧
      b.find pat off = .ok ((strstr (c.drop off) pat).elim (-1) (fun k => (off : ℤ)+k), b') := by
  have hlen := List.length_pos_iff.mpr hc
  rcases h.makeString with ⟨rfl, rfl⟩ | ⟨b', hb', hs⟩
  · exact absurd rfl hc
  refine ⟨b', hs, ?_⟩
  have ht : b.tail ≠ 0 := by rw [h.tail_eq]; omega
  obtain ⟨c, junk, hs⟩ := hs
  have hrange : 0 ≤ (off : ℤ) ∧ (off : ℤ) ≤ (c ++ 0 :: junk).length := by
    simp only [List.length_append, List.length_cons]
    omega
  have hdrop : strstr ((c ++ 0 :: junk).drop off) pat = strstr (c.drop off) pat := by
    rw [List.drop_append_of_le_length ho, strstr, cstr_append_zero, strstr]
  simp only [Buffer.find, if_neg ht, hb', ok_bind, if_pos hrange, Int.toNat_natCast,
    hdrop]
  cases strstr (c.drop off) pat <;> rfl

/-- `Find` terminates the block and leaves it so, whatever it finds. -/
theorem Holds.find_buffer {b : Buffer} {c junk : Bytes} (h : b.Holds c) (hc : c ≠ [])
    (hb : b.pBuffer = some (c ++ junk)) {pat : Bytes} {off : ℤ} {r : ℤ × Buffer}
    (hr : b.find pat off = .ok r) :
    r.2.Sealed c ∧ r.2.pBuffer = some (c ++ 0 :: junk.tail) := by
  have ht : b.tail ≠ 0 := by
    rw [h.tail_eq]
    have := List.length_pos_iff.mpr hc
    omega
  obtain ⟨b', hb', hs, hblock'⟩ := h.makeString_stale hb
  simp only [Buffer.find, if_neg ht, hb', ok_bind, hblock'] at hr
  split_ifs at hr
  cases hk : strstr ((c ++ 0 :: junk.tail).drop off.toNat) pat with
  | none =>
    rw [hk] at hr
    rw [← Except.ok.inj hr]
    exact ⟨hs, hblock'⟩
  | some k =>
    rw [hk] at hr
    rw [← Except.ok.inj hr]
    exact ⟨hs, hblock'⟩

/-- A position the binary search reports is the first match in the block. -/
theorem Holds.firstOcc_of_binaryFind {b : Buffer} {c mem pat : Bytes} (h : b.Holds c)
    (hb : b.pBuffer = some mem) (hne : b.binaryFind 0 pat ≠ -1) :
    ∃ k : ℕ, firstOcc pat mem = some k ∧ b.binaryFind 0 pat = k ∧ k < c.length := by
  have htail := h.tail_eq
  by_cases h0 : b.tail = 0 ∨ b.tail < 0
  · exact absurd (if_pos h0) hne
  have hval : b.binaryFind 0 pat = (firstOcc pat mem).elim (-1)
      fun k => if (k : ℤ) < b.tail then (k : ℤ)+0 else -1 := by
    unfold Buffer.binaryFind
    rw [if_neg h0, hb, Option.getD_some, Int.toNat_zero, List.drop_zero]
    cases firstOcc pat mem <;> rfl
  rw [hval] at hne ⊢
  cases hk : firstOcc pat mem with
  | none =>
    rw [hk] at hne
    exact absurd rfl hne
  | some k =>
    rw [hk, Option.elim_some] at hne
    rw [Option.elim_some]
    by_cases hlt : (k : ℤ) < b.tail
    · exact ⟨k, rfl, by rw [if_pos hlt, add_zero], by omega⟩
    · exact absurd (if_neg hlt) hne

/-- `BinaryFind` from the start of a block, with its test of the position found. -/
theorem Holds.binaryFind_block {b : Buffer} {c mem pat : Bytes} {k : ℕ} (h : b.Holds c)
    (hb : b.pBuffer = some mem) (hk : firstOcc pat mem = some k) (hlt : k < c.length) :
    b.binaryFind 0 pat = k := by
  have htail := h.tail_eq
  have h0 : ¬ (b.tail = 0 ∨ b.tail < 0) := by omega
  have hlt' : (k : ℤ) < b.tail := by omega
  unfold Buffer.binaryFind
  rw [if_neg h0, hb, Option.getD_some, Int.toNat_zero, List.drop_zero, hk]
  dsimp only
  rw [if_pos hlt', add_zero]

/-- `Find` from the start of a block: it terminates the content first. -/
theorem Holds.find_block {b : Buffer} {c junk : Bytes} (h : b.Holds c) (hc : c ≠ [])
    (hblock : b.pBuffer = some (c ++ junk)) (pat : Bytes) : ∃ b', b'.Sealed c ∧
      b'.pBuffer = some (c ++ 0 :: junk.tail) ∧
      b.find pat 0 = .ok ((strstr (c ++ 0 :: junk.tail) pat).elim (-1) fun k => (k : ℤ), b') := by
  obtain ⟨b', hb', hs, hblock'⟩ := h.makeString_stale hblock
  have htail := h.tail_eq
  have hlen := List.length_pos_iff.mpr hc
  refine ⟨b', hs, hblock', ?_⟩
  rw [Buffer.find, if_neg (by omega), hb', ok_bind, hblock']
  dsimp only
  rw [if_pos (by omega), Int.toNat_zero, List.drop_zero]
  cases strstr (c ++ 0 :: junk.tail) pat with
  | none => rfl
  | some k => simp

/-- On a terminated block the binary search finds what the search in the content finds. -/
theorem Sealed.binaryFind {b : Buffer} {c : Bytes} (h : b.Sealed c) {pat : Bytes} (hp : pat ≠ [])
    (h0 : 0 ∉ pat) : b.binaryFind 0 pat = (firstOcc pat c).elim (-1) (fun k => (k : ℤ)) := by
  obtain ⟨c, junk, hs⟩ := h
  rcases eq_or_ne c [] with rfl | hc
  · have : firstOcc pat [] = none := by simp [firstOcc, hp]
    simp [Buffer.binaryFind, this]
  have hlen := List.length_pos_iff.mpr hc
  have hcond : ¬ ((c.length : ℤ) = 0 ∨ (c.length : ℤ) < 0) := by omega
  simp only [Buffer.binaryFind, if_neg hcond, Option.getD_some, Int.toNat_zero, List.drop_zero]
  cases hk : firstOcc pat c with
  | some k =>
    have hle := firstOcc_le pat hk
    have hpl := List.length_pos_iff.mpr hp
    rw [firstOcc_append hp hk]
    dsimp only
    rw [if_pos (by omega), add_zero, Option.elim_some]
  | none =>
    cases hk' : firstOcc pat (c ++ 0 :: junk) with
    | none => rfl
    | some k =>
      have := firstOcc_append_cons_gt hp h0 hk hk'
      dsimp only
      rw [if_neg (by omega), Option.elim_none]

end Buffer

/-- A buffer together with what it holds. -/
structure ByteBuffer where
  buffer : Buffer
  content : Bytes
  holds : buffer.Holds content

end MsgCourier
