import MsgCourier.BufferEdit
import MsgCourier.Runs

/-! `cBuffer` refines a list of bytes: each operation does to the content what the list operation
does, and the terminator always has a place behind the content. -/
namespace MsgCourier
open ListSearch CText Runs ZeroFill

/-- A call of the class, with the bytes readable from the pointer it gets. -/
inductive BufferOp
  | append (pData : Option Bytes) (iLen : ℕ)
  | prepend (pData : Option Bytes) (iSize : ℕ)
  | insert (iIndex : ℕ) (pData : Bytes) (iLength : ℕ)
  | remove (iIndex iLength : ℕ)
  | replaceWith (pData : Option Bytes) (iSize : ℕ)
  | setBufferSize (iSize : ℕ)
  | setBufferLength (iSize : ℕ)
  | makeString
  | reset
  | flush

namespace BufferOp

/-- The call, without its return code. -/
def run [Malloc] (b : Buffer) : BufferOp → Cxx Buffer
  | append p n => Prod.snd <$> b.append p n
  | prepend p n => Prod.snd <$> b.prepend p n
  | insert i p n => b.insert i p n
  | remove i n => Prod.snd <$> b.remove i n
  | replaceWith p n => Prod.snd <$> b.replaceWith p n
  | setBufferSize n => b.setBufferSize n
  | setBufferLength n => b.setBufferLength n
  | makeString => b.makeString
  | reset => pure b.reset
  | flush => pure b.flush

/-- The same operation on a list. -/
def list (c : Bytes) : BufferOp → Bytes
  | append none _ => c
  | append (some p) n => c ++ p.take n
  | prepend none _ => c
  | prepend (some p) n => p.take n ++ c
  | insert i p n => c.take i ++ p.take n ++ c.drop i
  | remove i n => c.take i ++ c.drop (i+n)
  | replaceWith none _ => []
  | replaceWith (some p) n => p.take n
  | setBufferSize _ => c
  | setBufferLength n => c.take n
  | makeString => c
  | reset => []
  | flush => []

/-- The region lies inside the content, the bytes are there, and no size is above `INT_MAX`. -/
def Valid (b : Buffer) : BufferOp → Prop
  | append none _ => True
  | append (some p) n => n ≤ p.length ∧ b.Fits n
  | prepend none _ => True
  | prepend (some p) n => n ≤ p.length ∧ b.FitsInsert n
  | insert i p n => (i : ℤ) ≤ b.tail ∧ n ≤ p.length ∧ b.FitsInsert n
  | remove i n => ((i+n : ℕ) : ℤ) ≤ b.tail
  | replaceWith none _ => True
  | replaceWith (some p) n => n ≤ p.length ∧ b.reset.Fits n
  | setBufferSize n => n < b.bufferSize ∨ (n : ℤ)+8 ≤ intMax
  | setBufferLength n => (n : ℤ) ≤ b.tail
  | makeString => True
  | reset => True
  | flush => True

end BufferOp

namespace Buffer

variable {b : Buffer} {c : Bytes}

theorem Keeps.prepend [Malloc] (h : b.Keeps c) (p : Bytes) {n : ℕ} (hn : n ≤ p.length)
    (hf : b.FitsInsert n) :
    ∃ b', b.prepend (some p) n = .ok (bufferNoError, b') ∧ b'.Keeps (p.take n ++ c) := by
  obtain ⟨b', hb', hclosed, _⟩ := h.insert p (Nat.zero_le _) hn hf
  rw [List.take_zero, List.nil_append, List.drop_zero] at hclosed
  refine ⟨b', ?_, hclosed.keeps⟩
  rw [Nat.cast_zero] at hb'
  unfold Buffer.prepend
  dsimp only
  rw [lengthArg_natCast, ok_bind, hb']
  rfl

/-- A region without bytes is refused, and the buffer stays. -/
theorem Keeps.remove_zero (h : b.Keeps c) (i : ℕ) : ∃ k, b.remove i 0 = .ok (k, b) := by
  unfold Buffer.remove
  have hpos := h.size_le.1
  dsimp only
  rw [if_neg (show ¬ b.bufferSize < 0 by omega), if_pos (Or.inl rfl)]
  split_ifs
  · exact ⟨bufferIsEmpty, rfl⟩
  · exact ⟨bufferRegionOutOfBounds, rfl⟩

theorem Keeps.setBufferLength [Malloc] (h : b.Keeps c) {n : ℕ} (hn : n ≤ c.length) :
    ∃ b', b.setBufferLength n = .ok b' ∧ b'.Keeps (c.take n) := by
  have hfit : (n : ℤ) < b.bufferSize ∨ (n : ℤ)+8 ≤ intMax := by
    cases h with
    | null =>
      rw [List.length_nil] at hn
      right
      unfold intMax
      omega
    | block c junk size hroom hsize hend hs =>
      left
      exact Int.ofNat_lt.mpr (lt_of_le_of_lt hn hroom)
  obtain ⟨b', hset, hkeeps, _⟩ := h.setBufferSize (Int.natCast_nonneg n) hfit
  refine ⟨_, ?_, hkeeps.shorten hn⟩
  unfold Buffer.setBufferLength
  rw [hset]
  rfl

/-! ### The refinement -/

/-- One call: it returns, and the content is what the list operation makes of it. -/
theorem Keeps.run [Malloc] (h : b.Keeps c) {op : BufferOp} (hv : op.Valid b) :
    ∃ b', op.run b = .ok b' ∧ b'.Keeps (op.list c) := by
  have htail := h.tail_eq
  have hsnd {b' : Buffer} {k : ℤ} {x : Cxx (ℤ × Buffer)} {c' : Bytes} (hx : x = .ok (k, b'))
      (hb' : b'.Keeps c') : ∃ b', Prod.snd <$> x = .ok b' ∧ b'.Keeps c' := by
    exact ⟨b', by rw [hx]; rfl, hb'⟩
  cases op with
  | append p n =>
    cases p with
    | none =>
      have hnone : ∃ k, b.append none n = .ok (k, b) := by
        unfold Buffer.append
        split_ifs <;> exact ⟨_, rfl⟩
      obtain ⟨k, hk⟩ := hnone
      exact hsnd hk h
    | some p =>
      obtain ⟨b', hb', hkeeps⟩ := h.append p hv.1 hv.2
      exact hsnd hb' hkeeps
  | prepend p n =>
    cases p with
    | none => exact hsnd (k := bufferParamInvalid) rfl h
    | some p =>
      obtain ⟨b', hb', hkeeps⟩ := h.prepend p hv.1 hv.2
      exact hsnd hb' hkeeps
  | insert i p n =>
    have hi : i ≤ c.length := by
      have hi := hv.1
      omega
    obtain ⟨b', hb', hclosed, _⟩ := h.insert p hi hv.2.1 hv.2.2
    exact ⟨b', hb', hclosed.keeps⟩
  | remove i n =>
    have hin : i+n ≤ c.length := by
      have hin : ((i+n : ℕ) : ℤ) ≤ b.tail := hv
      omega
    rcases Nat.eq_zero_or_pos n with rfl | hpos
    · obtain ⟨k, hk⟩ := h.remove_zero i
      refine hsnd hk ?_
      rwa [BufferOp.list, add_zero, List.take_append_drop]
    · obtain ⟨b', hb', hkeeps, _⟩ := h.remove hpos hin
      exact hsnd hb' hkeeps
  | replaceWith p n =>
    cases p with
    | none => exact hsnd (k := bufferNoError) rfl h.reset
    | some p =>
      obtain ⟨b', hb', hkeeps⟩ := h.replaceWith p hv.1 hv.2
      exact hsnd hb' hkeeps
  | setBufferSize n =>
    obtain ⟨b', hb', hkeeps, _⟩ := h.setBufferSize (Int.natCast_nonneg n) hv
    exact ⟨b', hb', hkeeps⟩
  | setBufferLength n =>
    have hn : (n : ℤ) ≤ b.tail := hv
    exact h.setBufferLength (by omega)
  | makeString =>
    rcases h.makeString with ⟨rfl, rfl⟩ | ⟨b', hb', hclosed⟩
    · exact ⟨_, rfl, h⟩
    · exact ⟨b', hb', hclosed.keeps⟩
  | reset => exact ⟨_, rfl, h.reset⟩
  | flush => exact ⟨_, rfl, Keeps.null⟩

/-- A valid call in a run. -/
def Call [Malloc] (b : Buffer) (op : BufferOp) (b' : Buffer) :
    Prop := op.Valid b ∧ op.run b = .ok b'

theorem Keeps.of_call [Malloc] {op : BufferOp} {b' : Buffer} (h : b.Keeps c)
    (hcall : Call b op b') : b'.Keeps (op.list c) := by
  obtain ⟨b'', hb'', hkeeps⟩ := h.run hcall.1
  have heq := Except.ok.inj (hb''.symm.trans hcall.2)
  exact heq ▸ hkeeps

/-- Every run keeps the content that the list operations make. -/
theorem keeps_of_run [Malloc] {ops : List BufferOp} (hrun : Run Call {} ops b) :
    b.Keeps (ops.foldl BufferOp.list []) := by
  induction hrun with
  | nil => exact Keeps.null
  | snoc _ hcall ih =>
    rw [List.foldl_append, List.foldl_cons, List.foldl_nil]
    exact ih.of_call hcall

/-- After any valid calls the content is that of the list, the terminator falls inside the
allocation, and the next valid call returns. -/
theorem run_refines_list [Malloc] {ops : List BufferOp} (hrun : Run Call {} ops b) :
    b.content = ops.foldl BufferOp.list [] ∧
      (∀ mem, b.pBuffer = some mem →
        0 ≤ b.tail ∧ b.tail < b.bufferSize ∧ b.bufferSize ≤ mem.length) ∧
      (∃ b', b.makeString = .ok b' ∧ b.getBuffer = .ok (b'.pBuffer, b') ∧
        b'.content = b.content) ∧
      ∀ op : BufferOp, op.Valid b → ∃ b', op.run b = .ok b' := by
  have hkeeps := keeps_of_run hrun
  have hvalid : BufferOp.makeString.Valid b := trivial
  obtain ⟨b', hb', hkeeps'⟩ := hkeeps.run hvalid
  have hb'' : b.makeString = .ok b' := hb'
  refine ⟨hkeeps.content_eq, fun mem hmem => hkeeps.bounds hmem, ⟨b', hb'', ?_, ?_⟩,
    fun op hv => ?_⟩
  · rw [getBuffer, hb'']
    rfl
  · exact hkeeps'.content_eq.trans hkeeps.content_eq.symm
  · obtain ⟨b', hb', _⟩ := hkeeps.run hv
    exact ⟨b', hb'⟩

theorem run_refines_list_append_remove : ∃ b, Run Call {}
    [.append (some (bytes "abc")) 3, .remove 1 1] b ∧ b.content = bytes "ac" := by
  have hfirst : (BufferOp.append (some (bytes "abc")) 3).Valid {} :=
    ⟨by decide, Or.inr (by decide)⟩
  obtain ⟨b₁, hrun₁, hkeeps₁⟩ := Keeps.null.run hfirst
  have hsecond : (BufferOp.remove 1 1).Valid b₁ := by
    have htail : b₁.tail = 3 := hkeeps₁.tail_eq
    change ((1+1 : ℕ) : ℤ) ≤ b₁.tail
    omega
  obtain ⟨b₂, hrun₂, _⟩ := hkeeps₁.run hsecond
  have hrun : Run Call {} [.append (some (bytes "abc")) 3, .remove 1 1] b₂ :=
    (Run.nil.snoc ⟨hfirst, hrun₁⟩).snoc ⟨hsecond, hrun₂⟩
  exact ⟨b₂, hrun, (run_refines_list hrun).1.trans (by decide)⟩

/-! ### The regions that `Remove` refuses -/

/-- The region is a part of the content, and not empty. -/
def Region (b : Buffer) (iIndex iLength : ℤ) : Prop :=
  0 ≤ iIndex ∧ 0 < iLength ∧ iIndex+iLength ≤ b.tail

/-- `Remove` refuses every other region and changes nothing; the tail is never negative. -/
def RejectsInvalid (b : Buffer) (iIndex iLength : ℤ) : Prop :=
  (¬ b.Region iIndex iLength → ∃ (k : ℤ) (b' : Buffer), b.remove iIndex iLength = .ok (k, b') ∧
    (k = bufferIsEmpty ∨ k = bufferRegionOutOfBounds) ∧ b'.content = b.content ∧
    b'.tail = b.tail ∧ b'.bufferSize = b.bufferSize) ∧
  ∀ (k : ℤ) (b' : Buffer), b.remove iIndex iLength = .ok (k, b') → 0 ≤ b'.tail

/-- The end that is compared with the allocation: a length above the size counts as the size, and
the sum wraps around. -/
def BeyondSize (b : Buffer) (iIndex iLength : ℤ) : Prop :=
  b.bufferSize < min iLength b.bufferSize+iIndex ∧ min iLength b.bufferSize+iIndex ≤ intMax ∨
    min iLength b.bufferSize+iIndex < -2147483648 ∧
      b.bufferSize < min iLength b.bufferSize+iIndex+4294967296

theorem int32_wrap_low {x : ℤ} (hlo : -4294967296 ≤ x) (hx : x < -2147483648) :
    int32 x = x+4294967296 := by
  rw [← int32_eq (x := x+4294967296) (by omega) (by unfold intMax; omega)]
  unfold int32
  exact (Int.add_bmod_right x 4294967296).symm

theorem Keeps.beyondSize_iff (h : b.Keeps c) {i l : ℤ} (hi : -2147483648 ≤ i ∧ i ≤ intMax)
    (hl : -2147483648 ≤ l ∧ l ≤ intMax) :
    b.bufferSize < int32 (min l b.bufferSize+i) ↔ b.BeyondSize i l := by
  obtain ⟨hpos, hmax⟩ := h.size_le
  obtain ⟨m, hm⟩ : ∃ m, min l b.bufferSize = m := ⟨_, rfl⟩
  have hmlo : -2147483648 ≤ m := by omega
  have hmhi : m ≤ b.bufferSize := by omega
  unfold BeyondSize
  rw [hm]
  unfold intMax at hi hmax
  by_cases hlow : m+i < -2147483648
  · rw [int32_wrap_low (by omega) hlow]
    omega
  by_cases hhigh : intMax < m+i
  · rw [int32_of_gt (by omega) (by omega)]
    unfold intMax at hhigh ⊢
    omega
  · rw [int32_eq (by omega) (by omega)]
    unfold intMax at hhigh ⊢
    omega

/-- A call that is not refused at once takes the region off the tail, or ends outside the block. -/
theorem remove_taken {i l : ℤ} (h0 : b.tail ≠ 0) (hlen : min l b.bufferSize ≠ 0)
    (hsize : ¬ b.bufferSize < int32 (min l b.bufferSize+i)) {k : ℤ} {b' : Buffer}
    (hok : b.remove i l = .ok (k, b')) :
    k = bufferNoError ∧ b'.tail = int32 (b.tail-min l b.bufferSize) := by
  have hmin : (if b.bufferSize < l then b.bufferSize else l) = min l b.bufferSize := by
    split_ifs <;> omega
  unfold Buffer.remove at hok
  dsimp only at hok
  rw [if_neg h0, hmin, if_neg (not_or.mpr ⟨hlen, hsize⟩)] at hok
  split_ifs at hok
  · obtain ⟨hk, hb⟩ := Prod.mk.inj (Except.ok.inj hok)
    exact ⟨hk.symm, by rw [← hb]⟩
  · cases hb : b.pBuffer with
    | none =>
      rw [hb] at hok
      cases hok
    | some mem =>
      rw [hb] at hok
      obtain ⟨rest, _, hok⟩ := bind_eq_ok.mp hok
      obtain ⟨mem', _, hok⟩ := bind_eq_ok.mp hok
      obtain ⟨hk, hb⟩ := Prod.mk.inj (Except.ok.inj hok)
      exact ⟨hk.symm, by rw [← hb]⟩

theorem remove_refused {i l : ℤ} (h : b.tail = 0 ∨ min l b.bufferSize = 0 ∨
    b.bufferSize < int32 (min l b.bufferSize+i)) :
    ∃ k, b.remove i l = .ok (k, b) ∧ (k = bufferIsEmpty ∨ k = bufferRegionOutOfBounds) := by
  have hmin : (if b.bufferSize < l then b.bufferSize else l) = min l b.bufferSize := by
    split_ifs <;> omega
  unfold Buffer.remove
  dsimp only
  rw [hmin]
  by_cases h0 : b.tail = 0
  · rw [if_pos h0]
    exact ⟨_, rfl, Or.inl rfl⟩
  · rw [if_neg h0, if_pos (h.resolve_left h0)]
    exact ⟨_, rfl, Or.inr rfl⟩

/-- An invalid region is refused exactly when the content is empty, the length is zero, or the end
is beyond the allocation: ends between the content and the allocation pass, and negative ones. -/
theorem rejectsInvalid_iff (h : b.Keeps c) {i l : ℤ} (hi : -2147483648 ≤ i ∧ i ≤ intMax)
    (hl : -2147483648 ≤ l ∧ l ≤ intMax) :
    b.RejectsInvalid i l ↔ b.tail = 0 ∨ b.Region i l ∨ l = 0 ∨ b.BeyondSize i l := by
  have htail := h.tail_eq
  obtain ⟨hpos, hmax⟩ := h.size_le
  have hsize : b.tail ≠ 0 → b.tail < b.bufferSize := by
    intro h0
    rw [htail]
    apply h.lt_size
    rintro rfl
    exact h0 htail
  rw [← h.beyondSize_iff hi hl]
  constructor
  · intro hrejects
    by_contra hcond
    obtain ⟨h0, hregion, hl0, hbeyond⟩ : b.tail ≠ 0 ∧ ¬ b.Region i l ∧ l ≠ 0 ∧
        ¬ b.bufferSize < int32 (min l b.bufferSize+i) := by
      simpa only [not_or] using hcond
    have hs := hsize h0
    obtain ⟨k, b', hok, hk, _⟩ := hrejects.1 hregion
    obtain ⟨rfl, _⟩ := remove_taken h0 (by omega) hbeyond hok
    -- the code of a call that was carried out is neither of the two
    revert hk
    decide
  · intro hcond
    by_cases hregion : b.Region i l
    · obtain ⟨hi0, hl0, hend⟩ := hregion
      refine ⟨fun hnot => absurd ⟨hi0, hl0, hend⟩ hnot, fun k b' hok => ?_⟩
      obtain ⟨i, rfl⟩ := Int.eq_ofNat_of_zero_le hi0
      obtain ⟨n, rfl⟩ := Int.eq_ofNat_of_zero_le hl0.le
      obtain ⟨b'', hb'', hkeeps, _⟩ := h.remove (by omega) (show i+n ≤ c.length by omega)
      have heq := (Prod.mk.inj (Except.ok.inj (hb''.symm.trans hok))).2
      rw [← heq, hkeeps.tail_eq]
      exact Int.natCast_nonneg _
    · have hrefused : b.tail = 0 ∨ min l b.bufferSize = 0 ∨
          b.bufferSize < int32 (min l b.bufferSize+i) := by
        rcases hcond with h0 | hin | hl0 | hbeyond
        · exact Or.inl h0
        · exact absurd hin hregion
        · exact Or.inr (Or.inl (by omega))
        · exact Or.inr (Or.inr hbeyond)
      obtain ⟨k, hok, hk⟩ := remove_refused hrefused
      refine ⟨fun _ => ⟨k, b, hok, hk, rfl, rfl, rfl⟩, fun k' b' hok' => ?_⟩
      have heq := (Prod.mk.inj (Except.ok.inj (hok.symm.trans hok'))).2
      rw [← heq, htail]
      exact Int.natCast_nonneg _

theorem rejectsInvalid_beyond_size : (terminated (bytes "abc")).RejectsInvalid 1 4 := by
  have hlen : ((bytes "abc").length : ℤ) < intMax := by decide
  have hkeeps := keeps_terminated hlen
  exact (rejectsInvalid_iff hkeeps (i := 1) (l := 4) (by decide) (by decide)).mpr
    (Or.inr (Or.inr (Or.inr (Or.inl (by decide)))))

/-- The text "abc" and the region of length 4 from -1 on: the tail becomes negative. -/
theorem remove_negative_index : ¬ (terminated (bytes "abc")).RejectsInvalid (-1) 4 := by
  have hok : (terminated (bytes "abc")).remove (-1) 4 =
      .ok (bufferNoError, { terminated (bytes "abc") with tail := -1 }) := by decide
  intro hrejects
  have hpos := hrejects.2 _ _ hok
  revert hpos
  decide

end Buffer
end MsgCourier
