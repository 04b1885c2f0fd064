import MsgCourier.Levenshtein
import Mathlib.Algebra.Order.Group.Unbundled.Abs

/-! The matrix of `cLevenshtein::distance` holds the costs of `EditDistance`, cell by cell, as
long as its `int` cells are wide enough; the laws of the distance follow. -/
namespace MsgCourier
open CText EditDistance

namespace Levenshtein

/-! ### Counted loops -/

theorem foldlM_range' {σ : Type} {f : σ → ℕ → Cxx σ} {P : ℕ → σ → Prop} {n : ℕ} :
    ∀ {a : ℕ}, (∀ k, a ≤ k → k < a+n → ∀ s, P k s → ∃ s', f s k = .ok s' ∧ P (k+1) s') →
    ∀ {s : σ}, P a s → ∃ s', (List.range' a n).foldlM f s = .ok s' ∧ P (a+n) s' := by
  induction n with
  | zero =>
    intro a _ s h
    exact ⟨s, rfl, h⟩
  | succ n ih =>
    intro a hstep s h
    obtain ⟨s', hs', h'⟩ := hstep a le_rfl (by omega) s h
    obtain ⟨s'', hs'', h''⟩ := ih (fun k hk hlt => hstep k (by omega) (by omega)) h'
    refine ⟨s'', ?_, ?_⟩
    · rw [List.range'_succ, List.foldlM_cons, hs', ok_bind]
      exact hs''
    · rw [show a+(n+1) = a+1+n by omega]
      exact h''

theorem foldlM_keeps {σ : Type} {f : σ → ℕ → Cxx σ} {P : σ → Prop} {l : List ℕ}
    (hstep : ∀ s i s', i ∈ l → P s → f s i = .ok s' → P s') {s s' : σ} (h : P s)
    (hfold : l.foldlM f s = .ok s') : P s' := by
  induction l generalizing s with
  | nil =>
    cases hfold
    exact h
  | cons i l ih =>
    rw [List.foldlM_cons] at hfold
    obtain ⟨t, ht, hrest⟩ := bind_eq_ok.mp hfold
    exact ih (fun s j s' hj => hstep s j s' (List.mem_cons_of_mem i hj))
      (hstep s i t List.mem_cons_self h ht) hrest

/-- A round that cannot end keeps the loop from ending, whichever rounds come before it. -/
theorem foldlM_never {σ : Type} {f : σ → ℕ → Cxx σ} {P : σ → Prop} {l : List ℕ} {k : ℕ}
    (hstep : ∀ s i s', i ∈ l → P s → f s i = .ok s' → P s') (hk : k ∈ l)
    (hfail : ∀ s s', P s → f s k ≠ .ok s') {s : σ} (h : P s) (s' : σ) :
    l.foldlM f s ≠ .ok s' := by
  induction l generalizing s with
  | nil => cases hk
  | cons i l ih =>
    intro hfold
    rw [List.foldlM_cons] at hfold
    obtain ⟨t, ht, hrest⟩ := bind_eq_ok.mp hfold
    rcases List.mem_cons.mp hk with rfl | hk
    · exact hfail s t h ht
    · exact ih (fun s j s' hj => hstep s j s' (List.mem_cons_of_mem i hj)) hk
        (hstep s i t List.mem_cons_self h ht) hrest

/-! ### `int` addition -/

theorem addInt_ok {x y : ℤ} (hx : 0 ≤ x) (hy : 0 ≤ y) (h : x+y ≤ intMax) :
    addInt x y = .ok (x+y) := if_pos ⟨by omega, h⟩

theorem addInt_intMax : addInt intMax 1 = .error .undefined := rfl

/-! ### The border -/

/-- The first column and the first row as Step 2 leaves them. -/
structure Bordered (n m : ℕ) (matrix : Tmatrix) : Prop where
  sized : matrix.Sized n m
  column : ∀ i ≤ n, matrix.read i 0 = int32 i
  row : ∀ j ≤ m, matrix.read 0 j = int32 j

variable {n m : ℕ} {matrix : Tmatrix}

theorem sized_replicate (n m : ℕ) :
    Tmatrix.Sized n m (List.replicate (n+1) (List.replicate (m+1) 0)) := by
  constructor
  · exact List.length_replicate
  · intro i hi
    rw [List.getD_eq_getElem?_getD, List.getElem?_replicate, if_pos (by omega)]
    exact List.length_replicate

theorem firstColumn (h : matrix.Sized n m) {k : ℕ} (hk : k ≤ n+1) :
    ((List.range k).foldl (fun matrix i => Tmatrix.write matrix i 0 (int32 i)) matrix).Sized n m ∧
    ∀ i < k, Tmatrix.read
      ((List.range k).foldl (fun matrix i => Tmatrix.write matrix i 0 (int32 i)) matrix) i 0 =
      int32 i := by
  induction k with
  | zero => exact ⟨h, fun i hi => absurd hi (by omega)⟩
  | succ k ih =>
    obtain ⟨hsized, hread⟩ := ih (by omega)
    rw [List.range_succ, List.foldl_append]
    refine ⟨hsized.write k 0 _, fun i hi => ?_⟩
    refine (hsized.read_write (by omega) (Nat.zero_le m) _ i 0).trans ?_
    by_cases hik : k = i
    · rw [if_pos ⟨hik, rfl⟩, hik]
    · rw [if_neg (fun hc => hik hc.1)]
      exact hread i (by omega)

theorem firstRow (h : matrix.Sized n m) {k : ℕ} (hk : k ≤ m+1) :
    ((List.range k).foldl (fun matrix j => Tmatrix.write matrix 0 j (int32 j)) matrix).Sized n m ∧
    (∀ j < k, Tmatrix.read
      ((List.range k).foldl (fun matrix j => Tmatrix.write matrix 0 j (int32 j)) matrix) 0 j =
      int32 j) ∧
    ∀ i, i ≠ 0 → Tmatrix.read
      ((List.range k).foldl (fun matrix j => Tmatrix.write matrix 0 j (int32 j)) matrix) i 0 =
      matrix.read i 0 := by
  induction k with
  | zero => exact ⟨h, fun j hj => absurd hj (by omega), fun i _ => rfl⟩
  | succ k ih =>
    obtain ⟨hsized, hread, hother⟩ := ih (by omega)
    rw [List.range_succ, List.foldl_append]
    refine ⟨hsized.write 0 k _, fun j hj => ?_, fun i hi => ?_⟩
    · refine (hsized.read_write (Nat.zero_le n) (by omega) _ 0 j).trans ?_
      by_cases hjk : k = j
      · rw [if_pos ⟨rfl, hjk⟩, hjk]
      · rw [if_neg (fun hc => hjk hc.2)]
        exact hread j (by omega)
    · refine (hsized.read_write (Nat.zero_le n) (by omega) _ i 0).trans ?_
      rw [if_neg (fun hc => hi hc.1.symm)]
      exact hother i hi

theorem bordered_firstMatrix (n m : ℕ) : Bordered n m (firstMatrix n m) := by
  obtain ⟨hsized, hcolumn⟩ := firstColumn (sized_replicate n m) (le_refl (n+1))
  obtain ⟨hsized', hrow, hother⟩ := firstRow hsized (le_refl (m+1))
  refine ⟨hsized', fun i hi => ?_, fun j hj => hrow j (by omega)⟩
  cases i with
  | zero => exact hrow 0 (by omega)
  | succ i => exact (hother (i+1) (Nat.succ_ne_zero i)).trans (hcolumn (i+1) (by omega))

theorem Bordered.write (h : Bordered n m matrix) {i j : ℕ} (hi : 1 ≤ i) (hin : i ≤ n)
    (hj : 1 ≤ j) (hjm : j ≤ m) (x : ℤ) : Bordered n m (matrix.write i j x) := by
  refine ⟨h.sized.write i j x, fun i' hi' => ?_, fun j' hj' => ?_⟩
  · rw [h.sized.read_write hin hjm, if_neg (by omega)]
    exact h.column i' hi'
  · rw [h.sized.read_write hin hjm, if_neg (by omega)]
    exact h.row j' hj'

/-! ### The cells -/

/-- The cost of turning the first `i` letters of one string into the first `j` of the other. -/
def costAt (source target : Bytes) (i j : ℕ) : ℕ :=
  cost (source.take i).reverse (target.take j).reverse

variable {source target : Bytes}

theorem costAt_zero_left (hj : m ≤ target.length) : costAt source target 0 m = m := by
  unfold costAt
  rw [List.take_zero, List.reverse_nil, cost_nil_left, List.length_reverse, List.length_take]
  omega

theorem costAt_zero_right (hi : n ≤ source.length) : costAt source target n 0 = n := by
  unfold costAt
  rw [List.take_zero, List.reverse_nil, cost_nil_right, List.length_reverse, List.length_take]
  omega

theorem costAt_le (source target : Bytes) (i j : ℕ) : costAt source target i j ≤ max i j := by
  have hmax := cost_le_max (source.take i).reverse (target.take j).reverse
  simp only [List.length_reverse, List.length_take] at hmax
  unfold costAt
  omega

theorem reverse_take_succ {s : Bytes} {i : ℕ} (hi : i < s.length) :
    (s.take (i+1)).reverse = s.getD i 0 :: (s.take i).reverse := by
  rw [List.take_add_one, List.getElem?_eq_getElem hi, List.getD_eq_getElem?_getD,
    List.getElem?_eq_getElem hi]
  simp

theorem mismatch_eq (c d : Byte) : ((mismatch c d : ℕ) : ℤ) = if c = d then 0 else 1 := by
  unfold mismatch
  split_ifs <;> rfl

/-- The cells a round reads hold the costs. -/
structure Known (source target : Bytes) (matrix : Tmatrix) (i j : ℕ) : Prop where
  above : matrix.read (i-1) j = costAt source target (i-1) j
  left : matrix.read i (j-1) = costAt source target i (j-1)
  diag : matrix.read (i-1) (j-1) = costAt source target (i-1) (j-1)
  crossed : 2 < i → 2 < j → matrix.read (i-2) (j-2) = costAt source target (i-2) (j-2)

theorem addMismatch_ok {x : ℤ} (hx : 0 ≤ x) (h : x+1 ≤ intMax) (c d : Byte) :
    (if c ≠ d then addInt x 1 else pure x : Cxx ℤ) = .ok (x+(mismatch c d : ℕ)) := by
  rw [mismatch_eq]
  by_cases hcd : c = d
  · rw [if_neg (not_not.mpr hcd), if_pos hcd, add_zero]
    rfl
  · rw [if_pos hcd, if_neg hcd]
    exact addInt_ok hx (by omega) h

section
variable {i j : ℕ} (h : Known source target matrix (i+1) (j+1)) (hi : i < source.length)
  (hj : j < target.length)
  (hwide : (source.length : ℤ) < intMax ∧ (target.length : ℤ) < intMax)
include h hi hj hwide

theorem editCell_ok : editCell source target matrix (i+1) (j+1) =
    .ok (cell (source.getD i 0) (target.getD j 0) (source.take i).reverse
      (target.take j).reverse : ℕ) := by
  have habove : matrix.read i (j+1) = costAt source target i (j+1) := h.above
  have hleft : matrix.read (i+1) j = costAt source target (i+1) j := h.left
  have hdiag : matrix.read i j = costAt source target i j := h.diag
  have hmatch := mismatch_le (source.getD i 0) (target.getD j 0)
  have hbound (k l : ℕ) (hk : k ≤ source.length) (hl : l ≤ target.length) :
      (costAt source target k l : ℤ)+1 ≤ intMax := by
    have hle := costAt_le source target k l
    omega
  have hdiag' := hbound i j hi.le hj.le
  unfold editCell
  dsimp only
  rw [show i+1-1 = i by omega, show j+1-1 = j by omega, habove, hleft, hdiag, ← mismatch_eq,
    addInt_ok (by omega) (by omega) (hbound _ _ hi.le hj), ok_bind,
    addInt_ok (by omega) (by omega) (hbound _ _ hi hj.le), ok_bind,
    addInt_ok (by omega) (by omega) (by omega), ok_bind, pure_eq_ok]
  unfold cell costAt
  rw [reverse_take_succ hi, reverse_take_succ hj]
  push_cast
  rfl

theorem cellOf_ok :
    cellOf source target matrix (i+1) (j+1) = .ok (costAt source target (i+1) (j+1) : ℕ) := by
  have hcost : costAt source target (i+1) (j+1) =
      cost (source.getD i 0 :: (source.take i).reverse)
        (target.getD j 0 :: (target.take j).reverse) := by
    unfold costAt
    rw [reverse_take_succ hi, reverse_take_succ hj]
  unfold cellOf
  dsimp only
  rw [editCell_ok h hi hj hwide, ok_bind, hcost]
  by_cases hlong : i+1 > 2 ∧ j+1 > 2
  · obtain ⟨a, rfl⟩ : ∃ a, i = a+1 := ⟨i-1, by omega⟩
    obtain ⟨b, rfl⟩ : ∃ b, j = b+1 := ⟨j-1, by omega⟩
    have ha : a < source.length := by omega
    have hb : b < target.length := by omega
    have hcrossed : matrix.read a b = costAt source target a b := h.crossed hlong.1 hlong.2
    have hle := costAt_le source target a b
    have hfirst := mismatch_le (source.getD a 0) (target.getD (b+1) 0)
    have hnil {s : Bytes} {k : ℕ} (hk : k < s.length) (hpos : k ≠ 0) : (s.take k).reverse ≠ [] := by
      rw [Ne, List.reverse_eq_nil_iff, ← List.length_eq_zero_iff, List.length_take]
      omega
    rw [if_pos hlong, show a+1+1-2 = a by omega, show b+1+1-2 = b by omega,
      show a+1+1-1 = a+1 by omega, show b+1+1-1 = b+1 by omega, hcrossed,
      addInt_ok (by omega) (by omega) (by omega), ok_bind,
      addMismatch_ok (by omega) (by omega), ok_bind,
      addMismatch_ok (by omega) (by omega), ok_bind,
      reverse_take_succ ha, reverse_take_succ hb,
      cost_of_long _ _ _ _ (hnil ha (by omega)) (hnil hb (by omega)), pure_eq_ok]
    congr 1
    unfold costAt
    push_cast
    omega
  · rw [if_neg hlong, cost_of_short]
    · rfl
    · simp only [List.length_reverse, List.length_take]
      omega

end

/-! ### The filled matrix -/

/-- The state of the loops in front of the cell `(i, j)`. -/
structure Filled (source target : Bytes) (i j : ℕ) (matrix : Tmatrix) : Prop where
  sized : matrix.Sized source.length target.length
  known : ∀ i' ≤ source.length, ∀ j' ≤ target.length,
    i' = 0 ∨ j' = 0 ∨ i' < i ∨ i' = i ∧ j' < j →
    matrix.read i' j' = costAt source target i' j'

theorem Filled.cells {i j : ℕ} (h : Filled source target (i+1) (j+1) matrix)
    (hi : i < source.length) (hj : j < target.length) : Known source target matrix (i+1) (j+1) := by
  constructor
  · exact h.known i hi.le (j+1) hj (by omega)
  · exact h.known (i+1) hi j hj.le (by omega)
  · exact h.known i hi.le j hj.le (by omega)
  · intro h2i h2j
    exact h.known (i+1-2) (by omega) (j+1-2) (by omega) (by omega)

theorem Filled.next {i j : ℕ} (h : Filled source target (i+1) (j+1) matrix)
    (hi : i < source.length) (hj : j < target.length) : Filled source target (i+1) (j+1+1)
      (Tmatrix.write matrix (i+1) (j+1) (costAt source target (i+1) (j+1))) := by
  refine ⟨h.sized.write _ _ _, fun i' hi' j' hj' hdone => ?_⟩
  rw [h.sized.read_write hi hj]
  by_cases hhere : i+1 = i' ∧ j+1 = j'
  · rw [if_pos hhere, hhere.1, hhere.2]
  · rw [if_neg hhere]
    exact h.known i' hi' j' hj' (by omega)

theorem Filled.nextRow {i : ℕ} (h : Filled source target i (1+target.length) matrix) :
    Filled source target (i+1) 1 matrix :=
  ⟨h.sized, fun i' hi' j' hj' hdone => h.known i' hi' j' hj' (by omega)⟩

section
variable (hwide : (source.length : ℤ) < intMax ∧ (target.length : ℤ) < intMax)
include hwide

theorem Bordered.filled (h : Bordered source.length target.length matrix) :
    Filled source target 1 1 matrix := by
  have hint (k : ℕ) (hk : (k : ℤ) < intMax) : int32 k = k := int32_eq (by omega) hk.le
  refine ⟨h.sized, fun i' hi' j' hj' hdone => ?_⟩
  have hborder : i' = 0 ∨ j' = 0 := by omega
  rcases hborder with rfl | rfl
  · rw [h.row j' hj', costAt_zero_left hj', hint j' (by omega)]
  · rw [h.column i' hi', costAt_zero_right hi', hint i' (by omega)]

theorem fillRow_ok {i : ℕ} (hi : i < source.length) (h : Filled source target (i+1) 1 matrix) :
    ∃ matrix', fillRow source target matrix (i+1) = .ok matrix' ∧
      Filled source target (i+1+1) 1 matrix' := by
  have hloop := foldlM_range' (n := target.length) (a := 1) (P := Filled source target (i+1))
    (f := fun matrix j =>
      do pure (Tmatrix.write matrix (i+1) j (← cellOf source target matrix (i+1) j)))
  obtain ⟨matrix', hrow, hfilled⟩ := hloop (by
    intro k hk hlt matrix h
    obtain ⟨j, rfl⟩ : ∃ j, k = j+1 := ⟨k-1, by omega⟩
    have hj : j < target.length := by omega
    refine ⟨_, ?_, h.next hi hj⟩
    rw [cellOf_ok (h.cells hi hj) hi hj hwide, ok_bind, pure_eq_ok]) h
  exact ⟨matrix', hrow, hfilled.nextRow⟩

theorem distance_ok (hs : source ≠ []) (ht : target ≠ []) :
    distance true source target = .ok (cost source.reverse target.reverse : ℕ) := by
  have hn : source.length ≠ 0 := fun h => hs (List.length_eq_zero_iff.mp h)
  have hm : target.length ≠ 0 := fun h => ht (List.length_eq_zero_iff.mp h)
  have hfirst := (bordered_firstMatrix source.length target.length).filled hwide
  obtain ⟨matrix, hrows, hfilled⟩ := foldlM_range' (n := source.length) (a := 1)
    (P := fun i => Filled source target i 1) (f := fillRow source target) (by
      intro k hk hlt matrix h
      obtain ⟨i, rfl⟩ : ∃ i, k = i+1 := ⟨k-1, by omega⟩
      exact fillRow_ok hwide (by omega) h) hfirst
  have hlast := hfilled.known source.length le_rfl target.length le_rfl (by omega)
  unfold distance
  rw [if_neg hn, if_neg hm, if_pos rfl, hrows, ok_bind, hlast, pure_eq_ok]
  unfold costAt
  rw [List.take_length, List.take_length]

end

/-! ### Strings that are too long -/

theorem cellOf_never {i j : ℕ}
    (h : matrix.read (i-1) j = intMax ∨ matrix.read i (j-1) = intMax) (x : ℤ) :
    cellOf source target matrix i j ≠ .ok x := by
  intro hcell
  unfold cellOf at hcell
  obtain ⟨y, hedit, -⟩ := bind_eq_ok.mp hcell
  unfold editCell at hedit
  obtain ⟨above, habove, hrest⟩ := bind_eq_ok.mp hedit
  obtain ⟨left, hleft, -⟩ := bind_eq_ok.mp hrest
  rcases h with h | h
  · rw [h, addInt_intMax] at habove
    cases habove
  · rw [h, addInt_intMax] at hleft
    cases hleft

section
variable {i : ℕ} (hi : 1 ≤ i) (hin : i ≤ source.length)
include hi hin

theorem cellStep_bordered {k : ℕ} {matrix' : Tmatrix} (hk : k ∈ List.range' 1 target.length)
    (h : Bordered source.length target.length matrix)
    (hstep : (do pure (Tmatrix.write matrix i k (← cellOf source target matrix i k)) :
      Cxx Tmatrix) = .ok matrix') : Bordered source.length target.length matrix' := by
  obtain ⟨x, -, hwrite⟩ := bind_eq_ok.mp hstep
  cases hwrite
  rw [List.mem_range'_1] at hk
  exact h.write hi hin (by omega) (by omega) x

theorem fillRow_bordered {matrix' : Tmatrix} (h : Bordered source.length target.length matrix)
    (hrow : fillRow source target matrix i = .ok matrix') :
    Bordered source.length target.length matrix' :=
  foldlM_keeps (fun _ _ _ hk h hstep => cellStep_bordered hi hin hk h hstep) h hrow

/-- A row with a cell whose neighbour is at the edge of `int`. -/
theorem fillRow_never {j : ℕ} (hj : 1 ≤ j) (hjm : j ≤ target.length)
    (hedge : i = 1 ∧ int32 j = intMax ∨ j = 1 ∧ int32 i = intMax)
    (h : Bordered source.length target.length matrix) (matrix' : Tmatrix) :
    fillRow source target matrix i ≠ .ok matrix' := by
  apply foldlM_never (P := Bordered source.length target.length) (k := j)
  · intro matrix k matrix' hk h hstep
    exact cellStep_bordered hi hin hk h hstep
  · rw [List.mem_range'_1]
    omega
  · intro matrix matrix' h hstep
    obtain ⟨x, hcell, -⟩ := bind_eq_ok.mp hstep
    refine cellOf_never ?_ x hcell
    rcases hedge with ⟨rfl, hwide⟩ | ⟨rfl, hwide⟩
    · left
      rw [h.row j hjm, hwide]
    · right
      rw [h.column i hin, hwide]
  · exact h

end

theorem distance_never (hs : source ≠ []) (ht : target ≠ [])
    (hwide : ¬ ((source.length : ℤ) < intMax ∧ (target.length : ℤ) < intMax)) (d : ℤ) :
    distance true source target ≠ .ok d := by
  have hn : source.length ≠ 0 := fun h => hs (List.length_eq_zero_iff.mp h)
  have hm : target.length ≠ 0 := fun h => ht (List.length_eq_zero_iff.mp h)
  have hmax : (intMax : ℤ) = (2147483647 : ℕ) := rfl
  have hedge : int32 (2147483647 : ℕ) = intMax := by decide
  intro hdistance
  unfold distance at hdistance
  rw [if_neg hn, if_neg hm, if_pos rfl] at hdistance
  obtain ⟨matrix, hrows, -⟩ := bind_eq_ok.mp hdistance
  revert hrows
  have hlarge : 2147483647 ≤ target.length ∨ 2147483647 ≤ source.length := by
    rw [hmax] at hwide
    omega
  rcases hlarge with hlarge | hlarge
  · apply foldlM_never (P := Bordered source.length target.length) (k := 1)
    · intro matrix i matrix' hi h hrow
      rw [List.mem_range'_1] at hi
      exact fillRow_bordered (by omega) (by omega) h hrow
    · rw [List.mem_range'_1]
      omega
    · intro matrix matrix' h
      exact fillRow_never le_rfl (by omega) (j := 2147483647) (by omega) hlarge
        (.inl ⟨rfl, hedge⟩) h matrix'
    · exact bordered_firstMatrix _ _
  · apply foldlM_never (P := Bordered source.length target.length) (k := 2147483647)
    · intro matrix i matrix' hi h hrow
      rw [List.mem_range'_1] at hi
      exact fillRow_bordered (by omega) (by omega) h hrow
    · rw [List.mem_range'_1]
      omega
    · intro matrix matrix' h
      exact fillRow_never (by omega) hlarge (j := 1) le_rfl (by omega)
        (.inr ⟨rfl, hedge⟩) h matrix'
    · exact bordered_firstMatrix _ _

/-! ### The laws -/

/-- What a distance is expected to satisfy, for the calls with the two orders of the strings. -/
def LawsHold (allocated allocated' : Bool) (s t : Bytes) : Prop :=
  ∃ d : ℤ, distance allocated s t = .ok d ∧ distance allocated' t s = .ok d ∧
    (d = 0 ↔ s = t) ∧ |(s.length : ℤ)-t.length| ≤ d ∧
      d ≤ max (s.length : ℤ) t.length

/-- An empty string needs no matrix, but the other length has to be an `int`. Otherwise both calls
need a matrix, whose `int` cells have to be wide enough. -/
def Measurable (allocated allocated' : Bool) (s t : Bytes) : Prop :=
  if s = [] ∨ t = [] then (s.length : ℤ) ≤ intMax ∧ (t.length : ℤ) ≤ intMax
  else allocated = true ∧ allocated' = true ∧ (s.length : ℤ) < intMax ∧ (t.length : ℤ) < intMax

theorem distance_nil (allocated : Bool) (t : Bytes) :
    distance allocated [] t = .ok (int32 t.length) := rfl

theorem distance_nil' (allocated : Bool) (s : Bytes) :
    distance allocated s [] = .ok (int32 s.length) := by
  cases s with
  | nil => rfl
  | cons c s => rfl

theorem distance_noMemory {s t : Bytes} (hs : s ≠ []) (ht : t ≠ []) :
    distance false s t = .error .charPtr := by
  obtain ⟨c, s, rfl⟩ := List.exists_cons_of_ne_nil hs
  obtain ⟨d, t, rfl⟩ := List.exists_cons_of_ne_nil ht
  rfl

theorem lawsHold_comm {allocated allocated' : Bool} {s t : Bytes}
    (h : LawsHold allocated allocated' s t) : LawsHold allocated' allocated t s := by
  obtain ⟨d, hst, hts, hzero, hle, hge⟩ := h
  refine ⟨d, hts, hst, hzero.trans eq_comm, ?_, ?_⟩
  · rw [abs_sub_comm]
    exact hle
  · rw [max_comm]
    exact hge

theorem lawsHold_nil (allocated allocated' : Bool) (t : Bytes) :
    LawsHold allocated allocated' [] t ↔ (t.length : ℤ) ≤ intMax := by
  have habs : |((([] : Bytes).length : ℕ) : ℤ)-t.length| = t.length := by
    rw [List.length_nil, Nat.cast_zero, zero_sub, abs_neg, Nat.abs_cast]
  constructor
  · intro h
    obtain ⟨d, hd, -, -, hle, -⟩ := h
    rw [distance_nil] at hd
    rw [habs, ← Except.ok.inj hd] at hle
    exact hle.trans (int32_le _)
  · intro h
    have hint : int32 t.length = t.length := int32_eq (by omega) h
    refine ⟨int32 t.length, distance_nil _ t, distance_nil' _ t, ?_, ?_, ?_⟩
    · rw [hint, Int.natCast_eq_zero, List.length_eq_zero_iff, eq_comm]
    · rw [habs, hint]
    · rw [hint]
      exact le_max_right _ _

section
variable {s t : Bytes} (hs : s ≠ []) (ht : t ≠ [])
include hs ht

theorem lawsHold_matrix :
    LawsHold true true s t ↔ (s.length : ℤ) < intMax ∧ (t.length : ℤ) < intMax := by
  constructor
  · intro h
    obtain ⟨d, hd, -⟩ := h
    by_contra hwide
    exact distance_never hs ht hwide d hd
  · intro hwide
    have hle := length_le_add_cost s.reverse t.reverse
    have hge := length_le_add_cost t.reverse s.reverse
    have hmax := cost_le_max s.reverse t.reverse
    rw [cost_comm] at hge
    simp only [List.length_reverse] at hle hge hmax
    refine ⟨cost s.reverse t.reverse, distance_ok hwide hs ht, ?_, ?_, ?_, ?_⟩
    · rw [cost_comm]
      exact distance_ok hwide.symm ht hs
    · rw [Int.natCast_eq_zero, cost_eq_zero_iff, List.reverse_inj]
    · rw [abs_sub_le_iff]
      omega
    · omega

/-- Without its matrix a call has no value. -/
theorem not_lawsHold_noMemory (allocated' : Bool) : ¬ LawsHold false allocated' s t := by
  intro h
  obtain ⟨d, hst, -⟩ := h
  rw [distance_noMemory hs ht] at hst
  cases hst

end

/-- The edit distance is symmetric, separates the strings and lies between the difference of the
lengths and the longer of them, exactly while its lengths and cells are `int`s and the matrix is
there. -/
theorem lawsHold_iff (allocated allocated' : Bool) (s t : Bytes) :
    LawsHold allocated allocated' s t ↔ Measurable allocated allocated' s t := by
  unfold Measurable
  by_cases hempty : s = [] ∨ t = []
  · rw [if_pos hempty]
    have hnil : ((([] : Bytes).length : ℕ) : ℤ) ≤ intMax := by decide
    rcases hempty with rfl | rfl
    · rw [lawsHold_nil]
      exact ⟨fun h => ⟨hnil, h⟩, fun h => h.2⟩
    · have hflip : LawsHold allocated allocated' s [] ↔ LawsHold allocated' allocated [] s :=
        ⟨lawsHold_comm, lawsHold_comm⟩
      rw [hflip, lawsHold_nil]
      exact ⟨fun h => ⟨h, hnil⟩, fun h => h.1⟩
  · rw [if_neg hempty]
    obtain ⟨hs, ht⟩ := not_or.mp hempty
    cases allocated with
    | false =>
      exact iff_of_false (not_lawsHold_noMemory hs ht allocated') fun h => Bool.noConfusion h.1
    | true =>
      cases allocated' with
      | false =>
        refine iff_of_false (fun h => ?_) fun h => Bool.noConfusion h.2.1
        exact not_lawsHold_noMemory ht hs true (lawsHold_comm h)
      | true =>
        rw [lawsHold_matrix hs ht]
        exact ⟨fun h => ⟨rfl, rfl, h⟩, fun h => h.2.2⟩

/-- A string of 2^31 letters is at a negative distance from the empty string. -/
theorem longString_distance :
    distance true [] (List.replicate 2147483648 97) = .ok (-2147483648) ∧
    ¬ LawsHold true true [] (List.replicate 2147483648 97) := by
  have hlen : (List.replicate 2147483648 (97 : Byte)).length = 2147483648 :=
    List.length_replicate
  refine ⟨?_, fun h => ?_⟩
  · rw [distance_nil, hlen]
    rfl
  · rw [lawsHold_nil, hlen] at h
    exact absurd h (by decide)

/-! ### Neighbouring letters -/

/-- Two neighbours in the wrong order cost one step behind the first letter of a word, and two
steps at its beginning. -/
theorem distance_transposed {a b : Byte} (hab : a ≠ b) (u v : Bytes)
    (hwide : (u.length : ℤ)+v.length+2 < intMax) :
    distance true (u ++ a :: b :: v) (u ++ b :: a :: v) = .ok (if u = [] then 2 else 1) := by
  have hne (c d : Byte) : u ++ c :: d :: v ≠ [] := by simp
  have hlen (c d : Byte) : ((u ++ c :: d :: v).length : ℤ) < intMax := by
    simp only [List.length_append, List.length_cons]
    push_cast
    omega
  have hreverse (c d : Byte) : (u ++ c :: d :: v).reverse = v.reverse ++ d :: c :: u.reverse := by
    simp
  rw [distance_ok ⟨hlen a b, hlen b a⟩ (hne a b) (hne b a), hreverse, hreverse]
  by_cases hu : u = []
  · rw [hu, List.reverse_nil, cost_exchange_first hab, if_pos rfl]
    rfl
  · have hu' : u.reverse ≠ [] := fun h => hu (List.reverse_eq_nil_iff.mp h)
    rw [cost_exchange hab v.reverse hu', if_neg hu]
    rfl

theorem transposed_one_iff {a b : Byte} (hab : a ≠ b) (allocated : Bool) (u v : Bytes) :
    distance allocated (u ++ a :: b :: v) (u ++ b :: a :: v) = .ok 1 ↔
      u ≠ [] ∧ allocated = true ∧ (u.length : ℤ)+v.length+2 < intMax := by
  have hne (c d : Byte) : u ++ c :: d :: v ≠ [] := by simp
  cases allocated with
  | false =>
    rw [distance_noMemory (hne a b) (hne b a)]
    simp
  | true =>
    by_cases hwide : (u.length : ℤ)+v.length+2 < intMax
    · rw [distance_transposed hab u v hwide]
      by_cases hu : u = []
      · simp [hu]
      · simp [hu, hwide]
    · refine iff_of_false (distance_never (hne a b) (hne b a) ?_ 1) (fun h => hwide h.2.2)
      simp only [List.length_append, List.length_cons]
      push_cast
      omega

theorem transposed_one_cab : distance true (bytes "cab") (bytes "cba") = .ok 1 := by
  have hcab : bytes "cab" = bytes "c" ++ 97 :: 98 :: [] := by decide
  have hcba : bytes "cba" = bytes "c" ++ 98 :: 97 :: [] := by decide
  rw [hcab, hcba]
  exact (transposed_one_iff (by decide) true (bytes "c") []).mpr ⟨by decide, rfl, by decide⟩

theorem transposed_front : distance true (bytes "ab") (bytes "ba") = .ok 2 ∧
    ¬ ∀ (u v : Bytes) (a b : Byte), a ≠ b →
      distance true (u ++ a :: b :: v) (u ++ b :: a :: v) = .ok 1 := by
  have htwo : distance true (bytes "ab") (bytes "ba") = .ok 2 := by decide
  refine ⟨htwo, fun h => ?_⟩
  have hone : distance true (bytes "ab") (bytes "ba") = .ok 1 := h [] [] 97 98 (by decide)
  rw [hone] at htwo
  cases htwo

end Levenshtein
end MsgCourier
