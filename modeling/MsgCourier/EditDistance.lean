import Mathlib.Data.List.Basic
import Mathlib.Data.List.TakeDrop
import Mathlib.Order.Lattice
import Mathlib.Tactic.SplitIfs

/-! An edit cost with insertion, deletion, substitution and the exchange of two neighbours, where
an exchange needs a letter in front of the pair. The words are kept last letter first, so that
the recursion is on the front of the lists. -/
namespace EditDistance

variable {α : Type*}

/-! ### Two words -/

/-- Either no two letters can be exchanged, or both words go on behind the pair. -/
theorem short_or_long (xs ys : List α) : (xs.length < 2 ∨ ys.length < 2) ∨
    ∃ x' xs' y' ys', xs = x' :: xs' ∧ ys = y' :: ys' ∧ xs' ≠ [] ∧ ys' ≠ [] := by
  match xs, ys with
  | [], _ => exact .inl (.inl (by simp))
  | [_], _ => exact .inl (.inl (by simp))
  | _, [] => exact .inl (.inr (by simp))
  | _, [_] => exact .inl (.inr (by simp))
  | x' :: x'' :: xs, y' :: y'' :: ys =>
    exact .inr ⟨x', x'' :: xs, y', y'' :: ys, rfl, rfl, List.cons_ne_nil _ _,
      List.cons_ne_nil _ _⟩

/-- Induction along the steps: each of them makes the two words shorter together. -/
theorem pairInduction {P : List α → List α → Prop} (nil_left : ∀ ys, P [] ys)
    (nil_right : ∀ x xs, P (x :: xs) [])
    (cons_cons : ∀ x xs y ys,
      (∀ xs' ys', xs'.length+ys'.length < xs.length+ys.length+2 → P xs' ys') →
      P (x :: xs) (y :: ys)) (xs ys : List α) : P xs ys := by
  induction hn : xs.length+ys.length using Nat.strong_induction_on generalizing xs ys with
  | h n ih =>
    match xs, ys with
    | [], ys => exact nil_left ys
    | x :: xs, [] => exact nil_right x xs
    | x :: xs, y :: ys =>
      apply cons_cons
      intro xs' ys' hlt
      simp only [List.length_cons] at hn
      exact ih (xs'.length+ys'.length) (by omega) xs' ys' rfl

variable [DecidableEq α]

/-! ### One letter for another -/

def mismatch (x y : α) : ℕ := if x = y then 0 else 1

@[simp] theorem mismatch_self (x : α) : mismatch x x = 0 := if_pos rfl

theorem mismatch_of_ne {x y : α} (h : x ≠ y) : mismatch x y = 1 := if_neg h

theorem mismatch_comm (x y : α) : mismatch x y = mismatch y x := by
  unfold mismatch
  simp only [eq_comm]

theorem mismatch_le (x y : α) : mismatch x y ≤ 1 := by
  unfold mismatch
  split_ifs <;> omega

theorem eq_of_mismatch_eq_zero {x y : α} (h : mismatch x y = 0) : x = y := by
  by_contra hne
  rw [mismatch_of_ne hne] at h
  omega

/-! ### The cost and its four steps -/

/-- An exchange may pay for one or two letters that do not match, too. -/
def cost : List α → List α → ℕ
  | [], ys => ys.length
  | _ :: xs, [] => xs.length+1
  | x :: xs, y :: ys =>
    let cell := min (cost xs (y :: ys)+1) (min (cost (x :: xs) ys+1) (cost xs ys+mismatch x y))
    match xs, ys with
    | x' :: x'' :: xs, y' :: y'' :: ys =>
      min cell (cost (x'' :: xs) (y'' :: ys)+1+mismatch x' y+mismatch x y')
    | _, _ => cell
termination_by xs ys => xs.length+ys.length

@[simp] theorem cost_nil_left (ys : List α) : cost [] ys = ys.length := by
  rw [cost]

@[simp] theorem cost_nil_right (xs : List α) : cost xs [] = xs.length := by
  cases xs with
  | nil => rw [cost]
  | cons x xs => rw [cost, List.length_cons]

/-- The best of the three steps that leave the order of the letters as it is. -/
def cell (x y : α) (xs ys : List α) : ℕ :=
  min (cost xs (y :: ys)+1) (min (cost (x :: xs) ys+1) (cost xs ys+mismatch x y))

theorem cost_of_short {xs ys : List α} (h : xs.length < 2 ∨ ys.length < 2) (x y : α) :
    cost (x :: xs) (y :: ys) = cell x y xs ys := by
  rw [cost.eq_def]
  dsimp only
  split
  · simp only [List.length_cons] at h
    omega
  · rfl

theorem cost_of_long (x x' y y' : α) {xs ys : List α} (hxs : xs ≠ []) (hys : ys ≠ []) :
    cost (x :: x' :: xs) (y :: y' :: ys) =
      min (cell x y (x' :: xs) (y' :: ys)) (cost xs ys+1+mismatch x' y+mismatch x y') := by
  obtain ⟨x'', xs, rfl⟩ := List.exists_cons_of_ne_nil hxs
  obtain ⟨y'', ys, rfl⟩ := List.exists_cons_of_ne_nil hys
  rw [cost.eq_def]
  rfl

theorem cost_le_cell (x y : α) (xs ys : List α) : cost (x :: xs) (y :: ys) ≤ cell x y xs ys := by
  rcases short_or_long xs ys with h | ⟨x', xs', y', ys', rfl, rfl, hxs, hys⟩
  · rw [cost_of_short h]
  · rw [cost_of_long x x' y y' hxs hys]
    exact min_le_left _ _

theorem cost_le_delete (x y : α) (xs ys : List α) :
    cost (x :: xs) (y :: ys) ≤ cost xs (y :: ys)+1 :=
  (cost_le_cell x y xs ys).trans (min_le_left _ _)

theorem cost_le_insert (x y : α) (xs ys : List α) :
    cost (x :: xs) (y :: ys) ≤ cost (x :: xs) ys+1 :=
  (cost_le_cell x y xs ys).trans ((min_le_right _ _).trans (min_le_left _ _))

theorem cost_le_replace (x y : α) (xs ys : List α) :
    cost (x :: xs) (y :: ys) ≤ cost xs ys+mismatch x y :=
  (cost_le_cell x y xs ys).trans ((min_le_right _ _).trans (min_le_right _ _))

theorem cost_le_exchange (x x' y y' : α) {xs ys : List α} (hxs : xs ≠ []) (hys : ys ≠ []) :
    cost (x :: x' :: xs) (y :: y' :: ys) ≤ cost xs ys+1+mismatch x' y+mismatch x y' := by
  rw [cost_of_long x x' y y' hxs hys]
  exact min_le_right _ _

theorem cell_cases (x y : α) (xs ys : List α) : cell x y xs ys = cost xs (y :: ys)+1 ∨
    cell x y xs ys = cost (x :: xs) ys+1 ∨ cell x y xs ys = cost xs ys+mismatch x y := by
  unfold cell
  omega

/-- The cost is reached by one of the four steps. -/
theorem cost_cases (x y : α) (xs ys : List α) :
    cost (x :: xs) (y :: ys) = cost xs (y :: ys)+1 ∨
    cost (x :: xs) (y :: ys) = cost (x :: xs) ys+1 ∨
    cost (x :: xs) (y :: ys) = cost xs ys+mismatch x y ∨
    ∃ x' xs' y' ys', xs = x' :: xs' ∧ ys = y' :: ys' ∧ xs' ≠ [] ∧ ys' ≠ [] ∧
      cost (x :: xs) (y :: ys) = cost xs' ys'+1+mismatch x' y+mismatch x y' := by
  have hcell := cell_cases x y xs ys
  rcases short_or_long xs ys with h | ⟨x', xs', y', ys', rfl, rfl, hxs, hys⟩
  · rw [cost_of_short h]
    rcases hcell with hc | hc | hc
    · exact .inl hc
    · exact .inr (.inl hc)
    · exact .inr (.inr (.inl hc))
  · have hlong := cost_of_long x x' y y' hxs hys
    rcases le_total (cell x y (x' :: xs') (y' :: ys'))
      (cost xs' ys'+1+mismatch x' y+mismatch x y') with hle | hle
    · rw [hlong, min_eq_left hle]
      rcases hcell with hc | hc | hc
      · exact .inl hc
      · exact .inr (.inl hc)
      · exact .inr (.inr (.inl hc))
    · exact .inr (.inr (.inr ⟨x', xs', y', ys', rfl, rfl, hxs, hys,
        hlong.trans (min_eq_right hle)⟩))

/-! ### The laws of the cost -/

theorem cost_comm_le (xs ys : List α) : cost ys xs ≤ cost xs ys := by
  induction xs, ys using pairInduction with
  | nil_left ys => simp
  | nil_right x xs => simp
  | cons_cons x xs y ys ih =>
    rcases cost_cases x y xs ys with h | h | h | ⟨x', xs', y', ys', rfl, rfl, hxs, hys, h⟩
    · have hsmaller := ih xs (y :: ys) (by simp only [List.length_cons]; omega)
      have hstep := cost_le_insert y x ys xs
      omega
    · have hsmaller := ih (x :: xs) ys (by simp only [List.length_cons]; omega)
      have hstep := cost_le_delete y x ys xs
      omega
    · have hsmaller := ih xs ys (by omega)
      have hstep := cost_le_replace y x ys xs
      rw [mismatch_comm] at hstep
      omega
    · have hsmaller := ih xs' ys' (by simp only [List.length_cons]; omega)
      have hstep := cost_le_exchange y y' x x' hys hxs
      rw [mismatch_comm y' x, mismatch_comm y x'] at hstep
      omega

theorem cost_comm (xs ys : List α) : cost xs ys = cost ys xs :=
  le_antisymm (cost_comm_le ys xs) (cost_comm_le xs ys)

@[simp] theorem cost_self (xs : List α) : cost xs xs = 0 := by
  induction xs with
  | nil => simp
  | cons x xs ih =>
    have hstep := cost_le_replace x x xs xs
    rw [ih, mismatch_self] at hstep
    omega

theorem eq_of_cost_eq_zero {xs ys : List α} (h : cost xs ys = 0) : xs = ys := by
  induction xs, ys using pairInduction with
  | nil_left ys =>
    rw [cost_nil_left] at h
    exact (List.length_eq_zero_iff.mp h).symm
  | nil_right x xs => simp at h
  | cons_cons x xs y ys ih =>
    rcases cost_cases x y xs ys with hc | hc | hc | ⟨x', xs', y', ys', -, -, -, -, hc⟩
    · omega
    · omega
    · have hletter : x = y := eq_of_mismatch_eq_zero (by omega)
      have hrest : xs = ys := ih xs ys (by omega) (by omega)
      rw [hletter, hrest]
    · omega

theorem cost_eq_zero_iff (xs ys : List α) : cost xs ys = 0 ↔ xs = ys := by
  constructor
  · intro h
    exact eq_of_cost_eq_zero h
  · intro h
    rw [h, cost_self]

theorem cost_le_max (xs ys : List α) : cost xs ys ≤ max xs.length ys.length := by
  induction xs generalizing ys with
  | nil => simp
  | cons x xs ih =>
    cases ys with
    | nil => simp
    | cons y ys =>
      have hstep := cost_le_replace x y xs ys
      have hletter := mismatch_le x y
      have hrest := ih ys
      simp only [List.length_cons]
      omega

theorem length_le_add_cost (xs ys : List α) : xs.length ≤ ys.length+cost xs ys := by
  induction xs, ys using pairInduction with
  | nil_left ys => simp
  | nil_right x xs => simp
  | cons_cons x xs y ys ih =>
    rcases cost_cases x y xs ys with h | h | h | ⟨x', xs', y', ys', rfl, rfl, hxs, hys, h⟩
    · have hsmaller := ih xs (y :: ys) (by simp only [List.length_cons]; omega)
      simp only [List.length_cons] at hsmaller ⊢
      omega
    · have hsmaller := ih (x :: xs) ys (by simp only [List.length_cons]; omega)
      simp only [List.length_cons] at hsmaller ⊢
      omega
    · have hsmaller := ih xs ys (by omega)
      simp only [List.length_cons]
      omega
    · have hsmaller := ih xs' ys' (by simp only [List.length_cons]; omega)
      simp only [List.length_cons]
      omega

/-! ### One exchange -/

/-- What both words end with costs nothing. -/
theorem cost_append_le (w xs ys : List α) : cost (w ++ xs) (w ++ ys) ≤ cost xs ys := by
  induction w with
  | nil => exact le_rfl
  | cons c w ih =>
    have hstep := cost_le_replace c c (w ++ xs) (w ++ ys)
    rw [mismatch_self] at hstep
    exact hstep.trans ih

theorem cost_exchange {a b : α} (hab : a ≠ b) (w : List α) {u : List α} (hu : u ≠ []) :
    cost (w ++ b :: a :: u) (w ++ a :: b :: u) = 1 := by
  have hone : cost (b :: a :: u) (a :: b :: u) ≤ 1 := by
    have hstep := cost_le_exchange b a a b hu hu
    simpa using hstep
  have hne : cost (w ++ b :: a :: u) (w ++ a :: b :: u) ≠ 0 := by
    intro h
    have heq := List.append_cancel_left (eq_of_cost_eq_zero h)
    exact hab (List.cons.inj heq).1.symm
  have hle := cost_append_le w (b :: a :: u) (a :: b :: u)
  omega

/-- Two words of one length that differ in the first letter and behind it are two steps apart:
an exchange leaves the first letter where it is. -/
theorem two_le_cost {xs ys : List α} (hlen : xs.length = ys.length)
    (hfirst : xs.getLast? ≠ ys.getLast?) (hrest : xs.dropLast ≠ ys.dropLast) :
    2 ≤ cost xs ys := by
  induction xs, ys using pairInduction with
  | nil_left ys =>
    have hys : ys = [] := List.length_eq_zero_iff.mp hlen.symm
    rw [hys] at hfirst
    exact absurd rfl hfirst
  | nil_right x xs => simp at hlen
  | cons_cons x xs y ys ih =>
    simp only [List.length_cons, Nat.add_right_cancel_iff] at hlen
    rcases cost_cases x y xs ys with h | h | h | ⟨x', xs', y', ys', rfl, rfl, hxs, hys, h⟩
    · have hlong := length_le_add_cost (y :: ys) xs
      rw [cost_comm, List.length_cons] at hlong
      omega
    · have hlong := length_le_add_cost (x :: xs) ys
      rw [List.length_cons] at hlong
      omega
    · cases xs with
      | nil =>
        have hys : ys = [] := List.length_eq_zero_iff.mp hlen.symm
        rw [hys] at hrest
        exact absurd rfl hrest
      | cons x' xs =>
        obtain ⟨y', ys, rfl⟩ := List.exists_cons_of_length_eq_add_one hlen.symm
        have hfirst' : (x' :: xs).getLast? ≠ (y' :: ys).getLast? := by
          simpa only [List.getLast?_cons_cons] using hfirst
        have hne : x' :: xs ≠ y' :: ys := by
          intro heq
          rw [heq] at hfirst'
          exact hfirst' rfl
        have hpos : cost (x' :: xs) (y' :: ys) ≠ 0 := fun hz => hne (eq_of_cost_eq_zero hz)
        by_cases hxy : x = y
        · have htail : (x' :: xs).dropLast ≠ (y' :: ys).dropLast := by
            intro heq
            apply hrest
            rw [List.dropLast_cons_cons, List.dropLast_cons_cons, heq, hxy]
          have hsmaller := ih (x' :: xs) (y' :: ys) (by omega) hlen hfirst' htail
          omega
        · rw [mismatch_of_ne hxy] at h
          omega
    · have hne : xs' ≠ ys' := by
        intro heq
        obtain ⟨z, zs, rfl⟩ := List.exists_cons_of_ne_nil hxs
        apply hfirst
        rw [← heq]
        simp only [List.getLast?_cons_cons]
      have hpos : cost xs' ys' ≠ 0 := fun hz => hne (eq_of_cost_eq_zero hz)
      omega

theorem cost_exchange_first {a b : α} (hab : a ≠ b) (w : List α) :
    cost (w ++ [b, a]) (w ++ [a, b]) = 2 := by
  have hle : cost [b, a] [a, b] ≤ 2 := cost_le_max [b, a] [a, b]
  have happend := cost_append_le w [b, a] [a, b]
  have hge : 2 ≤ cost (w ++ [b, a]) (w ++ [a, b]) := by
    apply two_le_cost
    · simp
    · simpa using hab
    · have hdrop (c d : α) : (w ++ [c, d]).dropLast = w ++ [c] := by
        rw [List.dropLast_append_of_ne_nil (List.cons_ne_nil _ _)]
        rfl
      rw [hdrop, hdrop]
      intro heq
      have hcons := List.append_cancel_left heq
      exact hab (List.cons.inj hcons).1.symm
  omega

end EditDistance
