import MsgCourier.Buffer
import MsgCourier.EditDistance

/-! `cLevenshtein::distance`: the matrix of edit distances between the first letters of two
strings, filled row by row. -/
namespace MsgCourier
open CText EditDistance

namespace Levenshtein

/-! ### The matrix -/

/-- `std::vector<std::vector<int>>` -/
abbrev Tmatrix := List (List ℤ)

namespace Tmatrix

def read (matrix : Tmatrix) (i j : ℕ) : ℤ := (matrix.getD i []).getD j 0

def write (matrix : Tmatrix) (i j : ℕ) (x : ℤ) : Tmatrix :=
  matrix.modify i (fun row => row.set j x)

/-- All rows have the width `m+1` that `resize` gives them. -/
structure Sized (n m : ℕ) (matrix : Tmatrix) : Prop where
  rows : matrix.length = n+1
  columns : ∀ i ≤ n, (matrix.getD i []).length = m+1

variable {n m : ℕ} {matrix : Tmatrix}

theorem getD_write (matrix : Tmatrix) (i j : ℕ) (x : ℤ) (i' : ℕ) :
    (matrix.write i j x).getD i' [] =
      if i = i' then (matrix.getD i' []).set j x else matrix.getD i' [] := by
  unfold write
  rw [List.getD_eq_getElem?_getD, List.getD_eq_getElem?_getD, List.getElem?_modify]
  by_cases hi : i = i'
  · rw [if_pos hi]
    cases matrix[i']? with
    | none => simp
    | some row => simp [hi]
  · rw [if_neg hi]
    cases matrix[i']? with
    | none => simp
    | some row => simp [hi]

theorem Sized.write (h : Sized n m matrix) (i j : ℕ) (x : ℤ) :
    Sized n m (matrix.write i j x) := by
  constructor
  · rw [← h.rows]
    exact List.length_modify _ _ _
  · intro i' hi'
    rw [getD_write]
    split_ifs
    · rw [List.length_set]
      exact h.columns i' hi'
    · exact h.columns i' hi'

theorem Sized.read_write (h : Sized n m matrix) {i j : ℕ} (hi : i ≤ n) (hj : j ≤ m) (x : ℤ)
    (i' j' : ℕ) :
    (matrix.write i j x).read i' j' = if i = i' ∧ j = j' then x else matrix.read i' j' := by
  unfold read
  rw [getD_write]
  by_cases hi' : i = i'
  · rw [if_pos hi', List.getD_eq_getElem?_getD, List.getElem?_set]
    have hlen := h.columns i hi
    rw [← hi']
    by_cases hj' : j = j'
    · rw [if_pos hj', if_pos (by omega), if_pos ⟨rfl, hj'⟩]
      rfl
    · rw [if_neg hj', if_neg (fun hc => hj' hc.2),
        ← List.getD_eq_getElem?_getD]
  · rw [if_neg hi', if_neg (fun hc => hi' hc.1)]

end Tmatrix

/-! ### The operation -/

/-- `int` addition; an overflow is undefined. -/
def addInt (x y : ℤ) : Cxx ℤ :=
  if -2147483648 ≤ x+y ∧ x+y ≤ intMax then .ok (x+y) else .error .undefined

/-- Steps 5 and 6: deletion, insertion and substitution. -/
def editCell (source target : Bytes) (matrix : Tmatrix) (i j : ℕ) : Cxx ℤ := do
  let s_i := source.getD (i-1) 0
  let t_j := target.getD (j-1) 0
  let cost := if s_i = t_j then 0 else 1
  let above := matrix.read (i-1) j
  let left := matrix.read i (j-1)
  let diag := matrix.read (i-1) (j-1)
  pure (min (← addInt above 1) (min (← addInt left 1) (← addInt diag cost)))

/-- Step 6A covers the transposition of two letters. -/
def cellOf (source target : Bytes) (matrix : Tmatrix) (i j : ℕ) : Cxx ℤ := do
  let s_i := source.getD (i-1) 0
  let t_j := target.getD (j-1) 0
  let cell ← editCell source target matrix i j
  if i > 2 ∧ j > 2 then do
    let trans ← addInt (matrix.read (i-2) (j-2)) 1
    let trans ← (if source.getD (i-2) 0 ≠ t_j then addInt trans 1 else pure trans : Cxx ℤ)
    let trans ← (if s_i ≠ target.getD (j-2) 0 then addInt trans 1 else pure trans : Cxx ℤ)
    pure (if cell > trans then trans else cell)
  else pure cell

/-- Step 4, for row `i`. -/
def fillRow (source target : Bytes) (matrix : Tmatrix) (i : ℕ) : Cxx Tmatrix :=
  (List.range' 1 target.length).foldlM
    (fun matrix j => do pure (Tmatrix.write matrix i j (← cellOf source target matrix i j))) matrix

/-- The vectors as sized, then Step 2; the indices are converted to `int`. -/
def firstMatrix (n m : ℕ) : Tmatrix :=
  let matrix := List.replicate (n+1) (List.replicate (m+1) 0)
  let matrix := (List.range (n+1)).foldl (fun matrix i => Tmatrix.write matrix i 0 (int32 i)) matrix
  (List.range (m+1)).foldl (fun matrix j => Tmatrix.write matrix 0 j (int32 j)) matrix

/-- `allocated` says whether the vectors get their memory. If they do not, the exception is caught,
but `LOGALL`, which logs its text, throws that text on, so that `iRet` is not returned. -/
def distance (allocated : Bool) (source target : Bytes) : Cxx ℤ :=
  let n := source.length
  let m := target.length
  if n = 0 then pure (int32 m)
  else if m = 0 then pure (int32 n)
  else if allocated then do
    let matrix ← (List.range' 1 n).foldlM (fillRow source target) (firstMatrix n m)
    pure (matrix.read n m)
  else .error .charPtr

end Levenshtein
end MsgCourier
