import MsgCourier.EditLaws

/-! `cMCScript::GetClosestNameMatch`: the legal name next to a mistyped one. -/
namespace MsgCourier
open CText EditDistance Levenshtein

namespace ClosestName

/-- `m_LegalNames`; a comma is missing behind `trimright`, which joins two names. -/
def legalNames : List Bytes :=
  ["break", "by", "case", "chars", "choose", "compare", "continue", "copy", "default", "elseif",
    "else", "end", "expr", "file", "foreach", "for", "if", "import", "include", "incr", "key",
    "language", "len", "list", "item", "map", "matchcase", "mcscript", "name", "operation",
    "output", "param", "pair", "pattern", "procedure", "regex", "return", "retvar", "test", "text",
    "trimleft", "trimrightscript", "start", "statement", "string", "switch", "value", "variable",
    "var", "var1", "var2", "while", "with", "*"].map bytes

/-- The name at `idx`, and the distance `closest` to it. -/
structure Closest where
  idx : Option Bytes := none
  closest : ℤ := 999999
  deriving DecidableEq

def closestStep (allocated : Bytes → Bool) (sName : Bytes) (best : Closest) (sValidName : Bytes) :
    Cxx Closest := do
  let distance ← distance (allocated sValidName) sName sValidName
  pure (if distance < best.closest then ⟨some sValidName, distance⟩ else best)

/-- `allocated` says for each legal name whether its matrix gets memory. -/
def getClosestNameMatch (allocated : Bytes → Bool) (names : List Bytes) (sName : Bytes) :
    Cxx Bytes := do
  let best ← (names.takeWhile (·.head? ≠ some 42)).foldlM (closestStep allocated sName) {}
  match best.idx with
  | some name => pure (if best.closest < 2 then name else [])
  | none => pure []

/-- The best name so far is one of the names seen, at its own distance, and none of them is
nearer. -/
structure Best (sName : Bytes) (seen : List Bytes) (best : Closest) : Prop where
  found : ∀ name, best.idx = some name → name ∈ seen ∧
    best.closest = cost sName.reverse name.reverse
  least : ∀ name ∈ seen, best.closest ≤ cost sName.reverse name.reverse
  some_of_lt : best.closest < 999999 → best.idx ≠ none

variable {allocated : Bytes → Bool} {sName : Bytes} {seen names : List Bytes} {best : Closest}

/-- An empty string is as far as the other one is long, so that it needs no exception here. -/
theorem distance_cost {s t : Bytes} (hs : (s.length : ℤ) < intMax) (ht : (t.length : ℤ) < intMax) :
    distance true s t = .ok (cost s.reverse t.reverse : ℕ) := by
  have hint {u : Bytes} (hu : (u.length : ℤ) < intMax) : int32 u.length = u.length :=
    int32_eq (by omega) hu.le
  by_cases hempty : s = []
  · rw [hempty, distance_nil, hint ht, List.reverse_nil, cost_nil_left, List.length_reverse]
  by_cases hempty' : t = []
  · rw [hempty', distance_nil', hint hs, List.reverse_nil, cost_nil_right, List.length_reverse]
  exact distance_ok ⟨hs, ht⟩ hempty hempty'

theorem closestStep_best (hname : (sName.length : ℤ) < intMax) {name : Bytes}
    (hvalid : (name.length : ℤ) < intMax) (hmemory : allocated name = true)
    (h : Best sName seen best) : ∃ best', closestStep allocated sName best name = .ok best' ∧
      Best sName (seen ++ [name]) best' := by
  unfold closestStep
  rw [hmemory, distance_cost hname hvalid, ok_bind]
  refine ⟨_, rfl, ?_⟩
  by_cases hlt : (cost sName.reverse name.reverse : ℕ) < best.closest
  · rw [if_pos hlt]
    refine ⟨?_, ?_, fun _ => Option.some_ne_none name⟩
    · intro name' hfound
      cases hfound
      exact ⟨List.mem_append_right seen List.mem_cons_self, rfl⟩
    · intro name' hmem
      rcases List.mem_append.mp hmem with hmem | hmem
      · exact hlt.le.trans (h.least name' hmem)
      · rw [List.mem_singleton.mp hmem]
  · rw [if_neg hlt]
    refine ⟨?_, ?_, h.some_of_lt⟩
    · intro name' hfound
      obtain ⟨hmem, hclosest⟩ := h.found name' hfound
      exact ⟨List.mem_append_left [name] hmem, hclosest⟩
    · intro name' hmem
      rcases List.mem_append.mp hmem with hmem | hmem
      · exact h.least name' hmem
      · rw [List.mem_singleton.mp hmem]
        exact not_lt.mp hlt

theorem closestLoop_best (hname : (sName.length : ℤ) < intMax)
    (hvalid : ∀ name ∈ names, (name.length : ℤ) < intMax)
    (hmemory : ∀ name ∈ names, allocated name = true) (h : Best sName seen best) :
    ∃ best', names.foldlM (closestStep allocated sName) best = .ok best' ∧
      Best sName (seen ++ names) best' := by
  induction names generalizing seen best with
  | nil => exact ⟨best, rfl, by rwa [List.append_nil]⟩
  | cons name names ih =>
    obtain ⟨best', hstep, hbest⟩ := closestStep_best hname (hvalid name List.mem_cons_self)
      (hmemory name List.mem_cons_self) h
    obtain ⟨best'', hloop, hbest'⟩ := ih (fun n hn => hvalid n (List.mem_cons_of_mem name hn))
      (fun n hn => hmemory n (List.mem_cons_of_mem name hn)) hbest
    refine ⟨best'', ?_, ?_⟩
    · rw [List.foldlM_cons, hstep, ok_bind]
      exact hloop
    · rwa [List.append_assoc] at hbest'

/-- The answer is a name of the table that is one step away at most and nearest, or it is empty
and no name is that near. -/
theorem getClosestNameMatch_spec (hname : (sName.length : ℤ) < intMax)
    (hstar : ∀ name ∈ names, name.head? ≠ some 42)
    (hvalid : ∀ name ∈ names, (name.length : ℤ) < intMax)
    (hmemory : ∀ name ∈ names, allocated name = true) :
    ∃ r, getClosestNameMatch allocated (names ++ [bytes "*"]) sName = .ok r ∧
      ((r ∈ names ∧ cost sName.reverse r.reverse ≤ 1 ∧
        ∀ name ∈ names, cost sName.reverse r.reverse ≤ cost sName.reverse name.reverse) ∨
      (r = [] ∧ ∀ name ∈ names, 2 ≤ cost sName.reverse name.reverse)) := by
  have hloop : (names ++ [bytes "*"]).takeWhile (·.head? ≠ some 42) = names := by
    rw [List.takeWhile_append_of_pos (fun name hn => decide_eq_true (hstar name hn))]
    have hend : [bytes "*"].takeWhile (·.head? ≠ some 42) = [] := by decide
    rw [hend, List.append_nil]
  have hnone : Best sName [] {} := by
    refine ⟨fun _ h => (Option.some_ne_none _ h.symm).elim, fun _ h => ?_, fun h => ?_⟩
    · cases h
    · exact absurd h (by decide)
  obtain ⟨best, hfold, hbest⟩ := closestLoop_best hname hvalid hmemory hnone
  rw [List.nil_append] at hbest
  unfold getClosestNameMatch
  rw [hloop, hfold, ok_bind]
  cases hidx : best.idx with
  | none =>
    refine ⟨[], rfl, .inr ⟨rfl, fun name hn => ?_⟩⟩
    have hfar : ¬ best.closest < 999999 := fun h => hbest.some_of_lt h hidx
    have hleast := hbest.least name hn
    omega
  | some name =>
    obtain ⟨hmem, hclosest⟩ := hbest.found name hidx
    by_cases hnear : best.closest < 2
    · refine ⟨name, by simp only [if_pos hnear, pure_eq_ok], .inl ⟨hmem, by omega, ?_⟩⟩
      intro name' hn
      have hleast := hbest.least name' hn
      omega
    · refine ⟨[], by simp only [if_neg hnear, pure_eq_ok], .inr ⟨rfl, fun name' hn => ?_⟩⟩
      have hleast := hbest.least name' hn
      omega

/-- The table has what the search needs of its names. -/
theorem legalNames_valid : legalNames = legalNames.dropLast ++ [bytes "*"] ∧
    (∀ name ∈ legalNames.dropLast, name.head? ≠ some 42) ∧
      ∀ name ∈ legalNames.dropLast, (name.length : ℤ) < intMax :=
  ⟨by decide, by decide, by decide⟩

/-- Two letters of a name typed in the wrong order behind its first letter are one step away. -/
theorem cost_transposed {a b : Byte} (hab : a ≠ b) {u v : Bytes} (hu : u ≠ []) :
    cost (u ++ b :: a :: v).reverse (u ++ a :: b :: v).reverse = 1 := by
  have hu' : u.reverse ≠ [] := fun h => hu (List.reverse_eq_nil_iff.mp h)
  have hexchange := cost_exchange (Ne.symm hab) v.reverse hu'
  simpa using hexchange

/-- Every text gets the nearest name of the table, if that is one step away at most, and otherwise
no name. A name with two letters exchanged behind its first one always gets a name. -/
theorem closest_legalName (hname : (sName.length : ℤ) < intMax)
    (hmemory : ∀ name ∈ legalNames.dropLast, allocated name = true) :
    ∃ r, getClosestNameMatch allocated legalNames sName = .ok r ∧
      ((r ∈ legalNames.dropLast ∧ cost sName.reverse r.reverse ≤ 1 ∧
        ∀ name ∈ legalNames.dropLast, cost sName.reverse r.reverse ≤
          cost sName.reverse name.reverse) ∨
      (r = [] ∧ ∀ name ∈ legalNames.dropLast, 2 ≤ cost sName.reverse name.reverse)) ∧
      ∀ a b u v, a ≠ b → u ≠ [] → u ++ a :: b :: v ∈ legalNames.dropLast →
        sName = u ++ b :: a :: v → r ∈ legalNames.dropLast := by
  obtain ⟨htable, hstar, hvalid⟩ := legalNames_valid
  obtain ⟨r, hr, hspec⟩ := getClosestNameMatch_spec hname hstar hvalid hmemory
  rw [← htable] at hr
  refine ⟨r, hr, hspec, ?_⟩
  intro a b u v hab hu hmem htyped
  rcases hspec with hnear | hfar
  · exact hnear.1
  · have hone := cost_transposed hab hu (v := v)
    have htwo := hfar.2 _ hmem
    rw [htyped] at htwo
    omega

theorem closest_legalName_fiel : ∃ r, getClosestNameMatch (fun _ => true) legalNames
    (bytes "fiel") = .ok r ∧ r ∈ legalNames.dropLast := by
  obtain ⟨r, hr, -, hexchange⟩ := @closest_legalName (fun _ => true) (bytes "fiel")
    (by decide) fun _ _ => rfl
  exact ⟨r, hr, hexchange 108 101 (bytes "fi") [] (by decide) (by decide) (by decide) (by decide)⟩

example : getClosestNameMatch (fun _ => true) [bytes "if", bytes "for", bytes "*"] (bytes "ofr") =
    .ok [] := by decide +kernel

end ClosestName
end MsgCourier
