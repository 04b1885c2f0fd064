import Mathlib.Data.List.Nodup

/-! A sweep over a list with a cursor that erases some elements. Erasing moves the cursor to the
next element, and the sweep then advances it twice more. -/
namespace CursorSweep

variable {α : Type*} {gone gone' : α → Bool}

/-- The elements the sweep looks at, or nothing when the cursor passes the end. -/
def visited (gone : α → Bool) : List α → Option (List α)
  | [] => some []
  | [p] => if gone p then none else some [p]
  | [p, q] => if gone p then none else (visited gone [q]).map (p :: ·)
  | p :: q :: r :: rest =>
    if gone p then (visited gone rest).map (p :: ·)
    else (visited gone (q :: r :: rest)).map (p :: ·)

/-- An element that stays is followed by the next one. -/
theorem visited_of_stays {p : α} (hp : gone p = false) (rest : List α) :
    visited gone (p :: rest) = (visited gone rest).map (p :: ·) := by
  match rest with
  | [] => simp [visited, hp]
  | [q] => simp [visited, hp]
  | q :: r :: rest => simp [visited, hp]

theorem visited_congr : ∀ l : List α, (∀ q ∈ l, gone q = gone' q) →
    visited gone l = visited gone' l
  | [], _ => rfl
  | [p], h => by rw [visited, visited, h p List.mem_cons_self]
  | [p, q], h => by
    simp only [visited, h p List.mem_cons_self, h q (by simp)]
  | p :: q :: r :: rest, h => by
    rw [visited, visited, h p List.mem_cons_self,
      visited_congr (q :: r :: rest) fun s hs => h s (List.mem_cons_of_mem _ hs),
      visited_congr rest fun s hs => h s (by simp [hs])]

theorem visited_sublist : ∀ (l : List α) {ex : List α}, visited gone l = some ex → ex.Sublist l
  | [], ex, h => by
    rw [visited, Option.some.injEq] at h
    exact h ▸ List.Sublist.refl _
  | [p], ex, h => by
    rw [visited] at h
    split_ifs at h
    exact Option.some.inj h ▸ List.Sublist.refl _
  | [p, q], ex, h => by
    rw [visited] at h
    split_ifs at h
    obtain ⟨ex', hex, rfl⟩ := Option.map_eq_some_iff.mp h
    exact (visited_sublist [q] hex).cons_cons p
  | p :: q :: r :: rest, ex, h => by
    rw [visited] at h
    split_ifs at h
    · obtain ⟨ex', hex, rfl⟩ := Option.map_eq_some_iff.mp h
      exact (((visited_sublist rest hex).cons r).cons q).cons_cons p
    · obtain ⟨ex', hex, rfl⟩ := Option.map_eq_some_iff.mp h
      exact (visited_sublist (q :: r :: rest) hex).cons_cons p

/-- Without an erased element the sweep looks at the whole list. -/
theorem visited_of_none_gone {l : List α} (h : ∀ q ∈ l, gone q = false) :
    visited gone l = some l := by
  induction l with
  | nil => rfl
  | cons p rest ih =>
    rw [visited_of_stays (h p List.mem_cons_self),
      ih fun q hq => h q (List.mem_cons_of_mem _ hq), Option.map_some]

/-- A sweep that erases an element either passes the end or misses one. -/
theorem visited_misses {l ex : List α} (hn : l.Nodup) (hg : ∃ q ∈ l, gone q = true)
    (hv : visited gone l = some ex) : ∃ q ∈ l, q ∉ ex := by
  induction l generalizing ex with
  | nil =>
    obtain ⟨q, hq, _⟩ := hg
    cases hq
  | cons p rest ih =>
    cases hp : gone p with
    | false =>
      rw [visited_of_stays hp] at hv
      obtain ⟨ex', hex, rfl⟩ := Option.map_eq_some_iff.mp hv
      have hrest : ∃ q ∈ rest, gone q = true := by
        obtain ⟨q, hq, hgq⟩ := hg
        rcases List.mem_cons.mp hq with rfl | hq
        · rw [hp] at hgq
          cases hgq
        · exact ⟨q, hq, hgq⟩
      obtain ⟨q, hq, hnot⟩ := ih hn.of_cons hrest hex
      have hne : q ≠ p := fun he => (List.nodup_cons.mp hn).1 (he ▸ hq)
      exact ⟨q, List.mem_cons_of_mem _ hq, fun hm => hnot ((List.mem_cons.mp hm).resolve_left hne)⟩
    | true =>
      -- the element behind the erased one is stepped over
      match rest, hv with
      | [], hv => simp [visited, hp] at hv
      | [q], hv => simp [visited, hp] at hv
      | q :: r :: rest, hv =>
        rw [visited, if_pos hp] at hv
        obtain ⟨ex', hex, rfl⟩ := Option.map_eq_some_iff.mp hv
        refine ⟨q, by simp, fun hm => ?_⟩
        simp only [List.nodup_cons, List.mem_cons, not_or] at hn
        rcases List.mem_cons.mp hm with rfl | hm
        · exact hn.1.1 rfl
        · exact hn.2.1.2 ((visited_sublist rest hex).subset hm)

end CursorSweep
