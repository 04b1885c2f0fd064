import Mathlib.Data.List.TakeWhile
import Mathlib.Order.Defs.Unbundled

/-! Multimaps as lists of entries in the order of their keys: a new entry goes behind those of the
same key, and a lookup finds the first. -/
namespace SortedEntries

variable {κ α : Type*} (lt : κ → κ → Prop)

def Sorted (l : List (κ × α)) : Prop := l.Pairwise fun e e' => ¬ lt e'.1 e.1

theorem Sorted.sublist {l l' : List (κ × α)} (h : Sorted lt l) (hsub : l'.Sublist l) :
    Sorted lt l' := List.Pairwise.sublist hsub h

theorem Sorted.eraseIdx {l : List (κ × α)} (h : Sorted lt l) (j : ℕ) :
    Sorted lt (l.eraseIdx j) := h.sublist lt (List.eraseIdx_sublist l j)

section Insert

variable [DecidableRel lt]

def insertBehind (l : List (κ × α)) (k : κ) (a : α) : List (κ × α) :=
  l.takeWhile (fun e => ¬ lt k e.1) ++ (k, a) :: l.dropWhile fun e => ¬ lt k e.1

theorem insertBehind_perm (l : List (κ × α)) (k : κ) (a : α) :
    (insertBehind lt l k a).Perm ((k, a) :: l) := by
  have hsplit : l.takeWhile (fun e => ¬ lt k e.1) ++ l.dropWhile (fun e => ¬ lt k e.1) = l :=
    List.takeWhile_append_dropWhile
  calc
    insertBehind lt l k a
      |>.Perm ((k, a) :: (l.takeWhile (fun e => ¬ lt k e.1) ++
        l.dropWhile fun e => ¬ lt k e.1)) := List.perm_middle
    _ = (k, a) :: l := by rw [hsplit]

theorem Sorted.insertBehind [IsStrictTotalOrder κ lt] {l : List (κ × α)} (h : Sorted lt l) (k : κ)
    (a : α) : Sorted lt (insertBehind lt l k a) := by
  have htake : ∀ e ∈ l.takeWhile (fun e => ¬ lt k e.1), ¬ lt k e.1 := by
    intro e he
    simpa using List.mem_takeWhile_imp he
  -- behind the first larger key every key is larger
  have hdrop : ∀ e ∈ l.dropWhile (fun e => ¬ lt k e.1), lt k e.1 := by
    intro e he
    cases hl : l.dropWhile (fun e => ¬ lt k e.1) with
    | nil =>
      rw [hl] at he
      cases he
    | cons b rest =>
      have hb : lt k b.1 := by
        have hhead := List.head?_dropWhile_not (fun e : κ × α => decide (¬ lt k e.1)) l
        rw [hl, List.head?_cons] at hhead
        simpa using hhead
      have hsorted : Sorted lt (b :: rest) := h.sublist lt (hl ▸ List.dropWhile_sublist _)
      rw [hl] at he
      rcases List.mem_cons.mp he with rfl | he
      · exact hb
      · have hle := (List.pairwise_cons.mp hsorted).1 e he
        by_contra hnot
        by_cases heq : k = e.1
        · exact hle (heq ▸ hb)
        · have hlt := (trichotomous_of lt k e.1).resolve_left hnot |>.resolve_left heq
          exact hle (trans_of lt hlt hb)
  unfold SortedEntries.insertBehind
  refine List.pairwise_append.mpr ⟨h.sublist lt (List.takeWhile_sublist _), ?_, ?_⟩
  · refine List.pairwise_cons.mpr ⟨fun e he => ?_, h.sublist lt (List.dropWhile_sublist _)⟩
    exact fun hlt => asymm (hdrop e he) hlt
  · intro e he e' he'
    rcases List.mem_cons.mp he' with rfl | he'
    · exact htake e he
    · intro hlt
      exact htake e he (trans_of lt (hdrop e' he') hlt)

end Insert

section First

variable [DecidableEq κ]

/-- The position of the first entry of a key, the length of the list if there is none. -/
def first (l : List (κ × α)) (k : κ) : ℕ := l.findIdx fun e => e.1 = k

theorem first_lt_iff {l : List (κ × α)} {k : κ} :
    first l k < l.length ↔ ∃ e ∈ l, e.1 = k := by
  rw [first, List.findIdx_lt_length]
  simp

theorem ne_of_mem_take_first {l : List (κ × α)} {k : κ} {e : κ × α} (he : e ∈ l.take (first l k)) :
    e.1 ≠ k := by
  obtain ⟨i, hi, rfl⟩ := List.getElem_of_mem he
  rw [List.getElem_take]
  have hlt : i < first l k := lt_of_lt_of_le hi (List.length_take_le _ _)
  have hidx : i < l.findIdx fun e => e.1 = k := hlt
  have hmiss := List.not_of_lt_findIdx hidx
  simpa using hmiss

/-- The entries of a key are all from its first entry on. -/
theorem filter_drop_first (l : List (κ × α)) (k : κ) :
    (l.drop (first l k)).filter (fun e => e.1 = k) = l.filter fun e => e.1 = k := by
  have hbefore : (l.take (first l k)).filter (fun e => e.1 = k) = [] := by
    rw [List.filter_eq_nil_iff]
    intro e he
    simpa using ne_of_mem_take_first he
  calc
    (l.drop (first l k)).filter (fun e => e.1 = k) =
        (l.take (first l k)).filter (fun e => e.1 = k) ++
          (l.drop (first l k)).filter (fun e => e.1 = k) := by rw [hbefore, List.nil_append]
    _ = l.filter fun e => e.1 = k := by rw [← List.filter_append, List.take_append_drop]

/-- From the first entry of a key on come the entries of this and of all larger keys. -/
theorem Sorted.mem_drop_first [IsStrictTotalOrder κ lt] {l : List (κ × α)} (h : Sorted lt l)
    {k : κ} (hk : first l k < l.length) (e : κ × α) :
    e ∈ l.drop (first l k) ↔ e ∈ l ∧ ¬ lt e.1 k := by
  have hkey : l[first l k].1 = k := by
    have hidx : (l.findIdx fun e => e.1 = k) < l.length := hk
    have hfound := List.findIdx_getElem (w := hidx)
    exact of_decide_eq_true hfound
  have hcons := List.drop_eq_getElem_cons hk
  have hsorted : Sorted lt (l.take (first l k) ++ l[first l k] :: l.drop (first l k+1)) := by
    rw [← hcons, List.take_append_drop]
    exact h
  obtain ⟨-, hrest, hbefore⟩ := List.pairwise_append.mp hsorted
  have hbehind : ∀ e ∈ l.drop (first l k), ¬ lt e.1 k := by
    intro e he
    rw [hcons] at he
    rcases List.mem_cons.mp he with rfl | he
    · rw [hkey]
      exact irrefl k
    · have hle := (List.pairwise_cons.mp hrest).1 e he
      rwa [hkey] at hle
  constructor
  · intro he
    exact ⟨List.mem_of_mem_drop he, hbehind e he⟩
  · intro ⟨he, hle⟩
    rw [← List.take_append_drop (first l k) l, List.mem_append] at he
    rcases he with he | he
    · -- in front of the first entry of the key only smaller keys are left
      exfalso
      have hnot := hbefore e he l[first l k] List.mem_cons_self
      rw [hkey] at hnot
      exact ((trichotomous_of lt e.1 k).resolve_left hle).elim (ne_of_mem_take_first he) hnot
    · exact he

end First

end SortedEntries
