import Mathlib.Data.List.Nodup
import Mathlib.Data.List.Basic

/-! Doubly linked lists of cells in a heap of addresses. -/
namespace MsgCourier

structure Cell (α : Type*) where
  data : α
  next : Option ℕ
  prev : Option ℕ
  deriving DecidableEq, Repr

/-- Addresses without a cell are not allocated. -/
abbrev Heap (α : Type*) := ℕ → Option (Cell α)

namespace LinkedCells

variable {α : Type*} {heap : Heap α} {nodes : List (ℕ × α)} {a b : ℕ} {d : α}

/-- The address of a place of a list, and no address outside of it. -/
def addrAt (nodes : List (ℕ × α)) (i : ℕ) : Option ℕ := nodes[i]?.map Prod.fst

/-- The place before another one. -/
def addrBefore (nodes : List (ℕ × α)) : ℕ → Option ℕ
  | 0 => none
  | i+1 => addrAt nodes i

/-- The cells of a list, each pointing to its neighbours. -/
structure Linked (heap : Heap α) (nodes : List (ℕ × α)) : Prop where
  nodup : (nodes.map Prod.fst).Nodup
  cell : ∀ i a d, nodes[i]? = some (a, d) →
    heap a = some ⟨d, addrAt nodes (i+1), addrBefore nodes i⟩

/-- What is left of it when the cells behind have been freed: the pointers to the front. -/
structure Backed (heap : Heap α) (nodes : List (ℕ × α)) : Prop where
  nodup : (nodes.map Prod.fst).Nodup
  cell : ∀ i a d, nodes[i]? = some (a, d) → ∃ next, heap a = some ⟨d, next, addrBefore nodes i⟩

theorem addrAt_isSome {i : ℕ} : (addrAt nodes i).isSome ↔ i < nodes.length := by
  rw [addrAt, Option.isSome_map, isSome_getElem?]

theorem addrAt_eq_some {i : ℕ} (h : addrAt nodes i = some a) : ∃ d, nodes[i]? = some (a, d) := by
  obtain ⟨⟨b, d⟩, hnode, rfl⟩ := Option.map_eq_some_iff.mp h
  exact ⟨d, hnode⟩

theorem addrAt_append_left (l : List (ℕ × α)) {i : ℕ} (h : i < nodes.length) :
    addrAt (nodes ++ l) i = addrAt nodes i := by
  rw [addrAt, addrAt, List.getElem?_append_left h]

theorem addrAt_length (nodes : List (ℕ × α)) (node : ℕ × α) :
    addrAt (nodes ++ [node]) nodes.length = some node.1 := by
  rw [addrAt, List.getElem?_concat_length]
  rfl

theorem addrBefore_append_left (l : List (ℕ × α)) {i : ℕ} (h : i ≤ nodes.length) :
    addrBefore (nodes ++ l) i = addrBefore nodes i := by
  cases i with
  | zero => rfl
  | succ i => exact addrAt_append_left l (by omega)

/-- Behind the last place stands what is at it. -/
theorem addrBefore_length (nodes : List (ℕ × α)) :
    addrBefore nodes nodes.length = addrAt nodes (nodes.length-1) := by
  cases nodes with
  | nil => rfl
  | cons node nodes => rfl

/-- Different places have different addresses. -/
theorem place_inj (hnodup : (nodes.map Prod.fst).Nodup) {i j : ℕ} (hi : addrAt nodes i = some a)
    (hj : addrAt nodes j = some a) : i = j := by
  have hlt := addrAt_isSome.mp (Option.isSome_of_eq_some hi)
  rw [addrAt, ← List.getElem?_map] at hi hj
  exact (List.getElem?_inj (by rwa [List.length_map]) hnodup).mp (hi.trans hj.symm)

namespace Linked

theorem empty (heap : Heap α) : Linked heap [] := ⟨List.nodup_nil, by simp⟩

theorem backed (h : Linked heap nodes) : Backed heap nodes :=
  ⟨h.nodup, fun i a d hi => ⟨_, h.cell i a d hi⟩⟩

theorem allocated (h : Linked heap nodes) (ha : a ∈ nodes.map Prod.fst) : heap a ≠ none := by
  obtain ⟨⟨b, d⟩, hmem, rfl⟩ := List.mem_map.mp ha
  obtain ⟨i, hi⟩ := List.mem_iff_getElem?.mp hmem
  rw [h.cell i b d hi]
  exact Option.some_ne_none _

theorem single (heap : Heap α) (a : ℕ) (d : α) :
    Linked (Function.update heap a (some ⟨d, none, none⟩)) [(a, d)] := by
  refine ⟨List.nodup_singleton a, ?_⟩
  intro i b e hi
  cases i with
  | zero =>
    obtain ⟨rfl, rfl⟩ := Prod.mk.inj (Option.some.inj hi)
    rw [Function.update_self]
    rfl
  | succ i => simp at hi

/-- A new cell behind the last one, whose pointer is set to it. -/
theorem append {last : ℕ × α} (h : Linked heap (nodes ++ [last])) (hfresh : heap a = none) :
    Linked (Function.update
        (Function.update heap last.1 (some ⟨last.2, some a, addrBefore nodes nodes.length⟩)) a
        (some ⟨d, none, some last.1⟩))
      (nodes ++ [last] ++ [(a, d)]) := by
  have hnew : a ∉ (nodes ++ [last]).map Prod.fst := fun hmem => h.allocated hmem hfresh
  have hlength : (nodes ++ [last]).length = nodes.length+1 := by simp
  have hplace : addrAt (nodes ++ [last]) nodes.length = some last.1 := addrAt_length nodes last
  refine ⟨?_, ?_⟩
  · rw [List.map_append, List.nodup_append]
    refine ⟨h.nodup, List.nodup_singleton a, ?_⟩
    intro b hb c hc heq
    obtain rfl : c = a := List.mem_singleton.mp hc
    exact hnew (heq ▸ hb)
  · intro i b e hi
    by_cases hend : i = nodes.length+1
    · -- the new cell
      rw [hend, ← hlength, List.getElem?_concat_length] at hi
      obtain ⟨rfl, rfl⟩ := Prod.mk.inj (Option.some.inj hi)
      have hbefore : addrBefore (nodes ++ [last] ++ [(a, d)]) i = some last.1 := by
        rw [hend, addrBefore, addrAt_append_left _ (by omega), hplace]
      have hnone : addrAt (nodes ++ [last] ++ [(a, d)]) (i+1) = none := by
        rw [addrAt, List.getElem?_eq_none (by rw [List.length_append, hlength, hend]; simp)]
        rfl
      rw [Function.update_self, hbefore, hnone]
    · have hlt : i < (nodes ++ [last]).length := by
        have hall := (List.getElem?_eq_some_iff.mp hi).1
        rw [List.length_append, List.length_singleton] at hall
        omega
      rw [List.getElem?_append_left hlt] at hi
      have hb : b ∈ (nodes ++ [last]).map Prod.fst :=
        List.mem_map_of_mem (List.mem_of_getElem? hi)
      have hne : b ≠ a := fun heq => hnew (heq ▸ hb)
      have hcell := h.cell i b e hi
      rw [Function.update_of_ne hne, addrBefore_append_left _ (Nat.le_of_lt hlt)]
      by_cases hlast : i = nodes.length
      · -- the cell that was the last one
        rw [hlast, List.getElem?_concat_length] at hi
        obtain rfl := Option.some.inj hi
        have hnext : addrAt (nodes ++ [(b, e)] ++ [(a, d)]) (i+1) = some a := by
          rw [hlast, ← hlength]
          exact addrAt_length _ _
        rw [Function.update_self, hnext, hlast, addrBefore_append_left _ (Nat.le_refl _)]
      · have hother : b ≠ last.1 := by
          intro heq
          have hi' : addrAt (nodes ++ [last]) i = some b := by rw [addrAt, hi]; rfl
          exact hlast (place_inj h.nodup hi' (heq ▸ hplace))
        rw [Function.update_of_ne hother, addrAt_append_left _ (by omega), hcell]

end Linked

namespace Backed

/-- The last cell can be freed, and the others keep their pointers to the front. -/
theorem dropLast {last : ℕ × α} (h : Backed heap (nodes ++ [last])) :
    (∃ next, heap last.1 = some ⟨last.2, next, addrBefore nodes nodes.length⟩) ∧
      Backed (Function.update heap last.1 none) nodes := by
  have hplace : addrAt (nodes ++ [last]) nodes.length = some last.1 := addrAt_length nodes last
  have hlast := h.cell nodes.length last.1 last.2 (by rw [List.getElem?_concat_length])
  rw [addrBefore_append_left _ (Nat.le_refl _)] at hlast
  refine ⟨hlast, ?_, ?_⟩
  · have hnodup := h.nodup
    rw [List.map_append] at hnodup
    exact (List.nodup_append.mp hnodup).1
  · intro i a d hi
    have hlt := (List.getElem?_eq_some_iff.mp hi).1
    have hi' : (nodes ++ [last])[i]? = some (a, d) := by rwa [List.getElem?_append_left hlt]
    have hne : a ≠ last.1 := by
      intro heq
      have hplace' : addrAt (nodes ++ [last]) i = some a := by rw [addrAt, hi']; rfl
      exact Nat.ne_of_lt hlt (place_inj h.nodup hplace' (heq ▸ hplace))
    have hcell := h.cell i a d hi'
    rwa [addrBefore_append_left _ (Nat.le_of_lt hlt),
      ← Function.update_of_ne hne none heap] at hcell

end Backed

end LinkedCells

end MsgCourier
