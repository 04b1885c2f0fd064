import Mathlib.Data.List.Infix
import Mathlib.Data.List.Nodup

/-! Lists whose elements sit in nodes, with iterators that stay at a node while others come and
go, and that may not be used any more when their own node is erased. -/
namespace NodeLists

/-- An iterator: not at any list, at a node, or behind the last one. -/
inductive It
  | singular
  | node (n : ℕ)
  | stop
  deriving DecidableEq, Repr

/-- Nodes are numbered in the order of their creation, and a number is never used again. -/
structure NodeList (α : Type*) where
  nodes : List (ℕ × α)
  next : ℕ
  below : ∀ p ∈ nodes, p.1 < next
  nodup : (nodes.map Prod.fst).Nodup

namespace NodeList

variable {α : Type*} (l : NodeList α)

def empty : NodeList α := ⟨[], 0, fun _ h => absurd h List.not_mem_nil, List.nodup_nil⟩

def pushBack (a : α) : NodeList α where
  nodes := l.nodes ++ [(l.next, a)]
  next := l.next+1
  below p hp := by
    rcases List.mem_append.mp hp with hp | hp
    · exact Nat.lt_succ_of_lt (l.below p hp)
    · rw [List.mem_singleton.mp hp]
      exact Nat.lt_succ_self _
  nodup := by
    rw [List.map_append, List.nodup_append]
    refine ⟨l.nodup, List.nodup_singleton _, fun m hm m' hm' => ?_⟩
    obtain ⟨p, hp, rfl⟩ := List.mem_map.mp hm
    rw [List.mem_singleton.mp hm']
    exact Nat.ne_of_lt (l.below p hp)

def erase (n : ℕ) : NodeList α where
  nodes := l.nodes.filter fun p => p.1 ≠ n
  next := l.next
  below p hp := l.below p (List.mem_filter.mp hp).1
  nodup := l.nodup.sublist (List.filter_sublist.map _)

theorem mem_pushBack {a : α} {p : ℕ × α} :
    p ∈ (l.pushBack a).nodes ↔ p ∈ l.nodes ∨ p = (l.next, a) := by
  rw [pushBack, List.mem_append, List.mem_singleton]

theorem mem_erase {n : ℕ} {p : ℕ × α} : p ∈ (l.erase n).nodes ↔ p ∈ l.nodes ∧ p.1 ≠ n := by
  rw [erase, List.mem_filter, decide_eq_true_iff]

variable {l}

/-- A node has one element. -/
theorem eq_of_mem {p p' : ℕ × α} (hp : p ∈ l.nodes) (hp' : p' ∈ l.nodes) (h : p.1 = p'.1) :
    p = p' := List.inj_on_of_nodup_map l.nodup hp hp' h

/-! ### Iterators -/

/-- The iterator at the first of the nodes that are left. -/
def itOf : List (ℕ × α) → It
  | [] => .stop
  | p :: _ => .node p.1

variable (l)

/-- An iterator that may be used: behind the last node or at a node of the list. -/
def Valid (it : It) : Prop := it = .stop ∨ ∃ p ∈ l.nodes, it = .node p.1

/-- The nodes from an iterator on, none for one that may not be used. -/
def since : It → Option (List (ℕ × α))
  | .singular => none
  | .stop => some []
  | .node n =>
    if n ∈ l.nodes.map Prod.fst then some (l.nodes.dropWhile fun p => p.1 ≠ n) else none

variable {l}

theorem since_suffix {it : It} {rest : List (ℕ × α)} (h : l.since it = some rest) :
    rest <:+ l.nodes := by
  cases it with
  | singular => cases h
  | stop =>
    obtain rfl := Option.some.inj h
    exact List.nil_suffix
  | node n =>
    rw [since] at h
    split_ifs at h
    obtain rfl := Option.some.inj h
    exact List.dropWhile_suffix _

theorem since_isSome {it : It} (h : l.Valid it) : ∃ rest, l.since it = some rest := by
  rcases h with rfl | ⟨p, hp, rfl⟩
  · exact ⟨[], rfl⟩
  · exact ⟨_, if_pos (List.mem_map_of_mem hp)⟩

theorem valid_itOf {rest : List (ℕ × α)} (h : rest <:+ l.nodes) : l.Valid (itOf rest) := by
  cases rest with
  | nil => exact Or.inl rfl
  | cons p rest => exact Or.inr ⟨p, h.subset List.mem_cons_self, rfl⟩

theorem valid_pushBack {it : It} (h : l.Valid it) (a : α) : (l.pushBack a).Valid it := by
  rcases h with h | ⟨p, hp, h⟩
  · exact Or.inl h
  · exact Or.inr ⟨p, l.mem_pushBack.mpr (Or.inl hp), h⟩

/-- Erasing a node leaves all iterators usable but those at it. -/
theorem valid_erase {it : It} (h : l.Valid it) {n : ℕ} (hne : it ≠ .node n) :
    (l.erase n).Valid it := by
  rcases h with h | ⟨p, hp, rfl⟩
  · exact Or.inl h
  · exact Or.inr ⟨p, l.mem_erase.mpr ⟨hp, fun h => hne (congrArg It.node h)⟩, rfl⟩

/-- The iterator behind a node is not at this node. -/
theorem itOf_ne {p : ℕ × α} {rest : List (ℕ × α)} (h : p :: rest <:+ l.nodes) :
    itOf rest ≠ .node p.1 := by
  cases rest with
  | nil => exact fun h => nomatch h
  | cons q rest =>
    intro heq
    have hnodup : ((p :: q :: rest).map Prod.fst).Nodup := l.nodup.sublist (h.sublist.map _)
    rw [List.map_cons, List.nodup_cons] at hnodup
    exact hnodup.1 (It.node.inj heq ▸ List.mem_cons_self)

end NodeList

end NodeLists
