import Mathlib.Data.List.Pairwise
import Mathlib.Data.Multiset.MapFold
import Mathlib.Logic.Function.Basic

/-! Questions that are asked one after the other under a key, and the order in which their answers
come. The questions under way may be answered in any order. -/
namespace Turns

variable {κ : Type*}

structure Ledger (κ : Type*) where
  /-- How many questions were asked under a key; they are numbered from 0. -/
  asked : κ → ℕ := fun _ => 0
  unanswered : Multiset (κ × ℕ) := 0
  answers : κ → List ℕ := fun _ => []

/-- What happens to one question: it is asked, it is only moved, it is answered, or nobody answers
it. -/
inductive Turn (κ : Type*)
  | ask (k : κ)
  | keep
  | answer (k : κ) (n : ℕ)
  | drop (k : κ) (n : ℕ)

/-- What is still unanswered is behind all answers of its key, which came in the order of their
questions. -/
structure InTurn (l : Ledger κ) : Prop where
  nodup : l.unanswered.Nodup
  asked : ∀ k n, (k, n) ∈ l.unanswered → n < l.asked k
  answered : ∀ k, ∀ m ∈ l.answers k, m < l.asked k
  behind : ∀ k n, (k, n) ∈ l.unanswered → ∀ m ∈ l.answers k, m < n
  sorted : ∀ k, (l.answers k).Pairwise (· < ·)

theorem InTurn.initial : InTurn ({} : Ledger κ) where
  nodup := Multiset.nodup_zero
  asked _ _ h := absurd h (Multiset.notMem_zero _)
  answered _ _ h := absurd h List.not_mem_nil
  behind _ _ h := absurd h (Multiset.notMem_zero _)
  sorted _ := List.Pairwise.nil

theorem InTurn.drop {l : Ledger κ} {k : κ} {n : ℕ} {rest : Multiset (κ × ℕ)} (h : InTurn l)
    (hrest : l.unanswered = (k, n) ::ₘ rest) :
    InTurn { l with unanswered := rest } where
  nodup := (Multiset.nodup_cons.mp (hrest ▸ h.nodup)).2
  asked k' m hm := h.asked k' m (hrest ▸ Multiset.mem_cons_of_mem hm)
  answered := h.answered
  behind k' m hm := h.behind k' m (hrest ▸ Multiset.mem_cons_of_mem hm)
  sorted := h.sorted

/-- Each key has one question under way at most. -/
def Alone (l : Ledger κ) : Prop :=
  (l.unanswered.map Prod.fst).Nodup

theorem Alone.initial : Alone ({} : Ledger κ) :=
  Multiset.nodup_zero

theorem Alone.others {l : Ledger κ} {k : κ} {n : ℕ} {rest : Multiset (κ × ℕ)} (h : Alone l)
    (hrest : l.unanswered = (k, n) ::ₘ rest) :
    (∀ m, (k, m) ∉ rest) ∧ (rest.map Prod.fst).Nodup := by
  rw [Alone, hrest, Multiset.map_cons, Multiset.nodup_cons] at h
  exact ⟨fun m hm => h.1 (Multiset.mem_map.mpr ⟨(k, m), hm, rfl⟩), h.2⟩

variable [DecidableEq κ]

inductive LedgerStep : Ledger κ → Turn κ → Ledger κ → Prop
  | ask (l : Ledger κ) (k : κ) : LedgerStep l (.ask k) { l with
      asked := Function.update l.asked k (l.asked k+1)
      unanswered := (k, l.asked k) ::ₘ l.unanswered }
  | keep (l : Ledger κ) : LedgerStep l .keep l
  | answer {l : Ledger κ} {k : κ} {n : ℕ} {rest : Multiset (κ × ℕ)} :
      l.unanswered = (k, n) ::ₘ rest → LedgerStep l (.answer k n) { l with
        unanswered := rest
        answers := Function.update l.answers k (l.answers k ++ [n]) }
  | drop {l : Ledger κ} {k : κ} {n : ℕ} {rest : Multiset (κ × ℕ)} :
      l.unanswered = (k, n) ::ₘ rest → LedgerStep l (.drop k n) { l with unanswered := rest }

/-- No question is asked under a key that has one under way. -/
def Waits (l : Ledger κ) : Turn κ → Prop
  | .ask k => ∀ n, (k, n) ∉ l.unanswered
  | .keep | .answer _ _ | .drop _ _ => True

/-- Only the oldest question of a key is answered. -/
def Oldest (l : Ledger κ) : Turn κ → Prop
  | .answer k n => ∀ m, (k, m) ∈ l.unanswered → n ≤ m
  | .ask _ | .keep | .drop _ _ => True

variable {l l' : Ledger κ} {k : κ} {n : ℕ} {rest : Multiset (κ × ℕ)}

namespace InTurn

/-- A new question has the highest number of its key. -/
theorem ask (h : InTurn l) (k : κ) : InTurn { l with
    asked := Function.update l.asked k (l.asked k+1)
    unanswered := (k, l.asked k) ::ₘ l.unanswered } := by
  have hle (k' : κ) : l.asked k' ≤ Function.update l.asked k (l.asked k+1) k' := by
    by_cases heq : k' = k
    · rw [heq, Function.update_self]
      exact Nat.le_succ _
    · rw [Function.update_of_ne heq]
  refine ⟨?_, fun k' n hmem => ?_, fun k' m hm => ?_, fun k' n hmem m hm => ?_, h.sorted⟩
  · refine Multiset.nodup_cons.mpr ⟨fun hmem => ?_, h.nodup⟩
    exact (h.asked k _ hmem).false
  · rcases Multiset.mem_cons.mp hmem with heq | hmem
    · obtain ⟨rfl, rfl⟩ := Prod.mk.inj heq
      dsimp only
      rw [Function.update_self]
      exact Nat.lt_succ_self _
    · exact (h.asked k' n hmem).trans_le (hle k')
  · exact (h.answered k' m hm).trans_le (hle k')
  · rcases Multiset.mem_cons.mp hmem with heq | hmem
    · obtain ⟨rfl, rfl⟩ := Prod.mk.inj heq
      exact h.answered _ m hm
    · exact h.behind k' n hmem m hm

/-- The answer of the oldest question comes behind the earlier ones and before all that follow. -/
theorem answer (h : InTurn l) (hrest : l.unanswered = (k, n) ::ₘ rest)
    (holdest : ∀ m, (k, m) ∈ l.unanswered → n ≤ m) : InTurn { l with
    unanswered := rest
    answers := Function.update l.answers k (l.answers k ++ [n]) } := by
  have hdrop := h.drop hrest
  have hmem : (k, n) ∈ l.unanswered := hrest ▸ Multiset.mem_cons_self _ _
  have hlater (m : ℕ) (hm : (k, m) ∈ rest) : n < m := by
    have hle := holdest m (hrest ▸ Multiset.mem_cons_of_mem hm)
    have hne : n ≠ m := by
      rintro rfl
      exact (Multiset.nodup_cons.mp (hrest ▸ h.nodup)).1 hm
    omega
  have hanswers (k' : κ) (m : ℕ)
      (hm : m ∈ Function.update l.answers k (l.answers k ++ [n]) k') :
      m ∈ l.answers k' ∨ k' = k ∧ m = n := by
    by_cases heq : k' = k
    · subst heq
      rw [Function.update_self] at hm
      exact (List.mem_append.mp hm).imp_right fun h => ⟨rfl, List.mem_singleton.mp h⟩
    · rw [Function.update_of_ne heq] at hm
      exact .inl hm
  refine ⟨hdrop.nodup, hdrop.asked, fun k' m hm => ?_, fun k' m hm m' hm' => ?_, fun k' => ?_⟩
  · rcases hanswers k' m hm with hm | ⟨rfl, rfl⟩
    · exact h.answered k' m hm
    · exact h.asked _ _ hmem
  · rcases hanswers k' m' hm' with hm' | ⟨rfl, rfl⟩
    · exact hdrop.behind k' m hm m' hm'
    · exact hlater m hm
  · dsimp only
    by_cases heq : k' = k
    · rw [heq, Function.update_self, List.pairwise_append]
      refine ⟨h.sorted k, List.pairwise_singleton _ _, fun m hm m' hm' => ?_⟩
      obtain rfl := List.mem_singleton.mp hm'
      exact h.behind k m' hmem m hm
    · rw [Function.update_of_ne heq]
      exact h.sorted k'

theorem step (h : InTurn l) {a : Turn κ} (hstep : LedgerStep l a l') (holdest : Oldest l a) :
    InTurn l' := by
  cases hstep with
  | ask k => exact h.ask k
  | keep => exact h
  | answer hrest => exact h.answer hrest holdest
  | drop hrest => exact h.drop hrest

end InTurn

namespace Alone

theorem step (h : Alone l) {a : Turn κ} (hstep : LedgerStep l a l') (hwaits : Waits l a) :
    Alone l' := by
  cases hstep with
  | ask k =>
    rw [Alone, Multiset.map_cons, Multiset.nodup_cons]
    refine ⟨fun hmem => ?_, h⟩
    obtain ⟨⟨k', n⟩, hn, rfl⟩ := Multiset.mem_map.mp hmem
    exact hwaits n hn
  | keep => exact h
  | answer hrest => exact (h.others hrest).2
  | drop hrest => exact (h.others hrest).2

/-- The only question of a key is its oldest. -/
theorem oldest (h : Alone l) {a : Turn κ} (hstep : LedgerStep l a l') : Oldest l a := by
  cases hstep with
  | ask k => exact trivial
  | keep => exact trivial
  | @answer k n rest hrest =>
    intro m hm
    rcases Multiset.mem_cons.mp (hrest ▸ hm) with heq | hm
    · exact (Prod.mk.inj heq).2.ge
    · exact absurd hm ((h.others hrest).1 m)
  | drop _ => exact trivial

end Alone
end Turns
