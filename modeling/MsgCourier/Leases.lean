import Mathlib.Data.List.Induction
import Mathlib.Tactic.SplitIfs

/-! Tables of leases: a holder renews its entry with every word, and a sweep marks the entries whose
last word is old. -/
namespace Leases

variable {κ α τ : Type*}

inductive Event (κ α τ : Type*)
  | renew (key : κ) (value : α) (now : τ)
  | sweep (now : τ)

/-- The event is a word of the holder. -/
def Event.Of (k : κ) : Event κ α τ → Prop
  | renew key _ _ => key = k
  | sweep _ => False

/-- The holder says nothing. -/
def Silent (k : κ) (events : List (Event κ α τ)) : Prop := ∀ e ∈ events, ¬ e.Of k

/-- A sweep finds that a word of time `since` is old. -/
def Swept (old : τ → τ → Bool) (since : τ) (events : List (Event κ α τ)) : Prop :=
  ∃ now, .sweep now ∈ events ∧ old since now = true

/-- What the table knows of a holder: its first and its last word, and the time of the last. -/
@[ext]
structure Lease (α τ : Type*) where
  first : α
  value : α
  since : τ
  lapsed : Bool

/-- The first and the last word of the holder, and the sweeps since. -/
structure Holds (old : τ → τ → Bool) (k : κ) (events : List (Event κ α τ)) (l : Lease α τ) :
    Prop where
  first : ∃ before now after, events = before ++ .renew k l.first now :: after ∧ Silent k before
  last : ∃ before after, events = before ++ .renew k l.value l.since :: after ∧ Silent k after ∧
    (l.lapsed = true ↔ Swept old l.since after)

variable {old : τ → τ → Bool} {k : κ} {events : List (Event κ α τ)} {l : Lease α τ}

theorem Event.of_self (k : κ) (value : α) (now : τ) : (Event.renew k value now).Of k := rfl

theorem silent_nil : Silent k ([] : List (Event κ α τ)) := fun _ h => absurd h List.not_mem_nil

theorem silent_concat {e : Event κ α τ} :
    Silent k (events ++ [e]) ↔ Silent k events ∧ ¬ e.Of k := by
  unfold Silent
  rw [List.forall_mem_append, List.forall_mem_singleton]

theorem swept_concat_sweep {since now : τ} :
    Swept old since (events ++ [.sweep now]) ↔ Swept old since events ∨ old since now = true := by
  constructor
  · rintro ⟨now', hmem, hold⟩
    rcases List.mem_append.mp hmem with hmem | hmem
    · exact .inl ⟨now', hmem, hold⟩
    · cases List.mem_singleton.mp hmem
      exact .inr hold
  · rintro (⟨now', hmem, hold⟩ | hold)
    · exact ⟨now', List.mem_append_left _ hmem, hold⟩
    · exact ⟨now, List.mem_append_right _ List.mem_cons_self, hold⟩

theorem swept_concat_renew {since now : τ} {value : α} :
    Swept old since (events ++ [.renew k value now]) ↔ Swept old since events := by
  simp [Swept]

namespace Holds

theorem first_concat (h : Holds old k events l) (e : Event κ α τ) :
    ∃ before now after, events ++ [e] = before ++ .renew k l.first now :: after ∧
      Silent k before := by
  obtain ⟨before, now, after, heq, hsilent⟩ := h.first
  exact ⟨before, now, after ++ [e], by rw [heq, List.append_assoc, List.cons_append], hsilent⟩

/-- Another holder's word changes nothing. -/
theorem concat_renew (h : Holds old k events l) {k' : κ} (hk : k' ≠ k) (value : α) (now : τ) :
    Holds old k (events ++ [.renew k' value now]) l where
  first := h.first_concat _
  last := by
    obtain ⟨before, after, heq, hsilent, hlapsed⟩ := h.last
    have hother : ¬ (Event.renew k' value now).Of k := hk
    exact ⟨before, after ++ [.renew k' value now],
      by rw [heq, List.append_assoc, List.cons_append], silent_concat.mpr ⟨hsilent, hother⟩,
      hlapsed.trans swept_concat_renew.symm⟩

/-- A sweep may end the lease. -/
theorem concat_sweep (h : Holds old k events l) (now : τ) :
    Holds old k (events ++ [.sweep now]) { l with lapsed := l.lapsed || old l.since now } where
  first := h.first_concat _
  last := by
    obtain ⟨before, after, heq, hsilent, hlapsed⟩ := h.last
    refine ⟨before, after ++ [.sweep now],
      by rw [heq, List.append_assoc, List.cons_append], silent_concat.mpr ⟨hsilent, id⟩, ?_⟩
    dsimp only
    rw [Bool.or_eq_true, hlapsed, swept_concat_sweep]

end Holds

/-! ### One place for the last word -/

section Place

variable {β : Type*} {P : β → Prop} {before before' after after' : List β} {x x' : β}

theorem last_unique (hx : P x) (hx' : P x') (h : ∀ y ∈ after, ¬ P y) (h' : ∀ y ∈ after', ¬ P y)
    (heq : before ++ x :: after = before' ++ x' :: after') : x = x' ∧ after = after' := by
  rcases List.append_eq_append_iff.mp heq with ⟨c, -, htail⟩ | ⟨c, -, htail⟩
  · cases c with
    | nil => exact List.cons.inj htail
    | cons e c =>
      have hmem : x' ∈ after := by
        rw [(List.cons.inj htail).2]
        exact List.mem_append_right _ List.mem_cons_self
      exact absurd hx' (h x' hmem)
  · cases c with
    | nil => exact (List.cons.inj htail).imp Eq.symm Eq.symm
    | cons e c =>
      have hmem : x ∈ after' := by
        rw [(List.cons.inj htail).2]
        exact List.mem_append_right _ List.mem_cons_self
      exact absurd hx (h' x hmem)

theorem first_unique (hx : P x) (hx' : P x') (h : ∀ y ∈ before, ¬ P y)
    (h' : ∀ y ∈ before', ¬ P y) (heq : before ++ x :: after = before' ++ x' :: after') :
    x = x' := by
  have hrev := congrArg List.reverse heq
  rw [List.reverse_append, List.reverse_append, List.reverse_cons, List.reverse_cons,
    List.append_assoc, List.append_assoc, List.singleton_append, List.singleton_append] at hrev
  exact (last_unique hx hx' (fun y hy => h y (List.mem_reverse.mp hy))
    (fun y hy => h' y (List.mem_reverse.mp hy)) hrev).1

end Place

/-- What the events hold is one lease. -/
theorem Holds.unique {l' : Lease α τ} (h : Holds old k events l) (h' : Holds old k events l') :
    l = l' := by
  obtain ⟨before, now, after, heq, hsilent⟩ := h.first
  obtain ⟨before', now', after', heq', hsilent'⟩ := h'.first
  have hfirst := first_unique (Event.of_self k _ _) (Event.of_self k _ _) hsilent hsilent'
    (heq.symm.trans heq')
  obtain ⟨_, a, hev, hquiet, hlapsed⟩ := h.last
  obtain ⟨_, a', hev', hquiet', hlapsed'⟩ := h'.last
  obtain ⟨hlast, hafter⟩ := last_unique (Event.of_self k _ _) (Event.of_self k _ _) hquiet hquiet'
    (hev.symm.trans hev')
  injection hfirst with _ hfirst _
  injection hlast with _ hvalue hsince
  refine Lease.ext hfirst hvalue hsince (Bool.eq_iff_iff.mpr ?_)
  rw [hlapsed, hlapsed', hsince, hafter]

/-! ### The table -/

section Table

variable [DecidableEq κ]

variable (old k) in
def step (l : Option (Lease α τ)) : Event κ α τ → Option (Lease α τ)
  | .renew key value now =>
    if key = k then some ⟨(l.map Lease.first).getD value, value, now, false⟩ else l
  | .sweep now => l.map fun l => { l with lapsed := l.lapsed || old l.since now }

variable (old k events) in
/-- The lease of a holder in a table that was empty before the events. -/
def lease : Option (Lease α τ) := events.foldl (step old k) none

theorem lease_concat (e : Event κ α τ) :
    lease old k (events ++ [e]) = step old k (lease old k events) e := by
  rw [lease, List.foldl_append]
  rfl

/-- The holder's own word starts the lease again. -/
theorem holds_concat_renew (hl : ∀ l, lease old k events = some l → Holds old k events l)
    (hnone : lease old k events = none → Silent k events) (value : α) (now : τ) :
    Holds old k (events ++ [.renew k value now])
      ⟨((lease old k events).map Lease.first).getD value, value, now, false⟩ where
  first := by
    cases hlease : lease old k events with
    | none => exact ⟨events, now, [], rfl, hnone hlease⟩
    | some l => exact (hl l hlease).first_concat _
  last := ⟨events, [], rfl, silent_nil, by simp [Swept]⟩

/-- The table after any events. -/
theorem lease_spec (events : List (Event κ α τ)) :
    (∀ l, lease old k events = some l → Holds old k events l) ∧
      (lease old k events = none → Silent k events) := by
  induction events using List.reverseRecOn with
  | nil => exact ⟨fun l h => (by cases h), fun _ => silent_nil⟩
  | append_singleton events e ih =>
    rw [lease_concat]
    cases e with
    | sweep now =>
      constructor
      · intro l h
        obtain ⟨l', hl', rfl⟩ := Option.map_eq_some_iff.mp h
        exact (ih.1 l' hl').concat_sweep now
      · exact fun h => silent_concat.mpr ⟨ih.2 (Option.map_eq_none_iff.mp h), id⟩
    | renew k' value now =>
      unfold step
      dsimp only
      split_ifs with hk
      · subst hk
        refine ⟨fun l h => ?_, fun h => by cases h⟩
        rw [← Option.some_inj.mp h]
        exact holds_concat_renew ih.1 ih.2 value now
      · exact ⟨fun l h => (ih.1 l h).concat_renew hk value now,
          fun h => silent_concat.mpr ⟨ih.2 h, hk⟩⟩

/-- The last word of a holder, and the sweeps behind it, say what is in the table. -/
theorem exists_lease_of_last {before after : List (Event κ α τ)} {value : α} {now : τ}
    (heq : events = before ++ .renew k value now :: after) (hsilent : Silent k after) :
    ∃ l, lease old k events = some l ∧ l.value = value ∧ l.since = now ∧
      (l.lapsed = true ↔ Swept old now after) := by
  cases hlease : lease old k events with
  | none =>
    have hmem : .renew k value now ∈ events := by
      rw [heq]
      exact List.mem_append_right _ List.mem_cons_self
    exact absurd rfl ((lease_spec events).2 hlease _ hmem)
  | some l =>
    obtain ⟨_, after', heq', hsilent', hlapsed⟩ := ((lease_spec events).1 l hlease).last
    obtain ⟨hlast, hafter⟩ := last_unique (Event.of_self k _ _) (Event.of_self k _ _) hsilent
      hsilent' (heq.symm.trans heq')
    injection hlast with _ hvalue hsince
    refine ⟨l, rfl, hvalue.symm, hsince.symm, ?_⟩
    rw [hlapsed, hsince, hafter]

/-- A lease is in the table exactly if the events hold it. -/
theorem lease_eq_some_iff : lease old k events = some l ↔ Holds old k events l := by
  refine ⟨(lease_spec events).1 l, fun h => ?_⟩
  obtain ⟨before, after, heq, hsilent, -⟩ := h.last
  obtain ⟨l', hl', -⟩ := exists_lease_of_last heq hsilent
  rw [hl', ((lease_spec events).1 l' hl').unique h]

end Table

end Leases
