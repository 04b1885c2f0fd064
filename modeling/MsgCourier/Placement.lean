import Mathlib.Data.List.Nodup
import Mathlib.Data.List.Perm.Basic

/-! Items at spots: each item is at one spot, and some of the spots keep a list of their items. A
step moves one item, and only the lists of the two spots change. -/
namespace Placement

variable {α β : Type*} {listed : β → Prop} {spot : α → β} {items items' : β → List α}

/-- The list of every listed spot has the items at it, each once. -/
def Placed (listed : β → Prop) (spot : α → β) (items : β → List α) : Prop :=
  ∀ b, listed b → (items b).Nodup ∧ ∀ p, p ∈ items b ↔ spot p = b

theorem Placed.spot_of_mem (h : Placed listed spot items) {b : β} (hb : listed b) {p : α}
    (hp : p ∈ items b) : spot p = b := ((h b hb).2 p).mp hp

theorem Placed.mem (h : Placed listed spot items) {b : β} (hb : listed b) {p : α}
    (hp : spot p = b) : p ∈ items b := ((h b hb).2 p).mpr hp

/-- The order of a list does not matter. -/
theorem Placed.perm (h : Placed listed spot items)
    (hperm : ∀ b, listed b → (items' b).Perm (items b)) : Placed listed spot items' := by
  intro b hb
  obtain ⟨hn, hmem⟩ := h b hb
  refine ⟨(hperm b hb).nodup_iff.mpr hn, fun p => ?_⟩
  rw [(hperm b hb).mem_iff]
  exact hmem p

variable [DecidableEq α]

/-- One item leaves the spot `a` for `b`. -/
theorem Placed.move (h : Placed listed spot items) {p : α} {a b : β} (hp : spot p = a)
    (hab : a ≠ b) (hleave : listed a → (p :: items' a).Perm (items a))
    (hjoin : listed b → (items' b).Perm (p :: items b))
    (hother : ∀ c, listed c → c ≠ a → c ≠ b → (items' c).Perm (items c)) :
    Placed listed (Function.update spot p b) items' := by
  intro c hc
  obtain ⟨hn, hmem⟩ := h c hc
  by_cases hca : c = a
  · subst hca
    have hcons := (hleave hc).nodup_iff.mpr hn
    obtain ⟨hnot, hn'⟩ := List.nodup_cons.mp hcons
    refine ⟨hn', fun q => ?_⟩
    by_cases hq : q = p
    · subst hq
      rw [Function.update_self]
      exact iff_of_false hnot (Ne.symm hab)
    · rw [Function.update_of_ne hq, ← hmem q, ← (hleave hc).mem_iff, List.mem_cons]
      exact (or_iff_right hq).symm
  · by_cases hcb : c = b
    · subst hcb
      have hnot : p ∉ items c := fun hin => hab (hp.symm.trans ((hmem p).mp hin))
      refine ⟨(hjoin hc).nodup_iff.mpr (List.nodup_cons.mpr ⟨hnot, hn⟩), fun q => ?_⟩
      rw [(hjoin hc).mem_iff, List.mem_cons]
      by_cases hq : q = p
      · rw [hq, Function.update_self]
        exact iff_of_true (Or.inl rfl) rfl
      · rw [Function.update_of_ne hq, ← hmem q]
        exact or_iff_right hq
    · have hperm := hother c hc hca hcb
      refine ⟨hperm.nodup_iff.mpr hn, fun q => ?_⟩
      rw [hperm.mem_iff, hmem q]
      by_cases hq : q = p
      · rw [hq, Function.update_self, hp]
        exact iff_of_false (Ne.symm hca) (Ne.symm hcb)
      · rw [Function.update_of_ne hq]

/-- An item that is in no list goes to a spot without a list. -/
theorem Placed.unlisted (h : Placed listed spot items) {p : α} {b : β} (hp : ¬ listed (spot p))
    (hb : ¬ listed b) : Placed listed (Function.update spot p b) items := by
  intro c hc
  obtain ⟨hn, hmem⟩ := h c hc
  refine ⟨hn, fun q => ?_⟩
  by_cases hq : q = p
  · rw [hq, Function.update_self, hmem p]
    exact iff_of_false (fun he => hp (he ▸ hc)) fun he => hb (he ▸ hc)
  · rw [Function.update_of_ne hq, hmem q]

end Placement
