import Mathlib.Data.List.Basic

/-! Runs of a labelled step relation and the invariants of their states. -/
namespace Runs

variable {σ α : Type*} {step : σ → α → σ → Prop}

/-- `Run step s as t`: the actions `as`, one step each, lead from `s` to `t`. -/
inductive Run (step : σ → α → σ → Prop) (s : σ) : List α → σ → Prop
  | nil : Run step s [] s
  | snoc {as : List α} {t u : σ} {a : α} :
      Run step s as t → step t a u → Run step s (as ++ [a]) u

/-- What every step keeps, every run keeps. -/
theorem Run.invariant {inv : σ → Prop} (hstep : ∀ t a u, inv t → step t a u → inv u)
    {s t : σ} {as : List α} (hrun : Run step s as t) (hs : inv s) : inv t := by
  induction hrun with
  | nil => exact hs
  | snoc _ hlast ih => exact hstep _ _ _ ih hlast

theorem Run.mono {step' : σ → α → σ → Prop} (h : ∀ t a u, step t a u → step' t a u) {s t : σ}
    {as : List α} (hrun : Run step s as t) : Run step' s as t := by
  induction hrun with
  | nil => exact Run.nil
  | snoc _ hlast ih => exact ih.snoc (h _ _ _ hlast)

theorem Run.trans {s t u : σ} {as bs : List α} (h₁ : Run step s as t) (h₂ : Run step t bs u) :
    Run step s (as ++ bs) u := by
  induction h₂ with
  | nil => rwa [List.append_nil]
  | snoc _ hlast ih =>
    rw [← List.append_assoc]
    exact ih.snoc hlast

/-- A run passes a state between any two of its actions. -/
theorem Run.append_inv {s u : σ} {as bs : List α} (hrun : Run step s (as ++ bs) u) :
    ∃ t, Run step s as t ∧ Run step t bs u := by
  generalize hl : as ++ bs = l at hrun
  induction hrun generalizing bs with
  | nil =>
    obtain ⟨rfl, rfl⟩ := List.append_eq_nil_iff.mp hl
    exact ⟨s, Run.nil, Run.nil⟩
  | @snoc l t u a hrun hlast ih =>
    rcases List.eq_nil_or_concat bs with rfl | ⟨bs, b, rfl⟩
    · rw [List.append_nil] at hl
      exact ⟨u, hl ▸ hrun.snoc hlast, Run.nil⟩
    · rw [List.concat_eq_append, ← List.append_assoc] at hl
      obtain ⟨hinit, hb⟩ := List.append_inj' hl rfl
      obtain rfl := List.singleton_inj.mp hb
      obtain ⟨v, hfirst, hrest⟩ := ih hinit
      exact ⟨v, hfirst, List.concat_eq_append ▸ hrest.snoc hlast⟩

theorem Run.singleton_inv {s t : σ} {a : α} (hrun : Run step s [a] t) : step s a t := by
  generalize hl : [a] = l at hrun
  cases hrun with
  | nil => cases hl
  | @snoc as u _ b hrun hlast =>
    obtain ⟨hnil, hb⟩ := List.append_inj' (show [] ++ [a] = as ++ [b] from hl) rfl
    obtain rfl := hnil
    obtain rfl := List.singleton_inj.mp hb
    generalize has : [] = as at hrun
    cases hrun with
    | nil => exact hlast
    | snoc => simp at has

end Runs
