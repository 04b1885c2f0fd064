import MsgCourier.ListSearch

/-! Replacing the occurrences of a pattern in a list from left to right. What a replacement brings
in is never searched. -/
namespace ListSearch

variable {α : Type*} [DecidableEq α] {pat w s r : List α}

/-- `Replaced pat w s r`: `r` is `s` with the first occurrence of `pat`, the first one behind it,
and so on replaced by `w`. -/
inductive Replaced (pat w : List α) : List α → List α → Prop
  | none {s : List α} (hs : firstOcc pat s = none) : Replaced pat w s s
  | some {s r : List α} {k : ℕ} (hs : firstOcc pat s = some k)
      (hrest : Replaced pat w (s.drop (k+pat.length)) r) : Replaced pat w s (s.take k ++ w ++ r)

theorem exists_replaced (hpat : pat ≠ []) (w s : List α) : ∃ r, Replaced pat w s r := by
  -- each occurrence takes at least one element away
  induction hn : s.length using Nat.strong_induction_on generalizing s with
  | _ n ih =>
    cases hs : firstOcc pat s with
    | none => exact ⟨s, .none hs⟩
    | some k =>
      have hpos := List.length_pos_iff.mpr hpat
      have hle := firstOcc_le pat hs
      have hless : (s.drop (k+pat.length)).length < n := by
        rw [List.length_drop]
        omega
      obtain ⟨r, hr⟩ := ih _ hless _ rfl
      exact ⟨_, .some hs hr⟩

theorem Replaced.unique (h : Replaced pat w s r) {r' : List α} (h' : Replaced pat w s r') :
    r = r' := by
  induction h generalizing r' with
  | none hs =>
    cases h' with
    | none => rfl
    | some hs' =>
      rw [hs] at hs'
      cases hs'
  | some hs _ ih =>
    cases h' with
    | none hs' =>
      rw [hs] at hs'
      cases hs'
    | some hs' hrest' =>
      obtain rfl := Option.some.inj (hs.symm.trans hs')
      rw [ih hrest']

theorem Replaced.length_le (h : Replaced pat w s r) (hw : pat.length ≤ w.length) :
    s.length ≤ r.length := by
  induction h with
  | none => exact le_rfl
  | some hs _ ih =>
    have hle := firstOcc_le pat hs
    rw [List.length_drop] at ih
    rw [List.length_append, List.length_append, List.length_take]
    omega

theorem Replaced.length_ge (h : Replaced pat w s r) (hw : w.length ≤ pat.length) :
    r.length ≤ s.length := by
  induction h with
  | none => exact le_rfl
  | some hs _ ih =>
    have hle := firstOcc_le pat hs
    rw [List.length_drop] at ih
    rw [List.length_append, List.length_append, List.length_take]
    omega

/-- Replacing a single element by nothing deletes it. -/
theorem Replaced.filter {a : α} (h : Replaced [a] [] s r) : r = s.filter (· ≠ a) := by
  have hkeep {l : List α} (hl : a ∉ l) : l.filter (· ≠ a) = l := by
    apply List.filter_eq_self.mpr
    intro x hx
    exact decide_eq_true fun he => hl (he ▸ hx)
  induction h with
  | @none s hs =>
    refine (hkeep fun ha => ?_).symm
    obtain ⟨u, v, rfl⟩ := List.append_of_mem ha
    apply (firstOcc_eq_none_iff (List.cons_ne_nil a [])).mp hs u.length
    rw [List.drop_left]
    exact ⟨v, rfl⟩
  | @some s r k hs _ ih =>
    have hmatch := firstOcc_match (List.cons_ne_nil a []) hs
    have hbefore : a ∉ s.take k := by
      intro ha
      obtain ⟨u, v, huv⟩ := List.append_of_mem ha
      have hlen := congrArg List.length huv
      rw [List.length_take, List.length_append, List.length_cons] at hlen
      apply ((firstOcc_eq_some_iff (List.cons_ne_nil a [])).mp hs).2 u.length (by omega)
      rw [← List.take_append_drop k s, huv, List.append_assoc, List.drop_left]
      exact ⟨v ++ s.drop k, rfl⟩
    rw [List.append_nil, ih]
    conv_rhs => rw [hmatch]
    rw [List.filter_append, List.filter_append, hkeep hbefore]
    simp

end ListSearch
