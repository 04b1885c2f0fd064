import Mathlib.Data.List.Infix
import Mathlib.Data.List.DropRight
import Mathlib.Data.List.TakeWhile
import Mathlib.Tactic.Common

/-! First occurrence of a pattern in a list. A match reported in a list stays the
first one when more elements arrive behind it. -/
namespace ListSearch

variable {α : Type*} [DecidableEq α]

/-- The least position at which the whole pattern stands. -/
def firstOcc (pat : List α) : List α → Option ℕ
  | [] => if pat = [] then some 0 else none
  | a :: l => if pat <+: a :: l then some 0 else (firstOcc pat l).map (· + 1)

def occursIn (pat l : List α) : Bool := (firstOcc pat l).isSome

theorem firstOcc_le (pat : List α) {l : List α} {k : ℕ} (h : firstOcc pat l = some k) :
    k + pat.length ≤ l.length := by
  induction l generalizing k with
  | nil =>
    simp only [firstOcc] at h
    split_ifs at h with hp
    simp only [Option.some.injEq] at h
    simp [← h, hp]
  | cons a l ih =>
    simp only [firstOcc] at h
    split_ifs at h with hp
    · simp only [Option.some.injEq] at h
      have := hp.length_le
      omega
    · obtain ⟨j, hj, rfl⟩ := Option.map_eq_some_iff.mp h
      have := ih hj
      simp only [List.length_cons]
      omega

/-- What the search reports: a match at `k` and no match before it. -/
theorem firstOcc_eq_some_iff {pat l : List α} {k : ℕ} (hp : pat ≠ []) :
    firstOcc pat l = some k ↔ pat <+: l.drop k ∧ ∀ j < k, ¬ pat <+: l.drop j := by
  induction l generalizing k with
  | nil => simp [firstOcc, hp]
  | cons a l ih =>
    by_cases h0 : pat <+: a :: l
    · simp only [firstOcc, if_pos h0, Option.some.injEq]
      constructor
      · rintro rfl
        exact ⟨by simpa using h0, by simp⟩
      · rintro ⟨_, hmin⟩
        by_contra hk
        exact hmin 0 (by omega) (by simpa using h0)
    · simp only [firstOcc, if_neg h0, Option.map_eq_some_iff]
      constructor
      · rintro ⟨j, hj, rfl⟩
        obtain ⟨hm, hmin⟩ := ih.mp hj
        refine ⟨by simpa using hm, ?_⟩
        rintro (_ | i) hi
        · simpa using h0
        · simpa using hmin i (by omega)
      · rintro ⟨hm, hmin⟩
        obtain _ | k := k
        · exact absurd (by simpa using hm) h0
        · refine ⟨k, ih.mpr ⟨by simpa using hm, fun i hi => ?_⟩, rfl⟩
          simpa using hmin (i+1) (by omega)

theorem firstOcc_eq_none_iff {pat l : List α} (hp : pat ≠ []) :
    firstOcc pat l = none ↔ ∀ k, ¬ pat <+: l.drop k := by
  induction l with
  | nil => simp [firstOcc, hp]
  | cons a l ih =>
    by_cases h0 : pat <+: a :: l
    · simp only [firstOcc, if_pos h0, reduceCtorEq, false_iff, not_forall, not_not]
      exact ⟨0, by simpa using h0⟩
    · simp only [firstOcc, if_neg h0, Option.map_eq_none_iff, ih]
      constructor
      · rintro h (_ | k)
        · simpa using h0
        · simpa using h k
      · intro h k
        simpa using h (k+1)

theorem firstOcc_match {pat l : List α} {k : ℕ} (hp : pat ≠ []) (h : firstOcc pat l = some k) :
    l = l.take k ++ pat ++ l.drop (k+pat.length) := by
  obtain ⟨t, ht⟩ := ((firstOcc_eq_some_iff hp).mp h).1
  have hd : l.drop (k+pat.length) = t := by
    rw [← List.drop_drop, ← ht, List.drop_left]
  rw [hd, List.append_assoc, ht, List.take_append_drop]

/-- Later elements never change a reported position. -/
theorem firstOcc_append {pat l : List α} {k : ℕ} (hp : pat ≠ []) (h : firstOcc pat l = some k)
    (r : List α) : firstOcc pat (l ++ r) = some k := by
  have hk := firstOcc_le pat h
  obtain ⟨hm, hmin⟩ := (firstOcc_eq_some_iff hp).mp h
  refine (firstOcc_eq_some_iff hp).mpr ⟨?_, fun j hj hj' => hmin j hj ?_⟩
  · rw [List.drop_append_of_le_length (by omega)]
    exact hm.trans (List.prefix_append _ _)
  · rw [List.drop_append_of_le_length (by omega)] at hj'
    exact List.prefix_of_prefix_length_le hj' (List.prefix_append _ _)
      (by simp only [List.length_drop]; omega)

/-- A list that is a beginning of another one agrees with it up to its length. -/
theorem firstOcc_of_append {pat l r : List α} {k : ℕ} (hp : pat ≠ [])
    (h : firstOcc pat (l ++ r) = some k) (hk : k + pat.length ≤ l.length) :
    firstOcc pat l = some k := by
  obtain ⟨hm, hmin⟩ := (firstOcc_eq_some_iff hp).mp h
  refine (firstOcc_eq_some_iff hp).mpr ⟨?_, fun j hj hj' => hmin j hj ?_⟩
  · rw [List.drop_append_of_le_length (by omega)] at hm
    exact List.prefix_of_prefix_length_le hm (List.prefix_append _ _)
      (by simp only [List.length_drop]; omega)
  · rw [List.drop_append_of_le_length (by omega)]
    exact hj'.trans (List.prefix_append _ _)

theorem firstOcc_take {pat l : List α} {k n : ℕ} (hp : pat ≠ []) (h : firstOcc pat l = some k)
    (hn : k + pat.length ≤ n) : firstOcc pat (l.take n) = some k := by
  have hl := firstOcc_le pat h
  rw [← List.take_append_drop n l] at h
  exact firstOcc_of_append hp h (by simp only [List.length_take]; omega)

/-- Cutting a list inside its first match leaves no match. -/
theorem firstOcc_take_none {pat l : List α} {k n : ℕ} (hp : pat ≠ [])
    (h : firstOcc pat l = some k) (hn : n < k + pat.length) : firstOcc pat (l.take n) = none := by
  by_contra hc
  obtain ⟨j, hj⟩ := Option.ne_none_iff_exists'.mp hc
  have hle := firstOcc_le pat hj
  have hlen := List.length_take_le n l
  have happ := firstOcc_append hp hj (l.drop n)
  rw [List.take_append_drop, h, Option.some.injEq] at happ
  omega

/-- Skipping elements that hold no match start moves the first match. -/
theorem firstOcc_drop {pat l : List α} {k i : ℕ} (hp : pat ≠ []) (h : firstOcc pat l = some k)
    (hi : i ≤ k) : firstOcc pat (l.drop i) = some (k-i) := by
  obtain ⟨hm, hmin⟩ := (firstOcc_eq_some_iff hp).mp h
  refine (firstOcc_eq_some_iff hp).mpr ⟨?_, fun j hj hj' => hmin (i+j) (by omega) ?_⟩
  · rwa [List.drop_drop, show i + (k-i) = k by omega]
  · rwa [List.drop_drop] at hj'

theorem occursIn_iff {pat l : List α} (hp : pat ≠ []) : occursIn pat l = true ↔ pat <:+: l := by
  constructor
  · intro h
    obtain ⟨k, hk⟩ := Option.isSome_iff_exists.mp h
    rw [firstOcc_match hp hk]
    exact List.infix_append _ _ _
  · rintro ⟨s, t, rfl⟩
    by_contra hc
    have hn : firstOcc pat (s ++ pat ++ t) = none := by
      simpa [occursIn] using hc
    apply (firstOcc_eq_none_iff hp).mp hn s.length
    rw [List.append_assoc, List.drop_left]
    exact List.prefix_append _ _

theorem occursIn_append {pat l : List α} (hp : pat ≠ []) (h : occursIn pat l = true)
    (r : List α) : occursIn pat (l ++ r) = true := by
  rw [occursIn_iff hp] at h ⊢
  exact h.trans (List.prefix_append _ _).isInfix

omit [DecidableEq α] in
/-- A pattern that avoids `a` does not reach over it: a match lies in front of it or behind. -/
theorem prefix_drop_append_cons {pat l r : List α} {a : α} {k : ℕ} (ha : a ∉ pat)
    (hm : pat <+: (l ++ a :: r).drop k) :
    pat <+: l.drop k ∨ l.length < k ∧ pat <+: r.drop (k-(l.length+1)) := by
  rcases le_or_gt k l.length with hk | hk
  · left
    rw [List.drop_append_of_le_length hk] at hm
    rcases le_or_gt pat.length (l.drop k).length with hlen | hgt
    · exact List.prefix_of_prefix_length_le hm (List.prefix_append _ _) hlen
    · obtain ⟨t, ht⟩ := hm
      have hget : (pat ++ t)[(l.drop k).length]? = some a := by
        rw [ht, List.getElem?_append_right le_rfl, Nat.sub_self, List.getElem?_cons_zero]
      rw [List.getElem?_append_left hgt] at hget
      exact absurd (List.mem_of_getElem? hget) ha
  · right
    have hd : (l ++ a :: r).drop k = r.drop (k-(l.length+1)) := by
      rw [List.drop_append, List.drop_of_length_le hk.le, List.nil_append,
        show k-l.length = k-(l.length+1)+1 by omega, List.drop_succ_cons]
    exact ⟨hk, hd ▸ hm⟩

/-- A pattern that avoids `a` and is not in `l` can only stand behind the `a` after `l`. -/
theorem firstOcc_append_cons_gt {pat l r : List α} {a : α} {k : ℕ} (hp : pat ≠ []) (ha : a ∉ pat)
    (hl : firstOcc pat l = none) (hk : firstOcc pat (l ++ a :: r) = some k) : l.length < k := by
  rcases prefix_drop_append_cons ha ((firstOcc_eq_some_iff hp).mp hk).1 with hm | ⟨hlt, _⟩
  · exact absurd hm ((firstOcc_eq_none_iff hp).mp hl k)
  · exact hlt

theorem occursIn_append_cons {pat l r : List α} {a : α} (hp : pat ≠ []) (ha : a ∉ pat) :
    occursIn pat (l ++ a :: r) = true ↔ occursIn pat l = true ∨ occursIn pat r = true := by
  constructor
  · intro h
    obtain ⟨k, hk⟩ := Option.isSome_iff_exists.mp h
    rcases prefix_drop_append_cons ha ((firstOcc_eq_some_iff hp).mp hk).1 with hm | ⟨_, hm⟩
    · exact Or.inl ((occursIn_iff hp).mpr (hm.isInfix.trans (List.drop_suffix _ _).isInfix))
    · exact Or.inr ((occursIn_iff hp).mpr (hm.isInfix.trans (List.drop_suffix _ _).isInfix))
  · rintro (h | h)
    · exact occursIn_append hp h _
    · rw [occursIn_iff hp] at h ⊢
      exact h.trans ⟨l ++ [a], [], by simp⟩

omit [DecidableEq α] in
/-- A pattern that avoids an element of `l` starts `l` when it starts a longer list. -/
theorem prefix_of_prefix_append {pat l r : List α} {a : α} (ha : a ∈ l) (hpat : a ∉ pat)
    (h : pat <+: l ++ r) : pat <+: l := by
  rcases List.prefix_or_prefix_of_prefix h (List.prefix_append l r) with hp | hl
  · exact hp
  · exact absurd (hl.subset ha) hpat

/-- A pattern whose first element does not come back is first found where it first stands. -/
theorem firstOcc_append_self {a : α} {p l : List α} (ha : a ∉ p)
    (hl : occursIn (a :: p) l = false) (r : List α) :
    firstOcc (a :: p) (l ++ ((a :: p) ++ r)) = some l.length := by
  have hnone : firstOcc (a :: p) l = none := by simpa [occursIn] using hl
  refine (firstOcc_eq_some_iff (List.cons_ne_nil _ _)).mpr ⟨?_, fun j hj hm => ?_⟩
  · rw [List.drop_left]
    exact List.prefix_append _ _
  · apply (firstOcc_eq_none_iff (List.cons_ne_nil _ _)).mp hnone j
    rw [List.drop_append_of_le_length (by omega)] at hm
    have hne : l.drop j ≠ [] := by
      rw [ne_eq, List.drop_eq_nil_iff]
      omega
    obtain ⟨b, t, hb⟩ := List.exists_cons_of_ne_nil hne
    rw [hb] at hm ⊢
    rw [List.cons_append, List.cons_prefix_cons] at hm
    obtain ⟨rfl, hm⟩ := hm
    rw [List.cons_prefix_cons]
    -- the rest of the pattern avoids its first element, so it ends in front of the pattern's place
    rcases prefix_drop_append_cons (k := 0) ha hm with hm | ⟨hlt, _⟩
    · exact ⟨rfl, hm⟩
    · omega

/-- A single element is first found where it first stands. -/
theorem firstOcc_singleton {a : α} {l : List α} (ha : a ∉ l) (r : List α) :
    firstOcc [a] (l ++ a :: r) = some l.length := by
  refine (firstOcc_eq_some_iff (List.cons_ne_nil _ _)).mpr ⟨?_, fun j hj hm => ha ?_⟩
  · rw [List.drop_left]
    exact List.prefix_append [a] r
  · rw [List.drop_append_of_le_length (by omega)] at hm
    obtain ⟨t, ht⟩ := hm
    have hne : l.drop j ≠ [] := by
      rw [ne_eq, List.drop_eq_nil_iff]
      omega
    obtain ⟨b, l', hb⟩ := List.exists_cons_of_ne_nil hne
    rw [hb, List.cons_append, List.cons_append, List.cons.injEq] at ht
    rw [ht.1]
    exact List.mem_of_mem_drop (hb ▸ List.mem_cons_self)

theorem firstOcc_singleton_none {a : α} {l : List α} (ha : a ∉ l) : firstOcc [a] l = none := by
  by_contra hc
  obtain ⟨k, hk⟩ := Option.ne_none_iff_exists'.mp hc
  have hm := firstOcc_match (List.cons_ne_nil _ _) hk
  apply ha
  rw [hm]
  simp

/-- In front of the first place of an element the element does not stand. -/
theorem notMem_take_of_firstOcc {a : α} {l : List α} {k : ℕ} (h : firstOcc [a] l = some k) :
    a ∉ l.take k := by
  intro ha
  obtain ⟨u, v, huv⟩ := List.append_of_mem ha
  have hlen := congrArg List.length huv
  rw [List.length_take, List.length_append, List.length_cons] at hlen
  apply ((firstOcc_eq_some_iff (List.cons_ne_nil a [])).mp h).2 u.length (by omega)
  rw [← List.take_append_drop k l, huv, List.append_assoc, List.drop_left]
  exact ⟨v ++ l.drop k, rfl⟩

/-- Pieces that each end with a separator are what a text of them is split into. -/
theorem splitOn_terminated {β : Type*} {sep : α} (f : β → List α) {l : List β}
    (h : ∀ b ∈ l, sep ∉ f b) :
    (l.flatMap fun b => f b ++ [sep]).splitOn sep = l.map f ++ [[]] := by
  induction l with
  | nil => rfl
  | cons b l ih =>
    obtain ⟨hb, hl⟩ := List.forall_mem_cons.mp h
    rw [List.flatMap_cons, List.append_assoc, List.singleton_append,
      List.splitOn_append_cons_self_of_not_mem hb, ih hl, List.map_cons, List.cons_append]

/-- Elements that are no beginning of the pattern only move what is found behind them. -/
theorem firstOcc_append_notMem {a : α} {p l : List α} (ha : a ∉ l) (r : List α) :
    firstOcc (a :: p) (l ++ r) = (firstOcc (a :: p) r).map (l.length + ·) := by
  induction l with
  | nil =>
    have hid : (fun k => ([] : List α).length + k) = id := funext Nat.zero_add
    rw [List.nil_append, hid, Option.map_id_fun, id_eq]
  | cons b l ih =>
    have hne : a ≠ b := fun h => ha (h ▸ List.mem_cons_self)
    have hstart : ¬ a :: p <+: b :: (l ++ r) := fun h => hne (List.cons_prefix_cons.mp h).1
    rw [List.cons_append, firstOcc, if_neg hstart, ih fun h => ha (List.mem_cons_of_mem _ h),
      Option.map_map]
    congr 1
    funext k
    simp only [Function.comp_apply, List.length_cons]
    omega

/-- A pattern none of whose ends begins it is first found where it first stands. -/
theorem firstOcc_append_unbordered {p l : List α} (hp : p ≠ [])
    (hself : ∀ j < p.length, 0 < j → ¬ p.drop j <+: p) (hl : ¬ p <:+: l) (r : List α) :
    firstOcc p (l ++ (p ++ r)) = some l.length := by
  refine (firstOcc_eq_some_iff hp).mpr ⟨?_, fun j hj hm => ?_⟩
  · rw [List.drop_left]
    exact List.prefix_append _ _
  · rw [List.drop_append_of_le_length hj.le] at hm
    by_cases hlong : p.length ≤ (l.drop j).length
    · have hin := List.prefix_of_prefix_length_le hm (List.prefix_append _ _) hlong
      exact hl (hin.isInfix.trans (List.drop_suffix _ _).isInfix)
    · have hfront := List.prefix_of_prefix_length_le (List.prefix_append _ _) hm
        (Nat.le_of_not_le hlong)
      obtain ⟨t, ht⟩ := hfront
      rw [← ht, List.prefix_append_right_inj, ht] at hm
      have hlen : (l.drop j).length = l.length - j := List.length_drop
      have hend : p.drop (l.drop j).length = t := by
        rw [← ht, List.drop_left]
      apply hself (l.drop j).length (Nat.lt_of_not_le hlong) (by omega)
      rw [hend]
      refine List.prefix_of_prefix_length_le hm (List.prefix_append _ _) ?_
      rw [← ht, List.length_append]
      exact Nat.le_add_left _ _

end ListSearch
