import MsgCourier.PorterStemmer

/-! The stemmer stays inside its word and never makes it longer, and the words whose stem is a
single letter. -/
namespace MsgCourier
open CText

namespace PorterStemmer

variable {s t : Stemmer} {suffix : Bytes}

/-! ### Words and steps -/

structure Inside (s : Stemmer) : Prop where
  nonneg : 0 ≤ s.k
  lt : s.k < s.b.length
  zero : 0 ∉ s.b

/-- `t` is `s` after a step that takes letters off, but not all of them. -/
structure Follows (s t : Stemmer) : Prop where
  inside : Inside t
  length : t.b.length = s.b.length
  le : t.k ≤ s.k
  pos : 1 ≤ s.k → 1 ≤ t.k

theorem Follows.refl (h : Inside s) : Follows s s := ⟨h, rfl, le_rfl, id⟩

theorem Follows.trans {u : Stemmer} (h : Follows s t) (h' : Follows t u) : Follows s u :=
  ⟨h'.inside, h'.length.trans h.length, h'.le.trans h.le, fun hs => h'.pos (h.pos hs)⟩

/-- A shorter word in the same bytes. -/
theorem Follows.cut (h : Inside s) {k : ℤ} (hk : 0 ≤ k) (hle : k ≤ s.k)
    (hpos : 1 ≤ s.k → 1 ≤ k) : Follows s { s with k := k } :=
  ⟨⟨hk, hle.trans_lt h.lt, h.zero⟩, rfl, hle, hpos⟩

/-! ### The measure -/

theorem two_mul_mFrom_le (b : Bytes) (i rest : ℕ) :
    2*mFrom b false i rest ≤ rest ∧ 2*mFrom b true i rest ≤ rest+1 := by
  induction rest generalizing i with
  | zero => exact ⟨by rw [mFrom], by rw [mFrom]; omega⟩
  | succ rest ih =>
    obtain ⟨hfalse, htrue⟩ := ih (i+1)
    rw [mFrom, mFrom]
    cases cons b i with
    | true =>
      rw [if_pos rfl, if_pos rfl]
      omega
    | false =>
      rw [if_neg Bool.false_ne_true, if_neg Bool.false_ne_true]
      omega

/-- Every sequence that `m` counts takes two letters. -/
theorem two_mul_m_le (hj : -1 ≤ s.j) : 2*(m s : ℤ) ≤ s.j+1 := by
  have hle := (two_mul_mFrom_le s.b 0 (s.j+1).toNat).1
  unfold m
  omega

theorem m_eq_zero_of_vowel (hj : s.j = 1) (hvowel : cons s.b 1 = false) : m s = 0 := by
  have hrest : (s.j+1).toNat = 2 := by omega
  unfold m
  rw [hrest, mFrom]
  cases cons s.b 0 with
  | true =>
    rw [if_pos rfl, mFrom, hvowel, if_neg Bool.false_ne_true, mFrom]
  | false =>
    rw [if_neg Bool.false_ne_true, mFrom, hvowel, if_neg Bool.false_ne_true, mFrom]

theorem cons_false_of_isVowel {b : Bytes} {i : ℕ} (h : isVowel (b.getD i 0) = true) :
    cons b i = false := by
  cases i with
  | zero => rw [cons, h, Bool.not_true]
  | succ i => rw [cons, if_pos h]

/-! ### Suffixes -/

theorem ends_some (h : ends suffix s = some t) : t = { s with j := s.k-suffix.length } ∧
    (suffix.length : ℤ) ≤ s.k+1 ∧
    (s.b.drop (s.k-suffix.length+1).toNat).take suffix.length = suffix := by
  unfold ends at h
  split_ifs at h with _ hlong hsame
  refine ⟨(Option.some.inj h).symm, not_lt.mp hlong, not_not.mp hsame⟩

theorem firstEnd_some {suffixes : List Bytes} (h : firstEnd suffixes s = some t) :
    ∃ suffix ∈ suffixes, ends suffix s = some t := by
  induction suffixes with
  | nil => cases h
  | cons suffix suffixes ih =>
    unfold firstEnd at h
    cases hend : ends suffix s with
    | some u =>
      rw [hend] at h
      cases h
      exact ⟨suffix, List.mem_cons_self, hend⟩
    | none =>
      rw [hend] at h
      obtain ⟨suffix', hmem, hend'⟩ := ih h
      exact ⟨suffix', List.mem_cons_of_mem _ hmem, hend'⟩

section
variable (hzero : 0 ∉ s.b) (hj : -1 ≤ s.j) (hfit : s.j+suffix.length < s.b.length)
include hj hfit

theorem length_setto : (setto suffix s).b.length = s.b.length := by
  unfold setto
  simp only [List.length_append, List.length_take, List.length_drop]
  omega

include hzero

theorem inside_setto (hsuffix : 0 ∉ suffix) (hk : 0 ≤ s.j+suffix.length) :
    Inside (setto suffix s) := by
  refine ⟨hk, ?_, ?_⟩
  · rw [length_setto hj hfit]
    exact hfit
  · unfold setto
    simp only [List.mem_append, not_or]
    exact ⟨⟨fun h => hzero (List.mem_of_mem_take h), hsuffix⟩,
      fun h => hzero (List.mem_of_mem_drop h)⟩

end

theorem r_follows (hs : Inside s) (hj : -1 ≤ s.j) (hfit : s.j+suffix.length ≤ s.k)
    (hsuffix : 0 ∉ suffix) : Follows s (r suffix s) := by
  unfold r
  by_cases hm : m s > 0
  · rw [if_pos hm]
    have hmeasure := two_mul_m_le hj
    have hlt := hs.lt
    exact ⟨inside_setto hs.zero hj (by omega) hsuffix (by omega), length_setto hj (by omega), hfit,
      fun _ => show 1 ≤ s.j+suffix.length by omega⟩
  · rw [if_neg hm]
    exact Follows.refl hs

/-- A replacement is no longer than its suffix. -/
def Shortens (rules : List (Bytes × Bytes)) : Prop :=
  ∀ rule ∈ rules, rule.2.length ≤ rule.1.length ∧ 0 ∉ rule.2

instance (rules : List (Bytes × Bytes)) : Decidable (Shortens rules) :=
  inferInstanceAs (Decidable (∀ rule ∈ rules, rule.2.length ≤ rule.1.length ∧ 0 ∉ rule.2))

theorem firstRule_follows (hs : Inside s) {rules : List (Bytes × Bytes)}
    (hrules : Shortens rules) : Follows s (firstRule rules s) := by
  induction rules with
  | nil => exact Follows.refl hs
  | cons rule rules ih =>
    obtain ⟨suffix, replacement⟩ := rule
    obtain ⟨hlen, hzero⟩ := hrules _ List.mem_cons_self
    unfold firstRule
    cases hend : ends suffix s with
    | some t =>
      obtain ⟨rfl, hfit, -⟩ := ends_some hend
      have hmoved : Inside { s with j := s.k-suffix.length } := ⟨hs.nonneg, hs.lt, hs.zero⟩
      have hr : Follows { s with j := s.k-suffix.length }
          (r replacement { s with j := s.k-suffix.length }) := by
        refine r_follows hmoved ?_ ?_ hzero
        · dsimp only
          omega
        · dsimp only
          dsimp only at hlen
          omega
      exact ⟨hr.inside, hr.length, hr.le, hr.pos⟩
    | none => exact ih fun rule hmem => hrules rule (List.mem_cons_of_mem _ hmem)

/-! ### The steps behind the first -/

theorem shortens_step2Rules (c : Byte) : Shortens (step2Rules c) := by
  unfold step2Rules
  split_ifs <;> decide

theorem shortens_step3Rules (c : Byte) : Shortens (step3Rules c) := by
  unfold step3Rules
  split_ifs <;> decide

theorem step1c_follows (hs : Inside s) : Follows s (step1c s) := by
  unfold step1c
  cases hend : ends (bytes "y") s with
  | none => exact Follows.refl hs
  | some t =>
    obtain ⟨rfl, -, -⟩ := ends_some hend
    dsimp only
    split_ifs
    · refine ⟨⟨hs.nonneg, ?_, ?_⟩, List.length_set, le_rfl, id⟩
      · rw [List.length_set]
        exact hs.lt
      · intro h
        rcases List.mem_or_eq_of_mem_set h with h | h
        · exact hs.zero h
        · exact absurd h (by decide)
    · exact ⟨⟨hs.nonneg, hs.lt, hs.zero⟩, rfl, le_rfl, id⟩

theorem step2_follows (front : Byte) (hs : Inside s) : Follows s (step2 front s) :=
  firstRule_follows hs (shortens_step2Rules _)

theorem step3_follows (hs : Inside s) : Follows s (step3 s) :=
  firstRule_follows hs (shortens_step3Rules _)

theorem step4Suffix_some {front : Byte} (h : step4Suffix front s = some t) :
    ∃ n : ℕ, t = { s with j := s.k-n } ∧ (n : ℤ) ≤ s.k+1 := by
  have hfirst {u v : Stemmer} {suffixes : List Bytes} (hend : firstEnd suffixes u = some v)
      (hu : u.b = s.b ∧ u.k = s.k) : ∃ n : ℕ, v = { s with j := s.k-n } ∧ (n : ℤ) ≤ s.k+1 := by
    obtain ⟨suffix, -, hend⟩ := firstEnd_some hend
    obtain ⟨rfl, hle, -⟩ := ends_some hend
    refine ⟨suffix.length, ?_, hu.2 ▸ hle⟩
    rw [hu.1, hu.2]
  unfold step4Suffix at h
  dsimp only at h
  split at h
  · rename_i u hion
    have hu : u = { s with j := s.k-(bytes "ion").length } ∧
        ((bytes "ion").length : ℤ) ≤ s.k+1 := by
      split_ifs at hion
      exact ⟨(ends_some hion).1, (ends_some hion).2.1⟩
    split_ifs at h
    · cases h
      exact ⟨_, hu⟩
    · exact hfirst h ⟨by rw [hu.1], by rw [hu.1]⟩
  · exact hfirst h ⟨rfl, rfl⟩

theorem step4_follows (front : Byte) (hs : Inside s) : Follows s (step4 front s) := by
  unfold step4
  cases hend : step4Suffix front s with
  | none => exact Follows.refl hs
  | some t =>
    obtain ⟨n, rfl, hle⟩ := step4Suffix_some hend
    have hmeasure := two_mul_m_le (s := { s with j := s.k-n }) (by dsimp only; omega)
    dsimp only at hmeasure ⊢
    split_ifs
    · exact ⟨⟨by dsimp only; omega, by have := hs.lt; dsimp only; omega, hs.zero⟩, rfl,
        by dsimp only; omega, fun _ => by dsimp only; omega⟩
    · exact ⟨⟨hs.nonneg, hs.lt, hs.zero⟩, rfl, le_rfl, id⟩

/-- A final -e goes only from a word with a consonant behind a vowel in front of it. -/
theorem finalE_cases (hj : s.j = s.k) (hk : 0 ≤ s.k) : finalE s = s ∨
    (finalE s = { s with k := s.k-1 } ∧ 2 ≤ s.k) := by
  unfold finalE
  by_cases he : s.b.getD s.k.toNat 0 = 101
  · rw [if_pos he]
    split_ifs with hm
    · refine .inr ⟨rfl, ?_⟩
      have hmeasure := two_mul_m_le (s := s) (by omega)
      by_contra hshort
      have hone : s.k = 1 := by omega
      have hvowel : cons s.b 1 = false := by
        apply cons_false_of_isVowel
        rw [hone] at he
        rw [show (1 : ℕ) = (1 : ℤ).toNat from rfl, he]
        decide
      have hzero := m_eq_zero_of_vowel (hj.trans hone) hvowel
      omega
    · exact .inl rfl
  · rw [if_neg he]
    exact .inl rfl

theorem finalL_follows (hs : Inside s) (hj : s.j ≤ s.k+1) : Follows s (finalL s) := by
  unfold finalL
  split_ifs with h
  · have hnonneg := hs.nonneg
    have hmeasure := two_mul_m_le (s := s) (by
      by_contra hneg
      have hnone : (s.j+1).toNat = 0 := by omega
      have hm := h.2.2
      unfold m at hm
      rw [hnone, mFrom] at hm
      omega)
    exact Follows.cut hs (by omega) (by omega) (fun _ => by omega)
  · exact Follows.refl hs

theorem step5_follows (hs : Inside s) : Follows s (step5 s) := by
  have hmoved : Inside { s with j := s.k } := ⟨hs.nonneg, hs.lt, hs.zero⟩
  have hstart : Follows s { s with j := s.k } := ⟨hmoved, rfl, le_rfl, id⟩
  unfold step5
  rcases finalE_cases (s := { s with j := s.k }) rfl hs.nonneg with h | ⟨h, hk⟩
  · rw [h]
    exact hstart.trans (finalL_follows hmoved (by dsimp only; omega))
  · dsimp only at hk
    have hcut : Follows { s with j := s.k } { s with j := s.k, k := s.k-1 } :=
      Follows.cut hmoved (by omega) (by dsimp only; omega) (fun _ => by omega)
    rw [h]
    exact hstart.trans (hcut.trans (finalL_follows hcut.inside (by dsimp only; omega)))

/-! ### The first step -/

theorem ends_last (h : ends suffix s = some t) :
    suffix.getLast? = some (s.b.getD s.k.toNat 0) := by
  unfold ends at h
  split_ifs at h with hlast
  exact not_not.mp hlast

/-- Plurals lose one or two letters. Only -ies is written over. -/
theorem plural_cases (front : Byte) (s : Stemmer) :
    plural front s = s ∨
    (∃ j, plural front s = { s with k := s.k-1, j := j } ∧ s.b.getD s.k.toNat 0 = 115) ∨
    (∃ j, plural front s = { s with k := s.k-2, j := j } ∧ 3 ≤ s.k ∧
      (s.b.drop (s.k-3).toNat).take 4 = bytes "sses") ∨
    (∃ u, plural front s = setto (bytes "i") u ∧ u = { s with j := s.k-3 } ∧
      (s.b.drop (s.k-2).toNat).take 3 = bytes "ies") := by
  unfold plural
  by_cases hlast : s.b.getD s.k.toNat 0 = 115
  · rw [if_pos hlast]
    cases hsses : ends (bytes "sses") s with
    | some t =>
      obtain ⟨rfl, hle, hsame⟩ := ends_some hsses
      have hlen : (bytes "sses").length = 4 := by decide
      rw [hlen] at hle hsame
      refine .inr (.inr (.inl ⟨_, rfl, by omega, ?_⟩))
      rwa [show s.k-((4 : ℕ) : ℤ)+1 = s.k-3 by push_cast; omega] at hsame
    | none =>
      cases hies : ends (bytes "ies") s with
      | some t =>
        obtain ⟨rfl, hle, hsame⟩ := ends_some hies
        have hlen : (bytes "ies").length = 3 := by decide
        rw [hlen] at hle hsame
        refine .inr (.inr (.inr ⟨_, rfl, by rw [hlen]; rfl, ?_⟩))
        rwa [show s.k-((3 : ℕ) : ℤ)+1 = s.k-2 by push_cast; omega] at hsame
      | none =>
        dsimp only
        split_ifs
        · exact .inr (.inl ⟨s.j, rfl, hlast⟩)
        · exact .inl rfl
  · rw [if_neg hlast]
    exact .inl rfl

theorem not_vowelinstem_of_doublec (hj : s.j = 1) (h : doublec s.b 1 = true) :
    vowelinstem s = false := by
  unfold doublec at h
  split_ifs at h with _ hsame
  have hone : cons s.b 1 = true := h
  have hplain : isVowel (s.b.getD 1 0) = false := by
    by_contra hvowel
    rw [cons_false_of_isVowel (Bool.not_eq_false _ ▸ hvowel)] at hone
    cases hone
  have hsame' : s.b.getD 1 0 = s.b.getD 0 0 := not_not.mp hsame
  have hzero : cons s.b 0 = true := by
    rw [cons, ← hsame', hplain, Bool.not_false]
  have hrest : (s.j+1).toNat = 2 := by omega
  unfold vowelinstem
  rw [hrest, List.any_eq_false]
  intro i hi
  rw [List.mem_range] at hi
  have hcases : i = 0 ∨ i = 1 := by omega
  rcases hcases with rfl | rfl
  · rw [hzero]
    decide
  · rw [hone]
    decide

/-- What takes the place of a short ending is one letter longer. -/
theorem setto_ends (hs : Inside s) (hroom : s.k+1 < s.b.length) {replacement : Bytes}
    (hend : ends suffix s = some t) (hlen : replacement.length = suffix.length+1)
    (hzero : 0 ∉ replacement) : Inside (setto replacement t) ∧
      (setto replacement t).b.length = s.b.length ∧ (setto replacement t).k = s.k+1 := by
  obtain ⟨rfl, hle, -⟩ := ends_some hend
  have hnonneg := hs.nonneg
  have hj : -1 ≤ ({ s with j := s.k-suffix.length } : Stemmer).j := by
    dsimp only
    omega
  have hfit : ({ s with j := s.k-suffix.length } : Stemmer).j+replacement.length <
      s.b.length := by
    dsimp only
    omega
  refine ⟨inside_setto hs.zero hj hfit hzero ?_, length_setto hj hfit, ?_⟩
  · dsimp only
    omega
  · unfold setto
    dsimp only
    omega

/-- The word that is left when -ed or -ing is gone, with one letter put back at most. -/
theorem restore_spec (hs : Inside s) (hj : s.j = s.k) (hroom : s.k+1 < s.b.length)
    (hvowel : vowelinstem s = true) : Inside (restore s) ∧
      (restore s).b.length = s.b.length ∧ (restore s).k ≤ s.k+1 ∧
      (1 ≤ s.k → 1 ≤ (restore s).k) := by
  have hnonneg := hs.nonneg
  have hput {t : Stemmer} {suffix replacement : Bytes} (hend : ends suffix s = some t)
      (hlen : replacement.length = suffix.length+1) (hzero : 0 ∉ replacement) :
      Inside (setto replacement t) ∧ (setto replacement t).b.length = s.b.length ∧
        (setto replacement t).k ≤ s.k+1 ∧ (1 ≤ s.k → 1 ≤ (setto replacement t).k) := by
    obtain ⟨hin, hlength, hk⟩ := setto_ends hs hroom hend hlen hzero
    exact ⟨hin, hlength, hk.le, fun _ => by omega⟩
  have hkeep : Inside s ∧ s.b.length = s.b.length ∧ s.k ≤ s.k+1 ∧ (1 ≤ s.k → 1 ≤ s.k) :=
    ⟨hs, rfl, by omega, id⟩
  unfold restore
  cases hat : ends (bytes "at") s with
  | some t => exact hput hat (by decide) (by decide)
  | none =>
    cases hbl : ends (bytes "bl") s with
    | some t => exact hput hbl (by decide) (by decide)
    | none =>
      cases hiz : ends (bytes "iz") s with
      | some t => exact hput hiz (by decide) (by decide)
      | none =>
        dsimp only
        by_cases hdouble : doublec s.b s.k = true
        · have hlong : 2 ≤ s.k := by
            by_contra hshort
            have hpos : ¬ s.k < 1 := by
              intro hlt
              unfold doublec at hdouble
              rw [if_pos hlt] at hdouble
              cases hdouble
            have hone : s.k = 1 := by omega
            rw [not_vowelinstem_of_doublec (hj.trans hone) (hone ▸ hdouble)] at hvowel
            cases hvowel
          rw [if_pos hdouble]
          split_ifs
          · exact hkeep
          · exact ⟨⟨by dsimp only; omega, by dsimp only; omega, hs.zero⟩, rfl,
              by dsimp only; omega, fun _ => by dsimp only; omega⟩
        · rw [if_neg hdouble]
          split_ifs
          · have hlen : (bytes "e").length = 1 := by decide
            have hfit : s.j+(bytes "e").length < s.b.length := by
              rw [hlen]
              push_cast
              omega
            have hk : (setto (bytes "e") s).k = s.k+1 := by
              unfold setto
              rw [hlen, hj]
              rfl
            refine ⟨inside_setto hs.zero (by omega) hfit (by decide) ?_,
              length_setto (by omega) hfit, hk.le, fun _ => by omega⟩
            omega
          · exact hkeep

/-- An ending -ed or -ing goes when a vowel stands in front of it. -/
theorem pastTense_cases (s : Stemmer) : pastTense s = s ∨
    (∃ j, pastTense s = { s with j := j }) ∨
    (∃ j, pastTense s = { s with k := s.k-1, j := j } ∧ 2 ≤ s.k) ∨
    (∃ suffix ∈ [bytes "ed", bytes "ing"], ends (bytes "eed") s = none ∧
      ends suffix s = some { s with j := s.k-suffix.length } ∧
      vowelinstem { s with j := s.k-suffix.length } = true ∧
      pastTense s = restore { s with k := s.k-suffix.length, j := s.k-suffix.length }) := by
  unfold pastTense
  cases heed : ends (bytes "eed") s with
  | some t =>
    obtain ⟨rfl, hle, -⟩ := ends_some heed
    have hlen : (bytes "eed").length = 3 := by decide
    rw [hlen] at hle ⊢
    dsimp only
    split_ifs
    · exact .inr (.inr (.inl ⟨_, rfl, by omega⟩))
    · exact .inr (.inl ⟨_, rfl⟩)
  | none =>
    dsimp only
    cases hend : firstEnd [bytes "ed", bytes "ing"] s with
    | none => exact .inl rfl
    | some t =>
      obtain ⟨suffix, hmem, hend'⟩ := firstEnd_some hend
      obtain ⟨rfl, -, -⟩ := ends_some hend'
      dsimp only
      split_ifs with hvowel
      · exact .inr (.inr (.inr ⟨suffix, hmem, rfl, hend', hvowel, rfl⟩))
      · exact .inr (.inl ⟨_, rfl⟩)

theorem nonneg_of_vowelinstem (h : vowelinstem s = true) : 0 ≤ s.j := by
  by_contra hneg
  have hnone : (s.j+1).toNat = 0 := by omega
  unfold vowelinstem at h
  rw [hnone] at h
  cases h

/-- A vowel and an ending that goes. -/
structure VowelPast (s : Stemmer) (suffix : Bytes) : Prop where
  known : suffix ∈ [bytes "ed", bytes "ing"]
  notEed : ends (bytes "eed") s = none
  ends : ends suffix s = some { s with j := s.k-suffix.length }
  whole : s.k = suffix.length
  vowel : isVowel (s.b.getD 0 0) = true

theorem length_past {suffix : Bytes} (h : suffix ∈ [bytes "ed", bytes "ing"]) :
    2 ≤ suffix.length := by
  revert h suffix
  decide

theorem pastTense_spec (hs : Inside s) : Inside (pastTense s) ∧
    (pastTense s).b.length = s.b.length ∧ (pastTense s).k ≤ s.k ∧
    (1 ≤ s.k → (pastTense s).k = 0 → ∃ suffix, VowelPast s suffix) := by
  have hnonneg := hs.nonneg
  have hlt := hs.lt
  rcases pastTense_cases s with h | ⟨j, h⟩ | ⟨j, h, hk⟩ | ⟨suffix, hmem, heed, hend, hvowel, h⟩
  · rw [h]
    exact ⟨hs, rfl, le_rfl, fun hpos hzero => by omega⟩
  · rw [h]
    exact ⟨⟨hs.nonneg, hs.lt, hs.zero⟩, rfl, le_rfl,
      fun hpos hzero => by dsimp only at hzero; omega⟩
  · rw [h]
    exact ⟨⟨by dsimp only; omega, by dsimp only; omega, hs.zero⟩, rfl, by dsimp only; omega,
      fun hpos hzero => by dsimp only at hzero; omega⟩
  · have hlen := length_past hmem
    have hj := nonneg_of_vowelinstem hvowel
    dsimp only at hj
    have hcut : Inside { s with k := s.k-suffix.length, j := s.k-suffix.length } :=
      ⟨hj, by dsimp only; omega, hs.zero⟩
    obtain ⟨hin, hlength, hle, hpos⟩ := restore_spec hcut rfl (by dsimp only; omega) hvowel
    rw [h]
    dsimp only at hlength hle hpos
    refine ⟨hin, hlength, by omega, fun _ hzero => ⟨suffix, hmem, heed, hend, ?_, ?_⟩⟩
    · omega
    · have hfirst : s.k-suffix.length = 0 := by omega
      unfold vowelinstem at hvowel
      dsimp only at hvowel
      rw [hfirst] at hvowel
      simpa [cons] using hvowel

/-! ### Words with a stem of one letter -/

def oneLetterStems : List Bytes :=
  ["aed", "ied", "oed", "ued", "aeds", "ieds", "oeds", "ueds", "aing", "eing", "iing", "oing",
    "uing", "aings", "eings", "iings", "oings", "uings", "ies"].map bytes

theorem mem_oneLetterStems {x : Byte} (hx : isVowel x = true) {suffix : Bytes}
    (hmem : suffix ∈ [bytes "ed", bytes "ing"]) (hne : x :: suffix ≠ bytes "eed") :
    x :: suffix ∈ oneLetterStems ∧ x :: (suffix ++ [115]) ∈ oneLetterStems := by
  have hvowels : x ∈ bytes "aeiou" := by simpa [isVowel] using hx
  have hall : ∀ suffix ∈ [bytes "ed", bytes "ing"], ∀ x ∈ bytes "aeiou",
      x :: suffix ≠ bytes "eed" →
      x :: suffix ∈ oneLetterStems ∧ x :: (suffix ++ [115]) ∈ oneLetterStems := by
    decide +kernel
  exact hall suffix hmem x hvowels hne

/-- The stemmer at the beginning of a word. -/
def atWord (word : Bytes) : Stemmer := ⟨word, word.length-1, word.length-1⟩

theorem inside_atWord {word : Bytes} (hne : word ≠ []) (hzero : 0 ∉ word) :
    Inside (atWord word) := by
  have hpos := List.length_pos_iff.mpr hne
  exact ⟨by unfold atWord; dsimp only; omega, by unfold atWord; dsimp only; omega, hzero⟩

theorem getD_setto_i {u : Stemmer} (hj : -1 ≤ u.j) (hfit : u.j+1 < u.b.length) :
    (setto (bytes "i") u).b.getD (setto (bytes "i") u).k.toNat 0 = 105 := by
  have hbytes : bytes "i" = [105] := by decide
  have hlen : (u.b.take (u.j+1).toNat).length = (u.j+1).toNat := by
    rw [List.length_take]
    omega
  unfold setto
  rw [hbytes]
  dsimp only
  rw [show (u.j+(([105] : Bytes).length : ℕ) : ℤ) = u.j+1 from rfl, List.getD_eq_getElem?_getD,
    List.append_assoc, List.getElem?_append_right hlen.le, hlen, Nat.sub_self]
  rfl

/-- The plurals of a word keep it inside, and a one-letter word is left of `ies` only. -/
theorem plural_spec (front : Byte) {word : Bytes} (hlen : 3 ≤ word.length) (hzero : 0 ∉ word) :
    Inside (plural front (atWord word)) ∧ (plural front (atWord word)).b.length = word.length ∧
    (plural front (atWord word)).k ≤ word.length-1 ∧
    ((plural front (atWord word)).k = 0 → word = bytes "ies") := by
  have hs : Inside (atWord word) := inside_atWord (by rintro rfl; simp at hlen) hzero
  have hk : (atWord word).k = word.length-1 := rfl
  have hb : (atWord word).b = word := rfl
  rcases plural_cases front (atWord word) with h | ⟨j, h, -⟩ | ⟨j, h, h3, -⟩ | ⟨u, h, hu, hies⟩
  · rw [h]
    exact ⟨hs, rfl, le_rfl, fun hz => by omega⟩
  · rw [h]
    exact ⟨⟨by dsimp only; omega, by dsimp only; rw [hb]; omega, hzero⟩, rfl,
      by dsimp only; omega, fun hz => by dsimp only at hz; omega⟩
  · rw [h]
    exact ⟨⟨by dsimp only; omega, by dsimp only; rw [hb]; omega, hzero⟩, rfl,
      by dsimp only; omega, fun hz => by dsimp only at hz; omega⟩
  · have hone : (bytes "i").length = 1 := by decide
    have huj : u.j = word.length-1-3 := by
      rw [hu]
      rfl
    have hub : u.b = word := by rw [hu, hb]
    have hfit : u.j+(bytes "i").length < u.b.length := by
      rw [hub, hone]
      push_cast
      omega
    have hkt : (setto (bytes "i") u).k = u.j+1 := by
      unfold setto
      rw [hone]
      rfl
    rw [h]
    refine ⟨inside_setto (hub ▸ hzero) (by omega) hfit (by decide) (by omega), ?_, by omega, ?_⟩
    · rw [length_setto (by omega) hfit, hub]
    · intro hz
      have hthree : word.length = 3 := by omega
      have hdrop : ((atWord word).k-2).toNat = 0 := by omega
      rw [hdrop, hb, List.drop_zero, List.take_of_length_le hthree.le] at hies
      exact hies

theorem step1ab_spec (front : Byte) {word : Bytes} (hlen : 3 ≤ word.length) (hzero : 0 ∉ word) :
    Inside (step1ab front (atWord word)) ∧
    (step1ab front (atWord word)).b.length = word.length ∧
    (step1ab front (atWord word)).k ≤ word.length-1 := by
  obtain ⟨hin, hlength, hle, -⟩ := plural_spec front hlen hzero
  obtain ⟨hin', hlength', hle', -⟩ := pastTense_spec hin
  exact ⟨hin', hlength'.trans hlength, hle'.trans hle⟩

theorem VowelPast.take_drop (h : VowelPast s suffix) :
    (s.b.drop 1).take suffix.length = suffix := by
  obtain ⟨-, -, hsame⟩ := ends_some h.ends
  have hwhole := h.whole
  rwa [show (s.k-suffix.length+1).toNat = 1 by omega] at hsame

/-- A word that is a vowel and an ending. -/
theorem VowelPast.mem {x : Byte} {rest : Bytes} (h : VowelPast (atWord (x :: rest)) suffix) :
    x :: rest ∈ oneLetterStems := by
  have hx : isVowel x = true := h.vowel
  have hsame : rest.take suffix.length = suffix := h.take_drop
  have hrest : rest.length = suffix.length := by
    have hwhole := h.whole
    simp only [atWord, List.length_cons] at hwhole
    omega
  have heq : rest = suffix := by
    rw [← hsame]
    exact (List.take_of_length_le hrest.le).symm
  rw [heq]
  refine (mem_oneLetterStems hx h.known ?_).1
  intro hword
  have heed := h.notEed
  rw [heq, hword] at heed
  revert heed
  decide

/-- A word that is a vowel, an ending and an s. -/
theorem VowelPast.mem_plural {x : Byte} {rest : Bytes} {j : ℤ}
    (h : VowelPast { atWord (x :: rest) with k := (atWord (x :: rest)).k-1, j := j } suffix)
    (hs : (x :: rest).getD (atWord (x :: rest)).k.toNat 0 = 115) :
    x :: rest ∈ oneLetterStems := by
  have hx : isVowel x = true := h.vowel
  have hfront : rest.take suffix.length = suffix := h.take_drop
  have hrest : rest.length = suffix.length+1 := by
    have hwhole := h.whole
    simp only [atWord, List.length_cons] at hwhole
    omega
  obtain ⟨c, hc⟩ : ∃ c, rest.drop suffix.length = [c] := by
    apply List.length_eq_one_iff.mp
    rw [List.length_drop]
    omega
  have heq : rest = suffix ++ [c] := by
    rw [← List.take_append_drop suffix.length rest, hfront, hc]
  have hletter : c = 115 := by
    have hend : (atWord (x :: rest)).k.toNat = suffix.length+1 := by
      unfold atWord
      dsimp only
      rw [List.length_cons, hrest]
      omega
    rw [hend, List.getD_cons_succ, heq, List.getD_eq_getElem?_getD,
      List.getElem?_append_right le_rfl, Nat.sub_self] at hs
    exact hs
  rw [heq, hletter]
  refine (mem_oneLetterStems hx h.known ?_).2
  intro hword
  have heed := h.notEed
  rw [heq, hletter, ← List.cons_append, hword] at heed
  have hfound : PorterStemmer.ends (bytes "eed") { atWord (bytes "eed" ++ [115]) with
      k := (atWord (bytes "eed" ++ [115])).k-1, j := j } =
        some ⟨bytes "eed" ++ [115], 2, -1⟩ := rfl
  cases hfound.symm.trans heed

theorem VowelPast.last (h : VowelPast s suffix) :
    s.b.getD s.k.toNat 0 = 100 ∨ s.b.getD s.k.toNat 0 = 103 := by
  have hlast := ends_last h.ends
  have hall : ∀ suffix ∈ [bytes "ed", bytes "ing"],
      suffix.getLast? = some 100 ∨ suffix.getLast? = some 103 := by decide
  rcases hall suffix h.known with hd | hg
  · rw [hd] at hlast
    exact .inl (Option.some.inj hlast).symm
  · rw [hg] at hlast
    exact .inr (Option.some.inj hlast).symm

theorem mem_of_step1ab_zero (front : Byte) {word : Bytes} (hlen : 3 ≤ word.length)
    (hzero : 0 ∉ word) (h : (step1ab front (atWord word)).k = 0) : word ∈ oneLetterStems := by
  obtain ⟨hin, -, -, hies⟩ := plural_spec front hlen hzero
  by_cases hk : (plural front (atWord word)).k = 0
  · rw [hies hk]
    decide
  · have hnonneg := hin.nonneg
    obtain ⟨suffix, hpast⟩ := (pastTense_spec hin).2.2.2 (by omega) h
    obtain ⟨x, rest, rfl⟩ := List.exists_cons_of_ne_nil
      (show word ≠ [] by rintro rfl; simp at hlen)
    have hlast := hpast.last
    rcases plural_cases front (atWord (x :: rest)) with h | ⟨j, h, hs⟩ | ⟨j, h, h3, hsses⟩ |
      ⟨u, h, hu, -⟩
    · rw [h] at hpast
      exact hpast.mem
    · rw [h] at hpast
      exact hpast.mem_plural hs
    · -- the word ends with -ss now
      rw [h] at hlast
      dsimp only at hlast
      have hsecond : ((((atWord (x :: rest)).b.drop ((atWord (x :: rest)).k-3).toNat).take
          4).getD 1 0) = 115 := by
        rw [hsses]
        decide
      rw [List.getD_eq_getElem?_getD, List.getElem?_take_of_lt (by decide), List.getElem?_drop,
        ← List.getD_eq_getElem?_getD,
        show ((atWord (x :: rest)).k-3).toNat+1 = ((atWord (x :: rest)).k-2).toNat by omega]
        at hsecond
      rw [hsecond] at hlast
      exact absurd hlast (by decide)
    · -- the word ends with -i now
      have hone : (bytes "i").length = 1 := by decide
      have hk' : (atWord (x :: rest)).k = (x :: rest).length-1 := rfl
      rw [h, getD_setto_i] at hlast
      · exact absurd hlast (by decide)
      · rw [hu]
        dsimp only
        omega
      · rw [hu]
        dsimp only
        unfold atWord
        dsimp only
        omega

/-! ### The stem -/

theorem step1ab_front (front : Byte) (hk : 1 ≤ s.k) : step1ab front s = step1ab 0 s := by
  have hletter : letter front s.b (s.k-1) = letter 0 s.b (s.k-1) := by
    unfold letter
    rw [if_neg (by omega), if_neg (by omega)]
  unfold step1ab plural
  rw [hletter]

theorem step1ab_oneLetter (front : Byte) {word : Bytes} (h : word ∈ oneLetterStems) :
    (step1ab front (atWord word)).k = 0 := by
  have hall : ∀ w ∈ oneLetterStems, 1 ≤ (atWord w).k ∧ (step1ab 0 (atWord w)).k = 0 := by
    decide +kernel
  obtain ⟨hk, hzero⟩ := hall word h
  rw [step1ab_front front hk]
  exact hzero

/-- The steps behind the first. -/
def laterSteps (front : Byte) (s : Stemmer) : Stemmer :=
  step5 (step4 front (step3 (step2 front (step1c s))))

theorem laterSteps_follows (front : Byte) (hs : Inside s) : Follows s (laterSteps front s) := by
  have h1c := step1c_follows hs
  have h2 := h1c.trans (step2_follows front h1c.inside)
  have h3 := h2.trans (step3_follows h2.inside)
  have h4 := h3.trans (step4_follows front h3.inside)
  exact h4.trans (step5_follows h4.inside)

theorem stem_short (front : Byte) {word : Bytes} (h : word.length ≤ 2) :
    stem front word (word.length-1) = (word, (word.length : ℤ)-1) := by
  unfold stem
  rw [if_pos (by omega)]

theorem stem_long (front : Byte) {word : Bytes} (h : 3 ≤ word.length) :
    stem front word (word.length-1) = ((laterSteps front (step1ab front (atWord word))).b,
      (laterSteps front (step1ab front (atWord word))).k) := by
  unfold stem
  rw [if_neg (by omega)]
  rfl

/-- The stem of a word is inside the word's bytes, and none of them has become a NUL. -/
theorem stem_inside (front : Byte) {word : Bytes} (hne : word ≠ []) (hzero : 0 ∉ word) :
    (stem front word (word.length-1)).1.length = word.length ∧
    0 ∉ (stem front word (word.length-1)).1 ∧ 0 ≤ (stem front word (word.length-1)).2 ∧
    (stem front word (word.length-1)).2 < word.length := by
  have hpos := List.length_pos_iff.mpr hne
  by_cases hlen : word.length ≤ 2
  · rw [stem_short front hlen]
    exact ⟨rfl, hzero, by dsimp only; omega, by dsimp only; omega⟩
  · obtain ⟨hin, hlength, -⟩ := step1ab_spec front (by omega) hzero
    have hfollows := laterSteps_follows front hin
    have hlt := hfollows.inside.lt
    rw [hfollows.length, hlength] at hlt
    rw [stem_long front (by omega)]
    dsimp only
    exact ⟨hfollows.length.trans hlength, hfollows.inside.zero, hfollows.inside.nonneg, hlt⟩

/-- A stem that ends at the front is that of a single letter, or of one of a few words. -/
theorem stem_end_eq_zero_iff (front : Byte) {word : Bytes} (hne : word ≠ []) (hzero : 0 ∉ word) :
    (stem front word (word.length-1)).2 = 0 ↔ word.length = 1 ∨ word ∈ oneLetterStems := by
  have hpos := List.length_pos_iff.mpr hne
  have hlong : ∀ w ∈ oneLetterStems, 3 ≤ w.length := by decide
  by_cases hlen : word.length ≤ 2
  · rw [stem_short front hlen]
    constructor
    · intro h
      exact .inl (by dsimp only at h; omega)
    · intro h
      rcases h with h | h
      · dsimp only
        omega
      · have := hlong word h
        omega
  · have hlen3 : 3 ≤ word.length := by omega
    obtain ⟨hin, -, -⟩ := step1ab_spec front hlen3 hzero
    have hnonneg := hin.nonneg
    have hfollows := laterSteps_follows front hin
    rw [stem_long front hlen3]
    dsimp only
    constructor
    · intro h
      refine .inr (mem_of_step1ab_zero front hlen3 hzero ?_)
      by_contra hk
      have hpos' := hfollows.pos (by omega)
      omega
    · intro h
      have hk := step1ab_oneLetter front (h.resolve_left (by omega))
      have hle := hfollows.le
      have hnonneg' := hfollows.inside.nonneg
      omega

/-! ### The byte in front of the word -/

/-- A suffix longer than the word is not found. -/
theorem ends_of_short (hk : s.k+1 < suffix.length) : ends suffix s = none := by
  unfold ends
  rw [if_pos hk]
  split_ifs <;> rfl

theorem firstRule_of_short {rules : List (Bytes × Bytes)}
    (hrules : ∀ rule ∈ rules, s.k+1 < rule.1.length) : firstRule rules s = s := by
  induction rules with
  | nil => rfl
  | cons rule rules ih =>
    obtain ⟨suffix, replacement⟩ := rule
    unfold firstRule
    rw [ends_of_short (hrules _ List.mem_cons_self)]
    exact ih fun rule hmem => hrules rule (List.mem_cons_of_mem _ hmem)

theorem letter_front (front : Byte) (b : Bytes) {i : ℤ} (hi : 0 ≤ i) :
    letter front b i = letter 0 b i := by
  unfold letter
  rw [if_neg (not_lt.mpr hi), if_neg (not_lt.mpr hi)]

theorem step2_front (front : Byte) (hs : Inside s) : step2 front s = step2 0 s := by
  unfold step2
  by_cases hk : s.k = 0
  · have hlong (c : Byte) : ∀ rule ∈ step2Rules c, s.k+1 < rule.1.length := by
      have hlen : ∀ rule ∈ step2Rules c, 2 ≤ rule.1.length := by
        unfold step2Rules
        split_ifs <;> decide
      intro rule hmem
      have := hlen rule hmem
      omega
    rw [firstRule_of_short (hlong _), firstRule_of_short (hlong _)]
  · have hnonneg := hs.nonneg
    rw [letter_front front s.b (by omega)]

/-- A word of at most three letters has no measure above one in front of a suffix. -/
theorem step4_short (front : Byte) (hk : s.k ≤ 2) :
    (step4 front s).b = s.b ∧ (step4 front s).k = s.k := by
  unfold step4
  cases hend : step4Suffix front s with
  | none => exact ⟨rfl, rfl⟩
  | some t =>
    obtain ⟨n, rfl, hle⟩ := step4Suffix_some hend
    have hmeasure := two_mul_m_le (s := { s with j := s.k-n }) (by dsimp only; omega)
    dsimp only at hmeasure ⊢
    rw [if_neg (by omega)]
    exact ⟨rfl, rfl⟩

/-- For the word `ion` the byte in front is compared with s and t, but no vowel stands in front of
the suffix then. -/
theorem step4_front (front : Byte) (s : Stemmer) :
    (step4 front s).b = (step4 0 s).b ∧ (step4 front s).k = (step4 0 s).k := by
  by_cases hk : s.k ≤ 2
  · have hshort := step4_short front hk
    have hshort' := step4_short 0 hk
    exact ⟨hshort.1.trans hshort'.1.symm, hshort.2.trans hshort'.2.symm⟩
  · have hsuffix : step4Suffix front s = step4Suffix 0 s := by
      unfold step4Suffix
      rw [letter_front front s.b (show 0 ≤ s.k-1 by omega)]
      dsimp only
      cases hion : if letter 0 s.b (s.k-1) = 111 then ends (bytes "ion") s else none with
      | none => rfl
      | some t =>
        have ht : 0 ≤ t.j := by
          split_ifs at hion
          obtain ⟨rfl, -, -⟩ := ends_some hion
          have hlen : (bytes "ion").length = 3 := by decide
          dsimp only
          omega
        dsimp only
        rw [letter_front front t.b ht]
    unfold step4
    rw [hsuffix]
    exact ⟨rfl, rfl⟩

theorem step5_congr (hb : s.b = t.b) (hk : s.k = t.k) : step5 s = step5 t := by
  unfold step5
  rw [hb, hk]

theorem laterSteps_front (front : Byte) (hs : Inside s) :
    laterSteps front s = laterSteps 0 s := by
  have h1c := step1c_follows hs
  obtain ⟨hb, hk⟩ := step4_front front (step3 (step2 0 (step1c s)))
  unfold laterSteps
  rw [step2_front front h1c.inside]
  exact step5_congr hb hk

/-- The stem does not depend on what stands in front of the word. -/
theorem stem_front (front : Byte) {word : Bytes} (hzero : 0 ∉ word) :
    stem front word (word.length-1) = stem 0 word (word.length-1) := by
  by_cases hlen : word.length ≤ 2
  · rw [stem_short front hlen, stem_short 0 hlen]
  · have hlen3 : 3 ≤ word.length := by omega
    have hk : 1 ≤ (atWord word).k := by
      unfold atWord
      dsimp only
      omega
    rw [stem_long front hlen3, stem_long 0 hlen3, step1ab_front front hk,
      laterSteps_front front (step1ab_spec 0 hlen3 hzero).1]

end PorterStemmer
end MsgCourier
