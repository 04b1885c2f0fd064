import MsgCourier.XmlAttributes
import MsgCourier.XmlComments

/-! What the scanner reads of a written tag: its element, with the name and the attributes. -/
namespace MsgCourier
open ListSearch CText

/-! ### The name of a tag -/

theorem countP_keptChars (qoute : Bool) (t : Bytes) :
    (keptChars qoute t).countP isQuote = t.countP isQuote := by
  have hstripped (q : Bool) (c : Byte) (h : isStripped q c = true) : isQuote c = false := by
    by_contra hquote
    have hcases : c = 34 ∨ c = 39 := by
      unfold isQuote at hquote
      simpa only [Bool.not_eq_false, Bool.or_eq_true, decide_eq_true_eq] using hquote
    rcases hcases with rfl | rfl
    · cases q <;> exact absurd h (by decide)
    · cases q <;> exact absurd h (by decide)
  induction t generalizing qoute with
  | nil => rfl
  | cons c t ih =>
    unfold keptChars
    dsimp only
    generalize (if isQuote c then ! qoute else qoute) = q
    by_cases hc : isStripped q c = true
    · rw [if_pos hc, ih, List.countP_cons_of_neg (by rw [hstripped q c hc]; exact Bool.noConfusion)]
    · rw [if_neg hc, List.countP_cons, List.countP_cons, ih]

/-- The last byte of a kind. -/
theorem exists_last {p : Byte → Bool} {l : Bytes} (h : ∃ c ∈ l, p c = true) :
    ∃ l₁ d l₂, l = l₁ ++ d :: l₂ ∧ p d = true ∧ ∀ c ∈ l₂, p c = false := by
  induction l with
  | nil =>
    obtain ⟨c, hc, -⟩ := h
    cases hc
  | cons b l ih =>
    by_cases hlater : ∃ c ∈ l, p c = true
    · obtain ⟨l₁, d, l₂, rfl, hd, hl₂⟩ := ih hlater
      exact ⟨b :: l₁, d, l₂, rfl, hd, hl₂⟩
    · obtain ⟨c, hc, hpc⟩ := h
      have hb : c = b := (List.mem_cons.mp hc).resolve_right fun hc => hlater ⟨c, hc, hpc⟩
      refine ⟨[], b, l, rfl, hb ▸ hpc, fun c hc => ?_⟩
      rw [← Bool.not_eq_true]
      exact fun hpc => hlater ⟨c, hc, hpc⟩

/-- In front of the first sign a text stays as it is, unless that is its only one. -/
theorem unquoted_front {u v : Bytes} (hne : u ≠ []) (hu : ∀ c ∈ u, isQuote c = false)
    (hcount : v.countP isQuote ≠ 1) : ∃ w, unquoted (u ++ v) = u ++ w := by
  have hpos : ∀ c ∈ u, (! isQuote c) = true := fun c hc => by rw [hu c hc]; rfl
  have hdrop : (u ++ v).dropWhile (fun c => ! isQuote c) = v.dropWhile fun c => ! isQuote c :=
    List.dropWhile_append_of_pos hpos
  have htake : (u ++ v).takeWhile (fun c => ! isQuote c) =
      u ++ v.takeWhile fun c => ! isQuote c := List.takeWhile_append_of_pos hpos
  have hsplit : v.takeWhile (fun c => ! isQuote c) ++ v.dropWhile (fun c => ! isQuote c) = v :=
    List.takeWhile_append_dropWhile
  have hfront : (v.takeWhile fun c => ! isQuote c).countP isQuote = 0 := by
    rw [List.countP_eq_zero]
    intro c hc
    have hnot := List.mem_takeWhile_imp hc
    simpa using hnot
  unfold unquoted
  rw [hdrop, htake]
  generalize v.takeWhile (fun c => ! isQuote c) = x at hsplit hfront ⊢
  cases hy : v.dropWhile (fun c => ! isQuote c) with
  | nil => exact ⟨v, rfl⟩
  | cons q y =>
    rw [hy] at hsplit
    have hq : isQuote q = true := by
      have hnot := List.head?_dropWhile_not (fun c => ! isQuote c) v
      rw [hy] at hnot
      simpa using hnot
    -- another sign stands behind the first one
    have hmore : ∃ c ∈ y, isQuote c = true := by
      by_contra hnone
      have hzero : y.countP isQuote = 0 :=
        List.countP_eq_zero.mpr fun c hc hquote => hnone ⟨c, hc, hquote⟩
      rw [← hsplit, List.countP_append, hfront, List.countP_cons_of_pos hq, hzero] at hcount
      exact hcount rfl
    obtain ⟨y₁, d, y₂, rfl, hd, hy₂⟩ := exists_last hmore
    obtain ⟨c, u, rfl⟩ := List.exists_cons_of_ne_nil hne
    have hrest : (c :: u ++ x ++ (y₁ ++ d :: y₂)).tail = (u ++ x ++ y₁) ++ d :: y₂ := by simp
    have hlen : (c :: u).length ≤ (u ++ x ++ y₁ ++ [d]).length := by
      simp only [List.length_append, List.length_cons, List.length_nil]
      omega
    dsimp only
    rw [hrest, rdropWhile_append_cons (by rw [hd]; rfl) _ fun c hc => by rw [hy₂ c hc]; rfl,
      List.append_assoc (c :: u), List.take_append, List.take_of_length_le hlen]
    exact ⟨_, rfl⟩

/-- A name as it stands in a tag, with the slash of a close tag. -/
def IsTagName (u : Bytes) : Prop := u ≠ [] ∧ ∀ c ∈ u, IsPlain c ∧ c ≠ 32

theorem IsName.isTagName {u : Bytes} (h : IsName u) : IsTagName u :=
  ⟨h.1, fun c hc => ⟨isPlain_of_nameChar (h.2 c hc), nameChar_ne (h.2 c hc) (by decide)⟩⟩

theorem isPlain_slash : IsPlain 47 := ⟨by decide, fun q => by cases q <;> decide⟩

theorem IsTagName.slash_cons {u : Bytes} (h : IsTagName u) : IsTagName (47 :: u) := by
  refine ⟨List.cons_ne_nil _ _, fun c hc => ?_⟩
  rcases List.mem_cons.mp hc with rfl | hc
  · exact ⟨isPlain_slash, by decide⟩
  · exact h.2 c hc

theorem IsTagName.append_slash {u : Bytes} (h : IsTagName u) : IsTagName (u ++ [47]) := by
  refine ⟨List.append_ne_nil_of_left_ne_nil h.1 _, fun c hc => ?_⟩
  rcases List.mem_append.mp hc with hc | hc
  · exact h.2 c hc
  · rw [List.mem_singleton.mp hc]
    exact ⟨isPlain_slash, by decide⟩

theorem rdropWhile_append_of_none {p : Byte → Bool} {u : Bytes} (hu : ∀ c ∈ u, p c = false)
    (w : Bytes) : (u ++ w).rdropWhile p = u ++ w.rdropWhile p := by
  induction w using List.reverseRecOn with
  | nil =>
    rw [List.append_nil, List.rdropWhile_nil, List.append_nil, List.rdropWhile_eq_self_iff]
    intro hne
    rw [hu _ (List.getLast_mem hne)]
    exact Bool.noConfusion
  | append_singleton w c ih =>
    rw [← List.append_assoc]
    by_cases hc : p c = true
    · rw [List.rdropWhile_concat_pos _ _ _ hc, List.rdropWhile_concat_pos _ _ _ hc, ih]
    · rw [List.rdropWhile_concat_neg _ _ _ hc, List.rdropWhile_concat_neg _ _ _ hc,
        List.append_assoc]

theorem unquoted_none {u : Bytes} (hu : ∀ c ∈ u, isQuote c = false) : unquoted u = u := by
  have hdrop : u.dropWhile (fun c => ! isQuote c) = [] :=
    List.dropWhile_eq_nil_iff.mpr fun c hc => by rw [hu c hc]; rfl
  unfold unquoted
  rw [hdrop]

namespace IsTagName

variable {u : Bytes} (hu : IsTagName u)
include hu

theorem noQuote : ∀ c ∈ u, isQuote c = false := fun c hc => (hu.2 c hc).1.1

theorem noBlank : ∀ c ∈ u, isBlank c = false := fun c hc => decide_eq_false (hu.2 c hc).2

/-- No blank stands in front of the name, and those behind what follows it are taken off. -/
theorem trimmed_append (w : Bytes) :
    trimmedEnd isBlank ((u ++ w).dropWhile isBlank) = u ++ w.rdropWhile isBlank := by
  obtain ⟨c, v, rfl⟩ := List.exists_cons_of_ne_nil hu.1
  have hc := hu.noBlank c List.mem_cons_self
  have hv : ∀ b ∈ v, isBlank b = false := fun b hb => hu.noBlank b (List.mem_cons_of_mem c hb)
  rw [List.cons_append, List.dropWhile_cons_of_neg (by rw [hc]; exact Bool.noConfusion)]
  unfold trimmedEnd
  dsimp only
  rw [rdropWhile_append_of_none hv]
  rfl

theorem keptChars_tag (w : Bytes) :
    keptChars false (60 :: (u ++ w)) = u ++ keptChars false w :=
  keptChars_append (fun c hc => (hu.2 c hc).1) false w

theorem cleaned_bracket : cleaned (60 :: (u ++ [62])) = u := by
  have hend : (keptChars false [62]).rdropWhile isBlank = [] := by decide +kernel
  unfold cleaned
  rw [hu.keptChars_tag, hu.trimmed_append, hend, List.append_nil, unquoted_none hu.noQuote]

/-- Behind a name the attributes do not matter to it. -/
theorem takeWhile_cleaned {v : Bytes} (hcount : v.countP isQuote ≠ 1) :
    (cleaned (60 :: (u ++ 32 :: v))).takeWhile (· ≠ 32) = u := by
  have hspace : 32 ∉ u := fun h => (hu.2 32 h).2 rfl
  have hkept : keptChars false (32 :: v) = 32 :: keptChars false v := rfl
  unfold cleaned
  rw [hu.keptChars_tag, hu.trimmed_append, hkept]
  have hsplit : (32 :: keptChars false v).rdropWhile isBlank ++
      (32 :: keptChars false v).rtakeWhile isBlank = 32 :: keptChars false v :=
    List.rdropWhile_append_rtakeWhile
  have hblank : ((32 :: keptChars false v).rtakeWhile isBlank).countP isQuote = 0 := by
    rw [List.countP_eq_zero]
    intro c hc hquote
    have hspace : isBlank c = true := List.mem_rtakeWhile_imp hc
    rw [of_decide_eq_true hspace] at hquote
    exact absurd hquote (by decide)
  cases hr : (32 :: keptChars false v).rdropWhile isBlank with
  | nil =>
    rw [List.append_nil, unquoted_none hu.noQuote, List.takeWhile_eq_self_iff]
    exact fun c hc => decide_eq_true (hu.2 c hc).2
  | cons c r =>
    rw [hr, List.cons_append] at hsplit
    obtain ⟨rfl, hrest⟩ := List.cons.inj hsplit
    have hcount' : r.countP isQuote ≠ 1 := by
      have htotal := countP_keptChars false v
      rw [← hrest, List.countP_append, hblank, Nat.add_zero] at htotal
      rwa [htotal]
    have hfront : ∀ c ∈ u ++ [32], isQuote c = false := by
      intro c hc
      rcases List.mem_append.mp hc with hc | hc
      · exact hu.noQuote c hc
      · rw [List.mem_singleton.mp hc]
        rfl
    obtain ⟨w, hw⟩ := unquoted_front (List.append_ne_nil_of_left_ne_nil hu.1 _) hfront hcount'
    rw [List.append_assoc, List.singleton_append] at hw
    rw [hw, List.append_assoc, List.singleton_append, takeWhile_ne hspace]

end IsTagName

/-! ### An attribute as it stands in a tag -/

/-- The value stands between double quotes, with whatever entities it has. -/
structure QuotedAttribute where
  separator : Byte
  key : Bytes
  raw : Bytes
  separates : separator = 32 ∨ separator = 9
  named : IsName key
  quoted : ∀ c ∈ raw, c ≠ 0 ∧ c ≠ 34 ∧ c ≠ 60 ∧ c ≠ 62

/-- The signs passed over turn the quotes. -/
theorem keptChars_split (qoute : Bool) (u : Bytes) : ∃ q, ∀ w,
    keptChars qoute (u ++ w) = keptChars qoute u ++ keptChars q w := by
  induction u generalizing qoute with
  | nil => exact ⟨qoute, fun w => rfl⟩
  | cons c u ih =>
    obtain ⟨q, hq⟩ := ih (if isQuote c then ! qoute else qoute)
    refine ⟨q, fun w => ?_⟩
    rw [List.cons_append, keptChars, keptChars, hq]
    generalize (if isQuote c then ! qoute else qoute) = turned
    by_cases hc : isStripped turned c = true
    · rw [if_pos hc, if_pos hc]
    · rw [if_neg hc, if_neg hc, List.cons_append]

namespace QuotedAttribute

variable (a : QuotedAttribute)

def value : Bytes := decoded a.raw

def body : Bytes := a.key ++ 61 :: 34 :: (a.raw ++ [34])

def text : Bytes := a.separator :: a.body

/-- Nothing of the value is cut off or left out: a space in front, white space other than a space,
question marks behind an odd number of apostrophes. -/
structure Kept : Prop where
  space : a.raw.head? ≠ some 32
  plain : ∀ c ∈ a.raw, c ≠ 9 ∧ c ≠ 10 ∧ c ≠ 13
  question : ∀ u w, a.raw = u ++ 63 :: w → Even (u.count 39)

variable {a}

/-- Between the quotes only question marks may be left out. -/
theorem keptChars_raw {qoute : Bool} {v : Bytes} (hv : ∀ c ∈ v, c ≠ 0 ∧ c ≠ 34 ∧ c ≠ 60 ∧ c ≠ 62)
    (hplain : ∀ c ∈ v, c ≠ 9 ∧ c ≠ 10 ∧ c ≠ 13) : keptChars qoute v = keptValue true qoute v := by
  induction v generalizing qoute with
  | nil => rfl
  | cons c v ih =>
    have hrest (q : Bool) : keptChars q v = keptValue true q v :=
      ih (fun b hb => hv b (List.mem_cons_of_mem c hb))
        fun b hb => hplain b (List.mem_cons_of_mem c hb)
    obtain ⟨-, h34, h60, h62⟩ := hv c List.mem_cons_self
    obtain ⟨h9, h10, h13⟩ := hplain c List.mem_cons_self
    have hquote : (if isQuote c then ! qoute else qoute) =
        if true = true ∧ c = 39 then ! qoute else qoute := by
      unfold isQuote
      rw [decide_eq_false h34, Bool.false_or]
      by_cases hc : c = 39
      · rw [if_pos (decide_eq_true hc), if_pos ⟨rfl, hc⟩]
      · rw [if_neg (by simpa using hc), if_neg fun h => hc h.2]
    unfold keptChars keptValue
    dsimp only
    rw [hquote]
    generalize (if true = true ∧ c = 39 then ! qoute else qoute) = q
    have hstripped : isStripped q c = true ↔ q = false ∧ c = 63 := by
      unfold isStripped
      rw [decide_eq_false h60, decide_eq_false h62, decide_eq_false h13, decide_eq_false h10,
        decide_eq_false h9]
      simp
    rw [hrest]
    by_cases hout : q = false ∧ c = 63
    · rw [if_pos hout, if_pos (hstripped.mpr hout)]
    · rw [if_neg hout, if_neg fun h => hout (hstripped.mp h)]

theorem Kept.whole (ha : a.Kept) : keptChars true a.raw = a.raw := by
  rw [keptChars_raw a.quoted ha.plain, keptValue_eq_iff]
  intro u w hraw
  rw [quoteAfter_iff]
  exact fun _ => ha.question u w hraw

theorem cleaned_text (a : QuotedAttribute) {w : Bytes} (hw : Follows w) :
    cleaned (a.text ++ w) = a.key ++ 61 :: keptChars true a.raw := by
  obtain ⟨q, hq⟩ := keptChars_split true a.raw
  obtain ⟨k, k', hk, hback, hquote⟩ := hw.kept q
  have hname := a.named.isTagName
  have hkept : keptChars false (a.key ++ 61 :: 34 :: (a.raw ++ 34 :: w)) =
      a.key ++ 61 :: 34 :: (keptChars true a.raw ++ 34 :: k) := by
    rw [keptChars_append fun c hc => (hname.2 c hc).1, ← hk, ← hq]
    rfl
  -- a separator in front of the name is taken away, whichever it is
  have hfront : (keptChars false (a.text ++ w)).dropWhile isBlank =
      (keptChars false (a.key ++ 61 :: 34 :: (a.raw ++ 34 :: w))).dropWhile isBlank := by
    have htext : a.text ++ w = a.separator :: (a.key ++ 61 :: 34 :: (a.raw ++ 34 :: w)) := by
      unfold text body
      simp
    rw [htext]
    rcases a.separates with h | h
    · rw [h]
      rfl
    · rw [h]
      rfl
  have hsign : ∀ c ∈ a.key ++ [61], isQuote c = false := by
    intro c hc
    rcases List.mem_append.mp hc with hc | hc
    · exact hname.noQuote c hc
    · rw [List.mem_singleton.mp hc]
      rfl
  have hend := hback (61 :: 34 :: keptChars true a.raw)
  have hquoted := unquoted_quoted (List.append_ne_nil_of_left_ne_nil hname.1 [61]) hsign hquote
    (keptChars true a.raw)
  simp only [List.append_assoc, List.cons_append, List.nil_append] at hend hquoted
  unfold cleaned
  rw [hfront, hkept, hname.trimmed_append, hend, hquoted]

end QuotedAttribute

/-! ### The written tag -/

/-- What an empty element ends in, as an element. -/
def emptyEnd : XmlElement := { xmlTagName := some (bytes "/>") }

/-- Spaces and tabs. -/
def IsGap (w : Bytes) : Prop := ∀ c ∈ w, c = 32 ∨ c = 9

/-- The tag of an element. Each attribute stands behind a gap and a separator, and another gap may
stand in front of the end. -/
structure SpacedTag where
  name : Bytes
  attributes : List (Bytes × QuotedAttribute)
  behind : Bytes := []
  named : IsName name
  gaps : ∀ a ∈ attributes, IsGap a.1
  gap_behind : IsGap behind

namespace SpacedTag

variable (g : SpacedTag)

/-- What stands between the name and the end. -/
def inside : Bytes := g.attributes.flatMap (fun a => a.1 ++ a.2.text) ++ g.behind

def openText : Bytes := 60 :: (g.name ++ (g.inside ++ [62]))

def emptyText : Bytes := 60 :: (g.name ++ (g.inside ++ [47, 62]))

def closeText : Bytes := 60 :: 47 :: (g.name ++ [62])

/-- The element of the tag. -/
def element : XmlElement :=
  { xmlTagName := some g.name, xmlAttributes := g.attributes.map fun a => (a.2.key, a.2.value) }

/-- The element of the close tag. -/
def closeElement : XmlElement := { xmlTagName := some (47 :: g.name) }

/-- No tab stands behind the name, and every value comes back. -/
structure Tidy : Prop where
  space : g.inside.head? ≠ some 9
  kept : ∀ a ∈ g.attributes, a.2.Kept

end SpacedTag

namespace SpacedTag

variable {g : SpacedTag}

/-- The attributes begin with a space. -/
theorem Tidy.inside_cases (hg : g.Tidy) : g.inside = [] ∨ ∃ v, g.inside = 32 :: v := by
  have hhead : ∀ c, g.inside.head? = some c → c = 32 ∨ c = 9 := by
    intro c hc
    unfold inside at hc
    cases hattributes : g.attributes with
    | nil =>
      rw [hattributes, List.flatMap_nil, List.nil_append] at hc
      exact g.gap_behind c (List.mem_of_mem_head? hc)
    | cons a as =>
      rw [hattributes, List.flatMap_cons, List.append_assoc, List.append_assoc] at hc
      cases hgap : a.1 with
      | nil =>
        rw [hgap] at hc
        rw [← Option.some.inj hc]
        exact a.2.separates
      | cons d w =>
        have hin : a ∈ g.attributes := hattributes ▸ List.mem_cons_self
        rw [hgap] at hc
        rw [← Option.some.inj hc]
        exact g.gaps a hin d (hgap ▸ List.mem_cons_self)
  cases hinside : g.inside with
  | nil => exact .inl rfl
  | cons c v =>
    have hc := hhead c (by rw [hinside]; rfl)
    have hspace : c = 32 := hc.resolve_right fun htab => hg.space (by rw [hinside, htab]; rfl)
    exact .inr ⟨v, by rw [hspace]⟩

theorem countP_gap {w : Bytes} (hw : IsGap w) : w.countP isQuote = 0 := by
  rw [List.countP_eq_zero]
  intro c hc
  rcases hw c hc with rfl | rfl <;> decide

theorem two_le_countP (a : QuotedAttribute) : 2 ≤ a.text.countP isQuote := by
  have htext : a.text = (a.separator :: a.key ++ [61]) ++ (34 :: (a.raw ++ [34])) := by
    unfold QuotedAttribute.text QuotedAttribute.body
    simp
  have hquote : isQuote 34 = true := by decide
  have hlast : (a.raw ++ [34]).countP isQuote = a.raw.countP isQuote+1 := by
    rw [List.countP_append, List.countP_cons_of_pos hquote, List.countP_nil]
  rw [htext, List.countP_append, List.countP_cons_of_pos hquote, hlast]
  omega

/-- Quotes come in pairs. -/
theorem countP_inside (g : SpacedTag) : g.inside.countP isQuote ≠ 1 := by
  unfold inside
  rw [List.countP_append, countP_gap g.gap_behind]
  cases g.attributes with
  | nil => exact Nat.zero_ne_one
  | cons a as =>
    have htwo := two_le_countP a.2
    rw [List.flatMap_cons, List.countP_append, List.countP_append]
    omega

/-- No slash stands in front of the end. -/
theorem last_inside (g : SpacedTag) : ∃ u c, 60 :: (g.name ++ g.inside) = u ++ [c] ∧ c ≠ 47 := by
  unfold inside
  rcases g.behind.eq_nil_or_concat with hbehind | ⟨w, c, hbehind⟩
  · rw [hbehind, List.append_nil]
    rcases g.attributes.eq_nil_or_concat with hattributes | ⟨as, a, hattributes⟩
    · rw [hattributes, List.flatMap_nil, List.append_nil]
      rcases g.name.eq_nil_or_concat with hname | ⟨w, c, hname⟩
      · exact absurd hname g.named.1
      · rw [List.concat_eq_append] at hname
        have hc : isNameChar c := g.named.2 c (hname ▸ List.mem_concat_self)
        exact ⟨60 :: w, c, by rw [hname]; simp, nameChar_ne hc (by decide)⟩
    · refine ⟨60 :: (g.name ++ (as.flatMap (fun a => a.1 ++ a.2.text) ++
        (a.1 ++ a.2.separator :: (a.2.key ++ 61 :: 34 :: a.2.raw)))), 34, ?_, by decide⟩
      rw [hattributes]
      unfold QuotedAttribute.text QuotedAttribute.body
      simp
  · rw [List.concat_eq_append] at hbehind
    refine ⟨60 :: (g.name ++ (g.attributes.flatMap (fun a => a.1 ++ a.2.text) ++ w)), c, ?_, ?_⟩
    · rw [hbehind]
      simp
    · have hc := g.gap_behind c (hbehind ▸ List.mem_concat_self)
      rcases hc with rfl | rfl <;> decide

/-- The name comes back whatever stands behind it. -/
theorem Tidy.tagName_bracket (hg : g.Tidy) :
    ParseState.tagName false (cleaned (60 :: (g.name ++ (g.inside ++ [62])))) = g.name := by
  have hname := g.named.isTagName
  change (cleaned (60 :: (g.name ++ (g.inside ++ [62])))).takeWhile (· ≠ 32) = g.name
  rcases hg.inside_cases with hnone | ⟨v, hv⟩
  · rw [hnone, List.nil_append, hname.cleaned_bracket, List.takeWhile_eq_self_iff]
    exact fun c hc => decide_eq_true (hname.2 c hc).2
  · have hcount := g.countP_inside
    rw [hv, List.countP_cons_of_neg (by decide)] at hcount
    rw [hv, List.cons_append]
    refine hname.takeWhile_cleaned ?_
    rw [List.countP_append]
    exact hcount

theorem Tidy.tagName_slash (hg : g.Tidy) :
    ParseState.tagName true (cleaned (60 :: (g.name ++ (g.inside ++ [47, 62])))) = g.name := by
  have hname := g.named.isTagName
  have hslash : 47 ∉ g.name := fun h => nameChar_ne (g.named.2 47 h) (by decide) rfl
  have hwhole : g.name.takeWhile (· ≠ 47) = g.name :=
    List.takeWhile_eq_self_iff.mpr fun c hc => decide_eq_true fun h => hslash (h ▸ hc)
  change ((cleaned (60 :: (g.name ++ (g.inside ++ [47, 62])))).takeWhile (· ≠ 32)).takeWhile
    (· ≠ 47) = g.name
  rcases hg.inside_cases with hnone | ⟨v, hv⟩
  · have hclean := hname.append_slash.cleaned_bracket
    rw [List.append_assoc, List.singleton_append] at hclean
    have hspace : (g.name ++ [47]).takeWhile (· ≠ 32) = g.name ++ [47] :=
      List.takeWhile_eq_self_iff.mpr fun c hc => decide_eq_true (hname.append_slash.2 c hc).2
    rw [hnone, List.nil_append, hclean, hspace, takeWhile_ne hslash]
  · have hcount := g.countP_inside
    rw [hv, List.countP_cons_of_neg (by decide)] at hcount
    rw [hv, List.cons_append, hname.takeWhile_cleaned, hwhole]
    rw [List.countP_append]
    exact hcount

end SpacedTag

namespace Scanner

/-! ### Inside a tag -/

/-- The scanner in a tag: `t` is the tag so far and `o` its end from the mark on. -/
def tagAt (seen t : Bytes) (o : Option Bytes) (l : List XmlElement) (e : XmlElement) : Scanner :=
  ⟨seen, .tag, false, some t, o, l, some e⟩

/-- What the end behind the mark will add to the attributes. -/
def Pending : Option Bytes → List (Bytes × Bytes) → Prop
  | none, l => l = []
  | some u, l => ∀ w, Follows w → attributeOf (cleaned (u ++ w)) = l

variable (seen t : Bytes) {u : Bytes} {o : Option Bytes} (l : List XmlElement) (e : XmlElement)
  {attributes : List (Bytes × Bytes)}

theorem pending_gap {c : Byte} (hc : c = 32 ∨ c = 9) : Pending (some [c]) [] := by
  intro w hw
  rcases hc with rfl | rfl
  · rcases hw with rfl | rfl | rfl | rfl <;> decide +kernel
  · rcases hw with rfl | rfl | rfl | rfl <;> decide +kernel

theorem pending_attribute {a : QuotedAttribute} (ha : a.Kept) :
    Pending (some a.text) [(a.key, a.value)] := by
  intro w hw
  have hkey : 61 ∉ a.key := fun h => nameChar_ne (a.named.2 61 h) (by decide) rfl
  have hspace : afterSpace a.raw = a.raw := by
    unfold afterSpace
    rw [if_neg]
    intro hhead
    cases hraw : a.raw with
    | nil =>
      rw [hraw] at hhead
      exact absurd hhead (by decide)
    | cons c v =>
      rw [hraw] at hhead
      exact ha.space (by rw [hraw]; exact congrArg some hhead)
  rw [a.cleaned_text hw, ha.whole, attributeOf_append hkey a.named.1, hspace]
  rfl

/-- A space or a tab outside quotes adds the attribute in front of it. -/
theorem reads_separator {c : Byte} (hc : c = 32 ∨ c = 9) (hfirst : o = none → c = 32)
    (hpending : Pending o attributes) (q : Bytes) :
    Reads (tagAt seen t o l e, c :: q)
      (tagAt (seen ++ [c]) (t ++ [c]) (some [c]) l (e.withAttributes attributes), q) := by
  apply Relation.ReflTransGen.single
  have hlt : c ≠ 60 := by rcases hc with rfl | rfl <;> decide
  have hgt : c ≠ 62 := by rcases hc with rfl | rfl <;> decide
  have hquote : c ≠ 34 := by rcases hc with rfl | rfl <;> decide
  have hstep : (tagAt seen t o l e).step (c :: q) = some ((tagAt seen t o l e).inTag c, q) := by
    unfold step
    dsimp only
    rw [if_neg hlt, byte_tag rfl hgt]
  dsimp only
  rw [hstep]
  unfold inTag
  rw [if_neg hquote]
  cases o with
  | none =>
    obtain rfl := hfirst rfl
    obtain rfl : attributes = [] := hpending
    rw [if_pos ⟨rfl, rfl⟩, e.withAttributes_nil]
    rfl
  | some u =>
    have hfollows : Follows [c] := by
      rcases hc with rfl | rfl
      · exact .inl rfl
      · exact .inr (.inl rfl)
    have hmarked : ¬ (c = 32 ∧ (tagAt seen t (some u) l e).attrib = none) := fun h => by cases h.2
    have hends : (c = 32 ∨ c = 9) ∧ (tagAt seen t (some u) l e).inQoute = false := ⟨hc, rfl⟩
    rw [if_neg hmarked, if_pos hends]
    unfold separator
    rw [← hpending [c] hfollows]
    rfl

/-- Bytes that are no markup and no end of an attribute are passed over. -/
theorem reads_pass {a : Scanner} (hmode : a.mode = .tag) {v : Bytes}
    (hv : ∀ c ∈ v, c ≠ 60 ∧ c ≠ 62 ∧ c ≠ 34 ∧
      (c ≠ 32 ∧ c ≠ 9 ∨ a.inQoute = true ∧ a.attrib ≠ none)) (q : Bytes) :
    Reads (a, v ++ q) (a.pass v, q) := by
  induction v generalizing a with
  | nil =>
    have hsame : a.pass [] = a := by
      unfold pass
      simp
    rw [hsame]
    exact .refl
  | cons c v ih =>
    obtain ⟨hlt, hgt, hquote, hplain⟩ := hv c List.mem_cons_self
    have hstep : a.step (c :: v ++ q) = some (a.pass [c], v ++ q) := by
      unfold step
      rw [List.cons_append]
      dsimp only
      rw [if_neg hlt, byte_tag hmode hgt]
      unfold inTag
      rw [if_neg hquote]
      rcases hplain with ⟨hspace, htab⟩ | ⟨hin, hmark⟩
      · rw [if_neg fun h => hspace h.1, if_neg fun h => h.1.elim hspace htab]
      · rw [if_neg fun h => hmark h.2,
          if_neg fun h => Bool.noConfusion (hin.symm.trans h.2)]
    have hrest := ih (a := a.pass [c]) hmode fun b hb => by
      obtain ⟨hlt, hgt, hquote, hplain⟩ := hv b (List.mem_cons_of_mem c hb)
      refine ⟨hlt, hgt, hquote, hplain.imp_right fun h => ⟨h.1, ?_⟩⟩
      unfold pass
      simpa using h.2
    rw [pass_pass] at hrest
    exact hrest.head hstep

theorem reads_quote {a : Scanner} (hmode : a.mode = .tag) (q : Bytes) :
    Reads (a, 34 :: q) ({ a.pass [34] with inQoute := ! a.inQoute }, q) := by
  apply Relation.ReflTransGen.single
  have hstep : a.step (34 :: q) = some (a.byte 34, q) := rfl
  dsimp only
  rw [hstep, byte_tag hmode (by decide)]
  rfl

/-- The name, the equals sign and the value between its quotes. -/
theorem reads_body (a : QuotedAttribute) (u q : Bytes) :
    Reads (tagAt seen t (some u) l e, a.body ++ q)
      (tagAt (seen ++ a.body) (t ++ a.body) (some (u ++ a.body)) l e, q) := by
  have hbody (q : Bytes) : a.body ++ q =
      (a.key ++ [61]) ++ 34 :: (a.raw ++ 34 :: q) := by
    unfold QuotedAttribute.body
    simp
  have hkey : ∀ c ∈ a.key ++ [61], c ≠ 60 ∧ c ≠ 62 ∧ c ≠ 34 ∧
      (c ≠ 32 ∧ c ≠ 9 ∨ (tagAt seen t (some u) l e).inQoute = true ∧
        (tagAt seen t (some u) l e).attrib ≠ none) := by
    intro c hc
    rcases List.mem_append.mp hc with hc | hc
    · have hne (d : Byte) (hd : ¬ isNameChar d) : c ≠ d := nameChar_ne (a.named.2 c hc) hd
      exact ⟨hne 60 (by decide), hne 62 (by decide), hne 34 (by decide),
        .inl ⟨hne 32 (by decide), hne 9 (by decide)⟩⟩
    · rw [List.mem_singleton.mp hc]
      exact ⟨by decide, by decide, by decide, .inl ⟨by decide, by decide⟩⟩
  have hname := reads_pass rfl hkey (34 :: (a.raw ++ 34 :: q))
  -- inside the quotes no separator counts
  let b : Scanner :=
    { ((tagAt seen t (some u) l e).pass (a.key ++ [61])).pass [34] with inQoute := true }
  have hopen : Reads ((tagAt seen t (some u) l e).pass (a.key ++ [61]), 34 :: (a.raw ++ 34 :: q))
      (b, a.raw ++ 34 :: q) := reads_quote rfl (a.raw ++ 34 :: q)
  have hvalue : Reads (b, a.raw ++ 34 :: q) (b.pass a.raw, 34 :: q) :=
    reads_pass rfl (fun c hc =>
      have hne := (a.quoted c hc).2
      ⟨hne.2.1, hne.2.2, hne.1, .inr ⟨rfl, Option.some_ne_none _⟩⟩) (34 :: q)
  have hclose := reads_quote (a := b.pass a.raw) rfl q
  have hend : ({ (b.pass a.raw).pass [34] with inQoute := ! (b.pass a.raw).inQoute } : Scanner) =
      tagAt (seen ++ a.body) (t ++ a.body) (some (u ++ a.body)) l e := by
    unfold b pass tagAt QuotedAttribute.body
    simp
  rw [hend] at hclose
  rw [hbody]
  exact ((hname.trans hopen).trans hvalue).trans hclose

/-- Behind a gap the same attributes are pending as in front of it. -/
theorem reads_gap {w : Bytes} (hw : IsGap w) (hfirst : o = none → w.head? ≠ some 9)
    (hpending : Pending o attributes) (q : Bytes) : ∃ o' attributes' e',
      Pending o' attributes' ∧ (o' = none → o = none ∧ w = []) ∧
      e'.withAttributes attributes' = e.withAttributes attributes ∧
      Reads (tagAt seen t o l e, w ++ q) (tagAt (seen ++ w) (t ++ w) o' l e', q) := by
  induction w generalizing seen t o e attributes with
  | nil =>
    refine ⟨o, attributes, e, hpending, fun h => ⟨h, rfl⟩, rfl, ?_⟩
    rw [List.append_nil, List.append_nil]
    exact .refl
  | cons c w ih =>
    have hc := hw c List.mem_cons_self
    have hspace : o = none → c = 32 := fun h => hc.resolve_right fun h9 =>
      hfirst h (congrArg some h9)
    have hstep := reads_separator seen t l e hc hspace hpending (w ++ q)
    obtain ⟨o', attributes', e', hpending', hnone, hsame, hread⟩ :=
      ih (seen ++ [c]) (t ++ [c]) (o := some [c]) (e.withAttributes attributes)
        (fun b hb => hw b (List.mem_cons_of_mem c hb)) (fun h => by cases h) (pending_gap hc)
    refine ⟨o', attributes', e', hpending',
      fun h => absurd (hnone h).1 (Option.some_ne_none _), ?_, ?_⟩
    · rw [hsame, XmlElement.withAttributes_nil]
    · rw [List.append_assoc, List.append_assoc, List.singleton_append] at hread
      exact hstep.trans hread

theorem reads_attribute (a : QuotedAttribute) (hfirst : o = none → a.separator = 32)
    (hpending : Pending o attributes) (q : Bytes) :
    Reads (tagAt seen t o l e, a.text ++ q) (tagAt (seen ++ a.text) (t ++ a.text) (some a.text) l
      (e.withAttributes attributes), q) := by
  have hseparator := reads_separator seen t l e a.separates hfirst hpending (a.body ++ q)
  have hbody := reads_body (seen ++ [a.separator]) (t ++ [a.separator]) l
    (e.withAttributes attributes) a [a.separator] q
  rw [List.append_assoc, List.append_assoc, List.singleton_append] at hbody
  exact hseparator.trans hbody

theorem withAttributes_append (e : XmlElement) (l l' : List (Bytes × Bytes)) :
    (e.withAttributes l).withAttributes l' = e.withAttributes (l ++ l') := by
  unfold XmlElement.withAttributes
  rw [List.append_assoc]

/-- Attributes are collected in their order. The first byte behind the name is no tab. -/
theorem reads_attributes {as : List (Bytes × QuotedAttribute)} (hgaps : ∀ a ∈ as, IsGap a.1)
    (hkept : ∀ a ∈ as, a.2.Kept)
    (hfirst : o = none → (as.flatMap fun a => a.1 ++ a.2.text).head? ≠ some 9)
    (hpending : Pending o attributes) (q : Bytes) : ∃ o' attributes' e',
      Pending o' attributes' ∧ (o' = none → o = none ∧ as = []) ∧
      e'.withAttributes attributes' =
        e.withAttributes (attributes ++ as.map fun a => (a.2.key, a.2.value)) ∧
      Reads (tagAt seen t o l e, (as.flatMap fun a => a.1 ++ a.2.text) ++ q)
        (tagAt (seen ++ as.flatMap fun a => a.1 ++ a.2.text)
          (t ++ as.flatMap fun a => a.1 ++ a.2.text) o' l e', q) := by
  induction as generalizing seen t o e attributes with
  | nil =>
    refine ⟨o, attributes, e, hpending, fun h => ⟨h, rfl⟩, ?_, ?_⟩
    · rw [List.map_nil, List.append_nil]
    · rw [List.flatMap_nil, List.append_nil, List.append_nil]
      exact .refl
  | cons a as ih =>
    rw [List.flatMap_cons] at hfirst ⊢
    generalize hrest : (as.flatMap fun a => a.1 ++ a.2.text) = rest at ih hfirst ⊢
    have hgapFirst : o = none → a.1.head? ≠ some 9 := by
      intro hnone hhead
      apply hfirst hnone
      rw [List.append_assoc, List.head?_append, hhead]
      rfl
    obtain ⟨o₁, attributes₁, e₁, hpending₁, hnone₁, hsame₁, hread₁⟩ := reads_gap seen t l e
      (hgaps a List.mem_cons_self) hgapFirst hpending
      (a.2.text ++ (rest ++ q))
    have hspace : o₁ = none → a.2.separator = 32 := by
      intro hnone
      obtain ⟨ho, hgap⟩ := hnone₁ hnone
      refine a.2.separates.resolve_right fun htab => hfirst ho ?_
      rw [hgap, QuotedAttribute.text, htab]
      rfl
    have hread₂ := reads_attribute (seen ++ a.1) (t ++ a.1) l e₁ a.2 hspace hpending₁ (rest ++ q)
    obtain ⟨o', attributes', e', hpending', hnone', hsame', hread'⟩ :=
      ih (seen ++ a.1 ++ a.2.text) (t ++ a.1 ++ a.2.text) (o := some a.2.text)
        (e₁.withAttributes attributes₁) (fun b hb => hgaps b (List.mem_cons_of_mem a hb))
        (fun b hb => hkept b (List.mem_cons_of_mem a hb)) (fun h => by cases h)
        (pending_attribute (hkept a List.mem_cons_self))
    refine ⟨o', attributes', e', hpending', fun h => ?_, ?_, ?_⟩
    · exact absurd (hnone' h).1 (Option.some_ne_none _)
    · rw [hsame', hsame₁, withAttributes_append]
      rfl
    · simp only [List.append_assoc] at hread₁ hread₂ hread' ⊢
      exact (hread₁.trans hread₂).trans hread'

/-! ### Whole tags -/

/-- The scanner behind a tag. -/
def behindTag (seen : Bytes) (l : List XmlElement) (e : XmlElement) : Scanner :=
  ⟨seen, .text (some []), false, none, none, l, some e⟩

theorem shortTag_bracket (t : Bytes) {c : Byte} (hc : c ≠ 47) :
    ParseState.shortTag (t ++ [c] ++ [62]) = false := by
  have hlen : (t ++ [c] ++ [62]).length-2 = t.length := by
    simp only [List.length_append, List.length_cons, List.length_nil]
    omega
  unfold ParseState.shortTag
  rw [hlen, List.append_assoc, List.drop_left]
  exact decide_eq_false hc

theorem shortTag_slash (t : Bytes) : ParseState.shortTag (t ++ [47] ++ [62]) = true := by
  have hlen : (t ++ [47] ++ [62]).length-2 = t.length := by
    simp only [List.length_append, List.length_cons, List.length_nil]
    omega
  unfold ParseState.shortTag
  rw [hlen, List.append_assoc, List.drop_left]
  rfl

theorem last_pending (hpending : Pending o attributes) {w : Bytes} (hw : Follows w) :
    (o.map fun u => attributeOf (cleaned (u ++ w))).getD [] = attributes := by
  cases o with
  | none => exact (show attributes = [] from hpending).symm
  | some u => exact hpending w hw

/-- At the end of a tag the element gets its name and the last attribute. -/
theorem reads_bracket {c : Byte} (ht : t = u ++ [c]) (hc : c ≠ 47)
    (hpending : Pending o attributes) (q : Bytes) : Reads (tagAt seen t o l e, 62 :: q)
      (behindTag (seen ++ [62]) l (ParseState.closeWith (t ++ [62]) attributes e), q) := by
  apply Relation.ReflTransGen.single
  have hstep : (tagAt seen t o l e).step (62 :: q) = some ((tagAt seen t o l e).closeTag, q) := by
    have hbyte : (tagAt seen t o l e).byte 62 = (tagAt seen t o l e).closeTag :=
      byte_close ScanMode.noConfusion
    rw [← hbyte]
    rfl
  have hshort : ParseState.shortTag (t ++ [62]) = false := by
    rw [ht]
    exact shortTag_bracket u hc
  have hlast := last_pending hpending (.inr (.inr (.inl rfl)))
  dsimp only
  rw [hstep]
  unfold closeTag tagAt
  dsimp only
  rw [hlast, Option.getD_some, hshort]
  simp [behindTag, pass]

/-- The end of an empty element makes two elements of it. -/
theorem reads_slash (hpending : Pending o attributes) (q : Bytes) :
    ∃ seen', Reads (tagAt seen t o l e, 47 :: 62 :: q)
      (behindTag seen' (l ++ [ParseState.closeWith (t ++ [47, 62]) attributes e])
        emptyEnd, q) := by
  have hpass := reads_pass (a := tagAt seen t o l e) rfl (v := [47]) (fun c hc => by
    rw [List.mem_singleton.mp hc]
    exact ⟨by decide, by decide, by decide, .inl ⟨by decide, by decide⟩⟩) (62 :: q)
  have hstep : ((tagAt seen t o l e).pass [47]).step (62 :: q) =
      some (((tagAt seen t o l e).pass [47]).closeTag, q) := by
    have hbyte : ((tagAt seen t o l e).pass [47]).byte 62 =
        ((tagAt seen t o l e).pass [47]).closeTag := byte_close ScanMode.noConfusion
    rw [← hbyte]
    rfl
  refine ⟨seen ++ [47] ++ [62], hpass.trans (Relation.ReflTransGen.single ?_)⟩
  have hlast := last_pending hpending (.inr (.inr (.inr rfl)))
  have hmap : ((o.map (· ++ [47])).map fun u => attributeOf (cleaned (u ++ [62]))).getD [] =
      attributes := by
    rw [← hlast, Option.map_map]
    simp [Function.comp_def]
  dsimp only
  rw [hstep]
  unfold closeTag tagAt pass
  dsimp only
  rw [hmap, Option.map_some, Option.getD_some, shortTag_slash, List.append_assoc t [47]]
  simp [behindTag, emptyEnd]

/-- The scanner is at a place outside of tags. -/
structure Settled (a : Scanner) : Prop where
  mode : a.mode ≠ .tag
  inQoute : a.inQoute = false
  tag : a.tag = none
  attrib : a.attrib = none

/-- The elements as they are when the next tag begins. -/
def flush (a : Scanner) : List XmlElement :=
  a.elements ++ (a.pElement.map (·.withValue (ParseState.trimmed a.mode.value))).toList

section
variable {a : Scanner} (ha : a.Settled)
include ha

theorem reads_bracketOpen {c : Byte} (hc : c ≠ 33) (q : Bytes) :
    Reads (a, 60 :: c :: q) (tagAt (a.seen ++ [60]) [60] none a.flush {}, c :: q) := by
  apply Relation.ReflTransGen.single
  have hcomment : ¬ bytes "<!--" <+: 60 :: c :: q := by
    intro h
    have hprefix : (33 : Byte) :: bytes "--" <+: c :: q := (List.cons_prefix_cons.mp h).2
    exact hc (List.cons_prefix_cons.mp hprefix).1.symm
  have hsection : ¬ bytes "<![CDATA" <+: 60 :: c :: q := by
    intro h
    have hprefix : (33 : Byte) :: bytes "[CDATA" <+: c :: q := (List.cons_prefix_cons.mp h).2
    exact hc (List.cons_prefix_cons.mp hprefix).1.symm
  have hstep : a.step (60 :: c :: q) = some (a.openTag, c :: q) := by
    unfold step markup
    dsimp only
    rw [if_pos rfl, if_neg hcomment, if_neg hsection]
    rfl
  dsimp only
  rw [hstep]
  unfold openTag tagAt pass flush
  dsimp only
  rw [ha.attrib, ha.inQoute]
  rfl


/-- A tag up to its end: the name and the attributes, the last of them pending. -/
theorem reads_inside {g : SpacedTag} (hg : g.Tidy) (w : Bytes) : ∃ seen o attributes e,
    Pending o attributes ∧ e.withAttributes attributes =
      ({} : XmlElement).withAttributes (g.attributes.map fun a => (a.2.key, a.2.value)) ∧
    Reads (a, 60 :: (g.name ++ (g.inside ++ w)))
      (tagAt seen (60 :: (g.name ++ g.inside)) o a.flush e, w) := by
  obtain ⟨c, name, hname⟩ := List.exists_cons_of_ne_nil g.named.1
  have hne (d : Byte) (hd : ¬ isNameChar d) : ∀ c ∈ g.name, c ≠ d := fun c hc =>
    nameChar_ne (g.named.2 c hc) hd
  have hopen := reads_bracketOpen ha (hne 33 (by decide) c (hname ▸ List.mem_cons_self))
    (name ++ (g.inside ++ w))
  rw [← List.cons_append, ← hname] at hopen
  have hpass := reads_pass (a := tagAt (a.seen ++ [60]) [60] none a.flush {}) rfl (v := g.name)
    (fun c hc => ⟨hne 60 (by decide) c hc, hne 62 (by decide) c hc, hne 34 (by decide) c hc,
      .inl ⟨hne 32 (by decide) c hc, hne 9 (by decide) c hc⟩⟩) (g.inside ++ w)
  have hhead : (g.attributes.flatMap fun a => a.1 ++ a.2.text).head? ≠ some 9 := by
    intro h
    apply hg.space
    rw [SpacedTag.inside, List.head?_append, h]
    rfl
  obtain ⟨o₁, attributes₁, e₁, hpending₁, hnone₁, hsame₁, hread₁⟩ := @reads_attributes
    (a.seen ++ [60] ++ g.name) ([60] ++ g.name) none a.flush {} [] g.attributes g.gaps hg.kept
    (fun _ => hhead) rfl (g.behind ++ w)
  have hbehind : o₁ = none → g.behind.head? ≠ some 9 := by
    intro hnone h
    apply hg.space
    rw [SpacedTag.inside, (hnone₁ hnone).2, List.flatMap_nil, List.nil_append, h]
  obtain ⟨o₂, attributes₂, e₂, hpending₂, -, hsame₂, hread₂⟩ := reads_gap
    (a.seen ++ [60] ++ g.name ++ g.attributes.flatMap fun a => a.1 ++ a.2.text)
    ([60] ++ g.name ++ g.attributes.flatMap fun a => a.1 ++ a.2.text) a.flush e₁
    g.gap_behind hbehind hpending₁ w
  refine ⟨a.seen ++ [60] ++ g.name ++ (g.attributes.flatMap fun a => a.1 ++ a.2.text) ++ g.behind,
    o₂, attributes₂, e₂, hpending₂, hsame₂.trans hsame₁, ?_⟩
  have htag : 60 :: (g.name ++ g.inside) =
      [60] ++ g.name ++ (g.attributes.flatMap fun a => a.1 ++ a.2.text) ++ g.behind := by
    unfold SpacedTag.inside
    simp
  have hinside : g.inside ++ w =
      (g.attributes.flatMap fun a => a.1 ++ a.2.text) ++ (g.behind ++ w) := by
    unfold SpacedTag.inside
    rw [List.append_assoc]
  rw [htag]
  rw [← hinside] at hread₁
  exact ((hopen.trans hpass).trans hread₁).trans hread₂

theorem reads_openTag {g : SpacedTag} (hg : g.Tidy) (q : Bytes) :
    ∃ seen, Reads (a, g.openText ++ q) (behindTag seen a.flush g.element, q) := by
  obtain ⟨seen, o, attributes, e, hpending, hsame, hread⟩ := reads_inside ha hg (62 :: q)
  obtain ⟨u, c, hlast, hc⟩ := g.last_inside
  have hend := reads_bracket seen _ a.flush e hlast hc hpending q
  have helement : ParseState.closeWith (60 :: (g.name ++ g.inside) ++ [62]) attributes e =
      g.element := by
    have hshort : ParseState.shortTag (60 :: (g.name ++ g.inside) ++ [62]) = false := by
      rw [hlast]
      exact shortTag_bracket u hc
    have hname := hg.tagName_bracket
    rw [← List.append_assoc, ← List.cons_append] at hname
    unfold ParseState.closeWith
    rw [hshort, hname]
    exact congrArg (fun d : XmlElement => { d with xmlTagName := some g.name }) hsame
  have htext : g.openText ++ q = 60 :: (g.name ++ (g.inside ++ 62 :: q)) := by
    unfold SpacedTag.openText
    simp
  rw [helement] at hend
  rw [htext]
  exact ⟨_, hread.trans hend⟩

/-- The end of an empty element makes an element of its own. -/
theorem reads_emptyTag {g : SpacedTag} (hg : g.Tidy) (q : Bytes) : ∃ seen,
    Reads (a, g.emptyText ++ q) (behindTag seen (a.flush ++ [g.element]) emptyEnd, q) := by
  obtain ⟨seen, o, attributes, e, hpending, hsame, hread⟩ := reads_inside ha hg (47 :: 62 :: q)
  obtain ⟨seen', hend⟩ := reads_slash seen (60 :: (g.name ++ g.inside)) a.flush e hpending q
  have helement : ParseState.closeWith (60 :: (g.name ++ g.inside) ++ [47, 62]) attributes e =
      g.element := by
    have hshort : ParseState.shortTag (60 :: (g.name ++ g.inside) ++ [47, 62]) = true := by
      have hslash := shortTag_slash (60 :: (g.name ++ g.inside))
      rwa [List.append_assoc] at hslash
    have hname := hg.tagName_slash
    rw [← List.append_assoc, ← List.cons_append] at hname
    unfold ParseState.closeWith
    rw [hshort, hname]
    exact congrArg (fun d : XmlElement => { d with xmlTagName := some g.name }) hsame
  have htext : g.emptyText ++ q = 60 :: (g.name ++ (g.inside ++ 47 :: 62 :: q)) := by
    unfold SpacedTag.emptyText
    simp
  rw [helement] at hend
  rw [htext]
  exact ⟨seen', hread.trans hend⟩

theorem reads_closeTag (g : SpacedTag) (q : Bytes) : ∃ seen,
    Reads (a, g.closeText ++ q) (behindTag seen a.flush g.closeElement, q) := by
  have hname := g.named.isTagName.slash_cons
  have hopen := reads_bracketOpen ha (c := 47) (by decide) (g.name ++ (62 :: q))
  have hpass := reads_pass (a := tagAt (a.seen ++ [60]) [60] none a.flush {}) rfl
    (v := 47 :: g.name) (fun c hc => by
      rcases List.mem_cons.mp hc with rfl | hc
      · exact ⟨by decide, by decide, by decide, .inl ⟨by decide, by decide⟩⟩
      · have hne (d : Byte) (hd : ¬ isNameChar d) : c ≠ d := nameChar_ne (g.named.2 c hc) hd
        exact ⟨hne 60 (by decide), hne 62 (by decide), hne 34 (by decide),
          .inl ⟨hne 32 (by decide), hne 9 (by decide)⟩⟩) (62 :: q)
  obtain ⟨u, c, hlast, hc⟩ : ∃ u c, [60] ++ 47 :: g.name = u ++ [c] ∧ c ≠ 47 := by
    rcases g.name.eq_nil_or_concat with hnone | ⟨w, c, hw⟩
    · exact absurd hnone g.named.1
    · rw [List.concat_eq_append] at hw
      have hc : isNameChar c := g.named.2 c (hw ▸ List.mem_concat_self)
      exact ⟨60 :: 47 :: w, c, by rw [hw]; rfl, nameChar_ne hc (by decide)⟩
  have hend := @reads_bracket (a.seen ++ [60] ++ 47 :: g.name) ([60] ++ 47 :: g.name) u none a.flush
    {} [] c hlast hc rfl q
  have helement : ParseState.closeWith ([60] ++ 47 :: g.name ++ [62]) [] {} = g.closeElement := by
    have hshort : ParseState.shortTag ([60] ++ 47 :: g.name ++ [62]) = false := by
      rw [hlast]
      exact shortTag_bracket u hc
    have hclean : cleaned ([60] ++ 47 :: g.name ++ [62]) = 47 :: g.name := hname.cleaned_bracket
    have hwhole : (47 :: g.name).takeWhile (· ≠ 32) = 47 :: g.name :=
      List.takeWhile_eq_self_iff.mpr fun c hc => decide_eq_true (hname.2 c hc).2
    unfold ParseState.closeWith ParseState.tagName
    rw [hshort, hclean, hwhole, XmlElement.withAttributes_nil]
    rfl
  have htext : g.closeText ++ q = 60 :: 47 :: (g.name ++ 62 :: q) := by
    unfold SpacedTag.closeText
    simp
  rw [helement] at hend
  rw [htext]
  exact ⟨_, (hopen.trans hpass).trans hend⟩

end

end Scanner

end MsgCourier
