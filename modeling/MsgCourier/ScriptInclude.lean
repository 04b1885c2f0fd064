import Mathlib.Data.Fintype.Card
import MsgCourier.Statement

/-! `cMCScript::HandleRecursiveInclude`: the elements `<include .../>` of a script and the files
that are put in their place. -/
namespace MsgCourier
open ListSearch CText

/-! ### The loop -/

/-- What may stand between the quotes: `[\(\)a-zA-Z0-9\$\-\_\.\:\x5c]` -/
def isQuotedChar (c : Byte) : Bool :=
  isAlnum c || c == 40 || c == 41 || c == 36 || c == 45 || c == 95 || c == 46 || c == 58 || c == 92

/-- `GetQoutedValue` leaves in `sValue` the first text between quotes, and nothing when there is
none. Its return value is always true. -/
def getQoutedValue : Bytes → Bytes
  | [] => []
  | c :: t =>
    if c = 34 ∧ t.takeWhile isQuotedChar ≠ [] ∧ (t.dropWhile isQuotedChar).head? = some 34 then
      t.takeWhile isQuotedChar
    else getQoutedValue t

/-- The files that `fopen` finds, with their contents. -/
abbrev ScriptFiles := List (Bytes × Bytes)

/-- The text that is read into `sInsert`. There is no file with an empty name. -/
def readInclude (files : ScriptFiles) (sValue : Bytes) : Bytes :=
  if sValue = [] then [] else (files.lookup sValue).getD []

/-- `if ((mark2 = s.find(pat)) != npos) s.erase(mark2, pat.length())` -/
def eraseFirst (pat s : Bytes) : Bytes :=
  match firstOcc pat s with
  | none => s
  | some mark2 => s.take mark2 ++ s.drop (mark2+pat.length)

def openWrapper : Bytes := bytes "<mcscript>"
def closeWrapper : Bytes := bytes "</mcscript>"

/-- A file's text without its wrapper. -/
def unwrapped (sInsert : Bytes) : Bytes := eraseFirst closeWrapper (eraseFirst openWrapper sInsert)

def includeTag : Bytes := bytes "<include"
def includeEnd : Bytes := bytes "/>"

/-- `mark2` behind `mark2 += 4`, and the text that is searched for the name: the second argument of
`substr` is a length. -/
def includeExpression (s : Bytes) (mark1 mark2 : ℕ) : Bytes := (s.drop mark1).take mark2

/-- One round of the loop; `none` when no `<include` is left. -/
def includeRound (files : ScriptFiles) (s : Bytes) : Option Bytes :=
  match firstOcc includeTag s with
  | none => none
  | some mark1 =>
    match firstOcc includeEnd (s.drop mark1) with
    | none => some s
    | some m =>
      let mark2 := mark1+m+4
      let sInsert := readInclude files (getQoutedValue (includeExpression s mark1 mark2))
      let s := s.take mark1 ++ s.drop mark2
      if sInsert.length > 0 then
        some (s.take mark1 ++ (unwrapped sInsert ++ [10]) ++ s.drop mark1)
      else some s

/-- `HandleRecursiveInclude`, as far as the given number of rounds goes. -/
def handleRecursiveInclude (files : ScriptFiles) : ℕ → Bytes → Option Bytes
  | 0, _ => none
  | n+1, s =>
    match includeRound files s with
    | none => some s
    | some s' => handleRecursiveInclude files n s'

/-! ### What the elements stand for -/

/-- The first element of a text, with what is before and behind it. -/
structure IncludeAt (s a e r : Bytes) : Prop where
  eq : s = a ++ (e ++ includeEnd) ++ r
  first : firstOcc includeTag s = some a.length
  closed : firstOcc includeEnd ((e ++ includeEnd) ++ r) = some e.length

/-- The file an element names, without its wrapper. -/
def ownContent (files : ScriptFiles) (e : Bytes) : Bytes :=
  unwrapped (readInclude files (getQoutedValue (e ++ includeEnd)))

/-- The text with each element replaced by the expanded content of its own file. -/
inductive Expansion (files : ScriptFiles) : Bytes → Bytes → Prop
  | plain {s : Bytes} : (∀ a e r, ¬ IncludeAt s a e r) → Expansion files s s
  | element {s a e r c t : Bytes} :
      IncludeAt s a e r → Expansion files (ownContent files e) c → Expansion files r t →
      Expansion files s (a ++ c ++ t)

/-- A round that is local: the first element gives way to the content of the file it names itself,
and nothing else changes. -/
def Replaces (files : ScriptFiles) (s s' : Bytes) : Prop :=
  ∃ a e r, IncludeAt s a e r ∧
    getQoutedValue (includeExpression s a.length (a.length+e.length+4)) =
      getQoutedValue (e ++ includeEnd) ∧
    s' = a ++ ownContent files e ++ r

/-- The rounds up to the last one, each of them local. -/
inductive LocalRounds (files : ScriptFiles) : Bytes → Bytes → Prop
  | done {s : Bytes} : includeRound files s = none → LocalRounds files s s
  | round {s s' t : Bytes} :
      includeRound files s = some s' → Replaces files s s' → LocalRounds files s' t →
      LocalRounds files s t

/-- The loop ends with the expansion of the text, every round of it is local, and no element is
left. -/
def ExpandsLocally (files : ScriptFiles) (s : Bytes) : Prop :=
  ∃ t, (∃ n, handleRecursiveInclude files n s = some t) ∧ Expansion files s t ∧
    LocalRounds files s t ∧ ∀ a e r, ¬ IncludeAt t a e r

/-- A file includes another one when one of its elements names it. -/
def Includes (files : ScriptFiles) (f g : Bytes) : Prop :=
  ∃ e, includeTag <+: e ++ includeEnd ∧ e ++ includeEnd <:+: unwrapped (readInclude files f) ∧
    getQoutedValue (e ++ includeEnd) = g

def Acyclic (files : ScriptFiles) : Prop := ∀ f, ¬ Relation.TransGen (Includes files) f f

/-- A text whose only element is its end and names a file with content that is such a text again, up
to a file with no element; and what it stands for. -/
inductive EndsInInclude (files : ScriptFiles) : Bytes → Bytes → Prop
  | plain {x : Bytes} : EndsInInclude files x x
  | element {x a e t : Bytes} :
      IncludeAt x a e [] → readInclude files (getQoutedValue (e ++ includeEnd)) ≠ [] →
      EndsInInclude files (ownContent files e) t → EndsInInclude files x (a ++ t)

/-- The texts whose rounds drop and add nothing: those with no `<include`, those whose only element
is their end and names a file that is empty or missing, and those that end in a newline behind their
only element. -/
def KeepsRest (files : ScriptFiles) (s : Bytes) : Prop :=
  ¬ includeTag <:+: s ∨
  (∃ a e, IncludeAt s a e [] ∧ readInclude files (getQoutedValue (e ++ includeEnd)) = []) ∨
  ∃ x t, s = x ++ [10] ∧ EndsInInclude files x t ∧ ¬ includeTag <:+: t

variable {files : ScriptFiles}

/-! ### The rounds -/

theorem getQoutedValue_newline (v : Bytes) : getQoutedValue (v ++ [10]) = getQoutedValue v := by
  induction v with
  | nil => rfl
  | cons c t ih =>
    have htake : (t ++ [10]).takeWhile isQuotedChar = t.takeWhile isQuotedChar := by
      rw [List.takeWhile_append]
      split_ifs with hall
      · exact (List.append_nil _).trans ((List.takeWhile_prefix _).eq_of_length hall).symm
      · rfl
    have hhead : ((t ++ [10]).dropWhile isQuotedChar).head? = some 34 ↔
        (t.dropWhile isQuotedChar).head? = some 34 := by
      rw [List.dropWhile_append]
      cases hdrop : t.dropWhile isQuotedChar with
      | nil => decide
      | cons b u => rfl
    rw [List.cons_append, getQoutedValue, getQoutedValue, htake, ih]
    simp only [hhead]

namespace IncludeAt

variable {s a e r : Bytes}

theorem tag_prefix (h : IncludeAt s a e r) : includeTag <+: (e ++ includeEnd) ++ r := by
  have hat := ((firstOcc_eq_some_iff (by decide)).mp h.first).1
  rwa [h.eq, List.append_assoc, List.drop_left] at hat

theorem tag_infix (h : IncludeAt s a e r) : includeTag <:+: s := by
  rw [h.eq, List.append_assoc]
  exact h.tag_prefix.isInfix.trans (List.suffix_append _ _).isInfix

theorem unique (h : IncludeAt s a e r) {a' e' r' : Bytes} (h' : IncludeAt s a' e' r') :
    a' = a ∧ e' = e ∧ r' = r := by
  have hlen := Option.some.inj (h.first.symm.trans h'.first)
  have heq : a ++ ((e ++ includeEnd) ++ r) = a' ++ ((e' ++ includeEnd) ++ r') := by
    have heq' := h.eq.symm.trans h'.eq
    rwa [List.append_assoc, List.append_assoc a'] at heq'
  obtain ⟨ha, hrest⟩ := List.append_inj heq hlen
  have hclosed := h.closed
  rw [hrest] at hclosed
  have hlen' := Option.some.inj (hclosed.symm.trans h'.closed)
  rw [List.append_assoc, List.append_assoc] at hrest
  obtain ⟨he, hrest⟩ := List.append_inj hrest hlen'
  exact ⟨ha.symm, he.symm, (List.append_cancel_left hrest).symm⟩

/-- The element without the text behind it. -/
theorem last (h : IncludeAt s a e r) : IncludeAt (a ++ (e ++ includeEnd)) a e [] where
  eq := (List.append_nil _).symm
  first := by
    -- the end of the element is not in the tag
    have hlong : includeTag.length ≤ e.length := by
      by_contra hshort
      obtain ⟨v, hv⟩ := h.tag_prefix
      have hslash : (includeTag ++ v)[e.length]? = some 47 := by
        rw [hv, List.append_assoc, List.getElem?_append_right (le_refl _), Nat.sub_self]
        rfl
      rw [List.getElem?_append_left (by omega)] at hslash
      exact absurd (List.mem_of_getElem? hslash) (by decide)
    have hfirst := h.first
    rw [h.eq] at hfirst
    apply firstOcc_of_append (by decide) hfirst
    simp only [List.length_append]
    omega
  closed := by
    rw [List.append_nil]
    apply firstOcc_of_append (by decide) h.closed
    rw [List.length_append]

/-- More text in front of the element and behind it. -/
theorem extend (h : IncludeAt s a e r) {p : Bytes} (hp : ¬ includeTag <:+: p ++ a) (q : Bytes) :
    IncludeAt (p ++ s ++ q) (p ++ a) e (r ++ q) where
  eq := by
    rw [h.eq]
    simp only [List.append_assoc]
  first := by
    obtain ⟨v, hv⟩ := h.tag_prefix
    have hwhole : p ++ s ++ q = (p ++ a) ++ (includeTag ++ (v ++ q)) := by
      calc p ++ s ++ q = (p ++ a) ++ ((e ++ includeEnd) ++ r) ++ q := by
            rw [h.eq]
            simp only [List.append_assoc]
        _ = (p ++ a) ++ (includeTag ++ (v ++ q)) := by
            rw [← hv]
            simp only [List.append_assoc]
    have hnone : occursIn includeTag (p ++ a) = false :=
      Bool.eq_false_iff.mpr fun hocc => hp ((occursIn_iff (by decide)).mp hocc)
    rw [hwhole]
    exact firstOcc_append_self (by decide) hnone _
  closed := by
    rw [← List.append_assoc]
    exact firstOcc_append (by decide) h.closed q

theorem not_infix_front (h : IncludeAt s a e r) : ¬ includeTag <:+: a := by
  intro hin
  obtain ⟨k, hk⟩ := Option.isSome_iff_exists.mp ((occursIn_iff (by decide)).mpr hin)
  have hfirst := firstOcc_append (by decide) hk ((e ++ includeEnd) ++ r)
  rw [← List.append_assoc, ← h.eq, h.first] at hfirst
  have hle := firstOcc_le _ hk
  have hlen : a.length = k := Option.some.inj hfirst
  have hlong : includeTag.length = 8 := by decide
  omega

/-- What a round puts in the place of the first element. -/
theorem includeRound_eq (h : IncludeAt s a e r) (files : ScriptFiles) : includeRound files s =
    let sInsert := readInclude files
      (getQoutedValue (includeExpression s a.length (a.length+e.length+4)))
    if sInsert.length > 0 then some (a ++ (unwrapped sInsert ++ [10]) ++ r.drop 2)
    else some (a ++ r.drop 2) := by
  have hrest : s.drop a.length = (e ++ includeEnd) ++ r := by
    rw [h.eq, List.append_assoc, List.drop_left]
  have htake : s.take a.length = a := by
    rw [h.eq, List.append_assoc, List.take_left]
  have hdrop : s.drop (a.length+e.length+4) = r.drop 2 := by
    have hlen : a.length+e.length+4 = (a ++ (e ++ includeEnd)).length+2 := by
      simp only [List.length_append]
      have hend : includeEnd.length = 2 := by decide
      omega
    rw [h.eq, hlen, List.drop_length_add_append]
  unfold includeRound
  rw [h.first]
  dsimp only
  rw [hrest, h.closed]
  dsimp only
  rw [hdrop, htake, List.take_left, List.drop_left]

/-- A local round has nothing behind its element but a newline, which it drops and adds again, or
nothing at all. -/
theorem rest_of_replaces (h : IncludeAt s a e r) {s' : Bytes}
    (hround : includeRound files s = some s') (hlocal : Replaces files s s') :
    s' = a ++ ownContent files e ++ r ∧
      (readInclude files (getQoutedValue (e ++ includeEnd)) = [] ∧ r = [] ∨
        readInclude files (getQoutedValue (e ++ includeEnd)) ≠ [] ∧ r = [10]) := by
  obtain ⟨a', e', r', h', hname, hs'⟩ := hlocal
  obtain ⟨rfl, rfl, rfl⟩ := h.unique h'
  have heq := h.includeRound_eq files
  rw [hname, hround] at heq
  dsimp only at heq
  refine ⟨hs', ?_⟩
  by_cases hraw : readInclude files (getQoutedValue (e' ++ includeEnd)) = []
  · have hempty : unwrapped [] = [] := by decide
    rw [hraw, if_neg (by decide), hs', ownContent, hraw, hempty, List.append_nil] at heq
    have hr := List.append_cancel_left (Option.some.inj heq)
    have hlen := congrArg List.length hr
    rw [List.length_drop] at hlen
    exact .inl ⟨hraw, List.length_eq_zero_iff.mp (by omega)⟩
  · rw [if_pos (List.length_pos_iff.mpr hraw), hs', ownContent] at heq
    have hr : r' = [10] ++ r'.drop 2 := by
      simpa only [List.append_assoc, Option.some.injEq, List.append_cancel_left_eq] using heq
    have hlen := congrArg List.length hr
    rw [List.length_append, List.length_drop, List.length_singleton] at hlen
    have hdrop : r'.drop 2 = [] := List.drop_eq_nil_iff.mpr (by omega)
    rw [hdrop, List.append_nil] at hr
    exact .inr ⟨hraw, hr⟩

/-- The name that is read when nothing or a newline is behind the element. -/
theorem expression_name (h : IncludeAt s a e r) (hr : r = [] ∨ r = [10]) :
    getQoutedValue (includeExpression s a.length (a.length+e.length+4)) =
      getQoutedValue (e ++ includeEnd) := by
  have hrest : s.drop a.length = (e ++ includeEnd) ++ r := by
    rw [h.eq, List.append_assoc, List.drop_left]
  have hlong : ((e ++ includeEnd) ++ r).length ≤ a.length+e.length+4 := by
    have hend : includeEnd.length = 2 := by decide
    rw [List.length_append, List.length_append, hend]
    rcases hr with rfl | rfl
    · rw [List.length_nil]
      omega
    · rw [List.length_singleton]
      omega
  rw [includeExpression, hrest, List.take_of_length_le hlong]
  rcases hr with rfl | rfl
  · rw [List.append_nil]
  · exact getQoutedValue_newline _

theorem replaces_nil (h : IncludeAt s a e [])
    (hraw : readInclude files (getQoutedValue (e ++ includeEnd)) = []) :
    includeRound files s = some a ∧ Replaces files s a := by
  have hname := h.expression_name (Or.inl rfl)
  have hempty : unwrapped [] = [] := by decide
  constructor
  · rw [h.includeRound_eq, hname, hraw]
    exact congrArg some (List.append_nil a)
  · refine ⟨a, e, [], h, hname, ?_⟩
    rw [ownContent, hraw, hempty, List.append_nil, List.append_nil]

theorem replaces_newline (h : IncludeAt s a e [10])
    (hraw : readInclude files (getQoutedValue (e ++ includeEnd)) ≠ []) :
    includeRound files s = some (a ++ ownContent files e ++ [10]) ∧
      Replaces files s (a ++ ownContent files e ++ [10]) := by
  have hname := h.expression_name (Or.inr rfl)
  constructor
  · rw [h.includeRound_eq, hname]
    dsimp only
    rw [if_pos (List.length_pos_iff.mpr hraw), ownContent]
    simp only [List.append_assoc, List.drop_succ_cons, List.drop_nil, List.append_nil]
  · exact ⟨a, e, [10], h, hname, rfl⟩

end IncludeAt

theorem includeRound_eq_none_iff {s : Bytes} :
    includeRound files s = none ↔ ¬ includeTag <:+: s := by
  unfold includeRound
  cases hfirst : firstOcc includeTag s with
  | none =>
    have hocc : ¬ occursIn includeTag s = true := by simp [occursIn, hfirst]
    rw [occursIn_iff (by decide)] at hocc
    exact ⟨fun _ => hocc, fun _ => rfl⟩
  | some mark1 =>
    have hocc : occursIn includeTag s = true := by simp [occursIn, hfirst]
    rw [occursIn_iff (by decide)] at hocc
    refine ⟨fun h => ?_, fun h => absurd hocc h⟩
    dsimp only at h
    split at h
    · cases h
    · split_ifs at h

theorem LocalRounds.terminates {s t : Bytes} (h : LocalRounds files s t) :
    (∃ n, handleRecursiveInclude files n s = some t) ∧ ¬ includeTag <:+: t := by
  induction h with
  | done hnone =>
    refine ⟨⟨1, ?_⟩, includeRound_eq_none_iff.mp hnone⟩
    rw [handleRecursiveInclude, hnone]
  | round hround _ _ ih =>
    obtain ⟨⟨n, hn⟩, hend⟩ := ih
    refine ⟨⟨n+1, ?_⟩, hend⟩
    rw [handleRecursiveInclude, hround]
    exact hn

/-! ### Every text has an expansion -/

theorem not_includeAt {t : Bytes} (ht : ¬ includeTag <:+: t) (a e r : Bytes) :
    ¬ IncludeAt t a e r := fun h => ht h.tag_infix

theorem readInclude_nil {f : Bytes} (hf : f ∉ files.map Prod.fst) : readInclude files f = [] := by
  have hlookup : files.lookup f = none := by
    rw [List.lookup_eq_none_iff]
    intro p hp
    have hne : f ≠ p.1 := fun heq => hf (heq ▸ List.mem_map_of_mem hp)
    exact bne_iff_ne.mpr hne
  unfold readInclude
  rw [hlookup]
  split <;> rfl

/-- A text has an expansion when the files named in it have one. -/
theorem exists_expansion_of_named {s : Bytes}
    (h : ∀ e, includeTag <+: e ++ includeEnd → e ++ includeEnd <:+: s →
      ∃ c, Expansion files (ownContent files e) c) : ∃ t, Expansion files s t := by
  induction hlen : s.length using Nat.strong_induction_on generalizing s with
  | h n ih =>
    by_cases hat : ∃ a e r, IncludeAt s a e r
    · obtain ⟨a, e, r, hat⟩ := hat
      have htag : includeTag <+: e ++ includeEnd := by
        have hlast := hat.last.tag_prefix
        rwa [List.append_nil] at hlast
      have hin : e ++ includeEnd <:+: s := ⟨a, r, hat.eq.symm⟩
      have hrest : r <:+: s := ⟨a ++ (e ++ includeEnd), [], by rw [List.append_nil, ← hat.eq]⟩
      have hshort : r.length < n := by
        have hend : includeEnd.length = 2 := by decide
        rw [← hlen, hat.eq]
        simp only [List.length_append]
        omega
      obtain ⟨c, hc⟩ := h e htag hin
      obtain ⟨t, ht⟩ := ih r.length hshort (fun e' htag' hin' => h e' htag' (hin'.trans hrest)) rfl
      exact ⟨_, .element hat hc ht⟩
    · exact ⟨s, .plain fun a e r hin => hat ⟨a, e, r, hin⟩⟩

/-- One of the files is included in another one, over any number of files. -/
def IncludedIn (files : ScriptFiles) (g f : {f // f ∈ files.map Prod.fst}) : Prop :=
  Relation.TransGen (Includes files) f.1 g.1

theorem Acyclic.wellFounded (h : Acyclic files) : WellFounded (IncludedIn files) := by
  have htrans : IsTrans _ (IncludedIn files) := ⟨fun _ _ _ hab hbc => hbc.trans hab⟩
  have hirrefl : Std.Irrefl (IncludedIn files) := ⟨fun f => h f.1⟩
  exact Finite.wellFounded_of_trans_of_irrefl _

/-- With no cycle among finitely many files, every text has an expansion. -/
theorem Acyclic.exists_expansion (h : Acyclic files) (s : Bytes) : ∃ t, Expansion files s t := by
  have hfiles : ∀ f, ∃ t, Expansion files (unwrapped (readInclude files f)) t := by
    have hmissing : ∀ f, f ∉ files.map Prod.fst →
        ∃ t, Expansion files (unwrapped (readInclude files f)) t := by
      intro f hf
      have hempty : unwrapped (readInclude files f) = [] := by
        rw [readInclude_nil hf]
        decide
      have hnil : ¬ includeTag <:+: ([] : Bytes) := by decide
      rw [hempty]
      exact ⟨[], .plain (not_includeAt hnil)⟩
    intro f
    by_cases hf : f ∈ files.map Prod.fst
    · suffices hall : ∀ f : {f // f ∈ files.map Prod.fst},
          ∃ t, Expansion files (unwrapped (readInclude files f.1)) t from hall ⟨f, hf⟩
      intro f
      induction f using h.wellFounded.induction with
      | h f ih =>
        apply exists_expansion_of_named
        intro e htag hin
        by_cases hg : getQoutedValue (e ++ includeEnd) ∈ files.map Prod.fst
        · exact ih ⟨_, hg⟩ (.single ⟨e, htag, hin, rfl⟩)
        · exact hmissing _ hg
    · exact hmissing f hf
  exact exists_expansion_of_named fun e _ _ => hfiles _

/-! ### When nothing is dropped -/

theorem Expansion.nil {t : Bytes} (h : Expansion files [] t) : t = [] := by
  cases h with
  | plain => rfl
  | element hat _ _ =>
    have hnil := List.eq_nil_of_infix_nil hat.tag_infix
    exact absurd hnil (by decide)

namespace EndsInInclude

variable {x t : Bytes}

theorem expansion (h : EndsInInclude files x t) (ht : ¬ includeTag <:+: t) :
    Expansion files x t := by
  induction h with
  | plain => exact .plain (not_includeAt ht)
  | @element x a e t hat _ _ ih =>
    have hrest : ¬ includeTag <:+: ([] : Bytes) := by decide
    have hc := ih fun h => ht (h.trans (List.suffix_append a t).isInfix)
    have hx := Expansion.element hat hc (.plain (not_includeAt hrest))
    rwa [List.append_nil] at hx

theorem expansion_newline (h : EndsInInclude files x t) (ht : ¬ includeTag <:+: t ++ [10]) :
    Expansion files (x ++ [10]) (t ++ [10]) := by
  cases h with
  | plain => exact .plain (not_includeAt ht)
  | @element x a e t hat hraw hends =>
    have hfront : ¬ includeTag <:+: [] ++ a := by
      intro hin
      apply ht
      rw [List.append_assoc]
      exact hin.trans (List.prefix_append _ _).isInfix
    have hc : ¬ includeTag <:+: t := by
      intro hin
      apply ht
      rw [List.append_assoc]
      exact (hin.trans (List.prefix_append _ [10]).isInfix).trans (List.suffix_append _ _).isInfix
    have hrest : ¬ includeTag <:+: ([10] : Bytes) := by decide
    exact .element (hat.extend hfront [10]) (hends.expansion hc) (.plain (not_includeAt hrest))

/-- The rounds of such a text with a newline behind it, whatever is before it: the prefix grows from
file to file. -/
theorem rounds (h : EndsInInclude files x t) {p : Bytes} (ht : ¬ includeTag <:+: p ++ t ++ [10]) :
    LocalRounds files (p ++ x ++ [10]) (p ++ t ++ [10]) := by
  induction h generalizing p with
  | plain => exact .done (includeRound_eq_none_iff.mpr ht)
  | @element x a e t hat hraw _ ih =>
    have hsame : p ++ (a ++ t) ++ [10] = p ++ a ++ t ++ [10] := by rw [← List.append_assoc p]
    rw [hsame] at ht ⊢
    have hfront : ¬ includeTag <:+: p ++ a := by
      intro hin
      apply ht
      rw [List.append_assoc]
      exact hin.trans (List.prefix_append _ _).isInfix
    obtain ⟨hround, hlocal⟩ := (hat.extend hfront [10]).replaces_newline hraw
    exact .round hround hlocal (ih ht)

end EndsInInclude

/-- A text whose rounds are all local ends in its only element: the newline behind it stays behind
what each round puts there. -/
theorem Expansion.endsInInclude {x t : Bytes} (h : Expansion files x t) {p u : Bytes}
    (hrounds : LocalRounds files (p ++ x ++ [10]) u) (ht : ¬ includeTag <:+: p ++ t) :
    EndsInInclude files x t := by
  induction h generalizing p with
  | plain => exact .plain
  | @element x a e r c t hat _ hr ihc _ =>
    have hfront : ¬ includeTag <:+: p ++ a := by
      intro hin
      apply ht
      rw [List.append_assoc, ← List.append_assoc]
      exact hin.trans (List.prefix_append _ _).isInfix
    have hat' := hat.extend hfront [10]
    cases hrounds with
    | done hnone => exact absurd hat'.tag_infix (includeRound_eq_none_iff.mp hnone)
    | round hround hlocal hrest =>
      obtain ⟨rfl, ⟨-, hempty⟩ | ⟨hraw, hnewline⟩⟩ := hat'.rest_of_replaces hround hlocal
      · exact absurd hempty (List.append_ne_nil_of_right_ne_nil _ (List.cons_ne_nil _ _))
      · have hnil : r = [] := List.append_cancel_right (hnewline.trans (List.nil_append _).symm)
        subst hnil
        obtain rfl := hr.nil
        rw [List.append_nil] at ht ⊢
        rw [List.nil_append] at hrest
        exact .element hat hraw (ihc hrest (by rwa [List.append_assoc]))

/-- For every text and all files: the loop ends with the expansion of the text, changing nothing
else, exactly if the text is one whose rounds drop and add nothing. -/
theorem expandsLocally_iff (files : ScriptFiles) (s : Bytes) :
    ExpandsLocally files s ↔ KeepsRest files s := by
  constructor
  · intro h
    obtain ⟨t, -, hexpands, hrounds, -⟩ := h
    have ht := hrounds.terminates.2
    cases hrounds with
    | done hnone => exact .inl ht
    | round hround hlocal hrest =>
      obtain ⟨a, e, r, hat, -⟩ := id hlocal
      obtain ⟨rfl, ⟨hraw, rfl⟩ | ⟨hraw, rfl⟩⟩ := hat.rest_of_replaces hround hlocal
      · exact .inr (.inl ⟨a, e, hat, hraw⟩)
      · refine .inr (.inr ?_)
        cases hexpands with
        | plain hnone => exact absurd hat (hnone a e [10])
        | @element _ a' e' r' c t' hat' hc ht' =>
          obtain ⟨rfl, rfl, rfl⟩ := hat.unique hat'
          have hend : t' = [10] := by
            cases ht' with
            | plain => rfl
            | element hin _ _ =>
              have hlen := hin.tag_infix.length_le
              exact absurd hlen (by decide)
          subst hend
          have hin : ¬ includeTag <:+: a' ++ c := fun h =>
            ht (h.trans (List.prefix_append _ _).isInfix)
          have hlast : IncludeAt (a' ++ (e' ++ includeEnd)) a' e' [] := hat.last
          exact ⟨a' ++ (e' ++ includeEnd), a' ++ c, hat.eq, .element hlast hraw
            (hc.endsInInclude hrest hin), hin⟩
  · intro h
    rcases h with hnone | ⟨a, e, hat, hraw⟩ | ⟨x, t, rfl, hends, ht⟩
    · have hdone : LocalRounds files s s := .done (includeRound_eq_none_iff.mpr hnone)
      exact ⟨s, hdone.terminates.1, .plain (not_includeAt hnone), hdone, not_includeAt hnone⟩
    · obtain ⟨hround, hlocal⟩ := hat.replaces_nil hraw
      have hfront : ¬ includeTag <:+: a := hat.not_infix_front
      have hown : ownContent files e = [] := by
        unfold ownContent
        rw [hraw]
        decide
      have hnil : ¬ includeTag <:+: ([] : Bytes) := by decide
      have hrounds := LocalRounds.round hround hlocal
        (.done (includeRound_eq_none_iff.mpr hfront))
      have hempty : Expansion files [] [] := .plain (not_includeAt hnil)
      have hcontent : Expansion files (ownContent files e) [] := by
        rw [hown]
        exact hempty
      have hexpands := Expansion.element hat hcontent hempty
      rw [List.append_nil, List.append_nil] at hexpands
      exact ⟨a, hrounds.terminates.1, hexpands, hrounds, not_includeAt hfront⟩
    · have hnone : ¬ includeTag <:+: t ++ [10] := by
        rw [← occursIn_iff (by decide), occursIn_append_cons (by decide) (by decide),
          occursIn_iff (by decide)]
        have hnil : ¬ occursIn includeTag [] = true := by decide
        exact fun h => h.elim ht hnil
      have hrounds := hends.rounds (p := []) hnone
      exact ⟨t ++ [10], hrounds.terminates.1, hends.expansion_newline hnone, hrounds,
        not_includeAt hnone⟩

/-- Two characters behind the element are lost and a newline is added, with one file that includes
nothing. -/
theorem include_drops_rest : ¬ ∀ (files : ScriptFiles) (s : Bytes), Acyclic files →
    ExpandsLocally files s := by
  intro h
  have hat : IncludeAt (bytes "<include file=\"a\"/>cd") [] (bytes "<include file=\"a\"")
      (bytes "cd") :=
    { eq := by decide
      first := by decide
      closed := by decide }
  have hacyclic : Acyclic [(bytes "a", bytes "b")] := by
    intro f hcycle
    obtain ⟨g, hincludes⟩ : ∃ g, Includes [(bytes "a", bytes "b")] f g := by
      cases hcycle using Relation.TransGen.head_induction_on with
      | single hincludes => exact ⟨_, hincludes⟩
      | head hincludes _ _ => exact ⟨_, hincludes⟩
    obtain ⟨e, htag, hin, -⟩ := hincludes
    have hshort : (unwrapped (readInclude [(bytes "a", bytes "b")] f)).length ≤ 1 := by
      by_cases hf : f = bytes "a"
      · subst hf
        decide
      · have hempty : readInclude [(bytes "a", bytes "b")] f = [] :=
          readInclude_nil fun hmem => hf (List.mem_singleton.mp hmem)
        rw [hempty]
        decide
    have hlong : includeTag.length = 8 := by decide
    have hle := htag.length_le
    have hle' := hin.length_le
    omega
  obtain ⟨t, -, -, hrounds, -⟩ := h _ _ hacyclic
  cases hrounds with
  | done hnone => exact includeRound_eq_none_iff.mp hnone hat.tag_infix
  | round hround hlocal _ =>
    rcases (hat.rest_of_replaces hround hlocal).2 with ⟨-, hr⟩ | ⟨-, hr⟩
    · exact absurd hr (by decide)
    · exact absurd hr (by decide)

end MsgCourier
