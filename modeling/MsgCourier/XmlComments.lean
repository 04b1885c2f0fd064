import MsgCourier.XmlReading

/-! What a comment in the content of an element does to the elements that `Parse` returns. -/
namespace MsgCourier
open ListSearch CText

namespace Scanner

variable {a b c : Scanner} {rest r w w' : Bytes}

/-! ### In front of the comment -/

/-- A step takes something from the front of the input. -/
theorem step_suffix (hstep : a.step rest = some (b, r)) : r <:+ rest ∧ r.length < rest.length := by
  cases rest with
  | nil => cases hstep
  | cons ch rest =>
    have hdrop (n : ℕ) : (ch :: rest).drop (n+1) <:+ ch :: rest ∧
        ((ch :: rest).drop (n+1)).length < (ch :: rest).length := by
      refine ⟨List.drop_suffix _ _, ?_⟩
      rw [List.length_drop, List.length_cons]
      omega
    unfold step at hstep
    dsimp only at hstep
    split_ifs at hstep
    · unfold markup at hstep
      split_ifs at hstep
      · obtain ⟨k, -, hmoved⟩ := Option.map_eq_some_iff.mp hstep
        cases hmoved
        exact hdrop (k+2)
      · obtain ⟨k, -, hmoved⟩ := Option.bind_eq_some_iff.mp hstep
        split_ifs at hmoved
        cases hmoved
        exact hdrop (k+4)
      · cases hstep
        exact hdrop 0
    · cases hstep
      exact hdrop 0

theorem Reads.suffix {d d' : Scanner × Bytes} (h : Reads d d') : d'.2 <:+ d.2 := by
  induction h with
  | refl => exact List.suffix_rfl
  | tail _ hlast ih => exact (step_suffix hlast).1.trans ih

/-- A pattern that starts with a `<` and has no other one does not reach over the next `<`. -/
theorem prefix_before {p u : Bytes} (hp : 60 ∉ p) (hu : u ≠ [])
    (h : 60 :: p <+: u ++ 60 :: w) : 60 :: p <+: u := by
  obtain ⟨ch, v, rfl⟩ := List.exists_cons_of_ne_nil hu
  rw [List.cons_append, List.cons_prefix_cons] at h
  rcases prefix_drop_append_cons (k := 0) hp h.2 with hin | ⟨hlt, -⟩
  · exact List.cons_prefix_cons.mpr ⟨h.1, hin⟩
  · exact absurd hlt (Nat.not_lt_zero _)

/-- What ends in front of the place does not depend on what follows there. -/
theorem prefix_replace {p u : Bytes} (hlen : p.length ≤ u.length) (h : p <+: u ++ w) :
    p <+: u ++ w' :=
  (List.prefix_of_prefix_length_le h (List.prefix_append u w) hlen).trans (List.prefix_append u w')

/-- What is left behind `n` elements in front of the place. -/
theorem drop_before {u v : Bytes} {n : ℕ} (hn : n ≤ (u ++ w).length)
    (h : (u ++ w).drop n = v ++ w) : n ≤ u.length ∧ u.drop n = v := by
  have hlen := congrArg List.length h
  rw [List.length_drop, List.length_append, List.length_append] at hlen
  rw [List.length_append] at hn
  have hle : n ≤ u.length := by omega
  rw [List.drop_append_of_le_length hle] at h
  exact ⟨hle, List.append_cancel_right h⟩

/-- What is found in front of the place is found there before anything else. -/
theorem firstOcc_before {p u : Bytes} (hp : p ≠ []) {k : ℕ} (hk : firstOcc p (u ++ w) = some k)
    (hle : k+p.length ≤ u.length) : firstOcc p (u ++ w') = some k :=
  firstOcc_append hp (firstOcc_of_append hp hk hle) _

/-- A comment's end is not at its start. -/
theorem commentEnd_pos {u : Bytes} {k : ℕ} (hstart : bytes "<!--" <+: u)
    (hk : firstOcc (bytes "-->") u = some k) : 0 < k := by
  refine Nat.pos_of_ne_zero fun hzero => ?_
  obtain ⟨r, rfl⟩ := hstart
  have hmatch := ((firstOcc_eq_some_iff (by decide)).mp hk).1
  rw [hzero] at hmatch
  exact absurd (List.cons_prefix_cons.mp hmatch).1 (by decide)

/-- A step that stays in front of the place is the same when a comment follows there. -/
theorem step_before {u v : Bytes} (hu : u ≠ []) (hstep : a.step (u ++ w) = some (b, v ++ w)) :
    a.step (u ++ 60 :: w') = some (b, v ++ 60 :: w') := by
  obtain ⟨ch, r, rfl⟩ := List.exists_cons_of_ne_nil hu
  by_cases hch : ch = 60
  · subst hch
    change a.markup (60 :: r ++ w) = some (b, v ++ w) at hstep
    change a.markup (60 :: r ++ 60 :: w') = some (b, v ++ 60 :: w')
    unfold markup at hstep ⊢
    by_cases hstart : bytes "<!--" <+: 60 :: r ++ w
    · rw [if_pos hstart] at hstep
      obtain ⟨k, hk, hmoved⟩ := Option.map_eq_some_iff.mp hstep
      obtain ⟨hb, hrest⟩ := Prod.mk.inj hmoved
      have hfits : k+3 ≤ (60 :: r ++ w).length := firstOcc_le _ hk
      obtain ⟨hle, hv⟩ := drop_before hfits hrest
      have hpos := commentEnd_pos hstart hk
      have hfour : (bytes "<!--").length ≤ (60 :: r).length :=
        (show 4 ≤ k+3 by omega).trans hle
      rw [if_pos (prefix_replace hfour hstart), firstOcc_before (by decide) hk hle, Option.map_some,
        List.drop_append_of_le_length hle, hv, ← hb, List.take_append_of_le_length hle,
        List.take_append_of_le_length hle]
    · rw [if_neg hstart] at hstep
      have hstart' : ¬ bytes "<!--" <+: 60 :: r ++ 60 :: w' := fun h =>
        hstart ((prefix_before (p := bytes "!--") (by decide) hu h).trans (List.prefix_append _ w))
      rw [if_neg hstart']
      by_cases hsection : bytes "<![CDATA" <+: 60 :: r ++ w
      · rw [if_pos hsection] at hstep
        obtain ⟨k, hk, hmoved⟩ := Option.bind_eq_some_iff.mp hstep
        split_ifs at hmoved with hfull
        obtain ⟨hsome, hnine, hmem⟩ := hfull
        obtain ⟨hb, hrest⟩ := Prod.mk.inj (Option.some.inj hmoved)
        have hfits : k+5 ≤ (60 :: r ++ w).length := by
          by_contra hgt
          rw [List.drop_eq_nil_of_le (by omega)] at hmem
          cases hmem
        obtain ⟨hle, hv⟩ := drop_before hfits hrest
        have hle' : k+(bytes "]]>").length ≤ (60 :: r).length :=
          (Nat.add_le_add_left (show 3 ≤ 5 by decide) k).trans hle
        have height : (bytes "<![CDATA").length ≤ (60 :: r).length :=
          (show 8 ≤ k+5 by omega).trans hle
        have hmem' : 60 ∈ (60 :: r ++ 60 :: w').drop (k+5) := by
          rw [List.drop_append_of_le_length hle]
          exact List.mem_append_right _ List.mem_cons_self
        have hblock (q : Bytes) :
            ((60 :: r ++ q).drop 9).take (k-9) = ((60 :: r).drop 9).take (k-9) := by
          rw [List.drop_append_of_le_length (by omega),
            List.take_append_of_le_length (by rw [List.length_drop]; omega)]
        rw [if_pos (prefix_replace height hsection), firstOcc_before (by decide) hk hle',
          Option.bind_some, if_pos ⟨hsome, hnine, hmem'⟩,
          List.drop_append_of_le_length hle, hv, ← hb, List.take_append_of_le_length hle,
          List.take_append_of_le_length hle, hblock, hblock]
      · rw [if_neg hsection] at hstep
        have hsection' : ¬ bytes "<![CDATA" <+: 60 :: r ++ 60 :: w' := fun h => hsection
          ((prefix_before (p := bytes "![CDATA") (by decide) hu h).trans (List.prefix_append _ w))
        obtain ⟨hb, hrest⟩ := Prod.mk.inj (Option.some.inj hstep)
        rw [if_neg hsection', ← hb, ← show r = v from List.append_cancel_right hrest]
        rfl
  · have hbyte (q : Bytes) : a.step (ch :: r ++ q) = some (a.byte ch, r ++ q) := if_neg hch
    rw [hbyte] at hstep ⊢
    obtain ⟨hb, hrest⟩ := Prod.mk.inj (Option.some.inj hstep)
    rw [hb, List.append_cancel_right hrest]

/-- The scanner gets to the place where the comment is. -/
theorem Reads.before {u : Bytes} {d : Scanner × Bytes} (h : Reads d (b, w)) (hd : d.2 = u ++ w) :
    Reads (d.1, u ++ 60 :: w') (b, 60 :: w') := by
  induction h using Relation.ReflTransGen.head_induction_on generalizing u with
  | refl =>
    have hnil : u = [] := List.append_left_eq_self.mp hd.symm
    rw [hnil]
    exact .refl
  | @head d e hstep hrest ih =>
    obtain ⟨a, rest⟩ := d
    obtain ⟨a', rest'⟩ := e
    obtain ⟨v, hv⟩ := Reads.suffix hrest
    dsimp only at hd hv hstep
    subst hd hv
    have hu : u ≠ [] := by
      rintro rfl
      have hlt := (step_suffix hstep).2
      rw [List.length_append, List.nil_append] at hlt
      omega
    exact (ih rfl).head (step_before hu hstep)

/-! ### Behind the comment -/

/-- The next step does not copy the document from its start. -/
def Local (a : Scanner) : Bytes → Prop
  | [] => True
  | ch :: _ => (ch = 62 → a.mode ≠ .skip → a.tag ≠ none) ∧
      (ch = 9 → a.mode = .tag → a.inQoute = false → a.attrib ≠ none)

instance (a : Scanner) : (rest : Bytes) → Decidable (a.Local rest)
  | [] => isTrue trivial
  | _ :: _ => inferInstanceAs (Decidable (_ ∧ _))

/-- The next step does not, and neither do the `n` steps behind it, with which the input ends. -/
def localFor : ℕ → Scanner × Bytes → Bool
  | 0, _ => false
  | n+1, c => decide (c.1.Local c.2) && ((c.1.step c.2).map (localFor n)).getD true

theorem local_of_localFor {n : ℕ} {c d : Scanner × Bytes} (h : localFor n c = true)
    (hread : Reads c d) : d.1.Local d.2 := by
  induction n generalizing c with
  | zero => cases h
  | succ n ih =>
    obtain ⟨hfirst, hrest⟩ := Bool.and_eq_true_iff.mp h
    cases hread.cases_head with
    | inl heq => exact heq ▸ of_decide_eq_true hfirst
    | inr hnext =>
      obtain ⟨e, he, hread⟩ := hnext
      rw [he] at hrest
      exact ih hrest hread

/-- The scanner behind another beginning of the document. -/
def behind (a : Scanner) (w : Bytes) (l : List XmlElement) : Scanner :=
  { a with seen := w, elements := l }

variable (w : Bytes) (l : List XmlElement)

/-- No element has been completed. -/
theorem behind_of_eq {x : Scanner} {w' : Bytes} (hb : b.elements = a.elements)
    (hx : x = b.behind w' l) :
    ∃ more, b.elements = a.elements ++ more ∧ x = b.behind w' (l ++ more) := by
  refine ⟨[], ?_, ?_⟩
  · rw [hb, List.append_nil]
  · rw [hx, List.append_nil]

theorem closeTag_behind (htag : a.tag ≠ none) : ∃ more, a.closeTag.elements = a.elements ++ more ∧
    (a.behind w l).closeTag = a.closeTag.behind (w ++ [62]) (l ++ more) := by
  obtain ⟨t, ht⟩ := Option.ne_none_iff_exists'.mp htag
  unfold closeTag behind
  dsimp only
  rw [ht]
  exact ⟨_, rfl, rfl⟩

theorem inTag_behind {ch : Byte} (hlocal : ch = 9 → a.inQoute = false → a.attrib ≠ none) :
    (a.inTag ch).elements = a.elements ∧
      (a.behind w l).inTag ch = (a.inTag ch).behind (w ++ [ch]) l := by
  unfold inTag behind
  dsimp only
  by_cases hquote : ch = 34
  · rw [if_pos hquote, if_pos hquote]
    exact ⟨rfl, rfl⟩
  · rw [if_neg hquote, if_neg hquote]
    by_cases hfirst : ch = 32 ∧ a.attrib = none
    · rw [if_pos hfirst, if_pos hfirst]
      exact ⟨rfl, rfl⟩
    · rw [if_neg hfirst, if_neg hfirst]
      by_cases hsep : (ch = 32 ∨ ch = 9) ∧ a.inQoute = false
      · have hattrib : a.attrib ≠ none := by
          rcases hsep.1 with h32 | h9
          · exact fun hnone => hfirst ⟨h32, hnone⟩
          · exact hlocal h9 hsep.2
        obtain ⟨u, hu⟩ := Option.ne_none_iff_exists'.mp hattrib
        rw [if_pos hsep, if_pos hsep]
        unfold separator
        dsimp only
        rw [hu]
        exact ⟨rfl, rfl⟩
      · rw [if_neg hsep, if_neg hsep]
        exact ⟨rfl, rfl⟩

theorem byte_behind {ch : Byte} (hlocal : a.Local (ch :: rest)) :
    ∃ more, (a.byte ch).elements = a.elements ++ more ∧
      (a.behind w l).byte ch = (a.byte ch).behind (w ++ [ch]) (l ++ more) := by
  by_cases hskip : a.mode = .skip
  · rw [byte_skip (a := a.behind w l) hskip, byte_skip hskip]
    exact behind_of_eq l rfl rfl
  · by_cases hgt : ch = 62
    · subst hgt
      rw [byte_close (a := a.behind w l) hskip, byte_close hskip]
      exact closeTag_behind w l (hlocal.1 rfl hskip)
    · have hmode : (∃ scanned, a.mode = .text scanned) ∨ a.mode = .tag := by
        cases h : a.mode with
        | text scanned => exact .inl ⟨scanned, rfl⟩
        | tag => exact .inr rfl
        | skip => exact absurd h hskip
      rcases hmode with ⟨scanned, hmode⟩ | hmode
      · rw [byte_text (a := a.behind w l) hmode hgt, byte_text hmode hgt]
        exact behind_of_eq l rfl rfl
      · obtain ⟨hsame, hin⟩ := inTag_behind w l fun h9 => hlocal.2 h9 hmode
        rw [byte_tag (a := a.behind w l) hmode hgt, byte_tag hmode hgt]
        exact behind_of_eq l hsame hin

/-- Such a step is the same behind another beginning of the document. -/
theorem step_behind (hlocal : a.Local rest) (hstep : a.step rest = some (b, r)) :
    ∃ w' more, b.elements = a.elements ++ more ∧
      (a.behind w l).step rest = some (b.behind w' (l ++ more), r) := by
  cases rest with
  | nil => cases hstep
  | cons ch rest =>
    by_cases hch : ch = 60
    · subst hch
      change a.markup (60 :: rest) = some (b, r) at hstep
      change ∃ w' more, b.elements = a.elements ++ more ∧
        (a.behind w l).markup (60 :: rest) = some (b.behind w' (l ++ more), r)
      unfold markup at hstep ⊢
      by_cases hstart : bytes "<!--" <+: 60 :: rest
      · rw [if_pos hstart] at hstep ⊢
        obtain ⟨k, hk, hmoved⟩ := Option.map_eq_some_iff.mp hstep
        cases hmoved
        rw [hk]
        refine ⟨w ++ (60 :: rest).take (k+3), [], (List.append_nil _).symm, ?_⟩
        rw [List.append_nil]
        rfl
      · rw [if_neg hstart] at hstep ⊢
        by_cases hsection : bytes "<![CDATA" <+: 60 :: rest
        · rw [if_pos hsection] at hstep ⊢
          obtain ⟨k, hk, hmoved⟩ := Option.bind_eq_some_iff.mp hstep
          split_ifs at hmoved with hfull
          cases hmoved
          have hfull' : (a.behind w l).pElement.isSome ∧ 9 ≤ k ∧ 60 ∈ (60 :: rest).drop (k+5) :=
            hfull
          rw [hk, Option.bind_some, if_pos hfull']
          refine ⟨w ++ (60 :: rest).take (k+5), [], (List.append_nil _).symm, ?_⟩
          rw [List.append_nil]
          rfl
        · rw [if_neg hsection] at hstep ⊢
          cases hstep
          exact ⟨_, _, rfl, rfl⟩
    · have hbyte (c : Scanner) : c.step (ch :: rest) = some (c.byte ch, rest) := if_neg hch
      rw [hbyte] at hstep ⊢
      cases hstep
      obtain ⟨more, hmore, hsame⟩ := byte_behind w l hlocal
      rw [hsame]
      exact ⟨_, more, hmore, rfl⟩

variable {w l}

/-- A way on which no step copies the document from its start. -/
theorem Reads.behind {d : Scanner × Bytes} (h : Reads d (b, r))
    (hlocal : ∀ c q, Reads (d.1.behind w l, d.2) (c, q) → c.Local q) :
    ∃ w' more, b.elements = d.1.elements ++ more ∧
      Reads (d.1.behind w l, d.2) (b.behind w' (l ++ more), r) := by
  induction h using Relation.ReflTransGen.head_induction_on generalizing w l with
  | refl => exact ⟨w, [], (List.append_nil _).symm, by rw [List.append_nil]; exact .refl⟩
  | @head d e hstep _ ih =>
    obtain ⟨a, rest⟩ := d
    obtain ⟨a', rest'⟩ := e
    have hfirst : a.Local rest := hlocal (a.behind w l) rest .refl
    obtain ⟨w', more, hmore, hw'⟩ := step_behind w l hfirst hstep
    obtain ⟨v, more', hmore', hv⟩ := ih fun c q hread => hlocal c q (hread.head hw')
    refine ⟨v, more ++ more', ?_, ?_⟩
    · rw [hmore', hmore, List.append_assoc]
    · rw [← List.append_assoc]
      exact hv.head hw'

/-- The scanner is in the content of an element. -/
structure InContent (a : Scanner) : Prop where
  mode : a.mode ≠ .tag
  tag : a.tag = none
  attrib : a.attrib = none
  element : a.pElement.isSome

/-- The scanner behind text. -/
def read (a : Scanner) (v : Bytes) : Scanner :=
  { a.pass v with
    mode := match a.mode with
      | .text scanned => .text (scanned.map (· ++ v))
      | .tag => .tag
      | .skip => .skip }

theorem read_nil (a : Scanner) : a.read [] = a := by
  obtain ⟨seen, mode, inQoute, tag, attrib, elements, pElement⟩ := a
  unfold read pass
  cases mode with
  | text scanned => simp
  | tag => simp
  | skip => simp

theorem read_read (a : Scanner) (u v : Bytes) : (a.read u).read v = a.read (u ++ v) := by
  obtain ⟨seen, mode, inQoute, tag, attrib, elements, pElement⟩ := a
  unfold read pass
  cases mode with
  | text scanned => simp [Function.comp_def]
  | tag => simp [Function.comp_def]
  | skip => simp [Function.comp_def]

theorem read_mode (hmode : a.mode ≠ .tag) (v : Bytes) : (a.read v).mode ≠ .tag := by
  unfold read
  cases hm : a.mode with
  | text scanned => exact ScanMode.noConfusion
  | tag => exact absurd hm hmode
  | skip => exact ScanMode.noConfusion

theorem byte_read {ch : Byte} (hmode : a.mode ≠ .tag) (hgt : ch ≠ 62) :
    a.byte ch = a.read [ch] := by
  obtain ⟨seen, mode, inQoute, tag, attrib, elements, pElement⟩ := a
  cases mode with
  | text scanned => exact byte_text rfl hgt
  | tag => exact absurd rfl hmode
  | skip => rfl

/-- Text without markup is read up to its end. -/
theorem reads_text (hmode : a.mode ≠ .tag) {v : Bytes} (hlt : 60 ∉ v) (hgt : 62 ∉ v) (q : Bytes) :
    Reads (a, v ++ q) (a.read v, q) := by
  induction v generalizing a with
  | nil =>
    rw [read_nil]
    exact .refl
  | cons ch v ih =>
    have hch : ch ≠ 60 := fun h => hlt (h ▸ List.mem_cons_self)
    have hch' : ch ≠ 62 := fun h => hgt (h ▸ List.mem_cons_self)
    have hstep : a.step (ch :: v ++ q) = some (a.read [ch], v ++ q) := by
      rw [← byte_read hmode hch']
      exact if_neg hch
    have hrest := ih (read_mode hmode [ch]) (fun h => hlt (List.mem_cons_of_mem ch h))
      fun h => hgt (List.mem_cons_of_mem ch h)
    rw [read_read] at hrest
    exact hrest.head hstep
/-! ### The element in front of the comment -/

/-- The current element has no value yet. -/
def Fresh (a : Scanner) : Prop := ∀ e ∈ a.pElement, e.xmlValue = none

theorem Fresh.closeTag (h : a.Fresh) : a.closeTag.Fresh := by
  intro e he
  unfold Scanner.closeTag at he
  dsimp only at he
  split_ifs at he
  · rw [Option.map_map] at he
    obtain ⟨e', -, rfl⟩ := Option.map_eq_some_iff.mp he
    rfl
  · obtain ⟨e', he', rfl⟩ := Option.map_eq_some_iff.mp he
    exact h e' he'

theorem Fresh.inTag (h : a.Fresh) (ch : Byte) : (a.inTag ch).Fresh := by
  unfold Scanner.inTag
  split_ifs
  · exact h
  · exact h
  · intro e he
    obtain ⟨e', he', rfl⟩ := Option.map_eq_some_iff.mp he
    exact h e' he'
  · exact h

theorem Fresh.byte (h : a.Fresh) (ch : Byte) : (a.byte ch).Fresh := by
  unfold Scanner.byte
  cases a.mode with
  | skip => exact h
  | tag =>
    dsimp only
    split_ifs
    · exact h.closeTag
    · exact h.inTag ch
  | text scanned =>
    dsimp only
    split_ifs
    · exact h.closeTag
    · exact h

theorem Fresh.step (h : a.Fresh) (hstep : a.step rest = some (b, r)) : b.Fresh := by
  cases rest with
  | nil => cases hstep
  | cons ch rest =>
    unfold Scanner.step at hstep
    dsimp only at hstep
    split_ifs at hstep
    · unfold markup at hstep
      split_ifs at hstep
      · obtain ⟨k, -, hmoved⟩ := Option.map_eq_some_iff.mp hstep
        cases hmoved
        exact h
      · obtain ⟨k, -, hmoved⟩ := Option.bind_eq_some_iff.mp hstep
        split_ifs at hmoved
        cases hmoved
        intro e he
        obtain ⟨e', he', rfl⟩ := Option.map_eq_some_iff.mp he
        exact h e' he'
      · cases hstep
        intro e he
        cases he
        rfl
    · cases hstep
      exact h.byte ch

theorem Fresh.reads {d d' : Scanner × Bytes} (h : d.1.Fresh) (hread : Reads d d') : d'.1.Fresh := by
  induction hread with
  | refl => exact h
  | @tail c d _ hlast ih =>
    obtain ⟨a, rest⟩ := c
    obtain ⟨b, r⟩ := d
    exact ih.step hlast

theorem withValue_eq_iff {e : XmlElement} (he : e.xmlValue = none) (v : Bytes) :
    e.withValue v = e ↔ v = [] := by
  unfold XmlElement.withValue
  by_cases hv : v = []
  · rw [if_pos hv]
    exact iff_of_true rfl hv
  · rw [if_neg hv]
    refine iff_of_false (fun heq => ?_) hv
    have hvalue := congrArg XmlElement.xmlValue heq
    rw [he] at hvalue
    cases hvalue

/-- The text around the place, in front of the next markup. -/
def around (a : Scanner) (post : Bytes) : Bytes := (a.read (post.takeWhile (· ≠ 60))).mode.value

/-- The text around the place would become a value: a tag follows it, and it is not blank. -/
def Loses (a : Scanner) (post : Bytes) : Prop :=
  post.dropWhile (· ≠ 60) ≠ [] ∧ ¬ bytes "<!--" <+: post.dropWhile (· ≠ 60) ∧
    ¬ bytes "<![CDATA" <+: post.dropWhile (· ≠ 60) ∧ ParseState.trimmed (a.around post) ≠ []

instance (a : Scanner) (post : Bytes) : Decidable (a.Loses post) :=
  inferInstanceAs (Decidable (_ ∧ _ ∧ _ ∧ _))

/-- At the next markup the two scanners meet again, up to the value of the element. -/
theorem markup_behind {e : XmlElement} {q : Bytes} (hfresh : a.Fresh) (he : a.pElement = some e)
    (hstep : a.markup q = some (b, r)) (w : Bytes) : ∃ w' l,
      (({ a with mode := .text none } : Scanner).behind w a.elements).markup q =
        some (b.behind w' l, r) ∧
      (l = b.elements ↔ ¬ (¬ bytes "<!--" <+: q ∧ ¬ bytes "<![CDATA" <+: q ∧
        ParseState.trimmed a.mode.value ≠ [])) := by
  unfold markup at hstep ⊢
  by_cases hstart : bytes "<!--" <+: q
  · rw [if_pos hstart] at hstep ⊢
    obtain ⟨k, hk, hmoved⟩ := Option.map_eq_some_iff.mp hstep
    cases hmoved
    rw [hk]
    exact ⟨w ++ q.take (k+3), a.elements, rfl, iff_of_true rfl fun h => h.1 hstart⟩
  · rw [if_neg hstart] at hstep ⊢
    by_cases hsection : bytes "<![CDATA" <+: q
    · rw [if_pos hsection] at hstep ⊢
      obtain ⟨k, hk, hmoved⟩ := Option.bind_eq_some_iff.mp hstep
      split_ifs at hmoved with hfull
      cases hmoved
      have hfull' : (({ a with mode := .text none } : Scanner).behind w a.elements).pElement.isSome ∧
          9 ≤ k ∧ 60 ∈ q.drop (k+5) := hfull
      rw [hk, Option.bind_some, if_pos hfull']
      exact ⟨w ++ q.take (k+5), a.elements, rfl, iff_of_true rfl fun h => h.2.1 hsection⟩
    · rw [if_neg hsection] at hstep ⊢
      cases hstep
      refine ⟨w ++ [60], a.elements ++ [e], ?_, ?_⟩
      · unfold openTag behind
        dsimp only
        rw [he]
        rfl
      · have hvalue := withValue_eq_iff (hfresh e he) (ParseState.trimmed a.mode.value)
        unfold openTag
        dsimp only
        rw [he, Option.map_some, Option.toList_some, List.append_right_inj, List.singleton_inj,
          eq_comm, hvalue]
        exact ⟨fun h hno => hno.2.2 h, fun h => by_contra fun hne => h ⟨hstart, hsection, hne⟩⟩

/-- In the text behind the comment no tag ends. -/
theorem notMem_of_local {v q : Bytes} {scanned : Option Bytes} (hmode : a.mode = .text scanned)
    (htag : a.tag = none) (hlt : 60 ∉ v)
    (hlocal : ∀ c r, Reads (a, v ++ q) (c, r) → c.Local r) : 62 ∉ v := by
  intro hin
  obtain ⟨x, y, rfl, hx⟩ := List.eq_append_cons_of_mem hin
  have hread := reads_text (a := a) (by rw [hmode]; exact ScanMode.noConfusion)
    (fun h => hlt (List.mem_append_left _ h)) hx (62 :: y ++ q)
  rw [List.append_assoc] at hlocal
  refine (hlocal _ _ hread).1 rfl ?_ ?_
  · unfold read
    rw [hmode]
    exact ScanMode.noConfusion
  · unfold read pass
    rw [htag]
    rfl

/-- What follows a comment in the content of an element is read as it was without the comment. The
elements are the same if and only if the comment loses no text. -/
theorem InContent.behind_comment {post u : Bytes} (h : a.InContent) (hfresh : a.Fresh)
    (hend : Reads (a, post) (b, []))
    (hlocal : ∀ c q, Reads (a.comment u, post) (c, q) → c.Local q) :
    ∃ b', Reads (a.comment u, post) (b', []) ∧ (b'.finish = b.finish ↔ ¬ a.Loses post) := by
  obtain ⟨e, he⟩ := Option.isSome_iff_exists.mp h.element
  have hsplit : post.takeWhile (· ≠ 60) ++ post.dropWhile (· ≠ 60) = post :=
    List.takeWhile_append_dropWhile
  have hlt : 60 ∉ post.takeWhile (· ≠ 60) := by
    intro hin
    have hne := List.mem_takeWhile_imp (p := fun c : Byte => decide (c ≠ 60)) hin
    exact of_decide_eq_true hne rfl
  have hhead (c : Byte) (q : Bytes) (hq : post.dropWhile (· ≠ 60) = c :: q) : c = 60 := by
    have hnot := List.head?_dropWhile_not (· ≠ 60) post
    rw [hq] at hnot
    simpa using hnot
  unfold Loses around
  generalize post.takeWhile (· ≠ 60) = v at hsplit hlt ⊢
  generalize post.dropWhile (· ≠ 60) = q at hsplit hhead ⊢
  subst hsplit
  -- both scanners read the text up to the next markup
  have hgt : 62 ∉ v := notMem_of_local rfl (congrArg (Option.map _) h.tag) hlt hlocal
  have hfirst := reads_text h.mode hlt hgt q
  have hsecond : Reads (a.comment u, v ++ q)
      (({ a.read v with mode := .text none } : Scanner).behind (a.seen ++ u ++ v)
        a.elements, q) := by
    have hread := reads_text (a := a.comment u) ScanMode.noConfusion hlt hgt q
    have hsame : (a.comment u).read v =
        ({ a.read v with mode := .text none } : Scanner).behind (a.seen ++ u ++ v) a.elements := by
      unfold comment read behind pass
      dsimp only
      rw [h.tag, h.attrib]
      rfl
    rwa [hsame] at hread
  cases q with
  | nil =>
    cases (hend.to_end hfirst).end_eq
    exact ⟨_, hsecond, iff_of_true rfl fun hlost => hlost.1 rfl⟩
  | cons c q =>
    obtain rfl := hhead c q rfl
    have hrest := hend.to_end hfirst
    obtain ⟨⟨a', r⟩, hstep⟩ := hrest.goes_on (List.cons_ne_nil _ _)
    obtain ⟨w, l, hmarkup, hsame⟩ := markup_behind (e := e)
      (Fresh.reads (d := (a, v ++ 60 :: q)) hfresh hfirst) he hstep (a.seen ++ u ++ v)
    have hthird := hsecond.tail hmarkup
    obtain ⟨w', more, hmore, hlast⟩ := Reads.behind (hrest.to_end (.single hstep)) fun c q hread =>
      hlocal c q (hthird.trans hread)
    refine ⟨_, hthird.trans hlast, ?_⟩
    have hfinish : (b.behind w' (l ++ more)).finish = b.finish ↔ l = a'.elements := by
      unfold finish behind
      dsimp only
      rw [hmore, List.append_left_inj, List.append_left_inj]
    rw [hfinish, hsame]
    exact not_congr (and_iff_right (List.cons_ne_nil _ _)).symm

end Scanner

/-! ### Documents with and without the comment -/

/-- A comment in the input. -/
def commentText (body : Bytes) : Bytes := bytes "<!--" ++ body ++ bytes "-->"

/-- The first `-->` behind the start of the comment is its own end. -/
def EndsItself (body : Bytes) : Prop :=
  firstOcc (bytes "-->") (commentText body) = some (body.length+4)

instance (body : Bytes) : Decidable (EndsItself body) := inferInstanceAs (Decidable (_ = _))

namespace Scanner

variable {a b : Scanner} {pre body post : Bytes}

theorem step_comment (hbody : EndsItself body) :
    a.step (commentText body ++ post) = some (a.comment (commentText body), post) := by
  have hlen : (commentText body).length = body.length+4+3 := by
    unfold commentText
    rw [List.length_append, List.length_append]
    change 4+body.length+3 = body.length+4+3
    omega
  have hfound : firstOcc (bytes "-->") (commentText body ++ post) = some (body.length+4) :=
    firstOcc_append (by decide) hbody post
  have hstart : bytes "<!--" <+: commentText body ++ post := by
    unfold commentText
    rw [List.append_assoc, List.append_assoc]
    exact List.prefix_append _ _
  change a.markup (commentText body ++ post) = _
  unfold markup
  rw [if_pos hstart, hfound, Option.map_some, ← hlen, List.take_left, List.drop_left]

/-- The scanner gets to the comment as it gets to its place in the document without it. -/
theorem reads_to_comment (hpre : Reads ({}, pre ++ post) (a, post)) (hbody : EndsItself body) :
    Reads ({}, pre ++ (commentText body ++ post)) (a.comment (commentText body), post) := by
  have hbefore : Reads ({}, pre ++ (commentText body ++ post)) (a, commentText body ++ post) :=
    Reads.before hpre rfl
  exact hbefore.tail (step_comment hbody)

end Scanner

namespace XmlParser

variable {xml x : XmlParser} {pre body post : Bytes} {a b : Scanner}

/-- For a parser with any history and a comment that ends itself, in the content of an element of
any document that the scanner reads: the elements are the same if and only if no text stands around
the comment and the rounds of the longer document have their room. -/
theorem parse_comment_iff (hused : Relation.ReflTransGen Parsed {} xml)
    (h0 : 0 ∉ pre ++ (commentText body ++ post)) (hpre : Scanner.Reads ({}, pre ++ post) (a, post))
    (hcontent : a.InContent) (hpost : Scanner.Reads (a, post) (b, []))
    (hparse : xml.parse (pre ++ post) = .ok (xmlliteparserOk, x)) (hbody : EndsItself body)
    (hlocal : ∀ c q, Scanner.Reads (a.comment (commentText body), post) (c, q) → c.Local q) :
    (∃ x', xml.parse (pre ++ (commentText body ++ post)) = .ok (xmlliteparserOk, x') ∧
        x'.xmlElements = x.xmlElements) ↔
      ¬ a.Loses post ∧ ∀ s, xml.Reached (pre ++ (commentText body ++ post)) s →
        s.RoundOK (pre ++ (commentText body ++ post)) ∧
          s.Allocates (pre ++ (commentText body ++ post)) := by
  have h0' : 0 ∉ pre ++ post := by
    intro hin
    apply h0
    rcases List.mem_append.mp hin with h | h
    · exact List.mem_append_left _ h
    · exact List.mem_append_right _ (List.mem_append_right _ h)
  have hfresh : a.Fresh :=
    Scanner.Fresh.reads (d := ({}, pre ++ post)) (fun e he => by cases he) hpre
  obtain ⟨b', hbehind, hsame⟩ := hcontent.behind_comment hfresh hpost hlocal
  have hwithout : x.xmlElements = b.finish := elements_of_parse hused h0' (hpre.trans hpost) hparse
  have hread := (Scanner.reads_to_comment hpre hbody).trans hbehind
  rw [← hsame, ← parse_ok_iff hused h0]
  constructor
  · intro hok
    obtain ⟨x', hparse', heq⟩ := hok
    have hwith : x'.xmlElements = b'.finish := elements_of_parse hused h0 hread hparse'
    exact ⟨hwith.symm.trans (heq.trans hwithout), x', hparse'⟩
  · intro hok
    obtain ⟨heq, x', hparse'⟩ := hok
    have hwith : x'.xmlElements = b'.finish := elements_of_parse hused h0 hread hparse'
    exact ⟨x', hparse', hwith.trans (heq.trans hwithout.symm)⟩

theorem parse_ok_of_map {text : Bytes} {l : List XmlElement}
    (h : (xml.parse text).map (fun r => (r.1, r.2.xmlElements)) = .ok (xmlliteparserOk, l)) :
    ∃ x, xml.parse text = .ok (xmlliteparserOk, x) ∧ x.xmlElements = l := by
  cases hparse : xml.parse text with
  | error e =>
    rw [hparse] at h
    cases h
  | ok r =>
    rw [hparse] at h
    obtain ⟨hcode, hl⟩ := Prod.mk.inj (Except.ok.inj h)
    exact ⟨r.2, by rw [← hcode], hl⟩

/-- A comment between the tags of an element. -/
theorem parse_comment_between_tags : ∃ x x',
    ({} : XmlParser).parse (bytes "<a></a>") = .ok (xmlliteparserOk, x) ∧
    ({} : XmlParser).parse (bytes "<a><!--c--></a>") = .ok (xmlliteparserOk, x') ∧
    x'.xmlElements = x.xmlElements := by
  have hshort : (({} : XmlParser).parse (bytes "<a></a>")).map (fun r => (r.1, r.2.xmlElements)) =
      .ok (xmlliteparserOk, [{ xmlTagName := some (bytes "a") },
        { xmlTagName := some (bytes "/a") }]) := by decide +kernel
  have hlong : (({} : XmlParser).parse (bytes "<a><!--c--></a>")).map
      (fun r => (r.1, r.2.xmlElements)) = .ok (xmlliteparserOk, [{ xmlTagName := some (bytes "a") },
        { xmlTagName := some (bytes "/a") }]) := by decide +kernel
  obtain ⟨x, hparse, -⟩ := parse_ok_of_map hshort
  obtain ⟨x₀, hparse₀, -⟩ := parse_ok_of_map hlong
  have hpre := Scanner.reads_readFor 3 ({}, bytes "<a></a>")
  have hpost := Scanner.reads_readFor 4 (Scanner.readFor 3 ({}, bytes "<a></a>"))
  have hrest : Scanner.readFor 3 ({}, bytes "<a></a>") =
      ((Scanner.readFor 3 ({}, bytes "<a></a>")).1, bytes "</a>") := by decide
  have hend : Scanner.readFor 4 (Scanner.readFor 3 ({}, bytes "<a></a>")) =
      ((Scanner.readFor 7 ({}, bytes "<a></a>")).1, []) := by decide
  rw [hend, hrest] at hpost
  rw [hrest] at hpre
  have hcontent : (Scanner.readFor 3 ({}, bytes "<a></a>")).1.InContent :=
    ⟨by decide, by decide, by decide, by decide⟩
  have hbody : EndsItself (bytes "c") := by decide
  have hcalm : Scanner.localFor 10 ((Scanner.readFor 3 ({}, bytes "<a></a>")).1.comment
      (commentText (bytes "c")), bytes "</a>") = true := by decide
  have hiff := @parse_comment_iff {} x (bytes "<a>") (bytes "c") (bytes "</a>") _ _ .refl
    (by decide) hpre hcontent hpost hparse hbody fun _ _ hread =>
      Scanner.local_of_localFor hcalm hread
  have hrooms := (parse_ok_iff .refl (by decide)).mp ⟨x₀, hparse₀⟩
  obtain ⟨x', hparse', hsame⟩ := hiff.mpr ⟨by decide, hrooms⟩
  exact ⟨x, x', hparse, hparse', hsame⟩

/-- The comment drops the text before it, and what follows it does not become the value. -/
theorem parse_comment_in_text : ∃ x x',
    ({} : XmlParser).parse (bytes "<a>xy</a>") = .ok (xmlliteparserOk, x) ∧
    ({} : XmlParser).parse (bytes "<a>x<!--c-->y</a>") = .ok (xmlliteparserOk, x') ∧
    x'.xmlElements ≠ x.xmlElements := by
  have hshort : (({} : XmlParser).parse (bytes "<a>xy</a>")).map
      (fun r => (r.1, r.2.xmlElements)) = .ok (xmlliteparserOk,
        [{ xmlTagName := some (bytes "a"), xmlValue := some (bytes "xy") },
          { xmlTagName := some (bytes "/a") }]) := by decide +kernel
  have hlong : (({} : XmlParser).parse (bytes "<a>x<!--c-->y</a>")).map
      (fun r => (r.1, r.2.xmlElements)) = .ok (xmlliteparserOk,
        [{ xmlTagName := some (bytes "a") }, { xmlTagName := some (bytes "/a") }]) := by
    decide +kernel
  obtain ⟨x, hparse, hx⟩ := parse_ok_of_map hshort
  obtain ⟨x', hparse', hx'⟩ := parse_ok_of_map hlong
  refine ⟨x, x', hparse, hparse', ?_⟩
  rw [hx, hx']
  decide

end XmlParser

end MsgCourier
