import MsgCourier.XmlTags

/-! Documents of elements in one another, with texts, comments and sections between their tags, and
the elements that `Parse` makes of them. -/
namespace MsgCourier
open ListSearch CText

/-! ### Documents -/

def TagFreeText := { t : Bytes // ∀ c ∈ t, c ≠ 0 ∧ c ≠ 60 ∧ c ≠ 62 }

def CommentBody := { t : Bytes // 0 ∉ t ∧ EndsItself t }

def sectionText (body : Bytes) : Bytes := bytes "<![CDATA[" ++ body ++ bytes "]]>"

/-- The first `]]>` behind the start of the section is its own end. -/
def SectionBody :=
  { t : Bytes // 0 ∉ t ∧ firstOcc (bytes "]]>") (sectionText t) = some (t.length+9) }

/-- What stands between two tags of an element, or in the whole document. A piece of text, which may
be empty, stands in front of each of its parts. -/
inductive Content
  | done (t : TagFreeText)
  | comment (t : TagFreeText) (body : CommentBody) (rest : Content)
  | cdata (t : TagFreeText) (body : SectionBody) (rest : Content)
  | empty (t : TagFreeText) (tag : SpacedTag) (rest : Content)
  | element (t : TagFreeText) (tag : SpacedTag) (inner rest : Content)

namespace Content

def text : Content → Bytes
  | done t => t.1
  | comment t body rest => t.1 ++ (commentText body.1 ++ rest.text)
  | cdata t body rest => t.1 ++ (sectionText body.1 ++ rest.text)
  | empty t tag rest => t.1 ++ (tag.emptyText ++ rest.text)
  | element t tag inner rest =>
    t.1 ++ (tag.openText ++ (inner.text ++ (tag.closeText ++ rest.text)))

/-- The pieces of text that are not inside of another element. -/
def direct : Content → Bytes
  | done t => t.1
  | comment t _ rest | cdata t _ rest | empty t _ rest | element t _ _ rest => t.1 ++ rest.direct

def sections : Content → List Bytes
  | done _ => []
  | cdata _ body rest => body.1 :: rest.sections
  | comment _ _ rest | empty _ _ rest | element _ _ _ rest => rest.sections

/-- The element with its trimmed and decoded text and its section. -/
def filled (c : Content) (e : XmlElement) : XmlElement :=
  { e.withValue (ParseState.trimmed c.direct) with
    xmlCDATA := (if c.sections = [] then none else some c.sections.flatten).or e.xmlCDATA }

/-- The tags in the order of the document. -/
def elements : Content → List XmlElement
  | done _ => []
  | comment _ _ rest | cdata _ _ rest => rest.elements
  | empty _ tag rest => tag.element :: emptyEnd :: rest.elements
  | element _ tag inner rest =>
    inner.filled tag.element :: (inner.elements ++ tag.closeElement :: rest.elements)

end Content

/-! ### Documents that are read as they are written -/

def Blank (t : Bytes) : Prop := ∀ c ∈ t, isWhite c = true

/-- What a piece of content stands behind: the open tag, comments behind it, a section, or something
behind which neither a value nor a section can come any more. -/
inductive TextPlace
  | behindTag
  | behindComment
  | behindSection
  | quiet
  deriving DecidableEq, Repr

namespace TextPlace

/-- The text that may stand at the place. Only what follows the tag is kept, and two bytes behind a
section are skipped. -/
def Holds : TextPlace → Bytes → Prop
  | behindTag, _ => True
  | behindSection, t => Blank t ∧ 2 ≤ t.length
  | _, t => Blank t

def afterComment : TextPlace → TextPlace
  | behindTag | behindComment => behindComment
  | behindSection | quiet => quiet

/-- What is left of the input where the scanner is. -/
def start : TextPlace → Bytes → Bytes
  | behindSection, w => w.drop 2
  | _, w => w

end TextPlace

/-- The content of an element has its text directly behind the open tag, or one section in front of
its other elements; two blanks or a comment follow the section. -/
def Content.Orderly : TextPlace → Content → Prop
  | p, .done t => p.Holds t.1
  | p, .comment t body rest => Blank t.1 ∧
      ((p ≠ .behindSection ∨ 2 ≤ t.1.length) ∧ rest.Orderly p.afterComment ∨
        p = .behindSection ∧ t.1.length < 2 ∧ 60 ∉ body.1 ∧ rest.Orderly .quiet)
  | p, .cdata t _ rest =>
      Blank t.1 ∧ (p = .behindTag ∨ p = .behindComment) ∧ rest.Orderly .behindSection
  | p, .empty t tag rest => p.Holds t.1 ∧ tag.Tidy ∧ rest.Orderly .quiet
  | p, .element t tag inner rest =>
      p.Holds t.1 ∧ tag.Tidy ∧ inner.Orderly .behindTag ∧ rest.Orderly .quiet

/-! ### Blank texts -/

section
variable {t u : Bytes}

theorem Blank.append (ht : Blank t) (hu : Blank u) : Blank (t ++ u) := by
  intro c hc
  rcases List.mem_append.mp hc with hc | hc
  · exact ht c hc
  · exact hu c hc

theorem Blank.trimmed (ht : Blank t) : ParseState.trimmed t = [] := by
  unfold ParseState.trimmed
  rw [List.dropWhile_eq_nil_iff.mpr ht]
  rfl

theorem Blank.trimmed_append (ht : Blank t) (u : Bytes) :
    ParseState.trimmed (t ++ u) = ParseState.trimmed u := by
  unfold ParseState.trimmed
  rw [List.dropWhile_append_of_pos ht]

theorem trimmed_append_blank (t : Bytes) (hu : Blank u) :
    ParseState.trimmed (t ++ u) = ParseState.trimmed t := by
  by_cases ht : Blank t
  · rw [ht.trimmed, (ht.append hu).trimmed]
  · have hne : t.dropWhile isWhite ≠ [] := fun h => ht (List.dropWhile_eq_nil_iff.mp h)
    have hdrop : (t ++ u).dropWhile isWhite = t.dropWhile isWhite ++ u := by
      rw [List.dropWhile_append, if_neg (by simpa using hne)]
    unfold ParseState.trimmed
    rw [hdrop]
    obtain ⟨c, v, hv⟩ := List.exists_cons_of_ne_nil hne
    rw [hv, List.cons_append]
    have hback : (v ++ u).rdropWhile isWhite = v.rdropWhile isWhite := by
      unfold List.rdropWhile
      rw [List.reverse_append,
        List.dropWhile_append_of_pos fun c hc => hu c (List.mem_reverse.mp hc)]
    unfold trimmedEnd
    dsimp only
    rw [hback]

theorem withValue_nil (e : XmlElement) : e.withValue [] = e := if_pos rfl

end

namespace Content

variable {p : TextPlace} {c : Content}

theorem Orderly.blank (h : c.Orderly p) (hp : p ≠ .behindTag) : Blank c.direct := by
  have hholds {t : Bytes} {p : TextPlace} (hp : p ≠ .behindTag) (ht : p.Holds t) : Blank t := by
    cases p with
    | behindTag => exact absurd rfl hp
    | behindComment => exact ht
    | behindSection => exact ht.1
    | quiet => exact ht
  induction c generalizing p with
  | done t => exact hholds hp h
  | comment t body rest ih =>
    obtain ⟨ht, ⟨-, hrest⟩ | ⟨-, -, -, hrest⟩⟩ := h
    · refine ht.append (ih hrest ?_)
      cases p <;> exact TextPlace.noConfusion
    · exact ht.append (ih hrest TextPlace.noConfusion)
  | cdata t body rest ih =>
    obtain ⟨ht, -, hrest⟩ := h
    exact ht.append (ih hrest TextPlace.noConfusion)
  | empty t tag rest ih =>
    obtain ⟨ht, -, hrest⟩ := h
    exact (hholds hp ht).append (ih hrest TextPlace.noConfusion)
  | element t tag inner rest _ ih =>
    obtain ⟨ht, -, -, hrest⟩ := h
    exact (hholds hp ht).append (ih hrest TextPlace.noConfusion)

theorem Orderly.sections_nil (h : c.Orderly p) (hp : p = .behindSection ∨ p = .quiet) :
    c.sections = [] := by
  induction c generalizing p with
  | done t => rfl
  | comment t body rest ih =>
    obtain ⟨-, ⟨-, hrest⟩ | ⟨-, -, -, hrest⟩⟩ := h
    · refine ih hrest (.inr ?_)
      rcases hp with rfl | rfl <;> rfl
    · exact ih hrest (.inr rfl)
  | cdata t body rest ih =>
    obtain ⟨-, hplace, -⟩ := h
    rcases hp with rfl | rfl <;> rcases hplace with h | h <;> cases h
  | empty t tag rest ih => exact ih h.2.2 (.inr rfl)
  | element t tag inner rest _ ih => exact ih h.2.2.2 (.inr rfl)

/-- Where neither a value nor a section can come the element stays as it is. -/
theorem Orderly.filled_quiet (h : c.Orderly .quiet) (e : XmlElement) : c.filled e = e := by
  unfold filled
  rw [(h.blank TextPlace.noConfusion).trimmed, withValue_nil, h.sections_nil (.inr rfl), if_pos rfl,
    Option.none_or]

/-- A section is followed by two bytes at least. -/
theorem Orderly.two_le_text (h : c.Orderly .behindSection) : 2 ≤ c.text.length := by
  cases c with
  | done t => exact h.2
  | comment t body rest =>
    simp only [text, commentText, List.length_append]
    have hfour : (bytes "<!--").length = 4 := rfl
    omega
  | cdata t body rest =>
    simp only [text, sectionText, List.length_append]
    have hnine : (bytes "<![CDATA[").length = 9 := rfl
    omega
  | empty t tag rest =>
    simp only [text, SpacedTag.emptyText, List.length_append, List.length_cons]
    omega
  | element t tag inner rest =>
    simp only [text, SpacedTag.openText, List.length_append, List.length_cons]
    omega

end Content

/-! ### Reading a piece of content -/

namespace Scanner

variable {a b : Scanner} {p : TextPlace}

/-- No value is under way, so none comes of blank text. -/
def Calm (m : ScanMode) : Prop := ∀ u, m = .text (some u) → Blank u

/-- The scanner is outside of tags, in a mode of the place. -/
structure Ready (p : TextPlace) (a : Scanner) : Prop extends Settled a where
  value : p = .behindTag → a.mode = .text (some [])
  skip : p = .behindSection → a.mode = .skip
  calm : Calm a.mode

theorem settled_read (ha : a.Settled) (v : Bytes) : (a.read v).Settled where
  mode := read_mode ha.mode v
  inQoute := ha.inQoute
  tag := by
    unfold read pass
    rw [ha.tag]
    rfl
  attrib := by
    unfold read pass
    rw [ha.attrib]
    rfl

theorem calm_read (ha : Calm a.mode) {v : Bytes} (hv : Blank v) : Calm (a.read v).mode := by
  intro u hu
  unfold read at hu
  cases hmode : a.mode with
  | tag =>
    rw [hmode] at hu
    cases hu
  | skip =>
    rw [hmode] at hu
    cases hu
  | text scanned =>
    rw [hmode] at hu
    cases scanned with
    | none => cases hu
    | some w =>
      obtain rfl : w ++ v = u := Option.some.inj (ScanMode.text.inj hu)
      exact (ha w hmode).append hv

theorem Calm.trimmed {m : ScanMode} (hm : Calm m) : ParseState.trimmed m.value = [] := by
  cases m with
  | tag => rfl
  | skip => rfl
  | text scanned =>
    cases scanned with
    | none => rfl
    | some u => exact (hm u rfl).trimmed

theorem Calm.flush (hb : Calm b.mode) : b.flush = b.elements ++ b.pElement.toList := by
  unfold Scanner.flush
  rw [hb.trimmed]
  have hsame : (fun e : XmlElement => e.withValue []) = id := funext withValue_nil
  rw [hsame, Option.map_id_fun, id]

/-- The text at a place is read up to its end; only behind a tag something comes of it. -/
theorem reads_front (ha : a.Ready p) (t : TagFreeText) (ht : p.Holds t.1) (q : Bytes) : ∃ a',
    Reads (a, p.start (t.1 ++ q)) (a', q) ∧ a'.Settled ∧ a'.elements = a.elements ∧
      a'.pElement = a.pElement ∧ ParseState.trimmed a'.mode.value = ParseState.trimmed t.1 ∧
      (Blank t.1 → Calm a'.mode) := by
  have hread (v : Bytes) (hv : v.Sublist t.1) : Reads (a, v ++ q) (a.read v, q) :=
    reads_text ha.mode (fun h => (t.2 60 (hv.subset h)).2.1 rfl)
      (fun h => (t.2 62 (hv.subset h)).2.2 rfl) q
  have hblank (v : Bytes) (hv : v.Sublist t.1) (ht : Blank t.1) : Calm (a.read v).mode :=
    calm_read ha.calm fun c hc => ht c (hv.subset hc)
  cases p with
  | behindTag =>
    refine ⟨a.read t.1, hread _ (List.Sublist.refl _), settled_read ha.toSettled _, rfl, rfl, ?_,
      hblank _ (List.Sublist.refl _)⟩
    have hmode : (a.read t.1).mode = .text (some t.1) := by
      unfold read
      rw [ha.value rfl]
      rfl
    rw [hmode]
    rfl
  | behindComment =>
    have hcalm := hblank _ (List.Sublist.refl _) ht
    exact ⟨a.read t.1, hread _ (List.Sublist.refl _), settled_read ha.toSettled _, rfl, rfl,
      hcalm.trimmed.trans (Blank.trimmed ht).symm, fun _ => hcalm⟩
  | behindSection =>
    have hdrop : (t.1 ++ q).drop 2 = t.1.drop 2 ++ q := List.drop_append_of_le_length ht.2
    have hcalm := hblank _ (List.drop_sublist 2 _) ht.1
    have hskip := hread (t.1.drop 2) (List.drop_sublist 2 _)
    rw [← hdrop] at hskip
    exact ⟨a.read (t.1.drop 2), hskip, settled_read ha.toSettled _, rfl, rfl,
      hcalm.trimmed.trans ht.1.trimmed.symm, fun _ => hcalm⟩
  | quiet =>
    have hcalm := hblank _ (List.Sublist.refl _) ht
    exact ⟨a.read t.1, hread _ (List.Sublist.refl _), settled_read ha.toSettled _, rfl, rfl,
      hcalm.trimmed.trans (Blank.trimmed ht).symm, fun _ => hcalm⟩

/-- The two bytes behind a section are skipped, and everything up to the next `<`. -/
theorem step_section (hone : a.pElement.isSome) (body : SectionBody) {q : Bytes}
    (hq : 60 ∈ q.drop 2) : a.step (sectionText body.1 ++ q) =
      some (a.cdata (sectionText body.1 ++ q.take 2) body.1, q.drop 2) := by
  have hlen : (sectionText body.1).length = body.1.length+9+3 := by
    unfold sectionText
    rw [List.length_append, List.length_append]
    change 9+body.1.length+3 = body.1.length+9+3
    omega
  have hfound : firstOcc (bytes "]]>") (sectionText body.1 ++ q) = some (body.1.length+9) :=
    firstOcc_append (by decide) body.2.2 q
  have hstart : bytes "<![CDATA" <+: sectionText body.1 ++ q := by
    have hnine : bytes "<![CDATA" <+: bytes "<![CDATA[" := ⟨bytes "[", rfl⟩
    unfold sectionText
    rw [List.append_assoc, List.append_assoc]
    exact hnine.trans (List.prefix_append _ _)
  have hcomment : ¬ bytes "<!--" <+: sectionText body.1 ++ q := by
    intro h
    have hsecond : bytes "<!--" <+: bytes "<![CDATA" :=
      List.prefix_of_prefix_length_le h hstart (by decide)
    exact absurd hsecond (by decide)
  have hdrop : (sectionText body.1 ++ q).drop (body.1.length+9+5) = q.drop 2 := by
    rw [show body.1.length+9+5 = (sectionText body.1).length+2 by omega, List.drop_append]
    simp
  have htake : (sectionText body.1 ++ q).take (body.1.length+9+5) =
      sectionText body.1 ++ q.take 2 := by
    rw [show body.1.length+9+5 = (sectionText body.1).length+2 by omega, List.take_append]
    simp
  have hblock : ((sectionText body.1 ++ q).drop 9).take (body.1.length+9-9) = body.1 := by
    have hnine : (sectionText body.1 ++ q).drop 9 = body.1 ++ (bytes "]]>" ++ q) := by
      unfold sectionText
      rw [List.append_assoc, List.append_assoc]
      exact List.drop_left' rfl
    rw [hnine, Nat.add_sub_cancel, List.take_left]
  change a.markup (sectionText body.1 ++ q) = _
  unfold markup
  rw [if_neg hcomment, if_pos hstart, hfound, Option.bind_some, hdrop,
    if_pos ⟨hone, Nat.le_add_left 9 _, hq⟩, htake, hblock]

/-- A comment right behind a section is skipped with what is left of its start. -/
theorem reads_shortComment (ha : a.Ready .behindSection) {t body : Bytes} (ht : t.length < 2)
    (hbody : 60 ∉ body) (q : Bytes) :
    ∃ a', Reads (a, (t ++ (commentText body ++ q)).drop 2) (a', q) ∧ a'.Ready .quiet ∧
      a'.elements = a.elements ∧ a'.pElement = a.pElement := by
  have hlen : t.length+(2-t.length) = 2 := by omega
  have hdrop : (t ++ (commentText body ++ q)).drop 2 =
      (commentText body).drop (2-t.length) ++ q := by
    have hle : 2-t.length ≤ (commentText body).length := by
      unfold commentText
      rw [List.length_append, List.length_append]
      change 2-t.length ≤ 4+body.length+3
      omega
    rw [List.drop_append, List.drop_eq_nil_of_le (show t.length ≤ 2 by omega), List.nil_append,
      List.drop_append_of_le_length hle]
  have hlt : 60 ∉ (commentText body).drop (2-t.length) := by
    intro h
    have hone : 60 ∈ (commentText body).drop 1 :=
      (List.drop_sublist_drop_left _ (show 1 ≤ 2-t.length by omega)).subset h
    have hrest : (commentText body).drop 1 = bytes "!--" ++ body ++ bytes "-->" := rfl
    rw [hrest] at hone
    rcases List.mem_append.mp hone with h | h
    · rcases List.mem_append.mp h with h | h
      · exact absurd h (by decide)
      · exact hbody h
    · exact absurd h (by decide)
  have hskip := ha.skip rfl
  rw [hdrop]
  refine ⟨_, reads_skip hskip hlt q, ⟨⟨ha.mode, ha.inQoute, ?_, ?_⟩, fun h => ?_, fun h => ?_, ?_⟩,
    rfl, rfl⟩
  · unfold pass
    rw [ha.tag]
    rfl
  · unfold pass
    rw [ha.attrib]
    rfl
  · cases h
  · cases h
  · exact ha.calm

theorem ready_behindTag (seen : Bytes) (l : List XmlElement) (e : XmlElement)
    (hp : p ≠ .behindSection) : (behindTag seen l e).Ready p where
  mode := ScanMode.noConfusion
  inQoute := rfl
  tag := rfl
  attrib := rfl
  value := fun _ => rfl
  skip := fun h => absurd h hp
  calm := by
    intro u hu
    obtain rfl : [] = u := Option.some.inj (ScanMode.text.inj hu)
    exact fun c hc => absurd hc List.not_mem_nil

theorem ready_comment (ha : a.Settled) (u : Bytes) (p : TextPlace) :
    (a.comment u).Ready p.afterComment where
  mode := ScanMode.noConfusion
  inQoute := ha.inQoute
  tag := by
    unfold comment pass
    rw [ha.tag]
    rfl
  attrib := by
    unfold comment pass
    rw [ha.attrib]
    rfl
  value := fun h => by cases p <;> cases h
  skip := fun h => by cases p <;> cases h
  calm := fun u h => by cases h

theorem ready_cdata (ha : a.Settled) (u block : Bytes) :
    (a.cdata u block).Ready .behindSection where
  mode := ScanMode.noConfusion
  inQoute := ha.inQoute
  tag := by
    unfold cdata pass
    rw [ha.tag]
    rfl
  attrib := by
    unfold cdata pass
    rw [ha.attrib]
    rfl
  value := fun h => by cases h
  skip := fun _ => rfl
  calm := fun u h => by cases h

end Scanner

open Scanner

namespace Content

variable {a : Scanner} {p : TextPlace}

/-- What a piece of content makes of the element in front of it, when a tag follows. -/
structure ReadBy (c : Content) (p : TextPlace) (a : Scanner) (tail : Bytes) (b : Scanner) :
    Prop where
  settled : b.Settled
  reads : Reads (a, p.start (c.text ++ tail)) (b, tail)
  flush : b.flush = a.elements ++ (a.pElement.map c.filled).toList ++ c.elements
  calm : p = .quiet → Calm b.mode

theorem start_eq (hp : p ≠ .behindSection) (w : Bytes) : p.start w = w := by
  cases p with
  | behindSection => exact absurd rfl hp
  | behindTag => rfl
  | behindComment => rfl
  | quiet => rfl

theorem afterComment_eq_quiet (h : p.afterComment ≠ .quiet) : p ≠ .quiet := by
  rintro rfl
  exact h rfl

theorem holds_of_blank {t : Bytes} (ht : Blank t) (hp : p ≠ .behindSection ∨ 2 ≤ t.length) :
    p.Holds t := by
  cases p with
  | behindTag => trivial
  | behindComment => exact ht
  | behindSection => exact ⟨ht, hp.resolve_left fun h => h rfl⟩
  | quiet => exact ht

/-- In front of a tag the value is the text, and what follows the tag adds nothing to it. -/
theorem filled_front {c rest : Content} {t : Bytes} (hdirect : c.direct = t ++ rest.direct)
    (hsections : c.sections = rest.sections) (hrest : rest.Orderly .quiet) (e : XmlElement) :
    c.filled e = e.withValue (ParseState.trimmed t) := by
  have hcdata (v : Bytes) : (e.withValue v).xmlCDATA = e.xmlCDATA := by
    unfold XmlElement.withValue
    split_ifs
    · rfl
    · rfl
  unfold filled
  rw [hdirect, trimmed_append_blank t (hrest.blank TextPlace.noConfusion), hsections,
    hrest.sections_nil (.inr rfl), if_pos rfl, Option.none_or, ← hcdata]

/-- A comment behind blank text changes nothing. -/
theorem filled_comment {t : TagFreeText} {body : CommentBody} {rest : Content} (ht : Blank t.1) :
    (comment t body rest).filled = rest.filled := by
  funext e
  unfold filled
  rw [direct, ht.trimmed_append]
  rfl

theorem filled_cdata {t : TagFreeText} {body : SectionBody} {rest : Content} (ht : Blank t.1)
    (hrest : rest.Orderly .behindSection) (e : XmlElement) :
    rest.filled { e with xmlCDATA := some body.1 } = (cdata t body rest).filled e := by
  have hnone := hrest.blank TextPlace.noConfusion
  unfold filled
  rw [direct, ht.trimmed_append, hnone.trimmed, sections, hrest.sections_nil (.inl rfl),
    withValue_nil, withValue_nil, if_pos rfl, if_neg (List.cons_ne_nil _ _), Option.none_or,
    List.flatten_cons, List.flatten_nil, List.append_nil, Option.some_or]

/-- A comment in front of a piece of content. -/
theorem ReadBy.comment {t : TagFreeText} {body : CommentBody} {rest : Content} {tail : Bytes}
    (ha : a.Ready p) (ht : Blank t.1)
    (hplace : p ≠ .behindSection ∨ 2 ≤ t.1.length)
    (hrest : ∀ d : Scanner, d.Ready p.afterComment → d.elements = a.elements →
      d.pElement = a.pElement → ∃ b, rest.ReadBy p.afterComment d tail b) :
    ∃ b, (comment t body rest).ReadBy p a tail b := by
  obtain ⟨d, hfront, hsettled, helements, hone, -, -⟩ := reads_front ha t (holds_of_blank ht hplace)
    (commentText body.1 ++ (rest.text ++ tail))
  have hstep : d.step (commentText body.1 ++ (rest.text ++ tail)) =
      some (d.comment (commentText body.1), rest.text ++ tail) := step_comment body.2.2
  obtain ⟨b, hb⟩ := hrest (d.comment (commentText body.1)) (ready_comment hsettled _ p) helements
    hone
  have hread := hb.reads
  rw [start_eq (by cases p <;> exact TextPlace.noConfusion)] at hread
  refine ⟨b, hb.settled, ?_, ?_, fun hp => hb.calm (by rw [hp]; rfl)⟩
  · rw [text, List.append_assoc, List.append_assoc]
    exact (hfront.tail hstep).trans hread
  · rw [hb.flush, filled_comment ht]
    change d.elements ++ (d.pElement.map rest.filled).toList ++ rest.elements = _
    rw [helements, hone]
    rfl

/-- An orderly piece of content is read up to its end. A section needs its element and a later
tag. -/
theorem Orderly.readBy {c : Content} (hc : c.Orderly p) (ha : a.Ready p) (tail : Bytes)
    (hsome : p ≠ .quiet → a.pElement.isSome ∧ 60 ∈ tail) : ∃ b, c.ReadBy p a tail b := by
  induction c generalizing p a tail with
  | done t =>
    obtain ⟨b, hread, hsettled, helements, hone, hvalue, hcalm⟩ := reads_front ha t hc tail
    refine ⟨b, hsettled, hread, ?_, fun hp => hcalm ?_⟩
    · have hfilled (e : XmlElement) : (done t).filled e = e.withValue (ParseState.trimmed t.1) := by
        have hcdata (v : Bytes) : (e.withValue v).xmlCDATA = e.xmlCDATA := by
          unfold XmlElement.withValue
          split_ifs
          · rfl
          · rfl
        unfold filled
        rw [direct, sections, if_pos rfl, Option.none_or, ← hcdata]
      unfold Scanner.flush
      rw [hvalue, helements, hone, elements, List.append_nil, funext hfilled]
    · subst hp
      exact hc
  | comment t body rest ih =>
    obtain ⟨ht, ⟨hplace, hrest⟩ | ⟨rfl, hshort, hbody, hrest⟩⟩ := hc
    · refine ReadBy.comment ha ht hplace fun d hd helements hone => ih hrest hd tail fun hp => ?_
      rw [hone]
      exact hsome (afterComment_eq_quiet hp)
    · obtain ⟨d, hskip, hd, helements, hone⟩ :=
        reads_shortComment ha hshort hbody (rest.text ++ tail)
      obtain ⟨b, hb⟩ := ih hrest hd tail fun h => absurd rfl h
      refine ⟨b, hb.settled, ?_, ?_, fun h => by cases h⟩
      · rw [text, List.append_assoc, List.append_assoc]
        exact hskip.trans hb.reads
      · rw [hb.flush, filled_comment ht, helements, hone]
        rfl
  | cdata t body rest ih =>
    obtain ⟨ht, hplace, hrest⟩ := hc
    have hquiet : p ≠ .quiet := by rcases hplace with rfl | rfl <;> exact TextPlace.noConfusion
    have hsection : p ≠ .behindSection := by
      rcases hplace with rfl | rfl <;> exact TextPlace.noConfusion
    obtain ⟨hpElement, htail⟩ := hsome hquiet
    obtain ⟨d, hfront, hsettled, helements, hone, -, -⟩ := reads_front ha t
      (holds_of_blank ht (.inl hsection)) (sectionText body.1 ++ (rest.text ++ tail))
    have hlater : 60 ∈ (rest.text ++ tail).drop 2 := by
      rw [List.drop_append_of_le_length hrest.two_le_text]
      exact List.mem_append_right _ htail
    have hstep := step_section (a := d) (by rw [hone]; exact hpElement) body hlater
    obtain ⟨b, hb⟩ := ih hrest (ready_cdata hsettled _ _) tail fun _ => by
      refine ⟨?_, htail⟩
      change (d.pElement.map _).isSome
      rw [hone, Option.isSome_map]
      exact hpElement
    refine ⟨b, hb.settled, ?_, ?_, fun h => absurd h hquiet⟩
    · rw [text, List.append_assoc, List.append_assoc]
      exact (hfront.tail hstep).trans hb.reads
    · rw [hb.flush]
      change d.elements ++ ((d.pElement.map fun e => { e with xmlCDATA := some body.1 }).map
        rest.filled).toList ++ rest.elements = _
      rw [helements, hone, Option.map_map]
      have hfilled : (rest.filled ∘ fun e : XmlElement => { e with xmlCDATA := some body.1 }) =
          (cdata t body rest).filled := funext fun e => filled_cdata ht hrest e
      rw [hfilled]
      rfl
  | empty t tag rest ih =>
    obtain ⟨ht, htidy, hrest⟩ := hc
    obtain ⟨d, hfront, hsettled, helements, hone, hvalue, -⟩ := reads_front ha t ht
      (tag.emptyText ++ (rest.text ++ tail))
    obtain ⟨seen, htag⟩ := reads_emptyTag hsettled htidy (rest.text ++ tail)
    obtain ⟨b, hb⟩ := ih hrest
      (ready_behindTag seen (d.flush ++ [tag.element]) emptyEnd TextPlace.noConfusion) tail
      fun h => absurd rfl h
    refine ⟨b, hb.settled, ?_, ?_, fun _ => hb.calm rfl⟩
    · rw [text, List.append_assoc, List.append_assoc]
      exact (hfront.trans htag).trans hb.reads
    · have hflush : d.flush = a.elements ++ (a.pElement.map (empty t tag rest).filled).toList := by
        have hfilled : (empty t tag rest).filled =
            fun e => e.withValue (ParseState.trimmed t.1) :=
          funext fun e => filled_front (c := empty t tag rest) rfl rfl hrest e
        unfold Scanner.flush
        rw [hvalue, helements, hone, hfilled]
      rw [hb.flush]
      change (d.flush ++ [tag.element]) ++ (some (rest.filled emptyEnd)).toList ++ rest.elements = _
      rw [hflush, hrest.filled_quiet, elements]
      simp
  | element t tag inner rest ihInner ih =>
    obtain ⟨ht, htidy, hinner, hrest⟩ := hc
    obtain ⟨d, hfront, hsettled, helements, hone, hvalue, -⟩ := reads_front ha t ht
      (tag.openText ++ (inner.text ++ (tag.closeText ++ (rest.text ++ tail))))
    obtain ⟨seen, hopen⟩ := reads_openTag hsettled htidy
      (inner.text ++ (tag.closeText ++ (rest.text ++ tail)))
    obtain ⟨b₁, hb₁⟩ := ihInner hinner
      (ready_behindTag seen d.flush tag.element TextPlace.noConfusion)
      (tag.closeText ++ (rest.text ++ tail))
      fun _ => ⟨rfl, List.mem_append_left _ List.mem_cons_self⟩
    obtain ⟨seen', hclose⟩ := reads_closeTag hb₁.settled tag (rest.text ++ tail)
    obtain ⟨b, hb⟩ := ih hrest
      (ready_behindTag seen' b₁.flush tag.closeElement TextPlace.noConfusion) tail
      fun h => absurd rfl h
    refine ⟨b, hb.settled, ?_, ?_, fun _ => hb.calm rfl⟩
    · simp only [text, List.append_assoc]
      exact (((hfront.trans hopen).trans hb₁.reads).trans hclose).trans hb.reads
    · have hflush : d.flush =
          a.elements ++ (a.pElement.map (element t tag inner rest).filled).toList := by
        have hfilled : (element t tag inner rest).filled =
            fun e => e.withValue (ParseState.trimmed t.1) :=
          funext fun e => filled_front (c := element t tag inner rest) rfl rfl hrest e
        unfold Scanner.flush
        rw [hvalue, helements, hone, hfilled]
      have hinside : b₁.flush = d.flush ++ [inner.filled tag.element] ++ inner.elements := hb₁.flush
      rw [hb.flush]
      change b₁.flush ++ (some (rest.filled tag.closeElement)).toList ++ rest.elements = _
      rw [hinside, hflush, hrest.filled_quiet, elements]
      simp

/-! ### Whole documents -/

theorem zero_notMem_inside (g : SpacedTag) : 0 ∉ g.inside := by
  have hgap {w : Bytes} (hw : IsGap w) : 0 ∉ w := fun h => by rcases hw 0 h with h | h <;> cases h
  unfold SpacedTag.inside
  rw [List.mem_append, not_or, List.mem_flatMap]
  refine ⟨fun hin => ?_, hgap g.gap_behind⟩
  obtain ⟨a, ha, h0⟩ := hin
  rcases List.mem_append.mp h0 with h | h
  · exact hgap (g.gaps a ha) h
  · unfold QuotedAttribute.text QuotedAttribute.body at h
    have hkey : 0 ∉ a.2.key := fun h => nameChar_ne (a.2.named.2 0 h) (by decide) rfl
    have hraw : 0 ∉ a.2.raw := fun h => (a.2.quoted 0 h).1 rfl
    have hseparator : a.2.separator ≠ 0 := by rcases a.2.separates with h | h <;> rw [h] <;> decide
    simp [hkey, hraw, hseparator.symm] at h

theorem zero_notMem_tags (g : SpacedTag) : 0 ∉ g.openText ∧ 0 ∉ g.emptyText ∧ 0 ∉ g.closeText := by
  have hname : 0 ∉ g.name := fun h => nameChar_ne (g.named.2 0 h) (by decide) rfl
  have hinside := zero_notMem_inside g
  unfold SpacedTag.openText SpacedTag.emptyText SpacedTag.closeText
  simp [hname, hinside]

theorem zero_notMem_text (c : Content) : 0 ∉ c.text := by
  have htext (t : TagFreeText) : 0 ∉ t.1 := fun h => (t.2 0 h).1 rfl
  induction c with
  | done t => exact htext t
  | comment t body rest ih =>
    have hstart : 0 ∉ bytes "<!--" := by decide
    have hend : 0 ∉ bytes "-->" := by decide
    simp only [text, commentText, List.mem_append, not_or]
    exact ⟨htext t, ⟨⟨hstart, body.2.1⟩, hend⟩, ih⟩
  | cdata t body rest ih =>
    have hstart : 0 ∉ bytes "<![CDATA[" := by decide
    have hend : 0 ∉ bytes "]]>" := by decide
    simp only [text, sectionText, List.mem_append, not_or]
    exact ⟨htext t, ⟨⟨hstart, body.2.1⟩, hend⟩, ih⟩
  | empty t tag rest ih =>
    simp only [text, List.mem_append, not_or]
    exact ⟨htext t, (zero_notMem_tags tag).2.1, ih⟩
  | element t tag inner rest ihInner ih =>
    simp only [text, List.mem_append, not_or]
    exact ⟨htext t, (zero_notMem_tags tag).1, ihInner, (zero_notMem_tags tag).2.2, ih⟩

/-- The scanner reads a document to its end and has its elements then. -/
theorem Orderly.finish {c : Content} (hc : c.Orderly .quiet) :
    ∃ b, Reads ({}, c.text) (b, []) ∧ b.finish = c.elements := by
  have hready : ({} : Scanner).Ready .quiet := by
    refine ⟨⟨ScanMode.noConfusion, rfl, rfl, rfl⟩, fun h => ?_, fun h => ?_, fun u h => ?_⟩
    · cases h
    · cases h
    · cases h
  obtain ⟨b, hb⟩ := hc.readBy hready [] fun h => absurd rfl h
  have hread := hb.reads
  rw [List.append_nil] at hread
  refine ⟨b, hread, ?_⟩
  have hflush := hb.flush
  rw [(hb.calm rfl).flush] at hflush
  exact hflush

end Content

namespace XmlParser

variable {xml : XmlParser} {c : Content}

/-- What `Parse` returns for a document that is read as it is written. -/
theorem elements_of_orderly (hused : Relation.ReflTransGen Parsed {} xml) (hc : c.Orderly .quiet)
    {x : XmlParser} (hparse : xml.parse c.text = .ok (xmlliteparserOk, x)) :
    x.xmlElements = c.elements := by
  obtain ⟨b, hread, hfinish⟩ := hc.finish
  exact (elements_of_parse hused c.zero_notMem_text hread hparse).trans hfinish

/-- For a parser with any history and a document that is read as it is written, `Parse` returns if
and only if all its rounds have their room, and then the list has the tags of the document with
their attributes, values and sections. -/
theorem parse_document_iff (hused : Relation.ReflTransGen Parsed {} xml)
    (hc : c.Orderly .quiet) :
    ((∃ x, xml.parse c.text = .ok (xmlliteparserOk, x)) ↔
      ∀ s, xml.Reached c.text s → s.RoundOK c.text ∧ s.Allocates c.text) ∧
      ∀ x, xml.parse c.text = .ok (xmlliteparserOk, x) → x.xmlElements = c.elements :=
  ⟨parse_ok_iff hused c.zero_notMem_text, fun _ hparse => elements_of_orderly hused hc hparse⟩

theorem plain_value : ∀ c ∈ bytes "v", c ≠ 0 ∧ c ≠ 34 ∧ c ≠ 60 ∧ c ≠ 62 := by simp [bytes]

theorem plain_blanks : ∀ c ∈ bytes "  ", c ≠ 0 ∧ c ≠ 60 ∧ c ≠ 62 := by simp [bytes]

theorem plain_text : ∀ c ∈ bytes " y&gt; ", c ≠ 0 ∧ c ≠ 60 ∧ c ≠ 62 := by simp [bytes]

theorem plain_none : ∀ c ∈ ([] : Bytes), c ≠ 0 ∧ c ≠ 60 ∧ c ≠ 62 :=
  fun _ h => absurd h List.not_mem_nil

def noText : TagFreeText := ⟨[], plain_none⟩

theorem isName_of {s : String} (h : bytes s ≠ [] ∧ (bytes s).all isNameChar = true) :
    IsName (bytes s) := ⟨h.1, List.all_eq_true.mp h.2⟩

/-- A tag of a single name. -/
def plainTag (name : String) (h : IsName (bytes name)) : SpacedTag where
  name := bytes name
  attributes := []
  named := h
  gaps := fun _ ha => absurd ha List.not_mem_nil
  gap_behind := fun _ hc => absurd hc List.not_mem_nil

theorem isName_a : IsName (bytes "a") := isName_of (by decide)

theorem isName_b : IsName (bytes "b") := isName_of (by decide)

theorem isName_c : IsName (bytes "c") := isName_of (by decide)

theorem isName_k : IsName (bytes "k") := isName_of (by decide)

theorem separates_blank : (32 : Byte) = 32 ∨ (32 : Byte) = 9 := .inl rfl

theorem letter_section : 0 ∉ bytes "<x>" ∧
    firstOcc (bytes "]]>") (sectionText (bytes "<x>")) = some ((bytes "<x>").length+9) := by
  decide

def letterAttribute : Bytes × QuotedAttribute :=
  ([], ⟨32, bytes "k", bytes "v", separates_blank, isName_k, plain_value⟩)

theorem letter_gaps : ∀ a ∈ [letterAttribute], IsGap a.1 := by
  simp [letterAttribute, IsGap]

/-- A section with markup in it, an empty element and an element with a value. -/
def letter : Content :=
  .element noText
    { plainTag "a" isName_a with
      attributes := [letterAttribute]
      gaps := letter_gaps }
    (.cdata noText ⟨bytes "<x>", letter_section⟩
      (.empty ⟨bytes "  ", plain_blanks⟩ (plainTag "b" isName_b)
        (.element noText (plainTag "c" isName_c) (.done ⟨bytes " y&gt; ", plain_text⟩)
          (.done noText))))
    (.done noText)

theorem tidy_plainTag (name : String) (h : IsName (bytes name)) : (plainTag name h).Tidy where
  space := by
    intro hspace
    cases hspace
  kept := fun _ ha => absurd ha List.not_mem_nil

theorem parse_letter : letter.text = bytes "<a k=\"v\"><![CDATA[<x>]]>  <b/><c> y&gt; </c></a>" ∧
    ∃ x, ({} : XmlParser).parse letter.text = .ok (xmlliteparserOk, x) ∧ x.xmlElements =
      [{ xmlTagName := some (bytes "a"), xmlAttributes := [(bytes "k", bytes "v")],
         xmlCDATA := some (bytes "<x>") },
       { xmlTagName := some (bytes "b") }, { xmlTagName := some (bytes "/>") },
       { xmlTagName := some (bytes "c"), xmlValue := some (bytes "y>") },
       { xmlTagName := some (bytes "/c") }, { xmlTagName := some (bytes "/a") }] := by
  have htext : letter.text =
      bytes "<a k=\"v\"><![CDATA[<x>]]>  <b/><c> y&gt; </c></a>" := by decide
  have hnone : Blank [] := fun _ h => absurd h List.not_mem_nil
  have hgaps : Blank (bytes "  ") := by
    simp [Blank, bytes, isWhite]
  have horderly : letter.Orderly .quiet := by
    refine ⟨hnone, ⟨by decide, fun a ha => ?_⟩, ⟨hnone, .inl rfl, ⟨hgaps, by decide⟩,
      tidy_plainTag _ _, hnone, tidy_plainTag _ _, trivial, hnone⟩, hnone⟩
    obtain rfl := List.mem_singleton.mp ha
    refine ⟨by decide, by simp [letterAttribute, bytes], fun u w huw => ?_⟩
    have hmark : 63 ∈ u ++ 63 :: w := List.mem_append_right u List.mem_cons_self
    rw [← huw] at hmark
    exact absurd hmark (by decide)
  have hok : (({} : XmlParser).parse letter.text).map (·.1) = .ok xmlliteparserOk := by
    rw [htext]
    decide +kernel
  have hreturns : ∃ x, ({} : XmlParser).parse letter.text = .ok (xmlliteparserOk, x) := by
    cases hparse : ({} : XmlParser).parse letter.text with
    | error e =>
      rw [hparse] at hok
      cases hok
    | ok r =>
      rw [hparse] at hok
      exact ⟨r.2, by rw [← Except.ok.inj hok]⟩
  have hrooms := (parse_ok_iff .refl letter.zero_notMem_text).mp hreturns
  obtain ⟨hreturned, hlist⟩ := parse_document_iff .refl horderly
  obtain ⟨x, hparse⟩ := hreturned.mpr hrooms
  exact ⟨htext, x, hparse, (hlist x hparse).trans (by decide)⟩

end XmlParser

end MsgCourier
