import MsgCourier.XmlParser

/-! The position in the element list of a `cXMLLiteParser`, and the searches for a tag. -/
namespace MsgCourier
open ListSearch CText

/-- The elements of the document and those from the current one on; none are left when the current
node is null. -/
structure XmlCursor where
  xmlElements : List XmlElement
  rest : List XmlElement := []
  deriving DecidableEq, Repr

def XmlElement.isTag (e : XmlElement) (pTag : Bytes) : Bool := e.xmlTagName = some pTag

/-- The first attribute of the name, or the empty text. -/
def XmlElement.getAttributeValue (e : XmlElement) (pAttributeName : String) : Bytes :=
  ((e.xmlAttributes.find? fun a => a.1 = bytes pAttributeName).map (·.2)).getD []

namespace XmlCursor

def findTag (c : XmlCursor) (pTag : Bytes) : Option XmlElement × XmlCursor :=
  match c.xmlElements.dropWhile fun e => ! e.isTag pTag with
  | [] => (none, c)
  | e :: rest => (some e, { c with rest := e :: rest })

/-- The search goes from the node behind the current one to `pTag`. At `pNot` it stops without an
element, and when there is neither, the position is the old one. -/
def findNextTag (c : XmlCursor) (pTag : Bytes) (pNot : Option Bytes) :
    Option XmlElement × XmlCursor :=
  match c.rest.tail.dropWhile fun e => ! (pNot.any e.isTag || e.isTag pTag) with
  | [] => (none, c)
  | e :: rest =>
    (if pNot.any e.isTag then none else some e, { c with rest := e :: rest })

variable {elements skipped rest : List XmlElement} {e d : XmlElement} {pTag : Bytes}

theorem findTag_eq {old : List XmlElement} (hskip : ∀ d ∈ skipped, d.isTag pTag = false)
    (he : e.isTag pTag = true) :
    findTag ⟨skipped ++ e :: rest, old⟩ pTag =
      (some e, ⟨skipped ++ e :: rest, e :: rest⟩) := by
  have hdrop : (skipped ++ e :: rest).dropWhile (fun d => ! d.isTag pTag) = e :: rest := by
    rw [List.dropWhile_append_of_pos fun d hd => by rw [hskip d hd]; rfl,
      List.dropWhile_cons_of_neg (by rw [he]; exact Bool.noConfusion)]
  unfold findTag
  rw [hdrop]

/-- The tag is found behind elements of other names. -/
theorem findNextTag_eq {pNot : Option Bytes}
    (hskip : ∀ d ∈ skipped, pNot.any d.isTag = false ∧ d.isTag pTag = false)
    (hnot : pNot.any e.isTag = false) (he : e.isTag pTag = true) :
    findNextTag ⟨elements, d :: (skipped ++ e :: rest)⟩ pTag pNot =
      (some e, ⟨elements, e :: rest⟩) := by
  have hdrop : (skipped ++ e :: rest).dropWhile
      (fun d => ! (pNot.any d.isTag || d.isTag pTag)) = e :: rest := by
    rw [List.dropWhile_append_of_pos fun d hd => by rw [(hskip d hd).1, (hskip d hd).2]; rfl,
      List.dropWhile_cons_of_neg (by rw [he, Bool.or_true]; exact Bool.noConfusion)]
  unfold findNextTag
  rw [List.tail_cons, hdrop]
  dsimp only
  rw [hnot]
  rfl

/-- The end of a section is found behind elements of other names. -/
theorem findNextTag_not {pNot : Bytes}
    (hskip : ∀ d ∈ skipped, d.isTag pNot = false ∧ d.isTag pTag = false)
    (he : e.isTag pNot = true) :
    findNextTag ⟨elements, d :: (skipped ++ e :: rest)⟩ pTag (some pNot) =
      (none, ⟨elements, e :: rest⟩) := by
  have hdrop : (skipped ++ e :: rest).dropWhile
      (fun d => ! ((some pNot).any d.isTag || d.isTag pTag)) = e :: rest := by
    rw [List.dropWhile_append_of_pos
        fun d hd => by rw [Option.any_some, (hskip d hd).1, (hskip d hd).2]; rfl,
      List.dropWhile_cons_of_neg (by rw [Option.any_some, he]; exact Bool.noConfusion)]
  unfold findNextTag
  rw [List.tail_cons, hdrop]
  dsimp only
  rw [Option.any_some, he]
  rfl

/-- No element has the name, and the position stays. -/
theorem findNextTag_none (hskip : ∀ d ∈ rest, d.isTag pTag = false) :
    findNextTag ⟨elements, d :: rest⟩ pTag none = (none, ⟨elements, d :: rest⟩) := by
  have hdrop :
      rest.dropWhile (fun d => ! ((none : Option Bytes).any d.isTag || d.isTag pTag)) = [] := by
    rw [List.dropWhile_eq_nil_iff]
    intro e he
    rw [hskip e he]
    rfl
  unfold findNextTag
  rw [List.tail_cons, hdrop]

end XmlCursor

end MsgCourier
