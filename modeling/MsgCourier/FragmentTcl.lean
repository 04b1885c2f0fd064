import MsgCourier.Expressions

/-! What `ParseNestedStatements` and `ProcessNestedStatements` make of a fragment that is one
expression. -/
namespace MsgCourier
open ListSearch CText

/-! ### Right brackets -/

def IsRight (c : Byte) : Prop := c = 41 ∨ c = 93

/-- Behind a right bracket there are only right brackets. -/
def ClosedBehind (t : Bytes) : Prop := t.Pairwise fun c d => IsRight c → IsRight d

def BracketFree (s : Bytes) : Prop := ∀ c ∈ s, symbolOf c = none

theorem BracketFree.not_right {s : Bytes} (h : BracketFree s) {c : Byte} (hc : c ∈ s) :
    ¬ IsRight c := by
  have hplain := symbolOf_eq_none_iff.mp (h c hc)
  exact fun hr => hr.elim hplain.2.1 hplain.2.2.2

theorem not_right_of {p : Bytes} (h : 41 ∉ p ∧ 93 ∉ p) : ∀ c ∈ p, ¬ IsRight c := by
  rintro c hc (rfl | rfl)
  · exact h.1 hc
  · exact h.2 hc

theorem isRight_round : ∀ c ∈ bytes ")", IsRight c := by
  unfold IsRight
  decide +kernel

theorem isRight_square : ∀ c ∈ bytes "]", IsRight c := by
  unfold IsRight
  decide +kernel

theorem plain_word {s : Bytes} (h : ∀ c ∈ s, isWord c = true) : BracketFree s :=
  fun c hc => symbolOf_of_isWord (h c hc)

theorem BracketFree.closedBehind {s : Bytes} (h : BracketFree s) : ClosedBehind s :=
  List.pairwise_iff_forall_sublist.mpr fun hsub hc =>
    absurd hc (h.not_right (hsub.subset List.mem_cons_self))

/-- The shape is kept by a text in front without right brackets and by right brackets behind. -/
theorem ClosedBehind.around {p t q : Bytes} (h : ClosedBehind t) (hp : ∀ c ∈ p, ¬ IsRight c)
    (hq : ∀ c ∈ q, IsRight c) : ClosedBehind (p ++ t ++ q) := by
  have hpt : ClosedBehind (p ++ t) := by
    apply List.pairwise_append.mpr
    refine ⟨?_, h, fun c hc d _ hr => absurd hr (hp c hc)⟩
    exact List.pairwise_iff_forall_sublist.mpr fun hsub hc =>
      absurd hc (hp _ (hsub.subset List.mem_cons_self))
  apply List.pairwise_append.mpr
  refine ⟨hpt, ?_, fun _ _ d hd _ => hq d hd⟩
  exact List.pairwise_iff_forall_sublist.mpr fun hsub _ =>
    hq _ (hsub.subset (List.mem_cons_of_mem _ List.mem_cons_self))

theorem ClosedBehind.of_infix {s t : Bytes} (h : ClosedBehind t) (hst : s <:+: t) :
    ClosedBehind s := List.Pairwise.sublist hst.sublist h

/-! ### The parts of any fragment -/

structure StatementParts.AllBracketFree (parts : StatementParts) : Prop where
  stack : ∀ elm ∈ parts.stack, BracketFree elm.string
  queue : ∀ elm ∈ parts.queue, BracketFree elm.string

theorem StatementParts.AllBracketFree.add {parts : StatementParts} (h : parts.AllBracketFree)
    {text : Bytes}
    (htext : BracketFree text) (symbol : SymbolType) : (parts.add symbol text).AllBracketFree := by
  have htail : BracketFree text.tail := fun c hc => htext c (List.mem_of_mem_tail hc)
  cases symbol with
  | leftParem =>
    refine ⟨?_, h.queue⟩
    intro elm helm
    rcases List.mem_cons.mp helm with rfl | hold
    · dsimp only
      split_ifs
      · exact htail
      · exact htext
    · exact h.stack elm hold
  | leftBrace => exact ⟨List.forall_mem_cons.mpr ⟨htext, h.stack⟩, h.queue⟩
  | rightParem | rightBrace =>
    refine ⟨h.stack, ?_⟩
    intro elm helm
    rcases List.mem_append.mp helm with hold | hnew
    · exact h.queue elm hold
    · obtain rfl := List.mem_singleton.mp hnew
      exact htext

/-- What stands between two brackets has none. -/
theorem parseNestedLoop_plain {parts : StatementParts} (h : parts.AllBracketFree) {text : Bytes}
    (htext : BracketFree text) (s : Bytes) : (parseNestedLoop parts text s).AllBracketFree := by
  induction s generalizing parts text with
  | nil => exact h
  | cons ch rest ih =>
    unfold parseNestedLoop
    cases hsymbol : symbolOf ch with
    | some symbol => exact ih (h.add htext symbol) (by intro c hc; cases hc)
    | none =>
      apply ih h
      intro c hc
      rcases List.mem_append.mp hc with hold | hnew
      · exact htext c hold
      · obtain rfl := List.mem_singleton.mp hnew
        exact hsymbol

/-- Whatever the brackets are, the text that is made of them opens before it closes. -/
structure NestedText.Closed (x : NestedText) : Prop where
  statement : ClosedBehind x.sStatement
  last : ClosedBehind x.sLastStatement

theorem closedBehind_innerText {rightElm : StatementParseElement} (h : BracketFree rightElm.string)
    {sLastStatement : Bytes} (hlast : ClosedBehind sLastStatement) :
    ClosedBehind (innerText rightElm sLastStatement) := by
  unfold innerText
  split_ifs
  · exact hlast
  · exact h.closedBehind

/-- A wrapper: its own text and a name in front, one right bracket behind. -/
theorem closedBehind_wrapper {p name q inner r : Bytes} (hp : ∀ c ∈ p, ¬ IsRight c)
    (hname : BracketFree name) (hq : ∀ c ∈ q, ¬ IsRight c) (hinner : ClosedBehind inner)
    (hr : ∀ c ∈ r, IsRight c) : ClosedBehind (p ++ name ++ q ++ inner ++ r) := by
  refine hinner.around ?_ hr
  intro c hc
  rcases List.mem_append.mp hc with hfront | hc
  · rcases List.mem_append.mp hfront with hc | hc
    · exact hp c hc
    · exact hname.not_right hc
  · exact hq c hc

section
variable {leftElm rightElm : StatementParseElement} {x : NestedText}

theorem handleArray_closed (hx : x.Closed) (hleft : BracketFree leftElm.string)
    (hright : BracketFree rightElm.string) : (handleArray leftElm rightElm x).Closed := by
  have hinner := closedBehind_innerText hright hx.last
  unfold handleArray
  split
  · have hwrap : ClosedBehind (bytes "[lindex " ++ leftElm.string ++ bytes " " ++
        innerText rightElm x.sLastStatement ++ bytes "]") :=
      closedBehind_wrapper (not_right_of (by decide)) hleft (not_right_of (by decide)) hinner
        isRight_square
    exact ⟨hwrap, hwrap⟩
  · have hwrap : ClosedBehind (bytes "[" ++ leftElm.string ++ bytes " " ++
        innerText rightElm x.sLastStatement ++ bytes "]") :=
      closedBehind_wrapper (not_right_of (by decide)) hleft (not_right_of (by decide)) hinner
        isRight_square
    exact ⟨hwrap, hwrap⟩
  · exact hx
  · exact hx

theorem mapName_plain (hleft : BracketFree leftElm.string) {name : Bytes}
    (h : mapName leftElm rightElm = some name) : BracketFree name := by
  unfold mapName at h
  split_ifs at h
  · obtain rfl := Option.some.inj h
    exact hleft
  · obtain rfl := Option.some.inj h
    exact fun c hc => hleft c (List.mem_of_mem_tail hc)

theorem handleMap_closed (hx : x.Closed) (hleft : BracketFree leftElm.string)
    (hright : BracketFree rightElm.string) {y : NestedText}
    (hok : handleMap leftElm rightElm x = .ok y) : y.Closed := by
  have hinner := closedBehind_innerText hright hx.last
  unfold handleMap at hok
  cases hname : mapName leftElm rightElm with
  | none =>
    rw [hname] at hok
    split at hok
    · cases hok
    · cases hok
    · exact Except.ok.inj hok ▸ hx
    · exact Except.ok.inj hok ▸ hx
  | some name =>
    rw [hname] at hok
    have hwrap : ClosedBehind (bytes "$" ++ name ++ bytes "(" ++
        innerText rightElm x.sLastStatement ++ bytes ")") :=
      closedBehind_wrapper (not_right_of (by decide)) (mapName_plain hleft hname)
        (not_right_of (by decide)) hinner isRight_round
    split at hok
    · exact Except.ok.inj hok ▸ ⟨hwrap, hwrap⟩
    · exact Except.ok.inj hok ▸ ⟨hwrap, hwrap⟩
    · exact Except.ok.inj hok ▸ hx
    · exact Except.ok.inj hok ▸ hx

end

theorem processNestedLoop_closed {indeterminate : Bytes → Option StatementType}
    {stack queue : List StatementParseElement} (hstack : ∀ elm ∈ stack, BracketFree elm.string)
    (hqueue : ∀ elm ∈ queue, BracketFree elm.string) {x : NestedText} (hx : x.Closed) {s : Bytes}
    (hok : processNestedLoop indeterminate stack queue x = .ok s) : ClosedBehind s := by
  induction stack generalizing queue x with
  | nil => exact Except.ok.inj hok ▸ hx.statement
  | cons leftElm stack ih =>
    cases queue with
    | nil => exact Except.ok.inj hok ▸ hx.statement
    | cons rightElm queue =>
      have hl := hstack leftElm List.mem_cons_self
      have hr := hqueue rightElm List.mem_cons_self
      have hs : ∀ elm ∈ stack, BracketFree elm.string := fun elm h =>
        hstack elm (List.mem_cons_of_mem _ h)
      have hq : ∀ elm ∈ queue, BracketFree elm.string := fun elm h =>
        hqueue elm (List.mem_cons_of_mem _ h)
      unfold processNestedLoop at hok
      split at hok
      · exact ih hs hq (handleArray_closed hx hl hr) hok
      · obtain ⟨y, hy, hok⟩ := bind_eq_ok.mp hok
        exact ih hs hq (handleMap_closed hx hl hr hy) hok
      · exact ih hs hq hx hok

theorem processNestedStatements_of_loop {indeterminate : Bytes → Option StatementType}
    {parts : StatementParts} (hlen : parts.stack.length = parts.queue.length) {s : Bytes} :
    processNestedStatements indeterminate parts = .ok s ↔
      processNestedLoop indeterminate parts.stack parts.queue {} = .ok s := by
  unfold processNestedStatements
  rw [if_neg (not_not_intro hlen)]
  split
  · rename_i herr
    rw [herr]
    exact iff_of_false (fun h => nomatch h) fun h => nomatch h
  · exact Iff.rfl

theorem processNested_closed {indeterminate : Bytes → Option StatementType} {s t : Bytes}
    (hok : processNestedStatements indeterminate (parseNestedLoop {} [] s) = .ok t) :
    ClosedBehind t := by
  have hnil : ClosedBehind [] := List.Pairwise.nil
  have hplain : (parseNestedLoop {} [] s).AllBracketFree := by
    apply parseNestedLoop_plain
    · exact ⟨List.forall_mem_nil _, List.forall_mem_nil _⟩
    · exact List.forall_mem_nil _
  by_cases hlen : (parseNestedLoop {} [] s).stack.length = (parseNestedLoop {} [] s).queue.length
  · exact processNestedLoop_closed hplain.stack hplain.queue ⟨hnil, hnil⟩
      ((processNestedStatements_of_loop hlen).mp hok)
  · unfold processNestedStatements at hok
    rw [if_pos hlen] at hok
    exact Except.ok.inj hok ▸ hnil

/-! ### Arguments with one expression at most -/

namespace Forest

def IsText : Forest → Prop
  | nil => True
  | text _ rest => rest.IsText
  | expr _ _ _ _ => False

/-- An expression is the last thing in its argument. -/
def Comb : Forest → Prop
  | nil => True
  | text _ rest => rest.Comb
  | expr _ _ inner rest => rest = nil ∧ inner.Comb

/-- An expression is all that stands in its argument; the innermost argument is a text, which has no
comma between round brackets. -/
def Straight : ExprKind → Forest → Prop
  | _, nil => True
  | parent, text c rest => rest.IsText ∧ (parent = .call → 44 ∉ (text c rest).render)
  | _, expr k _ inner rest => rest = nil ∧ inner.Straight k

theorem IsText.comb {F : Forest} (h : F.IsText) : F.Comb := by
  induction F with
  | nil => exact trivial
  | text c rest ih => exact ih h
  | expr k name inner rest _ _ => exact h.elim

theorem Straight.comb {F : Forest} {k : ExprKind} (h : F.Straight k) : F.Comb := by
  induction F generalizing k with
  | nil => exact trivial
  | text c rest _ => exact IsText.comb (F := rest) h.1
  | expr k' name inner rest ihinner _ => exact ⟨h.1, ihinner h.2⟩

theorem IsText.tcl_eq {F : Forest} (h : F.IsText) : F.tcl = F.render := by
  induction F with
  | nil => rfl
  | text c rest ih =>
    unfold tcl render
    rw [ih h]
  | expr k name inner rest _ _ => exact h.elim

end Forest

theorem wrap_eq (k : ExprKind) (name : ExprName) :
    ∃ a b, (a.head? = some 91 ∨ a.head? = some 36) ∧ (∀ c ∈ b, IsRight c) ∧ b ≠ [] ∧
      ∀ sInner, k.wrap name sInner = a ++ sInner ++ b := by
  cases k with
  | call => exact ⟨bytes "[" ++ name.1 ++ bytes " ", bytes "]", .inl rfl,
      isRight_square, by decide, fun _ => rfl⟩
  | list => exact ⟨bytes "[lindex $" ++ name.1 ++ bytes " ", bytes "]", .inl rfl,
      isRight_square, by decide, fun _ => rfl⟩
  | map => exact ⟨bytes "$" ++ name.1 ++ bytes "(", bytes ")", .inr rfl,
      isRight_round, by decide, fun _ => rfl⟩

theorem wrap_injective (k : ExprKind) (name : ExprName) {s t : Bytes}
    (h : k.wrap name s = k.wrap name t) : s = t := by
  obtain ⟨a, b, -, -, -, hwrap⟩ := wrap_eq k name
  rw [hwrap s, hwrap t] at h
  exact List.append_cancel_left (List.append_cancel_right h)

namespace Forest

/-- A text of Tcl that opens before it closes comes from such a statement only. -/
theorem comb_of_closedBehind {F : Forest} (h : ClosedBehind F.tcl) : F.Comb := by
  induction F with
  | nil => exact trivial
  | text c rest ih => exact ih (h.of_infix (List.suffix_cons c.1 rest.tcl).isInfix)
  | expr k name inner rest ihinner ihrest =>
    obtain ⟨a, b, -, hright, hb, hwrap⟩ := wrap_eq k name
    unfold tcl at h
    rw [hwrap, List.append_assoc] at h
    refine ⟨?_, ihinner (h.of_infix ⟨a, b ++ rest.tcl, by rw [List.append_assoc]⟩)⟩
    have htail : ∀ d ∈ rest.tcl, IsRight d := by
      obtain ⟨c, hc⟩ := List.exists_mem_of_ne_nil b hb
      have hbr : ClosedBehind (b ++ rest.tcl) := h.of_infix (List.suffix_append _ _).isInfix
      exact fun d hd => (List.pairwise_append.mp hbr).2.2 c hc d hd (hright c hc)
    cases rest with
    | nil => rfl
    | text c rest =>
      have hplain : BracketFree [c.1] := List.forall_mem_singleton.mpr c.2
      exact absurd (htail c.1 List.mem_cons_self) (hplain.not_right (List.mem_singleton_self _))
    | expr k' name' inner' rest' =>
      obtain ⟨a', b', hhead, -, -, hwrap'⟩ := wrap_eq k' name'
      have hmem (c : Byte) (hc : a'.head? = some c) : c ∈ (expr k' name' inner' rest').tcl := by
        unfold tcl
        rw [hwrap']
        simp only [List.mem_append]
        exact .inl (.inl (.inl (List.mem_of_head? hc)))
      rcases hhead with hhead | hhead
      · have hleft : ∀ c ∈ [91], ¬ IsRight c := not_right_of (by decide)
        exact absurd (htail 91 (hmem 91 hhead)) (hleft 91 (List.mem_singleton_self _))
      · have hdollar : ∀ c ∈ [36], ¬ IsRight c := not_right_of (by decide)
        exact absurd (htail 36 (hmem 36 hhead)) (hdollar 36 (List.mem_singleton_self _))

end Forest

/-! ### The parts of such a fragment -/

namespace ExprKind

def leftSymbol : ExprKind → SymbolType
  | call => .leftParem
  | list | map => .leftBrace

def rightSymbol : ExprKind → SymbolType
  | call => .rightParem
  | list | map => .rightBrace

/-- The element on the stack for a left bracket with this text in front. -/
def leftElm (k : ExprKind) (text : Bytes) : StatementParseElement :=
  ⟨k.leftSymbol, statementTypeOf text,
    if k = call ∧ text.head? = some 36 then text.tail else text⟩

def rightElm (k : ExprKind) (text : Bytes) : StatementParseElement :=
  ⟨k.rightSymbol, statementTypeOf text, text⟩

end ExprKind

theorem add_leftSymbol (parts : StatementParts) (k : ExprKind) (text : Bytes) :
    parts.add k.leftSymbol text = { parts with stack := k.leftElm text :: parts.stack } := by
  cases k with
  | call =>
    unfold StatementParts.add ExprKind.leftElm
    simp only [ExprKind.leftSymbol, true_and]
  | list => rfl
  | map => rfl

theorem add_rightSymbol (parts : StatementParts) (k : ExprKind) (text : Bytes) :
    parts.add k.rightSymbol text = { parts with queue := parts.queue ++ [k.rightElm text] } := by
  cases k <;> rfl

theorem parseNestedLoop_plain_append {p : Bytes} (hp : BracketFree p) (parts : StatementParts)
    (text s : Bytes) :
    parseNestedLoop parts text (p ++ s) = parseNestedLoop parts (text ++ p) s := by
  induction p generalizing text with
  | nil => rw [List.append_nil, List.nil_append]
  | cons c p ih =>
    have hc : symbolOf c = none := hp c List.mem_cons_self
    rw [List.cons_append, parseNestedLoop, hc]
    dsimp only
    rw [ih (fun c' hc' => hp c' (List.mem_cons_of_mem _ hc')), List.append_assoc]
    rfl

theorem parseNestedLoop_opening (parts : StatementParts) (k : ExprKind) (name : ExprName)
    (text s : Bytes) : parseNestedLoop parts text (k.opening name ++ s) =
      parseNestedLoop { parts with
        stack := k.leftElm (text ++ k.pattern.sigil :: name.1) :: parts.stack } [] s := by
  have hplain : BracketFree (k.pattern.sigil :: name.1) :=
    List.forall_mem_cons.mpr ⟨symbolOf_sigil k, plain_word name.2⟩
  have hleft : symbolOf k.pattern.left = some k.leftSymbol := by cases k <;> decide
  unfold ExprKind.opening
  rw [List.append_assoc, parseNestedLoop_plain_append hplain, List.singleton_append,
    parseNestedLoop, hleft]
  dsimp only
  rw [add_leftSymbol]

theorem parseNestedLoop_right (parts : StatementParts) (k : ExprKind) (text s : Bytes) :
    parseNestedLoop parts text (k.pattern.right :: s) =
      parseNestedLoop { parts with queue := parts.queue ++ [k.rightElm text] } [] s := by
  have hright : symbolOf k.pattern.right = some k.rightSymbol := by cases k <;> decide
  rw [parseNestedLoop, hright]
  dsimp only
  rw [add_rightSymbol]

namespace Forest

/-- The text behind the last bracket. -/
def pending (t : Bytes) : Forest → Bytes
  | nil => t
  | text c rest => rest.pending (t ++ [c.1])
  | expr _ _ _ _ => []

/-- The elements of left and right brackets that belong together, the innermost in front. -/
def pairs (t : Bytes) : Forest → List (StatementParseElement × StatementParseElement)
  | nil => []
  | text c rest => rest.pairs (t ++ [c.1])
  | expr k name inner _ =>
    inner.pairs [] ++ [(k.leftElm (t ++ k.pattern.sigil :: name.1), k.rightElm (inner.pending []))]

theorem parse_comb {F : Forest} (h : F.Comb) (parts : StatementParts) (t s : Bytes) :
    parseNestedLoop parts t (F.render ++ s) =
      parseNestedLoop ⟨(F.pairs t).map Prod.fst ++ parts.stack,
        parts.queue ++ (F.pairs t).map Prod.snd⟩ (F.pending t) s := by
  induction F generalizing parts t s with
  | nil =>
    unfold pairs pending render
    rw [List.map_nil, List.map_nil, List.append_nil, List.nil_append, List.nil_append]
  | text c rest ih =>
    have hplain : BracketFree [c.1] := List.forall_mem_singleton.mpr c.2
    unfold pairs pending render
    rw [← ih h, ← parseNestedLoop_plain_append hplain]
    rfl
  | expr k name inner rest ihinner _ =>
    obtain ⟨rfl, hinner⟩ := h
    rw [render_expr, parseNestedLoop_opening, ihinner hinner, parseNestedLoop_right, pairs, pending]
    simp only [List.map_append, List.map_cons, List.map_nil, List.append_assoc,
      List.singleton_append]
    rfl

end Forest

/-! ### The text that is made of them -/

section
variable (indeterminate : Bytes → Option StatementType)

def pairStep (x : NestedText) (pair : StatementParseElement × StatementParseElement) :
    NestedText :=
  match pair.1.statementType <|> indeterminate pair.1.string with
  | some .array => handleArray pair.1 pair.2 x
  | some .map => (handleMap pair.1 pair.2 x).toOption.getD x
  | none => x

def nested (pairs : List (StatementParseElement × StatementParseElement)) : NestedText :=
  pairs.foldl (pairStep indeterminate) {}

variable {indeterminate}

theorem nested_append (indeterminate : Bytes → Option StatementType)
    (pairs : List (StatementParseElement × StatementParseElement))
    (pair : StatementParseElement × StatementParseElement) :
    nested indeterminate (pairs ++ [pair]) =
      pairStep indeterminate (nested indeterminate pairs) pair := by
  unfold nested
  rw [List.foldl_append]
  rfl

/-- There is a sigil to take off. -/
def HasName (elm : StatementParseElement) : Prop :=
  elm.statementType = some .array ∨ elm.string ≠ []

theorem handleMap_hasName {leftElm rightElm : StatementParseElement} (h : leftElm.string ≠ [])
    (x : NestedText) : ∃ y, handleMap leftElm rightElm x = .ok y := by
  have hname : ∃ name, mapName leftElm rightElm = some name := by
    unfold mapName
    split_ifs <;> exact ⟨_, rfl⟩
  obtain ⟨name, hname⟩ := hname
  unfold handleMap
  rw [hname]
  split <;> exact ⟨_, rfl⟩

/-- Left parts with names do not throw, whatever stands in the queue. -/
theorem processNestedLoop_hasName {stack queue : List StatementParseElement}
    (h : ∀ elm ∈ stack, HasName elm) (x : NestedText) :
    ∃ s, processNestedLoop indeterminate stack queue x = .ok s := by
  induction stack generalizing queue x with
  | nil => exact ⟨_, rfl⟩
  | cons leftElm stack ih =>
    have hrest (queue : List StatementParseElement) (x : NestedText) :
        ∃ s, processNestedLoop indeterminate stack queue x = .ok s :=
      ih (fun elm helm => h elm (List.mem_cons_of_mem _ helm)) x
    cases queue with
    | nil => exact ⟨_, rfl⟩
    | cons rightElm queue =>
      unfold processNestedLoop
      rcases h leftElm List.mem_cons_self with harray | hne
      · rw [harray]
        exact hrest _ _
      · split
        · exact hrest _ _
        · obtain ⟨y, hy⟩ := @handleMap_hasName leftElm rightElm hne x
          rw [hy, ok_bind]
          exact hrest _ _
        · exact hrest _ _

theorem processNestedLoop_pairs {pairs : List (StatementParseElement × StatementParseElement)}
    (h : ∀ pair ∈ pairs, HasName pair.1) (x : NestedText) :
    processNestedLoop indeterminate (pairs.map Prod.fst) (pairs.map Prod.snd) x =
      .ok (pairs.foldl (pairStep indeterminate) x).sStatement := by
  induction pairs generalizing x with
  | nil => rfl
  | cons pair pairs ih =>
    obtain ⟨leftElm, rightElm⟩ := pair
    have hname : HasName leftElm := h (leftElm, rightElm) List.mem_cons_self
    have hrest := ih fun pair hpair => h pair (List.mem_cons_of_mem _ hpair)
    rw [List.map_cons, List.map_cons, List.foldl_cons, processNestedLoop, pairStep]
    dsimp only
    rcases hname with harray | hne
    · rw [harray]
      exact hrest _
    · cases leftElm.statementType <|> indeterminate leftElm.string with
      | none => exact hrest x
      | some statementType =>
        cases statementType with
        | array => exact hrest _
        | map =>
          obtain ⟨y, hy⟩ := @handleMap_hasName leftElm rightElm hne x
          dsimp only
          rw [hy, ok_bind]
          exact hrest y

end

theorem hasName_leftElm (k : ExprKind) (t : Bytes) (name : ExprName) :
    HasName (k.leftElm (t ++ k.pattern.sigil :: name.1)) := by
  have hne : t ++ k.pattern.sigil :: name.1 ≠ [] :=
    List.append_ne_nil_of_right_ne_nil _ (List.cons_ne_nil _ _)
  unfold HasName ExprKind.leftElm
  by_cases hcall : k = .call ∧ (t ++ k.pattern.sigil :: name.1).head? = some 36
  · left
    unfold statementTypeOf
    rw [if_pos hcall.2]
  · right
    rw [if_neg hcall]
    exact hne

theorem Forest.hasName_pairs (F : Forest) (t : Bytes) : ∀ pair ∈ F.pairs t, HasName pair.1 := by
  induction F generalizing t with
  | nil => exact List.forall_mem_nil _
  | text c rest ih => exact ih (t ++ [c.1])
  | expr k name inner rest ihinner _ =>
    intro pair hpair
    rw [pairs] at hpair
    rcases List.mem_append.mp hpair with h | h
    · exact ihinner [] pair h
    · obtain rfl := List.mem_singleton.mp h
      exact hasName_leftElm k t name

/-- The pair of an expression that stands alone. -/
theorem pairStep_own (indeterminate : Bytes → Option StatementType) (x : NestedText) (k : ExprKind)
    (name : ExprName) (text : Bytes) :
    pairStep indeterminate x (k.leftElm (k.pattern.sigil :: name.1), k.rightElm text) =
      ⟨k.wrap name (innerText (k.rightElm text) x.sLastStatement),
        k.wrap name (innerText (k.rightElm text) x.sLastStatement)⟩ := by
  have hlindex (s : Bytes) : bytes "[lindex " ++ 36 :: s = bytes "[lindex $" ++ s := by
    have hfront : bytes "[lindex $" = bytes "[lindex " ++ [36] := by decide
    rw [hfront, List.append_assoc]
    rfl
  cases k with
  | call => rfl
  | list =>
    unfold ExprKind.wrap
    dsimp only
    rw [← hlindex name.1]
    rfl
  | map =>
    have hname : mapName (ExprKind.map.leftElm (35 :: name.1)) (ExprKind.map.rightElm text) =
        some name.1 := by
      have hright : ¬ ((ExprKind.map.rightElm text).symbol = .rightParem ∧
          (ExprKind.map.rightElm text).string.length ≠ 0 ∧
            44 ∉ (ExprKind.map.rightElm text).string) := fun h => SymbolType.noConfusion h.1
      have hne : (ExprKind.map.leftElm (35 :: name.1)).string ≠ [] := List.cons_ne_nil _ _
      unfold mapName
      rw [if_neg hright, if_neg hne]
      rfl
    have hstep : pairStep indeterminate x (ExprKind.map.leftElm (35 :: name.1),
        ExprKind.map.rightElm text) = (handleMap (ExprKind.map.leftElm (35 :: name.1))
          (ExprKind.map.rightElm text) x).toOption.getD x := rfl
    have hsigil : ExprKind.map.pattern.sigil = 35 := rfl
    rw [hsigil, hstep]
    unfold handleMap
    rw [hname]
    rfl

/-! ### Where a text of Tcl begins -/

def BeginsTcl (s : Bytes) : Prop := s = [] ∨ s.head? = some 91 ∨ s.head? = some 36

theorem handleArray_begins {leftElm rightElm : StatementParseElement}
    (hright : rightElm.symbol = .rightParem ∨ rightElm.symbol = .rightBrace) (x : NestedText) :
    (handleArray leftElm rightElm x).sLastStatement.head? = some 91 := by
  unfold handleArray
  rcases hright with h | h
  · rw [h]
    rfl
  · rw [h]
    rfl

theorem pairStep_begins {indeterminate : Bytes → Option StatementType}
    {pair : StatementParseElement × StatementParseElement} {x : NestedText}
    (hright : pair.2.symbol = .rightParem ∨ pair.2.symbol = .rightBrace)
    (hx : BeginsTcl x.sLastStatement) :
    BeginsTcl (pairStep indeterminate x pair).sLastStatement := by
  unfold pairStep
  split
  · exact .inr (.inl (handleArray_begins hright x))
  · unfold handleMap
    cases mapName pair.1 pair.2 with
    | none =>
      rcases hright with h | h
      · rw [h]
        exact hx
      · rw [h]
        exact hx
    | some name =>
      rcases hright with h | h
      · rw [h]
        exact .inr (.inr rfl)
      · rw [h]
        exact .inr (.inr rfl)
  · exact hx

theorem rightElm_symbol (k : ExprKind) (text : Bytes) :
    (k.rightElm text).symbol = .rightParem ∨ (k.rightElm text).symbol = .rightBrace := by
  cases k
  · exact .inl rfl
  · exact .inr rfl
  · exact .inr rfl

namespace Forest

variable {indeterminate : Bytes → Option StatementType} {F : Forest}

theorem nested_begins (indeterminate : Bytes → Option StatementType) (F : Forest) (t : Bytes) :
    BeginsTcl (nested indeterminate (F.pairs t)).sLastStatement := by
  induction F generalizing t with
  | nil => exact .inl rfl
  | text c rest ih => exact ih (t ++ [c.1])
  | expr k name inner rest ihinner _ =>
    rw [pairs, nested_append]
    exact pairStep_begins (rightElm_symbol k _) (ihinner [])

/-- A text with a dollar sign in front makes the name of a list or a call of what follows. -/
theorem nested_dollar (indeterminate : Bytes → Option StatementType) (hF : ¬ F.IsText)
    {t : Bytes} (ht : t.head? = some 36) :
    (nested indeterminate (F.pairs t)).sLastStatement.head? = some 91 := by
  induction F generalizing t with
  | nil => exact absurd trivial hF
  | text c rest ih =>
    apply ih hF
    rw [List.head?_append, ht]
    rfl
  | expr k name inner rest _ _ =>
    have harray : statementTypeOf (t ++ k.pattern.sigil :: name.1) = some .array := by
      unfold statementTypeOf
      rw [List.head?_append, ht]
      rfl
    rw [pairs, nested_append]
    unfold pairStep ExprKind.leftElm
    rw [harray]
    exact handleArray_begins (rightElm_symbol k _) _

theorem IsText.pending_eq (h : F.IsText) (t : Bytes) : F.pending t = t ++ F.render := by
  induction F generalizing t with
  | nil => exact (List.append_nil t).symm
  | text c rest ih =>
    rw [pending, ih h, List.append_assoc]
    rfl
  | expr k name inner rest _ _ => exact h.elim

theorem IsText.pairs_eq (h : F.IsText) (t : Bytes) : F.pairs t = [] := by
  induction F generalizing t with
  | nil => rfl
  | text c rest ih => exact ih h (t ++ [c.1])
  | expr k name inner rest _ _ => exact h.elim

theorem pending_eq_nil (h : ¬ F.IsText) (t : Bytes) : F.pending t = [] := by
  induction F generalizing t with
  | nil => exact absurd trivial h
  | text c rest ih => exact ih h (t ++ [c.1])
  | expr k name inner rest _ _ => rfl

theorem innerText_nil (k : ExprKind) (sLastStatement : Bytes) :
    innerText (k.rightElm []) sLastStatement = sLastStatement := by
  unfold innerText
  rw [if_pos (.inl rfl)]

/-- A letter in front of an expression is lost, or taken for a part of the name. -/
theorem last_ne_text (hF : ¬ F.IsText) (c : Letter) (s : Bytes) :
    (nested indeterminate (F.pairs [c.1])).sLastStatement ≠ c.1 :: s := by
  intro h
  have hplain := symbolOf_eq_none_iff.mp c.2
  rcases nested_begins indeterminate F [c.1] with hnil | hleft | hdollar
  · rw [h] at hnil
    exact absurd hnil (List.cons_ne_nil _ _)
  · rw [h] at hleft
    exact hplain.2.2.1 (Option.some.inj hleft)
  · rw [h] at hdollar
    have hc : c.1 = 36 := Option.some.inj hdollar
    have hhead : [c.1].head? = some 36 := by
      rw [hc]
      rfl
    have hlist := nested_dollar indeterminate hF hhead
    rw [h] at hlist
    exact hplain.2.2.1 (Option.some.inj hlist)

/-- The argument comes out right exactly if no expression has anything beside it. -/
theorem innerText_eq_iff (indeterminate : Bytes → Option StatementType) (hF : F.Comb)
    (k : ExprKind) :
    innerText (k.rightElm (F.pending [])) (nested indeterminate (F.pairs [])).sLastStatement =
      F.tcl ↔ F.Straight k := by
  induction F generalizing k with
  | nil => exact ⟨fun _ => trivial, fun _ => innerText_nil k []⟩
  | text c rest _ =>
    by_cases hrest : rest.IsText
    · have htext : (text c rest).IsText := hrest
      rw [htext.pending_eq, htext.pairs_eq, htext.tcl_eq, List.nil_append]
      have hlast : (nested indeterminate []).sLastStatement = [] := rfl
      rw [hlast]
      unfold innerText
      by_cases hcomma : k = .call ∧ 44 ∈ (text c rest).render
      · have hlost : (k.rightElm (text c rest).render).string.length = 0 ∨
            (k.rightElm (text c rest).render).symbol = .rightParem ∧
              44 ∈ (k.rightElm (text c rest).render).string := by
          right
          exact ⟨by rw [hcomma.1]; rfl, hcomma.2⟩
        rw [if_pos hlost]
        constructor
        · intro h
          cases h
        · intro h
          exact absurd hcomma.2 (h.2 hcomma.1)
      · have hkept : ¬ ((k.rightElm (text c rest).render).string.length = 0 ∨
            (k.rightElm (text c rest).render).symbol = .rightParem ∧
              44 ∈ (k.rightElm (text c rest).render).string) := by
          rintro (hlen | hright)
          · cases hlen
          · apply hcomma
            refine ⟨?_, hright.2⟩
            cases k
            · rfl
            · exact SymbolType.noConfusion hright.1
            · exact SymbolType.noConfusion hright.1
        rw [if_neg hkept]
        exact ⟨fun _ => ⟨hrest, fun hk hin => hcomma ⟨hk, hin⟩⟩, fun _ => rfl⟩
    · have htext : ¬ (text c rest).IsText := hrest
      rw [pending_eq_nil htext, innerText_nil]
      constructor
      · intro h
        exact absurd h (last_ne_text hrest c rest.tcl)
      · intro h
        exact absurd h.1 hrest
  | expr k' name inner rest ihinner _ =>
    obtain ⟨rfl, hinner⟩ := hF
    have hpairs : (expr k' name inner nil).pairs [] = inner.pairs [] ++
        [(k'.leftElm (k'.pattern.sigil :: name.1), k'.rightElm (inner.pending []))] := by
      rw [pairs]
      rfl
    have htcl : (expr k' name inner nil).tcl = k'.wrap name inner.tcl := by
      rw [tcl]
      exact List.append_nil _
    rw [pending_eq_nil (F := expr k' name inner nil) id, innerText_nil, hpairs, nested_append,
      pairStep_own, htcl]
    dsimp only
    rw [Straight, ← ihinner hinner k']
    constructor
    · intro h
      exact ⟨rfl, wrap_injective k' name h⟩
    · intro h
      rw [h.2]

end Forest

/-! ### A fragment and its declaration -/

/-- A comma needs a quote somewhere. -/
def CommaQuoted (s : Bytes) : Prop := 44 ∈ s → 39 ∈ s ∨ 34 ∈ s

theorem parseNestedStatements_ok_iff {s : Bytes} {parts : StatementParts} :
    parseNestedStatements s = .ok parts ↔ CommaQuoted s ∧ parts = parseNestedLoop {} [] s ∧
      parts.stack.length = parts.queue.length := by
  unfold parseNestedStatements CommaQuoted
  by_cases hcomma : 44 ∈ s ∧ (40 ∈ s ∨ 44 ∈ s) ∧ ¬ (39 ∈ s ∨ 34 ∈ s)
  · rw [if_pos hcomma]
    constructor
    · intro h
      cases h
    · intro h
      exact absurd (h.1 hcomma.1) hcomma.2.2
  · have hquoted : 44 ∈ s → 39 ∈ s ∨ 34 ∈ s := by tauto
    rw [if_neg hcomma]
    dsimp only
    by_cases hlen : (parseNestedLoop {} [] s).stack.length = (parseNestedLoop {} [] s).queue.length
    · rw [if_neg (not_not_intro hlen)]
      constructor
      · intro h
        obtain rfl := Except.ok.inj h
        exact ⟨hquoted, rfl, hlen⟩
      · intro h
        rw [h.2.1]
    · rw [if_pos hlen]
      constructor
      · intro h
        cases h
      · intro h
        obtain ⟨-, rfl, hlen'⟩ := h
        exact absurd hlen' hlen

/-- What the code declares for the fragment of one expression is the Tcl of it, exactly if each
argument in it is one text or one expression. -/
theorem declares_iff (indeterminate : Bytes → Option StatementType) (k : ExprKind)
    (name : ExprName) (inner : Forest) :
    (∃ parts, parseNestedStatements (Forest.expr k name inner .nil).render = .ok parts ∧
      processNestedStatements indeterminate parts = .ok (Forest.expr k name inner .nil).tcl) ↔
    inner.Straight k ∧ CommaQuoted (Forest.expr k name inner .nil).render := by
  have hparse (hcomb : inner.Comb) :
      parseNestedLoop {} [] (Forest.expr k name inner .nil).render =
        ⟨((Forest.expr k name inner .nil).pairs []).map Prod.fst,
          ((Forest.expr k name inner .nil).pairs []).map Prod.snd⟩ := by
    have hwhole := Forest.parse_comb (F := .expr k name inner .nil) ⟨rfl, hcomb⟩ {} [] []
    rw [List.append_nil] at hwhole
    rw [hwhole]
    dsimp only
    rw [List.append_nil, List.nil_append]
    rfl
  have hprocess (hcomb : inner.Comb) :
      processNestedStatements indeterminate
          (parseNestedLoop {} [] (Forest.expr k name inner .nil).render) =
        .ok (Forest.expr k name inner .nil).tcl ↔ inner.Straight k := by
    have hsame : ((Forest.expr k name inner .nil).pairs []) = inner.pairs [] ++
        [(k.leftElm (k.pattern.sigil :: name.1), k.rightElm (inner.pending []))] := by
      rw [Forest.pairs]
      rfl
    have htcl : (Forest.expr k name inner .nil).tcl = k.wrap name inner.tcl := by
      rw [Forest.tcl]
      exact List.append_nil _
    rw [hparse hcomb, processNestedStatements_of_loop (by rw [List.length_map, List.length_map]),
      processNestedLoop_pairs (Forest.hasName_pairs _ _)]
    have hnested := nested_append indeterminate (inner.pairs [])
      (k.leftElm (k.pattern.sigil :: name.1), k.rightElm (inner.pending []))
    unfold nested at hnested
    rw [hsame, hnested, pairStep_own, htcl]
    dsimp only
    rw [← Forest.innerText_eq_iff indeterminate hcomb k]
    exact ⟨fun h => wrap_injective k name (Except.ok.inj h), fun h => by rw [← h]; rfl⟩
  constructor
  · intro h
    obtain ⟨parts, hparts, htcl⟩ := h
    obtain ⟨hcomma, rfl, -⟩ := parseNestedStatements_ok_iff.mp hparts
    -- the text that was made opens before it closes
    have hclosed := processNested_closed htcl
    have hcomb : (Forest.expr k name inner .nil).Comb := Forest.comb_of_closedBehind hclosed
    exact ⟨(hprocess hcomb.2).mp htcl, hcomma⟩
  · intro h
    obtain ⟨hstraight, hcomma⟩ := h
    have hlen : (parseNestedLoop {} [] (Forest.expr k name inner .nil).render).stack.length =
        (parseNestedLoop {} [] (Forest.expr k name inner .nil).render).queue.length := by
      rw [hparse hstraight.comb, List.length_map, List.length_map]
    exact ⟨_, parseNestedStatements_ok_iff.mpr ⟨hcomma, rfl, hlen⟩,
      (hprocess hstraight.comb).mpr hstraight⟩

end MsgCourier
