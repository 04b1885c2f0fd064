import MsgCourier.MCScript
import MsgCourier.Nesting

/-! The braces of a generated Tcl script, and the tags they come from. -/
namespace MsgCourier
open ListSearch CText Nesting

/-! ### Texts without braces -/

def NoBrace (s : Bytes) : Prop := ∀ c ∈ s, c ≠ 123 ∧ c ≠ 125

instance (s : Bytes) : Decidable (NoBrace s) :=
  List.decidableBAll (fun c => c ≠ 123 ∧ c ≠ 125) s

namespace NoBrace

variable {s t : Bytes}

theorem append (hs : NoBrace s) (ht : NoBrace t) : NoBrace (s ++ t) := by
  intro c hc
  exact (List.mem_append.mp hc).elim (hs c) (ht c)

theorem of_subset (ht : NoBrace t) (hst : s ⊆ t) : NoBrace s := fun c hc => ht c (hst hc)

theorem nil : NoBrace [] := fun _ hc => absurd hc List.not_mem_nil

theorem take (hs : NoBrace s) (n : ℕ) : NoBrace (s.take n) := hs.of_subset (List.take_subset n s)

theorem drop (hs : NoBrace s) (n : ℕ) : NoBrace (s.drop n) := hs.of_subset (List.drop_subset n s)

theorem tail (hs : NoBrace s) : NoBrace s.tail := hs.of_subset (List.tail_subset s)

theorem takeWhile (hs : NoBrace s) (p : Byte → Bool) : NoBrace (s.takeWhile p) :=
  hs.of_subset (List.takeWhile_subset p)

theorem dropWhile (hs : NoBrace s) (p : Byte → Bool) : NoBrace (s.dropWhile p) :=
  hs.of_subset (List.dropWhile_subset p)

theorem decimal (n : ℕ) : NoBrace (decimal n) := by
  intro c hc
  have hdigit := isDigit_of_mem_decimal hc
  constructor
  · rintro rfl
    exact absurd hdigit (by decide)
  · rintro rfl
    exact absurd hdigit (by decide)

end NoBrace

/-! ### A translated statement -/

def StatementParts.BraceFree (parts : StatementParts) : Prop :=
  (∀ elm ∈ parts.stack, NoBrace elm.string) ∧ ∀ elm ∈ parts.queue, NoBrace elm.string

theorem StatementParts.BraceFree.add {parts : StatementParts} (h : parts.BraceFree)
    (symbol : SymbolType) {text : Bytes} (ht : NoBrace text) :
    (parts.add symbol text).BraceFree := by
  have hcall : NoBrace (if text.head? = some 36 then text.tail else text) := by
    split_ifs
    · exact ht.tail
    · exact ht
  unfold StatementParts.add
  cases symbol with
  | leftParem => exact ⟨List.forall_mem_cons.mpr ⟨hcall, h.1⟩, h.2⟩
  | leftBrace => exact ⟨List.forall_mem_cons.mpr ⟨ht, h.1⟩, h.2⟩
  | rightParem | rightBrace =>
    exact ⟨h.1, List.forall_mem_append.mpr ⟨h.2, List.forall_mem_singleton.mpr ht⟩⟩

theorem parseNestedLoop_braceFree {parts : StatementParts} (h : parts.BraceFree) {text rest : Bytes}
    (ht : NoBrace text) (hr : NoBrace rest) : (parseNestedLoop parts text rest).BraceFree := by
  induction rest generalizing parts text with
  | nil => exact h
  | cons ch rest ih =>
    have hrest : NoBrace rest := hr.of_subset (List.subset_cons_self ch rest)
    have hch : NoBrace [ch] := hr.of_subset (by simp)
    unfold parseNestedLoop
    split
    · exact ih (h.add _ ht) NoBrace.nil hrest
    · exact ih h (ht.append hch) hrest

theorem parseNestedStatements_braceFree {s : Bytes} (hs : NoBrace s) {parts : StatementParts}
    (hok : parseNestedStatements s = .ok parts) : parts.BraceFree := by
  have hempty : ({} : StatementParts).BraceFree :=
    ⟨fun _ h => absurd h List.not_mem_nil, fun _ h => absurd h List.not_mem_nil⟩
  unfold parseNestedStatements at hok
  dsimp only at hok
  split_ifs at hok
  obtain rfl := Except.ok.inj hok
  exact parseNestedLoop_braceFree hempty NoBrace.nil hs

def NestedText.BraceFree (x : NestedText) : Prop := NoBrace x.sStatement ∧ NoBrace x.sLastStatement

theorem innerText_noBrace {rightElm : StatementParseElement} {text : Bytes}
    (hr : NoBrace rightElm.string) (ht : NoBrace text) : NoBrace (innerText rightElm text) := by
  unfold innerText
  split_ifs
  · exact ht
  · exact hr

theorem handleArray_braceFree {leftElm rightElm : StatementParseElement} {x : NestedText}
    (hl : NoBrace leftElm.string) (hr : NoBrace rightElm.string) (hx : x.BraceFree) :
    (handleArray leftElm rightElm x).BraceFree := by
  have hinner := innerText_noBrace hr hx.2
  have htext (opening : Bytes) (ho : NoBrace opening) : NoBrace (opening ++ leftElm.string ++
      bytes " " ++ innerText rightElm x.sLastStatement ++ bytes "]") :=
    (((ho.append hl).append (by decide)).append hinner).append (by decide)
  unfold handleArray
  dsimp only
  split
  · exact ⟨htext _ (by decide), htext _ (by decide)⟩
  · exact ⟨htext _ (by decide), htext _ (by decide)⟩
  · exact hx
  · exact hx

theorem handleMap_braceFree {leftElm rightElm : StatementParseElement} {x y : NestedText}
    (hl : NoBrace leftElm.string) (hr : NoBrace rightElm.string) (hx : x.BraceFree)
    (hok : handleMap leftElm rightElm x = .ok y) : y.BraceFree := by
  have hinner := innerText_noBrace hr hx.2
  have htext {name : Bytes} (h : mapName leftElm rightElm = some name) : NoBrace (bytes "$" ++
      name ++ bytes "(" ++ innerText rightElm x.sLastStatement ++ bytes ")") := by
    have hdollar : NoBrace (bytes "$") := by decide
    have hname : NoBrace name := by
      unfold mapName at h
      split_ifs at h
      · exact Option.some_inj.mp h ▸ hl
      · exact Option.some_inj.mp h ▸ hl.tail
    exact (((hdollar.append hname).append (by decide)).append hinner).append (by decide)
  unfold handleMap at hok
  split at hok
  · split at hok
    · cases hok
    · rename_i name h
      exact Except.ok.inj hok ▸ ⟨htext h, htext h⟩
  · split at hok
    · cases hok
    · rename_i name h
      exact Except.ok.inj hok ▸ ⟨htext h, htext h⟩
  · exact Except.ok.inj hok ▸ hx
  · exact Except.ok.inj hok ▸ hx

theorem processNestedLoop_noBrace {indeterminate : Bytes → Option StatementType}
    {stack queue : List StatementParseElement} {x : NestedText}
    (hs : ∀ elm ∈ stack, NoBrace elm.string) (hq : ∀ elm ∈ queue, NoBrace elm.string)
    (hx : x.BraceFree) {s : Bytes}
    (hok : processNestedLoop indeterminate stack queue x = .ok s) : NoBrace s := by
  induction stack generalizing queue x with
  | nil => exact Except.ok.inj hok ▸ hx.1
  | cons leftElm stack ih =>
    cases queue with
    | nil => exact Except.ok.inj hok ▸ hx.1
    | cons rightElm queue =>
      obtain ⟨hl, hs⟩ := List.forall_mem_cons.mp hs
      obtain ⟨hr, hq⟩ := List.forall_mem_cons.mp hq
      unfold processNestedLoop at hok
      split at hok
      · exact ih hs hq (handleArray_braceFree hl hr hx) hok
      · obtain ⟨y, hy, hok⟩ := bind_eq_ok.mp hok
        exact ih hs hq (handleMap_braceFree hl hr hx hy) hok
      · exact ih hs hq hx hok

theorem processNestedStatements_noBrace {indeterminate : Bytes → Option StatementType}
    {parts : StatementParts} (h : parts.BraceFree) {s : Bytes}
    (hok : processNestedStatements indeterminate parts = .ok s) : NoBrace s := by
  unfold processNestedStatements at hok
  split_ifs at hok
  · exact Except.ok.inj hok ▸ NoBrace.nil
  · split at hok
    · cases hok
    · exact processNestedLoop_noBrace h.1 h.2 ⟨NoBrace.nil, NoBrace.nil⟩ hok

def Translation.BraceFree (x : Translation) : Prop :=
  NoBrace x.sStatement ∧ NoBrace x.variableDeclarations

variable {indeterminate : Bytes → Option StatementType} {indentTabs : Bytes}

theorem processStatementFragment_braceFree (htabs : NoBrace indentTabs) {x y : Translation}
    (hx : x.BraceFree) {index : ℕ} {subexpr : Bytes} (hsub : NoBrace subexpr)
    (hok : processStatementFragment indeterminate indentTabs x index subexpr = .ok y) :
    y.BraceFree := by
  have hvar : NoBrace (createNewVariable (x.iVariableCount+1)) :=
    NoBrace.append (by decide) (NoBrace.decimal _)
  refine ⟨?_, ?_⟩
  · rw [(replaced_of_ok hok).statement]
    exact ((hx.1.take index).append hvar).append (hx.1.drop _)
  · unfold processStatementFragment at hok
    split_ifs at hok
    dsimp only at hok
    split at hok
    · exact Except.ok.inj hok ▸ hx.2
    · rename_i parts hparts
      obtain ⟨sTemp, hnested, hok⟩ := bind_eq_ok.mp hok
      obtain rfl := Except.ok.inj hok
      have htext := processNestedStatements_noBrace
        (parseNestedStatements_braceFree hsub hparts) hnested
      exact ((((((hx.2.append (by decide)).append htabs).append (by decide)).append
        hvar.tail).append (by decide)).append htext).append (by decide)

theorem rewriteLoop_braceFree (htabs : NoBrace indentTabs) {r : FragmentPattern} {fuel : ℕ}
    {x y : Translation} (hx : x.BraceFree)
    (hok : rewriteLoop indeterminate indentTabs r fuel x = .ok y) : y.BraceFree := by
  induction fuel generalizing x with
  | zero => cases hok
  | succ fuel ih =>
    unfold rewriteLoop at hok
    split at hok
    · exact Except.ok.inj hok ▸ hx
    · rename_i index subexpr hsearch
      obtain ⟨u, v, hs, _⟩ := r.search_eq hsearch
      have hsub : NoBrace subexpr := hx.1.of_subset (by simp [hs])
      obtain ⟨x', hround, hok⟩ := bind_eq_ok.mp hok
      exact ih (processStatementFragment_braceFree htabs hx hsub hround) hok

theorem translateStatement_braceFree (htabs : NoBrace indentTabs) {iVariableCount : ℕ}
    {sStatement : Bytes} (hs : NoBrace sStatement) {ret : Hrc} {x : Translation}
    (hok : translateStatement indeterminate indentTabs iVariableCount sStatement = .ok (ret, x)) :
    x.BraceFree := by
  obtain ⟨y₁, h₁, hok⟩ := bind_eq_ok.mp hok
  obtain ⟨y₂, h₂, hok⟩ := bind_eq_ok.mp hok
  obtain ⟨y₃, h₃, hok⟩ := bind_eq_ok.mp hok
  obtain ⟨_, rfl⟩ := Prod.mk.inj (Except.ok.inj hok)
  exact rewriteLoop_braceFree htabs (rewriteLoop_braceFree htabs
    (rewriteLoop_braceFree htabs ⟨hs, NoBrace.nil⟩ h₁) h₂) h₃

/-! ### Balanced braces -/

def BraceBalanced (s : Bytes) : Prop :=
  (∀ p, p <+: s → p.count 125 ≤ p.count 123) ∧ s.count 123 = s.count 125

def braceWeight (c : Byte) : ℤ := if c = 123 then 1 else if c = 125 then -1 else 0

/-- How deep the braces of a text get, and where they end. -/
def shape (s : Bytes) : Profile := profile braceWeight s

theorem depth_braceWeight (s : Bytes) :
    depth braceWeight s = (s.count 123 : ℤ)-(s.count 125 : ℤ) := by
  induction s with
  | nil => rfl
  | cons c s ih =>
    rw [depth_cons, ih, List.count_cons, List.count_cons, braceWeight]
    by_cases h₁ : c = 123
    · subst h₁
      simp
      omega
    · by_cases h₂ : c = 125
      · subst h₂
        simp
        omega
      · simp [h₁, h₂]

theorem braceBalanced_iff (s : Bytes) : BraceBalanced s ↔ shape s = Profile.one := by
  rw [shape, ← nested_iff]
  apply and_congr
  · apply forall_congr'
    intro p
    rw [depth_braceWeight]
    exact imp_congr_right fun _ => by omega
  · rw [depth_braceWeight]
    omega

theorem shape_append (s t : Bytes) : shape (s ++ t) = (shape s).mul (shape t) :=
  profile_append braceWeight s t

theorem shape_noBrace {s : Bytes} (hs : NoBrace s) : shape s = Profile.one := by
  apply profile_neutral
  intro c hc
  rw [braceWeight, if_neg (hs c hc).1, if_neg (hs c hc).2]

theorem shape_mul_one (s : Bytes) : (shape s).mul Profile.one = shape s :=
  Profile.profile_mul_one s

theorem shape_one_mul (s : Bytes) : Profile.one.mul (shape s) = shape s :=
  Profile.one_mul_profile s

/-! ### The braces that a document asks for -/

def XmlElement.BraceFree (e : XmlElement) : Prop :=
  (∀ a ∈ e.xmlAttributes, NoBrace a.2) ∧ ∀ v, e.xmlValue = some v → NoBrace v

theorem XmlElement.BraceFree.attribute {e : XmlElement} (h : e.BraceFree) (name : String) :
    NoBrace (e.getAttributeValue name) := by
  unfold XmlElement.getAttributeValue
  cases ha : e.xmlAttributes.find? fun a => a.1 = bytes name with
  | none => exact NoBrace.nil
  | some a => exact h.1 a (List.mem_of_find?_eq_some ha)

/-- The commands whose translation ends with an opening brace. -/
def blockCommands : List String :=
  ["mcscript", "if", "elseif", "else", "for", "foreach", "while", "switch", "default", "procedure"]

namespace XmlElement

def isOneOf (e : XmlElement) (names : List String) : Bool :=
  names.any fun name => e.isTag (bytes name)

def opensBlock (e : XmlElement) : Bool :=
  e.isOneOf blockCommands ||
    (e.isTag (bytes "case") && e.getAttributeValue "fallthrough" = bytes "false") ||
    (e.isTag (bytes "map") && (e.getAttributeValue "key" = [] || e.getAttributeValue "value" = []))

/-- A close tag, but not `/script` and not the `/>` of an element without content. -/
def closesName (name : Bytes) : Bool :=
  name.head? = some 47 && name ≠ bytes "/script" && name[1]? ≠ some 62

def closesBlock (e : XmlElement) : Bool := e.xmlTagName.any closesName

/-- A brace for a tag, and the braces of a `CDATA` section or an imported file. -/
def marks (file : Bytes → Option Bytes) (e : XmlElement) : Bytes :=
  if e.closesBlock then bytes "\x7d"
  else if e.opensBlock then bytes "\x7b"
  else if e.isTag (bytes "script") then e.xmlCDATA.getD []
  else if e.isTag (bytes "import") then (file (e.getAttributeValue "file")).elim [] cstr
  else []

end XmlElement

/-- The marks of a document. Behind the open tag of a list nothing counts up to the first tag that
belongs to no item, and not that one either. -/
def blockMarks (file : Bytes → Option Bytes) : Bool → List XmlElement → Bytes
  | _, [] => []
  | true, e :: rest => blockMarks file (e.isOneOf ["item", "/item"]) rest
  | false, e :: rest =>
    if e.isTag (bytes "list") then blockMarks file true rest
    else e.marks file ++ blockMarks file false rest

namespace XmlElement

variable {e : XmlElement} {keyword : String}

theorem isTag_of_name (hname : e.xmlTagName = some (bytes keyword)) (pTag : Bytes) :
    e.isTag pTag = decide (bytes keyword = pTag) := by
  unfold isTag
  rw [hname]
  exact decide_eq_decide.mpr Option.some_inj

theorem closesBlock_of_name (hname : e.xmlTagName = some (bytes keyword)) :
    e.closesBlock = closesName (bytes keyword) := by
  unfold closesBlock
  rw [hname]
  rfl

theorem isOneOf_of_name (hname : e.xmlTagName = some (bytes keyword)) (names : List String) :
    e.isOneOf names = names.any fun name => bytes keyword = bytes name := by
  unfold isOneOf
  congr
  funext name
  exact isTag_of_name hname (bytes name)

theorem marks_of_block (file : Bytes → Option Bytes) (hname : e.xmlTagName = some (bytes keyword))
    (hblock : keyword ∈ blockCommands) : e.marks file = bytes "\x7b" := by
  have hcloses : ∀ k ∈ blockCommands, closesName (bytes k) = false := by decide
  have hopens : ∀ k ∈ blockCommands,
      (blockCommands.any fun name => bytes k = bytes name) = true := by
    decide
  unfold marks opensBlock
  rw [closesBlock_of_name hname, hcloses keyword hblock, isOneOf_of_name hname,
    hopens keyword hblock]
  rfl

/-- The commands that are looked at more closely. -/
def specialCommands : List String := ["case", "map", "script", "import"]

theorem marks_of_other (file : Bytes → Option Bytes) (hcloses : e.closesBlock = false)
    (hother : ∀ k ∈ blockCommands ++ specialCommands, e.isTag (bytes k) = false) :
    e.marks file = [] := by
  have htag (k : String) (hk : k ∈ specialCommands) : e.isTag (bytes k) = false :=
    hother k (List.mem_append_right _ hk)
  have hblock : e.isOneOf blockCommands = false := by
    rw [isOneOf, List.any_eq_false]
    intro k hk
    rw [hother k (List.mem_append_left _ hk)]
    decide
  unfold marks opensBlock
  rw [hcloses, hblock, htag "case" (by decide), htag "map" (by decide), htag "script" (by decide),
    htag "import" (by decide)]
  rfl

theorem marks_of_plain (file : Bytes → Option Bytes) (hname : e.xmlTagName = some (bytes keyword))
    (hplain : closesName (bytes keyword) = false ∧
      ∀ k ∈ blockCommands ++ specialCommands, bytes keyword ≠ bytes k) : e.marks file = [] := by
  apply marks_of_other file ((closesBlock_of_name hname).trans hplain.1)
  intro k hk
  rw [isTag_of_name hname]
  exact decide_eq_false (hplain.2 k hk)

theorem marks_of_special (file : Bytes → Option Bytes) (hname : e.xmlTagName = some (bytes keyword))
    (hspecial : keyword ∈ specialCommands) : e.marks file =
      if (e.isTag (bytes "case") && e.getAttributeValue "fallthrough" = bytes "false") ||
        (e.isTag (bytes "map") &&
          (e.getAttributeValue "key" = [] || e.getAttributeValue "value" = [])) then bytes "\x7b"
      else if e.isTag (bytes "script") then e.xmlCDATA.getD []
      else if e.isTag (bytes "import") then (file (e.getAttributeValue "file")).elim [] cstr
      else [] := by
  have hcloses : ∀ k ∈ specialCommands, closesName (bytes k) = false := by decide
  have hopens : ∀ k ∈ specialCommands,
      (blockCommands.any fun name => bytes k = bytes name) = false := by
    decide
  unfold marks opensBlock
  rw [closesBlock_of_name hname, hcloses keyword hspecial, isOneOf_of_name hname,
    hopens keyword hspecial]
  rfl

theorem marks_case (file : Bytes → Option Bytes) (hname : e.xmlTagName = some (bytes "case")) :
    e.marks file =
      if e.getAttributeValue "fallthrough" = bytes "false" then bytes "\x7b" else [] := by
  have hcase : e.isTag (bytes "case") = true := (isTag_of_name hname _).trans (by decide)
  have hmap : e.isTag (bytes "map") = false := (isTag_of_name hname _).trans (by decide)
  have hscript : e.isTag (bytes "script") = false := (isTag_of_name hname _).trans (by decide)
  have himport : e.isTag (bytes "import") = false := (isTag_of_name hname _).trans (by decide)
  rw [marks_of_special file hname (by decide), hcase, hmap, hscript, himport]
  exact if_congr (by simp) rfl rfl

theorem marks_map (file : Bytes → Option Bytes) (hname : e.xmlTagName = some (bytes "map")) :
    e.marks file =
      if e.getAttributeValue "key" = [] ∨ e.getAttributeValue "value" = [] then bytes "\x7b"
      else [] := by
  have hcase : e.isTag (bytes "case") = false := (isTag_of_name hname _).trans (by decide)
  have hmap : e.isTag (bytes "map") = true := (isTag_of_name hname _).trans (by decide)
  have hscript : e.isTag (bytes "script") = false := (isTag_of_name hname _).trans (by decide)
  have himport : e.isTag (bytes "import") = false := (isTag_of_name hname _).trans (by decide)
  rw [marks_of_special file hname (by decide), hcase, hmap, hscript, himport]
  exact if_congr (by simp) rfl rfl

theorem marks_script (file : Bytes → Option Bytes) (hname : e.xmlTagName = some (bytes "script")) :
    e.marks file = e.xmlCDATA.getD [] := by
  have hcase : e.isTag (bytes "case") = false := (isTag_of_name hname _).trans (by decide)
  have hmap : e.isTag (bytes "map") = false := (isTag_of_name hname _).trans (by decide)
  have hscript : e.isTag (bytes "script") = true := (isTag_of_name hname _).trans (by decide)
  rw [marks_of_special file hname (by decide), hcase, hmap, hscript]
  rfl

theorem marks_import (file : Bytes → Option Bytes) (hname : e.xmlTagName = some (bytes "import")) :
    e.marks file = (file (e.getAttributeValue "file")).elim [] cstr := by
  have hcase : e.isTag (bytes "case") = false := (isTag_of_name hname _).trans (by decide)
  have hmap : e.isTag (bytes "map") = false := (isTag_of_name hname _).trans (by decide)
  have hscript : e.isTag (bytes "script") = false := (isTag_of_name hname _).trans (by decide)
  have himport : e.isTag (bytes "import") = true := (isTag_of_name hname _).trans (by decide)
  rw [marks_of_special file hname (by decide), hcase, hmap, hscript, himport]
  rfl

end XmlElement

/-! ### What a handler emits -/

namespace MCScript

variable {s s' : MCScript}

theorem getIndentTabs_noBrace (s : MCScript) : NoBrace s.getIndentTabs := by
  intro c hc
  rw [List.eq_of_mem_replicate hc]
  decide

theorem shape_emit (s : MCScript) (texts : List Bytes) :
    shape (s.emit texts).tclScript = (shape s.tclScript).mul (shape texts.flatten) :=
  shape_append _ _

theorem shape_newLine (s : MCScript) : shape s.newLine.tclScript = shape s.tclScript := by
  have hline : NoBrace [bytes "\n", s.getIndentTabs].flatten :=
    NoBrace.append (by decide) (s.getIndentTabs_noBrace.append NoBrace.nil)
  rw [newLine, shape_emit, shape_noBrace hline, shape_mul_one]

/-- The common end of the handlers: a line break, texts, and perhaps more indentation. -/
theorem shape_line {texts : List Bytes} {p : Profile} (h : shape texts.flatten = p) :
    shape (s.newLine.emit texts).tclScript = (shape s.tclScript).mul p := by
  rw [shape_emit, shape_newLine, h]

/-- A handler that succeeds has passed its checks. -/
theorem unlessFailing_ok {checks : List (Bool × Hrc)} {t : MCScript}
    (hok : s.unlessFailing checks s' = (.ok, t)) (hcodes : .ok ∉ checks.map (·.2)) : t = s' := by
  unfold unlessFailing at hok
  split at hok
  · rename_i failed code hfind
    obtain rfl : code = .ok := (Prod.mk.inj hok).1
    exact absurd (List.mem_map.mpr ⟨_, List.mem_of_find?_eq_some hfind, rfl⟩) hcodes
  · exact (Prod.mk.inj hok).2.symm

end MCScript

/-- On an element of its name a handler adds to the script what has the shape of the marks, and
leaves the position where it is. -/
def Handles (env : ScriptEnv) (keyword : String) (handler : KeywordHandler) : Prop :=
  ∀ s e s', e.xmlTagName = some (bytes keyword) → e.BraceFree → handler env s e = .ok (.ok, s') →
    shape s'.tclScript = (shape s.tclScript).mul (shape (e.marks env.file)) ∧ s'.xml = s.xml

variable {env : ScriptEnv}

open MCScript

/-- A text that a handler puts at the end of the script. -/
theorem MCScript.shape_emit_eq {s : MCScript} {texts : List Bytes} {p : Profile}
    (h : shape texts.flatten = p) : shape (s.emit texts).tclScript = (shape s.tclScript).mul p := by
  rw [shape_emit, h]

theorem MCAttributeHandler.handles {keyword : String}
    (hplain : XmlElement.closesName (bytes keyword) = false ∧
      ∀ k ∈ blockCommands ++ XmlElement.specialCommands, bytes keyword ≠ bytes k) :
    Handles env keyword MCAttributeHandler.process := by
  intro s e s' hname hfree hok
  obtain ⟨_, rfl⟩ := Prod.mk.inj (Except.ok.inj hok)
  rw [XmlElement.marks_of_plain env.file hname hplain, shape_noBrace NoBrace.nil, shape_mul_one]
  exact ⟨rfl, rfl⟩

theorem MCIfHandler.handles : Handles env "if" MCIfHandler.process := by
  intro s e s' hname hfree hok
  obtain rfl := unlessFailing_ok (Except.ok.inj hok) (by
    simp only [List.map_cons, List.map_nil]
    decide)
  rw [XmlElement.marks_of_block env.file hname (by decide)]
  refine ⟨shape_line ?_, rfl⟩
  simp only [List.flatten_cons, List.flatten_nil, shape_append,
    shape_noBrace (hfree.attribute "test")]
  decide

theorem MCBreakHandler.handles : Handles env "break" MCBreakHandler.process := by
  intro s e s' hname hfree hok
  obtain ⟨_, rfl⟩ := Prod.mk.inj (Except.ok.inj hok)
  rw [XmlElement.marks_of_plain env.file hname (by decide)]
  exact ⟨shape_line (by decide), rfl⟩

theorem MCContinueHandler.handles : Handles env "continue" MCContinueHandler.process := by
  intro s e s' hname hfree hok
  obtain ⟨_, rfl⟩ := Prod.mk.inj (Except.ok.inj hok)
  rw [XmlElement.marks_of_plain env.file hname (by decide)]
  exact ⟨shape_line (by decide), rfl⟩

theorem MCDefaultHandler.handles : Handles env "default" MCDefaultHandler.process := by
  intro s e s' hname hfree hok
  obtain ⟨_, rfl⟩ := Prod.mk.inj (Except.ok.inj hok)
  rw [XmlElement.marks_of_block env.file hname (by decide)]
  exact ⟨shape_line (by decide), rfl⟩

theorem MCWhileHandler.handles : Handles env "while" MCWhileHandler.process := by
  intro s e s' hname hfree hok
  obtain rfl := unlessFailing_ok (Except.ok.inj hok) (by
    simp only [List.map_cons, List.map_nil]
    decide)
  rw [XmlElement.marks_of_block env.file hname (by decide)]
  refine ⟨shape_line ?_, rfl⟩
  simp only [List.flatten_cons, List.flatten_nil, shape_append,
    shape_noBrace (hfree.attribute "test")]
  decide

theorem MCProcedureHandler.handles : Handles env "procedure" MCProcedureHandler.process := by
  intro s e s' hname hfree hok
  obtain rfl := unlessFailing_ok (Except.ok.inj hok) (by
    simp only [List.map_cons, List.map_nil]
    decide)
  rw [XmlElement.marks_of_block env.file hname (by decide)]
  refine ⟨shape_line ?_, rfl⟩
  simp only [List.flatten_cons, List.flatten_nil, shape_append,
    shape_noBrace (hfree.attribute "name"), shape_noBrace (hfree.attribute "param")]
  decide

theorem MCSwitchHandler.handles : Handles env "switch" MCSwitchHandler.process := by
  intro s e s' hname hfree hok
  obtain rfl := unlessFailing_ok (Except.ok.inj hok) (by
    simp only [List.map_cons, List.map_nil]
    decide)
  rw [XmlElement.marks_of_block env.file hname (by decide)]
  refine ⟨shape_line ?_, rfl⟩
  simp only [List.flatten_cons, List.flatten_nil, shape_append,
    shape_noBrace (hfree.attribute "operation"), shape_noBrace (hfree.attribute "var")]
  decide

theorem MCPairHandler.handles : Handles env "pair" MCPairHandler.process := by
  intro s e s' hname hfree hok
  obtain rfl := unlessFailing_ok (Except.ok.inj hok) (by
    simp only [List.map_cons, List.map_nil]
    decide)
  rw [XmlElement.marks_of_plain env.file hname (by decide)]
  refine ⟨shape_line ?_, rfl⟩
  simp only [List.flatten_cons, List.flatten_nil, shape_append,
    shape_noBrace (hfree.attribute "key"), shape_noBrace (hfree.attribute "value")]
  decide

theorem MCReturnHandler.handles : Handles env "return" MCReturnHandler.process := by
  intro s e s' hname hfree hok
  obtain rfl := unlessFailing_ok (Except.ok.inj hok) (by
    simp only [List.map_cons, List.map_nil]
    decide)
  rw [XmlElement.marks_of_plain env.file hname (by decide)]
  refine ⟨shape_line ?_, rfl⟩
  simp only [List.flatten_cons, List.flatten_nil, shape_append,
    shape_noBrace (hfree.attribute "value")]
  decide

theorem MCElseHandler.handles : Handles env "else" MCElseHandler.process := by
  intro s e s' hname hfree hok
  obtain rfl := unlessFailing_ok (Except.ok.inj hok) (by
    simp only [List.map_cons, List.map_nil]
    decide)
  rw [XmlElement.marks_of_block env.file hname (by decide)]
  exact ⟨shape_emit_eq (by decide), rfl⟩

theorem MCElseIfHandler.handles : Handles env "elseif" MCElseIfHandler.process := by
  intro s e s' hname hfree hok
  obtain rfl := unlessFailing_ok (Except.ok.inj hok) (by
    simp only [List.map_cons, List.map_nil]
    decide)
  rw [XmlElement.marks_of_block env.file hname (by decide)]
  refine ⟨shape_emit_eq ?_, rfl⟩
  simp only [List.flatten_cons, List.flatten_nil, shape_append,
    shape_noBrace (hfree.attribute "test")]
  decide

theorem MCScript.getVarValue_noBrace {s : Bytes} (hs : NoBrace s) :
    NoBrace (getVarValue s).1 ∧ NoBrace (getVarValue s).2 := by
  unfold getVarValue
  split
  · exact ⟨NoBrace.nil, NoBrace.nil⟩
  · rename_i c t hdrop
    have hct : NoBrace (c :: t) := hdrop ▸ hs.dropWhile _
    refine ⟨?_, ((hs.drop _).dropWhile _).takeWhile _⟩
    exact hct.of_subset (List.cons_subset_cons c (List.takeWhile_subset _))

theorem MCForHandler.handles : Handles env "for" MCForHandler.process := by
  intro s e s' hname hfree hok
  have hvalue := getVarValue_noBrace (hfree.attribute "start")
  unfold MCForHandler.process at hok
  dsimp only at hok
  generalize getVarValue (e.getAttributeValue "start") = v at hok hvalue
  obtain rfl := unlessFailing_ok (Except.ok.inj hok) (by
    simp only [List.map_cons, List.map_nil]
    decide)
  rw [XmlElement.marks_of_block env.file hname (by decide)]
  refine ⟨shape_line ?_, rfl⟩
  simp only [List.flatten_cons, List.flatten_nil, shape_append, shape_noBrace hvalue.1,
    shape_noBrace hvalue.2, shape_noBrace (hfree.attribute "test"),
    shape_noBrace (hfree.attribute "incr")]
  decide

theorem MCForeachHandler.handles : Handles env "foreach" MCForeachHandler.process := by
  intro s e s' hname hfree hok
  obtain rfl := unlessFailing_ok (Except.ok.inj hok) (by
    simp only [List.map_cons, List.map_nil]
    decide)
  have hset : shape [bytes "set ", (e.getAttributeValue "var").tail, bytes " 0"].flatten =
      Profile.one := by
    simp only [List.flatten_cons, List.flatten_nil, shape_append,
      shape_noBrace (hfree.attribute "var").tail]
    decide
  rw [XmlElement.marks_of_block env.file hname (by decide)]
  refine ⟨?_, rfl⟩
  refine (shape_line (p := shape (bytes "\x7b")) ?_).trans ?_
  · simp only [List.flatten_cons, List.flatten_nil, shape_append,
      shape_noBrace (hfree.attribute "var").tail, shape_noBrace (hfree.attribute "list")]
    decide
  · rw [shape_line hset, shape_mul_one]

theorem MCIncrHandler.handles : Handles env "incr" MCIncrHandler.process := by
  intro s e s' hname hfree hok
  obtain rfl := unlessFailing_ok (Except.ok.inj hok) (by
    simp only [List.map_cons, List.map_nil]
    decide)
  have hvariable : NoBrace (if (e.getAttributeValue "variable").head? = some 36 then
      (e.getAttributeValue "variable").tail else e.getAttributeValue "variable") := by
    split_ifs
    · exact (hfree.attribute "variable").tail
    · exact hfree.attribute "variable"
  rw [XmlElement.marks_of_plain env.file hname (by decide)]
  refine ⟨shape_line ?_, rfl⟩
  simp only [List.flatten_cons, List.flatten_nil, shape_append, shape_noBrace hvariable,
    shape_noBrace (hfree.attribute "by")]
  decide

theorem MCMcscriptHandler.handles (hns : ∀ n, NoBrace (env.nameSpaceID n)) :
    Handles env "mcscript" MCMcscriptHandler.process := by
  intro s e s' hname hfree hok
  obtain ⟨_, rfl⟩ := Prod.mk.inj (Except.ok.inj hok)
  rw [XmlElement.marks_of_block env.file hname (by decide)]
  refine ⟨?_, rfl⟩
  refine (shape_emit _ _).trans (congrArg _ ?_)
  simp only [List.flatten_cons, List.flatten_nil, shape_append, shape_noBrace (hns _)]
  decide

/-- A case opens a block unless it falls through. -/
theorem MCCaseHandler.handles : Handles env "case" MCCaseHandler.process := by
  intro s e s' hname hfree hok
  obtain rfl := unlessFailing_ok (Except.ok.inj hok) (by
    simp only [List.map_cons, List.map_nil]
    decide)
  have hpattern : shape [bytes "\"", e.getAttributeValue "pattern"].flatten = Profile.one := by
    simp only [List.flatten_cons, List.flatten_nil, shape_append,
      shape_noBrace (hfree.attribute "pattern")]
    decide
  have hline := shape_line (s := s) hpattern
  rw [shape_mul_one] at hline
  rw [XmlElement.marks_case env.file hname, ← hline]
  split_ifs
  · exact ⟨shape_emit_eq (by decide), rfl⟩
  · exact ⟨shape_emit_eq (by decide), rfl⟩

theorem MCScriptHandler.handles : Handles env "script" MCScriptHandler.process := by
  intro s e s' hname hfree hok
  obtain rfl := unlessFailing_ok (Except.ok.inj hok) (by
    simp only [List.map_cons, List.map_nil]
    decide)
  rw [XmlElement.marks_script env.file hname]
  refine ⟨shape_line ?_, rfl⟩
  rw [List.flatten_singleton]

theorem MCImportHandler.handles : Handles env "import" MCImportHandler.process := by
  intro s e s' hname hfree hok
  rw [XmlElement.marks_import env.file hname]
  unfold MCImportHandler.process at hok
  dsimp only at hok
  split_ifs at hok
  · cases (Prod.mk.inj (Except.ok.inj hok)).1
  · split at hok
    · cases (Prod.mk.inj (Except.ok.inj hok)).1
    · rename_i sText hfile
      obtain ⟨_, rfl⟩ := Prod.mk.inj (Except.ok.inj hok)
      rw [hfile]
      refine ⟨shape_emit_eq ?_, rfl⟩
      rw [List.flatten_cons, List.flatten_singleton, shape_append, shape_noBrace (by decide)]
      exact Profile.one_mul_profile _

/-- A translated statement has no braces, and only the declarations change. -/
theorem MCScript.translateStatement_kept {s t : MCScript} {text sStatement : Bytes} {ret : Hrc}
    (htext : NoBrace text) (hok : s.translateStatement env text = .ok (ret, sStatement, t)) :
    NoBrace sStatement ∧ NoBrace t.variableDeclarations ∧
      t.tclScript = s.tclScript ∧ t.xml = s.xml ∧ t.lastMarkMarker = s.lastMarkMarker := by
  obtain ⟨⟨ret', x⟩, hx, hres⟩ := bind_eq_ok.mp hok
  obtain ⟨rfl, hrest⟩ := Prod.mk.inj (Except.ok.inj hres)
  obtain ⟨rfl, rfl⟩ := Prod.mk.inj hrest
  have hfree := translateStatement_braceFree s.getIndentTabs_noBrace htext hx
  exact ⟨hfree.1, hfree.2, rfl, rfl, rfl⟩

theorem MCCallHandler.handles : Handles env "call" MCCallHandler.process := by
  intro s e s' hname hfree hok
  rw [XmlElement.marks_of_plain env.file hname (by decide), shape_noBrace NoBrace.nil,
    shape_mul_one]
  unfold MCCallHandler.process at hok
  dsimp only at hok
  by_cases hstart : (e.getAttributeValue "statement").length = 0
  · rw [if_pos hstart] at hok
    cases (Prod.mk.inj (Except.ok.inj hok)).1
  · rw [if_neg hstart] at hok
    obtain ⟨⟨ret, sStatement, t⟩, ht, hok⟩ := bind_eq_ok.mp hok
    obtain ⟨hstatement, hdecls, hscript, hxml, _⟩ :=
      translateStatement_kept (hfree.attribute "statement") ht
    have hdeclared : shape (t.emit [t.variableDeclarations]).tclScript = shape s.tclScript := by
      rw [shape_emit, List.flatten_singleton, shape_noBrace hdecls, shape_mul_one, hscript,
        shape_newLine]
    dsimp only at hok
    by_cases hret : ret = .ok
    · rw [if_pos hret] at hok
      split_ifs at hok
      · obtain ⟨_, rfl⟩ := Prod.mk.inj (Except.ok.inj hok)
        refine ⟨?_, hxml⟩
        rw [← hdeclared]
        refine (shape_line (p := Profile.one) ?_).trans (shape_mul_one _)
        simp only [List.flatten_cons, List.flatten_nil, shape_append,
          shape_noBrace (hfree.attribute "retvar").tail, shape_noBrace hstatement]
        decide
      · obtain ⟨_, rfl⟩ := Prod.mk.inj (Except.ok.inj hok)
        exact ⟨hdeclared, hxml⟩
    · rw [if_neg hret] at hok
      exact absurd (Prod.mk.inj (Except.ok.inj hok)).1 hret

theorem MCOutputHandler.handles : Handles env "output" MCOutputHandler.process := by
  intro s e s' hname hfree hok
  rw [XmlElement.marks_of_plain env.file hname (by decide), shape_noBrace NoBrace.nil,
    shape_mul_one]
  unfold MCOutputHandler.process at hok
  dsimp only at hok
  split_ifs at hok
  · cases (Prod.mk.inj (Except.ok.inj hok)).1
  · obtain ⟨⟨ret, sStatement, t⟩, ht, hok⟩ := bind_eq_ok.mp hok
    obtain ⟨hstatement, hdecls, hscript, hxml, _⟩ :=
      translateStatement_kept (hfree.attribute "text") ht
    have hputs {u : MCScript} {text : Bytes} (htext : NoBrace text) :
        shape (u.newLine.emit [bytes "puts \"", text, bytes "\""]).tclScript =
          shape u.tclScript := by
      refine (shape_line (p := Profile.one) ?_).trans (shape_mul_one _)
      simp only [List.flatten_cons, List.flatten_nil, shape_append, shape_noBrace htext]
      decide
    dsimp only at hok
    split_ifs at hok
    · obtain ⟨_, rfl⟩ := Prod.mk.inj (Except.ok.inj hok)
      refine ⟨?_, hxml⟩
      rw [hputs hstatement, shape_line (p := Profile.one) (by
        rw [List.flatten_singleton, shape_noBrace hdecls]), shape_mul_one, hscript]
    · obtain ⟨_, rfl⟩ := Prod.mk.inj (Except.ok.inj hok)
      exact ⟨(hputs (hfree.attribute "text")).trans (congrArg shape hscript), hxml⟩

theorem MCVariableHandler.handles : Handles env "variable" MCVariableHandler.process := by
  intro s e s' hname hfree hok
  rw [XmlElement.marks_of_plain env.file hname (by decide), shape_noBrace NoBrace.nil,
    shape_mul_one]
  unfold MCVariableHandler.process at hok
  dsimp only at hok
  split_ifs at hok
  · cases (Prod.mk.inj (Except.ok.inj hok)).1
  · cases (Prod.mk.inj (Except.ok.inj hok)).1
  · obtain ⟨⟨ret, sStatement, t⟩, ht, hok⟩ := bind_eq_ok.mp hok
    obtain ⟨hstatement, hdecls, hscript, hxml, _⟩ :=
      translateStatement_kept (hfree.attribute "value") ht
    dsimp only at hok
    split_ifs at hok
    · obtain ⟨_, rfl⟩ := Prod.mk.inj (Except.ok.inj hok)
      refine ⟨?_, hxml⟩
      rw [shape_emit_eq (p := Profile.one), shape_mul_one, hscript]
      simp only [List.flatten_cons, List.flatten_nil, shape_append, shape_noBrace hdecls,
        shape_noBrace t.getIndentTabs_noBrace, shape_noBrace (hfree.attribute "name"),
        shape_noBrace hstatement]
      decide
    · obtain ⟨_, rfl⟩ := Prod.mk.inj (Except.ok.inj hok)
      refine ⟨?_, hxml⟩
      rw [shape_line (p := Profile.one), shape_mul_one, hscript]
      simp only [List.flatten_cons, List.flatten_nil, shape_append,
        shape_noBrace (hfree.attribute "name"), shape_noBrace (hfree.attribute "value")]
      decide
  · obtain ⟨_, rfl⟩ := Prod.mk.inj (Except.ok.inj hok)
    refine ⟨?_, rfl⟩
    rw [shape_line (p := Profile.one), shape_mul_one]
    simp only [List.flatten_cons, List.flatten_nil, shape_append,
      shape_noBrace (hfree.attribute "name"), shape_noBrace (hfree.attribute "expr")]
    decide

theorem MCMapHandler.handles : Handles env "map" MCMapHandler.process := by
  intro s e s' hname hfree hok
  rw [XmlElement.marks_map env.file hname]
  unfold MCMapHandler.process at hok
  dsimp only at hok
  by_cases hmissing : (e.getAttributeValue "name").length = 0
  · rw [if_pos hmissing] at hok
    cases (Prod.mk.inj (Except.ok.inj hok)).1
  rw [if_neg hmissing] at hok
  by_cases hkey : (e.getAttributeValue "key").length ≠ 0 ∧ (e.getAttributeValue "value").length ≠ 0
  · rw [if_pos hkey] at hok
    rw [if_neg (by simpa [not_or] using hkey), shape_noBrace NoBrace.nil, shape_mul_one]
    obtain ⟨⟨ret, sStatement, t⟩, ht, hok⟩ := bind_eq_ok.mp hok
    obtain ⟨hstatement, hdecls, hscript, hxml, hmarker⟩ :=
      translateStatement_kept (hfree.attribute "value") ht
    have hset : NoBrace ([bytes "\n", s.getIndentTabs].flatten ++ [bytes "set ",
        e.getAttributeValue "name", bytes "(", e.getAttributeValue "key", bytes ") "].flatten) := by
      have hline : NoBrace [bytes "\n", s.getIndentTabs].flatten :=
        NoBrace.append (by decide) (s.getIndentTabs_noBrace.append NoBrace.nil)
      refine hline.append (NoBrace.append (by decide) ((hfree.attribute "name").append ?_))
      exact NoBrace.append (by decide) ((hfree.attribute "key").append (by decide))
    -- what stands behind the marker
    obtain ⟨added, hadded, hscript⟩ : ∃ added, NoBrace added ∧ t.tclScript = s.tclScript ++ added :=
      ⟨_, hset, hscript.trans (List.append_assoc _ _ _)⟩
    replace hmarker : t.lastMarkMarker = s.tclScript.length := hmarker
    dsimp only at hok
    split_ifs at hok
    · obtain ⟨_, rfl⟩ := Prod.mk.inj (Except.ok.inj hok)
      refine ⟨?_, hxml⟩
      rw [shape_emit, List.flatten_singleton, shape_noBrace hstatement, shape_mul_one]
      dsimp only
      rw [hmarker, hscript, List.take_left, List.drop_left, shape_append, shape_append,
        shape_noBrace hdecls, shape_noBrace hadded, shape_mul_one, shape_mul_one]
    · obtain ⟨_, rfl⟩ := Prod.mk.inj (Except.ok.inj hok)
      refine ⟨?_, hxml⟩
      rw [shape_emit, List.flatten_singleton, shape_noBrace (hfree.attribute "value"),
        shape_mul_one, hscript, shape_append, shape_noBrace hadded, shape_mul_one]
  · rw [if_neg hkey] at hok
    rw [if_pos (by simpa [or_iff_not_imp_left] using hkey)]
    obtain ⟨_, rfl⟩ := Prod.mk.inj (Except.ok.inj hok)
    refine ⟨?_, rfl⟩
    refine (shape_line (p := shape (bytes "\x7b")) ?_).trans rfl
    simp only [List.flatten_cons, List.flatten_nil, shape_append,
      shape_noBrace (hfree.attribute "name")]
    decide

namespace MCStringHandler

theorem orElse_noBrace {text : Bytes} (ht : NoBrace text) {other : String}
    (ho : NoBrace (bytes other)) : NoBrace (orElse text other) := by
  unfold orElse
  split_ifs
  · exact ho
  · exact ht

theorem appendMatchCase_noBrace (pMatchCase : Bytes) : NoBrace (appendMatchCase pMatchCase) := by
  unfold appendMatchCase
  split_ifs
  · decide
  · exact NoBrace.nil

theorem appendLength_noBrace {pLength : Bytes} (h : NoBrace pLength) :
    NoBrace (appendLength pLength) := by
  unfold appendLength
  split_ifs
  · exact (NoBrace.append (by decide) h).append (by decide)
  · exact NoBrace.nil

variable {e : XmlElement}

theorem rangeTexts_shape (hfree : e.BraceFree) {name : String} (hname : NoBrace (bytes name)) :
    shape (rangeTexts e name).flatten = Profile.one := by
  have hstart : NoBrace (orElse (e.getAttributeValue "start") "0") :=
    orElse_noBrace (hfree.attribute "start") (by decide)
  have hend : NoBrace (orElse (e.getAttributeValue "end") "end") :=
    orElse_noBrace (hfree.attribute "end") (by decide)
  simp only [rangeTexts, List.flatten_cons, List.flatten_nil, shape_append, shape_noBrace hname,
    shape_noBrace hstart, shape_noBrace hend, shape_noBrace (hfree.attribute "var")]
  decide

theorem trimTexts_shape (hfree : e.BraceFree) {name : String} (hname : NoBrace (bytes name)) :
    shape (trimTexts e name).flatten = Profile.one := by
  have hchars : NoBrace (if (e.getAttributeValue "chars").length ≠ 0 then
      bytes " \"" ++ e.getAttributeValue "chars" ++ bytes "\"" else []) := by
    split_ifs
    · exact (NoBrace.append (by decide) (hfree.attribute "chars")).append (by decide)
    · exact NoBrace.nil
  simp only [trimTexts, List.flatten_cons, List.flatten_nil, shape_append, shape_noBrace hname,
    shape_noBrace hchars, shape_noBrace (hfree.attribute "var")]
  decide

/-- The braces of an operation close what they open. -/
def Operation.Neutral (op : Operation) : Prop :=
  shape op.texts.flatten = Profile.one ∧ .ok ∉ op.checks.map (·.2)

theorem operations_neutral (hfree : e.BraceFree) : ∀ op ∈ operations e, op.Neutral := by
  have hrange {name : String} (hname : NoBrace (bytes name)) := rangeTexts_shape hfree hname
  have htrim {name : String} (hname : NoBrace (bytes name)) := trimTexts_shape hfree hname
  have hcase := appendMatchCase_noBrace (e.getAttributeValue "matchcase")
  have hlen := appendLength_noBrace (hfree.attribute "len")
  simp only [operations, List.forall_mem_cons]
  refine ⟨⟨?_, ?_⟩, ⟨hrange (by decide), ?_⟩, ⟨?_, ?_⟩, ⟨?_, ?_⟩, ⟨?_, ?_⟩,
    ⟨hrange (by decide), ?_⟩, ⟨hrange (by decide), ?_⟩, ⟨htrim (by decide), ?_⟩,
    ⟨htrim (by decide), ?_⟩, fun op hop => absurd hop List.not_mem_nil⟩
  all_goals
    simp only [needsVar, List.map_cons, List.map_nil, List.flatten_append, List.flatten_cons,
      List.flatten_nil, shape_append, shape_noBrace hcase, shape_noBrace hlen,
      hrange (by decide : NoBrace (bytes "replace")), shape_noBrace (hfree.attribute "var"),
      shape_noBrace (hfree.attribute "var1"), shape_noBrace (hfree.attribute "var2"),
      shape_noBrace (hfree.attribute "pattern"), shape_noBrace (hfree.attribute "with")]
    decide

theorem handles : Handles env "string" process := by
  intro s e s' hname hfree hok
  rw [XmlElement.marks_of_plain env.file hname (by decide), shape_noBrace NoBrace.nil,
    shape_mul_one]
  unfold process at hok
  dsimp only at hok
  split at hok
  · obtain rfl := unlessFailing_ok (Except.ok.inj hok) (by
      simp only [List.map_append, List.map_cons, List.map_nil]
      decide)
    exact ⟨rfl, rfl⟩
  · rename_i op hop
    obtain ⟨htexts, hcodes⟩ := operations_neutral hfree op (List.mem_of_find?_eq_some hop)
    obtain rfl := unlessFailing_ok (Except.ok.inj hok) (by
      rw [List.map_append, List.mem_append, not_or]
      refine ⟨?_, hcodes⟩
      simp only [List.map_cons, List.map_nil]
      decide)
    refine ⟨(shape_line (p := Profile.one) ?_).trans (shape_mul_one _), rfl⟩
    rw [List.flatten_append, List.flatten_append, shape_append, shape_append, htexts]
    simp only [List.flatten_cons, List.flatten_nil, shape_append,
      shape_noBrace (hfree.attribute "retvar").tail]
    decide

end MCStringHandler

theorem MCExprHandler.handles : Handles env "expr" MCExprHandler.process :=
  MCAttributeHandler.handles (by decide)

theorem MCRegexHandler.handles : Handles env "regex" MCRegexHandler.process :=
  MCAttributeHandler.handles (by decide)

/-- Every keyword but `list` adds its marks. -/
theorem keywordMap_handles (hns : ∀ n, NoBrace (env.nameSpaceID n)) :
    ∀ k ∈ keywordMap, k.1 ≠ "list" → Handles env k.1 k.2 := by
  have plain {keyword : String} (h : XmlElement.closesName (bytes keyword) = false ∧
      ∀ k ∈ blockCommands ++ XmlElement.specialCommands, bytes keyword ≠ bytes k) :
      Handles env keyword MCAttributeHandler.process := MCAttributeHandler.handles h
  simp only [keywordMap, List.forall_mem_cons]
  exact ⟨fun _ => plain (by decide), fun _ => MCBreakHandler.handles,
    fun _ => MCCallHandler.handles, fun _ => MCCaseHandler.handles, fun _ => plain (by decide),
    fun _ => MCContinueHandler.handles, fun _ => plain (by decide),
    fun _ => MCDefaultHandler.handles, fun _ => plain (by decide),
    fun _ => MCElseIfHandler.handles, fun _ => MCElseHandler.handles,
    fun _ => MCExprHandler.handles, fun _ => plain (by decide), fun _ => plain (by decide),
    fun _ => MCForeachHandler.handles, fun _ => MCForHandler.handles, fun _ => MCIfHandler.handles,
    fun _ => MCImportHandler.handles, fun _ => MCIncrHandler.handles,
    fun _ => plain (by decide), fun _ => plain (by decide), fun hlist => absurd rfl hlist,
    fun _ => plain (by decide), fun _ => plain (by decide), fun _ => plain (by decide),
    fun _ => MCMapHandler.handles, fun _ => MCMcscriptHandler.handles hns,
    fun _ => plain (by decide), fun _ => plain (by decide),
    fun _ => MCOutputHandler.handles, fun _ => MCPairHandler.handles,
    fun _ => plain (by decide), fun _ => plain (by decide),
    fun _ => MCProcedureHandler.handles, fun _ => plain (by decide),
    fun _ => MCRegexHandler.handles, fun _ => MCReturnHandler.handles,
    fun _ => plain (by decide), fun _ => MCScriptHandler.handles,
    fun _ => plain (by decide), fun _ => plain (by decide),
    fun _ => MCStringHandler.handles, fun _ => MCSwitchHandler.handles,
    fun _ => plain (by decide), fun _ => plain (by decide), fun _ => plain (by decide),
    fun _ => plain (by decide), fun _ => plain (by decide),
    fun _ => MCVariableHandler.handles, fun _ => plain (by decide),
    fun _ => plain (by decide), fun _ => plain (by decide), fun _ => MCWhileHandler.handles,
    fun _ => plain (by decide), fun k hk => absurd hk List.not_mem_nil⟩

/-! ### The list handler and the loop -/

theorem XmlElement.isOneOf_items {e : XmlElement} {pData : Bytes}
    (hname : e.xmlTagName = some pData) : e.isOneOf ["item", "/item"] =
    decide ¬ (pData ≠ bytes "item" ∧ pData ≠ bytes "/item") := by
  unfold XmlElement.isOneOf XmlElement.isTag
  rw [hname]
  simp only [List.any_cons, List.any_nil, Bool.or_false, Option.some.injEq, ← Bool.decide_or]
  exact decide_eq_decide.mpr (by rw [not_and_or, not_not, not_not])

theorem MCListHandler.itemText_noBrace {e : XmlElement} (he : e.BraceFree) {pData sItem : Bytes}
    (hok : MCListHandler.itemText e pData = .ok sItem) : NoBrace sItem := by
  unfold MCListHandler.itemText at hok
  split_ifs at hok
  · exact Except.ok.inj hok ▸ NoBrace.nil
  · split at hok
    · cases hok
    · rename_i pValue hvalue
      rw [← Except.ok.inj hok]
      exact (NoBrace.append (by decide) (he.2 _ hvalue)).append (by decide)

/-- The items have no braces, and the position is at the element behind them. -/
theorem MCListHandler.items_marks (file : Bytes → Option Bytes) {elements rest : List XmlElement}
    {text text' : Bytes} (hfree : ∀ e ∈ elements, e.BraceFree) (htext : NoBrace text)
    (hok : MCListHandler.items elements text = .ok (text', rest)) :
    NoBrace text' ∧ rest <:+ elements ∧
      blockMarks file true elements = blockMarks file false rest.tail := by
  induction elements generalizing text with
  | nil => cases hok
  | cons e elements ih =>
    obtain ⟨he, hfree⟩ := List.forall_mem_cons.mp hfree
    unfold MCListHandler.items at hok
    cases hname : e.xmlTagName with
    | none =>
      rw [hname] at hok
      cases hok
    | some pData =>
      rw [hname] at hok
      dsimp only at hok
      by_cases hitem : pData ≠ bytes "item" ∧ pData ≠ bytes "/item"
      · rw [if_pos hitem] at hok
        obtain ⟨rfl, rfl⟩ := Prod.mk.inj (Except.ok.inj hok)
        refine ⟨htext, List.suffix_rfl, ?_⟩
        rw [blockMarks, XmlElement.isOneOf_items hname, decide_eq_false (not_not_intro hitem)]
        rfl
      · rw [if_neg hitem] at hok
        obtain ⟨sItem, hsItem, hok⟩ := bind_eq_ok.mp hok
        have hnobrace := htext.append (itemText_noBrace he hsItem)
        have hmarks : blockMarks file true (e :: elements) = blockMarks file true elements := by
          rw [blockMarks, XmlElement.isOneOf_items hname, decide_eq_true hitem]
        rw [hmarks]
        cases elements with
        | nil =>
          obtain ⟨rfl, rfl⟩ := Prod.mk.inj (Except.ok.inj hok)
          exact ⟨hnobrace, List.nil_suffix, rfl⟩
        | cons e' elements =>
          obtain ⟨h₁, h₂, h₃⟩ := ih hfree hnobrace hok
          exact ⟨h₁, h₂.trans (List.suffix_cons e _), h₃⟩

/-- What a round adds has the shape of the marks it goes past. -/
structure Advances (file : Bytes → Option Bytes) (s t : MCScript) : Prop where
  shape_eq : (shape t.tclScript).mul (shape (blockMarks file false t.xml.rest.tail)) =
    (shape s.tclScript).mul (shape (blockMarks file false s.xml.rest))
  rest_suffix : t.xml.rest <:+ s.xml.rest

theorem advances_of_marks {file : Bytes → Option Bytes} {s t : MCScript} {e : XmlElement}
    {rest : List XmlElement} (hrest : s.xml.rest = e :: rest)
    (hlist : e.isTag (bytes "list") = false)
    (hshape : shape t.tclScript = (shape s.tclScript).mul (shape (e.marks file)))
    (hxml : t.xml = s.xml) : Advances file s t := by
  refine ⟨?_, hxml ▸ List.suffix_rfl⟩
  rw [hxml, hrest, List.tail_cons, blockMarks, hlist, hshape, Profile.mul_assoc, if_neg (by decide),
    shape_append]

theorem MCListHandler.advances {s s' : MCScript} {e : XmlElement} {rest : List XmlElement}
    (hrest : s.xml.rest = e :: rest) (hlist : e.isTag (bytes "list") = true)
    (hfree : ∀ d ∈ s.xml.rest, d.BraceFree)
    (hok : MCListHandler.process env s e = .ok (.ok, s')) : Advances env.file s s' := by
  rw [hrest] at hfree
  obtain ⟨he, hfree⟩ := List.forall_mem_cons.mp hfree
  unfold MCListHandler.process at hok
  dsimp only at hok
  split_ifs at hok
  · cases (Prod.mk.inj (Except.ok.inj hok)).1
  · obtain ⟨⟨text, rest'⟩, hitems, hok⟩ := bind_eq_ok.mp hok
    obtain ⟨_, rfl⟩ := Prod.mk.inj (Except.ok.inj hok)
    have htail : (s.newLine.emit [bytes "set ", e.getAttributeValue "name",
        bytes " [list "]).xml.rest.tail = rest := congrArg List.tail hrest
    rw [htail] at hitems
    obtain ⟨htext, hsuffix, hmarks⟩ := items_marks env.file hfree NoBrace.nil hitems
    refine ⟨?_, ?_⟩
    · rw [hrest, blockMarks, hlist, if_pos rfl, hmarks]
      refine congrArg (Profile.mul · _) ?_
      rw [shape_emit_eq (p := Profile.one), shape_mul_one]
      · refine (shape_line (p := Profile.one) ?_).trans (shape_mul_one _)
        simp only [List.flatten_cons, List.flatten_nil, shape_append,
          shape_noBrace (he.attribute "name")]
        decide
      · simp only [List.flatten_cons, List.flatten_nil, shape_append, shape_noBrace htext]
        decide
    · rw [hrest]
      exact hsuffix.trans (List.suffix_cons e rest)

theorem findKeyword_some {name : Bytes} {handler : KeywordHandler}
    (h : findKeyword name = some handler) :
    ∃ k, (k, handler) ∈ keywordMap ∧ bytes k = name := by
  obtain ⟨⟨k, handler'⟩, hfind, rfl⟩ := Option.map_eq_some_iff.mp h
  exact ⟨k, List.mem_of_find?_eq_some hfind, by simpa using List.find?_some hfind⟩

/-- A name without a handler is no command. -/
theorem ne_of_findKeyword_none {name : Bytes} (h : findKeyword name = none) :
    ∀ k ∈ "list" :: (blockCommands ++ XmlElement.specialCommands), name ≠ bytes k := by
  have hcommands : ∀ k ∈ "list" :: (blockCommands ++ XmlElement.specialCommands),
      (findKeyword (bytes k)).isSome = true := by decide
  rintro k hk rfl
  have hsome := hcommands k hk
  rw [h] at hsome
  cases hsome

theorem ne_list {handler : KeywordHandler} (k : String) (hk : (k, handler) ∈ keywordMap)
    (hne : k ≠ "list") : bytes k ≠ bytes "list" := by
  have hkeys : ∀ k ∈ keywordMap.map (·.1), k ≠ "list" → bytes k ≠ bytes "list" := by decide
  exact hkeys k (List.mem_map.mpr ⟨_, hk, rfl⟩) hne

/-- One round: a close tag, or a keyword. -/
theorem MCScript.translateElement_advances (hns : ∀ n, NoBrace (env.nameSpaceID n)) {s t : MCScript}
    {e : XmlElement} {rest : List XmlElement} (hrest : s.xml.rest = e :: rest)
    (hfree : ∀ d ∈ s.xml.rest, d.BraceFree)
    (hok : s.translateElement env e = .ok (.ok, t)) : Advances env.file s t := by
  have he : e.BraceFree := hfree e (hrest ▸ List.mem_cons_self)
  unfold translateElement elementName at hok
  cases hname : e.xmlTagName with
  | none =>
    rw [hname] at hok
    cases hok
  | some pData =>
    rw [hname] at hok
    obtain ⟨pData', hdata, hok⟩ := bind_eq_ok.mp hok
    obtain rfl := Except.ok.inj hdata
    have htag (pTag : Bytes) : e.isTag pTag = decide (pData = pTag) := by
      unfold XmlElement.isTag
      rw [hname]
      exact decide_eq_decide.mpr Option.some_inj
    have hcloses : e.closesBlock = XmlElement.closesName pData := by
      unfold XmlElement.closesBlock
      rw [hname]
      rfl
    have hslash : ∀ k ∈ "list" :: (blockCommands ++ XmlElement.specialCommands),
        startsWithSlash (bytes k) = false := by decide
    have hother (hne : ∀ k ∈ "list" :: (blockCommands ++ XmlElement.specialCommands),
        pData ≠ bytes k) : e.isTag (bytes "list") = false ∧
          ∀ k ∈ blockCommands ++ XmlElement.specialCommands, e.isTag (bytes k) = false := by
      refine ⟨?_, fun k hk => ?_⟩
      · rw [htag]
        exact decide_eq_false (hne "list" List.mem_cons_self)
      · rw [htag]
        exact decide_eq_false (hne k (List.mem_cons_of_mem _ hk))
    by_cases hclose : startsWithSlash pData = true ∧ pData ≠ bytes "/script"
    · rw [if_pos hclose] at hok
      obtain ⟨hlist, hmarks⟩ := hother fun k hk h => by
        have hk' := hslash k hk
        rw [← h, hclose.1] at hk'
        cases hk'
      by_cases hend : pData[1]? ≠ some 62
      · -- a closing brace
        rw [if_pos hend] at hok
        obtain ⟨_, rfl⟩ := Prod.mk.inj (Except.ok.inj hok)
        have hyes : e.closesBlock = true := by
          rw [hcloses]
          simpa [XmlElement.closesName, hclose.2, hend] using of_decide_eq_true hclose.1
        refine advances_of_marks hrest hlist ?_ rfl
        rw [XmlElement.marks, if_pos hyes]
        exact shape_line (by decide)
      · rw [if_neg hend] at hok
        obtain ⟨_, rfl⟩ := Prod.mk.inj (Except.ok.inj hok)
        have hno : e.closesBlock = false := by
          rw [hcloses, XmlElement.closesName, decide_eq_false hend, Bool.and_false]
        refine advances_of_marks hrest hlist ?_ rfl
        rw [XmlElement.marks_of_other env.file hno hmarks, shape_noBrace NoBrace.nil, shape_mul_one]
    · rw [if_neg hclose] at hok
      have hno : e.closesBlock = false := by
        rw [hcloses, XmlElement.closesName, ← Bool.decide_and, decide_eq_false, Bool.false_and]
        exact fun h => hclose ⟨decide_eq_true h.1, h.2⟩
      cases hfind : findKeyword pData with
      | none =>
        rw [hfind] at hok
        obtain ⟨_, rfl⟩ := Prod.mk.inj (Except.ok.inj hok)
        obtain ⟨hlist, hmarks⟩ := hother (ne_of_findKeyword_none hfind)
        refine advances_of_marks hrest hlist ?_ rfl
        rw [XmlElement.marks_of_other env.file hno hmarks, shape_noBrace NoBrace.nil, shape_mul_one]
      | some handler =>
        rw [hfind] at hok
        obtain ⟨⟨ret, u⟩, hu, hok⟩ := bind_eq_ok.mp hok
        obtain ⟨k, hk, rfl⟩ := findKeyword_some hfind
        dsimp only at hok
        split_ifs at hok with hret
        · exact absurd (Prod.mk.inj (Except.ok.inj hok)).1 hret
        · obtain ⟨_, rfl⟩ := Prod.mk.inj (Except.ok.inj hok)
          rw [not_not] at hret
          subst hret
          by_cases hlist : k = "list"
          · subst hlist
            obtain rfl : MCListHandler.process = handler := Option.some_inj.mp hfind
            have hadvances := MCListHandler.advances hrest ((htag _).trans (by decide)) hfree hu
            exact ⟨hadvances.1, hadvances.2⟩
          · have hhandles := keywordMap_handles hns (k, handler) hk hlist s e u hname he hu
            refine advances_of_marks hrest ?_ hhandles.1 hhandles.2
            rw [htag]
            exact decide_eq_false (ne_list k hk hlist)

/-- The rounds add the marks of all elements from the current one on. -/
theorem MCScript.translateLoop_shape (hns : ∀ n, NoBrace (env.nameSpaceID n)) {fuel : ℕ}
    {s t : MCScript} (hfree : ∀ d ∈ s.xml.rest, d.BraceFree)
    (hok : translateLoop env fuel s = .ok (.ok, t)) :
    shape t.tclScript =
      (shape s.tclScript).mul (shape (blockMarks env.file false s.xml.rest)) := by
  induction fuel generalizing s with
  | zero => cases hok
  | succ fuel ih =>
    unfold translateLoop at hok
    split at hok
    · cases hok
    · rename_i e rest hrest
      obtain ⟨⟨ret, u⟩, hu, hok⟩ := bind_eq_ok.mp hok
      dsimp only at hok
      split_ifs at hok with hret hend
      · exact absurd (Prod.mk.inj (Except.ok.inj hok)).1 hret
      · rw [not_not] at hret
        subst hret
        obtain ⟨_, rfl⟩ := Prod.mk.inj (Except.ok.inj hok)
        have hround := (translateElement_advances hns hrest hfree hu).shape_eq
        rw [hend] at hround
        exact (shape_mul_one _).symm.trans hround
      · rw [not_not] at hret
        subst hret
        have hadvances := translateElement_advances hns hrest hfree hu
        have hfree' : ∀ d ∈ u.xml.rest.tail, d.BraceFree := fun d hd =>
          hfree d (hadvances.rest_suffix.subset (List.mem_of_mem_tail hd))
        rw [ih hfree' hok]
        exact hadvances.shape_eq

/-- The elements of `<mcscript><output text="x"/></mcscript>`. -/
def outputElements : List XmlElement :=
  [{ xmlTagName := some (bytes "mcscript") },
    { xmlTagName := some (bytes "output"), xmlAttributes := [(bytes "text", bytes "x")] },
    { xmlTagName := some (bytes "/>") }, { xmlTagName := some (bytes "/mcscript") }]

/-- The elements of `<mcscript><output text="x"></output></mcscript>`. -/
def closedOutputElements : List XmlElement :=
  [{ xmlTagName := some (bytes "mcscript") },
    { xmlTagName := some (bytes "output"), xmlAttributes := [(bytes "text", bytes "x")] },
    { xmlTagName := some (bytes "/output") }, { xmlTagName := some (bytes "/mcscript") }]

def MCScript.plainEnv : ScriptEnv where
  file _ := none
  nameSpaceID _ := bytes "ns"
  indeterminate _ := none

instance XmlElement.decidableBraceFree (e : XmlElement) : Decidable e.BraceFree :=
  inferInstanceAs (Decidable ((∀ a ∈ e.xmlAttributes, NoBrace a.2) ∧
    ∀ v ∈ e.xmlValue, NoBrace v))

/-- A script is balanced when the marks of its document are. -/
theorem MCScript.translate_balanced_iff {s t : MCScript} (hns : ∀ n, NoBrace (env.nameSpaceID n))
    (hfree : ∀ e ∈ s.xml.xmlElements, e.BraceFree)
    (hok : s.translate env = .ok (.ok, t)) :
    BraceBalanced t.tclScript ↔
      BraceBalanced (blockMarks env.file false s.xml.xmlElements) := by
  obtain ⟨ret, hret, hok⟩ := bind_eq_ok.mp hok
  dsimp only at hok
  split_ifs at hok with hvalid
  · exact absurd (Prod.mk.inj (Except.ok.inj hok)).1 hvalid
  · have hshape := translateLoop_shape hns hfree hok
    rw [shape_noBrace NoBrace.nil, shape_one_mul] at hshape
    rw [braceBalanced_iff, braceBalanced_iff, hshape]

theorem MCScript.translate_balanced_output : ∃ t : MCScript,
    MCScript.translate plainEnv { xml := { xmlElements := outputElements } } = .ok (.ok, t) ∧
      (BraceBalanced t.tclScript ↔
        BraceBalanced (blockMarks plainEnv.file false outputElements)) := by
  have hns : NoBrace (bytes "ns") := by decide
  exact ⟨_, rfl, translate_balanced_iff (s := { xml := { xmlElements := outputElements } })
    (fun _ => hns) (by decide) rfl⟩

/-- The close tag of an element that opens no block. -/
theorem MCScript.output_close_tag_unbalanced :
    (XmlParser.parse {} (bytes "<mcscript><output text=\"x\"></output></mcscript>")).map
      (fun r => (r.1, r.2.xmlElements)) = .ok (xmlliteparserOk, closedOutputElements) ∧
    (∀ e ∈ closedOutputElements, e.BraceFree) ∧
    ∃ t : MCScript, MCScript.translate plainEnv { xml := { xmlElements := closedOutputElements } } =
      .ok (.ok, t) ∧ ¬ BraceBalanced t.tclScript := by
  refine ⟨by decide +kernel, by decide, _, rfl, fun h => ?_⟩
  have hcount := h.2
  revert hcount
  decide

end MsgCourier
