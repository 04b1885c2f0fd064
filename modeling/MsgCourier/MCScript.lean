import MsgCourier.Statement
import MsgCourier.XmlCursor

/-! `cMCScript` and its keyword handlers: from the elements of an XML document to a Tcl script. -/
namespace MsgCourier
open ListSearch CText

/-! ### The script -/

/-- What comes from outside: the text of a file, the identifiers that `cNameSpaceID` makes one after
another, and what an element of a statement has for a type when none was assigned. -/
structure ScriptEnv where
  file : Bytes → Option Bytes
  nameSpaceID : ℕ → Bytes
  indeterminate : Bytes → Option StatementType

/-- `m_IndentTabs` is kept as the number of its tabs, and `m_iVariableCount` only counts up. -/
structure MCScript where
  xml : XmlCursor
  tclScript : Bytes := []
  lastCommand : Bytes := []
  variableDeclarations : Bytes := []
  iVariableCount : ℕ := 0
  indentTabs : ℕ := 0
  lastMarkMarker : ℕ := 0
  iNameSpace : ℕ := 0
  deriving DecidableEq, Repr

/-- `Process` of a keyword handler, at the current element. -/
abbrev KeywordHandler := ScriptEnv → MCScript → XmlElement → Cxx (Hrc × MCScript)

namespace MCScript

def getIndentTabs (s : MCScript) : Bytes := List.replicate s.indentTabs 9

def increaseIndentDepth (s : MCScript) : MCScript := { s with indentTabs := s.indentTabs+1 }

def decreaseIndentDepth (s : MCScript) : MCScript := { s with indentTabs := s.indentTabs-1 }

/-- Texts that are appended to the output one after another. -/
def emit (s : MCScript) (texts : List Bytes) : MCScript :=
  { s with tclScript := s.tclScript ++ texts.flatten }

/-- A line break and the indentation. -/
def newLine (s : MCScript) : MCScript := s.emit [bytes "\n", s.getIndentTabs]

/-- The checks of a handler in their order: the first that fails decides. -/
def unlessFailing (s : MCScript) (checks : List (Bool × Hrc)) (s' : MCScript) : Hrc × MCScript :=
  match checks.find? (·.1) with
  | some (_, code) => (code, s)
  | none => (.ok, s')

def translateStatement (env : ScriptEnv) (s : MCScript) (text : Bytes) :
    Cxx (Hrc × Bytes × MCScript) := do
  let (ret, x) ← MsgCourier.translateStatement env.indeterminate s.getIndentTabs s.iVariableCount
    text
  pure (ret, x.sStatement, { s with
    variableDeclarations := x.variableDeclarations, iVariableCount := x.iVariableCount })

def isVarChar (c : Byte) : Bool := isAlnum c || c == 45 || c == 95

/-- The first byte other than a dollar sign with the name behind it, and the first value behind the
byte that follows the name. -/
def getVarValue (sExpression : Bytes) : Bytes × Bytes :=
  match sExpression.dropWhile (· = 36) with
  | [] => ([], [])
  | c :: t =>
    let sVar := c :: t.takeWhile isVarChar
    let sSearch := sExpression.drop (sVar.length+1)
    let isValueChar (c : Byte) : Bool := c == 36 || isVarChar c
    (sVar, (sSearch.dropWhile fun c => ! isValueChar c).takeWhile isValueChar)

end MCScript

/-! ### The keyword handlers -/

open MCScript

/-- An attribute name, or a keyword without a translation of its own. -/
def MCAttributeHandler.process : KeywordHandler := fun _ s _ => pure (.ok, s)
def MCExprHandler.process : KeywordHandler := fun _ s _ => pure (.ok, s)
def MCRegexHandler.process : KeywordHandler := fun _ s _ => pure (.ok, s)

def MCBreakHandler.process : KeywordHandler := fun _ s _ =>
  pure (.ok, s.newLine.emit [bytes "break"])

def MCContinueHandler.process : KeywordHandler := fun _ s _ =>
  pure (.ok, s.newLine.emit [bytes "continue"])

def MCCallHandler.process : KeywordHandler := fun env s e =>
  let pStatement := e.getAttributeValue "statement"
  let pRetVar := e.getAttributeValue "retvar"
  if pStatement.length = 0 then pure (.xmldataCallcmdMissingStatementAttribute, s)
  else do
    let (ret, sStatement, s) ← s.newLine.translateStatement env pStatement
    if ret = .ok then
      let s := s.emit [s.variableDeclarations]
      if pRetVar.length ≠ 0 then
        pure (ret, s.newLine.emit [bytes "set ", pRetVar.tail, bytes " ", sStatement])
      else pure (ret, s)
    else pure (ret, s)

/-- Only a case that does not fall through opens a block. -/
def MCCaseHandler.process : KeywordHandler := fun _ s e =>
  let pPattern := e.getAttributeValue "pattern"
  let pFallthrough := e.getAttributeValue "fallthrough"
  let s' := s.newLine.emit [bytes "\"", pPattern]
  pure <| s.unlessFailing
    [(pPattern.length = 0, .xmldataSwitchcmdMissingPatternAttribute),
      (pFallthrough.length = 0, .xmldataSwitchcmdMissingFallthroughAttribute),
      (pFallthrough ≠ bytes "true" ∧ pFallthrough ≠ bytes "false",
        .xmldataSwitchcmdFallthroughMustbeTrueOrFalse)]
    (if pFallthrough = bytes "false" then (s'.emit [bytes "\" \x7b"]).increaseIndentDepth
      else s'.emit [bytes "\" -"])

def MCDefaultHandler.process : KeywordHandler := fun _ s _ =>
  pure (.ok, (s.newLine.emit [bytes "default \x7b"]).increaseIndentDepth)

def MCElseHandler.process : KeywordHandler := fun _ s _ =>
  pure <| s.unlessFailing
    [(s.lastCommand ≠ bytes "if" ∧ s.lastCommand ≠ bytes "elseif" ∧ s.lastCommand ≠ bytes "else",
      .xmldataElsecmdMustFollowIforelseif)]
    (s.emit [bytes " else \x7b"]).increaseIndentDepth

def MCElseIfHandler.process : KeywordHandler := fun _ s e =>
  let pExpression := e.getAttributeValue "test"
  pure <| s.unlessFailing
    [(pExpression.length = 0, .xmldataElseifcmdMissingTestAttribute),
      (s.lastCommand ≠ bytes "if" ∧ s.lastCommand ≠ bytes "elseif",
        .xmldataElseifcmdMustFollowIforelseif)]
    (s.emit [bytes " elseif \x7b", pExpression, bytes "\x7d \x7b"]).increaseIndentDepth

def MCForHandler.process : KeywordHandler := fun _ s e =>
  let pStartExpression := e.getAttributeValue "start"
  let pTestExpression := e.getAttributeValue "test"
  let pIncrbyExpression := e.getAttributeValue "incr"
  let (sVar, sValue) := getVarValue pStartExpression
  pure <| s.unlessFailing
    [(pStartExpression.length = 0, .xmldataForcmdMissingStartAttribute),
      (pTestExpression.length = 0, .xmldataForcmdMissingTestAttribute),
      (pIncrbyExpression.length = 0, .xmldataForcmdMissingIncrAttribute),
      (pStartExpression.head? ≠ some 36, .xmldataForcmdStartNotDollarPrefix),
      (91 ∈ pStartExpression, .xmldataForcmdStartMaynotUseArray),
      (pTestExpression.head? ≠ some 36, .xmldataForcmdTestNotDollarPrefix),
      (91 ∈ pTestExpression, .xmldataForcmdTestMaynotUseArray)]
    (s.newLine.emit [bytes "for \x7bset ", sVar, bytes " ", sValue, bytes "\x7d \x7b",
      pTestExpression, bytes "\x7d \x7bincr ", sVar, bytes " ", pIncrbyExpression,
      bytes "\x7d \x7b"]).increaseIndentDepth

def MCForeachHandler.process : KeywordHandler := fun _ s e =>
  let pVariable := e.getAttributeValue "var"
  let pList := e.getAttributeValue "list"
  pure <| s.unlessFailing
    [(pVariable.length = 0, .xmldataForeachcmdMissingVarAttribute),
      (pList.length = 0, .xmldataForeachcmdMissingListAttribute),
      (pVariable.head? ≠ some 36, .xmldataForeachcmdVarNotDollarPrefix),
      (91 ∈ pVariable, .xmldataForeachcmdVarMaynotUseArray),
      (pList.head? ≠ some 36, .xmldataForeachcmdTestNotDollarPrefix),
      (91 ∈ pList, .xmldataForeachcmdTestMaynotUseArray)]
    ((s.newLine.emit [bytes "set ", pVariable.tail, bytes " 0"]).newLine.emit
      [bytes "foreach ", pVariable.tail, bytes " ", pList, bytes " \x7b"]).increaseIndentDepth

def MCIfHandler.process : KeywordHandler := fun _ s e =>
  let pExpression := e.getAttributeValue "test"
  pure <| s.unlessFailing [(pExpression.length = 0, .xmldataIfcmdMissingTestAttribute)]
    (s.newLine.emit [bytes "if \x7b", pExpression, bytes "\x7d \x7b"]).increaseIndentDepth

def MCImportHandler.process : KeywordHandler := fun env s e =>
  let pFile := e.getAttributeValue "file"
  if pFile.length = 0 then pure (.xmldataImportcmdMissingFileAttribute, s)
  else
    match env.file pFile with
    | none => pure (.xmldataImportcmdFileloadFailed, s)
    | some sText => pure (.ok, s.emit [bytes "\n", cstr sText])

def MCIncrHandler.process : KeywordHandler := fun _ s e =>
  let pVariable := e.getAttributeValue "variable"
  let pBy := e.getAttributeValue "by"
  pure <| s.unlessFailing
    [(pVariable.length = 0, .xmldataIncrcmdMissingVariableAttribute),
      (pBy.length = 0, .xmldataIncrcmdMissingByAttribute)]
    (s.newLine.emit [bytes "incr ",
      if pVariable.head? = some 36 then pVariable.tail else pVariable, bytes " ", pBy])

/-- Nothing is written for the end of an item. The value may be null. -/
def MCListHandler.itemText (e : XmlElement) (pData : Bytes) : Cxx Bytes :=
  if pData = bytes "/item" then pure []
  else
    match e.xmlValue with
    | none => .error .undefined
    | some pData => pure (bytes " '" ++ pData ++ bytes "'")

/-- The elements from the current one on. There is one at first, and it stays the current one when
it is no item. -/
def MCListHandler.items : List XmlElement → Bytes → Cxx (Bytes × List XmlElement)
  | [], _ => .error .undefined
  | e :: rest, text =>
    match e.xmlTagName with
    | none => .error .undefined
    | some pData =>
      if pData ≠ bytes "item" ∧ pData ≠ bytes "/item" then pure (text, e :: rest)
      else do
        let sItem ← MCListHandler.itemText e pData
        match rest with
        | [] => pure (text ++ sItem, [])
        | e :: rest => items (e :: rest) (text ++ sItem)

def MCListHandler.process : KeywordHandler := fun _ s e =>
  let pVarName := e.getAttributeValue "name"
  if pVarName.length = 0 then pure (.xmldataListcmdMissingNameAttribute, s)
  else do
    let s := s.newLine.emit [bytes "set ", pVarName, bytes " [list "]
    let (text, rest) ← MCListHandler.items s.xml.rest.tail []
    pure (.ok, { s with xml := { s.xml with rest := rest } }.emit [text, bytes "]"])

/-- With a key and a value the map is set at once, and what the value declares is put in front. -/
def MCMapHandler.process : KeywordHandler := fun env s e =>
  let pName := e.getAttributeValue "name"
  let pKey := e.getAttributeValue "key"
  let pValue := e.getAttributeValue "value"
  if pName.length = 0 then pure (.xmldataMapcmdMissingNameAttribute, s)
  else
    let s := { s with lastMarkMarker := s.tclScript.length }
    if pKey.length ≠ 0 ∧ pValue.length ≠ 0 then do
      let s := s.newLine.emit [bytes "set ", pName, bytes "(", pKey, bytes ") "]
      let (ret, sStatement, s) ← s.translateStatement env pValue
      if ret = .ok then
        let s := { s with tclScript := s.tclScript.take s.lastMarkMarker ++
          s.variableDeclarations ++ s.tclScript.drop s.lastMarkMarker }
        pure (.ok, s.emit [sStatement])
      else pure (.ok, s.emit [pValue])
    else
      pure (.ok,
        (s.newLine.emit [bytes "array set ", pName, bytes " \x7b"]).increaseIndentDepth)

def MCMcscriptHandler.process : KeywordHandler := fun env s _ =>
  let s' := { s with iNameSpace := s.iNameSpace+1 }
  pure (.ok, (s'.emit [bytes "namespace eval ", env.nameSpaceID s.iNameSpace,
    bytes " \x7b"]).increaseIndentDepth)

def MCOutputHandler.process : KeywordHandler := fun env s e =>
  let pText := e.getAttributeValue "text"
  if pText.length = 0 then pure (.xmldataOutputcmdMissingTextAttribute, s)
  else do
    let (ret, sStatement, s) ← s.translateStatement env pText
    if ret = .ok then
      pure (.ok, (s.newLine.emit [s.variableDeclarations]).newLine.emit
        [bytes "puts \"", sStatement, bytes "\""])
    else pure (.ok, s.newLine.emit [bytes "puts \"", pText, bytes "\""])

def MCPairHandler.process : KeywordHandler := fun _ s e =>
  let pKey := e.getAttributeValue "key"
  let pValue := e.getAttributeValue "value"
  pure <| s.unlessFailing
    [(pKey.length = 0, .xmldataPaircmdMissingKeyAttribute),
      (pValue.length = 0, .xmldataPaircmdMissingValueAttribute)]
    (s.newLine.emit [bytes "\x7b", pKey, bytes "\x7d \x7b", pValue, bytes "\x7d"])

def MCProcedureHandler.process : KeywordHandler := fun _ s e =>
  let pProcName := e.getAttributeValue "name"
  let pParamName := e.getAttributeValue "param"
  pure <| s.unlessFailing
    [(pProcName.length = 0, .xmldataProcedurecmdMissingProcnameAttribute),
      (pParamName.length = 0, .xmldataProcedurecmdMissingParamnameAttribute)]
    (s.newLine.emit [bytes "proc ", pProcName, bytes " \x7b", pParamName,
      bytes "\x7d \x7b"]).increaseIndentDepth

def MCReturnHandler.process : KeywordHandler := fun _ s e =>
  let pValue := e.getAttributeValue "value"
  pure <| s.unlessFailing [(pValue.length = 0, .xmldataReturncmdMissingValueAttribute)]
    (s.newLine.emit [bytes "return ", pValue])

def MCScriptHandler.process : KeywordHandler := fun _ s e =>
  let pLanguage := e.getAttributeValue "language"
  pure <| s.unlessFailing
    [(pLanguage.length = 0, .xmldataScriptcmdMissingLanguageAttribute),
      (pLanguage ≠ bytes "Tcl", .xmldataScriptcmdLanguageMustbeTcl),
      (e.xmlCDATA = none, .xmldataScriptcmdIsmissingCdataSection)]
    (s.newLine.emit [e.xmlCDATA.getD []])

namespace MCStringHandler

def appendMatchCase (pMatchCase : Bytes) : Bytes :=
  if pMatchCase = bytes "no" then bytes "-nocase " else []

def appendLength (pLength : Bytes) : Bytes :=
  if pLength.length ≠ 0 then bytes "-length " ++ pLength ++ bytes " " else []

def orElse (text : Bytes) (other : String) : Bytes := if text.length = 0 then bytes other else text

def rangeTexts (e : XmlElement) (name : String) : List Bytes :=
  [bytes name, bytes " ", e.getAttributeValue "var", bytes " ",
    orElse (e.getAttributeValue "start") "0", bytes " ", orElse (e.getAttributeValue "end") "end"]

def trimTexts (e : XmlElement) (name : String) : List Bytes :=
  let pChars := e.getAttributeValue "chars"
  [bytes name, bytes " ", e.getAttributeValue "var",
    if pChars.length ≠ 0 then bytes " \"" ++ pChars ++ bytes "\"" else []]

def needsVar (e : XmlElement) (code : Hrc) : List (Bool × Hrc) :=
  [((e.getAttributeValue "var").length = 0, code)]

structure Operation where
  name : String
  checks : List (Bool × Hrc)
  texts : List Bytes

/-- What an operation has to have, and the words of its `string` command. -/
def operations (e : XmlElement) : List Operation :=
  let pVar := e.getAttributeValue "var"
  let pVar1 := e.getAttributeValue "var1"
  let pVar2 := e.getAttributeValue "var2"
  let pPattern := e.getAttributeValue "pattern"
  let sMatchCase := appendMatchCase (e.getAttributeValue "matchcase")
  [⟨"compare", [(pVar1.length = 0 ∨ pVar2.length = 0,
        .xmldataStringcmdCompareAttributeRequiresVar1var2)],
      [bytes "compare ", sMatchCase, appendLength (e.getAttributeValue "len"), pVar1, bytes " ",
        pVar2]⟩,
    ⟨"copy", needsVar e .xmldataStringcmdCopyRequiresVarAttribute, rangeTexts e "range"⟩,
    ⟨"length", (pVar.length = 0 ∧ (pVar1.length ≠ 0 ∨ pVar2.length ≠ 0),
        .xmldataStringcmdLengthAttributeDoesntUseVar1var2) ::
        needsVar e .xmldataStringcmdLengthRequiresVarAttribute, [bytes "length ", pVar]⟩,
    ⟨"match", [(pVar.length = 0, .xmldataStringcmdMatchRequiresVarAttribute),
        (pPattern.length = 0, .xmldataStringcmdMatchRequiresPatternAttribute)],
      [bytes "match ", sMatchCase, bytes "\x7b", pPattern, bytes "\x7d ", pVar]⟩,
    ⟨"replace", needsVar e .xmldataStringcmdReplaceRequiresVarAttribute, rangeTexts e "replace" ++
        [bytes " \x7b", e.getAttributeValue "with", bytes "\x7d"]⟩,
    ⟨"tolower", needsVar e .xmldataStringcmdTolowerRequiresVarAttribute, rangeTexts e "tolower"⟩,
    ⟨"toupper", needsVar e .xmldataStringcmdToupperRequiresVarAttribute, rangeTexts e "toupper"⟩,
    ⟨"trimleft", needsVar e .xmldataStringcmdTrimleftRequiresVarAttribute, trimTexts e "trimleft"⟩,
    ⟨"trimright", needsVar e .xmldataStringcmdTrimrightRequiresVarAttribute,
      trimTexts e "trimright"⟩]

def process : KeywordHandler := fun _ s e =>
  let pRetVar := e.getAttributeValue "retvar"
  let pOperation := e.getAttributeValue "operation"
  let pMatchCase := e.getAttributeValue "matchcase"
  let checks : List (Bool × Hrc) :=
    [(pRetVar.length = 0, .xmldataStringcmdMissingRetvarAttribute),
      (pRetVar.head? ≠ some 36, .xmldataStringcmdRetvarNotDollarPrefixed),
      (pOperation.length = 0, .xmldataStringcmdMissingOperationAttribute),
      (pMatchCase.length ≠ 0 ∧ pMatchCase ≠ bytes "yes" ∧ pMatchCase ≠ bytes "no",
        .xmldataStringcmdMatchcaseAttributeNotYesno)]
  match (operations e).find? fun op => bytes op.name = pOperation with
  | none =>
    pure <| s.unlessFailing (checks ++ [(true, .xmldataStringcmdUnknownOperationAttribute)]) s
  | some op =>
    pure <| s.unlessFailing (checks ++ op.checks)
      (s.newLine.emit ([bytes "set ", pRetVar.tail, bytes " [string "] ++ op.texts ++ [bytes "]"]))

end MCStringHandler

def MCSwitchHandler.process : KeywordHandler := fun _ s e =>
  let pOperation := e.getAttributeValue "operation"
  let pVariable := e.getAttributeValue "var"
  pure <| s.unlessFailing
    [(pOperation.length = 0, .xmldataSwitchcmdMissingOperationAttribute),
      (pVariable.length = 0, .xmldataSwitchcmdMissingVarAttribute),
      (pOperation ≠ bytes "exact" ∧ pOperation ≠ bytes "glob" ∧ pOperation ≠ bytes "regexp",
        .xmldataSwitchcmdInvalidOperation),
      (pVariable.head? ≠ some 36, .xmldataSwitchcmdVarNotDollarPrefix),
      (91 ∈ pVariable, .xmldataSwitchcmdVarMaynotUseArray)]
    (s.newLine.emit [bytes "switch -", pOperation, bytes " ", pVariable,
      bytes " \x7b"]).increaseIndentDepth

/-- Without a value and an expression the value is the empty one. -/
def MCVariableHandler.process : KeywordHandler := fun env s e =>
  let pVarName := e.getAttributeValue "name"
  let pValue := e.getAttributeValue "value"
  let pExpr := e.getAttributeValue "expr"
  if pVarName.length = 0 then pure (.xmldataVariablecmdMissingNameAttribute, s)
  else if pValue.length ≠ 0 ∧ pExpr.length ≠ 0 then
    pure (.xmldataVariablecmdIncludesValueandexprAttribute, s)
  else if pExpr.length = 0 then do
    let (ret, sStatement, s) ← s.translateStatement env pValue
    if ret = .ok then
      pure (.ok, s.emit [s.variableDeclarations, s.getIndentTabs, bytes "set ", pVarName,
        bytes " ", bytes "\"", sStatement, bytes "\""])
    else
      pure (.ok, s.newLine.emit [bytes "set ", pVarName, bytes " ", bytes "\"", pValue,
        bytes "\""])
  else
    pure (.ok, s.newLine.emit [bytes "set ", pVarName, bytes " [expr \x7b ", pExpr,
      bytes " \x7d]"])

def MCWhileHandler.process : KeywordHandler := fun _ s e =>
  let pExpression := e.getAttributeValue "test"
  pure <| s.unlessFailing [(pExpression.length = 0, .xmldataWhilecmdMissingTestAttribute)]
    (s.newLine.emit [bytes "while \x7b", pExpression, bytes "\x7d \x7b"]).increaseIndentDepth

/-- `PrepareKeywordMap`. The attribute handlers of `incr` and `list` are not put over the commands,
because `map::insert` keeps the first entry. -/
def keywordMap : List (String × KeywordHandler) :=
  [("by", MCAttributeHandler.process), ("break", MCBreakHandler.process),
    ("call", MCCallHandler.process), ("case", MCCaseHandler.process),
    ("chars", MCAttributeHandler.process), ("continue", MCContinueHandler.process),
    ("copy", MCAttributeHandler.process), ("default", MCDefaultHandler.process),
    ("end", MCAttributeHandler.process), ("elseif", MCElseIfHandler.process),
    ("else", MCElseHandler.process), ("expr", MCExprHandler.process),
    ("fallthrough", MCAttributeHandler.process), ("file", MCAttributeHandler.process),
    ("foreach", MCForeachHandler.process), ("for", MCForHandler.process),
    ("if", MCIfHandler.process), ("import", MCImportHandler.process),
    ("incr", MCIncrHandler.process), ("key", MCAttributeHandler.process),
    ("len", MCAttributeHandler.process), ("list", MCListHandler.process),
    ("item", MCAttributeHandler.process), ("language", MCAttributeHandler.process),
    ("matchcase", MCAttributeHandler.process), ("map", MCMapHandler.process),
    ("mcscript", MCMcscriptHandler.process), ("name", MCAttributeHandler.process),
    ("operation", MCAttributeHandler.process), ("output", MCOutputHandler.process),
    ("pair", MCPairHandler.process), ("param", MCAttributeHandler.process),
    ("pattern", MCAttributeHandler.process), ("procedure", MCProcedureHandler.process),
    ("proc-name", MCAttributeHandler.process), ("regex", MCRegexHandler.process),
    ("return", MCReturnHandler.process), ("retvar", MCAttributeHandler.process),
    ("script", MCScriptHandler.process), ("start", MCAttributeHandler.process),
    ("statement", MCAttributeHandler.process), ("string", MCStringHandler.process),
    ("switch", MCSwitchHandler.process), ("test", MCAttributeHandler.process),
    ("text", MCAttributeHandler.process), ("trimleft", MCAttributeHandler.process),
    ("trimright", MCAttributeHandler.process), ("value", MCAttributeHandler.process),
    ("variable", MCVariableHandler.process), ("var", MCAttributeHandler.process),
    ("var1", MCAttributeHandler.process), ("var2", MCAttributeHandler.process),
    ("while", MCWhileHandler.process), ("with", MCAttributeHandler.process)]

/-- `m_KeywordMap.find` -/
def findKeyword (name : Bytes) : Option KeywordHandler :=
  (keywordMap.find? fun k => bytes k.1 = name).map (·.2)

/-! ### The validation tests -/

namespace MCScript

def elementName (e : XmlElement) : Cxx Bytes :=
  match e.xmlTagName with
  | some pData => .ok pData
  | none => .error .undefined

/-- `m_xml.GetElement()` is null when there is no current element. -/
def getElementName (elements : List XmlElement) : Cxx Bytes :=
  match elements with
  | [] => .error .undefined
  | e :: _ => elementName e

def validateRoot (elements : List XmlElement) : Cxx Hrc :=
  match elements with
  | [] => .error .undefined
  | e :: rest =>
    match e.xmlTagName with
    | none => pure .xmldataInvalidroot
    | some pData => do
      let pData ← if pData = bytes "xml" then getElementName rest else pure pData
      pure (if pData = bytes "mcscript" then .ok else .xmldataInvalidroot)

def startsWithSlash (pData : Bytes) : Bool := pData.head? = some 47

/-- Only the numbers of the two kinds of tags are compared. -/
def validateOpenCloseTags (elements : List XmlElement) : Cxx Hrc := do
  let names ← elements.mapM elementName
  pure (if names.countP (! startsWithSlash ·) = names.countP startsWithSlash then .ok
    else .xmldataOpencloseTagmismatch)

/-- `char` is signed, and of an empty name the terminator is compared. -/
def needsLowercase (pData : Bytes) : Bool :=
  let c := pData.headD 0
  (c < 97 || 128 ≤ c) && c ≠ 47

def validateLowercaseTags : List XmlElement → Cxx Hrc
  | [] => pure .ok
  | e :: rest => do
    let pData ← elementName e
    if needsLowercase pData then pure .xmldataNeedlowercaseElement
    else if e.xmlAttributes.any fun a => needsLowercase a.1 then
      pure .xmldataNeedlowercaseAttribute
    else validateLowercaseTags rest

/-- The names that are reported, without the text around them. -/
def invalidTagNames (elements : List XmlElement) : Cxx (List Bytes) := do
  let names ← elements.mapM fun e => do
    let pData ← elementName e
    let sName := if startsWithSlash pData then pData.tail else pData
    let attributes := (e.xmlAttributes.map (·.1)).filter fun name => (findKeyword name).isNone
    pure ((if pData ≠ bytes "/>" ∧ (findKeyword sName).isNone then [sName] else []) ++ attributes)
  pure names.flatten

def validateTagNames (elements : List XmlElement) : Cxx Hrc := do
  let names ← invalidTagNames elements
  pure (if names = [] then .ok else .xmldataInvalidtags)

def executeScriptValidationTests (elements : List XmlElement) : Cxx Hrc :=
  if elements = [] then pure .xmldataEmpty
  else do
    let ret ← validateRoot elements
    if ret ≠ .ok then pure ret
    else do
      let ret ← validateOpenCloseTags elements
      if ret ≠ .ok then pure ret
      else do
        let ret ← validateLowercaseTags elements
        if ret ≠ .ok then pure ret else validateTagNames elements

/-! ### The translation -/

/-- Every close tag but `/script` becomes a closing brace. -/
def translateElement (env : ScriptEnv) (s : MCScript) (e : XmlElement) : Cxx (Hrc × MCScript) := do
  let pData ← elementName e
  if startsWithSlash pData ∧ pData ≠ bytes "/script" then
    if pData[1]? ≠ some 62 then
      let s := { s with lastCommand := pData.tail }.decreaseIndentDepth
      pure (.ok, s.newLine.emit [bytes "\x7d"])
    else pure (.ok, s)
  else
    match findKeyword pData with
    | none => pure (.ok, { s with lastCommand := pData })
    | some pHandler => do
      let (ret, s) ← pHandler env s e
      if ret ≠ .ok then pure (ret, s) else pure (.ok, { s with lastCommand := pData })

/-- A handler may move the position forward, so the number of elements bounds the rounds. -/
def translateLoop (env : ScriptEnv) : ℕ → MCScript → Cxx (Hrc × MCScript)
  | 0, _ => .error .undefined
  | fuel+1, s =>
    match s.xml.rest with
    | [] => .error .undefined
    | e :: _ => do
      let (ret, s) ← s.translateElement env e
      if ret ≠ .ok then pure (ret, s)
      else
        let s := { s with xml := { s.xml with rest := s.xml.rest.tail } }
        if s.xml.rest = [] then pure (.ok, s) else translateLoop env fuel s

/-- Without the display of the script. -/
def translate (env : ScriptEnv) (s : MCScript) : Cxx (Hrc × MCScript) := do
  let s := { s with iVariableCount := 0 }
  let ret ← executeScriptValidationTests s.xml.xmlElements
  if ret ≠ .ok then pure (ret, s)
  else
    translateLoop env s.xml.xmlElements.length
      { s with tclScript := [], xml := { s.xml with rest := s.xml.xmlElements } }

end MCScript

end MsgCourier
