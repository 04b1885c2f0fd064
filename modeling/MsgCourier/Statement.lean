import MsgCourier.Buffer

/-! `cMCScript::TranslateStatement`: calls, lists and maps in an MCScript expression become Tcl
variables that are set in front of it. -/
namespace MsgCourier
open ListSearch CText

/-! ### The three patterns -/

def isAlnum (c : Byte) : Bool := (48 ≤ c && c ≤ 57) || (65 ≤ c && c ≤ 90) || (97 ≤ c && c ≤ 122)

/-- `\w` -/
def isWord (c : Byte) : Bool := isAlnum c || c == 95

/-- A sigil, a name, and a bracket that is closed: `\$[\w]*\([^)]*[\)]+` and the like. -/
structure FragmentPattern where
  sigil : Byte
  left : Byte
  right : Byte

def funcPattern : FragmentPattern := ⟨36, 40, 41⟩
def arrayPattern : FragmentPattern := ⟨36, 91, 93⟩
def mapPattern : FragmentPattern := ⟨35, 91, 93⟩

namespace FragmentPattern

/-- The text that matches at the beginning. The name ends before the left bracket, which is no word
character, and all right brackets behind the first are taken along. -/
def matchAt (r : FragmentPattern) : Bytes → Option Bytes
  | [] => none
  | c :: t =>
    if c = r.sigil then
      match t.dropWhile isWord with
      | [] => none
      | b :: u =>
        if b = r.left then
          match u.dropWhile (· ≠ r.right) with
          | [] => none
          | v => some (c :: t.takeWhile isWord ++ b :: u.takeWhile (· ≠ r.right) ++
              v.takeWhile (· = r.right))
        else none
    else none

/-- `regex_search`: the leftmost match, as its index and its text. -/
def search (r : FragmentPattern) : Bytes → Option (ℕ × Bytes)
  | [] => none
  | c :: t =>
    match r.matchAt (c :: t) with
    | some subexpr => some (0, subexpr)
    | none => (r.search t).map fun m => (m.1+1, m.2)

end FragmentPattern

/-! ### The parts of a fragment -/

/-- The return codes of `cMCScript` and of the keyword handlers. -/
inductive Hrc
  | ok
  | xmldataEmpty
  | xmldataNeedlowercaseElement
  | xmldataNeedlowercaseAttribute
  | xmldataInvalidroot
  | xmldataInvalidtags
  | xmldataOpencloseTagmismatch
  | xmldataOutputcmdMissingTextAttribute
  | xmldataVariablecmdMissingNameAttribute
  | xmldataVariablecmdIncludesValueandexprAttribute
  | xmldataIfcmdMissingTestAttribute
  | xmldataIncrcmdMissingVariableAttribute
  | xmldataIncrcmdMissingByAttribute
  | xmldataWhilecmdMissingTestAttribute
  | xmldataListcmdMissingNameAttribute
  | xmldataScriptcmdMissingLanguageAttribute
  | xmldataScriptcmdLanguageMustbeTcl
  | xmldataScriptcmdIsmissingCdataSection
  | xmldataImportcmdMissingFileAttribute
  | xmldataImportcmdFileloadFailed
  | xmldataCallcmdMissingStatementAttribute
  | xmldataProcedurecmdMissingProcnameAttribute
  | xmldataProcedurecmdMissingParamnameAttribute
  | xmldataReturncmdMissingValueAttribute
  | xmldataStringcmdMissingRetvarAttribute
  | xmldataStringcmdMissingOperationAttribute
  | xmldataStringcmdUnknownOperationAttribute
  | xmldataStringcmdMatchcaseAttributeNotYesno
  | xmldataStringcmdCompareAttributeRequiresVar1var2
  | xmldataStringcmdRetvarNotDollarPrefixed
  | xmldataStringcmdLengthAttributeDoesntUseVar1var2
  | xmldataStringcmdLengthRequiresVarAttribute
  | xmldataStringcmdMatchRequiresVarAttribute
  | xmldataStringcmdMatchRequiresPatternAttribute
  | xmldataStringcmdCopyRequiresVarAttribute
  | xmldataStringcmdReplaceRequiresVarAttribute
  | xmldataStringcmdTolowerRequiresVarAttribute
  | xmldataStringcmdToupperRequiresVarAttribute
  | xmldataStringcmdTrimleftRequiresVarAttribute
  | xmldataStringcmdTrimrightRequiresVarAttribute
  | xmldataForcmdMissingStartAttribute
  | xmldataForcmdMissingTestAttribute
  | xmldataForcmdMissingIncrAttribute
  | xmldataForcmdStartNotDollarPrefix
  | xmldataForcmdStartMaynotUseArray
  | xmldataForcmdTestMaynotUseArray
  | xmldataForcmdTestNotDollarPrefix
  | xmldataForeachcmdMissingVarAttribute
  | xmldataForeachcmdMissingListAttribute
  | xmldataForeachcmdVarNotDollarPrefix
  | xmldataForeachcmdVarMaynotUseArray
  | xmldataForeachcmdTestNotDollarPrefix
  | xmldataForeachcmdTestMaynotUseArray
  | xmldataSwitchcmdMissingPatternAttribute
  | xmldataSwitchcmdMissingFallthroughAttribute
  | xmldataSwitchcmdFallthroughMustbeTrueOrFalse
  | xmldataSwitchcmdMissingOperationAttribute
  | xmldataSwitchcmdMissingVarAttribute
  | xmldataSwitchcmdInvalidOperation
  | xmldataSwitchcmdVarNotDollarPrefix
  | xmldataSwitchcmdVarMaynotUseArray
  | xmldataElseifcmdMissingTestAttribute
  | xmldataElsecmdMustFollowIforelseif
  | xmldataElseifcmdMustFollowIforelseif
  | xmldataMapcmdMissingNameAttribute
  | xmldataPaircmdMissingKeyAttribute
  | xmldataPaircmdMissingValueAttribute
  | statementIncorrectlyFormed
  | statementMultiparamNotallowed
  | statementWasnotTranslated
  deriving DecidableEq, Repr

inductive StatementType
  | array
  | map
  deriving DecidableEq, Repr

/-- `m_symbol` tells round from square and left from right. -/
inductive SymbolType
  | leftParem
  | rightParem
  | leftBrace
  | rightBrace
  deriving DecidableEq, Repr

/-- The type is none when nothing was assigned to it. -/
structure StatementParseElement where
  symbol : SymbolType
  statementType : Option StatementType
  string : Bytes
  deriving DecidableEq, Repr

/-- The stack from its top on, and the queue. -/
structure StatementParts where
  stack : List StatementParseElement := []
  queue : List StatementParseElement := []

def symbolOf (ch : Byte) : Option SymbolType :=
  if ch = 40 then some .leftParem
  else if ch = 41 then some .rightParem
  else if ch = 91 then some .leftBrace
  else if ch = 93 then some .rightBrace
  else none

def statementTypeOf (text : Bytes) : Option StatementType :=
  if text.head? = some 36 then some .array
  else if text.head? = some 35 then some .map
  else none

/-- A call loses the dollar sign of its name. -/
def StatementParts.add (parts : StatementParts) (symbol : SymbolType) (text : Bytes) :
    StatementParts :=
  let elm : StatementParseElement := ⟨symbol, statementTypeOf text, text⟩
  match symbol with
  | .leftParem =>
    { parts with stack := { elm with
        string := if text.head? = some 36 then text.tail else text } :: parts.stack }
  | .leftBrace => { parts with stack := elm :: parts.stack }
  | .rightParem | .rightBrace => { parts with queue := parts.queue ++ [elm] }

/-- The loop over the brackets; `text` is what stands between the last one and the present byte. -/
def parseNestedLoop (parts : StatementParts) (text : Bytes) : Bytes → StatementParts
  | [] => parts
  | ch :: rest =>
    match symbolOf ch with
    | some symbol => parseNestedLoop (parts.add symbol text) [] rest
    | none => parseNestedLoop parts (text ++ [ch]) rest

def parseNestedStatements (sStatement : Bytes) : Except Hrc StatementParts :=
  if 44 ∈ sStatement ∧ (40 ∈ sStatement ∨ 44 ∈ sStatement) ∧ ¬ (39 ∈ sStatement ∨ 34 ∈ sStatement)
  then .error .statementMultiparamNotallowed
  else
    let parts := parseNestedLoop {} [] sStatement
    if parts.stack.length ≠ parts.queue.length then .error .statementIncorrectlyFormed
    else .ok parts

/-! ### The Tcl text of a fragment -/

/-- `sStatement` and `sLastStatement`. -/
structure NestedText where
  sStatement : Bytes := []
  sLastStatement : Bytes := []

/-- What stands between the brackets. A call with several parameters gets the last statement. -/
def innerText (rightElm : StatementParseElement) (sLastStatement : Bytes) : Bytes :=
  if rightElm.string.length = 0 ∨ (rightElm.symbol = .rightParem ∧ 44 ∈ rightElm.string)
  then sLastStatement else rightElm.string

def handleArray (leftElm rightElm : StatementParseElement) (x : NestedText) : NestedText :=
  let sInner := innerText rightElm x.sLastStatement
  match rightElm.symbol with
  | .rightBrace =>
    let sStatement := bytes "[lindex " ++ leftElm.string ++ bytes " " ++ sInner ++ bytes "]"
    ⟨sStatement, sStatement⟩
  | .rightParem =>
    let sStatement := bytes "[" ++ leftElm.string ++ bytes " " ++ sInner ++ bytes "]"
    ⟨sStatement, sStatement⟩
  | .leftParem | .leftBrace => x

/-- The name without its sigil. `substr` throws an exception if there is not even that, but in the
last branch, which takes the whole name. -/
def mapName (leftElm rightElm : StatementParseElement) : Option Bytes :=
  if rightElm.symbol = .rightParem ∧ rightElm.string.length ≠ 0 ∧ 44 ∉ rightElm.string then
    some leftElm.string
  else if leftElm.string = [] then none
  else some leftElm.string.tail

def handleMap (leftElm rightElm : StatementParseElement) (x : NestedText) : Cxx NestedText :=
  match rightElm.symbol with
  | .rightBrace | .rightParem =>
    match mapName leftElm rightElm with
    | none => .error .stdException
    | some name =>
      let sStatement := bytes "$" ++ name ++ bytes "(" ++
        innerText rightElm x.sLastStatement ++ bytes ")"
      pure ⟨sStatement, sStatement⟩
  | .leftParem | .leftBrace => pure x

/-- An element without a type has what the memory under it holds, which `indeterminate` gives. -/
def processNestedLoop (indeterminate : Bytes → Option StatementType) :
    List StatementParseElement → List StatementParseElement → NestedText → Cxx Bytes
  | leftElm :: stack, rightElm :: queue, x =>
    match leftElm.statementType <|> indeterminate leftElm.string with
    | some .array => processNestedLoop indeterminate stack queue (handleArray leftElm rightElm x)
    | some .map => do
      let x ← handleMap leftElm rightElm x
      processNestedLoop indeterminate stack queue x
    | none => processNestedLoop indeterminate stack queue x
  | _, _, x => pure x.sStatement

/-- An exception of the loop is caught, but `LOGALL` throws its text on, through the callers. -/
def processNestedStatements (indeterminate : Bytes → Option StatementType)
    (parts : StatementParts) : Cxx Bytes :=
  if parts.stack.length ≠ parts.queue.length then pure []
  else
    match processNestedLoop indeterminate parts.stack parts.queue {} with
    | .error .stdException => .error .charPtr
    | sStatement => sStatement

/-! ### The statement -/

/-- `m_iVariableCount` is an `int` that only counts up. -/
structure Translation where
  sStatement : Bytes
  variableDeclarations : Bytes := []
  iVariableCount : ℕ
  bTranslated : Bool := false
  deriving DecidableEq, Repr

def createNewVariable (iVariableCount : ℕ) : Bytes := bytes "$__variable" ++ decimal iVariableCount

/-- A fragment whose parts do not fit is replaced all the same, and declares nothing. -/
def processStatementFragment (indeterminate : Bytes → Option StatementType) (indentTabs : Bytes)
    (x : Translation) (index : ℕ) (subexpr : Bytes) : Cxx Translation :=
  if intMax ≤ x.iVariableCount then .error .undefined
  else
    let sVariable := createNewVariable (x.iVariableCount+1)
    let sStatement := x.sStatement.take index ++ sVariable ++
      x.sStatement.drop (index+subexpr.length)
    let x := { x with
      sStatement := sStatement, iVariableCount := x.iVariableCount+1, bTranslated := true }
    match parseNestedStatements subexpr with
    | .error _ => pure x
    | .ok parts => do
      let sTemp ← processNestedStatements indeterminate parts
      pure { x with
        variableDeclarations := x.variableDeclarations ++ bytes "\n" ++ indentTabs ++
          bytes "set " ++ sVariable.tail ++ bytes " " ++ sTemp ++ bytes "\n" }

/-- One of the three loops. -/
def rewriteLoop (indeterminate : Bytes → Option StatementType) (indentTabs : Bytes)
    (r : FragmentPattern) : ℕ → Translation → Cxx Translation
  | 0, _ => .error .undefined
  | fuel+1, x =>
    match r.search x.sStatement with
    | none => pure x
    | some (index, subexpr) => do
      let x ← processStatementFragment indeterminate indentTabs x index subexpr
      rewriteLoop indeterminate indentTabs r fuel x

/-- A round takes a left bracket out of the statement. -/
def rewrite (indeterminate : Bytes → Option StatementType) (indentTabs : Bytes)
    (r : FragmentPattern) (x : Translation) : Cxx Translation :=
  rewriteLoop indeterminate indentTabs r (x.sStatement.length+1) x

def translateStatement (indeterminate : Bytes → Option StatementType) (indentTabs : Bytes)
    (iVariableCount : ℕ) (sStatement : Bytes) : Cxx (Hrc × Translation) := do
  let x ← rewrite indeterminate indentTabs funcPattern { sStatement, iVariableCount }
  let x ← rewrite indeterminate indentTabs arrayPattern x
  let x ← rewrite indeterminate indentTabs mapPattern x
  pure (if x.bTranslated then .ok else .statementWasnotTranslated, x)

/-! ### What a round does -/

namespace FragmentPattern

variable {r : FragmentPattern} {s subexpr : Bytes}

theorem matchAt_prefix (h : r.matchAt s = some subexpr) : subexpr <+: s ∧ r.left ∈ subexpr := by
  unfold matchAt at h
  split at h
  · cases h
  · rename_i c t
    split_ifs at h with hc
    split at h
    · cases h
    · rename_i b u hu
      split_ifs at h with hb
      split at h
      · cases h
      · obtain rfl := Option.some_inj.mp h
        refine ⟨⟨(u.dropWhile (· ≠ r.right)).dropWhile (· = r.right), ?_⟩, by simp [hb]⟩
        calc _ = c :: (t.takeWhile isWord ++ b :: (u.takeWhile (· ≠ r.right) ++
              ((u.dropWhile (· ≠ r.right)).takeWhile (· = r.right) ++
                (u.dropWhile (· ≠ r.right)).dropWhile (· = r.right)))) := by
              simp only [List.append_assoc, List.cons_append]
          _ = c :: (t.takeWhile isWord ++ b :: u) := by
              rw [List.takeWhile_append_dropWhile, List.takeWhile_append_dropWhile]
          _ = c :: t := by rw [← hu, List.takeWhile_append_dropWhile]

/-- A match is a part of the text, and has the left bracket. -/
theorem search_eq {index : ℕ} (h : r.search s = some (index, subexpr)) :
    ∃ u v, s = u ++ subexpr ++ v ∧ u.length = index ∧ r.left ∈ subexpr := by
  induction s generalizing index with
  | nil => cases h
  | cons c t ih =>
    unfold search at h
    split at h
    · rename_i sub hsub
      obtain ⟨rfl, rfl⟩ := Prod.mk.inj (Option.some_inj.mp h)
      obtain ⟨⟨v, hv⟩, hleft⟩ := matchAt_prefix hsub
      exact ⟨[], v, hv.symm, rfl, hleft⟩
    · obtain ⟨⟨i, sub⟩, hrec, hm⟩ := Option.map_eq_some_iff.mp h
      obtain ⟨rfl, rfl⟩ := Prod.mk.inj hm
      obtain ⟨u, v, rfl, rfl, hleft⟩ := ih hrec
      exact ⟨c :: u, v, rfl, rfl, hleft⟩

end FragmentPattern

variable {indeterminate : Bytes → Option StatementType} {indentTabs : Bytes} {r : FragmentPattern}

/-- What a round that does not throw has done to the statement. -/
structure FragmentReplaced (x : Translation) (index : ℕ) (subexpr : Bytes) (y : Translation) :
    Prop where
  statement : y.sStatement = x.sStatement.take index ++ createNewVariable (x.iVariableCount+1) ++
    x.sStatement.drop (index+subexpr.length)
  count : y.iVariableCount = x.iVariableCount+1
  room : (x.iVariableCount : ℤ) < intMax
  translated : y.bTranslated = true

theorem replaced_of_ok {x y : Translation} {index : ℕ} {subexpr : Bytes}
    (h : processStatementFragment indeterminate indentTabs x index subexpr = .ok y) :
    FragmentReplaced x index subexpr y := by
  unfold processStatementFragment at h
  split_ifs at h with hroom
  dsimp only at h
  split at h
  · obtain rfl := Except.ok.inj h
    exact ⟨rfl, rfl, not_le.mp hroom, rfl⟩
  · obtain ⟨sTemp, -, h⟩ := bind_eq_ok.mp h
    obtain rfl := Except.ok.inj h
    exact ⟨rfl, rfl, not_le.mp hroom, rfl⟩

/-- The letters of a new variable. -/
theorem mem_createNewVariable {n : ℕ} {c : Byte} (hc : c ∈ createNewVariable n) :
    c ∈ bytes "$__variable" ∨ isDigit c = true := by
  rcases List.mem_append.mp hc with h | h
  · exact Or.inl h
  · exact Or.inr (isDigit_of_mem_decimal h)

/-- A bracket is no letter of a variable. -/
def IsBracket (c : Byte) : Prop := c ∉ bytes "$__variable" ∧ isDigit c = false

theorem notMem_createNewVariable {c : Byte} (hc : IsBracket c) (n : ℕ) :
    c ∉ createNewVariable n := by
  intro hmem
  rcases mem_createNewVariable hmem with h | h
  · exact hc.1 h
  · exact Bool.noConfusion (hc.2.symm.trans h)

/-- A round divides the statement at its match. -/
theorem FragmentReplaced.split {x y : Translation} {index : ℕ} {subexpr : Bytes}
    (h : FragmentReplaced x index subexpr y)
    (hsearch : r.search x.sStatement = some (index, subexpr)) :
    ∃ u v, x.sStatement = u ++ subexpr ++ v ∧ r.left ∈ subexpr ∧
      y.sStatement = u ++ createNewVariable (x.iVariableCount+1) ++ v := by
  obtain ⟨u, v, hs, rfl, hleft⟩ := r.search_eq hsearch
  refine ⟨u, v, hs, hleft, ?_⟩
  have hdrop : x.sStatement.drop (u.length+subexpr.length) = v := by
    rw [hs, ← List.length_append, List.drop_left]
  have htake : x.sStatement.take u.length = u := by
    rw [hs, List.append_assoc, List.take_left]
  rw [h.statement, hdrop, htake]

/-- It takes the bracket that was matched out of the statement. -/
theorem FragmentReplaced.count_lt (hr : IsBracket r.left) {x y : Translation} {index : ℕ}
    {subexpr : Bytes} (h : FragmentReplaced x index subexpr y)
    (hsearch : r.search x.sStatement = some (index, subexpr)) :
    y.sStatement.count r.left < x.sStatement.count r.left := by
  obtain ⟨u, v, hs, hleft, hs'⟩ := h.split hsearch
  have hvar := List.count_eq_zero.mpr (notMem_createNewVariable hr (x.iVariableCount+1))
  have hsub := List.count_pos_iff.mpr hleft
  rw [hs', hs]
  simp only [List.count_append, hvar]
  omega

/-- No round puts a bracket into the statement. -/
theorem FragmentReplaced.count_le {c : Byte} (hc : IsBracket c) {x y : Translation} {index : ℕ}
    {subexpr : Bytes} (h : FragmentReplaced x index subexpr y)
    (hsearch : r.search x.sStatement = some (index, subexpr)) :
    y.sStatement.count c ≤ x.sStatement.count c := by
  obtain ⟨u, v, hs, -, hs'⟩ := h.split hsearch
  have hvar := List.count_eq_zero.mpr (notMem_createNewVariable hc (x.iVariableCount+1))
  rw [hs', hs]
  simp only [List.count_append, hvar]
  omega

end MsgCourier
