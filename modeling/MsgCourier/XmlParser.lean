import MsgCourier.XmlText

/-! `cXMLLiteParser`: its buffers, `SplitParam` and the state machine of `Parse`. -/
namespace MsgCourier
open ListSearch CText

structure XmlElement where
  xmlTagName : Option Bytes := none
  xmlValue : Option Bytes := none
  xmlAttributes : List (Bytes × Bytes) := []
  xmlCDATA : Option Bytes := none
  deriving DecidableEq, Repr

/-- A null block has no bytes, so that `m_iWorkingBufferSize` is the length of the block. -/
structure XmlParser where
  pWorkingBuffer : Bytes := []
  pSplitBufferName : Bytes := []
  iSplitBufferNameSize : ℕ := 0
  pSplitBufferValue : Bytes := []
  xmlElements : List XmlElement := []

def xmlliteparserOk : ℤ := 0
def xmlliteparserAlloc : ℤ := 3

def initialWorkingBufferSize : ℕ := 1024

namespace XmlParser

/-- None stands for the allocation error: the new size is an `int`, and of a negative one `malloc`
returns null. The first allocation has a fixed size. -/
def checkWorkingBuffer (xml : XmlParser) (iAgainstNewSize : ℕ) : Cxx (Option XmlParser) :=
  if xml.pWorkingBuffer.length = 0 then
    pure (some { xml with pWorkingBuffer := List.replicate initialWorkingBufferSize 0 })
  else if xml.pWorkingBuffer.length < iAgainstNewSize then
    let iNewAlloc := int32 (iAgainstNewSize*2)
    if iNewAlloc < 0 then pure none
    else do
      let p ← store (List.replicate iNewAlloc.toNat 0) 0 xml.pWorkingBuffer
      pure (some { xml with pWorkingBuffer := p })
  else pure (some xml)

/-- The split buffers get a byte more than their recorded size. -/
def splitRoom (xml : XmlParser) (iBufSize : ℕ) : XmlParser :=
  if xml.iSplitBufferNameSize < iBufSize then
    { xml with
      iSplitBufferNameSize := iBufSize
      pSplitBufferName := List.replicate (iBufSize+1) 0
      pSplitBufferValue := List.replicate (iBufSize+1) 0 }
  else xml

/-- An equals sign at index 0 counts as none. -/
def splitParam (xml : XmlParser) (pBuf : Bytes) (pElement : XmlElement) :
    Cxx (XmlParser × XmlElement) := do
  let n ← strlen pBuf
  let i ← scanWhile (· ≠ 61) pBuf n.toNat 0
  let iFound := if i < n.toNat then i else 0
  if iFound = 0 then pure (xml, pElement)
  else do
    let xml := xml.splitRoom n.toNat
    let name ← strncpy xml.pSplitBufferName pBuf iFound
    let name ← poke name iFound 0
    let c ← peek pBuf (iFound+1 : ℕ)
    let iFound := if c = 32 then iFound+1 else iFound
    let value ← strcpy xml.pSplitBufferValue (pBuf.drop (iFound+1))
    let i ← strlen value
    let c ← peek value (i-1)
    let value ← if c = 13 then poke value (i-1).toNat 0 else pure value
    let value ← transformXMLEntities value
    pure ({ xml with pSplitBufferName := name, pSplitBufferValue := value },
      { pElement with xmlAttributes := pElement.xmlAttributes ++ [(cstr name, cstr value)] })

/-- `n` bytes of the input and a terminator. -/
def copyInput (xml : XmlParser) (pszData : Bytes) (mark n : ℕ) : Cxx XmlParser := do
  let p ← strncpy xml.pWorkingBuffer (pszData.drop mark) n
  let p ← poke p n 0
  pure { xml with pWorkingBuffer := p }

def dropText (xml : XmlParser) : Cxx XmlParser :=
  if xml.pWorkingBuffer = [] then pure xml
  else do
    let p ← poke xml.pWorkingBuffer 0 0
    pure { xml with pWorkingBuffer := p }

end XmlParser

/-! ### The state machine -/

inductive TagState
  | tagScan
  | tagBegin
  | tagProcess
  | tagEnd
  deriving DecidableEq, Repr

/-- The locals of `Parse`. `pElement` is null or the last element of the list; `xml` has the ones
before it. -/
structure ParseState where
  idx : ℕ := 0
  inQoute : Bool := false
  iTagMarkStart : ℕ := 0
  iAttribMarkStart : ℕ := 0
  iScanMarkStart : ℕ := 0
  iState : TagState := .tagScan
  iLastState : TagState := .tagScan
  pElement : Option XmlElement := none
  xml : XmlParser

inductive ParseStep
  | next (s : ParseState)
  | done (code : ℤ) (xml : XmlParser)

namespace ParseState

/-- The object as `Parse` leaves it. -/
def finish (s : ParseState) : XmlParser :=
  { s.xml with xmlElements := s.xml.xmlElements ++ s.pElement.toList }

def getNewEntry (s : ParseState) (entry : XmlElement) : ParseState :=
  { s with xml := s.finish, pElement := some entry }

/-- The text up to a tag becomes the value of the element before it. -/
def setValue (s : ParseState) : Cxx (Option ParseState) := do
  match ← s.xml.checkWorkingBuffer (s.idx-s.iScanMarkStart+1) with
  | none => pure none
  | some xml => do
    let p ← poke xml.pWorkingBuffer (s.idx-s.iScanMarkStart) 0
    let p ← stripLeading p
    let p ← stripTrailing p
    let c ← peek p 0
    match s.pElement with
    | none => pure (some { s with xml := { xml with pWorkingBuffer := p } })
    | some pElement =>
      if c = 0 then pure (some { s with xml := { xml with pWorkingBuffer := p } })
      else do
        let p ← transformXMLEntities p
        pure (some { s with
          xml := { xml with pWorkingBuffer := p }
          pElement := some { pElement with xmlValue := some (cstr p) } })

def tagBegin (s : ParseState) : Cxx ParseStep := do
  match ← if 0 < s.iScanMarkStart ∧ s.iLastState = .tagScan ∧ s.iScanMarkStart < s.idx then
      s.setValue else pure (some s) with
  | none => pure (.done xmlliteparserAlloc s.finish)
  | some s => pure (.next { s.getNewEntry {} with
      iScanMarkStart := 0, iTagMarkStart := s.idx, iLastState := s.iState, iState := .tagProcess,
      idx := s.idx+1 })

/-- The input from the attribute mark on becomes an attribute. -/
def takeAttribute (s : ParseState) (pszData : Bytes) : Cxx ParseState := do
  let xml ← s.xml.copyInput pszData s.iAttribMarkStart (s.idx-s.iAttribMarkStart+1)
  let p ← cleanInput xml.pWorkingBuffer
  let xml := { xml with pWorkingBuffer := p }
  let c ← peek p 0
  if c = 0 then pure { s with xml := xml }
  else
    match s.pElement with
    | none => .error .undefined
    | some pElement => do
      let (xml, pElement) ← xml.splitParam p pElement
      pure { s with xml := xml, pElement := some pElement }

def tagProcess (s : ParseState) (pszData : Bytes) (ch : Byte) : Cxx ParseStep := do
  let s := if ch = 34 then { s with inQoute := ! s.inQoute } else s
  if ch = 32 ∧ s.iAttribMarkStart = 0 then
    pure (.next { s with iAttribMarkStart := s.idx, idx := s.idx+1 })
  else if (ch = 32 ∨ ch = 9) ∧ s.inQoute = false then
    match ← s.xml.checkWorkingBuffer (s.idx-s.iAttribMarkStart+1) with
    | none => pure (.done xmlliteparserAlloc s.finish)
    | some xml => do
      let s ← { s with xml := xml }.takeAttribute pszData
      pure (.next { s with iAttribMarkStart := s.idx, idx := s.idx+1 })
  else pure (.next { s with idx := s.idx+1 })

/-- The name is the tag up to the first space, or up to a slash if the tag ends in one. -/
def setName (s : ParseState) (hasShortTerminator : Bool) : Cxx ParseState :=
  match s.pElement with
  | none => pure s
  | some pElement => do
    let p ← terminateAtChar s.xml.pWorkingBuffer 32
    let p ← if hasShortTerminator then terminateAtChar p 47 else pure p
    pure { s with
      xml := { s.xml with pWorkingBuffer := p }
      pElement := some { pElement with xmlTagName := some (cstr p) } }

/-- The attribute that is still open at the end of a tag. -/
def lastAttribute (s : ParseState) (pszData : Bytes) : Cxx ParseState :=
  if s.iAttribMarkStart ≠ 0 then do
    let s ← s.takeAttribute pszData
    pure { s with iAttribMarkStart := 0 }
  else pure s

def closeTag (s : ParseState) (pszData : Bytes) : Cxx ParseStep := do
  match ← s.xml.checkWorkingBuffer (s.idx-s.iTagMarkStart+1) with
  | none => pure (.done xmlliteparserAlloc s.finish)
  | some xml => do
    let xml ← xml.copyInput pszData s.iTagMarkStart (s.idx-s.iTagMarkStart+1)
    let n ← strlen xml.pWorkingBuffer
    let c ← peek xml.pWorkingBuffer (n-2)
    let hasShortTerminator := c = 47
    let p ← cleanInput xml.pWorkingBuffer
    let s ← { s with xml := { xml with pWorkingBuffer := p } }.setName hasShortTerminator
    let s ← s.lastAttribute pszData
    let s := if s.pElement.isSome ∧ hasShortTerminator then
        s.getNewEntry { xmlTagName := some (bytes "/>") } else s
    pure (.next { s with
      iTagMarkStart := 0, iLastState := s.iState, iState := .tagScan, iScanMarkStart := s.idx+1,
      idx := s.idx+1 })

/-- Behind the section the index goes two bytes on and then to the next tag, if there is one. -/
def takeCDATA (s : ParseState) (pszData : Bytes) (pElement : XmlElement) (pMarker : ℕ) :
    Cxx ParseStep := do
  let iSize : ℤ := (pMarker : ℤ)-1-8
  let iLen ← lengthArg (pszData.drop (s.idx+9)) iSize
  let block ← fetch pszData (s.idx+9 : ℕ) iLen
  let idx := (s.idx+(iSize+9+3+2)).toNat
  let p ← strstrAt pszData idx [60]
  pure (.next { s with
    iState := .tagBegin, idx := idx+p.getD 0,
    pElement := some { pElement with xmlCDATA := some block } })

/-- Eight of the nine bytes of the section's start are compared. -/
def tagEnd (s : ParseState) (pszData : Bytes) : Cxx ParseStep := do
  match s.pElement with
  | none => s.closeTag pszData
  | some pElement =>
    if bytes "<![CDATA" <+: pszData.drop s.idx then
      match ← strstrAt pszData s.idx (bytes "]]>") with
      | some pMarker => s.takeCDATA pszData pElement pMarker
      | none => s.closeTag pszData
    else s.closeTag pszData

def tagScan (s : ParseState) (ch : Byte) : Cxx ParseStep := do
  match ← if s.xml.pWorkingBuffer.length < s.idx-s.iScanMarkStart+1 then
      s.xml.checkWorkingBuffer (s.idx-s.iScanMarkStart+1) else pure (some s.xml) with
  | none => pure (.done xmlliteparserAlloc s.finish)
  | some xml => do
    let p ← poke xml.pWorkingBuffer (s.idx-s.iScanMarkStart) ch
    pure (.next { s with xml := { xml with pWorkingBuffer := p }, idx := s.idx+1 })

/-- What `<` and `>` do to the state. -/
def markup (s : ParseState) (pszData : Bytes) (ch : Byte) : ParseState :=
  if ch = 60 then { s with
    iLastState := s.iState
    iState := if bytes "<![CDATA" <+: pszData.drop s.idx then .tagEnd else .tagBegin }
  else if ch = 62 then { s with iLastState := s.iState, iState := .tagEnd }
  else s

/-- The end of a comment that starts at the index. -/
def commentEnd (s : ParseState) (pszData : Bytes) : Cxx (Option ℕ) :=
  if bytes "<!--" <+: pszData.drop s.idx then strstrAt pszData s.idx (bytes "-->") else pure none

/-- A comment also drops the text scanned before it. -/
def skipComment (s : ParseState) (pCommentEnd : ℕ) : Cxx ParseStep := do
  let xml ← s.xml.dropText
  pure (.next { s with idx := s.idx+(pCommentEnd+3), iState := .tagScan, xml := xml })

/-- One round of the loop. An index that an `int` does not hold, or cannot be counted up from, is an
error. -/
def step (pszData : Bytes) (s : ParseState) : Cxx ParseStep := do
  let ch ← peek pszData s.idx
  if intMax < s.idx+(if ch = 0 then 0 else 1) then .error .undefined
  else if ch = 0 then pure (.done xmlliteparserOk s.finish)
  else do
    match ← s.commentEnd pszData with
    | some pCommentEnd => s.skipComment pCommentEnd
    | none =>
      let s := s.markup pszData ch
      match s.iState with
      | .tagScan => s.tagScan ch
      | .tagBegin => s.tagBegin
      | .tagProcess => s.tagProcess pszData ch
      | .tagEnd => s.tagEnd pszData

def loop (pszData : Bytes) : ℕ → ParseState → Cxx (ℤ × XmlParser)
  | 0, _ => .error .undefined
  | fuel+1, s => do
    match ← s.step pszData with
    | .next s => loop pszData fuel s
    | .done code xml => pure (code, xml)

end ParseState

/-- `Flush`, and the loop over a text with its terminator: every round moves the index on. -/
def XmlParser.parse (xml : XmlParser) (text : Bytes) : Cxx (ℤ × XmlParser) :=
  ParseState.loop (text ++ [0]) (text.length+1) { xml := { xml with xmlElements := [] } }

end MsgCourier
