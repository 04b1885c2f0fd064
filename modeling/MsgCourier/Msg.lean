import MsgCourier.HeaderExtract
import MsgCourier.RoutingTag

/-! `cMsg`: the message record and the operations on one message. Profiling data is left out. -/
namespace MsgCourier
open ListSearch CText

/-! ### The record -/

inductive MsgConnectionType
  | notSet | ibUdp | obUdp | ibTcp | obTcp | internal
  deriving DecidableEq, Repr

inductive MsgFormat
  | notSet | req | res | notify
  deriving DecidableEq, Repr

inductive MsgReplyAction
  | none | wait | nowait
  deriving DecidableEq, Repr

inductive MsgNotifyAction
  | yes | no
  deriving DecidableEq, Repr

inductive MsgProtocol
  | unknown | unknownTcp | unknownUdp | httpMcp | mcp | httpGet | httpPost
  deriving DecidableEq, Repr

inductive MsgState
  | inactive | pending | inuse | undelivered | delivered | processed | markForReuse
  deriving DecidableEq, Repr

def priorityLowest : ℤ := 0
def priorityLow : ℤ := 64
def priorityMid : ℤ := 128
def priorityHigh : ℤ := 192
def priorityHighest : ℤ := 255

/-- Where `m_pPayload` points: nowhere, into the message's own `MsgBuffer`, or at memory of
another object, given as the bytes readable from there. -/
inductive Payload
  | null
  | own (offset : ℤ)
  | foreign (mem : Bytes)
  deriving DecidableEq, Repr

/-- The default values are those of a reset message. -/
structure Msg where
  headerExtract : HeaderExtract := {}
  tcpSocketHandle : ℤ := -1
  udpSocketHandle : ℤ := -1
  msgSendRetryCount : ℤ := 0
  msgSendRetryDelay : ℤ := 1
  msgID : Bytes := []
  msgConnectionType : MsgConnectionType := .notSet
  msgProtocolType : MsgProtocol := .unknown
  msgFormat : MsgFormat := .notSet
  msgResponseCode : ℤ := 0
  msgState : MsgState := .inactive
  msgCommand : Bytes := []
  msgTo : Bytes := []
  msgFrom : Bytes := []
  msgSubject : Bytes := []
  msgOptions : Bytes := []
  msgReplyActionType : MsgReplyAction := .none
  msgNotifyActionType : MsgNotifyAction := .no
  msgStatusLine : Bytes := []
  msgContentType : Bytes := []
  msgContentLength : ℤ := 0
  msgBuffer : Buffer := {}
  msgRawBuffer : Buffer := {}
  pPayload : Payload := .null
  msgHeaderSize : ℤ := 0
  msgMD5 : Bytes := []
  msgCRC32 : Bytes := []
  sourceIP : Bytes := []
  sourcePort : ℤ := -1
  msgPriority : ℤ := priorityMid
  msgArrivalPort : ℤ := 0
  msgInUseTS : ℤ := 0
  msgLastRetryTS : ℤ := 0
  msgCloned : Bool := false
  /-- The service entry a remote handler is set to, as its number. -/
  msgService : Option ℕ := none
  keepAlive : Bool := true

namespace Msg

/-- The extractor, the MD5 text and the memory of the two buffers survive a reset. -/
def resetMsg (m : Msg) (newID : Bytes) (now : ℤ) : Msg :=
  { headerExtract := m.headerExtract
    msgID := newID
    msgBuffer := m.msgBuffer.reset
    msgRawBuffer := m.msgRawBuffer.reset
    msgMD5 := m.msgMD5
    msgInUseTS := now }

/-- What `GetReusableMessage` makes of a message of the pool. -/
def reuse (m : Msg) (newID : Bytes) (now : ℤ) : Msg :=
  { m.resetMsg newID now with msgState := .inuse }

/-- The bytes readable from the payload pointer on. -/
def payloadMem (m : Msg) : Option Bytes :=
  match m.pPayload with
  | .null => none
  | .own offset => m.msgBuffer.pBuffer.map (·.drop offset.toNat)
  | .foreign mem => some mem

/-! ### Setters -/

def setMsgState (m : Msg) (s : MsgState) : Msg := { m with msgState := s }

@[simp] theorem setMsgState_msgState (m : Msg) (s : MsgState) : (m.setMsgState s).msgState = s :=
    rfl

@[simp] theorem setMsgState_msgInUseTS (m : Msg) (s : MsgState) :
    (m.setMsgState s).msgInUseTS = m.msgInUseTS := rfl

def setTCPSocketHandle (m : Msg) (fd : ℤ) : Msg := { m with tcpSocketHandle := fd }

def setUDPSocketHandle (m : Msg) (fd : ℤ) : Msg := { m with udpSocketHandle := fd }

def setSourcePort (m : Msg) (port : ℤ) : Msg := { m with sourcePort := port }

def setConnectionType (m : Msg) (ct : MsgConnectionType) : Msg :=
  let m := { m with msgConnectionType := ct }
  if ct = .internal then
    { m with
      msgPriority := priorityHigh
      msgProtocolType := .mcp
      msgTo := []
      msgFrom := [] }
  else m

def setContentPayload [Malloc] (m : Msg) (pBuffer : Option Bytes) (iLength : ℤ) : Cxx Msg := do
  let (_, msgBuffer) ← m.msgBuffer.replaceWith pBuffer iLength
  pure { m with
    msgBuffer
    pPayload := if msgBuffer.pBuffer = none then .null else .own 0
    msgContentLength := iLength }

/-- `server` is the text `name@address` of this server. -/
def dispatchMsg (m : Msg) (server : Bytes) : Msg :=
  let m :=
    if m.msgConnectionType = .notSet then { m with msgConnectionType := .internal }
    else if m.msgConnectionType = .obUdp then
      { m with msgFrom := server ++ bytes ":" ++ formatInt m.msgArrivalPort }
    else m
  { m with msgState := .pending }

@[simp] theorem dispatchMsg_msgBuffer (m : Msg) (server : Bytes) :
    (m.dispatchMsg server).msgBuffer = m.msgBuffer := by
  unfold dispatchMsg
  split_ifs <;> rfl

@[simp] theorem dispatchMsg_msgRawBuffer (m : Msg) (server : Bytes) :
    (m.dispatchMsg server).msgRawBuffer = m.msgRawBuffer := by
  unfold dispatchMsg
  split_ifs <;> rfl

@[simp] theorem dispatchMsg_pPayload (m : Msg) (server : Bytes) :
    (m.dispatchMsg server).pPayload = m.pPayload := by
  unfold dispatchMsg
  split_ifs <;> rfl

@[simp] theorem dispatchMsg_msgContentLength (m : Msg) (server : Bytes) :
    (m.dispatchMsg server).msgContentLength = m.msgContentLength := by
  unfold dispatchMsg
  split_ifs <;> rfl

def markProcessed (m : Msg) : Msg := { m with msgState := .delivered }

/-! ### Parsing -/

def priorityOf (options : Bytes) : ℤ :=
  if occursIn (bytes "priority-lowest") options then priorityLowest
  else if occursIn (bytes "priority-low") options then priorityLow
  else if occursIn (bytes "priority-mid") options then priorityMid
  else if occursIn (bytes "priority-highest") options then priorityHighest
  else if occursIn (bytes "priority-high") options then priorityHigh
  else priorityLowest

def replyActionOf (options : Bytes) (ct : MsgConnectionType) (old : MsgReplyAction) :
    MsgReplyAction :=
  if occursIn (bytes "reply-none") options then .none
  else if occursIn (bytes "reply-wait") options then .wait
  else if occursIn (bytes "reply-nowait") options then .nowait
  else if ct = .obTcp ∨ ct = .ibTcp then .wait
  else if ct = .obUdp ∨ ct = .ibUdp then .nowait
  else old

def notifyActionOf (options : Bytes) : MsgNotifyAction :=
  if occursIn (bytes "notify-yes") options then .yes
  else if occursIn (bytes "notify-no") options then .no
  else .no

/-- A tag field as it is stored: normalised unless empty. -/
def tagField (value : Bytes) : Bytes := if value.length ≠ 0 then normalizeTag value else value

/-- The part of `Parse` behind the header extraction, for an end of header at `iEndOfHeader`. -/
def readFields (m : Msg) (x : HeaderExtract) (newID : Bytes) (iEndOfHeader : ℤ) : Msg :=
  let connection := x.getValue (bytes "Connection")
  let msgID := x.getValue (bytes "MsgID")
  let sMsgOptions := x.getValue (bytes "Options")
  let sContentLength := x.getValue (bytes "Content-Length")
  { m with
    headerExtract := x
    keepAlive := if connection = bytes "close" ∨ connection = bytes "Close" then false
      else m.keepAlive
    msgID := if msgID.length = 0 ∨ msgID = bytes "0" then newID else msgID
    msgTo := tagField (x.getValue (bytes "To"))
    msgFrom := tagField (x.getValue (bytes "From"))
    msgSubject := x.getValue (bytes "Subject")
    msgPriority := priorityOf sMsgOptions
    msgReplyActionType := replyActionOf sMsgOptions m.msgConnectionType m.msgReplyActionType
    msgNotifyActionType := notifyActionOf sMsgOptions
    msgCRC32 := x.getValue (bytes "CRC32")
    msgContentType := x.getValue (bytes "Content-Type")
    msgContentLength := if sContentLength.length ≠ 0 then atoi sContentLength else 0
    pPayload := if sContentLength.length ≠ 0 then .own (iEndOfHeader+4) else m.pPayload }

/-- The handler of a `std::exception` throws the text of the exception. -/
def logAll {α : Type} (r : Cxx α) : Cxx α :=
  match r with
  | .error .stdException => .error .charPtr
  | r => r

/-- `string::assign` with a length of -1 throws. -/
def assign (pData : Bytes) (n : ℤ) : Cxx Bytes :=
  if n < 0 then .error .stdException else fetch pData 0 n

/-- `iFirstLine` is -1 when there is no line end, and 0 leaves the old status line. -/
def readStatusLine (m : Msg) (pData : Bytes) (iFirstLine : ℤ) : Cxx Bytes :=
  if iFirstLine ≠ 0 then assign pData iFirstLine else pure m.msgStatusLine

def readCommand (m : Msg) (pData : Bytes) (i : ℤ) : Cxx Bytes :=
  if i ≠ -1 then assign pData i else pure m.msgCommand

/-- `newID` is the text the unique id provider would give. -/
def parse [Malloc] (m : Msg) (ct : MsgConnectionType) (ms : MsgFormat) (newID : Bytes) : Cxx
    (ℤ × Msg) :=
  logAll do
    let (_, msgRawBuffer) ← m.msgRawBuffer.replaceWith m.msgBuffer.pBuffer m.msgBuffer.tail
    match m.msgBuffer.pBuffer with
    | none => .error .charPtr
    | some pData =>
      let iFirstLine := m.msgBuffer.binaryFind 0 crlf
      let msgStatusLine ← m.readStatusLine pData iFirstLine
      let iEndOfHeader := m.msgBuffer.binaryFind 0 crlfcrlf
      if iEndOfHeader = -1 then .error .charPtr
      else
        let (i, msgBuffer) ← m.msgBuffer.find [32] 0
        let msgCommand ← m.readCommand (msgBuffer.pBuffer.getD []) i
        let (x, msgBuffer) ← m.headerExtract.parse msgBuffer
        let m := { m with
          msgBuffer, msgRawBuffer, msgStatusLine, msgCommand, msgHeaderSize := iEndOfHeader }
        let m := { m.setConnectionType ct with msgFormat := ms }
        pure (0, m.readFields x newID iEndOfHeader)

/-! ### Copying -/

/-- Texts go through their C strings. The payload pointer of the copy is the one of the
original, although the bytes were copied too. -/
def deepCopy [Malloc] (m pToMsg : Msg) : Cxx Msg := do
  let pToMsg := { pToMsg with
    tcpSocketHandle := m.tcpSocketHandle
    udpSocketHandle := m.udpSocketHandle
    msgID := cstr m.msgID
    msgState := m.msgState }
  let pToMsg := { pToMsg.setConnectionType m.msgConnectionType with
    msgProtocolType := m.msgProtocolType
    msgFormat := m.msgFormat
    msgResponseCode := m.msgResponseCode
    msgCommand := cstr m.msgCommand
    msgTo := cstr m.msgTo
    msgFrom := cstr m.msgFrom
    msgSubject := cstr m.msgSubject
    msgOptions := cstr m.msgOptions
    msgReplyActionType := m.msgReplyActionType
    msgNotifyActionType := m.msgNotifyActionType
    msgStatusLine := cstr m.msgStatusLine
    msgContentType := cstr m.msgContentType
    msgContentLength := m.msgContentLength }
  let pToMsg ← pToMsg.setContentPayload m.payloadMem m.msgContentLength
  pure { pToMsg with
    pPayload := m.payloadMem.elim .null .foreign
    sourceIP := cstr m.sourceIP
    sourcePort := m.sourcePort
    msgPriority := m.msgPriority
    msgArrivalPort := m.msgArrivalPort
    keepAlive := m.keepAlive }

end Msg
end MsgCourier
