import MsgCourier.Msg
import MsgCourier.PeerRoutingMap

/-! `cConnectionHandlerInbound`: framing of the bytes of one connection into messages, and the
part of the connection cache and queue that offers a connection to the handler. -/
namespace MsgCourier
open ListSearch CText

inductive ProtocolType
  | httpGet | httpPost | httpMcp | mcp | insufficientData | unknown
  deriving DecidableEq, Repr

def handlerOk : ℤ := 0
def handlerEndTask : ℤ := 5
def handlerSendError : ℤ := 6
def handlerParseNotReady : ℤ := 7
def handlerInvalidatedTask : ℤ := 8

def trailingCrlfs : ℤ := 4

/-- The size of the block `recv` writes to. -/
def cliMaxBufSize : ℕ := 16384

/-- `socketAddr` is the dotted text of the peer's address. -/
structure ConnectionRecord where
  socketfd : ℤ
  socketAddr : Bytes
  arrivalPort : ℤ
  timestamp : ℤ
  buffer : Buffer

structure ConnectionHandlerInbound where
  bCloseConnection : Bool := false
  headerExtract : HeaderExtract := {}
  ipaddr : Bytes := []
  msgHeaderEnd : ℤ := 0
  msgSize : ℤ := 0

/-- What a call leaves: the reference arguments, the handler and the buffer. -/
structure Analysis where
  protocol : ProtocolType
  iContentLength : ℤ
  iDataOffset : ℤ
  handler : ConnectionHandlerInbound
  buffer : Buffer

namespace ConnectionHandlerInbound

/-- `memcmp(pData, pText, n) == 0`. -/
def startsWith (pData pText : Bytes) : Cxx Bool := do
  let head ← fetch pData 0 pText.length
  pure (head == pText)

def contains (pData pText : Bytes) : Bool := (strstr pData pText).isSome

/-- `GetValue` of the content length, with its two spellings. -/
def contentLengthText (x : HeaderExtract) : Bytes :=
  let sContentLength := x.getValue (bytes "Content-Length")
  if sContentLength.length = 0 then x.getValue (bytes "Content-length") else sContentLength

/-- The end of `AnalyzeProtocol`: what the markers say once the frame is complete. -/
def classify (pData : Bytes) : Cxx ProtocolType := do
  let post ← startsWith pData (bytes "POST ")
  if post && contains pData (bytes "HTTP/") && contains pData crlfcrlf then pure .httpPost
  else if contains pData (bytes "MCP/") then pure .mcp
  else pure .unknown

def analyzeProtocol (h : ConnectionHandlerInbound) (buffer : Buffer) : Cxx Analysis := do
  let (p, buffer) ← buffer.getBuffer
  match p with
  | none => .error .charPtr
  | some pData =>
    if !contains pData crlfcrlf then
      pure ⟨.insufficientData, -1, -1, h, buffer⟩
    else
      let iDataOffset := buffer.binaryFind 0 crlfcrlf
      if iDataOffset = -1 then .error .charPtr
      else
        let h := { h with
          msgHeaderEnd := int32 (iDataOffset+trailingCrlfs)
          msgSize := int32 (iDataOffset+trailingCrlfs) }
        let iBufCount := buffer.tail
        if iBufCount = 0 then .error .charPtr
        else
          let get ← startsWith pData (bytes "GET ")
          if get && contains pData (bytes "HTTP/") && contains pData crlfcrlf then
            pure ⟨.httpGet, -1, iDataOffset, h, buffer⟩
          else
            let (x, buffer) ← h.headerExtract.parse buffer
            let h := { h with headerExtract := x }
            let sContentLength := contentLengthText x
            if sContentLength.length ≠ 0 then
              let iDataOffset := int32 (iDataOffset+trailingCrlfs)
              let iContentLength := atoi sContentLength
              if iBufCount < int32 (iDataOffset+iContentLength) then
                pure ⟨.insufficientData, -1, -1, h, buffer⟩
              else
                let h := { h with msgSize := int32 (iDataOffset+iContentLength) }
                let protocol ← classify pData
                pure ⟨protocol, iContentLength, iDataOffset, h, buffer⟩
            else
              let protocol ← classify pData
              pure ⟨protocol, -1, iDataOffset, h, buffer⟩

end ConnectionHandlerInbound

/-! ### Processing one frame -/

/-- What a call takes from other components: the message of `CreateMessage`, the ids the
provider gives next, the clock and the text `name@address` of the server. -/
structure InboundEnv where
  pMessage : Msg
  parseID : Bytes
  updateID : Bytes
  now : ℤ
  server : Bytes

/-- The state a call works on; `dispatched` lists the messages dispatched so far. -/
structure InboundState where
  handler : ConnectionHandlerInbound := {}
  record : ConnectionRecord
  routingMap : PeerRoutingMap := {}
  dispatched : List Msg := []

namespace InboundState

/-- The three calls both kinds of frames go through: copy, remove and parse. -/
def takeFrame [Malloc] (s : InboundState) (pMessage : Msg) (newID : Bytes) : Cxx
    (ℤ × Msg × Buffer) := do
  let pMessage ← pMessage.setContentPayload s.record.buffer.pBuffer s.handler.msgSize
  let (_, buffer) ← s.record.buffer.remove 0 s.handler.msgSize
  let (rc, pMessage) ← pMessage.parse .ibTcp .req newID
  pure (rc, pMessage, buffer)

/-- The message of `ProcessHTTP` before the frame is taken. -/
def httpRequest (s : InboundState) (pMessage : Msg) (pt : ProtocolType) : Msg :=
  let pMessage := { pMessage with tcpSocketHandle := s.record.socketfd }
  let pMessage := { pMessage.setConnectionType .ibTcp with sourceIP := cstr s.record.socketAddr }
  if pt = .httpGet then { pMessage with msgProtocolType := .httpGet }
  else if pt = .httpPost then { pMessage with msgProtocolType := .httpPost }
  else pMessage

def processHTTP [Malloc] (s : InboundState) (env : InboundEnv) (pt : ProtocolType) :
    Cxx (ℤ × InboundState) := do
  let (_, pMessage, buffer) ← s.takeFrame (s.httpRequest env.pMessage pt) env.parseID
  let pMessage := { pMessage with
    msgID := env.updateID
    msgPriority := priorityHigh
    msgNotifyActionType := .no
    msgReplyActionType := .wait
    msgArrivalPort := s.record.arrivalPort }
  pure (handlerEndTask, { s with
    handler := { s.handler with ipaddr := s.record.socketAddr }
    record := { s.record with buffer }
    dispatched := s.dispatched ++ [pMessage.dispatchMsg env.server] })

/-- The message of `ProcessMCP` before the frame is taken. -/
def mcpRequest (s : InboundState) (pMessage : Msg) (pt : ProtocolType) : Msg :=
  let pMessage := { pMessage with tcpSocketHandle := s.record.socketfd }
  let pMessage := { pMessage.setConnectionType .ibTcp with
    sourceIP := cstr s.record.socketAddr
    msgArrivalPort := s.record.arrivalPort }
  if pt = .httpMcp then { pMessage with msgProtocolType := .httpMcp }
  else if pt = .mcp then { pMessage with msgProtocolType := .mcp }
  else pMessage

def processMCP [Malloc] (s : InboundState) (env : InboundEnv) (pt : ProtocolType) :
    Cxx (ℤ × InboundState) := do
  let (rc, pMessage, buffer) ← s.takeFrame (s.mcpRequest env.pMessage pt) env.parseID
  if rc = 0 then
    pure (handlerEndTask, { s with
      handler := { s.handler with ipaddr := s.record.socketAddr }
      record := { s.record with buffer }
      routingMap := s.routingMap.addRecord pMessage.msgFrom pMessage.sourceIP
        pMessage.sourcePort s.record.socketfd
      dispatched := s.dispatched ++ [pMessage.dispatchMsg env.server] })
  else .error .charPtr

def process [Malloc] (s : InboundState) (env : InboundEnv) : Cxx (ℤ × InboundState) := do
  let r ← s.handler.analyzeProtocol s.record.buffer
  let s := { s with handler := r.handler, record := { s.record with buffer := r.buffer } }
  match r.protocol with
  | .insufficientData => pure (handlerParseNotReady, s)
  | .httpGet | .httpPost => s.processHTTP env r.protocol
  | .unknown => pure (handlerInvalidatedTask, s)
  | .mcp | .httpMcp => s.processMCP env r.protocol

/-- The result of `recv`: bytes (none when the peer has closed), or -1 with an error that means
"try again", or -1 with another one. -/
inductive Recv
  | data (chunk : Bytes)
  | wouldBlock
  | failed
  deriving DecidableEq, Repr

def Recv.bytes : Recv → Bytes
  | .data chunk => chunk
  | .wouldBlock | .failed => []

/-- The part of `HandleConnection` that stores the bytes received. -/
def receiveInto [Malloc] (record : ConnectionRecord) (now : ℤ) : Recv → Cxx ConnectionRecord
  | .data (b :: chunk) => do
    let (_, buffer) ← record.buffer.append (some (b :: chunk)) (b :: chunk).length
    pure { record with buffer, timestamp := now }
  | .data [] | .wouldBlock | .failed => pure record

/-- The dump of the buffer that an invalidated task leaves in the log. -/
def dumpRecvBuffer [Malloc] (buffer : Buffer) : Cxx Unit := do
  let (_, b) ← ({} : Buffer).replaceWith buffer.pBuffer buffer.bufferSize
  let b ← b.makeString
  match b.pBuffer with
  | none => .error .undefined
  | some mem => do
    let _ ← strlen mem

/-- The part of `HandleConnection` behind a found end of header. `bpipe` is overwritten by an ended,
failed or invalidated task only. -/
def runTask [Malloc] (s : InboundState) (env : InboundEnv) (bSocketError : Bool) :
    Cxx (ℤ × InboundState) := do
  let (rc, s) ← s.process env
  let bpipe :=
    if rc = handlerEndTask then false
    else if rc = handlerSendError ∨ rc = handlerInvalidatedTask then true
    else bSocketError
  if rc = handlerInvalidatedTask then dumpRecvBuffer s.record.buffer
  pure (handlerOk, { s with
    handler := { s.handler with bCloseConnection := bSocketError || bpipe } })

def handleConnection [Malloc] (s : InboundState) (env : InboundEnv) (nread : Recv) :
    Cxx (ℤ × InboundState) := do
  let bSocketError := decide (nread = .failed)
  let record ← receiveInto s.record env.now nread
  let (found, buffer) ← record.buffer.find crlfcrlf 0
  let s := { s with record := { record with buffer } }
  if found = -1 then
    pure (handlerOk, { s with
      handler := { s.handler with bCloseConnection := bSocketError } })
  else s.runTask env bSocketError

/-! ### Offering a connection to the handler -/

/-- One turn of the connection queue for a record: the handler as the calls for other connections
left it, whether the descriptor is readable, and what `recv` gives then. -/
structure InboundEvent where
  env : InboundEnv
  handler : ConnectionHandlerInbound
  fdIsSet : Bool
  nread : Recv

/-- The test of `GetNextSetRecord`: the descriptor is readable or bytes are left over. -/
def offered (s : InboundState) (fdIsSet : Bool) : Bool :=
  fdIsSet || decide (0 < s.record.buffer.tail)

/-- The flag says that the handler asks to close the connection. -/
def inboundTask [Malloc] (s : InboundState) (e : InboundEvent) : Cxx (InboundState × Bool) :=
  if s.offered e.fdIsSet then do
    let (_, s) ← { s with handler := e.handler }.handleConnection e.env e.nread
    pure (s, s.handler.bCloseConnection)
  else pure (s, false)

/-- The turns of a record until its connection is closed. -/
def inboundTasks [Malloc] (s : InboundState) : List InboundEvent → Cxx (InboundState × Bool)
  | [] => pure (s, false)
  | e :: es => do
    let (s, close) ← s.inboundTask e
    if close then pure (s, true) else s.inboundTasks es

end InboundState
end MsgCourier
