import MsgCourier.Msg

/-! `cConnectionHandlerOutbound`: the text of a message and its way to a socket. What the handler
asks of the sockets is kept as a list of actions. -/
namespace MsgCourier
open ListSearch CText

def commandHandlerOk : ℤ := 0
def commandHandlerUnableToSendMessage : ℤ := 9

/-! ### Sockets -/

/-- The result of one `send`: bytes were taken, it would block or was interrupted, or it failed. -/
inductive SendResult
  | sent (n : ℕ)
  | again
  | failed
  deriving DecidableEq, Repr

/-- What the handler asks of the sockets: a whole `TCPSend` with the bytes each of its calls offers
and those accepted, a connect, a `sendto` with address and port in network order, and a close. -/
inductive NetAction
  | tcpSend (socketfd : ℤ) (offered : List Bytes) (accepted : Bytes)
  | openTCP (server : Bytes) (port : ℤ)
  | sendto (socketfd : ℤ) (sinAddr : Bytes) (sinPort : ℤ) (data : Bytes)
  | close (socketfd : ℤ)
  deriving DecidableEq, Repr

/-- A text a format directive prints, without CR, LF and NUL. -/
structure PlainText where
  text : Bytes
  plain : ∀ b ∈ text, b ≠ 13 ∧ b ≠ 10 ∧ b ≠ 0

/-- What a call takes from outside: the server name, the text `%.4f` of the elapsed time, and the
outcomes of connecting (the new descriptor), of creating a datagram socket and of `sendto`. -/
structure OutboundEnv where
  serverName : Bytes
  elapsed : PlainText
  connect : Option ℕ
  udpSocket : Option ℕ
  sendto : Bool

def htons (port : ℤ) : ℤ := port%256*256 + port%65536/256

/-! ### The handler -/

structure ConnectionHandlerOutbound where
  bCloseConnection : Bool := false
  response : Buffer := {}
  serverAddr : Buffer := {}
  temp : Buffer := {}
  serverPort : ℤ := 0
  bSocketCreated : Bool := false

namespace ConnectionHandlerOutbound

def setResponse (h : ConnectionHandlerOutbound) (response : Buffer) : ConnectionHandlerOutbound :=
  { h with response }

def setServerAddr (h : ConnectionHandlerOutbound) (serverAddr : Buffer) :
    ConnectionHandlerOutbound := { h with serverAddr }

def socketCreated (h : ConnectionHandlerOutbound) : ConnectionHandlerOutbound :=
  { h with bSocketCreated := true }

end ConnectionHandlerOutbound

/-- `sends` are the results of the next `send` calls; after them every call fails. The counters are
those of the system metrics. -/
structure OutboundState where
  handler : ConnectionHandlerOutbound
  pMsg : Msg
  sends : List SendResult
  actions : List NetAction := []
  msgDelivered : ℕ := 0
  msgUndelivered : ℕ := 0

/-! ### The texts -/

/-- Appending a C string. -/
def Buffer.appendString [Malloc] (b : Buffer) (s : Bytes) : Cxx Buffer := do
  let (_, b) ← b.append (some (s ++ [0])) (-1)
  pure b

/-- One line `name: value` of a header. -/
def headerField (name : String) (value : Bytes) : Bytes :=
  bytes name ++ bytes ": " ++ cstr value ++ crlf

namespace Msg

def connectionField (m : Msg) : Bytes :=
  headerField "Connection" (if m.keepAlive then bytes "keep-alive" else bytes "close")

/-- `%d` of the content length in its field. -/
def lengthField (m : Msg) : Bytes := headerField "Content-Length" (formatInt m.msgContentLength)

def messageType (m : Msg) : Bytes :=
  if m.msgFormat = .notify then bytes "Notify" else bytes "Reply"

/-- The fields a request and a reply with a payload have in common. -/
def routingFields (m : Msg) : Bytes :=
  headerField "MsgID" m.msgID ++ headerField "To" m.msgTo ++ headerField "From" m.msgFrom

def contentFields (m : Msg) : Bytes := headerField "Content-Type" m.msgContentType ++ m.lengthField

/-- The header in front of a page that has none. -/
def httpHeader (m : Msg) (serverName : Bytes) : Bytes :=
  bytes "HTTP/1.1 200 OK\r\n" ++ headerField "Server" serverName ++ m.contentFields ++
    m.connectionField ++ crlf

def statusLine (m : Msg) : Bytes :=
  bytes "MCP/1.0 " ++ formatInt3 m.msgResponseCode ++ bytes " " ++ m.messageType ++ crlf

/-- The header of a reply with a payload. -/
def replyHeader (m : Msg) : Bytes :=
  m.statusLine ++ m.routingFields ++ m.contentFields ++ m.connectionField ++ crlf

/-- The start of a reply without payload. -/
def emptyReplyHeader (m : Msg) (elapsed : Bytes) : Bytes :=
  m.statusLine ++ headerField "MsgID" m.msgID ++ headerField "MsgPT" elapsed ++ m.connectionField

def commandLine (m : Msg) : Bytes := cstr m.msgCommand ++ bytes " MCP/1.0" ++ crlf

/-- The header of a request, with the fields of its payload or without. -/
def requestHeader (m : Msg) (contentFields : Bytes) : Bytes :=
  m.commandLine ++ m.routingFields ++ contentFields ++ m.connectionField ++ crlf

end Msg

/-- `m_TestBuffer` has 2048 bytes. -/
def testBuffer (text : Bytes) : Cxx Bytes :=
  if text.length < 2048 then pure text else .error .undefined

/-! ### Sending -/

/-- What a `TCPSend` does with the results of its calls. -/
structure SendRun where
  bRet : Bool
  offered : List Bytes
  accepted : Bytes
  rest : List SendResult

/-- The loop: `buf` is what is left to send. A call that would block goes on to the test of the
loop, so nothing left to send ends it. -/
def sendLoop (buf : Bytes) : List SendResult → SendRun
  | [] => ⟨false, [buf], [], []⟩
  | .failed :: rs => ⟨false, [buf], [], rs⟩
  | .again :: rs =>
    if buf = [] then ⟨true, [buf], [], rs⟩
    else
      let r := sendLoop buf rs
      { r with offered := buf :: r.offered }
  | .sent n :: rs =>
    if buf.drop n = [] then ⟨true, [buf], buf, rs⟩
    else
      let r := sendLoop (buf.drop n) rs
      { r with offered := buf :: r.offered, accepted := buf.take n ++ r.accepted }

namespace OutboundState

def setHandler (s : OutboundState) (handler : ConnectionHandlerOutbound) : OutboundState :=
  { s with handler }

def act (s : OutboundState) (a : NetAction) : OutboundState :=
  { s with actions := s.actions ++ [a] }

def closeLater (s : OutboundState) : OutboundState :=
  s.setHandler { s.handler with bCloseConnection := true }

/-- The results the calls on a descriptor get: a negative one fails, whatever the sockets do. -/
def schedule (s : OutboundState) (iSocketfd : ℤ) : List SendResult :=
  if iSocketfd < 0 then [] else s.sends

/-- After the loop: a descriptor that failed is closed if the handler ever opened one, else it is
left to the caller. -/
def afterSend (s : OutboundState) (iSocketfd : ℤ) (r : SendRun) : OutboundState :=
  let s := { s with sends := if iSocketfd < 0 then s.sends else r.rest }
  let s := s.act (.tcpSend iSocketfd r.offered r.accepted)
  let s :=
    if r.bRet then s
    else if s.handler.bSocketCreated then s.act (.close iSocketfd)
    else s.closeLater
  if s.pMsg.keepAlive then s else s.closeLater

def tcpSend (s : OutboundState) (iSocketfd : ℤ) (pBuf : Bytes) (size : ℤ) :
    Cxx (Bool × OutboundState) := do
  let buf ← fetch pBuf 0 size
  let r := sendLoop buf (s.schedule iSocketfd)
  pure (r.bRet, s.afterSend iSocketfd r)

/-- -1 when there is no connection. -/
def openTCP (s : OutboundState) (env : OutboundEnv) : Cxx (ℤ × OutboundState) := do
  let (p, serverAddr) ← s.handler.serverAddr.getBuffer
  match p with
  | none => .error .undefined
  | some mem =>
    let s := s.setHandler (s.handler.setServerAddr serverAddr)
    let s := s.act (.openTCP (cstr mem) s.handler.serverPort)
    match env.connect with
    | none => pure (-1, s)
    | some socketfd => pure (socketfd, s.setHandler s.handler.socketCreated)

/-- The bytes of `m_response`. -/
def responseBytes (s : OutboundState) : Cxx Bytes :=
  fetch (s.handler.response.pBuffer.getD []) 0 s.handler.response.tail

/-- Without a descriptor of its own a message is sent from a new one, which is closed again. -/
def udpSend (s : OutboundState) (env : OutboundEnv) : Cxx (Bool × OutboundState) := do
  if s.pMsg.udpSocketHandle = -1 then
    match env.udpSocket with
    | none => pure (false, s)
    | some socketfd => do
      let (p, serverAddr) ← s.handler.serverAddr.getBuffer
      match p with
      | none => .error .undefined
      | some mem => do
        let data ← s.responseBytes
        let s := s.setHandler (s.handler.setServerAddr serverAddr)
        let s := s.act (.sendto socketfd (cstr mem) (htons s.handler.serverPort) data)
        pure (env.sendto, s.act (.close socketfd))
  else do
    let data ← s.responseBytes
    pure (env.sendto,
      s.act (.sendto s.pMsg.udpSocketHandle (cstr s.pMsg.sourceIP) s.pMsg.sourcePort data))

/-! ### TransmitMsg -/

def finish (s : OutboundState) (bRet : Bool) : ℤ × OutboundState :=
  if bRet then
    (commandHandlerOk, { s with
      pMsg := s.pMsg.setMsgState .delivered
      msgDelivered := s.msgDelivered+1 })
  else
    (commandHandlerUnableToSendMessage, { s with
      pMsg := s.pMsg.setMsgState .undelivered
      msgUndelivered := s.msgUndelivered+1 })

/-- The header in front of a page that brings none. -/
def sendHeader [Malloc] (s : OutboundState) (env : OutboundEnv) (p : Bytes) : Cxx OutboundState :=
  if strstr p (bytes "HTTP/1.") = none then do
    let response ← s.handler.response.sprintf 5000 (s.pMsg.httpHeader env.serverName)
    let s := s.setHandler (s.handler.setResponse response)
    let data ← s.responseBytes
    let (_, s) ← s.tcpSend s.pMsg.tcpSocketHandle data data.length
    pure s
  else pure s

/-- `p` is the memory of the payload; its first bytes must be a C string. The result of sending the
header is ignored. -/
def sendPage [Malloc] (s : OutboundState) (env : OutboundEnv) (p : Bytes) : Cxx
    (ℤ × OutboundState) := do
  let _ ← strlen p
  let s ← s.sendHeader env p
  let (bRet, s) ← s.tcpSend s.pMsg.tcpSocketHandle p s.pMsg.msgContentLength
  pure (s.finish bRet)

end OutboundState

namespace ConnectionHandlerOutbound

/-- The `To` field of a reply without payload, which an empty text leaves out. -/
def appendTo [Malloc] (b : Buffer) (msgTo : Bytes) : Cxx Buffer :=
  if 0 < (cstr msgTo).length then do
    let b ← b.appendString (bytes "To: ")
    let b ← b.appendString (cstr msgTo)
    b.appendString crlf
  else pure b

/-- The `Command` field of a reply without payload; the empty line behind it is the source's. -/
def appendCommand [Malloc] (b : Buffer) (msgCommand : Bytes) : Cxx Buffer :=
  if 0 < (cstr msgCommand).length then do
    let text ← testBuffer (headerField "Command" msgCommand)
    let b ← b.appendString text
    b.appendString crlf
  else pure b

/-- The MCP reply without payload. -/
def emptyReply [Malloc] (h : ConnectionHandlerOutbound) (env : OutboundEnv) (m : Msg) :
    Cxx Buffer := do
  let text ← testBuffer (m.emptyReplyHeader env.elapsed.text)
  let (_, b) ← h.response.replaceWith (some (text ++ [0])) (-1)
  let b ← appendTo b m.msgTo
  let text ← testBuffer (headerField "From" m.msgFrom)
  let b ← b.appendString text
  let b ← appendCommand b m.msgCommand
  b.appendString crlf

/-- A header printed over `m_response` and the payload behind it. -/
def withPayload [Malloc] (h : ConnectionHandlerOutbound) (m : Msg) (header : Bytes) :
    Cxx Buffer := do
  let b ← h.response.sprintf 5000 header
  let (_, b) ← b.append m.payloadMem m.msgContentLength
  pure b

/-- `m_response` for a message that is no web page. A reply of another type than `MCP` leaves it as
it is; for `HTTP_MCP` the arguments do not match the format. -/
def formatResponse [Malloc] (h : ConnectionHandlerOutbound) (env : OutboundEnv) (m : Msg) :
    Cxx Buffer :=
  if m.msgFormat = .res ∨ m.msgFormat = .notify then
    if m.msgProtocolType = .mcp then
      if m.msgContentLength = 0 then h.emptyReply env m else h.withPayload m m.replyHeader
    else if m.msgProtocolType = .httpMcp then .error .undefined
    else pure h.response
  else if 0 < m.msgContentLength then h.withPayload m (m.requestHeader m.contentFields)
  else h.response.sprintf 5000 (m.requestHeader [])

/-- Address and port behind the name in the `To` field; without one the old values stay. -/
def setServer [Malloc] (h : ConnectionHandlerOutbound) (m : Msg) : Cxx ConnectionHandlerOutbound :=
  if 0 < (cstr m.msgTo).length then do
    let (_, temp) ← h.temp.replaceWith (some (cstr m.msgTo ++ [0])) (-1)
    let iPos1 := temp.findChar 64
    let iPos2 := temp.findChar 58
    let (p, temp) ← temp.getBuffer
    match p with
    | none => .error .undefined
    | some mem => do
      let (_, serverAddr) ←
        h.serverAddr.replaceWith (some (mem.drop (iPos1+1).toNat)) (iPos2-iPos1-1)
      pure { h with temp, serverAddr, serverPort := atoi (mem.drop (iPos2+1).toNat) }
  else pure h

end ConnectionHandlerOutbound

namespace OutboundState

/-- The descriptor of the message, or of a new connection. Descriptor 0 counts as none. -/
def findSocket (s : OutboundState) (env : OutboundEnv) : Cxx (ℤ × OutboundState) :=
  if s.pMsg.tcpSocketHandle = -1 then do
    let (socketfd, s) ← s.openTCP env
    if socketfd ≠ 0 then
      pure (socketfd, { s with pMsg := s.pMsg.setTCPSocketHandle socketfd })
    else pure (socketfd, s)
  else pure (s.pMsg.tcpSocketHandle, s)

/-- The result of `TCPSend` is overwritten. -/
def sendResponse (s : OutboundState) (env : OutboundEnv) : Cxx (Bool × OutboundState) := do
  let (socketfd, s) ← s.findSocket env
  if socketfd ≠ -1 then do
    let data ← s.responseBytes
    let (_, s) ← s.tcpSend s.pMsg.tcpSocketHandle data data.length
    pure (true, s)
  else pure (false, s)

/-- The connection type decides how the response goes out; any other type throws. -/
def sendByType (s : OutboundState) (env : OutboundEnv) : Cxx (Bool × OutboundState) :=
  if s.pMsg.msgConnectionType = .obUdp then s.udpSend env
  else if s.pMsg.msgConnectionType = .obTcp then s.sendResponse env
  else .error .cException

def transmitMsg [Malloc] (s : OutboundState) (env : OutboundEnv) : Cxx (ℤ × OutboundState) :=
  if s.pMsg.msgProtocolType = .httpGet ∨ s.pMsg.msgProtocolType = .httpPost then
    match s.pMsg.payloadMem with
    | none => pure (s.finish false)
    | some p => s.sendPage env p
  else do
    let response ← s.handler.formatResponse env s.pMsg
    let handler ← (s.handler.setResponse response).setServer s.pMsg
    let (bRet, s) ← (s.setHandler handler).sendByType env
    pure (s.finish bRet)

/-- A call of the handler for one message, with the sockets it meets. -/
def handleConnection [Malloc] (handler : ConnectionHandlerOutbound) (env : OutboundEnv) (pMsg : Msg)
    (sends : List SendResult) : Cxx OutboundState := do
  let (_, s) ← transmitMsg
    { handler := { handler with bCloseConnection := false }, pMsg, sends } env
  pure s

end OutboundState
end MsgCourier
