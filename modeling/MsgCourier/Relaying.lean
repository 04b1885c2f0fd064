import MsgCourier.Dispatch
import MsgCourier.HandOver
import MsgCourier.WireAgreement

/-! `cMsgCourier::OnProcess` for messages that are passed on, and the socket that the reply to a
relayed request goes to. -/
namespace MsgCourier
open ListSearch CText ZeroFill

/-! ### OnProcess -/

/-- A copy of the message is dispatched, or the server answers itself. -/
inductive Relay
  | dispatched (m : Msg)
  | here

namespace Msg

/-- A copy that goes out on a socket. -/
def relayed [Malloc] (m pNew : Msg) (socketfd : ℤ) : Cxx Msg := do
  let pReply ← m.deepCopy pNew
  pure ({ pReply with tcpSocketHandle := socketfd }.setConnectionType .obTcp)

/-- `OnProcess` up to the test for reply messages; `remoteSocket` has the sockets of the nodes that
offer the services. -/
def onProcess [Malloc] (m pNew : Msg) (x : PeerRoutingMap) (remoteSocket : ℕ → ℤ) (server : Bytes) :
    Cxx Relay :=
  let command := cstr m.msgCommand
  match m.msgService with
  | some pService => do
    let pReply ← m.relayed pNew (remoteSocket pService)
    pure (.dispatched (pReply.dispatchMsg server))
  | none =>
    if occursIn (bytes "POST") command then pure .here
    else if occursIn (bytes ".FORWARD") command then do
      let pForward ← m.relayed pNew (x.getSocket m.msgTo)
      let pForward := { pForward with msgFrom := cstr m.msgFrom, msgFormat := .req }
      pure (.dispatched (pForward.dispatchMsg server))
    else if occursIn (bytes "MCP/") command then do
      let pReply ← m.relayed pNew (x.getSocket m.msgFrom)
      pure (.dispatched ({ pReply with msgFormat := .res }.dispatchMsg server))
    else pure .here

/-! ### Copies -/

theorem setConnectionType_msgBuffer (m : Msg) (ct : MsgConnectionType) :
    (m.setConnectionType ct).msgBuffer = m.msgBuffer := by
  unfold setConnectionType
  dsimp only
  split_ifs <;> rfl

/-- A payload that can be read is copied into any message of the pool. -/
theorem deepCopy_ok [Malloc] {m pNew : Msg} {mem : Bytes} {n : ℕ} (hnew : pNew.Sound)
    (hmem : m.payloadMem = some mem) (hlen : m.msgContentLength = n) (hn : n ≤ mem.length)
    (hfit : (n : ℤ)+8 ≤ intMax) : ∃ d, m.deepCopy pNew = .ok d ∧ d.msgTo = cstr m.msgTo := by
  obtain ⟨c, hc⟩ := hnew.msgBuffer
  obtain ⟨b, hb, -, -⟩ := hc.replaceWith mem hn (Buffer.Holds.fits_reset hfit)
  refine ⟨_, bind_eq_ok.mpr ⟨_, bind_eq_ok.mpr ⟨(0, b), ?_, rfl⟩, rfl⟩, rfl⟩
  rw [hmem, hlen]
  dsimp only
  rw [setConnectionType_msgBuffer]
  exact hb

/-- What `relayed` makes of the copy. -/
theorem relayed_ok [Malloc] {m pNew : Msg} {mem : Bytes} {n : ℕ} (hnew : pNew.Sound)
    (hmem : m.payloadMem = some mem) (hlen : m.msgContentLength = n) (hn : n ≤ mem.length)
    (hfit : (n : ℤ)+8 ≤ intMax) (socketfd : ℤ) :
    ∃ d, m.relayed pNew socketfd = .ok d ∧ d.tcpSocketHandle = socketfd ∧
      d.msgTo = cstr m.msgTo ∧ d.msgConnectionType = .obTcp := by
  obtain ⟨d, hd, hto⟩ := deepCopy_ok hnew hmem hlen hn hfit
  refine ⟨{ d with tcpSocketHandle := socketfd }.setConnectionType .obTcp, ?_, rfl, hto, rfl⟩
  rw [relayed, hd]
  rfl

/-- A reply goes to the socket registered for its From text. -/
theorem onProcess_reply [Malloc] {m pNew : Msg} {mem : Bytes} {n : ℕ} (hnew : pNew.Sound)
    (hmem : m.payloadMem = some mem) (hlen : m.msgContentLength = n) (hn : n ≤ mem.length)
    (hfit : (n : ℤ)+8 ≤ intMax) (hservice : m.msgService = none)
    (hcommand : m.msgCommand = bytes "MCP/1.0") (x : PeerRoutingMap) (remoteSocket : ℕ → ℤ)
    (server : Bytes) :
    ∃ d, m.onProcess pNew x remoteSocket server = .ok (.dispatched d) ∧
      d.tcpSocketHandle = x.getSocket m.msgFrom ∧ d.msgTo = cstr m.msgTo := by
  obtain ⟨d, hd, hfd, hto, htype⟩ := relayed_ok hnew hmem hlen hn hfit (x.getSocket m.msgFrom)
  have hpost : occursIn (bytes "POST") (cstr (bytes "MCP/1.0")) = false := by decide
  have hforward : occursIn (bytes ".FORWARD") (cstr (bytes "MCP/1.0")) = false := by decide
  have hreply : occursIn (bytes "MCP/") (cstr (bytes "MCP/1.0")) = true := by decide
  have hout : ({ d with msgFormat := .res } : Msg).msgConnectionType = .ibTcp ∨
      ({ d with msgFormat := .res } : Msg).msgConnectionType = .obTcp := .inr htype
  refine ⟨{ d with msgFormat := .res }.dispatchMsg server, ?_, ?_, ?_⟩
  · unfold onProcess
    rw [hservice, hcommand]
    dsimp only
    rw [hpost, hforward, hreply, hd]
    rfl
  · rw [dispatchMsg_tcp hout]
    exact hfd
  · rw [dispatchMsg_tcp hout]
    exact hto

end Msg

/-! ### The routing map -/

/-- What `ProcessMCP` records of a message. -/
structure Registration where
  pKey : Bytes
  pIPAddress : Bytes
  iPort : ℤ
  iSocketfd : ℤ

namespace PeerRoutingMap

def register (x : PeerRoutingMap) (r : Registration) : PeerRoutingMap :=
  x.addRecord r.pKey r.pIPAddress r.iPort r.iSocketfd

/-- The socket of the last record under a tag. -/
def lastSocket (regs : List Registration) (pKey : Bytes) : Option ℤ :=
  (regs.reverse.find? fun r => cstr r.pKey = cstr pKey).map Registration.iSocketfd

theorem lastSocket_congr (regs : List Registration) {pKey pKey' : Bytes}
    (h : cstr pKey = cstr pKey') : lastSocket regs pKey = lastSocket regs pKey' := by
  unfold lastSocket
  rw [h]

theorem getSocket_cstr (x : PeerRoutingMap) (pKey : Bytes) :
    x.getSocket (cstr pKey) = x.getSocket pKey := by
  unfold getSocket
  rw [cstr_eq_self (zero_notMem_cstr pKey)]

/-- The map has the last record, or its old one. -/
theorem getSocket_register (x : PeerRoutingMap) (regs : List Registration) (pKey : Bytes) :
    (regs.foldl register x).getSocket pKey = (lastSocket regs pKey).getD (x.getSocket pKey) := by
  induction regs using List.reverseRecOn with
  | nil => rfl
  | append_singleton regs r ih =>
    rw [List.foldl_append, List.foldl_cons, List.foldl_nil, lastSocket, List.reverse_append,
      List.reverse_singleton, List.singleton_append, List.find?_cons]
    by_cases heq : cstr r.pKey = cstr pKey
    · have hsame : (List.foldl register x regs).register r =
          (List.foldl register x regs).addRecord pKey r.pIPAddress r.iPort r.iSocketfd := by
        unfold register addRecord
        rw [heq]
      rw [hsame, getSocket_addRecord]
      simp [heq]
    · rw [register, getSocket_addRecord_ne _ (fun h => heq h.symm), ih]
      simp [heq, lastSocket]

end PeerRoutingMap

/-! ### The reply -/

/-- The reply of a peer to a request that was relayed to it, before it is sent: what
`CreateMessageReply` sets in a message of the pool stays. -/
structure RelayedReply where
  asked : Msg
  tcp : asked.msgConnectionType = .ibTcp
  pool : Msg
  newID : Bytes
  now : ℤ
  answer : OutboundMcp
  msgFormat : answer.msg.msgFormat = ((pool.reuse newID now).replyTo asked).msgFormat
  msgTo : answer.msg.msgTo = ((pool.reuse newID now).replyTo asked).msgTo
  msgFrom : answer.msg.msgFrom = ((pool.reuse newID now).replyTo asked).msgFrom
  msgCommand : answer.msg.msgCommand = ((pool.reuse newID now).replyTo asked).msgCommand

namespace RelayedReply

variable (x : RelayedReply)

theorem replies : x.answer.msg.Replies := by
  left
  rw [x.msgFormat]
  unfold Msg.replyTo
  rw [x.tcp]
  rfl

/-- The reply has the address of the one who asked and none of its own. -/
theorem addresses : x.answer.msg.msgTo = cstr x.asked.msgFrom ∧ x.answer.msg.msgFrom = [] ∧
    x.answer.msg.msgCommand = [] := by
  rw [x.msgTo, x.msgFrom, x.msgCommand]
  unfold Msg.replyTo
  rw [x.tcp]
  exact ⟨rfl, rfl, rfl⟩

theorem regular : x.answer.Regular := by
  intro _
  rw [if_pos x.replies]
  exact x.addresses.2.2

/-- The text of the reply starts with `MCP/1.0` and a blank. -/
theorem start_text : bytes "MCP/1.0 " <+: x.answer.text := by
  have hfirst : bytes "MCP/1.0 " <+: x.answer.header.first := by
    change _ <+: x.answer.msg.firstLine
    rw [Msg.firstLine, if_pos x.replies, List.append_assoc, List.append_assoc]
    exact List.prefix_append _ _
  have hlines := (x.answer.header.start_joinLines (by decide)).mpr hfirst
  rw [OutboundMcp.text_eq x.regular]
  exact (hlines.trans (List.prefix_append _ _)).trans (List.prefix_append _ _)

theorem strstr_text : strstr x.answer.text [32] = some 7 ∧
    x.answer.text.take 7 = bytes "MCP/1.0" := by
  obtain ⟨r, hr⟩ := x.start_text
  have hsplit : bytes "MCP/1.0 " ++ r = bytes "MCP/1.0" ++ 32 :: r := by
    have hblank : bytes "MCP/1.0 " = bytes "MCP/1.0" ++ [32] := by decide
    rw [hblank, List.append_assoc, List.singleton_append]
  rw [← hr, hsplit]
  constructor
  · have hcons : cstr (32 :: r) = 32 :: cstr r := cstr_append (s := [32]) (by decide) r
    rw [strstr, cstr_append (by decide), hcons, firstOcc_singleton (by decide)]
    rfl
  · exact List.take_left' rfl

end RelayedReply

/-! ### The reply at the node that relayed the request -/

namespace InboundState.ParsedFrame

variable {m m' : Msg} {newID frame : Bytes} {p : ℕ}

theorem msgService (h : ParsedFrame m newID frame p m') : m'.msgService = m.msgService := by
  obtain ⟨e, -, hm'⟩ := h.fields
  rw [hm']
  rfl

theorem msgCommand (h : ParsedFrame m newID frame p m') {k : ℕ}
    (hk : strstr frame [32] = some k) : m'.msgCommand = frame.take k := by
  obtain ⟨e, -, hm'⟩ := h.fields
  rw [hm']
  simp only [Msg.framed, Msg.parsed, Msg.readFields, hk, Option.elim_some,
    Msg.setConnectionType]
  rfl

/-- The payload pointer is in the buffer of the message, also when there is no payload. -/
theorem payloadMem (h : ParsedFrame m newID frame p m') : ∃ mem, m'.payloadMem = some mem := by
  obtain ⟨e, -, hm'⟩ := h.fields
  obtain ⟨junk, hblock⟩ := h.msgBuffer.pBuffer_eq
  have hown : ∃ offset, m'.pPayload = .own offset := by
    rw [hm']
    change ∃ offset, (if (e.getValue (bytes "Content-Length")).length ≠ 0 then
      Payload.own ((p : ℤ)+4) else .own 0) = .own offset
    split_ifs
    · exact ⟨_, rfl⟩
    · exact ⟨_, rfl⟩
  obtain ⟨offset, hown⟩ := hown
  rw [Msg.payloadMem, hown, hblock]
  exact ⟨_, rfl⟩

end InboundState.ParsedFrame

theorem InboundState.mcpRequest_msgService (s : InboundState) (m : Msg) (pt : ProtocolType) :
    (s.mcpRequest m pt).msgService = m.msgService := by
  unfold mcpRequest
  dsimp only [Msg.setConnectionType]
  split_ifs <;> rfl

/-- The payload of a carried text can be copied. -/
theorem Msg.Carries.payload_le {m : Msg} {x : OutboundMcp} {newID mem : Bytes}
    (h : m.Carries x newID) (hmem : m.payloadMem = some mem) : x.payload.length ≤ mem.length := by
  have htext := h.payloadText
  have hnat : ¬ (x.payload.length : ℤ) = -1 := by omega
  unfold Msg.payloadText at htext
  rw [hmem] at htext
  dsimp only at htext
  rw [h.msgContentLength, if_neg hnat, Int.toNat_natCast] at htext
  rw [← htext, List.length_take]
  exact (Nat.min_le_right _ _)

theorem OutboundMcp.length_payload_le {x : OutboundMcp} (h : x.Regular) :
    (x.payload.length : ℤ)+8 ≤ intMax := by
  have hlen := x.length_text_le
  have htext : x.text.length = x.header.headerBlock.block.length+x.payload.length := by
    rw [text_eq h, List.length_append]
  omega

/-- A message with a reply's first line goes to the `MC` handler. -/
theorem Msg.route_reply {m : Msg} {r : Router} {mc : ℕ} (htype : m.msgConnectionType = .ibTcp)
    (hcommand : m.msgCommand = bytes "MCP/1.0") (hmc : r.getCommandHandler (bytes "MC") = some mc) :
    m.route r = .ok (.handler mc, m.withoutNotify) := by
  have hreply : m.withoutNotify.isReply = true := by
    unfold isReply withoutNotify
    rw [hcommand]
    decide
  unfold route processInboundMessage sentToMC
  rw [htype]
  dsimp only
  rw [if_pos hreply, hmc]
  rfl

namespace RelayedReply

variable (x : RelayedReply)

/-- The `To` text as the receiver reads it. -/
def returnTag : Bytes := Msg.tagField (cstr x.asked.msgFrom)

/-- What arrives, and where: it has the tag of the one who asked, and registers the empty tag. -/
theorem arrives [Malloc] (s : InboundState) {env : InboundEnv} {rest newID : Bytes} {pool : Msg}
    {now : ℤ} (hb : s.record.buffer.Holds (x.answer.text ++ rest)) (hpool : pool.Sound)
    (henv : env.pMessage = pool.reuse newID now) :
    ∃ rc t m mem, s.process env = .ok (rc, t) ∧ t.dispatched = s.dispatched ++ [m] ∧
      t.routingMap.getSocket [] = s.record.socketfd ∧
      (∀ pKey, cstr pKey ≠ [] → t.routingMap.getSocket pKey = s.routingMap.getSocket pKey) ∧
      m.msgConnectionType = .ibTcp ∧ m.msgService = none ∧ m.msgCommand = bytes "MCP/1.0" ∧
      m.msgFrom = [] ∧ m.msgTo = x.returnTag ∧ m.payloadMem = some mem ∧
      m.msgContentLength = (x.answer.payload.length : ℤ) ∧
      x.answer.payload.length ≤ mem.length := by
  have hsound : env.pMessage.Sound := henv ▸ (hpool.reuse newID now).1
  obtain ⟨rc, t, m, hproc, -, hdispatched, hmap, hparsed⟩ :=
    s.process_frame x.regular hb hsound
  have hcarries := Msg.Carries.of_parsedFrame x.regular hparsed
  have htype := hparsed.msgConnectionType
  have hfrom : m.msgFrom = [] := by
    rw [hcarries.msgFrom, x.addresses.2.1]
    rfl
  obtain ⟨mem, hmem⟩ := hparsed.payloadMem
  refine ⟨rc, t, _, mem, hproc, hdispatched, ?_, fun pKey hkey => ?_, ?_⟩
  · rw [hmap, hfrom, PeerRoutingMap.getSocket_addRecord]
  · rw [hmap, hfrom, PeerRoutingMap.getSocket_addRecord_ne _ hkey]
  · rw [Msg.dispatchMsg_tcp (.inl htype)]
    refine ⟨htype, ?_, ?_, hfrom, ?_, hmem, hcarries.msgContentLength, hcarries.payload_le hmem⟩
    · rw [hparsed.msgService, InboundState.mcpRequest_msgService, henv]
      rfl
    · rw [hparsed.msgCommand x.strstr_text.1]
      exact x.strstr_text.2
    · rw [hcarries.msgTo, x.addresses.1]
      rfl

/-- The copy that `OnProcess` dispatches is for the socket registered for the `To` text, and not for
the one where the reply arrived. -/
def Returned (d : Msg) (map : PeerRoutingMap) (arrival : ℤ) : Prop :=
  d.tcpSocketHandle = map.getSocket d.msgTo ∧ d.tcpSocketHandle ≠ arrival

/-- Behind the reply another message without `From` came, and the last of these on the socket
registered for the `To` text. -/
def Covered (regs : List Registration) (s : InboundState) : Prop :=
  ∃ fd ∈ PeerRoutingMap.lastSocket regs [], fd ≠ s.record.socketfd ∧
    fd = (PeerRoutingMap.lastSocket regs x.returnTag).getD (s.routingMap.getSocket x.returnTag)

/-- The copy goes to the socket of the last message without `From`, the reply itself if none came
behind it. `regs` are the messages parsed between the reply and its handler. -/
theorem dispatches [Malloc] (s : InboundState) {env : InboundEnv} {rest newID : Bytes} {pool : Msg}
    {now : ℤ} (hb : s.record.buffer.Holds (x.answer.text ++ rest)) (hpool : pool.Sound)
    (henv : env.pMessage = pool.reuse newID now) {r : Router} {mc : ℕ}
    (hmc : r.getCommandHandler (bytes "MC") = some mc) (regs : List Registration) {pNew : Msg}
    (hnew : pNew.Sound) (remoteSocket : ℕ → ℤ) (server : Bytes) :
    ∃ rc t m m' d, s.process env = .ok (rc, t) ∧ t.dispatched = s.dispatched ++ [m] ∧
      m.route r = .ok (.handler mc, m') ∧
      m'.onProcess pNew (regs.foldl PeerRoutingMap.register t.routingMap) remoteSocket server =
        .ok (.dispatched d) ∧ d.msgTo = cstr x.returnTag ∧
      d.tcpSocketHandle = (PeerRoutingMap.lastSocket regs []).getD s.record.socketfd ∧
      ∀ pKey, cstr pKey ≠ [] →
        t.routingMap.getSocket pKey = s.routingMap.getSocket pKey := by
  obtain ⟨rc, t, m, mem, hproc, hdispatched, hown, hother, htype, hservice, hcommand, hfrom, hto,
    hmem, hlen, hle⟩ := x.arrives s hb hpool henv
  obtain ⟨d, hd, hfd, hdto⟩ := Msg.onProcess_reply (m := m.withoutNotify) hnew hmem hlen hle
    (OutboundMcp.length_payload_le x.regular) hservice hcommand
    (regs.foldl PeerRoutingMap.register t.routingMap) remoteSocket server
  refine ⟨rc, t, m, m.withoutNotify, d, hproc, hdispatched, Msg.route_reply htype hcommand hmc, hd,
    ?_, ?_, hother⟩
  · rw [hdto, ← hto]
    rfl
  · rw [hfd, ← hown, ← PeerRoutingMap.getSocket_register, ← hfrom]
    rfl

theorem returned_iff_covered [Malloc] (s : InboundState) {env : InboundEnv} {rest newID : Bytes}
    {pool : Msg} {now : ℤ} (hb : s.record.buffer.Holds (x.answer.text ++ rest)) (hpool : pool.Sound)
    (henv : env.pMessage = pool.reuse newID now) {r : Router} {mc : ℕ}
    (hmc : r.getCommandHandler (bytes "MC") = some mc) (regs : List Registration) {pNew : Msg}
    (hnew : pNew.Sound) (remoteSocket : ℕ → ℤ) (server : Bytes) :
    ∃ rc t m m' d, s.process env = .ok (rc, t) ∧ t.dispatched = s.dispatched ++ [m] ∧
      m.route r = .ok (.handler mc, m') ∧
      m'.onProcess pNew (regs.foldl PeerRoutingMap.register t.routingMap) remoteSocket server =
        .ok (.dispatched d) ∧ d.msgTo = cstr x.returnTag ∧
      (Returned d (regs.foldl PeerRoutingMap.register t.routingMap) s.record.socketfd ↔
        x.Covered regs s) := by
  obtain ⟨rc, t, m, m', d, hproc, hdispatched, hroute, hd, hto, hfd, hother⟩ :=
    x.dispatches s hb hpool henv hmc regs hnew remoteSocket server
  refine ⟨rc, t, m, m', d, hproc, hdispatched, hroute, hd, hto, ?_⟩
  unfold Returned Covered
  rw [hfd, hto, PeerRoutingMap.getSocket_cstr, PeerRoutingMap.getSocket_register]
  cases hlast : PeerRoutingMap.lastSocket regs [] with
  | none =>
    -- the reply's own registration is the last one of the empty tag
    constructor
    · exact fun h => absurd rfl h.2
    · rintro ⟨_, h, _⟩
      cases h
  | some fd =>
    have hsocket : (PeerRoutingMap.lastSocket regs x.returnTag).getD
          (t.routingMap.getSocket x.returnTag) =
        (PeerRoutingMap.lastSocket regs x.returnTag).getD
          (s.routingMap.getSocket x.returnTag) := by
      by_cases hkey : cstr x.returnTag = []
      · rw [PeerRoutingMap.lastSocket_congr regs (show cstr x.returnTag = cstr [] from hkey), hlast]
        rfl
      · rw [hother _ hkey]
    rw [hsocket, Option.getD_some]
    constructor
    · exact fun h => ⟨fd, rfl, h.2, h.1⟩
    · rintro ⟨_, h, hne, heq⟩
      obtain rfl := Option.some.inj h
      exact ⟨heq, hne⟩

end RelayedReply

/-! ### A reply to `a@10.0.0.1:3400` -/

def answerMsg : Msg :=
  { msgFormat := .res
    msgProtocolType := .mcp
    msgID := bytes "7"
    msgTo := bytes "a@10.0.0.1:3400" }

theorem response_null : ∃ c, ({} : ConnectionHandlerOutbound).response.Holds c := ⟨[], .null⟩

theorem short_answerMsg : answerMsg.Short quietEnv.elapsed.text := by decide

def relayedAnswer : RelayedReply where
  asked :=
    { msgConnectionType := .ibTcp
      msgID := bytes "7"
      msgFrom := bytes "a@10.0.0.1:3400" }
  tcp := rfl
  pool := {}
  newID := bytes "id1"
  now := 1000
  answer :=
    { handler := {}
      env := quietEnv
      msg := answerMsg
      payload := []
      response := response_null
      protocol := rfl
      format := .inr (.inl rfl)
      plain := ⟨by decide, by decide, by decide, by decide, by decide, by decide, by decide,
        by decide⟩
      contentLength := rfl
      payloadMem := fun h => absurd rfl h
      printable := short_answerMsg.printable rfl rfl }
  msgFormat := rfl
  msgTo := rfl
  msgFrom := rfl
  msgCommand := rfl

/-- The one who asked is on socket 4, the reply comes on socket 5. -/
def relayNode : InboundState :=
  { connectionWith relayedAnswer.answer.text with
    routingMap := PeerRoutingMap.register {} ⟨bytes "a@10.0.0.1:3400", bytes "10.0.0.1", 3400, 4⟩ }

def relayRouter : Router where
  getCommandHandler _ := some 0
  search _ := []
  queryServiceFirst _ := none

def relayEnv : InboundEnv := { plainEnv with pMessage := Msg.reuse {} (bytes "id1") 1000 }

theorem pMessage_relayEnv : relayEnv.pMessage = Msg.reuse {} (bytes "id1") 1000 := rfl

theorem holds_relayNode : relayNode.record.buffer.Holds (relayedAnswer.answer.text ++ []) := by
  rw [List.append_nil]
  exact holds_connectionWith (by decide)

theorem returnTag_relayedAnswer : relayedAnswer.returnTag = bytes "a@10.0.0.1:3400" := by
  decide

/-- Nothing comes in between: the reply goes back to where it came from. -/
theorem reply_bounced : ∃ rc t m m' d, relayNode.process relayEnv = .ok (rc, t) ∧
    t.dispatched = [m] ∧ m.route relayRouter = .ok (.handler 0, m') ∧
    m'.onProcess {} t.routingMap (fun _ => -1) (bytes "s@10.0.0.2:3400") = .ok (.dispatched d) ∧
    t.routingMap.getSocket d.msgTo = 4 ∧ d.tcpSocketHandle = 5 ∧
    ¬ RelayedReply.Returned d t.routingMap relayNode.record.socketfd := by
  obtain ⟨rc, t, m, m', d, hproc, hdispatched, hroute, hd, hto, hfd, hother⟩ :=
    relayedAnswer.dispatches relayNode holds_relayNode Msg.sound_default pMessage_relayEnv
      (r := relayRouter) rfl [] Msg.sound_default (fun _ => -1) (bytes "s@10.0.0.2:3400")
  refine ⟨rc, t, m, m', d, hproc, hdispatched, hroute, hd, ?_, hfd, fun h => h.2 hfd⟩
  rw [hto, PeerRoutingMap.getSocket_cstr, returnTag_relayedAnswer, hother _ (by decide)]
  exact PeerRoutingMap.getSocket_addRecord _ _ _ _ _

namespace RelayedReply

/-- A message without `From` from the one who asked comes in between. -/
theorem returned_iff_covered_between : ∃ rc t m m' d, relayNode.process relayEnv = .ok (rc, t) ∧
    t.dispatched = [m] ∧ m.route relayRouter = .ok (.handler 0, m') ∧
    m'.onProcess {} (t.routingMap.register ⟨[], bytes "10.0.0.1", 3400, 4⟩) (fun _ => -1)
      (bytes "s@10.0.0.2:3400") = .ok (.dispatched d) ∧
    Returned d (t.routingMap.register ⟨[], bytes "10.0.0.1", 3400, 4⟩) 5 := by
  obtain ⟨rc, t, m, m', d, hproc, hdispatched, hroute, hd, -, hiff⟩ :=
    relayedAnswer.returned_iff_covered relayNode holds_relayNode Msg.sound_default
      pMessage_relayEnv (r := relayRouter) rfl [⟨[], bytes "10.0.0.1", 3400, 4⟩]
      Msg.sound_default (fun _ => -1) (bytes "s@10.0.0.2:3400")
  refine ⟨rc, t, m, m', d, hproc, hdispatched, hroute, hd, hiff.mpr ⟨4, rfl, by decide, ?_⟩⟩
  have hnone : PeerRoutingMap.lastSocket [⟨[], bytes "10.0.0.1", 3400, 4⟩]
      (bytes "a@10.0.0.1:3400") = none := by decide
  rw [returnTag_relayedAnswer, hnone]
  exact (PeerRoutingMap.getSocket_addRecord {} (bytes "a@10.0.0.1:3400") _ _ _).symm

end RelayedReply
end MsgCourier
