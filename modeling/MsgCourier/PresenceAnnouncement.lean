import MsgCourier.PresenceBroadcast
import MsgCourier.WireFields
import MsgCourier.OutboundContent
import MsgCourier.DatagramRun

/-! The broadcast in which a node announces itself, from the sender's registry to the receiver's. -/
namespace MsgCourier
open ListSearch CText SortedEntries Runs ZeroFill

/-! ### The sender -/

/-- What `SetHostNode` stores; only the MAC address is not printed into the header. -/
structure HostNode where
  hostName : PlainText
  hostIP : PlainText
  hostTCPPort : PlainText
  hostMac : Bytes

namespace ServiceTable

/-- The body of the loop: the entries without a node are the local ones. -/
def appendService (x : ServiceTable) (bLocal : Bool) (pServiceEntry : ℕ) (list : Bytes) :
    Cxx Bytes :=
  match x.service.entries pServiceEntry with
  | none => .error .undefined
  | some entry =>
    pure (if entry.pNode.isNone = bLocal then list ++ (cstr entry.serviceName ++ bytes " ")
      else list)

def getServiceList (x : ServiceTable) (bLocal : Bool) : Cxx (Bytes × ServiceTable) :=
  let (pServiceEntry, y) := x.queryServiceFirst none
  y.walk (x.appendService bLocal) y.service.serviceMap.length pServiceEntry []

end ServiceTable

namespace HostNode

def sExpression (h : HostNode) (servicesList : Bytes) : Bytes :=
  bytes "(" ++ h.hostMac ++ bytes " Active (Svs (" ++ servicesList ++ bytes ")))"

/-- The address behind `From`. -/
def tag (h : HostNode) : Bytes :=
  h.hostName.text ++ bytes "@" ++ h.hostIP.text ++ bytes ":" ++ h.hostTCPPort.text

/-- The header; the length goes through `%d`. -/
def broadcastHeader (h : HostNode) (broadcastAddress port : PlainText) (length : ℕ) : Bytes :=
  bytes "MC.PRESENCE.BROADCAST MCP/1.0" ++ crlf ++
    bytes "To: " ++ (bytes "subnet@" ++ broadcastAddress.text ++ bytes ":" ++ port.text) ++ crlf ++
    bytes "From: " ++ h.tag ++ crlf ++
    bytes "Content-Type: " ++ bytes "text/s-expression" ++ crlf ++
    bytes "Content-Length: " ++ formatInt (int32 length) ++ crlf ++
    bytes "Options: " ++ bytes "priority-low reply-none notify-no" ++ crlf ++ crlf

/-- `m_response` as `SendBroadcastToSubnet` and `SendBroadcastToMachine` build it. -/
def sendBroadcast [Malloc] (h : HostNode) (x : ServiceTable) (broadcastAddress port : PlainText)
    (response : Buffer) : Cxx (Buffer × ServiceTable) := do
  let (servicesList, x) ← x.getServiceList true
  let sExpression := h.sExpression servicesList
  let response ← response.sprintf 5000
    (h.broadcastHeader broadcastAddress port sExpression.length)
  let (_, response) ← response.append (some (sExpression ++ [0])) (int32 sExpression.length)
  pure (response, x)

end HostNode

/-! ### The services announced -/

namespace PeerRegistry

variable (s : PeerRegistry)

/-- The names of the local services, in registry order. -/
def localServices : List Bytes := (s.service.pairs.filter fun p => p.2 = none).map Prod.fst

def listText (names : List Bytes) : Bytes := names.flatMap fun name => cstr name ++ bytes " "

theorem appendService_eq {e : Bytes × ℕ} (he : e ∈ s.service.serviceMap) (list : Bytes) :
    s.table.appendService true e.2 list =
      .ok (list ++ if (s.pairOf e).2 = none then cstr e.1 ++ bytes " " else []) := by
  obtain ⟨entry, hentry, hname⟩ := s.inv.ordered.toWellFormed.named e he
  have hentry : s.service.entries e.2 = some entry := hentry
  unfold ServiceTable.appendService pairOf
  rw [show s.table.service.entries e.2 = some entry from hentry, hentry, ← hname]
  cases hnode : entry.pNode with
  | none => simp [hnode, pure_eq_ok]
  | some key => simp [hnode, pure_eq_ok]

theorem foldl_appendService {l : List (Bytes × ℕ)} (hl : ∀ e ∈ l, e ∈ s.service.serviceMap)
    (list : Bytes) : l.foldlM (fun list e => s.table.appendService true e.2 list) list =
      .ok (list ++ listText (((l.map s.pairOf).filter fun p => p.2 = none).map Prod.fst)) := by
  induction l generalizing list with
  | nil => simp [listText, pure_eq_ok]
  | cons e l ih =>
    rw [List.foldlM_cons, s.appendService_eq (hl e List.mem_cons_self), ok_bind,
      ih fun e' he' => hl e' (List.mem_cons_of_mem _ he')]
    by_cases hlocal : (s.pairOf e).2 = none
    · rw [if_pos hlocal, List.map_cons, List.filter_cons_of_pos (by simpa using hlocal),
        List.map_cons, listText, listText, List.flatMap_cons, List.append_assoc]
      rfl
    · rw [if_neg hlocal, List.append_nil, List.map_cons,
        List.filter_cons_of_neg (by simpa using hlocal)]

/-- The list has the local services, `MC` included. An empty registry has no first entry. -/
theorem getServiceList_eq : s.table.getServiceList true =
    if s.service.serviceMap = [] then .error .undefined
    else .ok (listText s.localServices, s.table.moveTo s.service.serviceMap.length) := by
  unfold ServiceTable.getServiceList ServiceTable.queryServiceFirst
  dsimp only [Option.elim_none]
  split_ifs with hnil
  · have hlen : s.table.service.serviceMap.length = 0 := by
      rw [show s.table.service.serviceMap = [] from hnil]
      rfl
    have hfirst : s.table.service.entryAt 0 = none := by
      rw [← hlen]
      exact Service.entryAt_length s.table.service
    have hstop := ServiceTable.walk_stop (x := s.table) (s.table.appendService true)
      (s.table.moveTo 0).service.serviceMap.length []
    rw [hlen] at hstop
    rw [hfirst]
    exact hstop
  · have hpos : 0 < s.table.service.serviceMap.length := List.length_pos_iff.mpr hnil
    have hwalk := ServiceTable.walk_eq (x := s.table) (s.table.appendService true)
      s.inv.ordered.toWellFormed _ 0 [] hpos le_rfl
    have hfold : s.table.service.serviceMap.foldlM
        (fun list e => s.table.appendService true e.2 list) [] = .ok (listText s.localServices) :=
      s.foldl_appendService (fun _ he => he) []
    rw [List.drop_zero, hfold, ok_bind] at hwalk
    exact hwalk

end PeerRegistry

/-! ### The text -/

namespace HostNode

variable (h : HostNode) (broadcastAddress port : PlainText)

theorem plain_append {s t : Bytes} (hs : 13 ∉ s ∧ 0 ∉ s) (ht : 13 ∉ t ∧ 0 ∉ t) :
    13 ∉ s ++ t ∧ 0 ∉ s ++ t := by
  simp only [List.mem_append, not_or]
  exact ⟨⟨hs.1, ht.1⟩, hs.2, ht.2⟩

theorem plain_text (t : PlainText) : 13 ∉ t.text ∧ 0 ∉ t.text :=
  ⟨fun h13 => (t.plain _ h13).1 rfl, fun h0 => (t.plain _ h0).2.2 rfl⟩

theorem plain_tag : 13 ∉ h.tag ∧ 0 ∉ h.tag := by
  unfold tag
  refine plain_append (plain_append (plain_append (plain_append ?_ ?_) ?_) ?_) ?_
  · exact plain_text _
  · decide
  · exact plain_text _
  · decide
  · exact plain_text _

theorem plain_formatInt (z : ℤ) : 13 ∉ formatInt z ∧ 0 ∉ formatInt z := by
  refine ⟨fun h13 => ?_, zero_notMem_formatInt z⟩
  have hdigit {n : ℕ} (h : 13 ∈ decimal n) : False :=
    absurd (isDigit_of_mem_decimal h) (by decide)
  unfold formatInt at h13
  split_ifs at h13
  · rcases List.mem_cons.mp h13 with h | h
    · exact absurd h (by decide)
    · exact hdigit h
  · exact hdigit h13

/-- The header as a first line and fields. -/
def announcement (length : ℕ) : FieldHeader where
  first := bytes "MC.PRESENCE.BROADCAST MCP/1.0"
  fields := [(bytes "To", bytes "subnet@" ++ broadcastAddress.text ++ bytes ":" ++ port.text),
    (bytes "From", h.tag), (bytes "Content-Type", bytes "text/s-expression"),
    (bytes "Content-Length", formatInt (int32 length)),
    (bytes "Options", bytes "priority-low reply-none notify-no")]
  first_plain := by decide
  plain f hf := by
    have hline {name value : Bytes} (hn : 58 ∉ name ∧ 13 ∉ name ∧ 0 ∉ name)
        (hv : 13 ∉ value ∧ 0 ∉ value) : 58 ∉ (name, value).1 ∧ 13 ∉ fieldLine (name, value) ∧
          0 ∉ fieldLine (name, value) := by
      have hplain := plain_append hn.2
        (plain_append (show 13 ∉ bytes ": " ∧ 0 ∉ bytes ": " by decide) hv)
      exact ⟨hn.1, hplain⟩
    simp only [List.mem_cons, List.not_mem_nil, or_false] at hf
    rcases hf with rfl | rfl | rfl | rfl | rfl
    · apply hline (by decide)
      exact plain_append (plain_append (plain_append (by decide) (plain_text _)) (by decide))
        (plain_text _)
    · exact hline (by decide) h.plain_tag
    · exact hline (by decide) (by decide)
    · exact hline (by decide) (plain_formatInt _)
    · exact hline (by decide) (by decide)
  nodup := show [bytes "To", bytes "From", bytes "Content-Type", bytes "Content-Length",
    bytes "Options"].Nodup by decide

theorem mcp_announcement (length : ℕ) :
    (h.announcement broadcastAddress port length).Mcp where
  marker := show occursIn (bytes "MCP/") (bytes "MC.PRESENCE.BROADCAST MCP/1.0") = true by decide
  notGet := show ¬ bytes "GET " <+: bytes "MC.PRESENCE.BROADCAST MCP/1.0" by decide
  notPost := show ¬ bytes "POST " <+: bytes "MC.PRESENCE.BROADCAST MCP/1.0" by decide

/-- Five fields printed one behind the other. -/
theorem joinLines_fields (first n₁ v₁ n₂ v₂ n₃ v₃ n₄ v₄ n₅ v₅ : Bytes) :
    first ++ crlf ++ (n₁ ++ [58, 32]) ++ v₁ ++ crlf ++ (n₂ ++ [58, 32]) ++ v₂ ++ crlf ++
        (n₃ ++ [58, 32]) ++ v₃ ++ crlf ++ (n₄ ++ [58, 32]) ++ v₄ ++ crlf ++
        (n₅ ++ [58, 32]) ++ v₅ ++ crlf ++ crlf =
      joinLines (first :: [(n₁, v₁), (n₂, v₂), (n₃, v₃), (n₄, v₄), (n₅, v₅)].map fieldLine) ++
        crlfcrlf := by
  rw [show crlfcrlf = crlf ++ crlf from rfl]
  simp only [List.map_cons, List.map_nil, joinLines, fieldLine, List.append_assoc,
    List.cons_append, List.nil_append]

theorem broadcastHeader_eq (length : ℕ) : h.broadcastHeader broadcastAddress port length =
    (h.announcement broadcastAddress port length).headerBlock.block := by
  have hto : bytes "To: " = bytes "To" ++ [58, 32] := rfl
  have hfrom : bytes "From: " = bytes "From" ++ [58, 32] := rfl
  have htype : bytes "Content-Type: " = bytes "Content-Type" ++ [58, 32] := rfl
  have hlength : bytes "Content-Length: " = bytes "Content-Length" ++ [58, 32] := rfl
  have hoptions : bytes "Options: " = bytes "Options" ++ [58, 32] := rfl
  unfold broadcastHeader
  rw [hto, hfrom, htype, hlength, hoptions]
  exact joinLines_fields ..

theorem block_start (length : ℕ) : ∃ t,
    (h.announcement broadcastAddress port length).headerBlock.block =
      bytes "MC.PRESENCE.BROADCAST" ++ 32 :: t := by
  have hfirst : bytes "MC.PRESENCE.BROADCAST MCP/1.0" =
      bytes "MC.PRESENCE.BROADCAST" ++ 32 :: bytes "MCP/1.0" := rfl
  rw [← h.broadcastHeader_eq]
  unfold broadcastHeader
  rw [hfirst]
  simp only [List.append_assoc, List.cons_append]
  exact ⟨_, rfl⟩

/-- Everything that is built is the header and something behind it. -/
theorem sendBroadcast_inv [Malloc] {x y : ServiceTable} {response b : Buffer} {old : Bytes}
    (hresponse : response.Holds old)
    (hsend : h.sendBroadcast x broadcastAddress port response = .ok (b, y)) :
    ∃ length payload,
      b.Holds ((h.announcement broadcastAddress port length).headerBlock.block ++ payload) := by
  obtain ⟨⟨servicesList, x'⟩, -, hsend⟩ := bind_eq_ok.mp hsend
  obtain ⟨b₁, hprint, hsend⟩ := bind_eq_ok.mp hsend
  obtain ⟨r, happend, hsend⟩ := bind_eq_ok.mp hsend
  obtain ⟨rfl, -⟩ := Prod.mk.inj (Except.ok.inj hsend)
  have h0 := (h.announcement broadcastAddress port
    (h.sExpression servicesList).length).zero_notMem_block
  rw [h.broadcastHeader_eq] at hprint
  have hprinted := hresponse.sprintf_inv h0 hprint
  refine ⟨(h.sExpression servicesList).length, ?_⟩
  by_cases hz : int32 (h.sExpression servicesList).length = 0
  · rw [Buffer.append, if_pos hz] at happend
    exact ⟨[], by rw [List.append_nil, ← Except.ok.inj happend]; exact hprinted⟩
  · have harg : ∃ k, lengthArg (h.sExpression servicesList ++ [0])
        (int32 (h.sExpression servicesList).length) = .ok k := by
      rw [Buffer.append, if_neg hz] at happend
      obtain ⟨k, hk, -⟩ := bind_eq_ok.mp happend
      exact ⟨k, hk⟩
    obtain ⟨k, hk⟩ := harg
    obtain ⟨n, -, -, hholds⟩ := hprinted.append_inv hz hk happend
    exact ⟨_, hholds⟩

end HostNode

/-! ### The receiver -/

theorem Msg.dispatchMsg_sourceIP (m : Msg) (server : Bytes) :
    (m.dispatchMsg server).sourceIP = m.sourceIP := by
  unfold Msg.dispatchMsg
  split_ifs <;> rfl

/-- What a message has of an announcement of the node. -/
structure HostNode.Carries (h : HostNode) (m : Msg) : Prop where
  msgCommand : m.msgCommand = bytes "MC.PRESENCE.BROADCAST"
  msgFrom : m.msgFrom = normalizeTag h.tag
  hwAddr : m.headerExtract.getValue (bytes "HWAddr") = []
  services : m.headerExtract.getValue (bytes "Services") = []

namespace HostNode.Carries

variable {h : HostNode} {m : Msg}

theorem dispatchMsg (hc : h.Carries m) (hct : m.msgConnectionType ≠ .obUdp) (server : Bytes) :
    h.Carries (m.dispatchMsg server) := by
  unfold Msg.dispatchMsg
  rw [if_neg hct]
  split_ifs <;> exact ⟨hc.msgCommand, hc.msgFrom, hc.hwAddr, hc.services⟩

/-- What `Parse` leaves of an announcement, whatever the bytes behind the header are. -/
theorem of_parsed (m : Msg) (ct : MsgConnectionType) (newID : Bytes) {x : HeaderExtract}
    (p : ℕ) {broadcastAddress port : PlainText} {length : ℕ} {r : Bytes}
    (hx : x.params = headerFields
      ((h.announcement broadcastAddress port length).headerBlock.block ++ r)) :
    h.Carries (m.parsed ct .req newID
      ((h.announcement broadcastAddress port length).headerBlock.block ++ r) p x) := by
  rw [FieldHeader.headerFields_append (h.mcp_announcement _ _ _)] at hx
  have hfrom : x.getValue (bytes "From") = h.tag := by
    have hmem : (bytes "From", h.tag) ∈
        (h.announcement broadcastAddress port length).fields := by simp [announcement]
    rw [HeaderExtract.getValue, hx, FieldHeader.lookup_of_mem _ hmem]
    rfl
  have hnone {name : Bytes} (hname : name ∉ [bytes "To", bytes "From", bytes "Content-Type",
      bytes "Content-Length", bytes "Options"]) : x.getValue name = [] := by
    rw [HeaderExtract.getValue, hx, FieldHeader.lookup_of_notMem]
    · rfl
    · intro value hv
      cases (splitLine_none (show 58 ∉ bytes "MC.PRESENCE.BROADCAST MCP/1.0" by decide)).symm.trans hv
    · exact hname
  obtain ⟨t, ht⟩ := h.block_start broadcastAddress port length
  have h32 : 32 ∉ bytes "MC.PRESENCE.BROADCAST" := by decide
  have hcommand : strstr ((h.announcement broadcastAddress port length).headerBlock.block ++ r)
      [32] = some (bytes "MC.PRESENCE.BROADCAST").length := by
    rw [ht, List.append_assoc, strstr, cstr_append (by decide), List.cons_append, cstr,
      List.takeWhile_cons_of_pos (by decide), firstOcc_singleton h32]
  have htag : h.tag.length ≠ 0 := by simp [tag, bytes]
  refine ⟨?_, ?_, hnone (by decide), hnone (by decide)⟩
  · have hread : (m.parsed ct .req newID
        ((h.announcement broadcastAddress port length).headerBlock.block ++ r) p x).msgCommand =
        (strstr ((h.announcement broadcastAddress port length).headerBlock.block ++ r) [32]).elim
          m.msgCommand
          (((h.announcement broadcastAddress port length).headerBlock.block ++ r).take ·) := by
      cases ct <;> rfl
    rw [hread, hcommand, Option.elim_some, ht, List.append_assoc, List.take_left]
  · change Msg.tagField (x.getValue (bytes "From")) = _
    rw [hfrom, Msg.tagField, if_pos htag]

end HostNode.Carries

/-- A start of a stream that has an end of header has the whole block. -/
theorem HeaderBlock.take_of_firstOcc (B : HeaderBlock) {x : Bytes} {n p : ℕ}
    (hp : firstOcc crlfcrlf ((B.block ++ x).take n) = some p) :
    p = B.size ∧ (B.block ++ x).take n = B.block ++ x.take (n-B.block.length) := by
  have hwhole : firstOcc crlfcrlf (B.block ++ x) = some B.size :=
    firstOcc_append crlfcrlf_ne_nil B.firstOcc_eq x
  have hp' := firstOcc_append crlfcrlf_ne_nil hp ((B.block ++ x).drop n)
  rw [List.take_append_drop, hwhole] at hp'
  obtain rfl := Option.some.inj hp'
  have hle := firstOcc_le _ hp
  simp only [crlfcrlf, List.length_cons, List.length_nil, List.length_take] at hle
  have hlen := B.length_eq
  exact ⟨rfl, by rw [List.take_append, List.take_of_length_le (by omega)]⟩

namespace HostNode.Carries

variable {h : HostNode} {m : Msg}

/-- A frame is cut behind the header or not at all. -/
theorem of_takeFrame [Malloc] {s : InboundState} {newID : Bytes} {broadcastAddress port : PlainText}
    {length : ℕ} {x : Bytes} (hb : s.record.buffer.Sealed
      ((h.announcement broadcastAddress port length).headerBlock.block ++ x))
    (hm : m.Sound) (hmax : s.handler.msgSize ≤
      ((h.announcement broadcastAddress port length).headerBlock.block ++ x).length)
    (hmin : -2147483648 ≤ s.handler.msgSize) {r : ℤ × Msg × Buffer}
    (hok : s.takeFrame m newID = .ok r) :
    h.Carries r.2.1 ∧ r.2.1.sourceIP = m.sourceIP ∧ r.2.1.msgConnectionType = .ibTcp := by
  generalize hB : (h.announcement broadcastAddress port length).headerBlock = B at *
  have hne : B.block ++ x ≠ [] := by
    intro hnil
    have hlen := B.length_eq
    rw [(List.append_eq_nil_iff.mp hnil).1] at hlen
    simp at hlen
  obtain ⟨n, p, hn, hp, hfit⟩ := s.frame_of_takeFrame m newID hb hm hne hmax hmin hok
  obtain ⟨rfl, htake⟩ := B.take_of_firstOcc hp
  obtain ⟨m', b, htook, hparsed, -⟩ := s.takeFrame_ok m newID hb hm hn (by omega) hp hfit
  rw [htook] at hok
  obtain rfl := Except.ok.inj hok
  obtain ⟨y, hy, hm'⟩ := hparsed.fields
  rw [htake, ← hB] at hy
  have hcarries := of_parsed (h := h)
    { m with pPayload := .own 0, msgContentLength := ((B.block ++ x).take n).length } .ibTcp
    newID B.size hy
  rw [hB, ← htake] at hcarries
  dsimp only at hm' ⊢
  rw [hm']
  exact ⟨⟨hcarries.msgCommand, hcarries.msgFrom, hcarries.hwAddr, hcarries.services⟩, rfl, rfl⟩

end HostNode.Carries

/-- The message a node dispatches for the bytes: from a connection on which they come next, or from
a datagram of which at least the header has arrived. -/
inductive Received [Malloc] (text ip : Bytes) : Msg → Prop
  | connection {s : InboundState} {env : InboundEnv} {rest : Bytes} {r : ℤ × InboundState}
      {m : Msg} :
      s.record.buffer.Holds (text ++ rest) → cstr s.record.socketAddr = ip → env.pMessage.Sound →
      s.process env = .ok r → r.2.dispatched = s.dispatched ++ [m] → Received text ip m
  | datagram {x : UDPServer} {pNewMessage : Msg} {client : ClientAddr} {newID server : Bytes}
      {r : ℤ × Msg} :
      pNewMessage.Sound → pNewMessage.msgBuffer.Holds [] → cstr client.sinAddr = ip →
      occursIn crlfcrlf (text.take 512) = true →
      UDPServer.readDatagram pNewMessage text client newID = .ok r →
      Received text ip (x.handOver server r)

/-- A message on a connection that starts with the header of an announcement is one of MCP. -/
theorem HostNode.Carries.of_process [Malloc] {h : HostNode} {s : InboundState} {env : InboundEnv}
    {broadcastAddress port : PlainText} {length : ℕ} {x : Bytes} {r : ℤ × InboundState} {m : Msg}
    (hb : s.record.buffer.Holds
      ((h.announcement broadcastAddress port length).headerBlock.block ++ x))
    (hm : env.pMessage.Sound) (hok : s.process env = .ok r)
    (hdispatched : r.2.dispatched = s.dispatched ++ [m]) :
    h.Carries m ∧ m.sourceIP = cstr s.record.socketAddr := by
  have hp := (h.announcement broadcastAddress port length).headerBlock.strstr_block
    (FieldHeader.zero_notMem_block _) x
  have hframe := FieldHeader.frameAt_append (h.mcp_announcement broadcastAddress port length) x
    (h.announcement broadcastAddress port length).headerBlock.size
  obtain ⟨b', k, ha, hs, -, hsize, -⟩ := analyzeProtocol_some s.handler hb hp
  rw [InboundState.process, ha, ok_bind] at hok
  dsimp only at hok
  rcases hframe with hmcp | hshort
  · rw [hmcp] at hok
    obtain ⟨m₀, b, htake, rfl⟩ := (InboundState.processMCP_ok_iff _ _ _ _).mp hok
    obtain rfl := List.singleton_inj.mp (List.append_cancel_left hdispatched)
    have hlen := strstr_le hp
    simp only [crlfcrlf, List.length_cons, List.length_nil] at hlen
    obtain ⟨hmax, hmin⟩ := frameAt_size_le (by omega) (by omega) (Or.inr (Or.inr hmcp))
    obtain ⟨hc, hip, hct⟩ := HostNode.Carries.of_takeFrame (h := h) hs
      (InboundState.sound_mcpRequest _ hm _) (hsize ▸ hmax) (hsize ▸ hmin) htake
    refine ⟨hc.dispatchMsg (hct ▸ by decide) env.server, ?_⟩
    rw [Msg.dispatchMsg_sourceIP, hip]
    rfl
  · rw [hshort] at hok
    obtain rfl := Except.ok.inj hok
    simp at hdispatched

/-- What is received carries the announcement and the address of its sender. -/
theorem HostNode.Carries.of_received [Malloc] {h : HostNode} {broadcastAddress port : PlainText}
    {length : ℕ} {payload ip : Bytes} {m : Msg} (hreceived : Received
      ((h.announcement broadcastAddress port length).headerBlock.block ++ payload) ip m) :
    h.Carries m ∧ m.sourceIP = ip := by
  cases hreceived with
  | connection hb hip hm hok hdispatched =>
    rw [List.append_assoc] at hb
    rw [← hip]
    exact of_process hb hm hok hdispatched
  | @datagram x m₀ client newID server r hm h0 hip hocc hok =>
    generalize hB : (h.announcement broadcastAddress port length).headerBlock = B at *
    obtain ⟨b, hholds, -, -, hread⟩ := UDPServer.readDatagram_eq h0 (B.block ++ payload) client
      newID
    obtain ⟨p, hp⟩ := Option.isSome_iff_exists.mp hocc
    obtain ⟨rfl, htake⟩ := B.take_of_firstOcc hp
    obtain ⟨raw, hraw⟩ := hm.msgRawBuffer
    have hfit : m₀.msgRawBuffer.reset.Fits ((B.block ++ payload).take 512).length := by
      have hle : ((B.block ++ payload).take 512).length ≤ 512 := List.length_take_le _ _
      exact Buffer.Holds.fits_reset (by unfold intMax; omega)
    obtain ⟨b', raw', y, hparse, -, -, hy⟩ := Msg.parse_holds
      { m₀ with msgBuffer := b, sourceIP := cstr client.sinAddr } .ibUdp .req newID hholds hraw hfit hp
    rw [hread, hparse] at hok
    obtain rfl := Except.ok.inj hok
    rw [htake, ← hB] at hy
    have hc := of_parsed (h := h) { m₀ with msgBuffer := b, sourceIP := cstr client.sinAddr }
      .ibUdp newID B.size hy
    rw [hB, ← htake] at hc
    unfold UDPServer.handOver
    rw [if_pos rfl]
    refine ⟨HostNode.Carries.dispatchMsg ?_
      (show MsgConnectionType.ibUdp ≠ .obUdp by decide) server, ?_⟩
    · exact ⟨hc.msgCommand, hc.msgFrom, hc.hwAddr, hc.services⟩
    · rw [Msg.dispatchMsg_sourceIP]
      exact hip

/-! ### What the receiver makes of it -/

theorem Presence.withSockets_sockets (p : Presence) : p.withSockets p.sockets = p := by
  funext key
  unfold withSockets sockets
  cases p key <;> rfl

namespace HostNode

variable (h : HostNode)

/-- The machine name and the key under which a receiver looks for the sender. -/
def heardName : Bytes := (cstr (normalizeTag h.tag)).takeWhile (· ≠ 64)

def heardKey (ip : Bytes) : Bytes := buildKey ip h.heardName []

/-- The sender's address does not contain one of the receiver's. -/
def Remote (i : Interfaces) : Prop :=
  ¬ occursIn i.serverPrimaryAddr (cstr (normalizeTag h.tag)) = true ∧
    ¬ occursIn i.serverSecondaryAddr (cstr (normalizeTag h.tag)) = true

instance (i : Interfaces) : Decidable (h.Remote i) := inferInstanceAs (Decidable (_ ∧ _))

/-- The sender is recorded, or goes on being recorded, under its name and MAC address, and beside
the services it had before it has its local services other than `MC`. -/
structure Understood (ip : Bytes) (sender receiver : PeerRegistry) (o : BroadcastOutcome) :
    Prop where
  recorded : ∃ n, o.presence (h.heardKey ip) = some n ∧ n.machineName = h.hostName.text ∧
    n.macAddress = h.hostMac ∧ n.status = .active
  services : ∀ name, o.services.Has (h.heardKey ip) name ↔
    receiver.state.Has (h.heardKey ip) name ∨ name ∈ sender.localServices ∧ name ≠ bytes "MC"

/-- What the announcement says about its sender. -/
def heard (ip : Bytes) (garbage : ℤ) : NodeUpdate := ⟨ip, h.heardName, [], [], .active, garbage⟩

/-- The receiver has the sender under its name and MAC address already, or has nothing under the
key, the sender has a name without `@` and no MAC address, and the log takes the line about it. -/
def Recordable (ip : Bytes) (receiver : PeerRegistry) (i : Interfaces) (log : Log) : Prop :=
  match receiver.presence (h.heardKey ip) with
  | some n => n.machineName = h.hostName.text ∧ n.macAddress = h.hostMac ∧
      (h.Remote i ∨ n.status = .active)
  | none => h.Remote i ∧ h.heardName = h.hostName.text ∧ h.hostMac = [] ∧
      log.Takes (newNodeLine ip h.heardName [] [])

/-- Every local service of the sender other than `MC` is one that the receiver has for
it already. -/
def NothingToRegister (ip : Bytes) (sender receiver : PeerRegistry) : Prop :=
  ∀ name ∈ sender.localServices, name ≠ bytes "MC" → receiver.state.Has (h.heardKey ip) name

theorem zero_notMem_heardName : 0 ∉ h.heardName := by
  intro h0
  exact zero_notMem_cstr _ ((List.takeWhile_sublist _).subset h0)

end HostNode

namespace HostNode.Carries

variable {h : HostNode} {m : Msg}

theorem machineName (hc : h.Carries m) : m.machineName = h.heardName := by
  rw [Msg.machineName, hc.msgFrom]
  rfl

theorem isRemote_iff (hc : h.Carries m) (i : Interfaces) :
    m.isRemote i = true ↔ h.Remote i := by
  unfold Msg.isRemote HostNode.Remote
  rw [hc.msgFrom]
  simp

theorem isPresenceBroadcast (hc : h.Carries m) : m.isPresenceBroadcast = true := by
  unfold Msg.isPresenceBroadcast
  rw [hc.msgCommand]
  decide

/-- The broadcast registers no service: what is left is the node. -/
theorem presenceBroadcast_eq_ok_iff (hc : h.Carries m) (receiver : PeerRegistry) (log : Log)
    (i : Interfaces) (new : Allocator) (garbage : ℤ) {o : BroadcastOutcome} :
    receiver.presenceBroadcast log i new m garbage = .ok o ↔
      (h.Remote i → receiver.presence (h.heardKey m.sourceIP) = none →
        log.Takes (newNodeLine m.sourceIP h.heardName [] [])) ∧
      o = ⟨[], ⟨receiver.table, (if h.Remote i then
          receiver.presence.updated (h.heard m.sourceIP garbage) else receiver.presence).sockets⟩,
        if h.Remote i then receiver.presence.updated (h.heard m.sourceIP garbage)
        else receiver.presence⟩ := by
  have hservices : m.services = [] := by
    unfold Msg.services
    rw [hc.services]
    rfl
  have hnode : m.nodeUpdate garbage = h.heard m.sourceIP garbage := by
    unfold Msg.nodeUpdate HostNode.heard
    rw [hc.machineName, hc.hwAddr, hc.services]
    rfl
  have hkey : (h.heard m.sourceIP garbage).key = h.heardKey m.sourceIP := rfl
  unfold PeerRegistry.presenceBroadcast
  rw [hservices, hnode]
  by_cases hremote : h.Remote i
  · rw [if_pos ((hc.isRemote_iff i).mpr hremote), if_pos hremote]
    have hnone (key : Bytes) (p : Presence) :
        ServiceState.registerServices new key m.tcpSocketHandle [] ⟨receiver.table, p.sockets⟩
          false = .ok (false, [], ⟨receiver.table, p.sockets⟩) := by
      rw [ServiceState.registerServices, pure_eq_ok]
    constructor
    · intro hok
      obtain ⟨r, hr, hok⟩ := bind_eq_ok.mp hok
      obtain ⟨hline, rfl⟩ := (receiver.presence.updateNode_eq_ok_iff log _).mp hr
      dsimp only at hok
      rw [hnone, ok_bind] at hok
      dsimp only at hok
      rw [Presence.withSockets_sockets] at hok
      exact ⟨fun _ => hline, (Except.ok.inj hok).symm⟩
    · rintro ⟨hline, rfl⟩
      refine bind_eq_ok.mpr ⟨_, (receiver.presence.updateNode_eq_ok_iff log _).mpr
        ⟨hline hremote, rfl⟩, ?_⟩
      dsimp only
      rw [hnone, ok_bind]
      dsimp only
      rw [Presence.withSockets_sockets]
      rfl
  · rw [if_neg fun h => hremote ((hc.isRemote_iff i).mp h), if_neg hremote, pure_eq_ok,
      Except.ok.injEq]
    exact ⟨fun hok => ⟨fun h => absurd h hremote, hok.symm⟩, fun h => h.2.symm⟩

/-- The entry under the key of the sender. -/
theorem recorded_iff (ip : Bytes) (receiver : PeerRegistry) (i : Interfaces) (log : Log)
    (garbage : ℤ) :
    ((h.Remote i → receiver.presence (h.heardKey ip) = none →
        log.Takes (newNodeLine ip h.heardName [] [])) ∧
      ∃ n, (if h.Remote i then receiver.presence.updated (h.heard ip garbage)
        else receiver.presence) (h.heardKey ip) = some n ∧ n.machineName = h.hostName.text ∧
      n.macAddress = h.hostMac ∧ n.status = .active) ↔ h.Recordable ip receiver i log := by
  unfold HostNode.Recordable
  by_cases hremote : h.Remote i
  · rw [if_pos hremote]
    have hself : receiver.presence.updated (h.heard ip garbage) (h.heardKey ip) =
        some (match receiver.presence (h.heardKey ip) with
          | some n => { n with status := .active }
          | none => ⟨cstr ip, cstr h.heardName, [], h.heardKey ip, [], garbage, .active⟩) :=
      Function.update_self _ _ _
    rw [hself]
    cases receiver.presence (h.heardKey ip) with
    | some n => simp [hremote]
    | none =>
      simp only [hremote, cstr_eq_self h.zero_notMem_heardName, Option.some.injEq, exists_eq_left',
        forall_const, true_and, and_true]
      rw [and_comm, and_assoc, eq_comm (a := ([] : Bytes))]
  · rw [if_neg hremote]
    cases receiver.presence (h.heardKey ip) with
    | some n => simp [hremote]
    | none => simp [hremote]

/-- Whether a receiver understands an announcement. -/
theorem understood_iff (hc : h.Carries m) (sender receiver : PeerRegistry) (log : Log)
    (i : Interfaces) (new : Allocator) (garbage : ℤ) :
    (∃ o, receiver.presenceBroadcast log i new m garbage = .ok o ∧
      h.Understood m.sourceIP sender receiver o) ↔
      h.Recordable m.sourceIP receiver i log ∧ h.NothingToRegister m.sourceIP sender receiver := by
  have hservices (o : BroadcastOutcome) (ho : o.services.table = receiver.table) :
      (∀ name, o.services.Has (h.heardKey m.sourceIP) name ↔
        receiver.state.Has (h.heardKey m.sourceIP) name ∨
          name ∈ sender.localServices ∧ name ≠ bytes "MC") ↔
        h.NothingToRegister m.sourceIP sender receiver := by
    have hsame (name : Bytes) : o.services.Has (h.heardKey m.sourceIP) name ↔
        receiver.state.Has (h.heardKey m.sourceIP) name := by
      unfold ServiceState.Has ServiceState.pairs ServiceState.service
      rw [ho]
      rfl
    constructor
    · intro h name hin hne
      exact (hsame name).mp ((h name).mpr (Or.inr ⟨hin, hne⟩))
    · intro h name
      rw [hsame]
      exact ⟨Or.inl, fun hor => hor.elim id fun hin => h name hin.1 hin.2⟩
  rw [← recorded_iff m.sourceIP receiver i log garbage]
  constructor
  · rintro ⟨o, hok, hu⟩
    obtain ⟨hline, rfl⟩ := (hc.presenceBroadcast_eq_ok_iff receiver log i new garbage).mp hok
    exact ⟨⟨hline, hu.recorded⟩, (hservices _ rfl).mp hu.services⟩
  · rintro ⟨⟨hline, hrecorded⟩, hnothing⟩
    exact ⟨_, (hc.presenceBroadcast_eq_ok_iff receiver log i new garbage).mpr ⟨hline, rfl⟩,
      hrecorded, (hservices _ rfl).mpr hnothing⟩

end HostNode.Carries

/-! ### Every announcement of a moderate size -/

namespace HostNode

variable (h : HostNode) (broadcastAddress port : PlainText) (sender : PeerRegistry)

/-- The payload that announces the services of the sender. -/
def servicesText : Bytes := h.sExpression (PeerRegistry.listText sender.localServices)

/-- The announcement as bytes. -/
def announcementText : Bytes :=
  h.broadcastHeader broadcastAddress port (h.servicesText sender).length ++ h.servicesText sender

/-- The registry has an entry, and there is room for header and text. -/
structure Sendable : Prop where
  nonempty : sender.service.serviceMap ≠ []
  header : (h.broadcastHeader broadcastAddress port (h.servicesText sender).length).length ≤ 5000
  text : ((h.announcementText broadcastAddress port sender).length : ℤ)+8 ≤ intMax

variable {h broadcastAddress port sender}

theorem Sendable.length_le (hs : h.Sendable broadcastAddress port sender) :
    ((h.servicesText sender).length : ℤ) ≤ intMax := by
  have htext := hs.text
  unfold announcementText at htext
  rw [List.length_append] at htext
  omega

theorem Sendable.sendBroadcast [Malloc] (hs : h.Sendable broadcastAddress port sender)
    {response : Buffer} {old : Bytes} (hresponse : response.Holds old) :
    ∃ b table, h.sendBroadcast sender.table broadcastAddress port response = .ok (b, table) ∧
      b.Holds (h.announcementText broadcastAddress port sender) := by
  have h0 : 0 ∉ h.broadcastHeader broadcastAddress port (h.servicesText sender).length := by
    rw [h.broadcastHeader_eq]
    exact FieldHeader.zero_notMem_block _
  obtain ⟨b₁, hprint, hprinted⟩ := hresponse.sprintf_fits h0 hs.header
  have hpos : (h.servicesText sender).length ≠ 0 := by
    simp [servicesText, sExpression, bytes]
  have hint : int32 (h.servicesText sender).length = (h.servicesText sender).length :=
    int32_eq (by omega) hs.length_le
  have htail : b₁.Fits (h.servicesText sender).length := by
    have htext := hs.text
    unfold announcementText at htext
    rw [List.length_append] at htext
    right
    rw [hprinted.tail_eq]
    push_cast at htext ⊢
    omega
  obtain ⟨b, happend, hholds, -⟩ := hprinted.append (h.servicesText sender ++ [0])
    (n := (h.servicesText sender).length) (by simp) htail
  rw [List.take_left] at hholds
  refine ⟨b, sender.table.moveTo sender.service.serviceMap.length, ?_, hholds⟩
  unfold HostNode.sendBroadcast
  rw [sender.getServiceList_eq, if_neg hs.nonempty, ok_bind]
  dsimp only
  rw [show h.sExpression (PeerRegistry.listText sender.localServices) = h.servicesText sender
    from rfl, hprint, ok_bind, hint, happend]
  rfl

/-- The frame of the announcement. -/
theorem Sendable.frame (hs : h.Sendable broadcastAddress port sender) :
    ∃ w : WireMsg, w.kind = .mcp ∧ w.frame = h.announcementText broadcastAddress port sender := by
  have hlen := hs.length_le
  have hone : OneLength (h.announcement broadcastAddress port (h.servicesText sender).length).lines
      (h.servicesText sender).length := by
    apply FieldHeader.oneLength _ hlen
    · have hformat : formatInt (int32 (h.servicesText sender).length) =
          decimal (h.servicesText sender).length := by
        rw [int32_eq (by omega) hlen, formatInt, if_neg (by omega), Int.natAbs_natCast]
      simp [announcement, hformat]
    · constructor
      all_goals
        intro value hv
        cases (splitLine_none
          (show 58 ∉ bytes "MC.PRESENCE.BROADCAST MCP/1.0" by decide)).symm.trans hv
    · exact show bytes "Content-length" ∉ [bytes "To", bytes "From", bytes "Content-Type",
        bytes "Content-Length", bytes "Options"] by decide
  have hfits := hs.text
  unfold announcementText at hfits
  rw [h.broadcastHeader_eq, List.length_append, HeaderBlock.length_eq] at hfits
  refine ⟨FieldHeader.wireMsg (h.mcp_announcement broadcastAddress port _) (h.servicesText sender)
    (Or.inl hone) ?_, rfl, ?_⟩
  · push_cast at hfits
    change ((joinLines _).length : ℤ)+4+_+8 ≤ _ at hfits
    omega
  · unfold announcementText
    rw [h.broadcastHeader_eq]
    rfl

/-- A handler whose buffer starts with the announcement dispatches a message for it. -/
theorem Sendable.received [Malloc] (hs : h.Sendable broadcastAddress port sender) {s : InboundState}
    {env : InboundEnv} {rest : Bytes}
    (hb : s.record.buffer.Holds (h.announcementText broadcastAddress port sender ++ rest))
    (hm : env.pMessage.Sound) : ∃ m, Received (h.announcementText broadcastAddress port sender)
      (cstr s.record.socketAddr) m := by
  obtain ⟨w, hkind, hw⟩ := hs.frame
  rw [← hw] at hb ⊢
  obtain ⟨hprotocol, hsize⟩ := w.frameAt_frame rest
  rw [hkind] at hprotocol
  have hlen := w.length_frame
  have hfit : env.pMessage.FitsFrame w.frame.length :=
    Msg.Sound.fitsFrame (by rw [hw]; exact hs.text)
  obtain ⟨k, m, b, hok, -, -⟩ := s.process_mcp env hb (w.strstr_frame rest) hprotocol hsize
    (by omega) hm hfit
  exact ⟨_, .connection hb rfl hm hok rfl⟩

theorem Sendable.received_alone [Malloc] (hs : h.Sendable broadcastAddress port sender)
    {s : InboundState} {env : InboundEnv}
    (hb : s.record.buffer.Holds (h.announcementText broadcastAddress port sender))
    (hm : env.pMessage.Sound) : ∃ m, Received (h.announcementText broadcastAddress port sender)
      (cstr s.record.socketAddr) m := by
  rw [← List.append_nil (h.announcementText broadcastAddress port sender)] at hb
  exact hs.received hb hm

theorem carries_of_text [Malloc] {h : HostNode} {broadcastAddress port : PlainText}
    {sender : PeerRegistry} {ip : Bytes} {m : Msg}
    (hm : Received (h.announcementText broadcastAddress port sender) ip m) :
    h.Carries m ∧ m.sourceIP = ip := by
  unfold announcementText at hm
  rw [h.broadcastHeader_eq] at hm
  exact Carries.of_received hm

end HostNode

/-- For every sender, every registry and every receiver, what is built is received as a presence
broadcast, and it is understood exactly if the receiver can record the sender from the header alone
and there is no service to register. If it is sendable, it is built and received. -/
theorem announcement_understood_iff [Malloc] (h : HostNode) (sender receiver : PeerRegistry)
    (broadcastAddress port : PlainText) {response : Buffer} {old : Bytes}
    (hresponse : response.Holds old) :
    (∀ b table text, h.sendBroadcast sender.table broadcastAddress port response =
        .ok (b, table) → b.Holds text → ∀ ip m, Received text ip m →
      m.isPresenceBroadcast = true ∧ ∀ log i new garbage,
        ((∃ o, receiver.presenceBroadcast log i new m garbage = .ok o ∧
          h.Understood ip sender receiver o) ↔
          h.Recordable ip receiver i log ∧ h.NothingToRegister ip sender receiver)) ∧
    (h.Sendable broadcastAddress port sender →
      ∃ b table text, h.sendBroadcast sender.table broadcastAddress port response =
          .ok (b, table) ∧ b.Holds text ∧
        ∀ (s : InboundState) (env : InboundEnv) (rest : Bytes),
          s.record.buffer.Holds (text ++ rest) → env.pMessage.Sound →
          ∃ m, Received text (cstr s.record.socketAddr) m) := by
  constructor
  · intro b table text hsend htext ip m hreceived
    obtain ⟨length, payload, hholds⟩ := h.sendBroadcast_inv broadcastAddress port hresponse hsend
    obtain rfl := htext.unique hholds
    obtain ⟨hc, rfl⟩ := HostNode.Carries.of_received hreceived
    exact ⟨hc.isPresenceBroadcast, fun log i new garbage =>
      hc.understood_iff sender receiver log i new garbage⟩
  · intro hs
    obtain ⟨b, table, hsend, hholds⟩ := hs.sendBroadcast hresponse
    exact ⟨b, table, _, hsend, hholds, fun s env rest hb hm => hs.received hb hm⟩

/-- A node with the port and address of a small network. -/
def smallHost (hostMac : String) : HostNode where
  hostName := ⟨bytes "node", by simp [bytes]⟩
  hostIP := ⟨bytes "10.0.0.9", by simp [bytes]⟩
  hostTCPPort := ⟨bytes "3400", by simp [bytes]⟩
  hostMac := bytes hostMac

def subnetAddress : PlainText := ⟨bytes "10.0.0.255", by simp [bytes]⟩
def subnetPort : PlainText := ⟨bytes "3400", by simp [bytes]⟩

theorem length_formatInt_le {n : ℕ} (hn : (n : ℤ) ≤ intMax) :
    (formatInt (int32 n)).length ≤ 10 := by
  have hlt : n < 10^10 := by
    unfold intMax at hn
    omega
  rw [int32_eq (by omega) hn, formatInt, if_neg (by omega), Int.natAbs_natCast]
  unfold decimal
  split_ifs
  · simp
  · rw [List.length_map, List.length_reverse]
    exact (Nat.digits_length_le_iff (show 1 < 10 by decide) n).mpr hlt

theorem smallHost_sendable (mac name : String)
    (hlen : ((smallHost mac).servicesText (PeerRegistry.localRegistry (bytes name))).length ≤ 100) :
    (smallHost mac).Sendable subnetAddress subnetPort
      (PeerRegistry.localRegistry (bytes name)) := by
  have hformat := length_formatInt_le (n := ((smallHost mac).servicesText
    (PeerRegistry.localRegistry (bytes name))).length) (by unfold intMax; omega)
  have hheader : ((smallHost mac).broadcastHeader subnetAddress subnetPort
      ((smallHost mac).servicesText
        (PeerRegistry.localRegistry (bytes name))).length).length ≤ 300 := by
    have htag : (smallHost mac).tag = bytes "node@10.0.0.9:3400" := rfl
    unfold HostNode.broadcastHeader
    rw [htag]
    simp only [List.length_append]
    have hfirst : (bytes "MC.PRESENCE.BROADCAST MCP/1.0").length = 29 := rfl
    have hto : (bytes "subnet@").length = 7 := rfl
    have hfrom : (bytes "node@10.0.0.9:3400").length = 18 := rfl
    have htype : (bytes "text/s-expression").length = 17 := rfl
    have hoptions : (bytes "priority-low reply-none notify-no").length = 33 := rfl
    have haddr : subnetAddress.text.length = 10 := rfl
    have hport : subnetPort.text.length = 4 := rfl
    have hnames : (bytes "To: ").length = 4 ∧ (bytes "From: ").length = 6 ∧
        (bytes "Content-Type: ").length = 14 ∧ (bytes "Content-Length: ").length = 16 ∧
        (bytes "Options: ").length = 9 ∧ (bytes ":").length = 1 ∧ crlf.length = 2 := by decide
    omega
  refine ⟨List.cons_ne_nil _ _, by omega, ?_⟩
  unfold HostNode.announcementText
  rw [List.length_append]
  unfold intMax
  omega

/-- A sender without a MAC address and without another service than `MC`. -/
theorem announcement_understood_of_nothing :
    ∃ b table, (smallHost "").sendBroadcast (PeerRegistry.localRegistry (bytes "MC")).table
        subnetAddress subnetPort {} = .ok (b, table) ∧
      ∃ text, b.Holds text ∧ ∃ ip m, Received text ip m ∧
        ∃ o, (PeerRegistry.localRegistry (bytes "MC")).presenceBroadcast {}
            PeerRegistry.twoInterfaces PeerRegistry.behindAll m 0 = .ok o ∧
          (smallHost "").Understood ip (PeerRegistry.localRegistry (bytes "MC"))
            (PeerRegistry.localRegistry (bytes "MC")) o := by
  have hs := smallHost_sendable "" "MC" (by decide)
  obtain ⟨hunderstood, hreceived⟩ := announcement_understood_iff (smallHost "")
    (PeerRegistry.localRegistry (bytes "MC")) (PeerRegistry.localRegistry (bytes "MC"))
    subnetAddress subnetPort Buffer.Holds.null
  obtain ⟨b, table, hsend, hholds⟩ := hs.sendBroadcast Buffer.Holds.null
  have htext := hs.text
  have hc := holds_connectionWith (c := (smallHost "").announcementText subnetAddress
    subnetPort (PeerRegistry.localRegistry (bytes "MC"))) (by omega)
  obtain ⟨b', table', text, hsend', hholds', hmsg⟩ := hreceived hs
  obtain ⟨rfl, rfl⟩ := Prod.mk.inj (Except.ok.inj (hsend.symm.trans hsend'))
  obtain rfl := hholds.unique hholds'
  obtain ⟨m, hm⟩ := hmsg (connectionWith _) plainEnv [] (by rw [List.append_nil]; exact hc)
    Msg.sound_default
  refine ⟨b, table, hsend, _, hholds, _, m, hm, ?_⟩
  obtain ⟨-, hiff⟩ := hunderstood b table _ hsend hholds _ m hm
  apply (hiff {} PeerRegistry.twoInterfaces PeerRegistry.behindAll 0).mpr
  constructor
  · have hline : ({} : Log).Takes
        (newNodeLine (cstr (bytes "10.0.0.7")) (smallHost "").heardName [] []) :=
      Log.takes_of_notMem _ (by decide) (by decide) rfl
    exact ⟨by decide, by decide, rfl, hline⟩
  · intro name hin hne
    have hlocal : (PeerRegistry.localRegistry (bytes "MC")).localServices = [bytes "MC"] := by
      decide
    rw [hlocal, List.mem_singleton] at hin
    exact absurd hin hne

/-- A sender with a MAC address whose service "CHAT" the receiver is to hear of. -/
theorem announcement_not_understood :
    ∃ b table, (smallHost "00:1A:2B").sendBroadcast
        (PeerRegistry.localRegistry (bytes "CHAT")).table subnetAddress subnetPort {} =
        .ok (b, table) ∧
      ∃ text, b.Holds text ∧ (connectionWith text).record.buffer.Holds text ∧
      ∃ ip m, Received text ip m ∧
        ¬ ∃ o, (PeerRegistry.localRegistry (bytes "MC")).presenceBroadcast {}
            PeerRegistry.twoInterfaces PeerRegistry.behindAll m 0 = .ok o ∧
          (smallHost "00:1A:2B").Understood ip (PeerRegistry.localRegistry (bytes "CHAT"))
            (PeerRegistry.localRegistry (bytes "MC")) o := by
  have hs := smallHost_sendable "00:1A:2B" "CHAT" (by decide)
  obtain ⟨b, table, hsend, hholds⟩ := hs.sendBroadcast Buffer.Holds.null
  have htext := hs.text
  have hc := holds_connectionWith (c := (smallHost "00:1A:2B").announcementText subnetAddress
    subnetPort (PeerRegistry.localRegistry (bytes "CHAT"))) (by omega)
  obtain ⟨m, hm⟩ := hs.received_alone hc (show plainEnv.pMessage.Sound from Msg.sound_default)
  refine ⟨b, table, hsend, _, hholds, hc, _, m, hm, ?_⟩
  intro h
  obtain ⟨hcarries, hip⟩ := HostNode.carries_of_text hm
  rw [← hip] at h
  obtain ⟨hrecord, -⟩ := (hcarries.understood_iff _ _ _ _ _ _).mp h
  -- nothing is known of the sender, so its MAC address would have to be empty
  exact absurd hrecord.2.2.1 (by decide)

end MsgCourier
