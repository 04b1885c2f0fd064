import MsgCourier.Delivery
import MsgCourier.PayloadWindow
import MsgCourier.WireHeaders

/-! Outbound messages of one connection as the inbound side of their receiver takes them. -/
namespace MsgCourier
open ListSearch CText ZeroFill

/-! ### Framing behind a header -/

theorem splitLine_start {line name value : Bytes} (h : splitLine line = some (name, value)) :
    name ++ [58] <+: line := by
  unfold splitLine at h
  obtain ⟨k, hk, h⟩ := Option.map_eq_some_iff.mp h
  have hmatch := firstOcc_match (List.cons_ne_nil _ _) hk
  have hle : k ≤ line.length := by
    have := firstOcc_le _ hk
    rw [List.length_singleton] at this
    omega
  have hname : line.take k = name := by
    rw [← (Prod.mk.inj h).1, List.take_append_of_le_length (by simp [hle]), List.take_take,
      Nat.min_self]
  rw [← hname]
  exact ⟨line.drop (k+1), hmatch.symm⟩

/-- A line that does not start with a name and a colon is no field of this name. -/
theorem notField_of_not_start {line name : Bytes} (h : ¬ name ++ [58] <+: line) :
    NotField name line :=
  fun _ hsplit => h (splitLine_start hsplit)

namespace FieldHeader

variable {h : FieldHeader}

/-- A length field with the size of the payload, or no field that gives a length. -/
def Sized (h : FieldHeader) (payload : Bytes) : Prop :=
  (bytes "Content-Length", decimal payload.length) ∈ h.fields ∨
    payload = [] ∧ NoLength h.first ∧ bytes "Content-Length" ∉ h.fields.map Prod.fst ∧
      bytes "Content-length" ∉ h.fields.map Prod.fst

theorem fieldValue_of_mem (hm : h.Mcp) (r : Bytes) {name value : Bytes}
    (hmem : (name, value) ∈ h.fields) : fieldValue (h.headerBlock.block ++ r) name = value := by
  rw [fieldValue, headerFields_append hm, h.lookup_of_mem hmem]
  rfl

theorem fieldValue_of_notMem (hm : h.Mcp) (r : Bytes) {name : Bytes}
    (hfirst : NotField name h.first) (hmem : name ∉ h.fields.map Prod.fst) :
    fieldValue (h.headerBlock.block ++ r) name = [] := by
  rw [fieldValue, headerFields_append hm, h.lookup_of_notMem hfirst hmem]
  rfl

/-- The frame behind the header is the payload, whatever follows it. -/
theorem frameAt_sized (hm : h.Mcp) {payload : Bytes} (hsized : h.Sized payload)
    (hfits : ((h.headerBlock.block ++ payload).length : ℤ) ≤ intMax) (r : Bytes) :
    (frameAt (h.headerBlock.block ++ (payload ++ r)) h.headerBlock.size).protocol = .mcp ∧
      (frameAt (h.headerBlock.block ++ (payload ++ r)) h.headerBlock.size).msgSize =
        (h.headerBlock.block ++ payload).length := by
  have hget := not_isGet hm (payload ++ r)
  have hmark := markerType_append hm (payload ++ r)
  have hblock := h.headerBlock.length_eq
  have htotal : (h.headerBlock.block ++ payload).length = h.headerBlock.size+4+payload.length := by
    rw [List.length_append, hblock]
  have hmax : (h.headerBlock.size : ℤ)+4+payload.length ≤ intMax := by
    rw [htotal] at hfits
    exact_mod_cast hfits
  have hlength : (payload.length : ℤ) ≤ intMax := by omega
  have hlow : -2147483648 ≤ (h.headerBlock.size : ℤ)+4+payload.length := by omega
  rcases hsized with hmem | ⟨rfl, hfirst, h₁, h₂⟩
  · have hvalue := fieldValue_of_mem hm (payload ++ r) hmem
    have hne : (decimal payload.length).length ≠ 0 := fun h0 =>
      decimal_ne_nil _ (List.length_eq_zero_iff.mp h0)
    have hn : contentLength (h.headerBlock.block ++ (payload ++ r)) =
        some (payload.length : ℤ) := by
      rw [contentLength, lengthText, hvalue, if_neg hne, if_neg hne, atoi_decimal hlength]
    have hend : int32 ((h.headerBlock.size : ℤ)+4+payload.length) =
        (h.headerBlock.block ++ payload).length := by
      rw [int32_eq hlow hmax, htotal]
      push_cast
      rfl
    have hge : int32 ((h.headerBlock.size : ℤ)+4+payload.length) ≤
        (h.headerBlock.block ++ (payload ++ r)).length := by
      rw [hend]
      simp only [List.length_append]
      omega
    rw [frameAt_complete hget hn hge]
    refine ⟨hmark, ?_⟩
    dsimp only
    rw [hend]
  · have hn : contentLength (h.headerBlock.block ++ ([] ++ r)) = none := by
      rw [contentLength, lengthText, fieldValue_of_notMem hm _ hfirst.1 h₁,
        fieldValue_of_notMem hm _ hfirst.2 h₂]
      rfl
    rw [frameAt_noLength hget hn]
    refine ⟨hmark, ?_⟩
    rw [List.append_nil, hblock]
    rfl

end FieldHeader

/-! ### Outbound messages -/

/-- A message for `TransmitMsg` and a handler with any history: its texts are plain, its payload is
there and it fits the buffers it is printed into. -/
structure OutboundMcp where
  handler : ConnectionHandlerOutbound
  env : OutboundEnv
  msg : Msg
  payload : Bytes
  response : ∃ c, handler.response.Holds c
  protocol : msg.msgProtocolType = .mcp
  format : msg.msgFormat = .req ∨ msg.Replies
  plain : msg.WirePlain
  contentLength : msg.msgContentLength = payload.length
  payloadMem : payload ≠ [] → ∃ mem, msg.payloadMem = some mem ∧ payload <+: mem
  printable : ∃ text, msg.Printable env.elapsed.text text

namespace OutboundMcp

variable (x : OutboundMcp)

def elapsed : Bytes := x.env.elapsed.text

/-- The bytes of `m_response`. -/
def text : Bytes := (x.msg.ownText x.elapsed).getD []

theorem plain_elapsed : Plain x.elapsed :=
  ⟨fun h => (x.env.elapsed.plain _ h).1 rfl, fun h => (x.env.elapsed.plain _ h).2.1 rfl,
    fun h => (x.env.elapsed.plain _ h).2.2 rfl⟩

theorem formatResponse_text [Malloc] :
    ∃ b, x.handler.formatResponse x.env x.msg = .ok b ∧ b.Holds x.text := by
  obtain ⟨c, hc⟩ := x.response
  obtain ⟨text, hprint⟩ := x.printable
  have htext : x.text = text := by
    rw [OutboundMcp.text, elapsed, hprint.own]
    rfl
  rw [htext]
  exact ConnectionHandlerOutbound.formatResponse_fits hc hprint

/-- No empty reply with a command, which gets an empty line too many, and no empty request whose
command looks like a length field. -/
def Regular : Prop :=
  x.payload = [] →
    if x.msg.Replies then x.msg.msgCommand = []
    else ¬ bytes "Content-Length:" <+: x.msg.msgCommand ∧
      ¬ bytes "Content-length:" <+: x.msg.msgCommand

def header : FieldHeader := x.msg.wireHeader x.plain x.elapsed x.plain_elapsed

theorem mcp_header : x.header.Mcp := x.msg.mcp_wireHeader x.plain x.elapsed x.plain_elapsed

theorem payload_eq :
    (if x.msg.msgContentLength = 0 then [] else x.msg.payloadText) = x.payload := by
  by_cases hnil : x.payload = []
  · rw [x.contentLength, hnil]
    rfl
  · obtain ⟨mem, hmem, hprefix⟩ := x.payloadMem hnil
    have hpos : x.payload.length ≠ 0 := fun h => hnil (List.length_eq_zero_iff.mp h)
    rw [if_neg (by rw [x.contentLength]; omega), Msg.payloadText, hmem]
    dsimp only
    rw [if_neg (by rw [x.contentLength]; omega), x.contentLength, Int.toNat_natCast]
    exact (List.prefix_iff_eq_take.mp hprefix).symm

variable {x}

/-- The bytes are one header, its empty line and the payload. -/
theorem text_eq (h : x.Regular) : x.text = x.header.headerBlock.block ++ x.payload := by
  have hcommand (hreplies : x.msg.Replies) (hlen : x.msg.msgContentLength = 0) :
      cstr x.msg.msgCommand = [] := by
    rw [x.contentLength] at hlen
    have hnil := h (List.length_eq_zero_iff.mp (by exact_mod_cast hlen))
    rw [if_pos hreplies] at hnil
    rw [hnil]
    rfl
  have hlen : 0 ≤ x.msg.msgContentLength := by
    rw [x.contentLength]
    exact Int.natCast_nonneg _
  rw [OutboundMcp.text, x.msg.ownText_eq x.plain_elapsed.2.2 x.protocol hlen hcommand,
    x.payload_eq]
  rfl

theorem length_text_le : (x.text.length : ℤ)+8 ≤ intMax := by
  obtain ⟨text, hprint⟩ := x.printable
  have htext : x.text = text := by
    rw [OutboundMcp.text, elapsed, hprint.own]
    rfl
  rw [htext]
  exact hprint.size

end OutboundMcp

/-- A status line has no colon. -/
theorem Msg.noColon_firstLine {m : Msg} (h : m.Replies) : 58 ∉ m.firstLine := by
  have htype : 58 ∉ m.messageType := by
    unfold Msg.messageType
    split_ifs <;> decide
  have hcode : 58 ∉ formatInt3 m.msgResponseCode := by
    intro hc
    rcases mem_formatInt3 hc with hc | hc
    · exact absurd hc (by decide)
    · exact absurd hc (by decide)
  rw [Msg.firstLine, if_pos h]
  exact List.not_mem_append (List.not_mem_append (List.not_mem_append (by decide) hcode)
    (by decide)) htype

/-- What a command line starts with lies in the command, up to its first blank. -/
theorem Msg.start_firstLine {m : Msg} (hm : m.WirePlain) (h : ¬ m.Replies) {pat : Bytes}
    (hpat : 32 ∉ pat) (hp : pat <+: m.firstLine) : pat <+: m.msgCommand := by
  have hversion : bytes " MCP/1.0" = [32] ++ bytes "MCP/1.0" := by decide
  rw [Msg.firstLine, if_neg h, hm.msgCommand.cstr_eq, hversion, ← List.append_assoc] at hp
  have hp := prefix_of_prefix_append (List.mem_append_right _ List.mem_cons_self) hpat hp
  rcases List.prefix_concat_iff.mp hp with heq | hp
  · exact absurd (heq ▸ List.mem_append_right _ List.mem_cons_self) hpat
  · exact hp

namespace OutboundMcp

variable {x : OutboundMcp}

theorem noLength_first (h : x.Regular) (hnil : x.payload = []) : NoLength x.header.first := by
  have hregular := h hnil
  change NoLength x.msg.firstLine
  split_ifs at hregular with hreplies
  · exact noLength_of_noColon (Msg.noColon_firstLine hreplies)
  · constructor
    · apply notField_of_not_start
      intro hp
      exact hregular.1 (Msg.start_firstLine x.plain hreplies (by decide) hp)
    · apply notField_of_not_start
      intro hp
      exact hregular.2 (Msg.start_firstLine x.plain hreplies (by decide) hp)

theorem sized_header (h : x.Regular) : x.header.Sized x.payload := by
  by_cases hnil : x.payload = []
  · have hzero : x.msg.msgContentLength = 0 := by
      rw [x.contentLength, hnil]
      rfl
    refine .inr ⟨hnil, noLength_first h hnil, ?_, ?_⟩
    all_goals
      change _ ∉ (x.msg.wirePairs x.elapsed).map Prod.fst
      unfold Msg.wirePairs Msg.emptyReplyPairs
      split_ifs <;>
        simp only [Msg.routingPairs, Msg.connectionPair, List.map_append, List.map_cons,
          List.map_nil] <;>
        decide
  · have hpos : x.payload.length ≠ 0 := fun h => hnil (List.length_eq_zero_iff.mp h)
    have hne : x.msg.msgContentLength ≠ 0 := by
      rw [x.contentLength]
      exact_mod_cast hpos
    have hformat : formatInt x.msg.msgContentLength = decimal x.payload.length := by
      rw [x.contentLength, formatInt, if_neg (not_lt.mpr (Int.natCast_nonneg _)),
        Int.natAbs_natCast]
    left
    change _ ∈ x.msg.wirePairs x.elapsed
    rw [Msg.wirePairs, if_neg fun h => hne h.2, if_neg hne, Msg.contentPairs, hformat]
    simp

/-- A field of the message as it is read from its own text. -/
theorem fieldValue_text (h : x.Regular) {name value : Bytes}
    (hmem : (name, value) ∈ x.msg.wirePairs x.elapsed) : fieldValue x.text name = value := by
  rw [text_eq h]
  exact FieldHeader.fieldValue_of_mem x.mcp_header x.payload hmem

theorem fieldValue_msgID (h : x.Regular) : fieldValue x.text (bytes "MsgID") = x.msg.msgID := by
  apply fieldValue_text h
  rw [← x.plain.msgID.cstr_eq]
  unfold Msg.wirePairs Msg.emptyReplyPairs
  split_ifs <;> simp [Msg.routingPairs, x.plain.msgID.cstr_eq]

theorem fieldValue_from (h : x.Regular) : fieldValue x.text (bytes "From") = x.msg.msgFrom := by
  apply fieldValue_text h
  unfold Msg.wirePairs Msg.emptyReplyPairs
  split_ifs <;> simp [Msg.routingPairs, x.plain.msgFrom.cstr_eq]

/-- An empty reply without a `To` text has no such field. -/
theorem fieldValue_to (h : x.Regular) : fieldValue x.text (bytes "To") = x.msg.msgTo := by
  have hto := x.plain.msgTo.cstr_eq
  by_cases hleft : (x.msg.Replies ∧ x.msg.msgContentLength = 0) ∧ x.msg.msgTo = []
  · have hnone : ¬ 0 < (cstr x.msg.msgTo).length := by
      rw [hto, hleft.2]
      exact Nat.lt_irrefl 0
    have hnoTo : bytes "To" ∉ x.header.fields.map Prod.fst := by
      change _ ∉ (x.msg.wirePairs x.elapsed).map Prod.fst
      rw [Msg.wirePairs, if_pos hleft.1, Msg.emptyReplyPairs, if_neg hnone]
      simp only [Msg.connectionPair, List.map_append, List.map_cons, List.map_nil]
      decide
    have hfirst : NotField (bytes "To") x.header.first := by
      apply notField_of_not_start
      intro hstart
      exact Msg.noColon_firstLine hleft.1.1 (hstart.subset (by decide))
    rw [text_eq h, FieldHeader.fieldValue_of_notMem x.mcp_header x.payload hfirst hnoTo, hleft.2]
  · apply fieldValue_text h
    unfold Msg.wirePairs Msg.emptyReplyPairs
    split_ifs with hempty hpos
    · simp [hto]
    · have hnil : x.msg.msgTo = [] := by
        rw [hto] at hpos
        exact List.length_eq_zero_iff.mp (by omega)
      exact absurd ⟨hempty, hnil⟩ hleft
    · simp [Msg.routingPairs, hto]
    · simp [Msg.routingPairs, hto]

theorem fieldValue_contentType (h : x.Regular) (hne : x.payload ≠ []) :
    fieldValue x.text (bytes "Content-Type") = x.msg.msgContentType := by
  have hlen : x.msg.msgContentLength ≠ 0 := by
    rw [x.contentLength]
    exact_mod_cast fun h => hne (List.length_eq_zero_iff.mp h)
  apply fieldValue_text h
  rw [Msg.wirePairs, if_neg fun h => hlen h.2, if_neg hlen]
  simp [Msg.contentPairs, x.plain.msgContentType.cstr_eq]

/-- The length is read back, or there is no payload and no length. -/
theorem fieldValue_contentLength (h : x.Regular) :
    fieldValue x.text (bytes "Content-Length") = decimal x.payload.length ∨
      x.payload = [] ∧ fieldValue x.text (bytes "Content-Length") = [] := by
  rw [text_eq h]
  rcases sized_header h with hmem | ⟨hnil, hfirst, hnotMem, -⟩
  · exact .inl (FieldHeader.fieldValue_of_mem x.mcp_header _ hmem)
  · exact .inr ⟨hnil, FieldHeader.fieldValue_of_notMem x.mcp_header _ hfirst.1 hnotMem⟩

theorem parseLength_text (h : x.Regular) : parseLength x.text = x.payload.length := by
  have hlen := x.length_text_le
  rw [text_eq h, List.length_append] at hlen
  unfold parseLength
  rcases fieldValue_contentLength h with hvalue | ⟨hnil, hvalue⟩
  · have hne : (decimal x.payload.length).length ≠ 0 := fun h0 =>
      decimal_ne_nil _ (List.length_eq_zero_iff.mp h0)
    rw [hvalue, if_pos hne, atoi_decimal (by omega)]
  · rw [hvalue, hnil]
    rfl

end OutboundMcp

/-! ### The receiver -/

/-- A message that was parsed from the text of `x`. -/
structure Msg.Carries (m : Msg) (x : OutboundMcp) (newID : Bytes) : Prop where
  msgBuffer : m.msgBuffer.Sealed x.text
  msgRawBuffer : m.msgRawBuffer.Sealed x.text
  msgID : m.msgID = if x.msg.msgID = [] ∨ x.msg.msgID = bytes "0" then newID else x.msg.msgID
  msgTo : m.msgTo = tagField x.msg.msgTo
  msgFrom : m.msgFrom = tagField x.msg.msgFrom
  msgContentType : x.payload ≠ [] → m.msgContentType = x.msg.msgContentType
  msgContentLength : m.msgContentLength = x.payload.length
  payloadText : m.payloadText = x.payload

open OutboundMcp in
/-- `Parse` of the frame recovers the fields and the payload. -/
theorem Msg.Carries.of_parsedFrame {x : OutboundMcp} (h : x.Regular) {m m' : Msg}
    {newID : Bytes}
    (hparsed : InboundState.ParsedFrame m newID x.text x.header.headerBlock.size m') :
    m'.Carries x newID := by
  obtain ⟨e, he, hm'⟩ := hparsed.fields
  have hvalue (name : Bytes) : e.getValue name = fieldValue x.text name := by
    rw [HeaderExtract.getValue, he]
    rfl
  have hlength := parseLength_text h
  have hcontent : m'.msgContentLength = x.payload.length := by
    rw [hm', ← hlength]
    exact framed_length m newID x.text x.header.headerBlock.size he
  refine ⟨hparsed.msgBuffer, hparsed.msgRawBuffer, ?_, ?_, ?_, fun hne => ?_, hcontent, ?_⟩
  · rw [hm']
    simp only [Msg.framed, Msg.parsed, Msg.readFields, hvalue, fieldValue_msgID h,
      List.length_eq_zero_iff]
  · rw [hm']
    simp only [Msg.framed, Msg.parsed, Msg.readFields, hvalue, fieldValue_to h]
  · rw [hm']
    simp only [Msg.framed, Msg.parsed, Msg.readFields, hvalue, fieldValue_from h]
  · rw [hm']
    simp only [Msg.framed, Msg.parsed, Msg.readFields, hvalue, fieldValue_contentType h hne]
  · by_cases hnil : x.payload = []
    · rw [hnil] at hcontent ⊢
      unfold Msg.payloadText
      cases m'.payloadMem with
      | none => rfl
      | some p =>
        dsimp only
        rw [hcontent]
        rfl
    · have hne : parseLength x.text ≠ 0 := by
        rw [hlength]
        exact_mod_cast fun h => hnil (List.length_eq_zero_iff.mp h)
      have hpayload : m'.pPayload = .own (x.header.headerBlock.size+4) := by
        rw [hm']
        exact framed_payload m newID x.text x.header.headerBlock.size he hne
      obtain ⟨junk, hblock⟩ := hparsed.msgBuffer.pBuffer_eq
      have hsize := x.header.headerBlock.length_eq
      have hdrop : (x.text ++ 0 :: junk).drop (x.header.headerBlock.size+4) =
          x.payload ++ 0 :: junk := by
        rw [text_eq h, ← hsize, List.append_assoc, List.drop_left]
      have hoffset : ((x.header.headerBlock.size : ℤ)+4).toNat = x.header.headerBlock.size+4 := by
        omega
      unfold Msg.payloadText Msg.payloadMem
      rw [hpayload, hblock]
      dsimp only [Option.map_some]
      rw [hcontent, hoffset, hdrop, if_neg (by omega), Int.toNat_natCast, List.take_left]

/-- Dispatching a message of a connection changes its state only. -/
theorem Msg.dispatchMsg_tcp {m : Msg}
    (htype : m.msgConnectionType = .ibTcp ∨ m.msgConnectionType = .obTcp) (server : Bytes) :
    m.dispatchMsg server = { m with msgState := .pending } := by
  have hset : m.msgConnectionType ≠ .notSet := by
    rcases htype with h | h
    · rw [h]
      decide
    · rw [h]
      decide
  have hudp : m.msgConnectionType ≠ .obUdp := by
    rcases htype with h | h
    · rw [h]
      decide
    · rw [h]
      decide
  rw [Msg.dispatchMsg, if_neg hset, if_neg hudp]

theorem Msg.Carries.dispatchMsg {m : Msg} {x : OutboundMcp} {newID : Bytes}
    (h : m.Carries x newID) (htype : m.msgConnectionType = .ibTcp) (server : Bytes) :
    (m.dispatchMsg server).Carries x newID := by
  rw [Msg.dispatchMsg_tcp (.inl htype)]
  exact ⟨h.msgBuffer, h.msgRawBuffer, h.msgID, h.msgTo, h.msgFrom, h.msgContentType,
    h.msgContentLength, h.payloadText⟩

namespace InboundState

/-- Calls for the frames that lie in the buffer, one behind the other. -/
def processAll [Malloc] (s : InboundState) : List InboundEnv → Cxx InboundState
  | [] => pure s
  | env :: envs => do
    let (_, s) ← s.process env
    s.processAll envs

open OutboundMcp in
/-- A text at the front of the buffer is one frame. -/
theorem process_frame [Malloc] (s : InboundState) {env : InboundEnv} {x : OutboundMcp}
    (h : x.Regular)
    {r : Bytes} (hb : s.record.buffer.Holds (x.text ++ r)) (hm : env.pMessage.Sound) :
    ∃ rc t m, s.process env = .ok (rc, t) ∧ t.record.buffer.Holds r ∧
      t.dispatched = s.dispatched ++ [m.dispatchMsg env.server] ∧
      t.routingMap = s.routingMap.addRecord m.msgFrom m.sourceIP m.sourcePort s.record.socketfd ∧
      ParsedFrame (s.mcpRequest env.pMessage .mcp) env.parseID x.text x.header.headerBlock.size
        m := by
  have htext := text_eq h
  have happend : x.text ++ r = x.header.headerBlock.block ++ (x.payload ++ r) := by
    rw [htext, List.append_assoc]
  have hsize := x.header.headerBlock.length_eq
  have hlen := x.length_text_le
  have hp : strstr (x.text ++ r) crlfcrlf = some x.header.headerBlock.size := by
    rw [happend]
    exact x.header.headerBlock.strstr_block x.header.zero_notMem_block _
  have hframe := FieldHeader.frameAt_sized x.mcp_header (sized_header h)
    (by rw [← htext]; omega) r
  rw [← happend, ← htext] at hframe
  have hpn : x.header.headerBlock.size+4 ≤ x.text.length := by
    rw [htext, List.length_append]
    omega
  obtain ⟨h', m, b, hproc, hparsed, hb', -, -⟩ := s.process_mcp env hb hp hframe.1 hframe.2 hpn hm
    (Msg.Sound.fitsFrame hlen)
  rw [List.take_left] at hparsed
  rw [List.drop_left] at hb'
  exact ⟨_, _, m, hproc, hb', rfl, rfl, hparsed⟩

theorem ParsedFrame.msgConnectionType {m m' : Msg} {newID frame : Bytes} {p : ℕ}
    (h : ParsedFrame m newID frame p m') : m'.msgConnectionType = .ibTcp := by
  obtain ⟨e, -, hm'⟩ := h.fields
  rw [hm']
  rfl

/-- It is dispatched as one message. -/
theorem process_text [Malloc] (s : InboundState) {env : InboundEnv} {x : OutboundMcp}
    (h : x.Regular)
    {r : Bytes} (hb : s.record.buffer.Holds (x.text ++ r)) (hm : env.pMessage.Sound) :
    ∃ rc t m, s.process env = .ok (rc, t) ∧ t.record.buffer.Holds r ∧
      t.dispatched = s.dispatched ++ [m] ∧ m.Carries x env.parseID := by
  obtain ⟨rc, t, m, hproc, hrest, hm, -, hparsed⟩ := s.process_frame h hb hm
  exact ⟨rc, t, _, hproc, hrest, hm,
    (Msg.Carries.of_parsedFrame h hparsed).dispatchMsg hparsed.msgConnectionType _⟩

/-- The texts of a connection are taken one by one, whatever their number. -/
theorem processAll_texts [Malloc] (ys : List (OutboundMcp × InboundEnv))
    (hys : ∀ y ∈ ys, y.1.Regular ∧ y.2.pMessage.Sound) (s : InboundState)
    (hb : s.record.buffer.Holds (ys.map fun y => y.1.text).flatten) :
    ∃ t ms, s.processAll (ys.map Prod.snd) = .ok t ∧ t.record.buffer.Holds [] ∧
      t.dispatched = s.dispatched ++ ms ∧
      List.Forall₂ (fun y m => Msg.Carries m y.1 y.2.parseID) ys ms := by
  induction ys generalizing s with
  | nil => exact ⟨s, [], rfl, hb, (List.append_nil _).symm, .nil⟩
  | cons y ys ih =>
    obtain ⟨hregular, hsound⟩ := hys y List.mem_cons_self
    rw [List.map_cons, List.flatten_cons] at hb
    obtain ⟨rc, t, m, hproc, hrest, hm, hcarries⟩ := s.process_text hregular hb hsound
    obtain ⟨u, ms, hall, hend, hms, hcarry⟩ :=
      ih (fun y hy => hys y (List.mem_cons_of_mem _ hy)) t hrest
    refine ⟨u, m :: ms, ?_, hend, ?_, .cons hcarries hcarry⟩
    · rw [List.map_cons, processAll, hproc, ok_bind]
      exact hall
    · rw [hms, hm, List.append_assoc, List.singleton_append]

end InboundState

/-! ### Both sides -/

namespace OutboundMcp

/-- The response is one header up to its first CRLFCRLF and the payload behind that. -/
def Framed (x : OutboundMcp) : Prop :=
  ∃ header, x.text = header ++ crlfcrlf ++ x.payload ∧ firstOcc crlfcrlf x.text = some header.length

theorem framed_of_regular {x : OutboundMcp} (h : x.Regular) : x.Framed := by
  have htext := text_eq h
  refine ⟨joinLines x.header.lines, htext, ?_⟩
  rw [htext]
  exact firstOcc_append crlfcrlf_ne_nil x.header.headerBlock.firstOcc_eq _

/-- What a `TransmitMsg` prints is taken as it was meant, for any sequence of messages. -/
theorem transmitted_received [Malloc] (ys : List (OutboundMcp × InboundEnv))
    (hys : ∀ y ∈ ys, y.1.Regular ∧ y.2.pMessage.Sound) : (∀ y ∈ ys, y.1.Framed ∧
      ∃ b, y.1.handler.formatResponse y.1.env y.1.msg = .ok b ∧ b.Holds y.1.text) ∧
    ∀ s : InboundState, s.record.buffer.Holds (ys.map fun y => y.1.text).flatten →
      ∃ t ms, s.processAll (ys.map Prod.snd) = .ok t ∧ t.record.buffer.Holds [] ∧
        t.dispatched = s.dispatched ++ ms ∧
        List.Forall₂ (fun y m => Msg.Carries m y.1 y.2.parseID) ys ms :=
  ⟨fun y hy => ⟨framed_of_regular (hys y hy).1, y.1.formatResponse_text⟩,
    fun s hb => s.processAll_texts ys hys hb⟩

end OutboundMcp

/-! ### Messages without payload -/

/-- The texts of the message without payload are far below every size. -/
def Msg.Short (m : Msg) (elapsed : Bytes) : Prop :=
  (m.emptyReplyText elapsed).length < 2000 ∧ (m.requestHeader []).length < 2000

instance (m : Msg) (elapsed : Bytes) : Decidable (m.Short elapsed) :=
  inferInstanceAs (Decidable (_ ∧ _))

theorem Msg.Short.printable {m : Msg} {elapsed : Bytes} (h : m.Short elapsed)
    (hmcp : m.msgProtocolType = .mcp) (hlen : m.msgContentLength = 0) :
    ∃ text, m.Printable elapsed text := by
  obtain ⟨hreply, hrequest⟩ := h
  have hnot : ¬ 0 < m.msgContentLength := by omega
  have hown : m.ownText elapsed =
      some (if m.Replies then m.emptyReplyText elapsed else m.requestHeader []) := by
    unfold Msg.ownText
    rw [if_pos hmcp, if_pos hlen, if_neg hnot]
    exact (apply_ite some (m.Replies) (m.emptyReplyText elapsed) (m.requestHeader [])).symm
  have htotal : m.emptyReplyText elapsed = m.emptyReplyHeader elapsed ++
      ((if 0 < (cstr m.msgTo).length then headerField "To" m.msgTo else []) ++
      (headerField "From" m.msgFrom ++
      ((if 0 < (cstr m.msgCommand).length then headerField "Command" m.msgCommand ++ crlf
        else []) ++
      crlf))) := by
    simp only [Msg.emptyReplyText, List.append_assoc]
  rw [htotal, List.length_append, List.length_append, List.length_append, List.length_append]
    at hreply
  refine ⟨_, hown, ?_, fun hlong => ?_, fun _ _ => ⟨by omega, by omega, fun hpos => ?_⟩,
    fun _ hne => absurd hlen hne, fun _ hpos => absurd hpos hnot, fun _ _ => by omega⟩
  · split_ifs
    · rw [htotal, List.length_append, List.length_append, List.length_append, List.length_append]
      unfold intMax
      omega
    · unfold intMax
      omega
  · intro p _
    exact ⟨0, by rw [hlen]; rfl, Nat.zero_le _⟩
  · rw [if_pos hpos, List.length_append] at hreply
    omega

/-- A message without payload and addresses for a new handler. -/
def emptyOutbound (format : MsgFormat) (id command type : Bytes)
    (hformat : format = .req ∨ format = .res ∨ format = .notify)
    (hplain : Plain id ∧ Plain command ∧ Plain type ∧ 32 ∉ command ∧ command ≠ bytes "GET" ∧
      command ≠ bytes "POST")
    (hshort : Msg.Short
      { msgFormat := format, msgProtocolType := .mcp, msgID := id, msgCommand := command,
        msgContentType := type } quietEnv.elapsed.text) : OutboundMcp where
  handler := {}
  env := quietEnv
  msg :=
    { msgFormat := format, msgProtocolType := .mcp, msgID := id, msgCommand := command,
      msgContentType := type }
  payload := []
  response := ⟨[], .null⟩
  protocol := rfl
  format := hformat
  plain := ⟨hplain.1, (by decide : Plain []), (by decide : Plain []), hplain.2.2.1, hplain.2.1,
    hplain.2.2.2.1, hplain.2.2.2.2.1, hplain.2.2.2.2.2⟩
  contentLength := rfl
  payloadMem h := absurd rfl h
  printable := hshort.printable rfl rfl

/-- What a receiver with an empty buffer dispatches for the text of one message. -/
def OutboundMcp.received [Malloc] (x : OutboundMcp) : Cxx (List Msg) := do
  let (_, s) ← (connectionWith x.text).process plainEnv
  pure s.dispatched

/-- A reply to `PING` that still has its command. -/
def pingReply : OutboundMcp :=
  emptyOutbound .res (bytes "7") (bytes "PING") [] (by decide) (by decide) (by decide)

def zeroRequest : OutboundMcp :=
  emptyOutbound .req (bytes "0") (bytes "PING") (bytes "text/plain") (by decide) (by decide)
    (by decide)

def lengthRequest : OutboundMcp :=
  emptyOutbound .req (bytes "7") (bytes "Content-Length:5") [] (by decide) (by decide)
    (by decide)

theorem pingReply_length :
    (firstOcc crlfcrlf pingReply.text).map (·+6) = some pingReply.text.length := by
  decide

theorem zeroRequest_received :
    zeroRequest.received.map (·.map fun m => (m.msgID, m.msgContentType)) =
    .ok [(bytes "id1", [])] := by decide

theorem lengthRequest_received : lengthRequest.received.map (·.length) = .ok 0 := by
  decide

def helloMsg : Msg :=
  { msgFormat := .req
    msgProtocolType := .mcp
    msgID := bytes "7"
    msgCommand := bytes "PING"
    msgContentType := bytes "text/plain"
    msgContentLength := 2
    pPayload := .foreign (bytes "hi") }

theorem printable_helloMsg : helloMsg.Printable quietEnv.elapsed.text
    (helloMsg.requestHeader helloMsg.contentFields ++ bytes "hi") where
  own := by decide
  size := by decide
  payload _ p hp := by
    obtain rfl := Option.some.inj hp
    exact ⟨2, rfl, by decide⟩
  emptyReply h := absurd h (by decide)
  reply h := absurd h (by decide)
  request _ _ := by decide
  emptyRequest _ h := absurd (by decide) h

def helloRequest : OutboundMcp where
  handler := {}
  env := quietEnv
  msg := helloMsg
  payload := bytes "hi"
  response := ⟨[], .null⟩
  protocol := rfl
  format := .inl rfl
  plain := ⟨by decide, by decide, by decide, by decide, by decide, by decide, by decide, by decide⟩
  contentLength := rfl
  payloadMem _ := ⟨bytes "hi", rfl, List.prefix_rfl⟩
  printable := ⟨_, printable_helloMsg⟩

def helloReply : OutboundMcp :=
  emptyOutbound .res (bytes "7") [] [] (by decide) (by decide) (by decide)

theorem of_map_eq_ok {α β : Type} {x : Cxx α} {f : α → β} {b : β} (h : x.map f = .ok b) :
    ∃ a, x = .ok a ∧ f a = b := by
  cases x with
  | ok a => exact ⟨a, rfl, Except.ok.inj h⟩
  | error e => cases h

namespace OutboundMcp

/-- An empty line too many, a message that is never dispatched, an id that is replaced and a content
type that is not sent. -/
theorem transmitted_differs : ¬ (∀ x : OutboundMcp, x.Framed) ∧
    ¬ (∀ (x : OutboundMcp) (ms : List Msg), x.received = .ok ms → ms.length = 1) ∧
    ¬ (∀ (x : OutboundMcp) (ms : List Msg), x.received = .ok ms →
      ∀ m ∈ ms, m.msgID = x.msg.msgID) ∧
    ¬ ∀ (x : OutboundMcp) (ms : List Msg), x.received = .ok ms →
      ∀ m ∈ ms, m.msgContentType = x.msg.msgContentType := by
  obtain ⟨ms, hms, hmap⟩ := of_map_eq_ok zeroRequest_received
  obtain ⟨m, rfl, hm⟩ := List.map_eq_singleton_iff.mp hmap
  obtain ⟨hid, htype⟩ := Prod.mk.inj hm
  refine ⟨fun h => ?_, fun h => ?_, fun h => ?_, fun h => ?_⟩
  · obtain ⟨header, htext, hocc⟩ := h pingReply
    have hlen := pingReply_length
    have hpayload : pingReply.payload = [] := rfl
    have hend : crlfcrlf.length = 4 := rfl
    rw [hocc, Option.map_some, htext, hpayload, List.append_nil, List.length_append, hend] at hlen
    exact absurd (Option.some.inj hlen) (by omega)
  · obtain ⟨ms, hms, hlen⟩ := of_map_eq_ok lengthRequest_received
    exact absurd (hlen.symm.trans (h _ _ hms)) (by decide)
  · have heq := h _ _ hms m (List.mem_singleton_self m)
    exact absurd (hid.symm.trans heq) (by decide)
  · have heq := h _ _ hms m (List.mem_singleton_self m)
    exact absurd (htype.symm.trans heq) (by decide)

/-- A request with a payload, and the reply to it without one. -/
theorem transmitted_received_hello : ∃ t ms,
    (connectionWith (helloRequest.text ++ helloReply.text)).processAll [plainEnv, plainEnv] =
      .ok t ∧
      t.dispatched = ms ∧
      List.Forall₂ (fun y m => Msg.Carries m y.1 y.2.parseID)
        [(helloRequest, plainEnv), (helloReply, plainEnv)] ms := by
  have hys : ∀ y ∈ [(helloRequest, plainEnv), (helloReply, plainEnv)],
      y.1.Regular ∧ y.2.pMessage.Sound := by
    intro y hy
    rcases List.mem_cons.mp hy with rfl | hy
    · exact ⟨fun h => absurd h (by decide), Msg.sound_default⟩
    · obtain rfl := List.mem_singleton.mp hy
      exact ⟨fun _ => rfl, Msg.sound_default⟩
  have hlen : ((helloRequest.text ++ helloReply.text).length : ℤ) < intMax := by decide +kernel
  have hholds := holds_connectionWith hlen
  obtain ⟨-, hreceived⟩ := transmitted_received _ hys
  obtain ⟨t, ms, hproc, -, hms, hcarry⟩ :=
    hreceived (connectionWith (helloRequest.text ++ helloReply.text)) (by
      rw [List.map_cons, List.map_cons, List.map_nil, List.flatten_cons, List.flatten_cons,
        List.flatten_nil, List.append_nil]
      exact hholds)
  exact ⟨t, ms, hproc, hms, hcarry⟩

end OutboundMcp
end MsgCourier
