import MsgCourier.Framing
import MsgCourier.MsgContent

/-! Taking frames out of a connection buffer, as operations on the bytes in it. -/
namespace MsgCourier
open ListSearch CText

/-- The two buffers of a message hold something; every message of the pool is such a message. -/
structure Msg.Sound (m : Msg) : Prop where
  msgBuffer : ∃ c, m.msgBuffer.Holds c
  msgRawBuffer : ∃ c, m.msgRawBuffer.Holds c

theorem Msg.sound_default : ({} : Msg).Sound :=
  ⟨⟨[], Buffer.Holds.null⟩, ⟨[], Buffer.Holds.null⟩⟩

theorem Msg.Sound.reuse {m : Msg} (hm : m.Sound) (newID : Bytes) (now : ℤ) :
    (m.reuse newID now).Sound ∧ (m.reuse newID now).msgBuffer.Holds [] := by
  obtain ⟨⟨c, hc⟩, ⟨c', hc'⟩⟩ := hm
  exact ⟨⟨⟨[], hc.reset⟩, ⟨[], hc'.reset⟩⟩, hc.reset⟩

/-- Room for a content of `n` bytes in both buffers of a message. -/
def Msg.FitsFrame (m : Msg) (n : ℤ) : Prop :=
  m.msgBuffer.reset.Fits n ∧ m.msgRawBuffer.reset.Fits n

theorem Msg.Sound.fitsFrame {m : Msg} {n : ℤ} (hn : n+8 ≤ intMax) : m.FitsFrame n :=
  ⟨Or.inr (by simpa [Buffer.reset] using hn), Or.inr (by simpa [Buffer.reset] using hn)⟩

namespace Msg

/-- The message of `SetContentPayload` and `Parse` for a frame with its header end at `p`. -/
def framed (m : Msg) (ct : MsgConnectionType) (ms : MsgFormat) (newID frame : Bytes) (p : ℕ)
    (x : HeaderExtract) : Msg :=
  { m with pPayload := .own 0, msgContentLength := frame.length }.parsed ct ms newID frame p x

theorem parse_of_no_header [Malloc] (m : Msg) (ct : MsgConnectionType) (ms : MsgFormat)
    (newID : Bytes) {c : Bytes} (hs : m.msgBuffer.Sealed c) (hp : firstOcc crlfcrlf c = none)
    (r : ℤ × Msg) : m.parse ct ms newID ≠ .ok r := by
  obtain ⟨junk, hblock⟩ := hs.pBuffer_eq
  have hend := hs.binaryFind crlfcrlf_ne_nil (by decide)
  rw [hp, Option.elim_none] at hend
  intro hok
  rw [parse, logAll_eq_ok, bind_eq_ok] at hok
  obtain ⟨rb, _, hok⟩ := hok
  simp only [hblock, bind_eq_ok, hend] at hok
  obtain ⟨line, _, hok⟩ := hok
  rw [if_pos trivial] at hok
  exact absurd hok (by simp)

/-- `Parse` of an empty content never returns. -/
theorem parse_of_empty [Malloc] (m : Msg) (ct : MsgConnectionType) (ms : MsgFormat) (newID : Bytes)
    (ht : m.msgBuffer.tail = 0) (r : ℤ × Msg) : m.parse ct ms newID ≠ .ok r := by
  have hfind (pat : Bytes) : m.msgBuffer.binaryFind 0 pat = -1 := if_pos (Or.inl ht)
  intro hok
  rw [parse, logAll_eq_ok, bind_eq_ok] at hok
  obtain ⟨rb, _, hok⟩ := hok
  cases hblock : m.msgBuffer.pBuffer with
  | none => simp [hblock] at hok
  | some mem => simp [hblock, hfind, readStatusLine, assign] at hok

/-- A `Parse` that returns had room for its copy of the frame. -/
theorem fits_of_parse [Malloc] (m : Msg) (ct : MsgConnectionType) (ms : MsgFormat) (newID : Bytes)
    {c raw : Bytes} (hs : m.msgBuffer.Sealed c) (hraw : m.msgRawBuffer.Holds raw) (hc : c ≠ [])
    {r : ℤ × Msg} (hok : m.parse ct ms newID = .ok r) : m.msgRawBuffer.reset.Fits c.length := by
  obtain ⟨junk, hblock⟩ := hs.pBuffer_eq
  rw [parse, logAll_eq_ok, bind_eq_ok, hblock, hs.holds.tail_eq] at hok
  obtain ⟨rb, hrep, _⟩ := hok
  exact hraw.fits_of_replaceWith (List.length_pos_iff.mpr hc)
    (by simp only [List.length_append]; omega) hs.holds.length_lt.le hrep

end Msg

namespace InboundState

/-- A frame of `n` bytes with a complete header is copied, removed and parsed. -/
theorem takeFrame_sealed [Malloc] (s : InboundState) (m : Msg) (newID : Bytes) {c : Bytes} {n p : ℕ}
    (hb : s.record.buffer.Sealed c) (hm : m.Sound) (hsize : s.handler.msgSize = n)
    (hn : n ≤ c.length) (hp : firstOcc crlfcrlf (c.take n) = some p) (hfit : m.FitsFrame n) :
    ∃ mb rb x b, s.takeFrame m newID = .ok (0,
        { m.framed .ibTcp .req newID (c.take n) p x with msgBuffer := mb, msgRawBuffer := rb }, b) ∧
      mb.Sealed (c.take n) ∧ rb.Sealed (c.take n) ∧ b.Holds (c.drop n) ∧
      x.params = headerFields (c.take n) := by
  obtain ⟨old, hold⟩ := hm.msgBuffer
  obtain ⟨raw, hraw⟩ := hm.msgRawBuffer
  have hlen : (c.take n).length = n := by simp [hn]
  have hple := firstOcc_le _ hp
  simp only [crlfcrlf, List.length_cons, List.length_nil, hlen] at hple
  obtain ⟨mb, hset, hmb⟩ := m.setContentPayload_sealed hold hb (by omega) hn hfit.1
  obtain ⟨b, hrem, hbc⟩ := hb.holds.remove (n := n) (by omega) hn
  obtain ⟨mb', rb, x, hparse, hmb', hrb, hx⟩ := Msg.parse_sealed
    { m with msgBuffer := mb, pPayload := .own 0, msgContentLength := n } .ibTcp .req newID hmb hraw
    (by rw [hlen]; exact hfit.2) hp
  refine ⟨mb', rb, x, b, ?_, hmb', hrb, hbc, hx⟩
  simp only [takeFrame, hsize, hset, ok_bind, hrem, hparse, pure_eq_ok, Msg.framed, hlen]
  rfl

/-- Taking a frame returns only for a frame that lies in the buffer and has its whole header. -/
theorem frame_of_takeFrame [Malloc] (s : InboundState) (m : Msg) (newID : Bytes) {c : Bytes}
    (hb : s.record.buffer.Sealed c) (hm : m.Sound) (hc : c ≠ [])
    (hn : s.handler.msgSize ≤ c.length) (hmin : -2147483648 ≤ s.handler.msgSize)
    {r : ℤ × Msg × Buffer} (hok : s.takeFrame m newID = .ok r) :
    ∃ n p : ℕ, s.handler.msgSize = n ∧ firstOcc crlfcrlf (c.take n) = some p ∧ m.FitsFrame n := by
  obtain ⟨old, hold⟩ := hm.msgBuffer
  obtain ⟨raw, hraw⟩ := hm.msgRawBuffer
  have hlt := hb.holds.length_lt
  simp only [takeFrame, bind_eq_ok] at hok
  obtain ⟨m₁, hset, ⟨rc, b⟩, hrem, ⟨rc', m₂⟩, hparse, _⟩ := hok
  rcases lt_trichotomy s.handler.msgSize 0 with hneg | hzero | hpos
  · -- a negative size makes `Remove` read in front of the block
    rw [hb.remove_negative hc hneg hmin] at hrem
    exact absurd hrem (by simp)
  · -- an empty frame leaves the message without content
    obtain ⟨junk, hblock⟩ := hb.pBuffer_eq
    have hrep : m.msgBuffer.replaceWith (some (c ++ 0 :: junk)) 0 = .ok (0, m.msgBuffer.reset) :=
      rfl
    rw [Msg.setContentPayload, hblock, hzero, hrep, ok_bind] at hset
    simp only [pure_eq_ok, Except.ok.injEq] at hset
    have htail : m₁.msgBuffer.tail = 0 := by
      rw [← hset]
      rfl
    exact absurd hparse (m₁.parse_of_empty _ _ _ htail _)
  · obtain ⟨n, hn'⟩ : ∃ n : ℕ, s.handler.msgSize = n := ⟨s.handler.msgSize.toNat, by omega⟩
    rw [hn'] at hset hn hpos
    have hfit : m.msgBuffer.reset.Fits n := by
      obtain ⟨junk, hblock⟩ := hb.pBuffer_eq
      rw [Msg.setContentPayload, hblock, bind_eq_ok] at hset
      obtain ⟨r', hrep, _⟩ := hset
      exact hold.fits_of_replaceWith (by omega) (by simp only [List.length_append]; omega)
        (by omega) hrep
    obtain ⟨mb, hset', hmb⟩ := m.setContentPayload_sealed hold hb (by omega) (by omega) hfit
    rw [hset', Except.ok.injEq] at hset
    subst hset
    cases hp : firstOcc crlfcrlf (c.take n) with
    | none => exact absurd hparse (Msg.parse_of_no_header _ _ _ _ hmb hp _)
    | some p =>
      have hne : c.take n ≠ [] := by
        have hlen := List.length_pos_iff.mpr hc
        rw [ne_eq, List.take_eq_nil_iff, ← List.length_eq_zero_iff]
        omega
      have hfr := Msg.fits_of_parse
        { m with msgBuffer := mb, pPayload := .own 0, msgContentLength := n } _ _ _ hmb hraw hne hparse
      rw [List.length_take, min_eq_left (by omega)] at hfr
      exact ⟨n, p, hn', hp, hfit, hfr⟩

/-- What the frame leaves in a message whose other fields are those of `m`. -/
structure ParsedFrame (m : Msg) (newID frame : Bytes) (p : ℕ) (m' : Msg) : Prop where
  firstOcc_eq : firstOcc crlfcrlf frame = some p
  msgBuffer : m'.msgBuffer.Sealed frame
  msgRawBuffer : m'.msgRawBuffer.Sealed frame
  fields : ∃ x, x.params = headerFields frame ∧
    m' = { m.framed .ibTcp .req newID frame p x with
      msgBuffer := m'.msgBuffer, msgRawBuffer := m'.msgRawBuffer }

theorem takeFrame_ok [Malloc] (s : InboundState) (m : Msg) (newID : Bytes) {c : Bytes} {n p : ℕ}
    (hb : s.record.buffer.Sealed c) (hm : m.Sound) (hsize : s.handler.msgSize = n)
    (hn : n ≤ c.length) (hp : firstOcc crlfcrlf (c.take n) = some p) (hfit : m.FitsFrame n) :
    ∃ m' b, s.takeFrame m newID = .ok (0, m', b) ∧ ParsedFrame m newID (c.take n) p m' ∧
      b.Holds (c.drop n) := by
  obtain ⟨mb, rb, x, b, hok, hmb, hrb, hb', hx⟩ :=
    s.takeFrame_sealed m newID hb hm hsize hn hp hfit
  exact ⟨_, b, hok, ⟨hp, hmb, hrb, x, hx, rfl⟩, hb'⟩

/-- The message `ProcessHTTP` dispatches, from the parsed one. -/
def httpReply (s : InboundState) (env : InboundEnv) (m : Msg) : Msg :=
  { m with
    msgID := env.updateID
    msgPriority := priorityHigh
    msgNotifyActionType := .no
    msgReplyActionType := .wait
    msgArrivalPort := s.record.arrivalPort }.dispatchMsg env.server

theorem processHTTP_ok_iff [Malloc] (s : InboundState) (env : InboundEnv) (pt : ProtocolType)
    (r : ℤ × InboundState) : s.processHTTP env pt = .ok r ↔
      ∃ rc m b, s.takeFrame (s.httpRequest env.pMessage pt) env.parseID = .ok (rc, m, b) ∧
        r = (handlerEndTask, { s with
          handler := { s.handler with ipaddr := s.record.socketAddr }
          record := { s.record with buffer := b }
          dispatched := s.dispatched ++ [s.httpReply env m] }) := by
  rw [processHTTP, bind_eq_ok]
  constructor
  · rintro ⟨⟨rc, m, b⟩, hok, hr⟩
    exact ⟨rc, m, b, hok, (Except.ok.inj hr).symm⟩
  · rintro ⟨rc, m, b, hok, rfl⟩
    exact ⟨(rc, m, b), hok, rfl⟩

theorem processMCP_ok_iff [Malloc] (s : InboundState) (env : InboundEnv) (pt : ProtocolType)
    (r : ℤ × InboundState) : s.processMCP env pt = .ok r ↔
      ∃ m b, s.takeFrame (s.mcpRequest env.pMessage pt) env.parseID = .ok (0, m, b) ∧
        r = (handlerEndTask, { s with
          handler := { s.handler with ipaddr := s.record.socketAddr }
          record := { s.record with buffer := b }
          routingMap := s.routingMap.addRecord m.msgFrom m.sourceIP m.sourcePort
            s.record.socketfd
          dispatched := s.dispatched ++ [m.dispatchMsg env.server] }) := by
  rw [processMCP, bind_eq_ok]
  constructor
  · rintro ⟨⟨rc, m, b⟩, hok, hr⟩
    dsimp only at hr
    split_ifs at hr with hrc
    rw [hrc] at hok
    exact ⟨m, b, hok, (Except.ok.inj hr).symm⟩
  · rintro ⟨m, b, hok, rfl⟩
    exact ⟨(0, m, b), hok, rfl⟩

theorem sound_httpRequest (s : InboundState) {m : Msg} (hm : m.Sound) (pt : ProtocolType) :
    (s.httpRequest m pt).Sound := by
  obtain ⟨hb, hr⟩ := hm
  unfold httpRequest
  split_ifs <;> exact ⟨hb, hr⟩

theorem sound_mcpRequest (s : InboundState) {m : Msg} (hm : m.Sound) (pt : ProtocolType) :
    (s.mcpRequest m pt).Sound := by
  obtain ⟨hb, hr⟩ := hm
  unfold mcpRequest
  split_ifs <;> exact ⟨hb, hr⟩

theorem fits_httpRequest (s : InboundState) {m : Msg} {n : ℤ} (pt : ProtocolType) :
    (s.httpRequest m pt).FitsFrame n ↔ m.FitsFrame n := by
  unfold httpRequest
  split_ifs <;> exact Iff.rfl

theorem fits_mcpRequest (s : InboundState) {m : Msg} {n : ℤ} (pt : ProtocolType) :
    (s.mcpRequest m pt).FitsFrame n ↔ m.FitsFrame n := by
  unfold mcpRequest
  split_ifs <;> exact Iff.rfl

/-- The state after the framing: handler and buffer are replaced. -/
def framedState (s : InboundState) (h : ConnectionHandlerInbound) (b : Buffer) : InboundState :=
  { s with handler := h, record := { s.record with buffer := b } }

/-- An accepted frame that lies in the buffer is dispatched as one message and removed. -/
theorem process_http [Malloc] (s : InboundState) (env : InboundEnv) {c : Bytes} {p n : ℕ}
    (hb : s.record.buffer.Holds c) (hp : strstr c crlfcrlf = some p)
    (hf : (frameAt c p).protocol = .httpGet ∨ (frameAt c p).protocol = .httpPost)
    (hn : (frameAt c p).msgSize = n) (hpn : p+4 ≤ n) (hm : env.pMessage.Sound)
    (hfit : env.pMessage.FitsFrame n) :
    ∃ h m b, s.process env = .ok (handlerEndTask, { s.framedState h b with
        dispatched := s.dispatched ++ [s.httpReply env m] }) ∧
      ParsedFrame (s.httpRequest env.pMessage (frameAt c p).protocol) env.parseID (c.take n) p m ∧
      b.Holds (c.drop n) ∧ h.bCloseConnection = s.handler.bCloseConnection ∧ h.msgSize = n := by
  have hle := strstr_le hp
  simp only [crlfcrlf, List.length_cons, List.length_nil] at hle
  have hframed : (frameAt c p).protocol.Framed := by
    rcases hf with h | h <;> rw [h]
    · exact Or.inl rfl
    · exact Or.inr (Or.inl rfl)
  obtain ⟨hmax, _⟩ := frameAt_size_le (p := p) (by omega) (by omega) hframed
  have hq : firstOcc crlfcrlf (c.take n) = some p :=
    firstOcc_take crlfcrlf_ne_nil (firstOcc_of_strstr crlfcrlf_ne_nil hp)
      (by simp only [crlfcrlf, List.length_cons, List.length_nil]; omega)
  obtain ⟨b', h', ha, hs, _, hsize, hclose⟩ := analyzeProtocol_some s.handler hb hp
  obtain ⟨m, b, htake, hparsed, hb'⟩ := (s.framedState h' b').takeFrame_ok
    (s.httpRequest env.pMessage (frameAt c p).protocol) env.parseID hs
    (s.sound_httpRequest hm _) (hsize.trans hn) (by omega) hq ((s.fits_httpRequest _).mpr hfit)
  refine ⟨{ h' with ipaddr := s.record.socketAddr }, m, b, ?_, hparsed, hb', hclose,
    hsize.trans hn⟩
  rw [process, ha, ok_bind]
  have hrun := (processHTTP_ok_iff (s.framedState h' b') env (frameAt c p).protocol _).mpr
    ⟨0, m, b, htake, rfl⟩
  rcases hf with h | h <;> rw [h] at hrun ⊢ <;> exact hrun

theorem process_mcp [Malloc] (s : InboundState) (env : InboundEnv) {c : Bytes} {p n : ℕ}
    (hb : s.record.buffer.Holds c) (hp : strstr c crlfcrlf = some p)
    (hf : (frameAt c p).protocol = .mcp) (hn : (frameAt c p).msgSize = n) (hpn : p+4 ≤ n)
    (hm : env.pMessage.Sound) (hfit : env.pMessage.FitsFrame n) :
    ∃ h m b, s.process env = .ok (handlerEndTask, { s.framedState h b with
        routingMap := s.routingMap.addRecord m.msgFrom m.sourceIP m.sourcePort s.record.socketfd
        dispatched := s.dispatched ++ [m.dispatchMsg env.server] }) ∧
      ParsedFrame (s.mcpRequest env.pMessage .mcp) env.parseID (c.take n) p m ∧
      b.Holds (c.drop n) ∧ h.bCloseConnection = s.handler.bCloseConnection ∧ h.msgSize = n := by
  have hle := strstr_le hp
  simp only [crlfcrlf, List.length_cons, List.length_nil] at hle
  have hframed : (frameAt c p).protocol.Framed := Or.inr (Or.inr hf)
  obtain ⟨hmax, _⟩ := frameAt_size_le (p := p) (by omega) (by omega) hframed
  have hq : firstOcc crlfcrlf (c.take n) = some p :=
    firstOcc_take crlfcrlf_ne_nil (firstOcc_of_strstr crlfcrlf_ne_nil hp)
      (by simp only [crlfcrlf, List.length_cons, List.length_nil]; omega)
  obtain ⟨b', h', ha, hs, _, hsize, hclose⟩ := analyzeProtocol_some s.handler hb hp
  obtain ⟨m, b, htake, hparsed, hb'⟩ := (s.framedState h' b').takeFrame_ok
    (s.mcpRequest env.pMessage .mcp) env.parseID hs
    (s.sound_mcpRequest hm _) (hsize.trans hn) (by omega) hq ((s.fits_mcpRequest _).mpr hfit)
  refine ⟨{ h' with ipaddr := s.record.socketAddr }, m, b, ?_, hparsed, hb', hclose,
    hsize.trans hn⟩
  rw [process, ha, ok_bind, hf]
  exact (processMCP_ok_iff (s.framedState h' b') env .mcp _).mpr ⟨m, b, htake, rfl⟩

/-- What a returning call did with an accepted frame: which request it took the frame into, and
what of the message it dispatched comes from there. -/
structure TookFrame [Malloc] (s : InboundState) (env : InboundEnv) (c : Bytes) (p : ℕ)
    (r : InboundState) (s₁ : InboundState) (request m m' : Msg) (b : Buffer) : Prop where
  buffer : s₁.record.buffer.Sealed c
  msgSize : s₁.handler.msgSize = (frameAt c p).msgSize
  sound : request.Sound
  fits : ∀ n, request.FitsFrame n ↔ env.pMessage.FitsFrame n
  takeFrame : ∃ rc, s₁.takeFrame request env.parseID = .ok (rc, m, b)
  dispatched : r.dispatched = s.dispatched ++ [m']
  handler : r.handler.msgSize = s₁.handler.msgSize
  msgContentLength : m'.msgContentLength = m.msgContentLength
  pPayload : m'.pPayload = m.pPayload
  msgBuffer : m'.msgBuffer = m.msgBuffer

theorem tookFrame_of_process [Malloc] (s : InboundState) (env : InboundEnv) {c : Bytes} {p : ℕ}
    (hb : s.record.buffer.Holds c) (hp : strstr c crlfcrlf = some p)
    (hf : (frameAt c p).protocol.Framed) (hm : env.pMessage.Sound) {r : ℤ × InboundState}
    (hok : s.process env = .ok r) :
    ∃ s₁ request m m' b, s.TookFrame env c p r.2 s₁ request m m' b := by
  obtain ⟨b', h', ha, hs, _, hsize, _⟩ := analyzeProtocol_some s.handler hb hp
  rw [process, ha, ok_bind] at hok
  have http (pt : ProtocolType) (hok : (s.framedState h' b').processHTTP env pt = .ok r) :
      ∃ s₁ request m m' b, s.TookFrame env c p r.2 s₁ request m m' b := by
    obtain ⟨rc, m, b, htake, rfl⟩ := (processHTTP_ok_iff _ _ _ _).mp hok
    exact ⟨s.framedState h' b', _, m, _, b, hs, hsize, sound_httpRequest _ hm _,
      fun n => fits_httpRequest _ _, ⟨rc, htake⟩, rfl, rfl, by simp [httpReply],
      by simp [httpReply], by simp [httpReply]⟩
  rcases hf with hget | hpost | hmcp
  · rw [hget] at hok
    exact http _ hok
  · rw [hpost] at hok
    exact http _ hok
  · rw [hmcp] at hok
    obtain ⟨m, b, htake, rfl⟩ := (processMCP_ok_iff (s.framedState h' b') env .mcp _).mp hok
    exact ⟨s.framedState h' b', _, m, _, b, hs, hsize, sound_mcpRequest _ hm _,
      fun n => fits_mcpRequest _ _, ⟨0, htake⟩, rfl, rfl, by simp, by simp, by simp⟩

/-- A returning call had room for the frame it took. -/
theorem TookFrame.fitsFrame [Malloc] {s : InboundState} {env : InboundEnv} {c : Bytes} {p n : ℕ}
    {r s₁ : InboundState} {request m m' : Msg} {b : Buffer}
    (h : s.TookFrame env c p r s₁ request m m' b) (hp : strstr c crlfcrlf = some p)
    (hf : (frameAt c p).protocol.Framed) (hn : (frameAt c p).msgSize = n) :
    env.pMessage.FitsFrame n := by
  have hle := strstr_le hp
  simp only [crlfcrlf, List.length_cons, List.length_nil] at hle
  have hne : c ≠ [] := by
    rintro rfl
    simp at hle
  obtain ⟨hmax, hmin⟩ := frameAt_size_le (p := p) (by omega) (by omega) hf
  rw [← h.msgSize] at hmax hmin
  obtain ⟨rc, htake⟩ := h.takeFrame
  obtain ⟨k, q, hk, _, hfit⟩ := s₁.frame_of_takeFrame request env.parseID h.buffer h.sound hne
    hmax hmin htake
  have hkn : k = n := by
    have := (hk.symm.trans h.msgSize).trans hn
    exact_mod_cast this
  rw [hkn] at hfit
  exact (h.fits n).mp hfit

end InboundState

/-- A connection from `10.0.0.7` whose buffer holds `c`. -/
def connectionWith (c : Bytes) : InboundState :=
  { record := ⟨5, bytes "10.0.0.7", 3400, 0, .terminated c⟩ }

/-- A new message and fixed ids. -/
def plainEnv : InboundEnv := ⟨{}, bytes "id1", bytes "id2", 1000, bytes "mc@10.0.0.1"⟩

theorem holds_connectionWith {c : Bytes} (hc : (c.length : ℤ) < intMax) :
    (connectionWith c).record.buffer.Holds c := Buffer.holds_terminated hc

end MsgCourier
