import MsgCourier.DatagramRun

/-! What a recycled message still has of its earlier uses. -/
namespace MsgCourier
open ListSearch CText ZeroFill

/-! ### The getters -/

/-- What the getters return. Texts are C strings, the payload is a pointer, and of the raw buffer a
caller sees the bytes its size gives, if it has any memory at all. -/
structure Getters where
  rawBuffer : Option Bytes
  rawBufferSize : ℤ
  tcpSocketHandle : ℤ
  udpSocketHandle : ℤ
  msgID : Bytes
  msgState : MsgState
  sendRetryDelay : ℤ
  sendRetryCount : ℤ
  connectionType : MsgConnectionType
  protocolType : MsgProtocol
  format : MsgFormat
  responseCode : ℤ
  command : Bytes
  msgTo : Bytes
  msgFrom : Bytes
  subject : Bytes
  options : Bytes
  replyAction : MsgReplyAction
  notifyAction : MsgNotifyAction
  statusLine : Bytes
  contentType : Bytes
  contentLength : ℤ
  contentPayload : Payload
  md5 : Bytes
  crc32 : Bytes
  sourceIP : Bytes
  sourcePort : ℤ
  msgPriority : ℤ
  headerSize : ℤ
  arrivalPort : ℤ
  headerFieldValue : Bytes → Bytes
  msgInUseTS : ℤ
  msgLastRetryTS : ℤ
  remoteHandler : Option ℕ
  isKeepAlive : Bool

namespace Msg

def getters (m : Msg) : Getters where
  rawBuffer := m.msgRawBuffer.pBuffer.map (·.take m.msgRawBuffer.tail.toNat)
  rawBufferSize := m.msgRawBuffer.tail
  tcpSocketHandle := m.tcpSocketHandle
  udpSocketHandle := m.udpSocketHandle
  msgID := cstr m.msgID
  msgState := m.msgState
  sendRetryDelay := m.msgSendRetryDelay
  sendRetryCount := m.msgSendRetryCount
  connectionType := m.msgConnectionType
  protocolType := m.msgProtocolType
  format := m.msgFormat
  responseCode := m.msgResponseCode
  command := cstr m.msgCommand
  msgTo := cstr m.msgTo
  msgFrom := cstr m.msgFrom
  subject := cstr m.msgSubject
  options := cstr m.msgOptions
  replyAction := m.msgReplyActionType
  notifyAction := m.msgNotifyActionType
  statusLine := cstr m.msgStatusLine
  contentType := cstr m.msgContentType
  contentLength := m.msgContentLength
  contentPayload := m.pPayload
  md5 := cstr m.msgMD5
  crc32 := cstr m.msgCRC32
  sourceIP := cstr m.sourceIP
  sourcePort := m.sourcePort
  msgPriority := m.msgPriority
  headerSize := m.msgHeaderSize
  arrivalPort := m.msgArrivalPort
  headerFieldValue name := cstr (m.headerExtract.getValue name)
  msgInUseTS := m.msgInUseTS
  msgLastRetryTS := m.msgLastRetryTS
  remoteHandler := m.msgService
  isKeepAlive := m.keepAlive

/-- A message right after its constructor. -/
def constructed (newID : Bytes) (now : ℤ) : Msg := ({} : Msg).resetMsg newID now

end Msg

/-! ### The uses of a message -/

/-- What a message can go through. Setters change neither the extractor nor the buffers, and there
is none for the MD5 text; through `GetBuffer` anything is written to the buffer; a `Parse` may also
throw behind its copy to the raw buffer, which is never freed. -/
inductive History [Malloc] : Msg → Prop
  | constructed (newID : Bytes) (now : ℤ) : History (Msg.constructed newID now)
  | set {m m' : Msg} : History m → m'.headerExtract = m.headerExtract → m'.msgMD5 = m.msgMD5 →
      m'.msgBuffer = m.msgBuffer → m'.msgRawBuffer = m.msgRawBuffer → History m'
  | setContentPayload {m m' : Msg} {pBuffer : Option Bytes} {n : ℤ} : History m →
      m.setContentPayload pBuffer n = .ok m' → History m'
  | buffer {m : Msg} {b : Buffer} {c : Bytes} : History m → b.Holds c →
      History { m with msgBuffer := b }
  | parse {m : Msg} {ct : MsgConnectionType} {ms : MsgFormat} {newID : Bytes} {r : ℤ × Msg} :
      History m → m.parse ct ms newID = .ok r → History r.2
  | rawBuffer {m : Msg} {b : Buffer} {c : Bytes} : History m → b.Holds c →
      (b.pBuffer = none → m.msgRawBuffer.pBuffer = none) → History { m with msgRawBuffer := b }
  | reset {m : Msg} (newID : Bytes) (now : ℤ) : History m → History (m.resetMsg newID now)

/-- Usable buffers, no MD5 text, and no header fields before the first copy to the raw buffer. -/
structure Msg.Used (m : Msg) : Prop where
  sound : m.Sound
  md5 : m.msgMD5 = []
  params : m.msgRawBuffer.pBuffer = none → m.headerExtract.params = ∅

namespace Buffer

theorem Holds.eq_of_none {b : Buffer} {c : Bytes} (h : b.Holds c) (hb : b.pBuffer = none) :
    b = {} := by
  cases h with
  | null => rfl
  | block c junk _ _ => cases hb

/-- Whatever is copied into a buffer, it holds something then. -/
theorem Holds.replaceWith_any [Malloc] {b : Buffer} {c : Bytes} (h : b.Holds c)
    {pData : Option Bytes}
    {n : ℤ} {r : ℤ × Buffer} (hr : b.replaceWith pData n = .ok r) : ∃ c', r.2.Holds c' := by
  cases pData with
  | none => exact ⟨[], Except.ok.inj hr ▸ h.reset⟩
  | some p =>
    have harg := hr
    unfold Buffer.replaceWith at harg
    obtain ⟨k, hk, _⟩ := bind_eq_ok.mp harg
    obtain ⟨i, _, _, hi⟩ := h.replaceWith_inv hk hr
    exact ⟨_, hi⟩

end Buffer

namespace History

variable {m : Msg}

theorem used [Malloc] (h : History m) : m.Used := by
  induction h with
  | constructed newID now =>
    exact ⟨⟨⟨[], Buffer.Holds.null⟩, ⟨[], Buffer.Holds.null⟩⟩, rfl, fun _ => rfl⟩
  | set _ hextract hmd5 hbuffer hraw ih =>
    refine ⟨⟨hbuffer ▸ ih.sound.msgBuffer, hraw ▸ ih.sound.msgRawBuffer⟩, hmd5.trans ih.md5, ?_⟩
    rw [hraw, hextract]
    exact ih.params
  | setContentPayload _ hok ih =>
    obtain ⟨c, hc⟩ := ih.sound.msgBuffer
    unfold Msg.setContentPayload at hok
    obtain ⟨r, hr, hm⟩ := bind_eq_ok.mp hok
    rw [← Except.ok.inj hm]
    exact ⟨⟨hc.replaceWith_any hr, ih.sound.msgRawBuffer⟩, ih.md5, ih.params⟩
  | buffer _ hb ih => exact ⟨⟨⟨_, hb⟩, ih.sound.msgRawBuffer⟩, ih.md5, ih.params⟩
  | @parse m ct ms newID r _ hok ih =>
    obtain ⟨c, hc⟩ := ih.sound.msgBuffer
    obtain ⟨_, hne, hbuffer, hraw⟩ := parse_content hc ih.sound.msgRawBuffer hok
    refine ⟨⟨⟨c, hbuffer⟩, ⟨c, hraw⟩⟩, ?_, ?_⟩
    · obtain ⟨status, command, x, b, copy, i, rc, _, rfl⟩ := Msg.parse_inv hok
      cases ct <;> exact ih.md5
    · intro hnone
      exact absurd (hraw.eq_of_none hnone ▸ hraw) fun h => hne (h.unique Buffer.Holds.null)
  | rawBuffer _ hb halloc ih =>
    exact ⟨⟨ih.sound.msgBuffer, ⟨_, hb⟩⟩, ih.md5, fun hnone => ih.params (halloc hnone)⟩
  | reset newID now _ ih =>
    obtain ⟨c, hc⟩ := ih.sound.msgBuffer
    obtain ⟨c', hc'⟩ := ih.sound.msgRawBuffer
    exact ⟨⟨⟨[], hc.reset⟩, ⟨[], hc'.reset⟩⟩, ih.md5, ih.params⟩

end History

/-- The UDP server writes to the buffer, sets the address and calls `Parse`. -/
theorem History.readDatagram [Malloc] {m : Msg} (h : History m) (h0 : m.msgBuffer.Holds [])
    {d : Bytes} {client : ClientAddr} {newID : Bytes} {r : ℤ × Msg}
    (hr : UDPServer.readDatagram m d client newID = .ok r) : History r.2 := by
  obtain ⟨b, hholds, _, _, hread⟩ := UDPServer.readDatagram_eq h0 d client newID
  rw [hread] at hr
  have hbuffer := h.buffer hholds
  have haddr : History { m with msgBuffer := b, sourceIP := cstr client.sinAddr } :=
    hbuffer.set rfl rfl rfl rfl
  exact haddr.parse hr

/-! ### The getters of a recycled message -/

/-- They tell a recycled message from a new one exactly if its raw buffer has memory. -/
theorem getters_resetMsg_iff {m : Msg} (hm : m.Used) (newID : Bytes) (now : ℤ) :
    (m.resetMsg newID now).getters = (Msg.constructed newID now).getters ↔
      m.msgRawBuffer.pBuffer = none := by
  constructor
  · intro h
    have hraw : m.msgRawBuffer.pBuffer.map (·.take (0 : ℤ).toNat) = none :=
      congrArg Getters.rawBuffer h
    exact Option.map_eq_none_iff.mp hraw
  · intro hnone
    obtain ⟨c, hc⟩ := hm.sound.msgRawBuffer
    have hraw := hc.eq_of_none hnone
    have hvalue (name : Bytes) : m.headerExtract.getValue name = [] := by
      rw [HeaderExtract.getValue, hm.params hnone]
      rfl
    unfold Msg.getters Msg.constructed Msg.resetMsg
    simp only [hraw, hm.md5, hvalue]
    rfl

/-! ### Filling it again -/

/-- A datagram, as the receive loop of the UDP server reads it, or a frame of a connection. -/
inductive Filling
  | datagram (d : Bytes) (client : ClientAddr)
  | frame (c : Bytes) (h : (c.length : ℤ) ≤ intMax)

def Msg.fill [Malloc] (m : Msg) (parseID : Bytes) : Filling → Cxx (ℤ × Msg)
  | .datagram d client => UDPServer.readDatagram m d client parseID
  | .frame c _ => do
    let m ← m.setContentPayload (some c) c.length
    m.parse .ibTcp .req parseID

/-- Both fail, or both return and leave the same for every getter. -/
def SameResult (r₁ r₂ : Cxx (ℤ × Msg)) : Prop :=
  r₁.toOption.map (fun r => (r.1, r.2.getters)) = r₂.toOption.map fun r => (r.1, r.2.getters)

/-- The same filling has the same result in both, whatever `malloc` leaves in their new blocks. -/
def FilledAlike (m₁ m₂ : Msg) (parseID : Bytes) (f : Filling) : Prop :=
  ∀ malloc₁ malloc₂ : Malloc,
    SameResult (@Msg.fill malloc₁ m₁ parseID f) (@Msg.fill malloc₂ m₂ parseID f)

/-- A datagram has its whole header or does not stop inside an end of header; for a frame, that a
complete one is not taken only for the memory `m` already has. -/
def Filling.Unaffected (m : Msg) : Filling → Prop
  | .datagram d _ => (∃ k, firstOcc crlfcrlf (d.take 512) = some k) ∨
      ∀ p, p <+: crlfcrlf → p <:+ d.take 512 → p = []
  | .frame c _ => (∃ k, firstOcc crlfcrlf c = some k) → m.FitsFrame c.length →
      (c.length : ℤ)+8 ≤ intMax

/-- The results of two fillings that come through exactly under `P` and `Q`, with the
same getters. -/
theorem sameResult_iff {r₁ r₂ : Cxx (ℤ × Msg)} {P Q : Prop} (h₁ : (∃ r, r₁ = .ok r) ↔ P)
    (h₂ : (∃ r, r₂ = .ok r) ↔ Q)
    (hsame : ∀ a b, r₁ = .ok a → r₂ = .ok b → a.1 = b.1 ∧ a.2.getters = b.2.getters) :
    SameResult r₁ r₂ ↔ (P ↔ Q) := by
  unfold SameResult
  rw [← h₁, ← h₂]
  cases r₁ with
  | error e =>
    cases r₂ with
    | error e' => simp [Except.toOption]
    | ok b => simp [Except.toOption]
  | ok a =>
    cases r₂ with
    | error e' => simp [Except.toOption]
    | ok b =>
      obtain ⟨hrc, hget⟩ := hsame a b rfl rfl
      simp [Except.toOption, hrc, hget]

theorem SameResult.ok_iff {r₁ r₂ : Cxx (ℤ × Msg)} (h : SameResult r₁ r₂) :
    (∃ r, r₁ = .ok r) ↔ ∃ r, r₂ = .ok r := by
  unfold SameResult at h
  cases r₁ with
  | error e =>
    cases r₂ with
    | error e' => simp
    | ok b => cases h
  | ok a =>
    cases r₂ with
    | error e' => cases h
    | ok b => simp

namespace Msg

/-- Alike but for the extractor and the two buffers. -/
def Alike (m₁ m₂ : Msg) : Prop :=
  ∃ x b r, m₂ = { m₁ with headerExtract := x, msgBuffer := b, msgRawBuffer := r }

/-- After `Parse` the getters depend on the content alone, not on the extractor and the buffers
there were. -/
theorem getters_parsed {m₁ m₂ : Msg} {x₁ x₂ : HeaderExtract} {r₁ r₂ : Buffer} {c : Bytes}
    (hm : Alike m₁ m₂) (ct : MsgConnectionType) (ms : MsgFormat) (newID : Bytes) (p : ℕ)
    {b₁' b₂' : Buffer}
    (hx : x₁.params = x₂.params) (hr₁ : r₁.Sealed c) (hr₂ : r₂.Sealed c) :
    ({ m₁.parsed ct ms newID c p x₁ with msgBuffer := b₁', msgRawBuffer := r₁ } : Msg).getters =
      ({ m₂.parsed ct ms newID c p x₂ with msgBuffer := b₂', msgRawBuffer := r₂ } : Msg).getters := by
  have hvalue : x₁.getValue = x₂.getValue := by
    funext name
    rw [HeaderExtract.getValue, HeaderExtract.getValue, hx]
  have hraw {r : Buffer} (hr : r.Sealed c) :
      r.tail = c.length ∧ r.pBuffer.map (·.take (c.length : ℤ).toNat) = some c := by
    obtain ⟨junk, hblock⟩ := hr.pBuffer_eq
    refine ⟨hr.holds.tail_eq, ?_⟩
    rw [hblock]
    simp
  obtain ⟨x₀, b₁, b₂, rfl⟩ := hm
  unfold getters parsed readFields
  simp only [hvalue, hraw hr₁, hraw hr₂]
  cases ct <;> rfl

end Msg

/-! ### Datagrams -/

/-- No byte behind a datagram completes what it does not begin. -/
theorem not_headerEnds [Malloc] (b : Buffer) {d : Bytes}
    (hnone : ¬ ∃ k, firstOcc crlfcrlf d = some k)
    (htail : ∀ p, p <+: crlfcrlf → p <:+ d → p = []) : ¬ HeaderEnds b d := by
  intro ⟨k, hlt, hk⟩
  have hmatch := ((firstOcc_eq_some_iff crlfcrlf_ne_nil).mp hk).1
  rw [List.drop_append_of_le_length hlt.le] at hmatch
  rcases List.prefix_or_prefix_of_prefix hmatch (List.prefix_append (d.drop k) _) with hend | hbegin
  · have hall := (firstOcc_eq_none_iff crlfcrlf_ne_nil).mp
      (Option.eq_none_iff_forall_ne_some.mpr fun k h => hnone ⟨k, h⟩)
    exact hall k hend
  · have hnil := List.drop_eq_nil_iff.mp (htail _ hbegin (List.drop_suffix k d))
    omega

/-- An allocator whose blocks begin with `s`. -/
abbrev mallocWith (s : Bytes) : Malloc where
  block _ n := (s ++ List.replicate n 0).take n
  length_block _ n := by
    rw [List.length_take_of_le]
    rw [List.length_append, List.length_replicate]
    exact Nat.le_add_left _ _

/-- What may stand behind a datagram in the block of a new message. -/
theorem dgramBlock_mallocWith {d r : Bytes} (hlen : (d ++ r).length ≤ 520) :
    d ++ (@dgramBlock (mallocWith (d ++ r)) ({} : Buffer).reset).drop d.length =
      d ++ (r ++ List.replicate (520-(d ++ r).length) 0) := by
  have hblock : @dgramBlock (mallocWith (d ++ r)) ({} : Buffer).reset =
      (d ++ r ++ List.replicate 520 0).take 520 := rfl
  rw [hblock, List.take_append, List.take_of_length_le hlen, List.take_replicate,
    min_eq_left (Nat.sub_le _ _), List.append_assoc, List.drop_left]

/-- Zeros complete nothing. -/
theorem not_headerEnds_zeros {d : Bytes} (hd : d.length ≤ 512)
    (hnone : ¬ ∃ k, firstOcc crlfcrlf d = some k) :
    ¬ @HeaderEnds (mallocWith (d ++ [])) ({} : Buffer).reset d := by
  intro ⟨k, hlt, hk⟩
  rw [dgramBlock_mallocWith (by rw [List.append_nil]; omega), List.nil_append, List.append_nil]
    at hk
  have hzeros : List.replicate (520-d.length) (0 : Byte) =
      0 :: List.replicate (519-d.length) 0 := by
    rw [← List.replicate_succ]
    congr 1
    omega
  rw [hzeros] at hk
  have hgt := firstOcc_append_cons_gt crlfcrlf_ne_nil (by decide)
    (Option.eq_none_iff_forall_ne_some.mpr fun k h => hnone ⟨k, h⟩) hk
  omega

/-- The rest of an end of header completes the beginning that the datagram stops with. -/
theorem headerEnds_completed {d p : Bytes} (hd : d.length ≤ 512) (hp : p <+: crlfcrlf)
    (hend : p <:+ d) (hne : p ≠ []) :
    @HeaderEnds (mallocWith (d ++ crlfcrlf.drop p.length)) ({} : Buffer).reset d := by
  have hall : p ++ crlfcrlf.drop p.length = crlfcrlf := by
    conv_rhs => rw [← List.take_append_drop p.length crlfcrlf, ← List.prefix_iff_eq_take.mp hp]
  have hrest : (crlfcrlf.drop p.length).length ≤ 4 := by
    rw [List.length_drop]
    exact Nat.sub_le _ _
  have hpos := List.length_pos_iff.mpr hne
  obtain ⟨u, rfl⟩ := hend
  have htext : ∀ t, u ++ p ++ (crlfcrlf.drop p.length ++ t) = u ++ (crlfcrlf ++ t) := by
    intro t
    rw [List.append_assoc, ← List.append_assoc p, hall]
  unfold HeaderEnds
  rw [dgramBlock_mallocWith (by rw [List.length_append]; omega), htext]
  have hsome : ¬ ∀ k, ¬ crlfcrlf <+: (u ++ (crlfcrlf ++ List.replicate (520-(u ++ p ++
      crlfcrlf.drop p.length).length) 0)).drop k := by
    intro hno
    refine hno u.length ?_
    rw [List.drop_left]
    exact List.prefix_append _ _
  obtain ⟨k, hk⟩ := Option.ne_none_iff_exists'.mp (mt (firstOcc_eq_none_iff crlfcrlf_ne_nil).mp hsome)
  refine ⟨k, ?_, hk⟩
  have hfirst := ((firstOcc_eq_some_iff crlfcrlf_ne_nil).mp hk).2
  by_contra hge
  rw [not_lt, List.length_append] at hge
  refine hfirst u.length (by omega) ?_
  rw [List.drop_left]
  exact List.prefix_append _ _

/-- A datagram with its whole header is read alike into any message. -/
theorem readDatagram_complete [Malloc] {m : Msg} (hm : m.Sound) (h0 : m.msgBuffer.Holds [])
    {d : Bytes} (client : ClientAddr) (newID : Bytes) {p : ℕ}
    (hp : firstOcc crlfcrlf (d.take 512) = some p) :
    ∃ b₀ b r x, UDPServer.readDatagram m d client newID =
        .ok (0, { { m with msgBuffer := b₀, sourceIP := cstr client.sinAddr }.parsed .ibUdp .req
          newID (d.take 512) p x with msgBuffer := b, msgRawBuffer := r }) ∧
      r.Sealed (d.take 512) ∧ x.params = headerFields (d.take 512) := by
  obtain ⟨b₀, hholds, _, _, hread⟩ := UDPServer.readDatagram_eq h0 d client newID
  obtain ⟨raw, hraw⟩ := hm.msgRawBuffer
  have hle : (d.take 512).length ≤ 512 := List.length_take_le _ _
  obtain ⟨b, r, x, hparse, _, hr, hx⟩ :=
    Msg.parse_holds { m with msgBuffer := b₀, sourceIP := cstr client.sinAddr } .ibUdp .req newID
      hholds hraw (Buffer.Holds.fits_reset (by unfold intMax; omega)) hp
  exact ⟨b₀, b, r, x, hread.trans hparse, hr, hx⟩

theorem sound_resetMsg {m : Msg} (hm : m.Sound) (newID : Bytes) (now : ℤ) :
    (m.resetMsg newID now).Sound ∧ (m.resetMsg newID now).msgBuffer.Holds [] := by
  obtain ⟨⟨c, hc⟩, ⟨c', hc'⟩⟩ := hm
  exact ⟨⟨⟨[], hc.reset⟩, ⟨[], hc'.reset⟩⟩, hc.reset⟩

theorem datagram_filledAlike_iff {m : Msg} (hm : m.Used) (newID parseID : Bytes) (now : ℤ)
    (d : Bytes) (client : ClientAddr) :
    FilledAlike (m.resetMsg newID now) (Msg.constructed newID now) parseID (.datagram d client) ↔
      Filling.Unaffected m (.datagram d client) := by
  obtain ⟨hsound, h0⟩ := sound_resetMsg hm.sound newID now
  obtain ⟨hsound', h0'⟩ := sound_resetMsg Msg.sound_default newID now
  have hle : (d.take 512).length ≤ 512 := List.length_take_le _ _
  have hold (M : Malloc) := UDPServer.readDatagram_iff hsound h0 d client parseID
  have hnew (M : Malloc) := UDPServer.readDatagram_iff hsound' h0' d client parseID
  constructor
  · -- the new block may have zeros or the rest of the header behind the datagram
    intro hall
    by_contra hneg
    obtain ⟨hnone, hsome⟩ := not_or.mp hneg
    simp only [not_forall] at hsome
    obtain ⟨p, hp, hend, hne⟩ := hsome
    have hzeros := (hnew _).not.mpr (not_headerEnds_zeros hle hnone)
    have hcompleted := (hnew _).mpr (headerEnds_completed hle hp hend hne)
    have hrecycled := (hall (mallocWith []) _).ok_iff.mpr hcompleted
    exact hzeros ((hall (mallocWith []) _).ok_iff.mp hrecycled)
  · intro h M M'
    by_cases hp : ∃ p, firstOcc crlfcrlf (d.take 512) = some p
    · obtain ⟨p, hp⟩ := hp
      obtain ⟨b₁, b₁', r₁, x₁, hread₁, hr₁, hx₁⟩ :=
        @readDatagram_complete M _ hsound h0 _ client parseID _ hp
      obtain ⟨b₂, b₂', r₂, x₂, hread₂, hr₂, hx₂⟩ :=
        @readDatagram_complete M' _ hsound' h0' _ client parseID _ hp
      refine (sameResult_iff ⟨fun _ => trivial, fun _ => ⟨_, hread₁⟩⟩
        ⟨fun _ => trivial, fun _ => ⟨_, hread₂⟩⟩ fun a b ha hb => ?_).mpr Iff.rfl
      rw [← Except.ok.inj (hread₁.symm.trans ha), ← Except.ok.inj (hread₂.symm.trans hb)]
      refine ⟨rfl, Msg.getters_parsed ?_ .ibUdp .req parseID p (hx₁.trans hx₂.symm) hr₁ hr₂⟩
      refine ⟨{}, b₂, ({} : Buffer).reset, ?_⟩
      simp only [Msg.resetMsg, hm.md5]
    · have htail := h.resolve_left hp
      have hfail (b : Buffer) (M : Malloc) : ¬ HeaderEnds b (d.take 512) :=
        not_headerEnds b hp htail
      have hnone₁ := (hold M).not.mpr (hfail _ M)
      have hnone₂ := (hnew M').not.mpr (hfail _ M')
      exact (sameResult_iff Iff.rfl Iff.rfl fun a b ha _ => absurd ⟨a, ha⟩ hnone₁).mpr
        ⟨fun h => absurd h hnone₁, fun h => absurd h hnone₂⟩

/-! ### Frames -/

theorem frame_room [Malloc] {m : Msg} (hm : m.Sound) {c : Bytes} (hc : c ≠ [])
    (hmax : (c.length : ℤ) ≤ intMax)
    {m' : Msg} (hok : m.setContentPayload (some c) c.length = .ok m') :
    m.msgBuffer.reset.Fits c.length ∧ ∃ b, b.Sealed c ∧
      m' = { m with msgBuffer := b, pPayload := .own 0, msgContentLength := c.length } := by
  obtain ⟨old, hold⟩ := hm.msgBuffer
  unfold Msg.setContentPayload at hok
  obtain ⟨r, hr, hm'⟩ := bind_eq_ok.mp hok
  have hpos := List.length_pos_iff.mpr hc
  have hfit := hold.fits_of_replaceWith hpos le_rfl hmax hr
  obtain ⟨b, hb, _, hsealed⟩ := hold.replaceWith c le_rfl hfit
  rw [List.take_length] at hsealed
  rw [hb, Except.ok.injEq] at hr
  obtain ⟨junk, hblock⟩ := (hsealed hpos).pBuffer_eq
  have hsome : ¬ b.pBuffer = none := by simp [hblock]
  refine ⟨hfit, b, hsealed hpos, ?_⟩
  rw [← Except.ok.inj hm', ← hr, if_neg hsome]

theorem setContentPayload_ok [Malloc] {m : Msg} (hm : m.Sound) {c : Bytes}
    (hfit : m.msgBuffer.reset.Fits c.length) :
    ∃ m', m.setContentPayload (some c) c.length = .ok m' := by
  obtain ⟨old, hold⟩ := hm.msgBuffer
  obtain ⟨b, hb, _⟩ := hold.replaceWith c le_rfl hfit
  unfold Msg.setContentPayload
  rw [hb, ok_bind]
  exact ⟨_, rfl⟩

/-- A frame comes through exactly if it is complete and both buffers have room for it. -/
theorem fill_frame_iff [Malloc] {m : Msg} (hm : m.Sound) (parseID : Bytes) {c : Bytes}
    (hmax : (c.length : ℤ) ≤ intMax) : (∃ r, m.fill parseID (.frame c hmax) = .ok r) ↔
      (∃ k, firstOcc crlfcrlf c = some k) ∧ m.FitsFrame c.length := by
  constructor
  · intro ⟨r, hr⟩
    obtain ⟨m', hset, hparse⟩ := bind_eq_ok.mp hr
    rcases eq_or_ne c [] with rfl | hc
    · -- an empty frame empties the buffer
      obtain ⟨old, hold⟩ := hm.msgBuffer
      have htail : m'.msgBuffer.tail = 0 := by
        rw [← Except.ok.inj hset]
        rfl
      exact absurd hparse (Msg.parse_of_empty _ _ _ _ htail r)
    · obtain ⟨hfit, b, hb, rfl⟩ := frame_room hm hc hmax hset
      obtain ⟨raw, hraw⟩ := hm.msgRawBuffer
      let m₁ : Msg := { m with msgBuffer := b, pPayload := .own 0, msgContentLength := c.length }
      have hbuffer : m₁.msgBuffer.Sealed c := hb
      refine ⟨?_, hfit, m₁.fits_of_parse .ibTcp .req parseID hbuffer hraw hc hparse⟩
      by_contra hnone
      refine m₁.parse_of_no_header .ibTcp .req parseID hbuffer ?_ r hparse
      exact Option.eq_none_iff_forall_ne_some.mpr fun k h => hnone ⟨k, h⟩
  · intro ⟨⟨k, hk⟩, hfit⟩
    have hc : c ≠ [] := by
      rintro rfl
      cases hk
    obtain ⟨m', hset⟩ := setContentPayload_ok hm hfit.1
    obtain ⟨_, b, hb, rfl⟩ := frame_room hm hc hmax hset
    obtain ⟨raw, hraw⟩ := hm.msgRawBuffer
    obtain ⟨b', r', x, hparse, _⟩ := Msg.parse_sealed
      { m with msgBuffer := b, pPayload := .own 0, msgContentLength := c.length } .ibTcp .req parseID
      hb hraw hfit.2 hk
    exact ⟨_, bind_eq_ok.mpr ⟨_, hset, hparse⟩⟩

/-- What a frame leaves in a message. -/
theorem fill_frame_eq [Malloc] {m : Msg} (hm : m.Sound) {parseID c : Bytes}
    {hmax : (c.length : ℤ) ≤ intMax}
    {a : ℤ × Msg} (ha : m.fill parseID (.frame c hmax) = .ok a) {k : ℕ}
    (hk : firstOcc crlfcrlf c = some k) : ∃ b₀ b r x,
      a = (0, { { m with
        msgBuffer := b₀
        pPayload := .own 0
        msgContentLength := c.length }.parsed .ibTcp .req parseID c k x with
          msgBuffer := b, msgRawBuffer := r }) ∧
      r.Sealed c ∧ x.params = headerFields c := by
  obtain ⟨_, hfit⟩ := (fill_frame_iff hm parseID hmax).mp ⟨a, ha⟩
  have hc : c ≠ [] := by
    rintro rfl
    cases hk
  obtain ⟨m', hset, hparse⟩ := bind_eq_ok.mp ha
  obtain ⟨_, b₀, hb, rfl⟩ := frame_room hm hc hmax hset
  obtain ⟨raw, hraw⟩ := hm.msgRawBuffer
  obtain ⟨b, r, x, hparse', _, hr, hx⟩ := Msg.parse_sealed
    { m with msgBuffer := b₀, pPayload := .own 0, msgContentLength := c.length } .ibTcp .req parseID
    hb hraw hfit.2 hk
  rw [hparse', Except.ok.injEq] at hparse
  exact ⟨b₀, b, r, x, hparse.symm, hr, hx⟩

theorem frame_filledAlike_iff {m : Msg} (hm : m.Used) (newID parseID : Bytes) (now : ℤ) {c : Bytes}
    (hmax : (c.length : ℤ) ≤ intMax) :
    FilledAlike (m.resetMsg newID now) (Msg.constructed newID now) parseID (.frame c hmax) ↔
      Filling.Unaffected m (.frame c hmax) := by
  obtain ⟨hsound, _⟩ := sound_resetMsg hm.sound newID now
  obtain ⟨hsound', _⟩ := sound_resetMsg Msg.sound_default newID now
  have hold (M : Malloc) := fill_frame_iff hsound parseID hmax
  have hnew (M : Malloc) := fill_frame_iff hsound' parseID hmax
  have hfitold : (m.resetMsg newID now).FitsFrame c.length ↔ m.FitsFrame c.length := Iff.rfl
  have hfitnew : (({} : Msg).resetMsg newID now).FitsFrame c.length ↔
      (c.length : ℤ)+8 ≤ intMax := by
    have hzero : ¬ (c.length : ℤ) < 0-0 := by omega
    simp [Msg.FitsFrame, Buffer.Fits, Msg.resetMsg, Buffer.reset]
  rw [hfitold] at hold
  rw [hfitnew] at hnew
  have hsame (M M' : Malloc) : SameResult (@Msg.fill M (m.resetMsg newID now) parseID (.frame c hmax))
      (@Msg.fill M' (Msg.constructed newID now) parseID (.frame c hmax)) ↔ _ :=
    sameResult_iff (hold M) (hnew M') fun a b ha hb => by
      obtain ⟨⟨k, hk⟩, _⟩ := (hnew M').mp ⟨b, hb⟩
      obtain ⟨b₁, b₁', r₁, x₁, rfl, hr₁, hx₁⟩ := @fill_frame_eq M _ hsound _ _ _ _ ha _ hk
      obtain ⟨b₂, b₂', r₂, x₂, rfl, hr₂, hx₂⟩ := @fill_frame_eq M' _ hsound' _ _ _ _ hb _ hk
      refine ⟨rfl, Msg.getters_parsed ?_ .ibTcp .req parseID k (hx₁.trans hx₂.symm) hr₁ hr₂⟩
      refine ⟨{}, b₂, ({} : Buffer).reset, ?_⟩
      simp only [Msg.resetMsg, hm.md5]
  constructor
  · intro h hk hfit
    exact (((hsame zeroFill zeroFill).mp (h _ _)).mp ⟨hk, hfit⟩).2
  · intro h M M'
    rw [hsame M M']
    constructor
    · intro hfill
      exact ⟨hfill.1, h hfill.1 hfill.2⟩
    · intro hfill
      exact ⟨hfill.1, Msg.Sound.fitsFrame hfill.2⟩

/-! ### Recycled and new -/

/-- A recycled message is like a new one exactly if its raw buffer was never used and no bytes that
memory may have behind what is read into it complete the header. -/
theorem recycled_like_new_iff [Malloc] {m : Msg} (hm : History m) (newID parseID : Bytes) (now : ℤ)
    (f : Filling) : ((m.resetMsg newID now).getters = (Msg.constructed newID now).getters ∧
      FilledAlike (m.resetMsg newID now) (Msg.constructed newID now) parseID f) ↔
    m.msgRawBuffer.pBuffer = none ∧ f.Unaffected m := by
  refine and_congr (getters_resetMsg_iff hm.used newID now) ?_
  cases f with
  | datagram d client => exact datagram_filledAlike_iff hm.used newID parseID now d client
  | frame c hmax => exact frame_filledAlike_iff hm.used newID parseID now hmax

/-! ### Two messages -/

set_option maxRecDepth 20000 in
theorem recycled_like_new_iff_unused :
    ((Msg.constructed [1] 0).resetMsg [2] 5).getters = (Msg.constructed [2] 5).getters ∧
      FilledAlike ((Msg.constructed [1] 0).resetMsg [2] 5) (Msg.constructed [2] 5) [3]
        (.datagram headerDatagram plainClient) :=
  (recycled_like_new_iff (History.constructed [1] 0) [2] [3] 5
    (.datagram headerDatagram plainClient)).mpr ⟨rfl, Or.inl ⟨1, by decide⟩⟩

/-- A datagram with one header field. -/
def fieldDatagram : Bytes := bytes "a\r\nX: y\r\n\r\n"

/-- Its last byte stands where the stale bytes go on with `"\n\r\n"`. -/
def cutDatagram : Bytes := bytes "b c d e\r"

set_option maxRecDepth 20000 in
/-- A recycled message still gives the header field of its earlier use, and takes the rest of the
header from it. -/
theorem recycled_message_leaks : ∃ m, History m ∧
    (m.resetMsg [2] 5).getters.headerFieldValue (bytes "X") = bytes "y" ∧
    (Msg.constructed [2] 5).getters.headerFieldValue (bytes "X") = [] ∧
    ¬ SameResult ((m.resetMsg [2] 5).fill [3] (.datagram cutDatagram plainClient))
      ((Msg.constructed [2] 5).fill [3] (.datagram cutDatagram plainClient)) := by
  have hread : ∃ r, UDPServer.readDatagram (Msg.constructed [1] 0) fieldDatagram plainClient [1] =
      .ok r ∧ (r.2.resetMsg [2] 5).getters.headerFieldValue (bytes "X") = bytes "y" ∧
      (∃ a, (r.2.resetMsg [2] 5).fill [3] (.datagram cutDatagram plainClient) = .ok a) :=
    ⟨_, rfl, rfl, _, rfl⟩
  obtain ⟨r, hr, hvalue, a, ha⟩ := hread
  have hnew : (Msg.constructed [2] 5).fill [3] (.datagram cutDatagram plainClient) =
      .error .charPtr := rfl
  refine ⟨r.2, (History.constructed [1] 0).readDatagram Buffer.Holds.null hr, hvalue, rfl, ?_⟩
  unfold SameResult
  rw [ha, hnew]
  exact nofun

end MsgCourier
