import MsgCourier.InboundContent
import MsgCourier.UdpServer

/-! The payload pointer and the content length `Parse` leaves in a message. -/
namespace MsgCourier
open ListSearch CText ZeroFill

/-- The content length `Parse` reads; it knows one spelling. -/
def parseLength (c : Bytes) : ℤ :=
  if (fieldValue c (bytes "Content-Length")).length ≠ 0 then
    atoi (fieldValue c (bytes "Content-Length"))
  else 0

/-- The payload of `m` is empty, or it lies in the content of `MsgBuffer` and consists of the
bytes of the frame behind its CRLFCRLF. -/
def PayloadWindow (frame : Bytes) (m : Msg) : Prop :=
  m.msgContentLength = 0 ∨ ∃ p off len : ℕ, firstOcc crlfcrlf frame = some p ∧
    m.pPayload = .own off ∧ m.msgContentLength = len ∧ ((off+len : ℕ) : ℤ) ≤ m.msgBuffer.tail ∧
    ((m.msgBuffer.pBuffer.getD []).drop off).take len = frame.drop (p+4)

/-- Besides, the content length is the one the framing took: the frame size without the header. -/
def PayloadAgrees (frame : Bytes) (m : Msg) : Prop :=
  PayloadWindow frame m ∧
    ∃ p, firstOcc crlfcrlf frame = some p ∧ m.msgContentLength = frame.length-(p+4)

/-- The length covers exactly the bytes behind the header. -/
def CoversRest (frame : Bytes) (n : ℤ) : Prop :=
  ∃ p, firstOcc crlfcrlf frame = some p ∧ n = frame.length-(p+4)

/-- What the two fields say, for a message whose header ends at `k` in its block. -/
theorem payloadWindow_iff {m : Msg} {frame junk : Bytes} {k : ℕ}
    (hb : m.msgBuffer.Sealed frame) (hk : firstOcc crlfcrlf (frame ++ junk) = some k)
    (hp : m.msgContentLength ≠ 0 → m.pPayload = .own (k+4)) :
    PayloadWindow frame m ↔ m.msgContentLength = 0 ∨ CoversRest frame m.msgContentLength := by
  obtain ⟨stale, hblock⟩ := hb.pBuffer_eq
  have htail := hb.holds.tail_eq
  unfold PayloadWindow CoversRest
  rw [hblock, Option.getD_some, htail]
  by_cases h0 : m.msgContentLength = 0
  · exact iff_of_true (Or.inl h0) (Or.inl h0)
  rw [or_iff_right h0, or_iff_right h0]
  have hown := hp h0
  constructor
  · rintro ⟨p, off, len, hf, hoff, hlen, hle, hbytes⟩
    have hpk : p = k := by
      have := firstOcc_append crlfcrlf_ne_nil hf junk
      rw [hk, Option.some.injEq] at this
      exact this.symm
    rw [hown, Payload.own.injEq] at hoff
    have hoff' : off = p+4 := by omega
    have hlens := congrArg List.length hbytes
    have hpl := firstOcc_le _ hf
    simp only [crlfcrlf, List.length_cons, List.length_nil] at hpl
    simp only [List.length_take, List.length_drop, List.length_append, List.length_cons] at hlens
    exact ⟨p, hf, by omega⟩
  · rintro ⟨p, hf, hlen⟩
    have hpk : p = k := by
      have := firstOcc_append crlfcrlf_ne_nil hf junk
      rw [hk, Option.some.injEq] at this
      exact this.symm
    have hpl := firstOcc_le _ hf
    simp only [crlfcrlf, List.length_cons, List.length_nil] at hpl
    refine ⟨p, p+4, frame.length-(p+4), hf, ?_, by omega, by omega, ?_⟩
    · rw [hown, hpk]
      rfl
    · rw [List.drop_append_of_le_length (by omega), List.take_append_of_le_length (by simp),
        List.take_of_length_le (by simp)]

/-! ### Messages from a connection -/

theorem framed_length (m : Msg) (newID frame : Bytes) (p : ℕ) {x : HeaderExtract}
    (hx : x.params = headerFields frame) :
    (m.framed .ibTcp .req newID frame p x).msgContentLength = parseLength frame := by
  have hv : x.getValue (bytes "Content-Length") = fieldValue frame (bytes "Content-Length") := by
    rw [HeaderExtract.getValue, hx, fieldValue]
  simp only [Msg.framed, Msg.parsed, Msg.readFields, hv, parseLength]

theorem framed_payload (m : Msg) (newID frame : Bytes) (p : ℕ) {x : HeaderExtract}
    (hx : x.params = headerFields frame) (h0 : parseLength frame ≠ 0) :
    (m.framed .ibTcp .req newID frame p x).pPayload = .own (p+4) := by
  have hv : x.getValue (bytes "Content-Length") = fieldValue frame (bytes "Content-Length") := by
    rw [HeaderExtract.getValue, hx, fieldValue]
  have hne : (fieldValue frame (bytes "Content-Length")).length ≠ 0 := by
    intro h
    exact h0 (by rw [parseLength, if_neg (not_not.mpr h)])
  simp only [Msg.framed, Msg.parsed, Msg.readFields, hv, if_pos hne]

/-- The dispatched message keeps payload and content of the parsed one. -/
theorem payloadAgrees_iff {m₀ m m' : Msg} {newID frame : Bytes} {p : ℕ}
    (h : InboundState.ParsedFrame m₀ newID frame p m)
    (hl : m'.msgContentLength = m.msgContentLength)
    (hpay : m'.pPayload = m.pPayload) (hbuf : m'.msgBuffer = m.msgBuffer) :
    PayloadAgrees frame m' ↔ parseLength frame = frame.length-(p+4) := by
  obtain ⟨x, hx, hm⟩ := h.fields
  have hlen : m'.msgContentLength = parseLength frame := by
    rw [hl, hm]
    exact framed_length m₀ newID frame p hx
  have hown : m'.msgContentLength ≠ 0 → m'.pPayload = .own (p+4) := by
    intro h0
    rw [hlen] at h0
    rw [hpay, hm]
    exact framed_payload m₀ newID frame p hx h0
  have hwin := payloadWindow_iff (hbuf ▸ h.msgBuffer)
    (show firstOcc crlfcrlf (frame ++ []) = some p by
      rw [List.append_nil]; exact h.firstOcc_eq) hown
  rw [PayloadAgrees, hwin, hlen]
  constructor
  · rintro ⟨_, q, hq, heq⟩
    rw [h.firstOcc_eq, Option.some.injEq] at hq
    rw [heq, hq]
  · intro heq
    exact ⟨Or.inr ⟨p, h.firstOcc_eq, heq⟩, p, h.firstOcc_eq, heq⟩

/-- For a buffer content: framing and `Parse` take the same length. A GET request must have none;
a length the framing used is in range, and it is 0 or the first spelling in a header block that
lies in the frame. -/
def LengthsAgree (c : Bytes) : Prop :=
  ∀ p : ℕ, strstr c crlfcrlf = some p →
    if isGet c then parseLength c = 0
    else ∀ n, contentLength c = some n → 0 ≤ n ∧ p+4+n ≤ intMax ∧
      (n = 0 ∨ (fieldValue c (bytes "Content-Length")).length ≠ 0 ∧
        ∃ t, headerText c = some t ∧ (t.length : ℤ) ≤ p+n)

/-- The header text of a beginning of `c` that contains it. -/
theorem headerText_take {c t : Bytes} {n : ℕ} (ht : headerText c = some t)
    (hn : t.length+4 ≤ n) : headerText (c.take n) = some t := by
  obtain ⟨k, hk, rfl⟩ := Option.map_eq_some_iff.mp ht
  have hlen := strstr_le hk
  simp only [crlfcrlf, List.length_cons, List.length_nil, List.length_drop] at hlen
  rw [List.length_take] at hn
  rw [headerText, List.drop_take, strstr_take crlfcrlf_ne_nil hk
    (by simp only [crlfcrlf, List.length_cons, List.length_nil]; omega), Option.map_some,
    List.take_take, min_eq_left (by omega)]

/-- A beginning of `c` that cuts the header text, or of a `c` without one, has none. -/
theorem headerText_take_none {c : Bytes} {n : ℕ}
    (ht : ∀ t, headerText c = some t → n < t.length+4) : headerText (c.take n) = none := by
  rw [headerText, List.drop_take, Option.map_eq_none_iff]
  apply strstr_take_none crlfcrlf_ne_nil
  intro k hk
  have hlen := strstr_le hk
  simp only [crlfcrlf, List.length_cons, List.length_nil, List.length_drop] at hlen ⊢
  have hlt := ht (c.take (4+k)) (by rw [headerText, hk, Option.map_some])
  rw [List.length_take] at hlt
  omega

theorem parseLength_of_headerText_none {c : Bytes} (h : headerText c = none) :
    parseLength c = 0 := by
  have hf : headerFields c = ∅ := by
    rw [headerFields, h]
    rfl
  unfold parseLength fieldValue
  rw [hf]
  rfl

theorem parseLength_take {c t : Bytes} {n : ℕ} (ht : headerText c = some t)
    (hn : t.length+4 ≤ n) : parseLength (c.take n) = parseLength c := by
  have hf : headerFields (c.take n) = headerFields c := by
    rw [headerFields, headerFields, headerText_take ht hn, ht]
  unfold parseLength fieldValue
  rw [hf]

/-- The header text of a content whose first four bytes lie in front of the end of its header. -/
theorem headerText_of_strstr {c : Bytes} {p : ℕ} (hp : strstr c crlfcrlf = some p) (h4 : 4 ≤ p) :
    headerText c = some (c.take p) := by
  have hle := firstOcc_le _ hp
  simp only [crlfcrlf, List.length_cons, List.length_nil] at hle
  have hk : strstr (c.drop 4) crlfcrlf = some (p-4) := by
    rw [strstr, cstr_drop (by omega)]
    exact firstOcc_drop crlfcrlf_ne_nil hp h4
  rw [headerText, hk, Option.map_some, show 4+(p-4) = p by omega]

/-- Four bytes of a text that cannot hold CR lie in front of the end of its header. -/
theorem four_le_of_isGet {c : Bytes} {p : ℕ} (hp : strstr c crlfcrlf = some p) (hg : isGet c) :
    4 ≤ p := by
  obtain ⟨t, ht⟩ := hg.1
  by_contra hlt
  have hm := firstOcc_match crlfcrlf_ne_nil (firstOcc_of_strstr crlfcrlf_ne_nil hp)
  have hle := strstr_le hp
  have hcr : (c)[p]? = some 13 := by
    rw [hm, List.append_assoc, List.getElem?_append_right (by simp)]
    simp only [List.length_take, crlfcrlf, List.cons_append]
    rw [min_eq_left (by omega), Nat.sub_self]
    rfl
  rw [← ht, List.getElem?_append_left (by simp [bytes]; omega)] at hcr
  exact absurd (List.mem_of_getElem? hcr) (by decide)

/-- The length `Parse` takes from an accepted frame is the one of the framing exactly if the two
readers agree. -/
theorem parseLength_frame_iff {c : Bytes} {p n : ℕ} (hp : strstr c crlfcrlf = some p)
    (hlen : (c.length : ℤ) < intMax) (hf : (frameAt c p).protocol.Framed)
    (hn : (frameAt c p).msgSize = n) (hpn : p+4 ≤ n) :
    parseLength (c.take n) = n-(p+4) ↔ LengthsAgree c := by
  have hle := strstr_le hp
  simp only [crlfcrlf, List.length_cons, List.length_nil] at hle
  have hagree : LengthsAgree c ↔ if isGet c then parseLength c = 0
      else ∀ n, contentLength c = some n → 0 ≤ n ∧ p+4+n ≤ intMax ∧
        (n = 0 ∨ (fieldValue c (bytes "Content-Length")).length ≠ 0 ∧
          ∃ t, headerText c = some t ∧ (t.length : ℤ) ≤ p+n) := by
    constructor
    · exact fun h => h p hp
    · intro h q hq
      rw [hp, Option.some.injEq] at hq
      rwa [← hq]
  rw [hagree]
  by_cases hg : isGet c
  · -- a GET frame ends with its header
    rw [frameAt_get hg] at hn
    dsimp only at hn
    have htext := headerText_of_strstr hp (four_le_of_isGet hp hg)
    rw [if_pos hg, parseLength_take htext (by simp only [List.length_take]; omega)]
    constructor <;> intro h <;> omega
  rw [if_neg hg]
  cases hN : contentLength c with
  | none =>
    rw [frameAt_noLength hg hN] at hn
    dsimp only at hn
    refine iff_of_true ?_ (by simp)
    have hzero : parseLength c = 0 := by
      unfold contentLength lengthText at hN
      unfold parseLength
      by_cases hv : (fieldValue c (bytes "Content-Length")).length = 0
      · rw [if_neg (not_not.mpr hv)]
      · rw [if_neg hv, if_neg hv] at hN
        exact absurd hN (by simp)
    rcases Nat.lt_or_ge p 4 with h4 | h4
    · -- the frame is too short for a header text
      rw [parseLength_of_headerText_none]
      · omega
      · rw [headerText, Option.map_eq_none_iff]
        by_contra hc
        obtain ⟨k, hk⟩ := Option.ne_none_iff_exists'.mp hc
        have := strstr_le hk
        simp only [crlfcrlf, List.length_cons, List.length_nil, List.length_drop,
          List.length_take] at this
        omega
    · rw [parseLength_take (headerText_of_strstr hp h4) (by simp only [List.length_take]; omega),
        hzero]
      omega
  | some N =>
    have hge := contentLength_ge hN
    have hnle := contentLength_le hN
    rcases lt_or_ge (c.length : ℤ) (int32 (p+4+N)) with hshort | hfull
    · rw [frameAt_short hg hN hshort] at hf
      exact absurd hf not_framed_insufficientData
    rw [frameAt_complete hg hN hfull] at hn
    dsimp only at hn
    -- the header lies in the frame, so the sum did not wrap and the length is not negative
    have hsum : (p : ℤ)+4+N ≤ intMax := by
      by_contra hover
      rw [int32_of_gt (by omega) (by unfold intMax at *; omega)] at hn
      unfold intMax at *
      omega
    rw [int32_eq (by omega) hsum] at hn
    have hdiff : (n : ℤ)-(p+4) = N := by omega
    rw [hdiff]
    have hrest : (∀ n, some N = some n → 0 ≤ n ∧ p+4+n ≤ intMax ∧
        (n = 0 ∨ (fieldValue c (bytes "Content-Length")).length ≠ 0 ∧
          ∃ t, headerText c = some t ∧ (t.length : ℤ) ≤ p+n)) ↔
        (N = 0 ∨ (fieldValue c (bytes "Content-Length")).length ≠ 0 ∧
          ∃ t, headerText c = some t ∧ (t.length : ℤ) ≤ p+N) := by
      constructor
      · exact fun h => (h N rfl).2.2
      · intro h k hk
        rw [Option.some.injEq] at hk
        rw [← hk]
        exact ⟨by omega, hsum, h⟩
    rw [hrest]
    by_cases hin : ∃ t, headerText c = some t ∧ (t.length : ℤ) ≤ p+N
    · obtain ⟨t, ht, htl⟩ := hin
      rw [parseLength_take ht (by omega)]
      unfold contentLength lengthText at hN
      unfold parseLength
      by_cases hv : (fieldValue c (bytes "Content-Length")).length = 0
      · rw [if_neg (not_not.mpr hv)]
        constructor
        · exact fun h => Or.inl h.symm
        · rintro (h | ⟨h, _⟩)
          · exact h.symm
          · exact absurd hv h
      · rw [if_neg hv, if_neg hv, Option.some.injEq] at hN
        rw [if_pos hv]
        exact iff_of_true hN (Or.inr ⟨hv, t, ht, htl⟩)
    · have hnone : headerText (c.take n) = none := by
        apply headerText_take_none
        intro t ht
        by_contra hc
        exact hin ⟨t, ht, by omega⟩
      rw [parseLength_of_headerText_none hnone]
      constructor
      · exact fun h => Or.inl h.symm
      · rintro (h | ⟨_, h⟩)
        · exact h.symm
        · exact absurd h hin

/-- A frame that was taken and parsed is the accepted one, with its header at the same place. -/
theorem payloadAgrees_of_takeFrame [Malloc] {s : InboundState} {c newID : Bytes} {m₀ m m' : Msg}
    {p : ℕ} {rc size : ℤ} {b : Buffer} (hs : s.record.buffer.Sealed c) (hm : m₀.Sound)
    (hp : strstr c crlfcrlf = some p) (hf : (frameAt c p).protocol.Framed)
    (hsize : s.handler.msgSize = (frameAt c p).msgSize) (hk : s.handler.msgSize = size)
    (hok : s.takeFrame m₀ newID = .ok (rc, m, b)) (hl : m'.msgContentLength = m.msgContentLength)
    (hpay : m'.pPayload = m.pPayload) (hbuf : m'.msgBuffer = m.msgBuffer) :
    PayloadAgrees (c.take size.toNat) m' ↔ LengthsAgree c := by
  have hle := strstr_le hp
  simp only [crlfcrlf, List.length_cons, List.length_nil] at hle
  have hne : c ≠ [] := by
    rintro rfl
    simp at hle
  obtain ⟨hmax, hmin⟩ := frameAt_size_le (p := p) (by omega) (by omega) hf
  rw [← hsize] at hmax hmin
  obtain ⟨n, q, hn, hq, hfit⟩ := s.frame_of_takeFrame m₀ newID hs hm hne hmax hmin hok
  rw [hn] at hmax
  have hqp : q = p := by
    have happ := firstOcc_append crlfcrlf_ne_nil hq (c.drop n)
    rw [List.take_append_drop, firstOcc_of_strstr crlfcrlf_ne_nil hp, Option.some.injEq] at happ
    exact happ.symm
  subst hqp
  obtain ⟨m₁, b₁, hok₁, hparsed, _⟩ :=
    s.takeFrame_ok m₀ newID hs hm hn (by omega) hq hfit
  rw [hok₁, Except.ok.injEq, Prod.mk.injEq, Prod.mk.injEq] at hok
  obtain ⟨_, rfl, _⟩ := hok
  have hqn := firstOcc_le _ hq
  simp only [crlfcrlf, List.length_cons, List.length_nil, List.length_take] at hqn
  rw [← hk, hn, Int.toNat_natCast, payloadAgrees_iff hparsed hl hpay hbuf, List.length_take,
    min_eq_left (by omega)]
  exact parseLength_frame_iff hp hs.holds.length_lt hf (hsize.symm.trans hn) (by omega)

/-- For a frame the inbound handler accepts and dispatches. -/
theorem process_payloadAgrees_iff [Malloc] {s : InboundState} {c : Bytes}
    (hb : s.record.buffer.Holds c)
    {env : InboundEnv} (hm : env.pMessage.Sound) {r : ℤ × InboundState}
    (hok : s.process env = .ok r) {m : Msg} (hd : r.2.dispatched = s.dispatched ++ [m]) :
    PayloadAgrees (c.take r.2.handler.msgSize.toNat) m ↔ LengthsAgree c := by
  have hsame : s.dispatched ≠ s.dispatched ++ [m] := by
    intro h
    have := congrArg List.length h
    simp at this
  rw [InboundState.process, bind_eq_ok] at hok
  obtain ⟨a, ha, hok⟩ := hok
  cases hp : strstr c crlfcrlf with
  | none =>
    rcases analyzeProtocol_none s.handler hb hp with herr | ⟨b', ha', _⟩
    · rw [herr] at ha
      exact absurd ha (by simp)
    · rw [ha', Except.ok.injEq] at ha
      subst ha
      rw [← Except.ok.inj hok] at hd
      exact absurd hd hsame
  | some p =>
    obtain ⟨b', h', ha', hs, _, hsize, _⟩ := analyzeProtocol_some s.handler hb hp
    rw [ha', Except.ok.injEq] at ha
    subst ha
    dsimp only at hok
    rcases frameAt_cases c p with hins | hunk | hf
    · rw [hins] at hok
      rw [← Except.ok.inj hok] at hd
      exact absurd hd hsame
    · rw [hunk] at hok
      rw [← Except.ok.inj hok] at hd
      exact absurd hd hsame
    · obtain ⟨s₁, request, m₁, m', b₁, h⟩ :=
        s.tookFrame_of_process env hb hp hf hm (by rw [InboundState.process, ha', ok_bind]; exact hok)
      obtain ⟨rc, htake⟩ := h.takeFrame
      rw [h.dispatched, List.append_cancel_left_eq, List.cons.injEq] at hd
      rw [← hd.1, h.handler]
      exact payloadAgrees_of_takeFrame h.buffer h.sound hp hf h.msgSize rfl htake
        h.msgContentLength h.pPayload h.msgBuffer

/-! ### Messages from datagrams -/

/-- `Parse` on a content that nothing terminates: a search may end in the bytes behind it, and so
may the header. -/
theorem parse_unterminated [Malloc] {m : Msg} {ct : MsgConnectionType} {ms : MsgFormat}
    {newID c junk : Bytes}
    (hm : m.msgBuffer.Holds c) (hc : c ≠ []) (hblock : m.msgBuffer.pBuffer = some (c ++ junk))
    (h4 : 4 ≤ (c ++ junk).length) {r : ℤ × Msg} (hok : m.parse ct ms newID = .ok r) :
    r.1 = 0 ∧ r.2.msgBuffer.Sealed c ∧ ∃ k, firstOcc crlfcrlf (c ++ junk) = some k ∧
      r.2.msgContentLength = parseLength (c ++ 0 :: junk.tail) ∧
      (r.2.msgContentLength ≠ 0 → r.2.pPayload = .own (k+4)) := by
  rw [Msg.parse, Msg.logAll_eq_ok, bind_eq_ok] at hok
  obtain ⟨raw, _, hok⟩ := hok
  rw [hblock] at hok
  dsimp only at hok
  rw [bind_eq_ok] at hok
  obtain ⟨line, _, hok⟩ := hok
  split_ifs at hok with hend
  obtain ⟨k, hk, hkv, _⟩ := hm.firstOcc_of_binaryFind hblock hend
  rw [bind_eq_ok] at hok
  obtain ⟨⟨i, b⟩, hfind, hok⟩ := hok
  obtain ⟨hs, hb⟩ := hm.find_buffer hc hblock hfind
  dsimp only at hs hb hok
  rw [bind_eq_ok] at hok
  obtain ⟨command, _, hok⟩ := hok
  have hlen : 4 ≤ (c ++ 0 :: junk.tail).length := by
    have hj := List.length_pos_iff.mpr (hm.junk_ne_nil hc hblock)
    simp only [List.length_append, List.length_cons, List.length_tail] at h4 ⊢
    omega
  obtain ⟨b', x, hs', hx, hparams⟩ := m.headerExtract.parse_block hs.holds hc hb hlen
  rw [hx, ok_bind, pure_eq_ok, Except.ok.injEq] at hok
  have hv : x.getValue (bytes "Content-Length") =
      fieldValue (c ++ 0 :: junk.tail) (bytes "Content-Length") := by
    rw [HeaderExtract.getValue, hparams, fieldValue]
    rfl
  rw [← hok, hkv]
  refine ⟨rfl, by cases ct <;> exact hs', k, hk, ?_, ?_⟩
  · simp only [Msg.readFields, hv, parseLength]
  · intro h0
    simp only [Msg.readFields, hv] at h0 ⊢
    by_cases hlen : (fieldValue (c ++ 0 :: junk.tail) (bytes "Content-Length")).length ≠ 0
    · rw [if_pos hlen]
    · rw [if_neg hlen] at h0
      exact absurd rfl h0

/-- The block a datagram is written into: that of the message, grown to the maximal size. -/
def dgramBlock [Malloc] (b : Buffer) : Bytes :=
  match b.setBufferSize maxDgramSize with
  | .ok b => b.pBuffer.getD []
  | .error _ => []

/-- What the header extractor has in front of it: the datagram, a NUL and stale bytes. -/
def dgramText [Malloc] (b : Buffer) (d : Bytes) : Bytes := d ++ 0 :: (dgramBlock b).drop
    (d.length+1)

/-- A datagram in the block of a message that was just reset. -/
theorem receive_ok [Malloc] {x : UDPServer} {m : Msg} (hm : m.msgBuffer.Holds []) {d : Bytes}
    {client : ClientAddr} {newID server : Bytes} {m' : Msg} (hd : d ≠ [])
    (ha : client.allowed = true) (hok : x.receive m (.bytes d) client newID server = .ok m') :
    ∃ k, firstOcc crlfcrlf (d.take 512 ++ (dgramBlock m.msgBuffer).drop (d.take 512).length) =
        some k ∧ m'.msgBuffer.Sealed (d.take 512) ∧
      m'.msgContentLength = parseLength (dgramText m.msgBuffer (d.take 512)) ∧
      (m'.msgContentLength ≠ 0 → m'.pPayload = .own (k+4)) := by
  obtain ⟨block, hset, hroom, hs, hb0⟩ := hm.setBufferSize (n := maxDgramSize) (by decide)
    (Or.inr (by decide))
  rw [List.nil_append] at hset hroom hs
  have hblock : dgramBlock m.msgBuffer = block := by
    rw [dgramBlock, hset]
    rfl
  have hne : d.take 512 ≠ [] := by
    rw [ne_eq, List.take_eq_nil_iff]
    exact fun h => h.elim (by decide) hd
  have hle : (d.take 512).length ≤ 512 := List.length_take_le _ _
  unfold maxDgramSize at hroom
  have hst := store_ok (show 0+(d.take 512).length ≤ block.length by omega)
  rw [Nat.cast_zero, List.take_zero, List.nil_append, zero_add] at hst
  have hmem : (d.take 512 ++ block.drop (d.take 512).length).length = block.length := by
    simp only [List.length_append, List.length_drop]
    omega
  have hsmall : ¬ (block.length : ℤ) ≤ (d.take 512).length := by omega
  have hholds := Buffer.Holds.block (d.take 512) (block.drop (d.take 512).length)
    (by rw [ne_eq, List.drop_eq_nil_iff]; omega) (by rw [hmem]; exact hs)
  rw [hmem] at hholds
  rw [UDPServer.receive, hset, ok_bind] at hok
  simp only [Option.getD_some, show maxDgramSize.toNat = 512 from rfl, if_neg hne, hst, ok_bind, ha,
    Bool.not_true, Bool.false_eq_true, if_false, Buffer.setBufferLength, Buffer.setBufferSize,
    if_neg hsmall, pure_eq_ok] at hok
  rw [bind_eq_ok] at hok
  obtain ⟨⟨rc, m₁⟩, hparse, hok⟩ := hok
  obtain ⟨hrc, hseal, k, hk, hlen, hpay⟩ := parse_unterminated
    (by exact hholds) hne rfl (by rw [hmem]; omega) hparse
  dsimp only at hrc hseal hk hlen hpay
  have hfin : m'.msgBuffer = m₁.msgBuffer ∧ m'.msgContentLength = m₁.msgContentLength ∧
      m'.pPayload = m₁.pPayload := by
    simp only [hrc, if_true] at hok
    split_ifs at hok <;>
      (rw [← Except.ok.inj hok]; simp [Msg.setConnectionType])
  rw [hfin.1, hfin.2.1, hfin.2.2, dgramText, hblock]
  rw [List.tail_drop] at hlen
  exact ⟨k, hk, hseal, hlen, hpay⟩

theorem receive_payloadWindow_iff [Malloc] {x : UDPServer} {m : Msg} (hm : m.msgBuffer.Holds [])
    {d : Bytes} {client : ClientAddr} {newID server : Bytes} {m' : Msg} (hd : d ≠ [])
    (ha : client.allowed = true) (hok : x.receive m (.bytes d) client newID server = .ok m') :
    PayloadWindow (d.take 512) m' ↔ parseLength (dgramText m.msgBuffer (d.take 512)) = 0 ∨
      CoversRest (d.take 512) (parseLength (dgramText m.msgBuffer (d.take 512))) := by
  obtain ⟨k, hk, hseal, hlen, hpay⟩ := receive_ok hm hd ha hok
  rw [payloadWindow_iff hseal hk hpay, hlen]

/-- On the connection paths the window is right and the lengths are equal exactly if the two readers
of the header agree; on the datagram path, exactly if the length `Parse` reads is 0 or covers the
bytes behind the header of the datagram. -/
theorem parse_payloadWindow_iff [Malloc] (c d : Bytes) :
    (∀ (s : InboundState) (env : InboundEnv) (r : ℤ × InboundState) (m : Msg),
      s.record.buffer.Holds c → env.pMessage.Sound → s.process env = .ok r →
      r.2.dispatched = s.dispatched ++ [m] →
      (PayloadAgrees (c.take r.2.handler.msgSize.toNat) m ↔ LengthsAgree c)) ∧
    ∀ (x : UDPServer) (old : Msg) (newID : Bytes) (now : ℤ) (client : ClientAddr)
      (parseID server : Bytes) (m : Msg), old.Sound → d ≠ [] → client.allowed = true →
      x.receive (old.reuse newID now) (.bytes d) client parseID server = .ok m →
      (PayloadWindow (d.take 512) m ↔
        parseLength (dgramText old.msgBuffer.reset (d.take 512)) = 0 ∨
        CoversRest (d.take 512) (parseLength (dgramText old.msgBuffer.reset (d.take 512)))) := by
  constructor
  · intro s env r m hb hm hok hd
    exact process_payloadAgrees_iff hb hm hok hd
  · intro x old newID now client parseID server m hm hd ha hok
    exact receive_payloadWindow_iff (hm.reuse newID now).2 hd ha hok

/-! ### Two requests -/

def postRequest : Bytes := bytes "POST / HTTP/1.0\r\nContent-Length: 2\r\n\r\nhi"

/-- A datagram that is all header. -/
def headerDatagram : Bytes := bytes "a\r\n\r\n"

def plainClient : ClientAddr := ⟨bytes "10.0.0.8", 3401, true⟩

set_option maxRecDepth 8000 in
theorem receive_headerDatagram : ∃ m, UDPServer.receive ⟨3400, 4⟩ (({} : Msg).reuse (bytes "id1") 0)
    (.bytes headerDatagram) plainClient (bytes "id2") (bytes "mc@10.0.0.1") = .ok m :=
  ⟨_, rfl⟩

theorem parse_payloadWindow_iff_post :
    (∃ r m, (connectionWith postRequest).process plainEnv = .ok r ∧ r.2.dispatched = [m] ∧
      (PayloadAgrees (postRequest.take r.2.handler.msgSize.toNat) m ↔ LengthsAgree postRequest)) ∧
    ∃ m, (PayloadWindow (headerDatagram.take 512) m ↔
      parseLength (dgramText ({} : Msg).msgBuffer.reset (headerDatagram.take 512)) = 0 ∨
      CoversRest (headerDatagram.take 512)
        (parseLength (dgramText ({} : Msg).msgBuffer.reset (headerDatagram.take 512)))) := by
  have hp : strstr postRequest crlfcrlf = some 34 := by decide
  have hf : frameAt postRequest 34 = ⟨.httpPost, 2, 38, 40⟩ := by decide
  have hb : (connectionWith postRequest).record.buffer.Holds postRequest :=
    Buffer.holds_terminated (by simp [postRequest, bytes, intMax])
  obtain ⟨h, m, b, hok, _⟩ := (connectionWith postRequest).process_http plainEnv hb hp
    (by rw [Nat.cast_ofNat, hf]; exact Or.inr rfl) (by rw [Nat.cast_ofNat, hf]; rfl)
    (show 34+4 ≤ 40 by omega) Msg.sound_default (Msg.Sound.fitsFrame (by decide))
  obtain ⟨m', hudp⟩ := receive_headerDatagram
  exact ⟨⟨_, _, hok, rfl, (parse_payloadWindow_iff _ []).1 _ _ _ _ hb Msg.sound_default hok rfl⟩,
    m', (parse_payloadWindow_iff [] _).2 _ _ _ _ _ _ _ _ Msg.sound_default (by decide) rfl hudp⟩

def getRequest : Bytes := bytes "GET / HTTP/1.0\r\nContent-Length: 5\r\n\r\n"

/-- Framing takes no payload for this GET request, `Parse` a window of five bytes behind it. -/
theorem get_window_outside : ∃ r m, (connectionWith getRequest).process plainEnv = .ok r ∧
    r.2.dispatched = [m] ∧ ¬ PayloadWindow (getRequest.take r.2.handler.msgSize.toNat) m := by
  have hp : strstr getRequest crlfcrlf = some 33 := by decide
  have hf : frameAt getRequest 33 = ⟨.httpGet, -1, 33, 37⟩ := by decide
  have hb : (connectionWith getRequest).record.buffer.Holds getRequest :=
    Buffer.holds_terminated (by simp [getRequest, bytes, intMax])
  obtain ⟨h, m, b, hok, hparsed, _, _, hsize⟩ :=
    (connectionWith getRequest).process_http plainEnv hb hp
      (by rw [Nat.cast_ofNat, hf]; exact Or.inl rfl) (by rw [Nat.cast_ofNat, hf]; rfl)
      (show 33+4 ≤ 37 by omega) Msg.sound_default (Msg.Sound.fitsFrame (by decide))
  refine ⟨_, _, hok, rfl, ?_⟩
  obtain ⟨x, hx, hm⟩ := hparsed.fields
  let request := (connectionWith getRequest).httpRequest
  have hlen : parseLength (getRequest.take 37) = 5 := by decide
  have hl : ((connectionWith getRequest).httpReply plainEnv m).msgContentLength = 5 := by
    rw [InboundState.httpReply, Msg.dispatchMsg_msgContentLength]
    exact (congrArg Msg.msgContentLength hm).trans
      ((framed_length (request plainEnv.pMessage .httpGet) plainEnv.parseID _ 33 hx).trans hlen)
  have hpay : ((connectionWith getRequest).httpReply plainEnv m).pPayload = .own (33+4) := by
    rw [InboundState.httpReply, Msg.dispatchMsg_pPayload]
    exact (congrArg Msg.pPayload hm).trans
      (framed_payload (request plainEnv.pMessage .httpGet) plainEnv.parseID _ 33 hx
        (by rw [hlen]; decide))
  have hseal : ((connectionWith getRequest).httpReply plainEnv m).msgBuffer.Sealed
      (getRequest.take 37) := by
    rw [InboundState.httpReply, Msg.dispatchMsg_msgBuffer]
    exact hparsed.msgBuffer
  have hframe : getRequest.take (h.msgSize.toNat) = getRequest.take 37 := by
    rw [hsize]
    rfl
  change ¬ PayloadWindow (getRequest.take h.msgSize.toNat) _
  rw [hframe, payloadWindow_iff hseal
    (show firstOcc crlfcrlf (getRequest.take 37 ++ []) = some 33 by decide) (fun _ => hpay), hl]
  rintro (h0 | ⟨p, hp', hrest⟩)
  · cases h0
  · have h33 : firstOcc crlfcrlf (getRequest.take 37) = some 33 := by decide
    rw [h33, Option.some.injEq] at hp'
    have h37 : (getRequest.take 37).length = 37 := by decide
    rw [h37] at hrest
    omega

end MsgCourier
