import MsgCourier.Framing
import MsgCourier.MsgContent

/-! The frame size `AnalyzeProtocol` leaves for `SetContentPayload` and `Remove`. -/
namespace MsgCourier
open ListSearch CText ZeroFill

/-- A frame of size `msgSize` holds the header and ends inside the content `c`, so that the copy
taken for a message and the removal act on a beginning of the content. -/
structure FrameInside [Malloc] (c : Bytes) (a : Analysis) : Prop where
  header_le : a.handler.msgHeaderEnd ≤ a.handler.msgSize
  le_count : a.handler.msgSize ≤ a.buffer.tail
  header_in_frame : ∃ k : ℕ, firstOcc crlfcrlf (c.take a.handler.msgSize.toNat) = some k ∧
    a.handler.msgHeaderEnd = k+4
  removed : ∃ b, a.buffer.remove 0 a.handler.msgSize = .ok (0, b) ∧
    b.Holds (c.drop a.handler.msgSize.toNat)
  copied : ∀ (m : Msg) (old : Bytes), m.msgBuffer.Holds old →
    m.msgBuffer.reset.Fits a.handler.msgSize →
    ∃ m', m.setContentPayload a.buffer.pBuffer a.handler.msgSize = .ok m' ∧
      m'.msgBuffer.Sealed (c.take a.handler.msgSize.toNat)

/-- The content length that decides the frame is not negative and the frame ends within the range
of `int`. A GET frame and an unknown type use no content length. -/
def LengthInRange (c : Bytes) : Prop :=
  ∀ (p : ℕ) (n : ℤ), strstr c crlfcrlf = some p → ¬ isGet c → markerType c ≠ .unknown →
    contentLength c = some n → 0 ≤ n ∧ p+4+n ≤ intMax

theorem markerType_framed {c : Bytes} (h : markerType c ≠ .unknown) : (markerType c).Framed := by
  unfold markerType at h ⊢
  split_ifs at h ⊢
  · exact Or.inr (Or.inl rfl)
  · exact Or.inr (Or.inr rfl)
  · exact absurd rfl h

/-- The sum of header end and content length, as the `int` addition computes it. -/
theorem frameEnd_int32 {p n : ℤ} (hp : 0 ≤ p) (hp' : p+4 ≤ intMax) (h₁ : -2147483648 ≤ n)
    (h₂ : n ≤ intMax) :
    (p+4+n ≤ intMax → int32 (p+4+n) = p+4+n) ∧ (intMax < p+4+n → int32 (p+4+n) < 0) := by
  constructor
  · exact fun h => int32_eq (by omega) h
  · intro h
    rw [int32_of_gt h (by unfold intMax at *; omega)]
    unfold intMax at *
    omega

/-- Lengths in range put the frame between the end of the header and the end of the content. -/
theorem frameAt_size_of_inRange {c : Bytes} {p : ℕ} (hp : strstr c crlfcrlf = some p)
    (hlen : (c.length : ℤ) ≤ intMax) (hr : LengthInRange c)
    (hf : (frameAt c p).protocol.Framed) :
    (p : ℤ)+4 ≤ (frameAt c p).msgSize ∧ (frameAt c p).msgSize ≤ c.length := by
  have hle := strstr_le hp
  simp only [crlfcrlf, List.length_cons, List.length_nil] at hle
  by_cases hg : isGet c
  · rw [frameAt_get hg]
    exact ⟨le_rfl, by dsimp only; omega⟩
  cases hn : contentLength c with
  | none =>
    rw [frameAt_noLength hg hn]
    exact ⟨le_rfl, by dsimp only; omega⟩
  | some n =>
    have hge := contentLength_ge hn
    have hnle := contentLength_le hn
    rcases lt_or_ge (c.length : ℤ) (int32 (p+4+n)) with hshort | hfull
    · rw [frameAt_short hg hn hshort] at hf
      exact absurd hf not_framed_insufficientData
    · rw [frameAt_complete hg hn hfull] at hf ⊢
      have hknown : markerType c ≠ .unknown := by
        intro hu
        rw [hu] at hf
        exact not_framed_unknown hf
      obtain ⟨h0, hmax⟩ := hr p n hp hg hknown hn
      have hsum := (frameEnd_int32 (by omega) (by omega) hge hnle).1 hmax
      rw [hsum] at hfull
      dsimp only
      omega

/-- A length out of range is accepted and leaves a frame that ends before its header does. -/
theorem frameAt_size_of_outOfRange {c : Bytes} {p : ℕ} {n : ℤ} (hp : strstr c crlfcrlf = some p)
    (hlen : (c.length : ℤ) ≤ intMax) (hg : ¬ isGet c) (hu : markerType c ≠ .unknown)
    (hn : contentLength c = some n) (hr : ¬ (0 ≤ n ∧ p+4+n ≤ intMax)) :
    (frameAt c p).protocol.Framed ∧ (frameAt c p).msgSize < (p : ℤ)+4 := by
  have hle := strstr_le hp
  simp only [crlfcrlf, List.length_cons, List.length_nil] at hle
  have hge := contentLength_ge hn
  have hnle := contentLength_le hn
  obtain ⟨hfit, hover⟩ := frameEnd_int32 (p := p) (by omega) (by omega) hge hnle
  have hsize : int32 (p+4+n) < p+4 := by
    rcases le_or_gt ((p : ℤ)+4+n) intMax with hle | hgt
    · rw [hfit hle]
      omega
    · have := hover hgt
      omega
  rw [frameAt_complete hg hn (by omega)]
  exact ⟨markerType_framed hu, hsize⟩

/-- Cutting out a frame that lies in the content. -/
theorem frameInside_of_size [Malloc] {c : Bytes} {a : Analysis} {p : ℕ}
    (hp : strstr c crlfcrlf = some p)
    (hs : a.buffer.Sealed c) (hend : a.handler.msgHeaderEnd = (p : ℤ)+4)
    (hge : (p : ℤ)+4 ≤ a.handler.msgSize) (hle : a.handler.msgSize ≤ c.length) :
    FrameInside c a := by
  obtain ⟨n, hn⟩ : ∃ n : ℕ, a.handler.msgSize = n := ⟨a.handler.msgSize.toNat, by omega⟩
  have hocc := firstOcc_take crlfcrlf_ne_nil (firstOcc_of_strstr crlfcrlf_ne_nil hp)
    (n := n) (by simp only [crlfcrlf, List.length_cons, List.length_nil]; omega)
  refine ⟨by omega, by rw [hs.holds.tail_eq]; exact hle, ?_, ?_, ?_⟩
  · rw [hn, Int.toNat_natCast]
    exact ⟨p, hocc, hend⟩
  · rw [hn, Int.toNat_natCast]
    exact hs.holds.remove (by omega) (by omega)
  · intro m old hm hfit
    rw [hn] at hfit ⊢
    rw [Int.toNat_natCast]
    obtain ⟨b, hb, hsealed⟩ :=
      m.setContentPayload_sealed hm hs (n := n) (by omega) (by omega) hfit
    exact ⟨_, hb, hsealed⟩

/-- Exactly when every frame that is cut out of a buffer lies inside it. -/
theorem analyzeProtocol_frameInside_iff [Malloc] (h : ConnectionHandlerInbound) (b : ByteBuffer) :
    (∀ a, h.analyzeProtocol b.buffer = .ok a → a.protocol.Framed → FrameInside b.content a) ↔
      LengthInRange b.content := by
  have hlen : (b.content.length : ℤ) ≤ intMax := b.holds.length_lt.le
  constructor
  · intro hall p n hp hg hu hn
    by_contra hr
    obtain ⟨b', h', ha, hs, hend, hsize, _⟩ := analyzeProtocol_some h b.holds hp
    obtain ⟨hf, hlt⟩ := frameAt_size_of_outOfRange hp hlen hg hu hn hr
    have hin := (hall _ ha hf).header_le
    dsimp only at hin
    omega
  · intro hr a ha hf
    cases hp : strstr b.content crlfcrlf with
    | none =>
      rcases analyzeProtocol_none h b.holds hp with herr | ⟨b', ha', _⟩
      · rw [herr] at ha
        exact absurd ha (by simp)
      · rw [ha', Except.ok.injEq] at ha
        rw [← ha] at hf
        exact absurd hf not_framed_insufficientData
    | some p =>
      obtain ⟨b', h', ha', hs, hend, hsize, _⟩ := analyzeProtocol_some h b.holds hp
      rw [ha', Except.ok.injEq] at ha
      rw [← ha] at hf ⊢
      obtain ⟨hge, hle⟩ := frameAt_size_of_inRange hp hlen hr hf
      rw [← hsize] at hge hle
      exact frameInside_of_size hp hs hend hge hle

/-- `POST / HTTP/1.0` with content length -5. -/
def negativeLengthRequest : Bytes := bytes "POST / HTTP/1.0\r\nContent-Length: -5\r\n\r\n"

/-- The frame of this request has 34 bytes, its header 39. -/
theorem frame_ends_in_header :
    ¬ ∀ a, ({} : ConnectionHandlerInbound).analyzeProtocol
        (.terminated negativeLengthRequest) = .ok a →
      a.protocol.Framed → FrameInside negativeLengthRequest a := by
  intro hall
  have hp : strstr negativeLengthRequest crlfcrlf = some 35 := by decide
  have hb := Buffer.holds_terminated (show (negativeLengthRequest.length : ℤ) < intMax by decide)
  have hf : frameAt negativeLengthRequest 35 = ⟨.httpPost, -5, 39, 34⟩ := by decide
  obtain ⟨b, h, ha, _, hend, hsize, _⟩ := analyzeProtocol_some {} hb hp
  rw [Nat.cast_ofNat, hf] at ha hsize
  have hle := (hall _ ha (Or.inr (Or.inl rfl))).header_le
  rw [Nat.cast_ofNat] at hend
  dsimp only at hle hsize
  omega

end MsgCourier
