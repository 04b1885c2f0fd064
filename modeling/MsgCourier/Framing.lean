import MsgCourier.Inbound

/-! What `AnalyzeProtocol` makes of a buffer, as functions of the bytes in it. -/
namespace MsgCourier
open ListSearch CText

/-! ### The functions -/

def isGet (c : Bytes) : Prop :=
  bytes "GET " <+: c ∧ (strstr c (bytes "HTTP/")).isSome = true

def isPost (c : Bytes) : Prop :=
  bytes "POST " <+: c ∧ (strstr c (bytes "HTTP/")).isSome = true

instance (c : Bytes) : Decidable (isGet c) := inferInstanceAs (Decidable (_ ∧ _))
instance (c : Bytes) : Decidable (isPost c) := inferInstanceAs (Decidable (_ ∧ _))

/-- The type of a frame that does not start a GET request. -/
def markerType (c : Bytes) : ProtocolType :=
  if isPost c then .httpPost
  else if (strstr c (bytes "MCP/")).isSome then .mcp
  else .unknown

/-- The types whose frame is cut out of the buffer. -/
def ProtocolType.Framed (t : ProtocolType) : Prop := t = .httpGet ∨ t = .httpPost ∨ t = .mcp

theorem not_framed_insufficientData : ¬ ProtocolType.insufficientData.Framed := by
  rintro (h | h | h) <;> cases h

theorem not_framed_unknown : ¬ ProtocolType.unknown.Framed := by
  rintro (h | h | h) <;> cases h

/-- The content length text the framing reads, with its two spellings. -/
def lengthText (c : Bytes) : Bytes :=
  if (fieldValue c (bytes "Content-Length")).length = 0 then fieldValue c (bytes "Content-length")
  else fieldValue c (bytes "Content-Length")

def contentLength (c : Bytes) : Option ℤ :=
  if (lengthText c).length = 0 then none else some (atoi (lengthText c))

/-- The framing of a content whose header ends at `p`: type, content length and data offset as
returned, and the frame size. -/
structure Frame where
  protocol : ProtocolType
  iContentLength : ℤ
  iDataOffset : ℤ
  msgSize : ℤ
  deriving DecidableEq, Repr

def frameAt (c : Bytes) (p : ℤ) : Frame :=
  if isGet c then ⟨.httpGet, -1, p, p+4⟩
  else
    match contentLength c with
    | none => ⟨markerType c, -1, p, p+4⟩
    | some n =>
      if (c.length : ℤ) < int32 (p+4+n) then ⟨.insufficientData, -1, -1, p+4⟩
      else ⟨markerType c, n, p+4, int32 (p+4+n)⟩

theorem contentLength_le {c : Bytes} {n : ℤ} (h : contentLength c = some n) : n ≤ intMax := by
  unfold contentLength at h
  split_ifs at h
  rw [← Option.some.inj h]
  exact atoi_le _

theorem contentLength_ge {c : Bytes} {n : ℤ} (h : contentLength c = some n) : -2147483648 ≤ n := by
  unfold contentLength at h
  split_ifs at h
  rw [← Option.some.inj h]
  exact atoi_ge _

theorem frameAt_get {c : Bytes} {p : ℤ} (hg : isGet c) : frameAt c p = ⟨.httpGet, -1, p, p+4⟩ := by
  rw [frameAt, if_pos hg]

theorem frameAt_noLength {c : Bytes} {p : ℤ} (hg : ¬ isGet c) (hn : contentLength c = none) :
    frameAt c p = ⟨markerType c, -1, p, p+4⟩ := by
  rw [frameAt, if_neg hg, hn]

theorem frameAt_short {c : Bytes} {p n : ℤ} (hg : ¬ isGet c) (hn : contentLength c = some n)
    (hlt : (c.length : ℤ) < int32 (p+4+n)) : frameAt c p = ⟨.insufficientData, -1, -1, p+4⟩ := by
  rw [frameAt, if_neg hg, hn]
  dsimp only
  rw [if_pos hlt]

theorem frameAt_complete {c : Bytes} {p n : ℤ} (hg : ¬ isGet c) (hn : contentLength c = some n)
    (hge : int32 (p+4+n) ≤ c.length) :
    frameAt c p = ⟨markerType c, n, p+4, int32 (p+4+n)⟩ := by
  rw [frameAt, if_neg hg, hn]
  dsimp only
  rw [if_neg (by omega)]

theorem markerType_cases (c : Bytes) :
    markerType c = .httpPost ∨ markerType c = .mcp ∨ markerType c = .unknown := by
  unfold markerType
  split_ifs <;> simp

theorem frameAt_cases (c : Bytes) (p : ℤ) : (frameAt c p).protocol = .insufficientData ∨
    (frameAt c p).protocol = .unknown ∨ (frameAt c p).protocol.Framed := by
  have hmark (t : ProtocolType) (ht : markerType c = t) :
      t = .insufficientData ∨ t = .unknown ∨ t.Framed := by
    rcases markerType_cases c with h | h | h <;> rw [h] at ht <;> subst ht <;>
      simp [ProtocolType.Framed]
  by_cases hg : isGet c
  · rw [frameAt_get hg]
    exact Or.inr (Or.inr (Or.inl rfl))
  cases hn : contentLength c with
  | none =>
    rw [frameAt_noLength hg hn]
    exact hmark _ rfl
  | some n =>
    rcases lt_or_ge (c.length : ℤ) (int32 (p+4+n)) with hlt | hge
    · rw [frameAt_short hg hn hlt]
      exact Or.inl rfl
    · rw [frameAt_complete hg hn hge]
      exact hmark _ rfl

/-- An accepted frame never ends behind the content. -/
theorem frameAt_size_le {c : Bytes} {p : ℤ} (hp : 0 ≤ p) (hle : p+4 ≤ c.length)
    (hf : (frameAt c p).protocol.Framed) :
    (frameAt c p).msgSize ≤ c.length ∧ -2147483648 ≤ (frameAt c p).msgSize := by
  by_cases hg : isGet c
  · rw [frameAt_get hg]
    dsimp only
    omega
  cases hn : contentLength c with
  | none =>
    rw [frameAt_noLength hg hn]
    dsimp only
    omega
  | some n =>
    rcases lt_or_ge (c.length : ℤ) (int32 (p+4+n)) with hlt | hge
    · rw [frameAt_short hg hn hlt] at hf
      exact absurd hf not_framed_insufficientData
    · rw [frameAt_complete hg hn hge]
      exact ⟨hge, int32_ge _⟩

/-! ### The text of a terminated block -/

theorem strstr_sealed (c junk pat : Bytes) : strstr (c ++ 0 :: junk) pat = strstr c pat := by
  simp only [strstr, cstr_append_zero]

/-- Comparing the first bytes of a block, which reaches at most its terminator. -/
theorem startsWith_sealed {c junk pat : Bytes} (h0 : 0 ∉ pat) (hlen : pat.length ≤ c.length+1) :
    ConnectionHandlerInbound.startsWith (c ++ 0 :: junk) pat = .ok (decide (pat <+: c)) := by
  have hf : fetch (c ++ 0 :: junk) 0 pat.length = .ok ((c ++ 0 :: junk).take pat.length) := by
    simpa using fetch_ok (show 0+pat.length ≤ (c ++ 0 :: junk).length by
      simp only [List.length_append, List.length_cons]
      omega)
  have hiff : (c ++ 0 :: junk).take pat.length = pat ↔ pat <+: c := by
    constructor
    · intro h
      have hpre : pat <+: c ++ 0 :: junk := by
        rw [← h]
        exact List.take_prefix _ _
      rcases Nat.lt_or_ge c.length pat.length with hlt | hge
      · -- the terminator would be a byte of the pattern
        have hget : pat[c.length]? = some 0 := by
          rw [← h, List.getElem?_take_of_lt hlt, List.getElem?_append_right le_rfl, Nat.sub_self]
          rfl
        exact absurd (List.mem_of_getElem? hget) h0
      · exact List.prefix_of_prefix_length_le hpre (List.prefix_append _ _) hge
    · rintro ⟨t, rfl⟩
      rw [List.append_assoc, List.take_left]
  unfold ConnectionHandlerInbound.startsWith
  rw [hf, ok_bind, pure_eq_ok]
  congr 1
  rw [Bool.eq_iff_iff, beq_iff_eq, decide_eq_true_iff, hiff]

theorem classify_sealed {c junk : Bytes} {p : ℕ} (hp : strstr c crlfcrlf = some p) :
    ConnectionHandlerInbound.classify (c ++ 0 :: junk) = .ok (markerType c) := by
  have hlen := strstr_le hp
  have hpost : ConnectionHandlerInbound.startsWith (c ++ 0 :: junk) (bytes "POST ") =
      .ok (decide (bytes "POST " <+: c)) :=
    startsWith_sealed (by decide) (by
      simp only [crlfcrlf, List.length_cons, List.length_nil] at hlen
      simp [bytes]
      omega)
  unfold ConnectionHandlerInbound.classify
  rw [hpost, ok_bind]
  simp only [ConnectionHandlerInbound.contains, strstr_sealed, hp, Option.isSome_some,
    Bool.and_true, Bool.and_eq_true, decide_eq_true_eq, pure_eq_ok]
  unfold markerType
  by_cases hq : isPost c
  · rw [if_pos hq, if_pos (show _ ∧ _ from hq)]
  · rw [if_neg hq, if_neg (show ¬ (_ ∧ _) from hq)]
    split_ifs <;> rfl

/-! ### The code computes the framing -/

theorem contentLengthText_eq {x : HeaderExtract} {c : Bytes} (hx : x.params = headerFields c) :
    ConnectionHandlerInbound.contentLengthText x = lengthText c := by
  simp only [ConnectionHandlerInbound.contentLengthText, HeaderExtract.getValue, hx]
  rfl

/-- Without an end of header the data is insufficient; without a block the call asserts. -/
theorem analyzeProtocol_none (h : ConnectionHandlerInbound) {b : Buffer} {c : Bytes}
    (hb : b.Holds c) (hp : strstr c crlfcrlf = none) :
    h.analyzeProtocol b = .error .charPtr ∨
      ∃ b', h.analyzeProtocol b = .ok ⟨.insufficientData, -1, -1, h, b'⟩ ∧ b'.Sealed c := by
  rcases hb.makeString with ⟨rfl, rfl⟩ | ⟨b', hb', hs⟩
  · exact Or.inl rfl
  · refine Or.inr ⟨b', ?_, hs⟩
    obtain ⟨junk, hblock⟩ := hs.pBuffer_eq
    simp only [ConnectionHandlerInbound.analyzeProtocol, Buffer.getBuffer, hb', ok_bind,
      pure_eq_ok, hblock, ConnectionHandlerInbound.contains, strstr_sealed, hp,
      Option.isSome_none, Bool.not_false, if_true]

/-- With the end of the header at `p` the results are those of the framing. -/
theorem analyzeProtocol_some (h : ConnectionHandlerInbound) {b : Buffer} {c : Bytes} {p : ℕ}
    (hb : b.Holds c) (hp : strstr c crlfcrlf = some p) :
    ∃ b' h', h.analyzeProtocol b = .ok ⟨(frameAt c p).protocol, (frameAt c p).iContentLength,
        (frameAt c p).iDataOffset, h', b'⟩ ∧ b'.Sealed c ∧ h'.msgHeaderEnd = (p : ℤ)+4 ∧
      h'.msgSize = (frameAt c p).msgSize ∧ h'.bCloseConnection = h.bCloseConnection := by
  have hlen := strstr_le hp
  simp only [crlfcrlf, List.length_cons, List.length_nil] at hlen
  have hlt := hb.length_lt
  rcases hb.makeString with ⟨rfl, rfl⟩ | ⟨b', hb', hs⟩
  · simp at hlen
  have hfind := hs.binaryFind crlfcrlf_ne_nil (by decide)
  rw [firstOcc_of_strstr crlfcrlf_ne_nil hp, Option.elim_some] at hfind
  have htail := hs.holds.tail_eq
  obtain ⟨b'', x, hs'', hx, hparams⟩ := HeaderExtract.parse_holds h.headerExtract hs.holds
    (show 4 ≤ c.length by omega)
  obtain ⟨junk, hblock⟩ := hs.pBuffer_eq
  have hget : ConnectionHandlerInbound.startsWith (c ++ 0 :: junk) (bytes "GET ") =
      .ok (decide (bytes "GET " <+: c)) :=
    startsWith_sealed (by decide) (by simp [bytes]; omega)
  have hend : int32 ((p : ℤ)+4) = p+4 := int32_eq (by omega) (by omega)
  have hpne : ¬ (p : ℤ) = -1 := by omega
  have hcne : ¬ (c.length : ℤ) = 0 := by omega
  have htext := contentLengthText_eq hparams
  simp only [ConnectionHandlerInbound.analyzeProtocol, Buffer.getBuffer, hb', ok_bind, pure_eq_ok,
    hblock, ConnectionHandlerInbound.contains, strstr_sealed, hp, Option.isSome_some,
    Bool.not_true, Bool.false_eq_true, if_false, hfind, if_neg hpne, trailingCrlfs, hend, htail,
    if_neg hcne, hget, Bool.and_eq_true, decide_eq_true_eq, and_true]
  by_cases hg : isGet c
  · rw [frameAt_get hg, if_pos (show _ ∧ _ from hg)]
    exact ⟨_, _, rfl, hs, rfl, rfl, rfl⟩
  rw [if_neg (show ¬ (_ ∧ _) from hg), hx, ok_bind]
  dsimp only
  rw [htext]
  by_cases hv : (lengthText c).length = 0
  · rw [frameAt_noLength hg (by rw [contentLength, if_pos hv]), if_neg (by simpa using hv),
      classify_sealed hp, ok_bind]
    exact ⟨_, _, rfl, hs'', rfl, rfl, rfl⟩
  have hn : contentLength c = some (atoi (lengthText c)) := by rw [contentLength, if_neg hv]
  rw [if_pos (show (lengthText c).length ≠ 0 from hv)]
  by_cases hshort : (c.length : ℤ) < int32 (p+4+atoi (lengthText c))
  · rw [frameAt_short hg hn hshort, if_pos hshort]
    exact ⟨_, _, rfl, hs'', rfl, rfl, rfl⟩
  · rw [frameAt_complete hg hn (by omega), if_neg hshort, classify_sealed hp, ok_bind]
    exact ⟨_, _, rfl, hs'', rfl, rfl, rfl⟩

end MsgCourier
