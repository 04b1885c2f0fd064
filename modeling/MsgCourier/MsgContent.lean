import MsgCourier.Msg

/-! `SetContentPayload` and `Parse` as functions of the bytes of a frame. -/
namespace MsgCourier
open ListSearch CText

namespace Msg

/-- Taking the first `n` bytes of a terminated block for the content of a message. -/
theorem setContentPayload_sealed [Malloc] (m : Msg) {old c : Bytes} {b : Buffer} {n : ℕ}
    (hm : m.msgBuffer.Holds old) (hs : b.Sealed c) (h0 : 0 < n) (hn : n ≤ c.length)
    (hfit : m.msgBuffer.reset.Fits n) :
    ∃ b', m.setContentPayload b.pBuffer n =
        .ok { m with msgBuffer := b', pPayload := .own 0, msgContentLength := n } ∧
      b'.Sealed (c.take n) := by
  obtain ⟨junk, hblock⟩ := hs.pBuffer_eq
  obtain ⟨b', hb', _, hsealed⟩ := hm.replaceWith (c ++ 0 :: junk) (n := n)
    (by simp only [List.length_append]; omega) hfit
  have htake : (c ++ 0 :: junk).take n = c.take n := List.take_append_of_le_length hn
  rw [htake] at hsealed
  obtain ⟨junk', hblock'⟩ := (hsealed h0).pBuffer_eq
  have hsome : b'.pBuffer ≠ none := by simp [hblock']
  refine ⟨b', ?_, hsealed h0⟩
  simp only [setContentPayload, hblock, hb', ok_bind, pure_eq_ok, if_neg hsome]

theorem logAll_eq_ok {α : Type} {r : Cxx α} {a : α} : logAll r = .ok a ↔ r = .ok a := by
  unfold logAll
  split <;> simp

/-- What a `Parse` that returns has written. -/
theorem parse_inv [Malloc] {m : Msg} {ct : MsgConnectionType} {ms : MsgFormat} {newID : Bytes}
    {r : ℤ × Msg} (hok : m.parse ct ms newID = .ok r) : ∃ status command x b raw i rc,
      m.msgRawBuffer.replaceWith m.msgBuffer.pBuffer m.msgBuffer.tail = .ok (rc, raw) ∧
      r = (0, ({ { m with
        msgBuffer := b
        msgRawBuffer := raw
        msgStatusLine := status
        msgCommand := command
        msgHeaderSize := i }.setConnectionType ct with msgFormat := ms }).readFields x newID i) := by
  rw [Msg.parse, logAll_eq_ok, bind_eq_ok] at hok
  obtain ⟨⟨rc, raw⟩, hraw, hok⟩ := hok
  cases hblock : m.msgBuffer.pBuffer with
  | none =>
    rw [hblock] at hok
    cases hok
  | some pData =>
    rw [hblock] at hok hraw
    dsimp only at hok
    rw [bind_eq_ok] at hok
    obtain ⟨status, _, hok⟩ := hok
    split_ifs at hok
    rw [bind_eq_ok] at hok
    obtain ⟨found, _, hok⟩ := hok
    rw [bind_eq_ok] at hok
    obtain ⟨command, _, hok⟩ := hok
    rw [bind_eq_ok] at hok
    obtain ⟨⟨x, b⟩, _, hok⟩ := hok
    exact ⟨status, command, x, b, raw, _, rc, hraw, (Except.ok.inj hok).symm⟩

theorem assign_take {c : Bytes} (r : Bytes) {n : ℕ} (hn : n ≤ c.length) :
    assign (c ++ r) n = .ok (c.take n) := by
  have hfetch := fetch_ok (show 0+n ≤ (c ++ r).length by
    simp only [List.length_append]
    omega)
  rw [List.drop_zero, List.take_append_of_le_length hn] at hfetch
  rw [assign, if_neg (by omega)]
  exact hfetch

/-- The fields of the header of `c`, as `Parse` leaves them in the message. -/
def parsed (m : Msg) (ct : MsgConnectionType) (ms : MsgFormat) (newID : Bytes) (c : Bytes)
    (p : ℕ) (x : HeaderExtract) : Msg :=
  let m := { m with
    msgStatusLine := ((firstOcc crlf c).filter (· ≠ 0)).elim m.msgStatusLine (c.take ·)
    msgCommand := (strstr c [32]).elim m.msgCommand (c.take ·)
    msgHeaderSize := p }
  { m.setConnectionType ct with msgFormat := ms }.readFields x newID p

/-- The end of the header contains a line end. -/
theorem firstOcc_crlf_of_crlfcrlf {c : Bytes} {p : ℕ} (hp : firstOcc crlfcrlf c = some p) :
    ∃ l, firstOcc crlf c = some l := by
  have hinf : crlf <:+: c := by
    rw [firstOcc_match crlfcrlf_ne_nil hp]
    exact ⟨c.take p, [13, 10] ++ c.drop (p+crlfcrlf.length), by simp [crlf, crlfcrlf]⟩
  exact Option.isSome_iff_exists.mp ((occursIn_iff (List.cons_ne_nil _ _)).mpr hinf)

/-- The first line ends where the header ends or before. -/
theorem firstOcc_crlf_le {c : Bytes} {k : ℕ} (hk : firstOcc crlfcrlf c = some k) :
    ∃ l ≤ k, firstOcc crlf c = some l := by
  obtain ⟨l, hl⟩ := firstOcc_crlf_of_crlfcrlf hk
  refine ⟨l, ?_, hl⟩
  by_contra hlt
  have hcrlf : crlf ≠ [] := List.cons_ne_nil _ _
  have hmin := ((firstOcc_eq_some_iff hcrlf).mp hl).2 k (by omega)
  apply hmin
  have hprefix : crlf <+: crlfcrlf := ⟨crlf, rfl⟩
  exact hprefix.trans ((firstOcc_eq_some_iff crlfcrlf_ne_nil).mp hk).1

theorem readStatusLine_take (m : Msg) {c : Bytes} (r : Bytes) {l : ℕ}
    (hl : firstOcc crlf c = some l) : m.readStatusLine (c ++ r) l =
      .ok (((firstOcc crlf c).filter (· ≠ 0)).elim m.msgStatusLine (c.take ·)) := by
  have hle := firstOcc_le _ hl
  rw [hl]
  rcases Nat.eq_zero_or_pos l with rfl | hpos
  · rfl
  · have hne : l ≠ 0 := by omega
    rw [readStatusLine, if_pos (by omega), assign_take _ (by omega)]
    simp [Option.filter, hne]

theorem readCommand_take (m : Msg) (c r : Bytes) :
    m.readCommand (c ++ r) ((strstr c [32]).elim (-1) fun k => (k : ℤ)) =
      .ok ((strstr c [32]).elim m.msgCommand (c.take ·)) := by
  cases hk : strstr c [32] with
  | none => rfl
  | some k =>
    have hle := strstr_le hk
    simp only [Option.elim_some]
    rw [readCommand, if_pos (by omega), assign_take _ (by omega)]

/-- `Parse` on a message that holds a frame with a complete header; the bytes behind the frame do
not matter. -/
theorem parse_holds [Malloc] (m : Msg) (ct : MsgConnectionType) (ms : MsgFormat) (newID : Bytes)
    {c raw : Bytes} {p : ℕ} (hm : m.msgBuffer.Holds c) (hraw : m.msgRawBuffer.Holds raw)
    (hfit : m.msgRawBuffer.reset.Fits c.length) (hp : firstOcc crlfcrlf c = some p) :
    ∃ b' r' x, m.parse ct ms newID =
        .ok (0, { m.parsed ct ms newID c p x with msgBuffer := b', msgRawBuffer := r' }) ∧
      b'.Sealed c ∧ r'.Sealed c ∧ x.params = headerFields c := by
  have hlen := firstOcc_le _ hp
  simp only [crlfcrlf, List.length_cons, List.length_nil] at hlen
  have hne : c ≠ [] := by
    rintro rfl
    simp at hlen
  obtain ⟨junk, hblock⟩ := hm.pBuffer_eq hne
  obtain ⟨r', hr', _, hrs⟩ := hraw.replaceWith (c ++ junk) (n := c.length) (by simp) hfit
  rw [List.take_left] at hrs
  obtain ⟨l, hle, hl⟩ := firstOcc_crlf_le hp
  have hcrlf : crlf ≠ [] := List.cons_ne_nil _ _
  have hline := hm.binaryFind_block hblock (firstOcc_append hcrlf hl junk) (by omega)
  have hend := hm.binaryFind_block hblock (firstOcc_append crlfcrlf_ne_nil hp junk) (by omega)
  obtain ⟨b', hs', hblock', hfind⟩ := hm.find_block hne hblock [32]
  have hspace : strstr (c ++ 0 :: junk.tail) [32] = strstr c [32] := by
    rw [strstr, cstr_append_zero, ← strstr]
  rw [hspace] at hfind
  obtain ⟨b'', x, hs'', hx, hparams⟩ := HeaderExtract.parse_holds m.headerExtract hs'.holds
    (show 4 ≤ c.length by omega)
  have hp1 : ¬ (p : ℤ) = -1 := by omega
  refine ⟨b'', r', x, ?_, hs'', hrs (by omega), hparams⟩
  simp only [parse, hblock, hm.tail_eq, hr', ok_bind, hline, readStatusLine_take m _ hl, hend,
    if_neg hp1, hfind, hblock', Option.getD_some, readCommand_take, hx, pure_eq_ok, logAll]
  cases ct <;> rfl

theorem parse_sealed [Malloc] (m : Msg) (ct : MsgConnectionType) (ms : MsgFormat) (newID : Bytes)
    {c raw : Bytes} {p : ℕ} (hs : m.msgBuffer.Sealed c) (hraw : m.msgRawBuffer.Holds raw)
    (hfit : m.msgRawBuffer.reset.Fits c.length) (hp : firstOcc crlfcrlf c = some p) :
    ∃ b' r' x, m.parse ct ms newID =
        .ok (0, { m.parsed ct ms newID c p x with msgBuffer := b', msgRawBuffer := r' }) ∧
      b'.Sealed c ∧ r'.Sealed c ∧ x.params = headerFields c :=
  m.parse_holds ct ms newID hs.holds hraw hfit hp

end Msg
end MsgCourier
