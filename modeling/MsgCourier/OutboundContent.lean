import MsgCourier.Outbound
import MsgCourier.MsgContent

/-! What the outbound handler prints and sends, as functions of the message. -/
namespace MsgCourier
open ListSearch CText

/-! ### Printing into the response -/

namespace Buffer

theorem lengthArg_string {s : Bytes} (h0 : 0 ∉ s) : lengthArg (s ++ [0]) (-1) = .ok s.length := by
  rw [lengthArg, if_pos rfl, strlen, if_pos (by simp), cstr_append_zero, cstr_eq_self h0]

theorem Holds.appendString_inv [Malloc] {b b' : Buffer} {c s : Bytes} (h : b.Holds c) (h0 : 0 ∉ s)
    (hb' : b.appendString s = .ok b') : b'.Holds (c ++ s) := by
  obtain ⟨r, hr, hb'⟩ := bind_eq_ok.mp hb'
  obtain ⟨n, hn, -, hholds⟩ := h.append_inv (by decide) (lengthArg_string h0) hr
  have hn' : s.length = n := by exact_mod_cast hn
  rw [← hn', List.take_left] at hholds
  rw [← Except.ok.inj hb']
  exact hholds

/-- Appending a C string appends its bytes. -/
theorem Holds.appendString [Malloc] {b : Buffer} {c s : Bytes} (h : b.Holds c) (h0 : 0 ∉ s)
    (hfit : (c.length : ℤ)+s.length+8 ≤ intMax) :
    ∃ b', b.appendString s = .ok b' ∧ b'.Holds (c ++ s) := by
  obtain ⟨b', hb', hsealed⟩ := h.append_arg (by decide) (lengthArg_string h0) (by simp)
    (Or.inr (by rw [h.tail_eq]; exact hfit))
  rw [List.take_left] at hsealed
  refine ⟨b', ?_, hsealed.holds⟩
  rw [Buffer.appendString, hb']
  rfl

theorem Holds.replaceString_inv [Malloc] {b : Buffer} {c s : Bytes} (h : b.Holds c) (h0 : 0 ∉ s)
    {r : ℤ × Buffer} (hr : b.replaceWith (some (s ++ [0])) (-1) = .ok r) : r.2.Holds s := by
  obtain ⟨n, hn, -, hholds⟩ := h.replaceWith_inv (lengthArg_string h0) hr
  have hn' : s.length = n := by exact_mod_cast hn
  rwa [← hn', List.take_left] at hholds

theorem Holds.replaceWith_arg [Malloc] {b : Buffer} {c p : Bytes} (h : b.Holds c) {z : ℤ} {n : ℕ}
    (harg : lengthArg p z = .ok n) (hn : n ≤ p.length) (hfit : (n : ℤ)+8 ≤ intMax) :
    ∃ b', b.replaceWith (some p) z = .ok (0, b') ∧ b'.Holds (p.take n) := by
  obtain ⟨b', hb', hholds, -⟩ := h.replaceWith p hn (Holds.fits_reset hfit)
  refine ⟨b', ?_, hholds⟩
  rw [← hb', Buffer.replaceWith, Buffer.replaceWith, harg, lengthArg_natCast]

theorem Holds.replaceString [Malloc] {b : Buffer} {c s : Bytes} (h : b.Holds c) (h0 : 0 ∉ s)
    (hfit : (s.length : ℤ)+8 ≤ intMax) :
    ∃ b', b.replaceWith (some (s ++ [0])) (-1) = .ok (0, b') ∧ b'.Holds s := by
  obtain ⟨b', hb', hholds⟩ := h.replaceWith_arg (lengthArg_string h0) (by simp) hfit
  rw [List.take_left] at hholds
  exact ⟨b', hb', hholds⟩

theorem Holds.sprintf_inv [Malloc] {b b' : Buffer} {c text : Bytes} (h : b.Holds c) (ht : 0 ∉ text)
    (hb' : b.sprintf 5000 text = .ok b') : b'.Holds text := by
  obtain ⟨size, -, hin, hout⟩ := h.sprintf (n := 5000) (by decide) (by decide) ht
  rcases Nat.lt_or_ge text.length size with hlt | hge
  · obtain ⟨b'', hb'', hseal⟩ := hin hlt
    rw [hb', Except.ok.injEq] at hb''
    exact hb'' ▸ hseal.holds
  · rw [hout hge] at hb'
    cases hb'

/-- A text of up to 5000 bytes is printed whatever the block was. -/
theorem Holds.sprintf_fits [Malloc] {b : Buffer} {c text : Bytes} (h : b.Holds c) (ht : 0 ∉ text)
    (hlen : text.length ≤ 5000) : ∃ b', b.sprintf 5000 text = .ok b' ∧ b'.Holds text := by
  obtain ⟨size, hsize, hin, -⟩ := h.sprintf (n := 5000) (by decide) (by decide) ht
  obtain ⟨b', hb', hseal⟩ := hin (by omega)
  exact ⟨b', hb', hseal.holds⟩

end Buffer

theorem testBuffer_eq_ok {text t : Bytes} :
    testBuffer text = .ok t ↔ text.length < 2048 ∧ t = text := by
  unfold testBuffer
  split_ifs with h
  · simp [h, eq_comm]
  · simp [h]

/-! ### The texts -/

theorem zero_notMem_append {s t : Bytes} (hs : 0 ∉ s) (ht : 0 ∉ t) : 0 ∉ s ++ t := by
  simp [hs, ht]

theorem zero_notMem_headerField {name : String} (hname : 0 ∉ bytes name) (value : Bytes) :
    0 ∉ headerField name value := by
  have hcolon : 0 ∉ bytes ": " := by decide
  have hend : 0 ∉ crlf := by decide
  unfold headerField
  exact zero_notMem_append (zero_notMem_append (zero_notMem_append hname hcolon)
    (zero_notMem_cstr value)) hend

namespace Msg

/-- The bytes `Append` takes from the payload pointer. -/
def payloadText (m : Msg) : Bytes :=
  match m.payloadMem with
  | none => []
  | some p => if m.msgContentLength = -1 then cstr p else p.take m.msgContentLength.toNat

def emptyReplyText (m : Msg) (elapsed : Bytes) : Bytes :=
  m.emptyReplyHeader elapsed ++
    (if 0 < (cstr m.msgTo).length then headerField "To" m.msgTo else []) ++
    headerField "From" m.msgFrom ++
    (if 0 < (cstr m.msgCommand).length then headerField "Command" m.msgCommand ++ crlf else []) ++
    crlf

/-- Header and payload of a message that is no web page; a reply of another type than `MCP` has
no text of its own. -/
def ownText (m : Msg) (elapsed : Bytes) : Option Bytes :=
  if m.msgFormat = .res ∨ m.msgFormat = .notify then
    if m.msgProtocolType = .mcp then
      if m.msgContentLength = 0 then some (m.emptyReplyText elapsed)
      else some (m.replyHeader ++ m.payloadText)
    else none
  else if 0 < m.msgContentLength then some (m.requestHeader m.contentFields ++ m.payloadText)
  else some (m.requestHeader [])

theorem zero_notMem_connectionField (m : Msg) : 0 ∉ m.connectionField :=
  zero_notMem_headerField (by decide) _

theorem zero_notMem_statusLine (m : Msg) : 0 ∉ m.statusLine := by
  have htype : 0 ∉ m.messageType := by
    unfold messageType
    split_ifs <;> decide
  have hstart : 0 ∉ bytes "MCP/1.0 " := by decide
  have hblank : 0 ∉ bytes " " := by decide
  have hend : 0 ∉ crlf := by decide
  unfold statusLine
  exact zero_notMem_append (zero_notMem_append (zero_notMem_append (zero_notMem_append hstart
    (zero_notMem_formatInt3 _)) hblank) htype) hend

theorem zero_notMem_routingFields (m : Msg) : 0 ∉ m.routingFields :=
  zero_notMem_append (zero_notMem_append (zero_notMem_headerField (by decide) _)
    (zero_notMem_headerField (by decide) _)) (zero_notMem_headerField (by decide) _)

theorem zero_notMem_contentFields (m : Msg) : 0 ∉ m.contentFields :=
  zero_notMem_append (zero_notMem_headerField (by decide) _)
    (zero_notMem_headerField (by decide) _)

theorem zero_notMem_httpHeader (m : Msg) (serverName : Bytes) : 0 ∉ m.httpHeader serverName :=
  zero_notMem_append (zero_notMem_append (zero_notMem_append (zero_notMem_append (by decide)
    (zero_notMem_headerField (by decide) _)) m.zero_notMem_contentFields)
    m.zero_notMem_connectionField) (by decide)

theorem zero_notMem_replyHeader (m : Msg) : 0 ∉ m.replyHeader :=
  zero_notMem_append (zero_notMem_append (zero_notMem_append (zero_notMem_append
    m.zero_notMem_statusLine m.zero_notMem_routingFields) m.zero_notMem_contentFields)
    m.zero_notMem_connectionField) (by decide)

theorem zero_notMem_emptyReplyHeader (m : Msg) (elapsed : Bytes) :
    0 ∉ m.emptyReplyHeader elapsed :=
  zero_notMem_append (zero_notMem_append (zero_notMem_append m.zero_notMem_statusLine
    (zero_notMem_headerField (by decide) _)) (zero_notMem_headerField (by decide) _))
    m.zero_notMem_connectionField

theorem zero_notMem_requestHeader (m : Msg) {contentFields : Bytes} (hc : 0 ∉ contentFields) :
    0 ∉ m.requestHeader contentFields := by
  have hcommand : 0 ∉ m.commandLine :=
    zero_notMem_append (zero_notMem_append (zero_notMem_cstr _) (by decide)) (by decide)
  unfold requestHeader
  exact zero_notMem_append (zero_notMem_append (zero_notMem_append (zero_notMem_append
    hcommand m.zero_notMem_routingFields) hc) m.zero_notMem_connectionField) (by decide)

/-- The texts printed for the message fit the buffers they are printed into, its payload can be read
and `m_response` can grow to the whole. -/
structure Printable (m : Msg) (elapsed text : Bytes) : Prop where
  own : m.ownText elapsed = some text
  size : (text.length : ℤ)+8 ≤ intMax
  payload : (m.msgFormat = .res ∨ m.msgFormat = .notify) ∨ 0 < m.msgContentLength →
    ∀ p, m.payloadMem = some p →
      ∃ n : ℕ, lengthArg p m.msgContentLength = .ok n ∧ n ≤ p.length
  emptyReply : m.msgFormat = .res ∨ m.msgFormat = .notify → m.msgContentLength = 0 →
    (m.emptyReplyHeader elapsed).length < 2048 ∧ (headerField "From" m.msgFrom).length < 2048 ∧
      (0 < (cstr m.msgCommand).length → (headerField "Command" m.msgCommand).length < 2048)
  reply : m.msgFormat = .res ∨ m.msgFormat = .notify → m.msgContentLength ≠ 0 →
    m.replyHeader.length ≤ 5000
  request : ¬ (m.msgFormat = .res ∨ m.msgFormat = .notify) → 0 < m.msgContentLength →
    (m.requestHeader m.contentFields).length ≤ 5000
  emptyRequest : ¬ (m.msgFormat = .res ∨ m.msgFormat = .notify) → ¬ 0 < m.msgContentLength →
    (m.requestHeader []).length ≤ 5000

theorem payloadText_eq {m : Msg} {p : Bytes} {n : ℕ} (hp : m.payloadMem = some p)
    (hn : lengthArg p m.msgContentLength = .ok n) : m.payloadText = p.take n := by
  unfold payloadText lengthArg at *
  rw [hp]
  dsimp only
  split_ifs at hn ⊢ with hneg
  · unfold strlen at hn
    split_ifs at hn
    have hn' : (cstr p).length = n := by exact_mod_cast Except.ok.inj hn
    rw [← hn', take_length_cstr]
  · rw [Except.ok.inj hn, Int.toNat_natCast]

end Msg

/-! ### The response -/

namespace ConnectionHandlerOutbound

/-- What `withPayload` leaves when it returns. -/
theorem withPayload_inv [Malloc] {h : ConnectionHandlerOutbound} {m : Msg} {c header : Bytes}
    {b : Buffer} (hr : h.response.Holds c) (h0 : 0 ∉ header) (hlen : m.msgContentLength ≠ 0)
    (hb : h.withPayload m header = .ok b) : b.Holds (header ++ m.payloadText) := by
  obtain ⟨b₁, hb₁, hb⟩ := bind_eq_ok.mp hb
  obtain ⟨r, hr', hb⟩ := bind_eq_ok.mp hb
  have hprinted := hr.sprintf_inv h0 hb₁
  rw [← Except.ok.inj hb]
  cases hp : m.payloadMem with
  | none =>
    rw [hp, Buffer.append, if_neg hlen] at hr'
    rw [← Except.ok.inj hr', Msg.payloadText, hp, List.append_nil]
    exact hprinted
  | some p =>
    rw [hp] at hr'
    have harg : ∃ k, lengthArg p m.msgContentLength = .ok k := by
      rw [Buffer.append, if_neg hlen] at hr'
      obtain ⟨k, hk, -⟩ := bind_eq_ok.mp hr'
      exact ⟨k, hk⟩
    obtain ⟨k, hk⟩ := harg
    obtain ⟨n, rfl, -, hholds⟩ := hprinted.append_inv hlen hk hr'
    rwa [Msg.payloadText_eq hp hk]

theorem withPayload_fits [Malloc] {h : ConnectionHandlerOutbound} {m : Msg} {c header : Bytes}
    (hr : h.response.Holds c) (h0 : 0 ∉ header) (hlen : m.msgContentLength ≠ 0)
    (hheader : header.length ≤ 5000) (hsize : ((header ++ m.payloadText).length : ℤ)+8 ≤ intMax)
    (hpayload : ∀ p, m.payloadMem = some p →
      ∃ n : ℕ, lengthArg p m.msgContentLength = .ok n ∧ n ≤ p.length) :
    ∃ b, h.withPayload m header = .ok b ∧ b.Holds (header ++ m.payloadText) := by
  obtain ⟨b₁, hb₁, hprinted⟩ := hr.sprintf_fits h0 hheader
  rw [withPayload, hb₁, ok_bind]
  cases hp : m.payloadMem with
  | none =>
    refine ⟨b₁, ?_, ?_⟩
    · rw [Buffer.append, if_neg hlen]
      rfl
    · rwa [Msg.payloadText, hp, List.append_nil]
  | some p =>
    obtain ⟨n, harg, hn⟩ := hpayload p hp
    rw [Msg.payloadText_eq hp harg] at hsize ⊢
    obtain ⟨b, hb, hseal⟩ := hprinted.append_arg hlen harg hn (Or.inr (by
      rw [hprinted.tail_eq]
      simp only [List.length_append, List.length_take, min_eq_left hn, Nat.cast_add] at hsize
      exact hsize))
    refine ⟨b, ?_, hseal.holds⟩
    rw [hb]
    rfl

/-- The field `To` of an empty reply, in three pieces. -/
theorem appendTo_inv [Malloc] {b b' : Buffer} {c dest : Bytes} (h : b.Holds c)
    (hb' : appendTo b dest = .ok b') :
    b'.Holds (c ++ if 0 < (cstr dest).length then headerField "To" dest else []) := by
  unfold appendTo at hb'
  split_ifs at hb' ⊢
  · obtain ⟨b₁, hb₁, hb'⟩ := bind_eq_ok.mp hb'
    obtain ⟨b₂, hb₂, hb'⟩ := bind_eq_ok.mp hb'
    have h₁ := h.appendString_inv (by decide) hb₁
    have h₂ := h₁.appendString_inv (zero_notMem_cstr dest) hb₂
    have h₃ := h₂.appendString_inv (by decide) hb'
    have hname : bytes "To" ++ bytes ": " = bytes "To: " := rfl
    rw [headerField, hname]
    simpa only [List.append_assoc] using h₃
  · rw [← Except.ok.inj hb', List.append_nil]
    exact h

theorem appendTo_fits [Malloc] {b : Buffer} {c : Bytes} (dest : Bytes) (h : b.Holds c)
    (hfit : ((c ++ if 0 < (cstr dest).length then headerField "To" dest else []).length : ℤ)+8 ≤
      intMax) : ∃ b', appendTo b dest = .ok b' ∧
      b'.Holds (c ++ if 0 < (cstr dest).length then headerField "To" dest else []) := by
  unfold appendTo
  split_ifs at hfit ⊢
  · have hname : (bytes "To: ").length = 4 := rfl
    have hend : crlf.length = 2 := rfl
    have htotal : (headerField "To" dest).length = 4+(cstr dest).length+2 := by
      simp only [headerField, List.length_append, hend]
      exact congrArg (· + (cstr dest).length + 2) hname
    simp only [List.length_append, htotal, Nat.cast_add] at hfit
    obtain ⟨b₁, hb₁, h₁⟩ := h.appendString (s := bytes "To: ") (by decide) (by omega)
    obtain ⟨b₂, hb₂, h₂⟩ := h₁.appendString (zero_notMem_cstr dest) (by
      rw [List.length_append]; omega)
    obtain ⟨b₃, hb₃, h₃⟩ := h₂.appendString (s := crlf) (by decide) (by
      rw [List.length_append, List.length_append]; omega)
    refine ⟨b₃, by rw [hb₁, ok_bind, hb₂, ok_bind, hb₃], ?_⟩
    have hjoin : bytes "To" ++ bytes ": " = bytes "To: " := rfl
    rw [headerField, hjoin]
    simpa only [List.append_assoc] using h₃
  · exact ⟨b, rfl, by rwa [List.append_nil]⟩

theorem appendCommand_inv [Malloc] {b b' : Buffer} {c command : Bytes} (h : b.Holds c)
    (hb' : appendCommand b command = .ok b') :
    b'.Holds (c ++ if 0 < (cstr command).length then headerField "Command" command ++ crlf
      else []) := by
  unfold appendCommand at hb'
  split_ifs at hb' ⊢
  · obtain ⟨text, htext, hb'⟩ := bind_eq_ok.mp hb'
    obtain ⟨b₁, hb₁, hb'⟩ := bind_eq_ok.mp hb'
    rw [(testBuffer_eq_ok.mp htext).2] at hb₁
    have h₁ := h.appendString_inv (zero_notMem_headerField (by decide) command) hb₁
    have h₂ := h₁.appendString_inv (by decide) hb'
    simpa only [List.append_assoc] using h₂
  · rw [← Except.ok.inj hb', List.append_nil]
    exact h

theorem appendCommand_fits [Malloc] {b : Buffer} {c command : Bytes} (h : b.Holds c)
    (htest : 0 < (cstr command).length → (headerField "Command" command).length < 2048)
    (hfit : ((c ++ if 0 < (cstr command).length then headerField "Command" command ++ crlf
      else []).length : ℤ)+8 ≤ intMax) : ∃ b', appendCommand b command = .ok b' ∧
      b'.Holds (c ++ if 0 < (cstr command).length then headerField "Command" command ++ crlf
        else []) := by
  unfold appendCommand
  split_ifs at hfit ⊢ with hpos
  · simp only [List.length_append, Nat.cast_add] at hfit
    obtain ⟨b₁, hb₁, h₁⟩ := h.appendString
      (zero_notMem_headerField (show 0 ∉ bytes "Command" by decide) command) (by omega)
    obtain ⟨b₂, hb₂, h₂⟩ := h₁.appendString (s := crlf) (by decide) (by
      rw [List.length_append]; omega)
    refine ⟨b₂, ?_, by simpa only [List.append_assoc] using h₂⟩
    rw [testBuffer_eq_ok.mpr ⟨htest hpos, rfl⟩, ok_bind, hb₁, ok_bind, hb₂]
  · exact ⟨b, rfl, by rwa [List.append_nil]⟩

theorem emptyReply_inv [Malloc] {h : ConnectionHandlerOutbound} {env : OutboundEnv} {m : Msg}
    {c : Bytes} {b : Buffer} (hr : h.response.Holds c) (hb : h.emptyReply env m = .ok b) :
    b.Holds (m.emptyReplyText env.elapsed.text) := by
  obtain ⟨t₁, ht₁, hb⟩ := bind_eq_ok.mp hb
  obtain ⟨r, hr', hb⟩ := bind_eq_ok.mp hb
  obtain ⟨b₁, hb₁, hb⟩ := bind_eq_ok.mp hb
  obtain ⟨t₂, ht₂, hb⟩ := bind_eq_ok.mp hb
  obtain ⟨b₂, hb₂, hb⟩ := bind_eq_ok.mp hb
  obtain ⟨b₃, hb₃, hb⟩ := bind_eq_ok.mp hb
  rw [(testBuffer_eq_ok.mp ht₁).2] at hr'
  rw [(testBuffer_eq_ok.mp ht₂).2] at hb₂
  have h₀ := hr.replaceString_inv (m.zero_notMem_emptyReplyHeader _) hr'
  have h₁ := appendTo_inv h₀ hb₁
  have h₂ := h₁.appendString_inv (zero_notMem_headerField (by decide) m.msgFrom) hb₂
  have h₃ := appendCommand_inv h₂ hb₃
  exact h₃.appendString_inv (by decide) hb

theorem emptyReply_fits [Malloc] {h : ConnectionHandlerOutbound} {env : OutboundEnv} {m : Msg}
    {c : Bytes} (hr : h.response.Holds c)
    (htest : (m.emptyReplyHeader env.elapsed.text).length < 2048 ∧
      (headerField "From" m.msgFrom).length < 2048 ∧
      (0 < (cstr m.msgCommand).length → (headerField "Command" m.msgCommand).length < 2048))
    (hfit : ((m.emptyReplyText env.elapsed.text).length : ℤ)+8 ≤ intMax) :
    ∃ b, h.emptyReply env m = .ok b ∧ b.Holds (m.emptyReplyText env.elapsed.text) := by
  obtain ⟨hstart, hfrom, hcommand⟩ := htest
  unfold Msg.emptyReplyText at hfit ⊢
  rw [List.length_append, List.length_append, List.length_append, List.length_append] at hfit
  obtain ⟨b₀, hb₀, h₀⟩ := hr.replaceString (m.zero_notMem_emptyReplyHeader env.elapsed.text)
    (by omega)
  obtain ⟨b₁, hb₁, h₁⟩ := appendTo_fits m.msgTo h₀ (by
    rw [List.length_append]; omega)
  obtain ⟨b₂, hb₂, h₂⟩ := h₁.appendString
    (zero_notMem_headerField (show 0 ∉ bytes "From" by decide) m.msgFrom) (by
      rw [List.length_append]; omega)
  obtain ⟨b₃, hb₃, h₃⟩ := appendCommand_fits h₂ hcommand (by
    rw [List.length_append, List.length_append, List.length_append]; omega)
  obtain ⟨b₄, hb₄, h₄⟩ := h₃.appendString (s := crlf) (by decide) (by
    rw [List.length_append, List.length_append, List.length_append]; omega)
  refine ⟨b₄, ?_, h₄⟩
  rw [emptyReply, testBuffer_eq_ok.mpr ⟨hstart, rfl⟩, ok_bind, hb₀, ok_bind]
  dsimp only
  rw [hb₁, ok_bind, testBuffer_eq_ok.mpr ⟨hfrom, rfl⟩, ok_bind, hb₂, ok_bind, hb₃, ok_bind, hb₄]

/-- A response that is formatted is the text of its message. -/
theorem formatResponse_inv [Malloc] {h : ConnectionHandlerOutbound} {env : OutboundEnv} {m : Msg}
    {c text : Bytes} {b : Buffer} (hr : h.response.Holds c)
    (hown : m.ownText env.elapsed.text = some text) (hb : h.formatResponse env m = .ok b) :
    b.Holds text := by
  unfold formatResponse at hb
  unfold Msg.ownText at hown
  split_ifs at hb hown with hformat hmcp hlen hlen
  · rw [← Option.some.inj hown]
    exact emptyReply_inv hr hb
  · rw [← Option.some.inj hown]
    exact withPayload_inv hr m.zero_notMem_replyHeader hlen hb
  · rw [← Option.some.inj hown]
    exact withPayload_inv hr (m.zero_notMem_requestHeader m.zero_notMem_contentFields)
      (by omega) hb
  · rw [← Option.some.inj hown]
    exact hr.sprintf_inv (m.zero_notMem_requestHeader (by simp)) hb

/-- A printable message is formatted whatever the handler did before. -/
theorem formatResponse_fits [Malloc] {h : ConnectionHandlerOutbound} {env : OutboundEnv} {m : Msg}
    {c text : Bytes} (hr : h.response.Holds c) (hm : m.Printable env.elapsed.text text) :
    ∃ b, h.formatResponse env m = .ok b ∧ b.Holds text := by
  have hown := hm.own
  have hsize := hm.size
  unfold formatResponse
  unfold Msg.ownText at hown
  split_ifs at hown ⊢ with hformat hmcp hlen hlen
  · rw [← Option.some.inj hown] at hsize ⊢
    exact emptyReply_fits hr (hm.emptyReply hformat hlen) hsize
  · rw [← Option.some.inj hown] at hsize ⊢
    exact withPayload_fits hr m.zero_notMem_replyHeader hlen (hm.reply hformat hlen) hsize
      (hm.payload (Or.inl hformat))
  · rw [← Option.some.inj hown] at hsize ⊢
    exact withPayload_fits hr (m.zero_notMem_requestHeader m.zero_notMem_contentFields)
      (by omega) (hm.request hformat hlen) hsize
      (hm.payload (Or.inr hlen))
  · rw [← Option.some.inj hown]
    exact hr.sprintf_fits (m.zero_notMem_requestHeader (by simp)) (hm.emptyRequest hformat hlen)

end ConnectionHandlerOutbound
/-! ### Sending -/

/-- Whether the results take `n` bytes, and the results left. -/
def taken : ℕ → List SendResult → Bool × List SendResult
  | _, [] => (false, [])
  | _, .failed :: rs => (false, rs)
  | n, .again :: rs => if n = 0 then (true, rs) else taken n rs
  | n, .sent k :: rs => if n-k = 0 then (true, rs) else taken (n-k) rs

/-- How a `TCPSend` ends depends on the number of bytes only. -/
theorem sendLoop_taken (buf : Bytes) (rs : List SendResult) :
    ((sendLoop buf rs).bRet, (sendLoop buf rs).rest) = taken buf.length rs := by
  induction rs generalizing buf with
  | nil => rfl
  | cons a rs ih =>
    cases a with
    | failed => rfl
    | again =>
      rw [sendLoop, taken]
      by_cases hbuf : buf = []
      · rw [if_pos hbuf, if_pos (by rw [hbuf]; rfl)]
      · rw [if_neg hbuf, if_neg (by rwa [List.length_eq_zero_iff])]
        exact ih buf
    | sent k =>
      rw [sendLoop, taken, ← List.length_drop]
      by_cases hbuf : buf.drop k = []
      · rw [if_pos hbuf, if_pos (by rw [hbuf]; rfl)]
      · rw [if_neg hbuf, if_neg (by rwa [List.length_eq_zero_iff])]
        exact ih (buf.drop k)

theorem sendLoop_bRet (buf : Bytes) (rs : List SendResult) :
    (sendLoop buf rs).bRet = (taken buf.length rs).1 :=
  congrArg Prod.fst (sendLoop_taken buf rs)

theorem sendLoop_rest (buf : Bytes) (rs : List SendResult) :
    (sendLoop buf rs).rest = (taken buf.length rs).2 :=
  congrArg Prod.snd (sendLoop_taken buf rs)

/-- What a `TCPSend` got accepted is a start of what it was given. -/
theorem sendLoop_prefix (buf : Bytes) (rs : List SendResult) :
    (sendLoop buf rs).accepted <+: buf := by
  induction rs generalizing buf with
  | nil => exact List.nil_prefix
  | cons a rs ih =>
    cases a with
    | failed => exact List.nil_prefix
    | again =>
      rw [sendLoop]
      split_ifs
      · exact List.nil_prefix
      · exact ih buf
    | sent k =>
      rw [sendLoop]
      split_ifs
      · exact List.prefix_refl buf
      · have happ := (List.prefix_append_right_inj (buf.take k)).mpr (ih (buf.drop k))
        rwa [List.take_append_drop] at happ

/-- It is all of it when the loop succeeds, and never otherwise unless there was nothing to send. -/
theorem sendLoop_accepted_iff (buf : Bytes) (rs : List SendResult) :
    (sendLoop buf rs).accepted = buf ↔ (sendLoop buf rs).bRet = true ∨ buf = [] := by
  induction rs generalizing buf with
  | nil => simp [sendLoop, eq_comm]
  | cons a rs ih =>
    cases a with
    | failed => simp [sendLoop, eq_comm]
    | again =>
      rw [sendLoop]
      split_ifs with hbuf
      · simp [hbuf]
      · exact ih buf
    | sent k =>
      rw [sendLoop]
      split_ifs with hdrop
      · simp
      · have hbuf : buf ≠ [] := by
          intro hnil
          exact hdrop (by rw [hnil, List.drop_nil])
        have hrest := ih (buf.drop k)
        rw [or_iff_left hdrop] at hrest
        rw [or_iff_left hbuf, ← hrest]
        conv_lhs => rhs; rw [← List.take_append_drop k buf]
        exact List.append_cancel_left_eq _ _ _ |>.to_iff

/-- The bytes a list of actions got accepted, in order. -/
def acceptedBytes (actions : List NetAction) : Bytes :=
  actions.flatMap fun
    | .tcpSend _ _ accepted => accepted
    | .openTCP _ _ | .sendto _ _ _ _ | .close _ => []

namespace OutboundState

variable (s : OutboundState) (fd : ℤ) (r : SendRun)

@[simp] theorem setHandler_pMsg (h : ConnectionHandlerOutbound) :
    (s.setHandler h).pMsg = s.pMsg := rfl

@[simp] theorem setHandler_handler (h : ConnectionHandlerOutbound) :
    (s.setHandler h).handler = h := rfl

@[simp] theorem setHandler_actions (h : ConnectionHandlerOutbound) :
    (s.setHandler h).actions = s.actions := rfl

@[simp] theorem setHandler_msgDelivered (h : ConnectionHandlerOutbound) :
    (s.setHandler h).msgDelivered = s.msgDelivered := rfl

/-- What is left of a send: the actions, the results used up and the flag. -/
theorem afterSend_eq : s.afterSend fd r = { s with
    sends := if fd < 0 then s.sends else r.rest
    actions := s.actions ++ [.tcpSend fd r.offered r.accepted] ++
      if !r.bRet && s.handler.bSocketCreated then [.close fd] else []
    handler := { s.handler with
      bCloseConnection := s.handler.bCloseConnection || !r.bRet && !s.handler.bSocketCreated ||
        !s.pMsg.keepAlive } } := by
  obtain ⟨⟨flag, response, serverAddr, temp, port, created⟩, m, sends, actions, d, u⟩ := s
  cases hret : r.bRet <;> cases created <;> cases hkeep : m.keepAlive <;>
    simp [afterSend, act, closeLater, setHandler, hret, hkeep]

@[simp] theorem afterSend_pMsg : (s.afterSend fd r).pMsg = s.pMsg := by
  rw [afterSend_eq]

@[simp] theorem afterSend_msgDelivered : (s.afterSend fd r).msgDelivered = s.msgDelivered := by
  rw [afterSend_eq]

theorem afterSend_sends :
    (s.afterSend fd r).sends = if fd < 0 then s.sends else r.rest := by
  rw [afterSend_eq]

theorem acceptedBytes_afterSend :
    acceptedBytes (s.afterSend fd r).actions = acceptedBytes s.actions ++ r.accepted := by
  rw [afterSend_eq]
  cases r.bRet <;> cases s.handler.bSocketCreated <;> simp [acceptedBytes]

end OutboundState
end MsgCourier
