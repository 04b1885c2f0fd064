import MsgCourier.Delivery
import MsgCourier.FileCoherence
import MsgCourier.HandlerHistory

/-! The formatted texts of `TransmitMsg` and of the file cache beside the memory they are printed
into. A `%s` prints a field up to its NUL, whatever its length. -/
namespace MsgCourier
open ListSearch CText ZeroFill

/-! ### Calls -/

/-- Where a call prints: `m_TestBuffer`, or a block after `SetBufferSize`. -/
inductive PrintTarget
  | testBuffer
  | block (b : Buffer) (iBufferSize : ℤ)

def PrintTarget.size [Malloc] : PrintTarget → Cxx ℤ
  | .testBuffer => pure 2048
  | .block b iBufferSize => do
    let b ← b.setBufferSize iBufferSize
    pure b.bufferSize

/-- A call of `sprintf` or `vsprintf`; no text is defined where the arguments do not match the
format. -/
structure PrintCall where
  target : PrintTarget
  text : Option Bytes

/-- The text and its NUL lie in the target. -/
def PrintCall.Fits [Malloc] (c : PrintCall) : Prop :=
  ∃ text size, c.text = some text ∧ c.target.size = .ok size ∧ (text.length : ℤ)+1 ≤ size

/-- The calls for a reply without payload. -/
def Msg.emptyReplyPrints (m : Msg) (env : OutboundEnv) : List PrintCall :=
  [⟨.testBuffer, some (m.emptyReplyHeader env.elapsed.text)⟩,
    ⟨.testBuffer, some (headerField "From" m.msgFrom)⟩] ++
  (if 0 < (cstr m.msgCommand).length then
    [⟨.testBuffer, some (headerField "Command" m.msgCommand)⟩]
  else [])

/-- The calls `TransmitMsg` makes for a message, branch by branch. -/
def ConnectionHandlerOutbound.prints (h : ConnectionHandlerOutbound) (env : OutboundEnv) (m : Msg) :
    List PrintCall :=
  if m.msgProtocolType = .httpGet ∨ m.msgProtocolType = .httpPost then
    match m.payloadMem with
    | none => []
    | some p =>
      if strstr p (bytes "HTTP/1.") = none then
        [⟨.block h.response 5000, some (m.httpHeader env.serverName)⟩]
      else []
  else if m.msgFormat = .res ∨ m.msgFormat = .notify then
    if m.msgProtocolType = .mcp then
      if m.msgContentLength = 0 then m.emptyReplyPrints env
      else [⟨.block h.response 5000, some m.replyHeader⟩]
    else if m.msgProtocolType = .httpMcp then [⟨.block h.response 5000, none⟩]
    else []
  else if 0 < m.msgContentLength then
    [⟨.block h.response 5000, some (m.requestHeader m.contentFields)⟩]
  else [⟨.block h.response 5000, some (m.requestHeader [])⟩]

/-- The call of `Store`, on a new buffer. -/
def FileCache.prints (x : FileCache) (fileName fileData : Bytes) (fileTimeStamp : ℤ) :
    List PrintCall :=
  if x.cacheSize < fileData.length then []
  else [⟨.block {} 1024, some (cstr fileName ++ formatInt fileTimeStamp)⟩]

/-! ### The memory of a block -/

namespace Buffer

/-- A block that is not larger is replaced, by one eight bytes larger. -/
def printRoom (b : Buffer) (n : ℤ) : ℤ := if n < b.bufferSize then b.bufferSize else adjustSize n

theorem Holds.size_of_setBufferSize [Malloc] {b : Buffer} {c : Bytes} (h : b.Holds c) {n : ℤ}
    (h0 : 0 ≤ n) (hn : n+8 ≤ intMax) : (PrintTarget.block b n).size = .ok (b.printRoom n) := by
  obtain ⟨junk, hset, -⟩ := h.setBufferSize h0 (Or.inr hn)
  have hsize : ∀ b', b.setBufferSize n = .ok b' → b'.bufferSize = b.printRoom n := by
    intro b' hb'
    unfold printRoom
    cases h with
    | null =>
      obtain ⟨mem, -, hb'⟩ := bind_eq_ok.mp hb'
      rw [← Except.ok.inj hb', if_neg (not_lt.mpr h0)]
    | block c junk hj hs =>
      unfold Buffer.setBufferSize at hb'
      dsimp only at hb' ⊢
      by_cases hle : ((c ++ junk).length : ℤ) ≤ n
      · rw [if_pos hle] at hb'
        obtain ⟨mem, -, hb'⟩ := bind_eq_ok.mp hb'
        obtain ⟨old, -, hb'⟩ := bind_eq_ok.mp hb'
        obtain ⟨mem', -, hb'⟩ := bind_eq_ok.mp hb'
        rw [← Except.ok.inj hb', if_neg (not_lt.mpr hle)]
      · rw [if_neg hle] at hb'
        rw [← Except.ok.inj hb', if_pos (not_le.mp hle)]
  rw [PrintTarget.size, hset, ok_bind, pure_eq_ok, hsize _ hset]

end Buffer

namespace PrintCall

theorem fits_testBuffer_iff [Malloc] (text : Bytes) :
    (⟨.testBuffer, some text⟩ : PrintCall).Fits ↔ text.length < 2048 := by
  constructor
  · rintro ⟨text', size, htext, hsize, hle⟩
    rw [← Option.some.inj htext, ← Except.ok.inj hsize] at hle
    omega
  · intro hlt
    exact ⟨text, 2048, rfl, rfl, by omega⟩

theorem fits_block_iff [Malloc] {b : Buffer} {c : Bytes} (h : b.Holds c) {n : ℤ} (h0 : 0 ≤ n)
    (hn : n+8 ≤ intMax) (text : Bytes) :
    (⟨.block b n, some text⟩ : PrintCall).Fits ↔ (text.length : ℤ) < b.printRoom n := by
  have hroom := h.size_of_setBufferSize h0 hn
  constructor
  · rintro ⟨text', size, htext, hsize, hle⟩
    have heq := Except.ok.inj (hroom.symm.trans hsize)
    rw [← Option.some.inj htext, ← heq] at hle
    omega
  · intro hlt
    exact ⟨text, b.printRoom n, rfl, hroom, by omega⟩

theorem not_fits_none [Malloc] (target : PrintTarget) : ¬ (⟨target, none⟩ : PrintCall).Fits := by
  rintro ⟨text, size, htext, -⟩
  cases htext

end PrintCall

/-! ### The lengths of the texts -/

theorem length_headerField (name : String) (value : Bytes) :
    (headerField name value).length = (bytes name).length+(cstr value).length+4 := by
  have hcolon : (bytes ": ").length = 2 := by decide
  have hend : crlf.length = 2 := by decide
  unfold headerField
  rw [List.length_append, List.length_append, List.length_append, hcolon, hend]
  omega

namespace Msg

variable (m : Msg)

/-- Bytes of `keep-alive` or `close`. -/
def connectionLength : ℕ := if m.keepAlive then 10 else 5

def typeLength : ℕ := if m.msgFormat = .notify then 6 else 5

theorem length_connectionField : m.connectionField.length = m.connectionLength+14 := by
  unfold connectionField connectionLength
  cases m.keepAlive <;> decide

theorem length_lengthField :
    m.lengthField.length = (formatInt m.msgContentLength).length+18 := by
  have hname : (bytes "Content-Length").length = 14 := by decide
  rw [lengthField, length_headerField, hname, cstr_eq_self (zero_notMem_formatInt _)]
  omega

theorem length_statusLine :
    m.statusLine.length = (formatInt3 m.msgResponseCode).length+m.typeLength+11 := by
  have hstart : (bytes "MCP/1.0 ").length = 8 := by decide
  have hblank : (bytes " ").length = 1 := by decide
  have hend : crlf.length = 2 := by decide
  have htype : m.messageType.length = m.typeLength := by
    unfold messageType typeLength
    split_ifs <;> decide
  simp only [statusLine, List.length_append, hstart, hblank, hend, htype]
  omega

theorem length_routingFields : m.routingFields.length =
    (cstr m.msgID).length+(cstr m.msgTo).length+(cstr m.msgFrom).length+23 := by
  have hid : (bytes "MsgID").length = 5 := by decide
  have hto : (bytes "To").length = 2 := by decide
  have hfrom : (bytes "From").length = 4 := by decide
  simp only [routingFields, List.length_append, length_headerField, hid, hto, hfrom]
  omega

theorem length_contentFields : m.contentFields.length =
    (cstr m.msgContentType).length+(formatInt m.msgContentLength).length+34 := by
  have hname : (bytes "Content-Type").length = 12 := by decide
  rw [contentFields, List.length_append, length_headerField, hname, length_lengthField]
  omega

theorem length_httpHeader (serverName : Bytes) : (m.httpHeader serverName).length =
    (cstr serverName).length+(cstr m.msgContentType).length+
      (formatInt m.msgContentLength).length+m.connectionLength+77 := by
  have hstart : (bytes "HTTP/1.1 200 OK\r\n").length = 17 := by decide
  have hname : (bytes "Server").length = 6 := by decide
  have hend : crlf.length = 2 := by decide
  simp only [httpHeader, List.length_append, hstart, length_headerField, hname,
    length_contentFields, length_connectionField, hend]
  omega

theorem length_replyHeader : m.replyHeader.length =
    (formatInt3 m.msgResponseCode).length+m.typeLength+(cstr m.msgID).length+
      (cstr m.msgTo).length+(cstr m.msgFrom).length+(cstr m.msgContentType).length+
      (formatInt m.msgContentLength).length+m.connectionLength+84 := by
  have hend : crlf.length = 2 := by decide
  simp only [replyHeader, List.length_append, length_statusLine, length_routingFields,
    length_contentFields, length_connectionField, hend]
  omega

theorem length_emptyReplyHeader {elapsed : Bytes} (h0 : 0 ∉ elapsed) :
    (m.emptyReplyHeader elapsed).length = (formatInt3 m.msgResponseCode).length+m.typeLength+
      (cstr m.msgID).length+elapsed.length+m.connectionLength+43 := by
  have hid : (bytes "MsgID").length = 5 := by decide
  have hpt : (bytes "MsgPT").length = 5 := by decide
  simp only [emptyReplyHeader, List.length_append, length_statusLine, length_headerField, hid, hpt,
    cstr_eq_self h0, length_connectionField]
  omega

theorem length_requestHeader (contentFields : Bytes) : (m.requestHeader contentFields).length =
    (cstr m.msgCommand).length+(cstr m.msgID).length+(cstr m.msgTo).length+
      (cstr m.msgFrom).length+contentFields.length+m.connectionLength+49 := by
  have hversion : (bytes " MCP/1.0").length = 8 := by decide
  have hend : crlf.length = 2 := by decide
  simp only [requestHeader, commandLine, List.length_append, length_routingFields,
    length_connectionField, hversion, hend]
  omega

/-- The bytes that the fields of a message may have together, for a response block of `room` bytes
and the fixed 2048 of `m_TestBuffer`. -/
def FieldsFit (env : OutboundEnv) (room : ℤ) : Prop :=
  let id := (cstr m.msgID).length
  let to' := (cstr m.msgTo).length
  let source := (cstr m.msgFrom).length
  let command := (cstr m.msgCommand).length
  let type := (cstr m.msgContentType).length
  let count := (formatInt m.msgContentLength).length
  let status := (formatInt3 m.msgResponseCode).length+m.typeLength
  if m.msgProtocolType = .httpGet ∨ m.msgProtocolType = .httpPost then
    ∀ p, m.payloadMem = some p → strstr p (bytes "HTTP/1.") = none →
      (((cstr env.serverName).length+type+count+m.connectionLength+77 : ℕ) : ℤ) < room
  else if m.msgFormat = .res ∨ m.msgFormat = .notify then
    if m.msgProtocolType = .mcp then
      if m.msgContentLength = 0 then
        status+id+env.elapsed.text.length+m.connectionLength+43 < 2048 ∧ source+8 < 2048 ∧
          (0 < command → command+11 < 2048)
      else ((status+id+to'+source+type+count+m.connectionLength+84 : ℕ) : ℤ) < room
    else m.msgProtocolType ≠ .httpMcp
  else if 0 < m.msgContentLength then
    ((command+id+to'+source+type+count+m.connectionLength+83 : ℕ) : ℤ) < room
  else ((command+id+to'+source+m.connectionLength+49 : ℕ) : ℤ) < room

end Msg

/-! ### Every call of the two functions -/

theorem Msg.emptyReplyPrints_fit_iff [Malloc] (m : Msg) (env : OutboundEnv) :
    (∀ c ∈ m.emptyReplyPrints env, c.Fits) ↔
      (formatInt3 m.msgResponseCode).length+m.typeLength+(cstr m.msgID).length+
        env.elapsed.text.length+m.connectionLength+43 < 2048 ∧
      (cstr m.msgFrom).length+8 < 2048 ∧
      (0 < (cstr m.msgCommand).length → (cstr m.msgCommand).length+11 < 2048) := by
  have hfrom : (bytes "From").length = 4 := by decide
  have hname : (bytes "Command").length = 7 := by decide
  have hplain : 0 ∉ env.elapsed.text := fun h => (env.elapsed.plain 0 h).2.2 rfl
  have hcommand : (∀ c ∈ (if 0 < (cstr m.msgCommand).length then
      [(⟨.testBuffer, some (headerField "Command" m.msgCommand)⟩ : PrintCall)] else []), c.Fits) ↔
      (0 < (cstr m.msgCommand).length → (cstr m.msgCommand).length+11 < 2048) := by
    split_ifs with hpos
    · rw [List.forall_mem_singleton, PrintCall.fits_testBuffer_iff, length_headerField, hname]
      constructor
      · intro hlt _
        omega
      · intro hlt
        have hlen := hlt hpos
        omega
    · exact iff_of_true (fun _ h => nomatch h) fun h => absurd h hpos
  rw [emptyReplyPrints, List.forall_mem_append, List.forall_mem_cons, List.forall_mem_singleton,
    hcommand, PrintCall.fits_testBuffer_iff, PrintCall.fits_testBuffer_iff,
    m.length_emptyReplyHeader hplain, length_headerField, hfrom, and_assoc]
  refine and_congr Iff.rfl (and_congr ?_ Iff.rfl)
  omega

theorem ConnectionHandlerOutbound.prints_fit_iff [Malloc] {h : ConnectionHandlerOutbound}
    (hs : h.Sound) (env : OutboundEnv) (m : Msg) : (∀ c ∈ h.prints env m, c.Fits) ↔
      m.FieldsFit env (h.response.printRoom 5000) := by
  obtain ⟨c, hc⟩ := hs.response
  have hblock (text : Bytes) := PrintCall.fits_block_iff hc (n := 5000) (by decide) (by decide) text
  unfold prints Msg.FieldsFit
  dsimp only
  by_cases hpage : m.msgProtocolType = .httpGet ∨ m.msgProtocolType = .httpPost
  · rw [if_pos hpage, if_pos hpage]
    cases hp : m.payloadMem with
    | none => exact iff_of_true (fun _ h => nomatch h) fun _ h => nomatch h
    | some p =>
      dsimp only
      by_cases hhttp : strstr p (bytes "HTTP/1.") = none
      · rw [if_pos hhttp, List.forall_mem_singleton, hblock, m.length_httpHeader]
        exact ⟨fun h q hq _ => h, fun h => h p rfl hhttp⟩
      · rw [if_neg hhttp]
        refine iff_of_true (fun _ h => nomatch h) fun q hq hnone => ?_
        exact absurd (Option.some.inj hq ▸ hnone) hhttp
  · rw [if_neg hpage, if_neg hpage]
    by_cases hformat : m.msgFormat = .res ∨ m.msgFormat = .notify
    · rw [if_pos hformat, if_pos hformat]
      by_cases hmcp : m.msgProtocolType = .mcp
      · rw [if_pos hmcp, if_pos hmcp]
        by_cases hlen : m.msgContentLength = 0
        · rw [if_pos hlen, if_pos hlen]
          exact m.emptyReplyPrints_fit_iff env
        · rw [if_neg hlen, if_neg hlen, List.forall_mem_singleton, hblock, m.length_replyHeader]
      · rw [if_neg hmcp, if_neg hmcp]
        by_cases hhttp : m.msgProtocolType = .httpMcp
        · rw [if_pos hhttp, List.forall_mem_singleton]
          exact iff_of_false (PrintCall.not_fits_none _) fun h => h hhttp
        · rw [if_neg hhttp]
          exact iff_of_true (fun _ h => nomatch h) hhttp
    · rw [if_neg hformat, if_neg hformat]
      by_cases hlen : 0 < m.msgContentLength
      · -- the fields of the payload take 34 bytes beside their values
        rw [if_pos hlen, if_pos hlen, List.forall_mem_singleton, hblock, m.length_requestHeader,
          m.length_contentFields]
        omega
      · rw [if_neg hlen, if_neg hlen, List.forall_mem_singleton, hblock, m.length_requestHeader,
          List.length_nil]
        omega

/-! ### A function that returns has made its calls -/

namespace ConnectionHandlerOutbound

variable {h : ConnectionHandlerOutbound} {env : OutboundEnv} {m : Msg}

end ConnectionHandlerOutbound

/-! ### Every header and every entity tag -/

/-- A message that reaches `TransmitMsg` on a handler with any history, and a file that reaches
`Store`. -/
inductive Formatting
  | transmit (h : ConnectionHandlerOutbound) (hs : h.Sound) (env : OutboundEnv) (m : Msg)
  | store (x : FileCache) (fileName fileData : Bytes) (fileTimeStamp : ℤ)

namespace Formatting

def prints : Formatting → List PrintCall
  | transmit h _ env m => h.prints env m
  | store x fileName fileData fileTimeStamp => x.prints fileName fileData fileTimeStamp

/-- The lengths for which everything fits: a block of the response keeps the size it once had. -/
def LengthsFit : Formatting → Prop
  | transmit h _ env m =>
    m.FieldsFit env (if 5000 < h.response.bufferSize then h.response.bufferSize else 5008)
  | store x fileName fileData fileTimeStamp =>
    x.cacheSize < fileData.length ∨ (cstr fileName).length+(formatInt fileTimeStamp).length < 1032

/-- Nothing limits the fields, so the lengths decide for every message and every file. -/
theorem prints_fit_iff_lengths [Malloc] (f : Formatting) :
    (∀ c ∈ f.prints, c.Fits) ↔ f.LengthsFit := by
  cases f with
  | transmit h hs env m =>
    have hadjust : Buffer.adjustSize 5000 = 5008 := by decide
    have hiff := h.prints_fit_iff hs env m
    unfold Buffer.printRoom at hiff
    rw [hadjust] at hiff
    exact hiff
  | store x fileName fileData fileTimeStamp =>
    have hadjust : Buffer.adjustSize 1024 = 1032 := by decide
    have hblock := PrintCall.fits_block_iff Buffer.Holds.null (n := 1024) (by decide) (by decide)
      (cstr fileName ++ formatInt fileTimeStamp)
    unfold prints FileCache.prints LengthsFit
    dsimp only
    by_cases hsize : x.cacheSize < fileData.length
    · rw [if_pos hsize]
      exact iff_of_true (fun _ h => nomatch h) (Or.inl hsize)
    · have hnull : ¬ (1024 : ℤ) < ({} : Buffer).bufferSize := by decide
      rw [if_neg hsize, List.forall_mem_singleton, hblock, Buffer.printRoom, if_neg hnull, hadjust,
        List.length_append, or_iff_right hsize]
      omega

/-- A reply without payload to a request whose `MsgID` has 2048 bytes. -/
def longReply : Msg :=
  { msgFormat := .res
    msgProtocolType := .mcp
    msgID := List.replicate 2048 65 }

theorem longReply_overflows : ¬ ∀ f : Formatting, ∀ c ∈ f.prints, c.Fits := by
  intro h
  have hfresh : ({} : ConnectionHandlerOutbound).Sound := ⟨⟨[], .null⟩, ⟨[], .null⟩, ⟨[], .null⟩⟩
  have hfits := h (.transmit {} hfresh quietEnv longReply)
    ⟨.testBuffer, some (longReply.emptyReplyHeader quietEnv.elapsed.text)⟩ (List.mem_cons_self ..)
  have hplain : 0 ∉ quietEnv.elapsed.text := fun h => (quietEnv.elapsed.plain 0 h).2.2 rfl
  have hlt := (PrintCall.fits_testBuffer_iff _).mp hfits
  have hid : (cstr longReply.msgID).length = 2048 := by
    have h0 : (0 : Byte) ∉ List.replicate 2048 (65 : Byte) := by
      intro h0
      exact absurd (List.eq_of_mem_replicate h0) (by decide)
    rw [longReply, cstr_eq_self h0, List.length_replicate]
  rw [longReply.length_emptyReplyHeader hplain, hid] at hlt
  omega

end Formatting
end MsgCourier
