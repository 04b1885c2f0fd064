import MsgCourier.HandlerHistory
import MsgCourier.WireFields

/-! The texts of outbound messages as headers with named fields. -/
namespace MsgCourier
open ListSearch CText

/-- No byte that ends a line or a C string. -/
def Plain (b : Bytes) : Prop := 13 ∉ b ∧ 10 ∉ b ∧ 0 ∉ b

instance (b : Bytes) : Decidable (Plain b) := inferInstanceAs (Decidable (_ ∧ _))

theorem Plain.cstr_eq {b : Bytes} (h : Plain b) : cstr b = b :=
  cstr_eq_self h.2.2

theorem Plain.cstr {b : Bytes} (h : Plain b) : Plain (cstr b) :=
  h.cstr_eq.symm ▸ h

theorem headerField_eq (name : String) (value : Bytes) :
    headerField name value = fieldLine (bytes name, cstr value) ++ crlf := by
  have hcolon : bytes ": " = [58, 32] := by decide
  rw [headerField, fieldLine, hcolon]
  simp only [List.append_assoc, List.cons_append, List.nil_append]

/-- Lines that each end in CRLF, and an empty line. -/
theorem flatten_lines {ls : List Bytes} (hls : ls ≠ []) :
    (ls.map (· ++ crlf)).flatten ++ crlf = joinLines ls ++ crlfcrlf := by
  rw [← joinLines_crlf hls, List.append_assoc]
  rfl

namespace Msg

variable (m : Msg)

/-- A reply or a notification. -/
def Replies : Prop := m.msgFormat = .res ∨ m.msgFormat = .notify

instance : Decidable m.Replies := inferInstanceAs (Decidable (_ ∨ _))

def firstLine : Bytes :=
  if m.Replies then bytes "MCP/1.0 " ++ formatInt3 m.msgResponseCode ++ bytes " " ++ m.messageType
  else cstr m.msgCommand ++ bytes " MCP/1.0"

def routingPairs : List (Bytes × Bytes) :=
  [(bytes "MsgID", cstr m.msgID), (bytes "To", cstr m.msgTo), (bytes "From", cstr m.msgFrom)]

def contentPairs : List (Bytes × Bytes) :=
  [(bytes "Content-Type", cstr m.msgContentType),
    (bytes "Content-Length", formatInt m.msgContentLength)]

def connectionPair : Bytes × Bytes :=
  (bytes "Connection", if m.keepAlive then bytes "keep-alive" else bytes "close")

/-- The fields of an empty reply without command. -/
def emptyReplyPairs (elapsed : Bytes) : List (Bytes × Bytes) :=
  [(bytes "MsgID", cstr m.msgID), (bytes "MsgPT", elapsed), m.connectionPair] ++
    (if 0 < (cstr m.msgTo).length then [(bytes "To", cstr m.msgTo)] else []) ++
    [(bytes "From", cstr m.msgFrom)]

def wirePairs (elapsed : Bytes) : List (Bytes × Bytes) :=
  if m.Replies ∧ m.msgContentLength = 0 then m.emptyReplyPairs elapsed
  else if m.msgContentLength = 0 then m.routingPairs ++ [m.connectionPair]
  else m.routingPairs ++ m.contentPairs ++ [m.connectionPair]

theorem connectionField_eq : m.connectionField = fieldLine m.connectionPair ++ crlf := by
  rw [connectionField, headerField_eq, connectionPair]
  cases m.keepAlive <;> rfl

/-- Printed fields are lines that end in CRLF. -/
theorem routingFields_eq :
    m.routingFields = (m.routingPairs.map fun f => fieldLine f ++ crlf).flatten := by
  simp only [routingFields, routingPairs, headerField_eq, List.map_cons, List.map_nil,
    List.flatten_cons, List.flatten_nil, List.append_nil, List.append_assoc]

theorem contentFields_eq :
    m.contentFields = (m.contentPairs.map fun f => fieldLine f ++ crlf).flatten := by
  have hlength : cstr (formatInt m.msgContentLength) = formatInt m.msgContentLength :=
    cstr_eq_self (zero_notMem_formatInt _)
  simp only [contentFields, lengthField, contentPairs, headerField_eq, hlength, List.map_cons,
    List.map_nil, List.flatten_cons, List.flatten_nil, List.append_nil]

theorem commandLine_eq (h : ¬ m.Replies) : m.commandLine = m.firstLine ++ crlf := by
  rw [commandLine, firstLine, if_neg h]

theorem statusLine_eq (h : m.Replies) : m.statusLine = m.firstLine ++ crlf := by
  rw [statusLine, firstLine, if_pos h]

end Msg

/-- A first line, fields and the empty line behind them. -/
theorem printed_eq (first : Bytes) (fs : List (Bytes × Bytes)) :
    first ++ crlf ++ (fs.map fun f => fieldLine f ++ crlf).flatten ++ crlf =
      joinLines (first :: fs.map fieldLine) ++ crlfcrlf := by
  rw [← flatten_lines (List.cons_ne_nil _ _), List.map_cons, List.flatten_cons, List.map_map]
  rfl

namespace Msg

variable (m : Msg)

def wireLines (elapsed : Bytes) : List Bytes :=
  m.firstLine :: (m.wirePairs elapsed).map fieldLine

theorem replyHeader_eq (h : m.Replies) (elapsed : Bytes) (hlen : m.msgContentLength ≠ 0) :
    m.replyHeader = joinLines (m.wireLines elapsed) ++ crlfcrlf := by
  have hempty : ¬ (m.Replies ∧ m.msgContentLength = 0) := fun h => hlen h.2
  rw [wireLines, wirePairs, if_neg hempty, if_neg hlen, ← printed_eq, replyHeader,
    m.statusLine_eq h, routingFields_eq, contentFields_eq, connectionField_eq]
  simp only [List.map_append, List.flatten_append, List.map_cons, List.map_nil, List.flatten_cons,
    List.flatten_nil, List.append_nil, List.append_assoc]

theorem requestHeader_eq (h : ¬ m.Replies) (elapsed : Bytes) (hlen : m.msgContentLength ≠ 0) :
    m.requestHeader m.contentFields = joinLines (m.wireLines elapsed) ++ crlfcrlf := by
  have hempty : ¬ (m.Replies ∧ m.msgContentLength = 0) := fun h => hlen h.2
  rw [wireLines, wirePairs, if_neg hempty, if_neg hlen, ← printed_eq, requestHeader,
    m.commandLine_eq h, routingFields_eq, contentFields_eq, connectionField_eq]
  simp only [List.map_append, List.flatten_append, List.map_cons, List.map_nil, List.flatten_cons,
    List.flatten_nil, List.append_nil, List.append_assoc]

theorem emptyRequestHeader_eq (h : ¬ m.Replies) (elapsed : Bytes) (hlen : m.msgContentLength = 0) :
    m.requestHeader [] = joinLines (m.wireLines elapsed) ++ crlfcrlf := by
  have hempty : ¬ (m.Replies ∧ m.msgContentLength = 0) := fun h' => h h'.1
  rw [wireLines, wirePairs, if_neg hempty, if_pos hlen, ← printed_eq, requestHeader,
    m.commandLine_eq h, routingFields_eq, connectionField_eq]
  simp only [List.map_append, List.flatten_append, List.map_cons, List.map_nil, List.flatten_cons,
    List.flatten_nil, List.append_nil, List.append_assoc]

/-- Without a command the reply has one empty line. -/
theorem emptyReplyText_eq (h : m.Replies) {elapsed : Bytes} (h0 : 0 ∉ elapsed)
    (hlen : m.msgContentLength = 0) (hcommand : cstr m.msgCommand = []) :
    m.emptyReplyText elapsed = joinLines (m.wireLines elapsed) ++ crlfcrlf := by
  have hnone : ¬ 0 < (cstr m.msgCommand).length := by
    rw [hcommand]
    exact Nat.lt_irrefl 0
  have helapsed : cstr elapsed = elapsed := cstr_eq_self h0
  rw [wireLines, wirePairs, if_pos ⟨h, hlen⟩, ← printed_eq, emptyReplyText, if_neg hnone,
    emptyReplyHeader, m.statusLine_eq h, connectionField_eq, emptyReplyPairs]
  simp only [headerField_eq, helapsed]
  split_ifs <;>
    simp only [List.map_cons, List.map_nil, List.flatten_cons, List.flatten_nil, List.append_nil,
      List.append_assoc, List.cons_append, List.nil_append]

/-- The text of a message is its header, the empty line and the payload. -/
theorem ownText_eq {elapsed : Bytes} (h0 : 0 ∉ elapsed) (hmcp : m.msgProtocolType = .mcp)
    (hlen : 0 ≤ m.msgContentLength)
    (hcommand : m.Replies → m.msgContentLength = 0 → cstr m.msgCommand = []) :
    m.ownText elapsed = some (joinLines (m.wireLines elapsed) ++ crlfcrlf ++
      if m.msgContentLength = 0 then [] else m.payloadText) := by
  unfold ownText
  by_cases h : m.Replies
  · rw [if_pos (show _ ∨ _ from h), if_pos hmcp]
    by_cases hzero : m.msgContentLength = 0
    · rw [if_pos hzero, if_pos hzero, List.append_nil,
        m.emptyReplyText_eq h h0 hzero (hcommand h hzero)]
    · rw [if_neg hzero, if_neg hzero, m.replyHeader_eq h elapsed hzero]
  · rw [if_neg (show ¬ (_ ∨ _) from h)]
    by_cases hzero : m.msgContentLength = 0
    · rw [if_neg (by omega), if_pos hzero, List.append_nil, m.emptyRequestHeader_eq h elapsed hzero]
    · rw [if_pos (by omega), if_neg hzero, m.requestHeader_eq h elapsed hzero]

/-! ### The header of a message -/

/-- The texts of the fields are those of a line, and the command is one word other than `GET` and
`POST`. -/
structure WirePlain : Prop where
  msgID : Plain m.msgID
  msgTo : Plain m.msgTo
  msgFrom : Plain m.msgFrom
  msgContentType : Plain m.msgContentType
  msgCommand : Plain m.msgCommand
  word : 32 ∉ m.msgCommand
  notGet : m.msgCommand ≠ bytes "GET"
  notPost : m.msgCommand ≠ bytes "POST"

end Msg

theorem plain_of_digits {b : Bytes} (h : ∀ c ∈ b, c = 45 ∨ isDigit c = true) : Plain b := by
  refine ⟨fun hc => ?_, fun hc => ?_, fun hc => ?_⟩
  all_goals
    rcases h _ hc with hc | hc
    · exact absurd hc (by decide)
    · exact absurd hc (by decide)

theorem plain_formatInt (z : ℤ) : Plain (formatInt z) := by
  apply plain_of_digits
  intro c hc
  unfold formatInt at hc
  split_ifs at hc
  · exact (List.mem_cons.mp hc).imp_right isDigit_of_mem_decimal
  · exact .inr (isDigit_of_mem_decimal hc)

theorem mem_formatInt3 {z : ℤ} {c : Byte} (hc : c ∈ formatInt3 z) : c = 45 ∨ isDigit c = true := by
  have hpad (hc : c ∈ List.replicate (3-(decimal z.natAbs).length) (48 : Byte) ++
      decimal z.natAbs) : c = 45 ∨ isDigit c = true := by
    rcases List.mem_append.mp hc with hc | hc
    · rw [List.eq_of_mem_replicate hc]
      exact .inr (by decide)
    · exact .inr (isDigit_of_mem_decimal hc)
  unfold formatInt3 at hc
  dsimp only at hc
  split_ifs at hc
  · rcases List.mem_cons.mp hc with hc | hc
    · exact .inl hc
    · exact hpad hc
  · exact hpad hc

theorem plain_formatInt3 (z : ℤ) : Plain (formatInt3 z) :=
  plain_of_digits fun _ => mem_formatInt3

theorem Plain.append {b c : Bytes} (hb : Plain b) (hc : Plain c) : Plain (b ++ c) :=
  ⟨List.not_mem_append hb.1 hc.1, List.not_mem_append hb.2.1 hc.2.1,
    List.not_mem_append hb.2.2 hc.2.2⟩

namespace Msg

variable {m : Msg}

theorem WirePlain.firstLine (h : m.WirePlain) : Plain m.firstLine := by
  have hstart : Plain (bytes "MCP/1.0 ") := ⟨by decide, by decide, by decide⟩
  have hblank : Plain (bytes " ") := ⟨by decide, by decide, by decide⟩
  have hversion : Plain (bytes " MCP/1.0") := ⟨by decide, by decide, by decide⟩
  have htype : Plain m.messageType := by
    unfold messageType
    split_ifs
    · exact ⟨by decide, by decide, by decide⟩
    · exact ⟨by decide, by decide, by decide⟩
  unfold Msg.firstLine
  split_ifs
  · exact ((hstart.append (plain_formatInt3 _)).append hblank).append htype
  · rw [h.msgCommand.cstr_eq]
    exact h.msgCommand.append hversion

/-- The names of the fields in every branch. -/
def wireNames : List Bytes :=
  [bytes "MsgID", bytes "MsgPT", bytes "Connection", bytes "To", bytes "From",
    bytes "Content-Type", bytes "Content-Length"]

theorem plain_connectionPair (m : Msg) : Plain m.connectionPair.2 := by
  unfold connectionPair
  cases m.keepAlive
  · exact ⟨by decide, by decide, by decide⟩
  · exact ⟨by decide, by decide, by decide⟩

theorem WirePlain.pairs (h : m.WirePlain) {elapsed : Bytes} (helapsed : Plain elapsed)
    {f : Bytes × Bytes} (hf : f ∈ m.wirePairs elapsed) : f.1 ∈ wireNames ∧ Plain f.2 := by
  have hid : Plain (cstr m.msgID) := h.msgID.cstr
  have hto : Plain (cstr m.msgTo) := h.msgTo.cstr
  have hfrom : Plain (cstr m.msgFrom) := h.msgFrom.cstr
  have htype : Plain (cstr m.msgContentType) := h.msgContentType.cstr
  have hconnection := m.plain_connectionPair
  have hrouting (hf : f ∈ m.routingPairs) : f.1 ∈ wireNames ∧ Plain f.2 := by
    simp only [routingPairs, List.mem_cons, List.not_mem_nil, or_false] at hf
    rcases hf with rfl | rfl | rfl
    · exact ⟨show bytes "MsgID" ∈ wireNames by decide, hid⟩
    · exact ⟨show bytes "To" ∈ wireNames by decide, hto⟩
    · exact ⟨show bytes "From" ∈ wireNames by decide, hfrom⟩
  have hcontent (hf : f ∈ m.contentPairs) : f.1 ∈ wireNames ∧ Plain f.2 := by
    simp only [contentPairs, List.mem_cons, List.not_mem_nil, or_false] at hf
    rcases hf with rfl | rfl
    · exact ⟨show bytes "Content-Type" ∈ wireNames by decide, htype⟩
    · exact ⟨show bytes "Content-Length" ∈ wireNames by decide, plain_formatInt _⟩
  have hlast (hf : f ∈ [m.connectionPair]) : f.1 ∈ wireNames ∧ Plain f.2 := by
    rw [List.mem_singleton.mp hf]
    exact ⟨show bytes "Connection" ∈ wireNames by decide, hconnection⟩
  unfold wirePairs at hf
  split_ifs at hf
  · unfold emptyReplyPairs at hf
    rcases List.mem_append.mp hf with hf | hf
    · rcases List.mem_append.mp hf with hf | hf
      · simp only [List.mem_cons, List.not_mem_nil, or_false] at hf
        rcases hf with rfl | rfl | rfl
        · exact ⟨show bytes "MsgID" ∈ wireNames by decide, hid⟩
        · exact ⟨show bytes "MsgPT" ∈ wireNames by decide, helapsed⟩
        · exact hlast (List.mem_singleton_self _)
      · split_ifs at hf
        · rw [List.mem_singleton.mp hf]
          exact ⟨show bytes "To" ∈ wireNames by decide, hto⟩
        · cases hf
    · rw [List.mem_singleton.mp hf]
      exact ⟨show bytes "From" ∈ wireNames by decide, hfrom⟩
  · rcases List.mem_append.mp hf with hf | hf
    · exact hrouting hf
    · exact hlast hf
  · rcases List.mem_append.mp hf with hf | hf
    · rcases List.mem_append.mp hf with hf | hf
      · exact hrouting hf
      · exact hcontent hf
    · exact hlast hf

theorem plain_wireNames : ∀ name ∈ wireNames, 58 ∉ name ∧ Plain name := by
  have hall : ∀ name ∈ wireNames, 58 ∉ name ∧ 13 ∉ name ∧ 10 ∉ name ∧ 0 ∉ name := by decide
  exact hall

theorem nodup_wirePairs (m : Msg) (elapsed : Bytes) :
    ((m.wirePairs elapsed).map Prod.fst).Nodup := by
  unfold wirePairs emptyReplyPairs
  split_ifs <;>
    simp only [routingPairs, contentPairs, connectionPair, List.map_append, List.map_cons,
      List.map_nil] <;>
    decide

theorem firstLine_ne_nil (m : Msg) : m.firstLine ≠ [] := by
  unfold firstLine
  split_ifs
  · simp [bytes]
  · simp [bytes]

/-- The header of a message whose texts stay in their lines. -/
def wireHeader (m : Msg) (h : m.WirePlain) (elapsed : Bytes) (helapsed : Plain elapsed) :
    FieldHeader where
  first := m.firstLine
  fields := m.wirePairs elapsed
  first_plain := ⟨h.firstLine.1, h.firstLine.2.2, m.firstLine_ne_nil⟩
  plain f hf := by
    obtain ⟨hname, hvalue⟩ := h.pairs helapsed hf
    obtain ⟨hcolon, hname⟩ := plain_wireNames _ hname
    have hmiddle : Plain [58, 32] := ⟨by decide, by decide, by decide⟩
    have hline : Plain (fieldLine f) := hname.append (hmiddle.append hvalue)
    exact ⟨hcolon, hline.1, hline.2.2⟩
  nodup := m.nodup_wirePairs elapsed

end Msg

/-- A word that a text starts with is its first word. -/
theorem word_eq_of_start {w c r : Bytes} (hw : 32 ∉ w) (hc : 32 ∉ c)
    (h : w ++ [32] <+: c ++ 32 :: r) : c = w := by
  have hc' : c ++ [32] <+: c ++ 32 :: r := ⟨r, by simp⟩
  rcases List.prefix_or_prefix_of_prefix h hc' with hp | hp
  · rcases List.prefix_concat_iff.mp hp with heq | hp
    · exact (List.append_inj' heq rfl).1.symm
    · exact absurd (hp.subset (List.mem_append_right _ List.mem_cons_self)) hc
  · rcases List.prefix_concat_iff.mp hp with heq | hp
    · exact (List.append_inj' heq rfl).1
    · exact absurd (hp.subset (List.mem_append_right _ List.mem_cons_self)) hw

namespace Msg

variable {m : Msg}

/-- A first line that starts with another word is none of a web request. -/
theorem WirePlain.not_start (h : m.WirePlain) {w : Bytes} (hw : 32 ∉ w)
    (hcommand : m.msgCommand ≠ w) (hreply : ¬ w ++ [32] <+: bytes "MCP/1.0 ")
    (hlen : w.length ≤ 7) : ¬ w ++ [32] <+: m.firstLine := by
  intro hp
  unfold Msg.firstLine at hp
  split_ifs at hp
  · apply hreply
    rw [List.append_assoc, List.append_assoc] at hp
    refine List.prefix_of_prefix_length_le hp (List.prefix_append _ _) ?_
    have h8 : (bytes "MCP/1.0 ").length = 8 := by decide
    rw [h8, List.length_append, List.length_singleton]
    omega
  · rw [h.msgCommand.cstr_eq] at hp
    exact hcommand (word_eq_of_start hw h.word hp)

/-- The framing takes the header for one of MCP. -/
theorem mcp_wireHeader (m : Msg) (h : m.WirePlain) (elapsed : Bytes) (helapsed : Plain elapsed) :
    (m.wireHeader h elapsed helapsed).Mcp := by
  refine ⟨?_, h.not_start (by decide) h.notGet (by decide) (by decide),
    h.not_start (by decide) h.notPost (by decide) (by decide)⟩
  change occursIn (bytes "MCP/") m.firstLine = true
  unfold firstLine
  split_ifs
  · simp only [List.append_assoc]
    exact occursIn_append (by decide) (by decide) _
  · rw [occursIn_iff (by decide)]
    have hversion : bytes "MCP/" <:+: bytes " MCP/1.0" := by decide
    exact hversion.trans (List.suffix_append _ _).isInfix

end Msg
end MsgCourier
