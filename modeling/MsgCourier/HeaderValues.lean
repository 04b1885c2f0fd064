import MsgCourier.WireFields

/-! Headers with any number of lines of one name: the last of them gives the value. -/
namespace MsgCourier
open ListSearch CText

/-- A line `name: value` or `name:value`. -/
structure NamedLine where
  name : Bytes
  value : Bytes
  blank : Bool
  name_plain : 58 ∉ name ∧ 13 ∉ name ∧ 10 ∉ name ∧ 0 ∉ name
  value_plain : 13 ∉ value ∧ 10 ∉ value ∧ 0 ∉ value ∧ value.head? ≠ some 32

namespace NamedLine

variable (f : NamedLine)

def text : Bytes := f.name ++ 58 :: if f.blank then 32 :: f.value else f.value

theorem splitLine_text : splitLine f.text = some (f.name, f.value) := by
  unfold text
  cases f.blank with
  | false => exact splitLine_field' f.name_plain.1 f.value_plain.2.2.2
  | true => exact splitLine_field f.name_plain.1 f.value

theorem notMem_text {b : Byte} (hname : b ∉ f.name) (hvalue : b ∉ f.value) (h58 : b ≠ 58)
    (h32 : b ≠ 32) : b ∉ f.text := by
  unfold text
  intro hmem
  rcases List.mem_append.mp hmem with hmem | hmem
  · exact hname hmem
  · rcases List.mem_cons.mp hmem with rfl | hmem
    · exact h58 rfl
    · cases hblank : f.blank with
      | false =>
        rw [hblank] at hmem
        exact hvalue hmem
      | true =>
        rw [hblank] at hmem
        rcases List.mem_cons.mp hmem with rfl | hmem
        · exact h32 rfl
        · exact hvalue hmem

theorem cr_notMem_text : 13 ∉ f.text :=
  f.notMem_text f.name_plain.2.1 f.value_plain.1 (by decide) (by decide)

theorem zero_notMem_text : 0 ∉ f.text :=
  f.notMem_text f.name_plain.2.2.2 f.value_plain.2.2.1 (by decide) (by decide)

theorem text_ne_nil : f.text ≠ [] := by
  unfold text
  exact List.append_ne_nil_of_right_ne_nil _ (List.cons_ne_nil _ _)

end NamedLine

/-- The value of the last line with the name. -/
def lastValue (fields : List NamedLine) (name : Bytes) : Option Bytes :=
  (fields.filter (·.name = name)).getLast?.map NamedLine.value

theorem lastValue_append_singleton (fields : List NamedLine) (f : NamedLine) (name : Bytes) :
    lastValue (fields ++ [f]) name =
      if f.name = name then some f.value else lastValue fields name := by
  unfold lastValue
  rw [List.filter_append]
  by_cases hname : f.name = name
  · rw [List.filter_singleton, if_pos hname]
    simp [hname]
  · rw [List.filter_singleton, if_neg hname]
    simp [hname]

/-- Each line overwrites what the lines before it gave its name. -/
theorem lookup_foldl_text (fields : List NamedLine) (ps : Params) (name : Bytes) :
    ((fields.map NamedLine.text).foldl addLine ps).lookup name =
      (lastValue fields name).or (ps.lookup name) := by
  induction fields using List.reverseRecOn with
  | nil => rfl
  | append_singleton fields f ih =>
    have hline (qs : Params) : addLine qs f.text = qs.insert f.name f.value := by
      rw [addLine, f.splitLine_text]
    rw [List.map_append, List.foldl_append, List.map_singleton, List.foldl_cons, List.foldl_nil,
      hline, lastValue_append_singleton]
    by_cases hname : f.name = name
    · rw [if_pos hname, ← hname, AList.lookup_insert, Option.some_or]
    · rw [if_neg hname, AList.lookup_insert_ne (Ne.symm hname), ih]

/-- A status line and named lines, with the end of the header from offset 4 on. -/
structure NamedHeader where
  status : Bytes
  fields : List NamedLine
  status_plain : 58 ∉ status ∧ 13 ∉ status ∧ 0 ∉ status
  length_ge : 4 ≤ (joinLines (status :: fields.map NamedLine.text)).length

namespace NamedHeader

variable (h : NamedHeader)

def lines : List Bytes := h.status :: h.fields.map NamedLine.text

def message (payload : Bytes) : Bytes := joinLines h.lines ++ crlfcrlf ++ payload

theorem forall_lines {p : Bytes → Prop} (hstatus : p h.status)
    (hfields : ∀ f : NamedLine, p f.text) : ∀ l ∈ h.lines, p l := by
  intro l hl
  rcases List.mem_cons.mp hl with rfl | hl
  · exact hstatus
  · obtain ⟨f, _, rfl⟩ := List.mem_map.mp hl
    exact hfields f

theorem cr_notMem_lines : ∀ l ∈ h.lines, 13 ∉ l :=
  h.forall_lines h.status_plain.2.1 NamedLine.cr_notMem_text

/-- The header with its end. -/
def headerBlock : HeaderBlock where
  block := joinLines h.lines ++ crlfcrlf
  size := (joinLines h.lines).length
  firstOcc_eq := by
    apply firstOcc_joinLines h.cr_notMem_lines
    intro l hl
    obtain ⟨f, _, rfl⟩ := List.mem_map.mp hl
    exact f.text_ne_nil
  length_eq := by simp [crlfcrlf]

theorem zero_notMem_block : 0 ∉ h.headerBlock.block := by
  change 0 ∉ joinLines h.lines ++ crlfcrlf
  rw [List.mem_append, not_or]
  exact ⟨zero_notMem_joinLines (h.forall_lines h.status_plain.2.2 NamedLine.zero_notMem_text),
    by decide⟩

/-- What is read of the header does not depend on the payload. -/
theorem lookup_headerFields (payload name : Bytes) :
    (headerFields (h.message payload)).lookup name = lastValue h.fields name := by
  have hread : headerFields (h.message payload) =
      (h.lines ++ [bytes "end"]).foldl addLine ∅ := by
    have hfold := headerFields_of_joinLines h.headerBlock rfl rfl h.zero_notMem_block h.length_ge
      (List.cons_ne_nil _ _) h.cr_notMem_lines
    rw [← hfold]
    exact headerFields_append (h.headerBlock.headerText_block h.zero_notMem_block h.length_ge)
      payload
  have hstatus : addLine ∅ h.status = ∅ := by
    rw [addLine, splitLine_none h.status_plain.1]
  calc (headerFields (h.message payload)).lookup name
      = (addLine (h.lines.foldl addLine ∅) (bytes "end")).lookup name := by
        rw [hread, List.foldl_append]
        rfl
    _ = (h.lines.foldl addLine ∅).lookup name := lookup_addLine_of_notField (notField_end name) _
    _ = ((h.fields.map NamedLine.text).foldl addLine ∅).lookup name := by
        rw [lines, List.foldl_cons, hstatus]
    _ = lastValue h.fields name := by
        rw [lookup_foldl_text, AList.lookup_empty, Option.or_none]

theorem length_message_ge (payload : Bytes) : 4 ≤ (h.message payload).length := by
  unfold message
  rw [List.length_append, List.length_append]
  exact (h.length_ge.trans (Nat.le_add_right _ _)).trans (Nat.le_add_right _ _)

end NamedHeader

namespace HeaderExtract

/-- Whatever was parsed before and whatever the payload, each name has the value of its last
line. -/
theorem getValue_parse (x : HeaderExtract) (h : NamedHeader) (payload : Bytes) {pBuf : Buffer}
    (hpBuf : pBuf.Holds (h.message payload)) :
    ∃ x' pBuf', x.parse pBuf = .ok (x', pBuf') ∧ pBuf'.Sealed (h.message payload) ∧
      ∀ name, x'.getValue name = (lastValue h.fields name).getD [] := by
  obtain ⟨pBuf', x', hsealed, hparse, hparams⟩ :=
    x.parse_holds hpBuf (h.length_message_ge payload)
  refine ⟨x', pBuf', hparse, hsealed, ?_⟩
  intro name
  rw [getValue, hparams, h.lookup_headerFields]

/-! ### Two lines of one name, and bytes that hide a line -/

def twoLengths : NamedHeader where
  status := bytes "POST / HTTP/1.1"
  fields := [⟨bytes "Content-Length", bytes "4", true, by decide, by decide⟩,
    ⟨bytes "Content-Length", bytes "12", false, by decide, by decide⟩]
  status_plain := by decide
  length_ge := by decide

theorem getValue_parse_twoLengths : ∃ x' pBuf',
    ({} : HeaderExtract).parse (Buffer.terminated (twoLengths.message (bytes "data"))) =
        .ok (x', pBuf') ∧
      pBuf'.Sealed (twoLengths.message (bytes "data")) ∧
      ∀ name, x'.getValue name = (lastValue twoLengths.fields name).getD [] :=
  getValue_parse {} twoLengths (bytes "data") (Buffer.holds_terminated (by decide))

/-- The value of `A` in a text. -/
def valueOfA (text : Bytes) : Cxx Bytes :=
  (({} : HeaderExtract).parse (Buffer.terminated text)).map fun r => r.1.getValue (bytes "A")

/-- The search for the end of the header stops at a NUL in front of it, and a CR at the end of the
status line takes the line end for its own: both times the line `A: b` is lost. -/
theorem getValue_parse_nul_cr :
    valueOfA (bytes "MCP\r\nA: b\r\nB\x00: c\r\n\r\n") = .ok [] ∧
      valueOfA (bytes "MCP/\x00\r\nA: b\r\n\r\n") = .ok [] ∧
      valueOfA (bytes "MCP\r\r\nA: b\r\n\r\n") = .ok [] := by decide

end HeaderExtract
end MsgCourier
