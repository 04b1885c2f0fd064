import MsgCourier.Classification

/-! Well-formed messages as bytes on a stream, and what the framing makes of a stream that starts
with one. -/
namespace MsgCourier
open ListSearch CText

/-- Lines put together with CRLF between them. -/
def joinLines : List Bytes → Bytes
  | [] => []
  | [l] => l
  | l :: l' :: ls => l ++ crlf ++ joinLines (l' :: ls)

theorem joinLines_crlf {ls : List Bytes} (hls : ls ≠ []) :
    joinLines ls ++ crlf = (ls.map (· ++ crlf)).flatten := by
  induction ls with
  | nil => exact absurd rfl hls
  | cons l ls ih =>
    cases ls with
    | nil => simp [joinLines]
    | cons l' ls =>
      rw [joinLines, List.append_assoc, ih (List.cons_ne_nil _ _)]
      rfl

theorem zero_notMem_joinLines {ls : List Bytes} (h : ∀ l ∈ ls, 0 ∉ l) : 0 ∉ joinLines ls := by
  induction ls with
  | nil => simp [joinLines]
  | cons l ls ih =>
    cases ls with
    | nil => exact h l List.mem_cons_self
    | cons l' ls =>
      have hl := h l List.mem_cons_self
      have hrest := ih fun m hm => h m (List.mem_cons_of_mem _ hm)
      simp only [joinLines, crlf, List.mem_append, List.mem_cons, List.not_mem_nil, or_false]
      rintro ((h' | h' | h') | h')
      · exact hl h'
      · cases h'
      · cases h'
      · exact hrest h'

/-- The fields of a header that is made of lines. -/
theorem headerFields_of_joinLines {ls : List Bytes} (h : HeaderBlock)
    (hblock : h.block = joinLines ls ++ crlfcrlf) (hsize : h.size = (joinLines ls).length)
    (h0 : 0 ∉ h.block) (h4 : 4 ≤ h.size) (hls : ls ≠ []) (h13 : ∀ l ∈ ls, 13 ∉ l) :
    headerFields h.block = (ls ++ [bytes "end"]).foldl addLine ∅ := by
  have htext : headerText h.block = some (joinLines ls) := by
    rw [h.headerText_block h0 h4, hblock, hsize, List.take_left]
  have hlines : joinLines ls ++ bytes "\r\nend\r\n" =
      ((ls ++ [bytes "end"]).map (· ++ crlf)).flatten := by
    rw [List.map_append, List.flatten_append, ← joinLines_crlf hls, List.append_assoc]
    rfl
  have hall : ∀ l ∈ ls ++ [bytes "end"], 13 ∉ l := by
    intro l hl
    rcases List.mem_append.mp hl with hl | hl
    · exact h13 l hl
    · rw [List.mem_singleton.mp hl]
      decide
  rw [headerFields, htext, Option.elim_some, HeaderExtract.headerParams, hlines,
    headerLines_join hall]

inductive WireKind
  | get | post | mcp
  deriving DecidableEq, Repr

/-- The type the framing gives the message. -/
def WireKind.protocol : WireKind → ProtocolType
  | .get => .httpGet
  | .post => .httpPost
  | .mcp => .mcp

/-- The text of a header carries its own marker. -/
def WireKind.Marked (header : Bytes) : WireKind → Prop
  | .get => bytes "GET " <+: header ∧ occursIn (bytes "HTTP/") header = true
  | .post => bytes "POST " <+: header ∧ occursIn (bytes "HTTP/") header = true
  | .mcp => ¬ bytes "GET " <+: header ∧ ¬ bytes "POST " <+: header ∧
      occursIn (bytes "MCP/") header = true

/-- The line is no content length field in either spelling. -/
def NoLength (line : Bytes) : Prop :=
  NotField (bytes "Content-Length") line ∧ NotField (bytes "Content-length") line

theorem noLength_of_noColon {line : Bytes} (h : 58 ∉ line) : NoLength line := by
  constructor
  all_goals
    intro value hv
    rw [splitLine_none h] at hv
    cases hv

/-- Exactly one line gives a length, and it is `n`. -/
def OneLength (lines : List Bytes) (n : ℕ) : Prop :=
  ∃ before line after value, lines = before ++ line :: after ∧
    splitLine line = some (bytes "Content-Length", value) ∧ value ≠ [] ∧ atoi value = n ∧
    ∀ l ∈ before ++ after, NoLength l

/-- A GET request has no body; any other message has one length field for it, or no body. -/
def WireKind.Sized (lines : List Bytes) (payload : Bytes) : WireKind → Prop
  | .get => payload = []
  | .post | .mcp => OneLength lines payload.length ∨ payload = [] ∧ ∀ l ∈ lines, NoLength l

/-- A well-formed message: lines without CR and NUL, joined by CRLF to a header of at least four
bytes that ends at its first CRLFCRLF, and a payload of any bytes. -/
structure WireMsg where
  kind : WireKind
  lines : List Bytes
  payload : Bytes
  plain : ∀ l ∈ lines, 13 ∉ l ∧ 0 ∉ l
  header_end : firstOcc crlfcrlf (joinLines lines ++ crlfcrlf) = some (joinLines lines).length
  header_length : 4 ≤ (joinLines lines).length
  marked : kind.Marked (joinLines lines)
  sized : kind.Sized lines payload
  fits_int : ((joinLines lines).length : ℤ)+4+payload.length ≤ intMax

namespace WireMsg

variable (w : WireMsg)

def header : Bytes := joinLines w.lines

/-- The bytes of the message on the stream. -/
def frame : Bytes := w.header ++ crlfcrlf ++ w.payload

theorem length_frame : w.frame.length = w.header.length+4+w.payload.length := by
  simp only [frame, crlfcrlf, List.length_append, List.length_cons, List.length_nil]

theorem frame_ne_nil : w.frame ≠ [] := by
  rw [ne_eq, ← List.length_eq_zero_iff, w.length_frame]
  omega

theorem lines_ne_nil : w.lines ≠ [] := by
  intro h
  have hl := w.header_length
  rw [h] at hl
  simp [joinLines] at hl

theorem zero_notMem_header : 0 ∉ w.header := zero_notMem_joinLines fun l hl => (w.plain l hl).2

/-- The header with its end. -/
def headerBlock : HeaderBlock where
  block := w.header ++ crlfcrlf
  size := w.header.length
  firstOcc_eq := w.header_end
  length_eq := by simp [crlfcrlf]

theorem frame_append (r : Bytes) : w.frame ++ r = w.headerBlock.block ++ (w.payload ++ r) := by
  rw [frame, List.append_assoc]
  rfl

theorem zero_notMem_block : 0 ∉ w.headerBlock.block := by
  change 0 ∉ w.header ++ crlfcrlf
  rw [List.mem_append]
  exact fun h => h.elim w.zero_notMem_header (by decide)

/-- The end of the header is found at its place, whatever follows. -/
theorem strstr_frame (r : Bytes) : strstr (w.frame ++ r) crlfcrlf = some w.header.length := by
  rw [w.frame_append]
  exact w.headerBlock.strstr_block w.zero_notMem_block _

/-! ### The fields of the header -/

/-- The extractor sees the lines of the header and the line it adds itself. -/
theorem headerFields_block : headerFields w.headerBlock.block =
    (w.lines ++ [bytes "end"]).foldl addLine ∅ :=
  headerFields_of_joinLines w.headerBlock rfl rfl w.zero_notMem_block w.header_length
    w.lines_ne_nil fun l hl => (w.plain l hl).1

theorem noLength_end : NoLength (bytes "end") := noLength_of_noColon (by decide)

theorem contentLength_of_oneLength {n : ℕ} (h : OneLength w.lines n) :
    contentLength w.headerBlock.block = some (n : ℤ) := by
  obtain ⟨before, line, after, value, hlines, hsplit, hne, hval, hother⟩ := h
  have hv : fieldValue w.headerBlock.block (bytes "Content-Length") = value := by
    rw [fieldValue, w.headerFields_block, hlines, List.append_assoc, List.cons_append,
      lookup_foldl_field hsplit]
    · rfl
    · intro l hl
      rcases List.mem_append.mp hl with hl | hl
      · exact (hother l (List.mem_append_right _ hl)).1
      · rw [List.mem_singleton.mp hl]
        exact noLength_end.1
  have hlen : value.length ≠ 0 := fun h0 => hne (List.length_eq_zero_iff.mp h0)
  have htext : lengthText w.headerBlock.block = value := by
    rw [lengthText, hv, if_neg hlen]
  rw [contentLength, htext, if_neg hlen, hval]

theorem contentLength_of_noLength (h : ∀ l ∈ w.lines, NoLength l) :
    contentLength w.headerBlock.block = none := by
  have hall : ∀ l ∈ w.lines ++ [bytes "end"], NoLength l := by
    intro l hl
    rcases List.mem_append.mp hl with hl | hl
    · exact h l hl
    · rw [List.mem_singleton.mp hl]
      exact noLength_end
  have hv₁ : fieldValue w.headerBlock.block (bytes "Content-Length") = [] := by
    rw [fieldValue, w.headerFields_block, lookup_foldl_of_notField fun l hl => (hall l hl).1]
    rfl
  have hv₂ : fieldValue w.headerBlock.block (bytes "Content-length") = [] := by
    rw [fieldValue, w.headerFields_block, lookup_foldl_of_notField fun l hl => (hall l hl).2]
    rfl
  rw [contentLength, lengthText, hv₁, hv₂]
  rfl

/-- The content length of a message that is not a GET request is the size of its payload. -/
theorem contentLength_payload (hk : w.kind ≠ .get) (r : Bytes) :
    contentLength (w.headerBlock.block ++ r) = some (w.payload.length : ℤ) ∨
      contentLength (w.headerBlock.block ++ r) = none ∧ w.payload = [] := by
  have hs := w.sized
  rw [w.headerBlock.contentLength_append w.zero_notMem_block w.header_length]
  cases hw : w.kind with
  | get => exact absurd hw hk
  | post | mcp =>
    rw [hw] at hs
    rcases hs with hone | ⟨hnil, hno⟩
    · exact Or.inl (w.contentLength_of_oneLength hone)
    · exact Or.inr ⟨w.contentLength_of_noLength hno, hnil⟩

/-! ### The type -/

/-- A start of the block without CR is one of the header. -/
theorem start_header {pat : Bytes} (h13 : 13 ∉ pat) :
    pat <+: w.headerBlock.block ↔ pat <+: w.header := by
  constructor
  · intro h
    exact List.prefix_of_prefix_length_le h (List.prefix_append _ _)
      (w.headerBlock.length_le_of_start h13 h)
  · exact fun h => h.trans (List.prefix_append _ _)

theorem isGet_frame (hk : w.kind = .get) (r : Bytes) : isGet (w.headerBlock.block ++ r) := by
  have hm := w.marked
  rw [hk] at hm
  exact (w.headerBlock.isGet_iff w.zero_notMem_block r).mpr
    ⟨(w.start_header (by decide)).mpr hm.1, Or.inl (occursIn_append (by decide) hm.2 _)⟩

theorem not_isGet_frame (hk : w.kind ≠ .get) (r : Bytes) : ¬ isGet (w.headerBlock.block ++ r) := by
  intro hg
  have hget := (w.start_header (by decide)).mp
    ((w.headerBlock.isGet_iff w.zero_notMem_block r).mp hg).1
  have hm := w.marked
  cases hw : w.kind with
  | get => exact hk hw
  | mcp =>
    rw [hw] at hm
    exact hm.1 hget
  | post =>
    rw [hw] at hm
    have hpre := List.prefix_of_prefix_length_le hget hm.1 (by decide)
    exact absurd hpre (by decide)

theorem markerType_frame (hk : w.kind ≠ .get) (r : Bytes) :
    markerType (w.headerBlock.block ++ r) = w.kind.protocol := by
  have hm := w.marked
  unfold markerType
  cases hw : w.kind with
  | get => exact absurd hw hk
  | post =>
    rw [hw] at hm
    rw [if_pos ((w.headerBlock.isPost_iff w.zero_notMem_block r).mpr
      ⟨(w.start_header (by decide)).mpr hm.1, Or.inl (occursIn_append (by decide) hm.2 _)⟩)]
    rfl
  | mcp =>
    rw [hw] at hm
    have hnot : ¬ isPost (w.headerBlock.block ++ r) := fun hp => hm.2.1
      ((w.start_header (by decide)).mp ((w.headerBlock.isPost_iff w.zero_notMem_block r).mp hp).1)
    rw [if_neg hnot, if_pos ((w.headerBlock.mcp_iff w.zero_notMem_block r).mpr
      (Or.inl (occursIn_append (by decide) hm.2.2 _)))]
    rfl

/-! ### Framing a stream that starts with the message -/

theorem frameEnd_eq :
    int32 ((w.header.length : ℤ)+4+w.payload.length) = w.frame.length := by
  have hmax : (w.header.length : ℤ)+4+w.payload.length ≤ intMax := w.fits_int
  rw [int32_eq (by omega) hmax, w.length_frame]
  push_cast
  rfl

/-- A stream that starts with the whole message is cut behind it. -/
theorem frameAt_frame (r : Bytes) :
    (frameAt (w.frame ++ r) w.header.length).protocol = w.kind.protocol ∧
      (frameAt (w.frame ++ r) w.header.length).msgSize = w.frame.length := by
  have hlen := w.length_frame
  rw [w.frame_append]
  by_cases hk : w.kind = .get
  · have hs := w.sized
    rw [hk] at hs
    rw [frameAt_get (w.isGet_frame hk _), hk]
    have hp : w.payload = [] := hs
    rw [hp, List.length_nil] at hlen
    exact ⟨rfl, show (w.header.length : ℤ)+4 = w.frame.length by omega⟩
  · rcases w.contentLength_payload hk (w.payload ++ r) with hc | ⟨hc, hp⟩
    · have hle : w.frame.length ≤ (w.headerBlock.block ++ (w.payload ++ r)).length := by
        rw [← w.frame_append, List.length_append]
        exact Nat.le_add_right _ _
      have hge : int32 ((w.header.length : ℤ)+4+w.payload.length) ≤
          (w.headerBlock.block ++ (w.payload ++ r)).length := by
        rw [w.frameEnd_eq]
        exact_mod_cast hle
      rw [frameAt_complete (w.not_isGet_frame hk _) hc hge, w.frameEnd_eq]
      exact ⟨w.markerType_frame hk _, rfl⟩
    · rw [frameAt_noLength (w.not_isGet_frame hk _) hc]
      rw [hp, List.length_nil] at hlen
      exact ⟨w.markerType_frame hk _, show (w.header.length : ℤ)+4 = w.frame.length by omega⟩

/-- While a part of the message is missing, either the end of the header is missing or the data is
insufficient. -/
theorem frameAt_take {n : ℕ} (hn : n < w.frame.length) :
    strstr (w.frame.take n) crlfcrlf = none ∨
      strstr (w.frame.take n) crlfcrlf = some w.header.length ∧
        (frameAt (w.frame.take n) w.header.length).protocol = .insufficientData := by
  have hlen := w.length_frame
  have hp := w.strstr_frame []
  rw [List.append_nil] at hp
  rcases Nat.lt_or_ge n (w.header.length+4) with hlt | hge
  · left
    apply strstr_take_none crlfcrlf_ne_nil
    intro k hk
    rw [hp, Option.some.injEq] at hk
    rw [← hk]
    exact hlt
  · right
    refine ⟨strstr_take crlfcrlf_ne_nil hp hge, ?_⟩
    have htake : w.frame.take n =
          w.headerBlock.block ++ w.payload.take (n-w.headerBlock.block.length) := by
      have hb := w.headerBlock.length_eq
      have hfr := w.frame_append []
      rw [List.append_nil, List.append_nil] at hfr
      rw [hfr, List.take_append, List.take_of_length_le (by rw [hb]; exact hge)]
    have hpay : w.payload ≠ [] := by
      intro h0
      rw [h0, List.length_nil] at hlen
      omega
    have hk : w.kind ≠ .get := by
      intro hk
      have hs := w.sized
      rw [hk] at hs
      exact hpay hs
    have hshort : ((w.frame.take n).length : ℤ) <
        int32 ((w.header.length : ℤ)+4+w.payload.length) := by
      rw [w.frameEnd_eq, List.length_take]
      omega
    rw [htake] at hshort ⊢
    rcases w.contentLength_payload hk (w.payload.take (n-w.headerBlock.block.length)) with hc | ⟨_, h0⟩
    · rw [frameAt_short (w.not_isGet_frame hk _) hc hshort]
    · exact absurd h0 hpay

end WireMsg
end MsgCourier
