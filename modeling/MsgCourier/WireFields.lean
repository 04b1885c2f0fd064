import MsgCourier.WireMessage

/-! Headers made of a first line and named fields, and what the extractor reads of them. -/
namespace MsgCourier
open ListSearch CText

/-! ### The end of a header -/

/-- In a text whose start avoids CR a line end does not begin before the start ends. -/
theorem not_prefix_of_lt {l r : Bytes} (hl : 13 ∉ l) {j : ℕ} (hj : j < l.length) :
    ¬ crlfcrlf <+: (l ++ r).drop j := by
  intro h
  rw [List.drop_append_of_le_length hj.le, List.drop_eq_getElem_cons hj, List.cons_append,
    crlfcrlf, List.cons_prefix_cons] at h
  exact hl (h.1 ▸ List.getElem_mem hj)

/-- An empty line ends a header, so no header of other lines has one. -/
theorem not_prefix_joinLines {ls : List Bytes} (h : ∀ l ∈ ls, 13 ∉ l) (hne : ∀ l ∈ ls.tail, l ≠ [])
    {j : ℕ} (hj : j < (joinLines ls).length) :
    ¬ crlfcrlf <+: (joinLines ls ++ crlfcrlf).drop j := by
  induction ls generalizing j with
  | nil => simp [joinLines] at hj
  | cons l ls ih =>
    have hl := h l List.mem_cons_self
    cases ls with
    | nil => exact not_prefix_of_lt hl hj
    | cons l' ls =>
      have hrest := fun m hm => h m (List.mem_cons_of_mem _ hm)
      have hsplit : joinLines (l :: l' :: ls) ++ crlfcrlf =
          l ++ 13 :: 10 :: (joinLines (l' :: ls) ++ crlfcrlf) := by simp [joinLines, crlf]
      rw [hsplit]
      rcases Nat.lt_or_ge j l.length with hlt | hge
      · exact not_prefix_of_lt hl hlt
      · have hstart : ∃ b t, joinLines (l' :: ls) ++ crlfcrlf = b :: t ∧ b ≠ 13 := by
          have h13 := hrest l' List.mem_cons_self
          obtain ⟨b, t, rfl⟩ := List.exists_cons_of_ne_nil (hne l' List.mem_cons_self)
          have hb : b ≠ 13 := fun hb => h13 (hb ▸ List.mem_cons_self)
          cases ls with
          | nil => exact ⟨b, t ++ crlfcrlf, rfl, hb⟩
          | cons m ls =>
            exact ⟨b, t ++ crlf ++ joinLines (m :: ls) ++ crlfcrlf, by simp [joinLines], hb⟩
        obtain ⟨i, rfl⟩ := Nat.exists_eq_add_of_le hge
        rw [← List.drop_drop, List.drop_left]
        rcases i with _ | _ | i
        · obtain ⟨b, t, hbt, hb⟩ := hstart
          rw [hbt]
          intro hp
          simp only [crlfcrlf, List.drop_zero, List.cons_prefix_cons] at hp
          exact hb hp.2.2.1.symm
        · intro hp
          simp only [zero_add, crlfcrlf, List.drop_one, List.tail_cons, List.cons_prefix_cons] at hp
          exact absurd hp.1 (by decide)
        · rw [List.drop_succ_cons, List.drop_succ_cons]
          apply ih hrest fun m hm => hne m (List.mem_cons_of_mem l' hm)
          have hlen : (joinLines (l :: l' :: ls)).length =
              l.length+2+(joinLines (l' :: ls)).length := by
            simp only [joinLines, crlf, List.length_append, List.length_cons, List.length_nil]
          omega

theorem firstOcc_joinLines {ls : List Bytes} (h : ∀ l ∈ ls, 13 ∉ l) (hne : ∀ l ∈ ls.tail, l ≠ []) :
    firstOcc crlfcrlf (joinLines ls ++ crlfcrlf) = some (joinLines ls).length := by
  refine (firstOcc_eq_some_iff crlfcrlf_ne_nil).mpr
    ⟨?_, fun j hj => not_prefix_joinLines h hne hj⟩
  rw [List.drop_left]

/-! ### Fields -/

/-- A line `name: value`. -/
def fieldLine (f : Bytes × Bytes) : Bytes := f.1 ++ 58 :: 32 :: f.2

theorem fieldLine_ne_nil (f : Bytes × Bytes) : fieldLine f ≠ [] := by
  simp [fieldLine]

theorem notField_fieldLine {f : Bytes × Bytes} (hf : 58 ∉ f.1) {name : Bytes} (hne : f.1 ≠ name) :
    NotField name (fieldLine f) := by
  intro value hv
  rw [fieldLine, splitLine_field hf] at hv
  exact hne (Prod.mk.inj (Option.some.inj hv)).1

/-- The line that the extractor adds is no field. -/
theorem notField_end (name : Bytes) : NotField name (bytes "end") := by
  intro value hv
  rw [splitLine_none (by decide)] at hv
  cases hv

/-- A first line and fields with different names, without the bytes that would end a line early. -/
structure FieldHeader where
  first : Bytes
  fields : List (Bytes × Bytes)
  first_plain : 13 ∉ first ∧ 0 ∉ first ∧ first ≠ []
  plain : ∀ f ∈ fields, 58 ∉ f.1 ∧ 13 ∉ fieldLine f ∧ 0 ∉ fieldLine f
  nodup : (fields.map Prod.fst).Nodup

namespace FieldHeader

variable (h : FieldHeader)

def lines : List Bytes := h.first :: h.fields.map fieldLine

theorem mem_lines {l : Bytes} : l ∈ h.lines ↔ l = h.first ∨ ∃ f ∈ h.fields, fieldLine f = l := by
  rw [lines, List.mem_cons, List.mem_map]

theorem lines_plain {l : Bytes} (hl : l ∈ h.lines) : 13 ∉ l ∧ 0 ∉ l ∧ l ≠ [] := by
  rcases h.mem_lines.mp hl with rfl | ⟨f, hf, rfl⟩
  · exact h.first_plain
  · exact ⟨(h.plain f hf).2.1, (h.plain f hf).2.2, fieldLine_ne_nil f⟩

/-- The value of a field. -/
theorem lookup_of_mem {name value : Bytes} (hmem : (name, value) ∈ h.fields) :
    ((h.lines ++ [bytes "end"]).foldl addLine ∅).lookup name = some value := by
  obtain ⟨before, after, hsplit⟩ := List.append_of_mem hmem
  have hn := h.nodup
  rw [hsplit, List.map_append, List.map_cons, List.nodup_middle, List.nodup_cons,
    List.mem_append, not_or] at hn
  have hlines : h.lines ++ [bytes "end"] = (h.first :: before.map fieldLine) ++
      fieldLine (name, value) :: (after.map fieldLine ++ [bytes "end"]) := by
    simp [lines, hsplit]
  rw [hlines]
  apply lookup_foldl_field
  · exact splitLine_field (h.plain _ hmem).1 value
  · intro l hl
    rcases List.mem_append.mp hl with hl | hl
    · obtain ⟨f, hf, rfl⟩ := List.mem_map.mp hl
      apply notField_fieldLine
      · exact (h.plain f (hsplit ▸ List.mem_append_right _ (List.mem_cons_of_mem _ hf))).1
      · exact fun heq => hn.1.2 (List.mem_map.mpr ⟨f, hf, heq⟩)
    · rw [List.mem_singleton.mp hl]
      exact notField_end name

/-- A name that no line has is not read. -/
theorem lookup_of_notMem {name : Bytes} (hfirst : NotField name h.first)
    (hmem : name ∉ h.fields.map Prod.fst) :
    ((h.lines ++ [bytes "end"]).foldl addLine ∅).lookup name = none := by
  rw [lookup_foldl_of_notField]
  · rfl
  · intro l hl
    rcases List.mem_append.mp hl with hl | hl
    · rcases h.mem_lines.mp hl with rfl | ⟨f, hf, rfl⟩
      · exact hfirst
      · apply notField_fieldLine (h.plain f hf).1
        exact fun heq => hmem (heq ▸ List.mem_map_of_mem hf)
    · rw [List.mem_singleton.mp hl]
      exact notField_end name

theorem noLength_fieldLine {f : Bytes × Bytes} (hf : f ∈ h.fields)
    (h₁ : f.1 ≠ bytes "Content-Length") (h₂ : f.1 ≠ bytes "Content-length") :
    NoLength (fieldLine f) :=
  ⟨notField_fieldLine (h.plain f hf).1 h₁, notField_fieldLine (h.plain f hf).1 h₂⟩

/-- A field with the length is the only line that gives one. -/
theorem oneLength {n : ℕ} (hn : (n : ℤ) ≤ intMax)
    (hmem : (bytes "Content-Length", decimal n) ∈ h.fields) (hfirst : NoLength h.first)
    (hother : bytes "Content-length" ∉ h.fields.map Prod.fst) : OneLength h.lines n := by
  obtain ⟨before, after, hsplit⟩ := List.append_of_mem hmem
  have hnodup := h.nodup
  rw [hsplit, List.map_append, List.map_cons, List.nodup_middle, List.nodup_cons,
    List.mem_append, not_or] at hnodup
  have hno (f : Bytes × Bytes) (hf : f ∈ before ++ after) : NoLength (fieldLine f) := by
    have hin : f ∈ h.fields := by
      rw [hsplit]
      rcases List.mem_append.mp hf with hf | hf
      · exact List.mem_append_left _ hf
      · exact List.mem_append_right _ (List.mem_cons_of_mem _ hf)
    apply h.noLength_fieldLine hin
    · intro heq
      rcases List.mem_append.mp hf with hf | hf
      · exact hnodup.1.1 (List.mem_map.mpr ⟨f, hf, heq⟩)
      · exact hnodup.1.2 (List.mem_map.mpr ⟨f, hf, heq⟩)
    · exact fun heq => hother (List.mem_map.mpr ⟨f, hin, heq⟩)
  refine ⟨h.first :: before.map fieldLine, fieldLine (bytes "Content-Length", decimal n),
    after.map fieldLine, decimal n, ?_, ?_, decimal_ne_nil n, atoi_decimal hn, ?_⟩
  · simp [lines, hsplit]
  · exact splitLine_field (show 58 ∉ bytes "Content-Length" by decide) _
  · intro l hl
    rw [List.cons_append, List.mem_cons, ← List.map_append] at hl
    rcases hl with rfl | hl
    · exact hfirst
    · obtain ⟨f, hf, rfl⟩ := List.mem_map.mp hl
      exact hno f hf

theorem noLength {l : Bytes} (hl : l ∈ h.lines) (hfirst : NoLength h.first)
    (h₁ : bytes "Content-Length" ∉ h.fields.map Prod.fst)
    (h₂ : bytes "Content-length" ∉ h.fields.map Prod.fst) : NoLength l := by
  rcases h.mem_lines.mp hl with rfl | ⟨f, hf, rfl⟩
  · exact hfirst
  · apply h.noLength_fieldLine hf
    · exact fun heq => h₁ (List.mem_map.mpr ⟨f, hf, heq⟩)
    · exact fun heq => h₂ (List.mem_map.mpr ⟨f, hf, heq⟩)

/-! ### An MCP message with such a header -/

theorem start_joinLines {pat : Bytes} (h13 : 13 ∉ pat) :
    pat <+: joinLines h.lines ↔ pat <+: h.first := by
  unfold lines
  cases h.fields.map fieldLine with
  | nil => exact Iff.rfl
  | cons l ls =>
    rw [joinLines, List.append_assoc]
    constructor
    · intro hp
      have hlong : h.first ++ (crlf ++ joinLines (l :: ls)) =
          (h.first ++ [13]) ++ (10 :: joinLines (l :: ls)) := by simp [crlf]
      rw [hlong] at hp
      have hp := prefix_of_prefix_append (List.mem_append_right _ List.mem_cons_self) h13 hp
      rcases List.prefix_concat_iff.mp hp with heq | hp
      · exact absurd (heq ▸ List.mem_append_right _ List.mem_cons_self) h13
      · exact hp
    · exact fun hp => hp.trans (List.prefix_append _ _)

theorem occursIn_joinLines {pat : Bytes} (hpat : pat ≠ []) (hfirst : occursIn pat h.first = true) :
    occursIn pat (joinLines h.lines) = true := by
  unfold lines
  cases h.fields.map fieldLine with
  | nil => exact hfirst
  | cons l ls =>
    rw [joinLines, List.append_assoc]
    exact occursIn_append hpat hfirst _

/-- What the first line must be for the framing to take the message for one of MCP. -/
structure Mcp : Prop where
  marker : occursIn (bytes "MCP/") h.first = true
  notGet : ¬ bytes "GET " <+: h.first
  notPost : ¬ bytes "POST " <+: h.first

variable {h}

theorem length_joinLines_ge (hm : h.Mcp) : 4 ≤ (joinLines h.lines).length := by
  have hocc := h.occursIn_joinLines (by decide) hm.marker
  rw [occursIn_iff (by decide)] at hocc
  exact hocc.length_le

/-- The header with its end. -/
def headerBlock (h : FieldHeader) : HeaderBlock where
  block := joinLines h.lines ++ crlfcrlf
  size := (joinLines h.lines).length
  firstOcc_eq := firstOcc_joinLines (fun _ hl => (h.lines_plain hl).1) fun _ hl =>
    (h.lines_plain (List.mem_of_mem_tail hl)).2.2
  length_eq := by simp [crlfcrlf]

theorem zero_notMem_block (h : FieldHeader) : 0 ∉ h.headerBlock.block := by
  change 0 ∉ joinLines h.lines ++ crlfcrlf
  rw [List.mem_append]
  exact fun hmem => hmem.elim
    (zero_notMem_joinLines fun l hl => (h.lines_plain hl).2.1) (by decide)

/-- What is read of the header, whatever follows it. -/
theorem headerFields_append (hm : h.Mcp) (r : Bytes) :
    headerFields (h.headerBlock.block ++ r) = (h.lines ++ [bytes "end"]).foldl addLine ∅ := by
  have h4 : 4 ≤ h.headerBlock.size := length_joinLines_ge hm
  rw [MsgCourier.headerFields_append (h.headerBlock.headerText_block h.zero_notMem_block h4),
    headerFields_of_joinLines h.headerBlock rfl rfl h.zero_notMem_block h4 (List.cons_ne_nil _ _)
      fun l hl => (h.lines_plain hl).1]

theorem not_isGet (hm : h.Mcp) (r : Bytes) : ¬ isGet (h.headerBlock.block ++ r) := by
  intro hg
  have hpre := (h.headerBlock.start_iff (by decide) r).mp hg.1
  apply hm.notGet
  rw [← h.start_joinLines (by decide)]
  exact List.prefix_of_prefix_length_le hpre (List.prefix_append _ _)
    (h.headerBlock.length_le_of_start (by decide) hpre)

theorem markerType_append (hm : h.Mcp) (r : Bytes) :
    markerType (h.headerBlock.block ++ r) = .mcp := by
  have hpost : ¬ isPost (h.headerBlock.block ++ r) := by
    intro hp
    have hpre := (h.headerBlock.start_iff (by decide) r).mp hp.1
    apply hm.notPost
    rw [← h.start_joinLines (by decide)]
    exact List.prefix_of_prefix_length_le hpre (List.prefix_append _ _)
      (h.headerBlock.length_le_of_start (by decide) hpre)
  unfold markerType
  rw [if_neg hpost, if_pos]
  rw [h.headerBlock.mcp_iff h.zero_notMem_block]
  exact Or.inl (occursIn_append (by decide) (h.occursIn_joinLines (by decide) hm.marker) _)

/-- A frame that starts with the header is one of MCP or not complete. -/
theorem frameAt_append (hm : h.Mcp) (r : Bytes) (p : ℤ) :
    (frameAt (h.headerBlock.block ++ r) p).protocol = .mcp ∨
      (frameAt (h.headerBlock.block ++ r) p).protocol = .insufficientData := by
  have hget := not_isGet hm r
  cases hn : contentLength (h.headerBlock.block ++ r) with
  | none =>
    rw [frameAt_noLength hget hn]
    exact Or.inl (markerType_append hm r)
  | some n =>
    rcases lt_or_ge ((h.headerBlock.block ++ r).length : ℤ) (int32 (p+4+n)) with hlt | hge
    · rw [frameAt_short hget hn hlt]
      exact Or.inr rfl
    · rw [frameAt_complete hget hn hge]
      exact Or.inl (markerType_append hm r)

def wireMsg (hm : h.Mcp) (payload : Bytes)
    (hsized : WireKind.mcp.Sized h.lines payload)
    (hfits : ((joinLines h.lines).length : ℤ)+4+payload.length ≤ intMax) : WireMsg where
  kind := .mcp
  lines := h.lines
  payload
  plain _ hl := ⟨(h.lines_plain hl).1, (h.lines_plain hl).2.1⟩
  header_end := h.headerBlock.firstOcc_eq
  header_length := length_joinLines_ge hm
  marked := ⟨fun hg => hm.notGet ((h.start_joinLines (by decide)).mp hg),
    fun hp => hm.notPost ((h.start_joinLines (by decide)).mp hp),
    h.occursIn_joinLines (by decide) hm.marker⟩
  sized := hsized
  fits_int := hfits

end FieldHeader

end MsgCourier
