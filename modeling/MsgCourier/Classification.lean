import MsgCourier.Framing

/-! Whether the type of a frame depends on the bytes behind its header. -/
namespace MsgCourier
open ListSearch CText

/-- Bytes that end at their first CRLFCRLF. -/
structure HeaderBlock where
  block : Bytes
  size : ℕ
  firstOcc_eq : firstOcc crlfcrlf block = some size
  length_eq : block.length = size+4

/-- Two continuations of a header, each long enough for its frame, give the same type, header end
and content length, whatever the handler did before. -/
def ClassifiedByOwnBytes (h : Bytes) : Prop :=
  ∀ (k₁ k₂ : ConnectionHandlerInbound) (b₁ b₂ : Buffer) (x y : Bytes) (a₁ a₂ : Analysis),
    b₁.Holds (h ++ x) → b₂.Holds (h ++ y) →
    k₁.analyzeProtocol b₁ = .ok a₁ → k₂.analyzeProtocol b₂ = .ok a₂ →
    a₁.protocol ≠ .insufficientData → a₂.protocol ≠ .insufficientData →
    a₁.protocol = a₂.protocol ∧ a₁.handler.msgHeaderEnd = a₂.handler.msgHeaderEnd ∧
      a₁.iContentLength = a₂.iContentLength

/-- A buffer of an `int` size has room for `k` more bytes behind the header and for the frame. -/
def Room (h : Bytes) (k : ℤ) : Prop :=
  h.length+k < intMax ∧ contentLength h ≠ some (intMax-h.length)

/-- The header starts like a request whose marker is `HTTP/`. -/
def StartsHttp (h : Bytes) : Prop := bytes "GET " <+: h ∨ bytes "POST " <+: h

def HasHttp (h : Bytes) : Prop := occursIn (bytes "HTTP/") h = true

def HasMcp (h : Bytes) : Prop := occursIn (bytes "MCP/") h = true

instance (h : Bytes) : Decidable (StartsHttp h) := inferInstanceAs (Decidable (_ ∨ _))
instance (h : Bytes) : Decidable (HasHttp h) := inferInstanceAs (Decidable (_ = _))
instance (h : Bytes) : Decidable (HasMcp h) := inferInstanceAs (Decidable (_ = _))

/-- The header carries the marker that decides its type: `HTTP/` after `GET ` or `POST `, and
`MCP/` otherwise; or no continuation that fits in a buffer can bring another one. -/
def OwnMarker (h : Bytes) : Prop :=
  StartsHttp h ∧ HasHttp h ∨ ¬ StartsHttp h ∧ HasMcp h ∨
    ¬ Room h (if StartsHttp h ∧ HasMcp h then 5 else 4)

namespace HeaderBlock

variable (h : HeaderBlock)

theorem block_eq : h.block = h.block.take h.size ++ crlfcrlf := by
  have hm := firstOcc_match crlfcrlf_ne_nil h.firstOcc_eq
  have hd : h.block.drop (h.size+crlfcrlf.length) = [] :=
    List.drop_eq_nil_of_le (by rw [h.length_eq]; simp [crlfcrlf])
  rw [hd, List.append_nil] at hm
  exact hm

theorem strstr_block (h0 : 0 ∉ h.block) (x : Bytes) :
    strstr (h.block ++ x) crlfcrlf = some h.size :=
  strstr_append crlfcrlf_ne_nil (by rw [strstr_of_zero_notMem h0, h.firstOcc_eq]) x

/-- With a NUL in the header its end is never found. -/
theorem strstr_of_zero_mem (h0 : 0 ∈ h.block) (x : Bytes) :
    strstr (h.block ++ x) crlfcrlf = none := by
  obtain ⟨s, t, hst⟩ := List.append_of_mem h0
  rw [hst, List.append_assoc, List.cons_append, strstr, cstr_append_zero]
  by_contra hc
  obtain ⟨k, hk⟩ := Option.ne_none_iff_exists'.mp hc
  have hlen := firstOcc_le _ hk
  have hle := length_cstr_le s
  have hocc : firstOcc crlfcrlf h.block = some k := by
    obtain ⟨r, hr⟩ := cstr_split s
    rw [hst, hr, List.append_assoc]
    exact firstOcc_append crlfcrlf_ne_nil hk _
  rw [h.firstOcc_eq, Option.some.injEq] at hocc
  have htot := congrArg List.length hst
  rw [h.length_eq] at htot
  simp only [List.length_append, List.length_cons, crlfcrlf, List.length_nil] at htot hlen
  omega

/-- The line feed at the end of the header keeps markers from reaching over it. -/
theorem marker_iff {pat : Bytes} (hp : pat ≠ []) (h10 : 10 ∉ pat) (h0 : 0 ∉ h.block) (x : Bytes) :
    (strstr (h.block ++ x) pat).isSome = true ↔
      occursIn pat h.block = true ∨ occursIn pat (cstr x) = true := by
  have hsplit : h.block = (h.block.take h.size ++ [13, 10, 13]) ++ [10] := by
    rw [List.append_assoc]
    exact h.block_eq
  rw [strstr, cstr_append h0]
  change occursIn pat (h.block ++ cstr x) = true ↔ _
  constructor
  · intro hocc
    rw [hsplit, List.append_assoc, List.singleton_append, occursIn_append_cons hp h10] at hocc
    rcases hocc with hl | hr
    · left
      rw [hsplit]
      exact occursIn_append hp hl _
    · exact Or.inr hr
  · rintro (hl | hr)
    · exact occursIn_append hp hl _
    · rw [hsplit, List.append_assoc, List.singleton_append, occursIn_append_cons hp h10]
      exact Or.inr hr

theorem cr_mem : (13 : Byte) ∈ h.block := by
  rw [h.block_eq]
  exact List.mem_append_right _ List.mem_cons_self

theorem start_iff {pat : Bytes} (h13 : 13 ∉ pat) (x : Bytes) :
    pat <+: h.block ++ x ↔ pat <+: h.block :=
  ⟨prefix_of_prefix_append h.cr_mem h13, fun hp => hp.trans (List.prefix_append _ _)⟩

/-- A start without CR lies in front of the end of the header. -/
theorem length_le_of_start {pat : Bytes} (h13 : 13 ∉ pat) (hp : pat <+: h.block) :
    pat.length ≤ h.size := by
  rw [h.block_eq] at hp
  by_contra hlt
  have hlen : (h.block.take h.size ++ [13]).length ≤ pat.length := by
    simp only [List.length_append, List.length_take, h.length_eq, List.length_singleton]
    omega
  have hcr : h.block.take h.size ++ [13] <+: pat :=
    List.prefix_of_prefix_length_le ⟨[10, 13, 10], by simp [crlfcrlf]⟩ hp hlen
  exact h13 (hcr.subset (List.mem_append_right _ List.mem_cons_self))

/-- So does a marker. -/
theorem length_le_of_occursIn {pat : Bytes} (hp : pat ≠ []) (h13 : 13 ∉ pat)
    (hno : occursIn pat [10, 13, 10] = false) (hocc : occursIn pat h.block = true) :
    pat.length ≤ h.size := by
  rw [h.block_eq, crlfcrlf, occursIn_append_cons hp h13, hno] at hocc
  rcases hocc with hocc | hocc
  · have hle := ((occursIn_iff hp).mp hocc).length_le
    simp only [List.length_take, h.length_eq] at hle
    omega
  · exact absurd hocc (by simp)

theorem headerText_block (h0 : 0 ∉ h.block) (h4 : 4 ≤ h.size) :
    headerText h.block = some (h.block.take h.size) := by
  have hdrop : strstr (h.block.drop 4) crlfcrlf = some (h.size-4) := by
    rw [strstr_of_zero_notMem fun hm => h0 (List.mem_of_mem_drop hm)]
    exact firstOcc_drop crlfcrlf_ne_nil h.firstOcc_eq h4
  rw [headerText, hdrop, Option.map_some, show 4+(h.size-4) = h.size by omega]

/-- From four bytes of header on the content length comes from the header. -/
theorem contentLength_append (h0 : 0 ∉ h.block) (h4 : 4 ≤ h.size) (x : Bytes) :
    contentLength (h.block ++ x) = contentLength h.block := by
  have hf := headerFields_append (h.headerText_block h0 h4) x
  unfold contentLength lengthText fieldValue
  rw [hf]

/-- With fewer bytes there is no header text unless the continuation ends one. -/
theorem contentLength_none (h0 : 0 ∉ h.block) (h4 : h.size < 4) {x : Bytes}
    (hx : ∀ b ∈ (cstr x).head?, b ≠ 13 ∧ b ≠ 10) (hno : occursIn crlfcrlf (cstr x) = false) :
    contentLength (h.block ++ x) = none := by
  have hlen := h.length_eq
  have hshort : firstOcc crlfcrlf (h.block.drop 4) = none := by
    by_contra hc
    obtain ⟨k, hk⟩ := Option.ne_none_iff_exists'.mp hc
    have hle := firstOcc_le _ hk
    simp only [crlfcrlf, List.length_cons, List.length_nil, List.length_drop] at hle
    omega
  have hd : 0 ∉ h.block.drop 4 := fun hm => h0 (List.mem_of_mem_drop hm)
  have htext : strstr ((h.block ++ x).drop 4) crlfcrlf = none := by
    rw [List.drop_append_of_le_length (by omega), strstr, cstr_append hd]
    cases hcx : cstr x with
    | nil => rwa [List.append_nil]
    | cons b t =>
      have hb := hx b (by rw [hcx]; rfl)
      have hb' : b ∉ crlfcrlf := by
        simp [crlfcrlf, hb.1, hb.2]
      have hsplit : occursIn crlfcrlf (h.block.drop 4 ++ b :: t) = false := by
        rw [Bool.eq_false_iff]
        intro hocc
        rcases (occursIn_append_cons crlfcrlf_ne_nil hb').mp hocc with hl | hr
        · simp [occursIn, hshort] at hl
        · have hin : occursIn crlfcrlf (b :: t) = true := by
            rw [occursIn_iff crlfcrlf_ne_nil] at hr ⊢
            exact hr.trans (List.suffix_cons b t).isInfix
          rw [hcx] at hno
          exact absurd hin (by simp [hno])
      simpa [occursIn] using hsplit
  have hfields : headerFields (h.block ++ x) = ∅ := by
    rw [headerFields, headerText, htext]
    rfl
  unfold contentLength lengthText fieldValue
  rw [hfields]
  rfl

theorem contentLength_block_none (h0 : 0 ∉ h.block) (h4 : h.size < 4) :
    contentLength h.block = none := by
  have hn := h.contentLength_none h0 h4 (x := []) (by simp [cstr]) (by decide)
  rwa [List.append_nil] at hn

theorem isGet_iff (h0 : 0 ∉ h.block) (x : Bytes) : isGet (h.block ++ x) ↔
    bytes "GET " <+: h.block ∧ (HasHttp h.block ∨ HasHttp (cstr x)) := by
  rw [isGet, h.start_iff (by decide), h.marker_iff (by decide) (by decide) h0]
  rfl

theorem isPost_iff (h0 : 0 ∉ h.block) (x : Bytes) : isPost (h.block ++ x) ↔
    bytes "POST " <+: h.block ∧ (HasHttp h.block ∨ HasHttp (cstr x)) := by
  rw [isPost, h.start_iff (by decide), h.marker_iff (by decide) (by decide) h0]
  rfl

theorem mcp_iff (h0 : 0 ∉ h.block) (x : Bytes) :
    (strstr (h.block ++ x) (bytes "MCP/")).isSome = true ↔ HasMcp h.block ∨ HasMcp (cstr x) :=
  h.marker_iff (by decide) (by decide) h0 x

theorem four_le_of_start (hs : StartsHttp h.block) : 4 ≤ h.size := by
  rcases hs with hs | hs
  · exact h.length_le_of_start (by decide) hs
  · have hle := h.length_le_of_start (by decide) hs
    have hlen : (bytes "POST ").length = 5 := by decide
    omega

theorem four_le_of_mcp (hm : HasMcp h.block) : 4 ≤ h.size :=
  h.length_le_of_occursIn (show bytes "MCP/" ≠ [] by decide) (by decide) (by decide) hm

end HeaderBlock

theorem length_of_hasHttp {x : Bytes} (hx : HasHttp (cstr x)) : 5 ≤ x.length := by
  have hle := ((occursIn_iff (by decide)).mp hx).length_le
  have hlen : (bytes "HTTP/").length = 5 := by decide
  have := length_cstr_le x
  omega

theorem length_of_hasMcp {x : Bytes} (hx : HasMcp (cstr x)) : 4 ≤ x.length := by
  have hle := ((occursIn_iff (by decide)).mp hx).length_le
  have hlen : (bytes "MCP/").length = 4 := by decide
  have := length_cstr_le x
  omega

/-- Type and content length as the header alone determines them. -/
def ownFrame (h : Bytes) : ProtocolType × ℤ :=
  if bytes "GET " <+: h ∧ (HasHttp h ∨ contentLength h = some (intMax-h.length)) then (.httpGet, -1)
  else
    (if bytes "POST " <+: h ∧ HasHttp h then .httpPost
      else if HasMcp h then .mcp else .unknown, (contentLength h).getD (-1))

/-- A frame that is not a GET request and complete has the type of its marker. -/
theorem frameAt_of_sufficient {c : Bytes} {p : ℤ} (hg : ¬ isGet c)
    (hs : (frameAt c p).protocol ≠ .insufficientData) :
    (frameAt c p).protocol = markerType c ∧
      (frameAt c p).iContentLength = (contentLength c).getD (-1) := by
  cases hn : contentLength c with
  | none =>
    rw [frameAt_noLength hg hn]
    exact ⟨rfl, rfl⟩
  | some n =>
    rcases lt_or_ge (c.length : ℤ) (int32 (p+4+n)) with hlt | hge
    · rw [frameAt_short hg hn hlt] at hs
      exact absurd rfl hs
    · rw [frameAt_complete hg hn hge]
      exact ⟨rfl, rfl⟩

namespace HeaderBlock

variable (h : HeaderBlock)

theorem four_le_of_ownMarker (h0 : 0 ∉ h.block) (hm : OwnMarker h.block) : 4 ≤ h.size := by
  rcases hm with ⟨hs, _⟩ | ⟨_, hmcp⟩ | hroom
  · exact h.four_le_of_start hs
  · exact h.four_le_of_mcp hmcp
  · by_contra h4
    apply hroom
    rw [Room, h.contentLength_block_none h0 (by omega), h.length_eq]
    refine ⟨?_, by simp⟩
    unfold intMax
    split_ifs <;> omega

/-- When the frame of the header needs exactly `INT_MAX` bytes, no buffer ever holds it. -/
theorem insufficient_of_full (h0 : 0 ∉ h.block) (h4 : 4 ≤ h.size) {x : Bytes}
    (hx : ((h.block ++ x).length : ℤ) < intMax) (hg : ¬ isGet (h.block ++ x))
    (hfull : contentLength h.block = some (intMax-h.block.length)) :
    (frameAt (h.block ++ x) h.size).protocol = .insufficientData := by
  have hlen := h.length_eq
  have hsum : (h.size : ℤ)+4+(intMax-h.block.length) = intMax := by omega
  have hmax : int32 intMax = intMax := by decide
  rw [frameAt_short hg (by rw [h.contentLength_append h0 h4, hfull])
    (by rw [hsum, hmax]; exact hx)]

/-- Under the condition every complete continuation gives the type the header determines. -/
theorem frameAt_own (h0 : 0 ∉ h.block) (hm : OwnMarker h.block) {x : Bytes}
    (hx : ((h.block ++ x).length : ℤ) < intMax)
    (hs : (frameAt (h.block ++ x) h.size).protocol ≠ .insufficientData) :
    ((frameAt (h.block ++ x) h.size).protocol, (frameAt (h.block ++ x) h.size).iContentLength) =
      ownFrame h.block := by
  have h4 := h.four_le_of_ownMarker h0 hm
  have hxl : (h.block.length : ℤ)+x.length < intMax := by
    rwa [List.length_append, Nat.cast_add] at hx
  unfold ownFrame
  by_cases hg : isGet (h.block ++ x)
  · -- a GET request: its marker is in the header, or the frame could not be complete otherwise
    obtain ⟨hget, hmark⟩ := (h.isGet_iff h0 x).mp hg
    have hstart : StartsHttp h.block := Or.inl hget
    have hown : HasHttp h.block ∨ contentLength h.block = some (intMax-h.block.length) := by
      by_contra hno
      obtain ⟨hno₁, hno₂⟩ := not_or.mp hno
      have hxm := length_of_hasHttp (hmark.resolve_left hno₁)
      rcases hm with ⟨_, hh⟩ | ⟨hn, _⟩ | hroom
      · exact hno₁ hh
      · exact hn hstart
      · apply hroom
        refine ⟨?_, hno₂⟩
        split_ifs <;> omega
    rw [if_pos ⟨hget, hown⟩, frameAt_get hg]
  · obtain ⟨hprot, hcl⟩ := frameAt_of_sufficient hg hs
    have hfull : contentLength h.block ≠ some (intMax-h.block.length) :=
      fun hf => hs (h.insufficient_of_full h0 h4 hx hg hf)
    have hnget : ¬ (bytes "GET " <+: h.block ∧
        (HasHttp h.block ∨ contentLength h.block = some (intMax-h.block.length))) := by
      rintro ⟨hget, hh | hf⟩
      · exact hg ((h.isGet_iff h0 x).mpr ⟨hget, Or.inl hh⟩)
      · exact hfull hf
    rw [if_neg hnget, hprot, hcl, h.contentLength_append h0 h4, Prod.mk.injEq]
    refine ⟨?_, rfl⟩
    -- a marker in the continuation alone needs room that the condition denies
    have hroom : ¬ (StartsHttp h.block ∧ HasHttp h.block) →
        ¬ (¬ StartsHttp h.block ∧ HasMcp h.block) →
        intMax ≤ h.block.length + if StartsHttp h.block ∧ HasMcp h.block then 5 else 4 := by
      intro hn₁ hn₂
      have hnr := (hm.resolve_left hn₁).resolve_left hn₂
      by_contra hlt
      exact hnr ⟨by omega, hfull⟩
    unfold markerType
    by_cases hpost : bytes "POST " <+: h.block ∧ HasHttp h.block
    · rw [if_pos hpost, if_pos ((h.isPost_iff h0 x).mpr ⟨hpost.1, Or.inl hpost.2⟩)]
    · have hnpost : ¬ isPost (h.block ++ x) := by
        intro hp
        obtain ⟨hstart, hmark⟩ := (h.isPost_iff h0 x).mp hp
        have hnh : ¬ HasHttp h.block := fun hh => hpost ⟨hstart, hh⟩
        have hxm := length_of_hasHttp (hmark.resolve_left hnh)
        have hle := hroom (fun hc => hnh hc.2) (fun hc => hc.1 (Or.inr hstart))
        split_ifs at hle <;> omega
      rw [if_neg hpost, if_neg hnpost]
      by_cases hmcp : HasMcp h.block
      · rw [if_pos hmcp, if_pos ((h.mcp_iff h0 x).mpr (Or.inl hmcp))]
      · have hnmcp : ¬ (strstr (h.block ++ x) (bytes "MCP/")).isSome = true := by
          intro hc
          have hxm := length_of_hasMcp (((h.mcp_iff h0 x).mp hc).resolve_left hmcp)
          have hle := hroom (fun hc => ?_) (fun hc => hmcp hc.2)
          · rw [if_neg fun hc => hmcp hc.2] at hle
            omega
          · rcases hc.1 with hget | hp
            · exact hnget ⟨hget, Or.inl hc.2⟩
            · exact hpost ⟨hp, hc.2⟩
        rw [if_neg hmcp, if_neg hnmcp]

theorem classified_of_ownMarker (hm : 0 ∈ h.block ∨ OwnMarker h.block) :
    ClassifiedByOwnBytes h.block := by
  intro k₁ k₂ b₁ b₂ x y a₁ a₂ hb₁ hb₂ ha₁ ha₂ hs₁ hs₂
  by_cases h0 : 0 ∈ h.block
  · rcases analyzeProtocol_none k₁ hb₁ (h.strstr_of_zero_mem h0 x) with herr | ⟨b', hok, _⟩
    · rw [herr] at ha₁
      exact absurd ha₁ (by simp)
    · rw [hok, Except.ok.injEq] at ha₁
      exact absurd (by rw [← ha₁]) hs₁
  · obtain ⟨c₁, h₁, hr₁, _, he₁, _, _⟩ := analyzeProtocol_some k₁ hb₁ (h.strstr_block h0 x)
    obtain ⟨c₂, h₂, hr₂, _, he₂, _, _⟩ := analyzeProtocol_some k₂ hb₂ (h.strstr_block h0 y)
    rw [hr₁, Except.ok.injEq] at ha₁
    rw [hr₂, Except.ok.injEq] at ha₂
    rw [← ha₁] at hs₁ ⊢
    rw [← ha₂] at hs₂ ⊢
    have ho₁ := h.frameAt_own h0 (hm.resolve_left h0) hb₁.length_lt hs₁
    have ho₂ := h.frameAt_own h0 (hm.resolve_left h0) hb₂.length_lt hs₂
    have heq := ho₁.trans ho₂.symm
    rw [Prod.mk.injEq] at heq
    exact ⟨heq.1, by rw [he₁, he₂], heq.2⟩

/-- How many bytes behind the header complete its frame. -/
def missing (b : Bytes) : ℕ :=
  match contentLength b with
  | none => 0
  | some n => if b.length+n ≤ intMax then n.toNat else 0

theorem missing_lt {k : ℤ} (hr : Room h.block k) (hk : 0 ≤ k) :
    (h.block.length : ℤ)+missing h.block < intMax := by
  obtain ⟨hlt, hne⟩ := hr
  unfold missing
  cases hn : contentLength h.block with
  | none =>
    dsimp only
    omega
  | some n =>
    dsimp only
    rw [hn, ne_eq, Option.some.injEq] at hne
    split_ifs <;> omega

theorem protocol_of_missing {x : Bytes}
    (hcl : contentLength (h.block ++ x) = contentLength h.block)
    (hl : (h.block.length : ℤ) ≤ intMax)
    (hx : missing h.block ≤ x.length) (hg : ¬ isGet (h.block ++ x)) :
    (frameAt (h.block ++ x) h.size).protocol = markerType (h.block ++ x) := by
  have hlen := h.length_eq
  cases hn : contentLength h.block with
  | none => rw [frameAt_noLength hg (hcl.trans hn)]
  | some n =>
    have hnle := contentLength_le hn
    have hnge := contentLength_ge hn
    rw [missing, hn] at hx
    dsimp only at hx
    have hfull : int32 (h.size+4+n) ≤ ((h.block ++ x).length : ℤ) := by
      rw [List.length_append, Nat.cast_add]
      rcases le_or_gt ((h.block.length : ℤ)+n) intMax with hin | hover
      · rw [if_pos hin] at hx
        rw [int32_eq (by omega) (by omega)]
        omega
      · rw [int32_of_gt (by omega) (by unfold intMax at *; omega)]
        unfold intMax at *
        omega
    rw [frameAt_complete hg (hcl.trans hn) hfull]

/-- A continuation whose text is `w`, filled with zeros up to the end of the frame. -/
def probe (b w : Bytes) : Bytes := w ++ List.replicate (missing b - w.length) 0

theorem cstr_probe {b w : Bytes} (hw : 0 ∉ w) : cstr (probe b w) = w := by
  rw [probe, cstr_append hw]
  cases missing b - w.length <;> simp [cstr, List.replicate_succ]

theorem contentLength_probe (h0 : 0 ∉ h.block) {w : Bytes} (hw : 0 ∉ w)
    (hhead : ∀ b ∈ w.head?, b ≠ 13 ∧ b ≠ 10) (hno : occursIn crlfcrlf w = false) :
    contentLength (h.block ++ probe h.block w) = contentLength h.block := by
  rcases Nat.lt_or_ge h.size 4 with h4 | h4
  · rw [h.contentLength_block_none h0 h4]
    exact h.contentLength_none h0 h4 (by rwa [cstr_probe hw]) (by rwa [cstr_probe hw])
  · exact h.contentLength_append h0 h4 _

/-- The result on a probe: its text alone decides the type. -/
theorem analyzeProtocol_probe (h0 : 0 ∉ h.block) {w : Bytes} {k : ℤ} (hr : Room h.block k)
    (hk : (w.length : ℤ) ≤ k) (hw : 0 ∉ w) (hhead : ∀ b ∈ w.head?, b ≠ 13 ∧ b ≠ 10)
    (hno : occursIn crlfcrlf w = false) :
    ∃ b a, b.Holds (h.block ++ probe h.block w) ∧
      ({} : ConnectionHandlerInbound).analyzeProtocol b = .ok a ∧
      a.protocol = if bytes "GET " <+: h.block ∧ (HasHttp h.block ∨ HasHttp w) then .httpGet
        else if bytes "POST " <+: h.block ∧ (HasHttp h.block ∨ HasHttp w) then .httpPost
        else if HasMcp h.block ∨ HasMcp w then .mcp else .unknown := by
  have hmiss := h.missing_lt hr (by omega)
  have hlt : (h.block ++ probe h.block w).length < intMax := by
    have hroom := hr.1
    simp only [probe, List.length_append, List.length_replicate, Nat.cast_add]
    omega
  have hb := Buffer.holds_terminated hlt
  obtain ⟨b', h', ha, _⟩ := analyzeProtocol_some {} hb (h.strstr_block h0 _)
  refine ⟨_, _, hb, ha, ?_⟩
  dsimp only
  have hget := h.isGet_iff h0 (probe h.block w)
  have hpost := h.isPost_iff h0 (probe h.block w)
  have hmcp := h.mcp_iff h0 (probe h.block w)
  rw [cstr_probe hw] at hget hpost hmcp
  by_cases hg : isGet (h.block ++ probe h.block w)
  · rw [frameAt_get hg, if_pos (hget.mp hg)]
  · rw [if_neg fun hc => hg (hget.mpr hc), h.protocol_of_missing
      (h.contentLength_probe h0 hw hhead hno) (by omega)
      (by simp only [probe, List.length_append, List.length_replicate]; omega) hg, markerType]
    simp only [hpost, hmcp]

/-- Without the condition two probes get different types. -/
theorem ownMarker_of_classified (h0 : 0 ∉ h.block) (hc : ClassifiedByOwnBytes h.block) :
    OwnMarker h.block := by
  by_contra hm
  obtain ⟨hm₁, hm⟩ := not_or.mp hm
  obtain ⟨hm₂, hr⟩ := not_or.mp hm
  rw [not_not] at hr
  obtain ⟨b₂, a₂, hb₂, ha₂, ht₂⟩ := h.analyzeProtocol_probe h0 (w := []) hr
    (by split_ifs <;> simp) (by simp) (by simp) (by decide)
  have hnil : ¬ HasHttp [] ∧ ¬ HasMcp [] := by decide
  have hget₂ : ¬ (bytes "GET " <+: h.block ∧ (HasHttp h.block ∨ HasHttp [])) :=
    fun hg => hm₁ ⟨Or.inl hg.1, hg.2.resolve_right hnil.1⟩
  have hpost₂ : ¬ (bytes "POST " <+: h.block ∧ (HasHttp h.block ∨ HasHttp [])) :=
    fun hp => hm₁ ⟨Or.inr hp.1, hp.2.resolve_right hnil.1⟩
  rw [if_neg hget₂, if_neg hpost₂] at ht₂
  by_cases hsm : StartsHttp h.block ∧ HasMcp h.block
  · -- an MCP frame becomes an HTTP request when `HTTP/` follows
    rw [if_pos hsm] at hr
    have hw : HasHttp (bytes "HTTP/") := by decide
    obtain ⟨b₁, a₁, hb₁, ha₁, ht₁⟩ := h.analyzeProtocol_probe h0 (w := bytes "HTTP/") hr
      (by decide) (by decide) (by simp [bytes]) (by decide)
    rw [if_pos (Or.inl hsm.2)] at ht₂
    have hhttp : a₁.protocol = .httpGet ∨ a₁.protocol = .httpPost := by
      rw [ht₁]
      rcases hsm.1 with hg | hp
      · exact Or.inl (if_pos ⟨hg, Or.inr hw⟩)
      · split_ifs with h₁ h₂
        · exact Or.inl rfl
        · exact Or.inr rfl
        · exact absurd ⟨hp, Or.inr hw⟩ h₂
        · exact absurd ⟨hp, Or.inr hw⟩ h₂
    have heq := (hc {} {} b₁ b₂ _ _ a₁ a₂ hb₁ hb₂ ha₁ ha₂
      (by rcases hhttp with he | he <;> rw [he] <;> decide) (by rw [ht₂]; decide)).1
    rw [ht₂] at heq
    rcases hhttp with he | he <;> rw [he] at heq <;> cases heq
  · -- an unknown frame becomes an MCP frame when `MCP/` follows
    have hnm : ¬ HasMcp h.block := by
      intro hmcp
      by_cases hs : StartsHttp h.block
      · exact hsm ⟨hs, hmcp⟩
      · exact hm₂ ⟨hs, hmcp⟩
    rw [if_neg hsm] at hr
    have hw : ¬ HasHttp (bytes "MCP/") ∧ HasMcp (bytes "MCP/") := by decide
    obtain ⟨b₁, a₁, hb₁, ha₁, ht₁⟩ := h.analyzeProtocol_probe h0 (w := bytes "MCP/") hr
      (by decide) (by decide) (by simp [bytes]) (by decide)
    rw [if_neg fun hg => hm₁ ⟨Or.inl hg.1, hg.2.resolve_right hw.1⟩,
      if_neg fun hp => hm₁ ⟨Or.inr hp.1, hp.2.resolve_right hw.1⟩, if_pos (Or.inr hw.2)] at ht₁
    rw [if_neg fun hx => hx.elim hnm hnil.2] at ht₂
    have heq := (hc {} {} b₁ b₂ _ _ a₁ a₂ hb₁ hb₂ ha₁ ha₂
      (by rw [ht₁]; decide) (by rw [ht₂]; decide)).1
    rw [ht₁, ht₂] at heq
    cases heq

end HeaderBlock

/-- Exactly when the type, header end and content length of a frame come from its header. A NUL in
the header keeps every frame from being complete. -/
theorem classifiedByOwnBytes_iff (h : HeaderBlock) :
    ClassifiedByOwnBytes h.block ↔ 0 ∈ h.block ∨ OwnMarker h.block := by
  constructor
  · intro hc
    by_cases h0 : 0 ∈ h.block
    · exact Or.inl h0
    · exact Or.inr (h.ownMarker_of_classified h0 hc)
  · exact h.classified_of_ownMarker

/-- A header without any marker. -/
def plainHeader : Bytes := bytes "hello\r\n\r\n"

/-- Alone it is unknown and closes the connection; with the next request behind it, it is an MCP
frame. -/
theorem plainHeader_not_classified : ¬ ClassifiedByOwnBytes plainHeader := by
  intro hc
  have hp₁ : strstr plainHeader crlfcrlf = some 5 := by decide
  have hp₂ : strstr (plainHeader ++ bytes "x MCP/1.0\r\n\r\n") crlfcrlf = some 5 := by decide
  have hf₁ : frameAt plainHeader 5 = ⟨.unknown, -1, 5, 9⟩ := by decide
  have hf₂ : frameAt (plainHeader ++ bytes "x MCP/1.0\r\n\r\n") 5 = ⟨.mcp, -1, 5, 9⟩ := by decide
  have hb₁ := Buffer.holds_terminated (c := plainHeader ++ [])
    (by simp [plainHeader, bytes, intMax])
  have hb₂ := Buffer.holds_terminated (c := plainHeader ++ bytes "x MCP/1.0\r\n\r\n")
    (by simp [plainHeader, bytes, intMax])
  obtain ⟨b₁, h₁, ha₁, _⟩ := analyzeProtocol_some {} hb₁ (by rwa [List.append_nil])
  obtain ⟨b₂, h₂, ha₂, _⟩ := analyzeProtocol_some {} hb₂ hp₂
  rw [List.append_nil, Nat.cast_ofNat, hf₁] at ha₁
  rw [Nat.cast_ofNat, hf₂] at ha₂
  have hne₁ : ProtocolType.unknown ≠ .insufficientData := by decide
  have hne₂ : ProtocolType.mcp ≠ .insufficientData := by decide
  have heq := (hc {} {} _ _ _ _ _ _ hb₁ hb₂ (by rwa [List.append_nil]) ha₂ hne₁ hne₂).1
  cases heq

end MsgCourier
