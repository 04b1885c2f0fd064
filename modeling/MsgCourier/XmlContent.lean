import MsgCourier.XmlParser

/-! What the operations of the XML parser do to the texts in its buffers, and how much room each of
them needs. -/
namespace MsgCourier
open ListSearch CText

/-! ### Room -/

/-- The size of the working buffer behind `CheckWorkingBuffer`; none for the allocation error. -/
def roomFor (size n : ℕ) : Option ℕ :=
  if size = 0 then some initialWorkingBufferSize
  else if size < n then if (n*2 : ℤ) ≤ intMax then some (n*2) else none
  else some size

/-- A copied text needs a byte for its terminator, and `StripChars` one behind what it keeps. -/
def CopyOK (size : ℕ) (t : Bytes) : Prop :=
  t.length < size ∧ (keptChars false t).length+1 < size

instance (size : ℕ) (t : Bytes) : Decidable (CopyOK size t) := inferInstanceAs (Decidable (_ ∧ _))

namespace XmlParser

variable (xml : XmlParser)

theorem checkWorkingBuffer_cases {n : ℕ} (hn : (n : ℤ) ≤ intMax) :
    (roomFor xml.pWorkingBuffer.length n = none ∧ xml.checkWorkingBuffer n = .ok none) ∨
      ∃ p, roomFor xml.pWorkingBuffer.length n = some p.length ∧ xml.pWorkingBuffer <+: p ∧
        xml.checkWorkingBuffer n = .ok (some { xml with pWorkingBuffer := p }) := by
  unfold roomFor checkWorkingBuffer
  by_cases hsize : xml.pWorkingBuffer.length = 0
  · right
    rw [if_pos hsize, if_pos hsize]
    generalize initialWorkingBufferSize = size
    refine ⟨List.replicate size 0, by rw [List.length_replicate], ?_, rfl⟩
    rw [List.length_eq_zero_iff.mp hsize]
    exact List.nil_prefix
  · rw [if_neg hsize, if_neg hsize]
    by_cases hlt : xml.pWorkingBuffer.length < n
    · rw [if_pos hlt, if_pos hlt]
      dsimp only
      by_cases hfit : (n*2 : ℤ) ≤ intMax
      · right
        have hint : int32 ((n : ℤ)*2) = (n*2 : ℕ) := by
          rw [int32_eq (by omega) hfit]
          push_cast
          rfl
        have hstore := store_zero (show xml.pWorkingBuffer.length ≤
          (List.replicate (n*2) (0 : Byte)).length by rw [List.length_replicate]; omega)
        rw [if_pos hfit, hint, if_neg (by omega), Int.toNat_natCast, hstore]
        have hcount : (xml.pWorkingBuffer ++
            (List.replicate (n*2) (0 : Byte)).drop xml.pWorkingBuffer.length).length = n*2 := by
          rw [List.length_append, List.length_drop, List.length_replicate]
          omega
        exact ⟨_, by rw [hcount], List.prefix_append _ _, rfl⟩
      · left
        have hneg : int32 ((n : ℤ)*2) < 0 := by
          unfold intMax at hn hfit
          rw [int32_of_gt (by unfold intMax; omega) (by omega)]
          omega
        rw [if_neg hfit, if_pos hneg]
        exact ⟨rfl, rfl⟩
    · right
      rw [if_neg hlt, if_neg hlt]
      exact ⟨_, rfl, List.prefix_rfl, rfl⟩

/-- The piece of the input between two indices, both included. -/
def piece (text : Bytes) (mark idx : ℕ) : Bytes := (text.drop mark).take (idx-mark+1)

theorem length_piece {text : Bytes} {mark idx : ℕ} (hmark : mark ≤ idx) (hidx : idx < text.length) :
    (piece text mark idx).length = idx-mark+1 := by
  unfold piece
  rw [List.length_take, List.length_drop]
  omega

theorem copyInput_eq {text : Bytes} (h0 : 0 ∉ text) {mark idx : ℕ} (hmark : mark ≤ idx)
    (hidx : idx < text.length) :
    if (piece text mark idx).length < xml.pWorkingBuffer.length then
      ∃ p, xml.copyInput (text ++ [0]) mark (idx-mark+1) =
          .ok { xml with pWorkingBuffer := p } ∧
        p.length = xml.pWorkingBuffer.length ∧ TextBlock p (piece text mark idx)
    else xml.copyInput (text ++ [0]) mark (idx-mark+1) = .error .undefined := by
  have hlen := length_piece hmark hidx
  have hsrc : TextBlock ((text ++ [0]).drop mark) (text.drop mark) :=
    (TextBlock.mk text [] h0).drop (by omega)
  have hcopy := hsrc.strncpy_poke (n := idx-mark+1) (by rw [List.length_drop]; omega)
    xml.pWorkingBuffer
  rw [← hlen] at hcopy ⊢
  unfold copyInput
  split_ifs at hcopy ⊢ with hroom
  · obtain ⟨p, copied, hcopied, hpoke, hp, htext⟩ := hcopy
    rw [hcopied, ok_bind, hpoke]
    rw [hlen] at htext
    exact ⟨p, rfl, hp, htext⟩
  · cases hcopied : strncpy xml.pWorkingBuffer ((text ++ [0]).drop mark)
      (piece text mark idx).length with
    | error e => rw [hcopied] at hcopy; rw [Except.error.inj hcopy]; rfl
    | ok copied =>
      rw [hcopied, ok_bind] at hcopy
      rw [ok_bind, hcopy]
      rfl

end XmlParser

/-! ### Attributes -/

/-- A space at the start of a value is stepped over. -/
def afterSpace (v : Bytes) : Bytes := if v.headD 0 = 32 then v.tail else v

/-- What follows the equals sign. -/
def splitValue (t : Bytes) : Bytes := afterSpace (t.drop ((t.takeWhile (· ≠ 61)).length+1))

theorem afterSpace_sublist (v : Bytes) : (afterSpace v).Sublist v := by
  unfold afterSpace
  split_ifs
  · exact List.tail_sublist v
  · exact List.Sublist.refl v

/-- The text has a name and an equals sign and nothing behind them. -/
def EmptyValue (t : Bytes) : Prop := 61 ∈ t ∧ t.headD 0 ≠ 61 ∧ splitValue t = []

instance (t : Bytes) : Decidable (EmptyValue t) := inferInstanceAs (Decidable (_ ∧ _))

/-- The attribute that a text is split into. -/
def attributeOf (t : Bytes) : List (Bytes × Bytes) :=
  if 61 ∈ t ∧ t.headD 0 ≠ 61 then [(t.takeWhile (· ≠ 61), decoded (splitValue t))] else []

theorem takeWhile_ne {c : Byte} {u : Bytes} (hu : c ∉ u) (v : Bytes) :
    (u ++ c :: v).takeWhile (· ≠ c) = u := by
  rw [List.takeWhile_append_of_pos, List.takeWhile_cons_of_neg (by simp), List.append_nil]
  intro a ha
  rw [decide_eq_true_iff]
  exact fun h => hu (h ▸ ha)

/-- The element with more attributes at the end. -/
def XmlElement.withAttributes (e : XmlElement) (l : List (Bytes × Bytes)) : XmlElement :=
  { e with xmlAttributes := e.xmlAttributes ++ l }

theorem XmlElement.withAttributes_nil (e : XmlElement) : e.withAttributes [] = e := by
  unfold withAttributes
  rw [List.append_nil]

/-- The element with the decoded value, unless the value is empty. -/
def XmlElement.withValue (e : XmlElement) (v : Bytes) : XmlElement :=
  if v = [] then e else { e with xmlValue := some (decoded v) }

section
variable {t u : Bytes}

theorem splitValue_append (hu : 61 ∉ u) (v : Bytes) : splitValue (u ++ 61 :: v) = afterSpace v := by
  unfold splitValue
  rw [takeWhile_ne hu v, ← List.drop_drop, List.drop_left]
  rfl

theorem headD_append_ne (hu : 61 ∉ u) (hne : u ≠ []) (v : Bytes) :
    (u ++ 61 :: v).headD 0 ≠ 61 := by
  cases u with
  | nil => exact absurd rfl hne
  | cons c u => exact fun h => hu (h ▸ List.mem_cons_self)

theorem emptyValue_append (hu : 61 ∉ u) (hne : u ≠ []) (v : Bytes) :
    EmptyValue (u ++ 61 :: v) ↔ afterSpace v = [] := by
  unfold EmptyValue
  rw [splitValue_append hu]
  exact ⟨fun h => h.2.2, fun h => ⟨by simp, headD_append_ne hu hne v, h⟩⟩

theorem attributeOf_append (hu : 61 ∉ u) (hne : u ≠ []) (v : Bytes) :
    attributeOf (u ++ 61 :: v) = [(u, decoded (afterSpace v))] := by
  unfold attributeOf
  rw [if_pos ⟨by simp, headD_append_ne hu hne v⟩, takeWhile_ne hu v, splitValue_append hu]

theorem attributeOf_none (h : 61 ∈ t → t.headD 0 = 61) : attributeOf t = [] :=
  if_neg fun hsome => hsome.2 (h hsome.1)

theorem not_emptyValue (h : 61 ∈ t → t.headD 0 = 61) : ¬ EmptyValue t :=
  fun hempty => hempty.2.1 (h hempty.1)

end

namespace XmlParser

variable (xml : XmlParser)

/-- The split buffers have the byte behind their recorded size. -/
def SplitOK : Prop := xml.iSplitBufferNameSize = 0 ∨
  xml.pSplitBufferName.length = xml.iSplitBufferNameSize+1 ∧
    xml.pSplitBufferValue.length = xml.iSplitBufferNameSize+1

variable {xml}

theorem SplitOK.splitRoom (h : xml.SplitOK) {n : ℕ} (hn : 0 < n) :
    n < (xml.splitRoom n).pSplitBufferName.length ∧
      n < (xml.splitRoom n).pSplitBufferValue.length ∧ (xml.splitRoom n).SplitOK := by
  unfold XmlParser.splitRoom
  split_ifs with hlt
  · simp [SplitOK]
  · rcases h with h | ⟨hname, hvalue⟩
    · omega
    · exact ⟨by omega, by omega, Or.inr ⟨hname, hvalue⟩⟩

/-- A text without a name or without an equals sign is no attribute. -/
theorem splitParam_none {pBuf t : Bytes} (h : TextBlock pBuf t)
    (hnone : 61 ∈ t → t.headD 0 = 61) (pElement : XmlElement) :
    xml.splitParam pBuf pElement = .ok (xml, pElement) := by
  have hcount : (if (t.takeWhile (· ≠ 61)).length < t.length then
      (t.takeWhile (· ≠ 61)).length else 0) = 0 := by
    by_cases hin : 61 ∈ t
    · cases t with
      | nil => cases hin
      | cons c t =>
        obtain rfl : c = 61 := hnone hin
        rfl
    · rw [List.takeWhile_eq_self_iff.mpr, if_neg (lt_irrefl _)]
      intro c hc
      rw [decide_eq_true_iff]
      exact fun h => hin (h ▸ hc)
  unfold splitParam
  rw [h.strlen_eq, ok_bind, Int.toNat_natCast, h.scanWhile_eq, ok_bind]
  dsimp only
  rw [if_pos hcount]
  rfl

/-- A name, an equals sign and a value. -/
theorem splitParam_some (hs : xml.SplitOK) {pBuf u v : Bytes} (h : TextBlock pBuf (u ++ 61 :: v))
    (hmax : (v.length : ℤ) ≤ intMax) (hu : 61 ∉ u) (hne : u ≠ []) (h13 : 13 ∉ v)
    (pElement : XmlElement) :
    if afterSpace v = [] then
      xml.splitParam pBuf pElement = .error .undefined
    else ∃ xml', xml.splitParam pBuf pElement =
        .ok (xml', pElement.withAttributes [(u, decoded (afterSpace v))]) ∧
      xml'.pWorkingBuffer = xml.pWorkingBuffer ∧ xml'.xmlElements = xml.xmlElements ∧
      xml'.SplitOK := by
  have hpos : 0 < u.length := List.length_pos_iff.mpr hne
  have hscan : (u ++ 61 :: v).takeWhile (· ≠ 61) = u := takeWhile_ne hu v
  have hlen : (u ++ 61 :: v).length = u.length+1+v.length := by
    rw [List.length_append, List.length_cons]
    omega
  obtain ⟨hname, hvalue, hsplit⟩ := hs.splitRoom (n := (u ++ 61 :: v).length) (by omega)
  have hcopy := h.strncpy_poke (n := u.length) (by omega)
    (xml.splitRoom (u ++ 61 :: v).length).pSplitBufferName
  rw [if_pos (by omega)] at hcopy
  obtain ⟨name, copied, hcopied, hpoke, hnamelen, hnametext⟩ := hcopy
  rw [List.take_left] at hnametext
  have hdrop : (u ++ 61 :: v).drop (u.length+1) = v := by
    rw [← List.drop_drop, List.drop_left]
    rfl
  have hpeek : peek pBuf (u.length+1 : ℕ) = .ok (v.headD 0) := by
    rw [h.peek_eq (by omega), hdrop]
  have hsrc : TextBlock (pBuf.drop ((if v.headD 0 = 32 then u.length+1 else u.length)+1))
      (afterSpace v) := by
    unfold afterSpace
    split_ifs with hspace
    · cases v with
      | nil => cases hspace
      | cons c v =>
        have htext := h.drop (i := u.length+1+1) (by rw [hlen, List.length_cons]; omega)
        rwa [← List.drop_drop (l := u ++ 61 :: c :: v), hdrop] at htext
    · have htext := h.drop (i := u.length+1) (by omega)
      rwa [hdrop] at htext
  have h13' : 13 ∉ afterSpace v := fun hin => h13 ((afterSpace_sublist v).subset hin)
  have hle : (afterSpace v).length ≤ v.length := (afterSpace_sublist v).length_le
  unfold splitParam
  rw [h.strlen_eq, ok_bind, Int.toNat_natCast, h.scanWhile_eq, ok_bind]
  dsimp only
  rw [hscan, if_pos (show u.length < (u ++ 61 :: v).length by omega),
    if_neg (show ¬ u.length = 0 by omega), hcopied,
    ok_bind, hpoke, ok_bind, hpeek, ok_bind]
  generalize afterSpace v = value at *
  obtain ⟨mem, hstrcpy, hmemlen, hmem⟩ := hsrc.strcpy_eq
    (show value.length < (xml.splitRoom (u ++ 61 :: v).length).pSplitBufferValue.length by omega)
  rw [hstrcpy, ok_bind, hmem.strlen_eq, ok_bind]
  rcases List.eq_nil_or_concat' value with rfl | ⟨w, c, rfl⟩
  · -- the byte before the empty value is read
    rw [if_pos rfl, peek_neg (by simp)]
    rfl
  · have hlast : peek mem (((w ++ [c]).length : ℕ)-1 : ℤ) = .ok c := by
      have hlen : (((w ++ [c]).length : ℕ)-1 : ℤ) = (w.length : ℕ) := by simp
      rw [hlen, hmem.peek_eq (by simp), List.drop_left]
      rfl
    have hc : c ≠ 13 := fun h => h13' (by simp [h])
    obtain ⟨mem', hdecode, hmemlen', hmem'⟩ := transformXMLEntities_eq hmem (by omega)
    rw [if_neg (by simp), hlast, ok_bind, if_neg hc, pure_eq_ok, ok_bind, hdecode, ok_bind,
      hnametext.cstr_eq, hmem'.cstr_eq]
    refine ⟨_, rfl, ?_, ?_, ?_⟩
    · unfold splitRoom
      split_ifs <;> rfl
    · unfold splitRoom
      split_ifs <;> rfl
    · rcases hsplit with hsplit | ⟨hn, hv⟩
      · exact Or.inl hsplit
      · exact Or.inr ⟨hnamelen.trans hn, (hmemlen'.trans hmemlen).trans hv⟩

theorem splitParam_eq (hs : xml.SplitOK) {pBuf t : Bytes} (h : TextBlock pBuf t)
    (hmax : (t.length : ℤ) ≤ intMax) (h13 : 13 ∉ t) (pElement : XmlElement) :
    if EmptyValue t then xml.splitParam pBuf pElement = .error .undefined
    else ∃ xml', xml.splitParam pBuf pElement =
        .ok (xml', pElement.withAttributes (attributeOf t)) ∧
      xml'.pWorkingBuffer = xml.pWorkingBuffer ∧ xml'.xmlElements = xml.xmlElements ∧
      xml'.SplitOK := by
  have hnone (h61 : 61 ∈ t → t.headD 0 = 61) :
      ∃ xml', xml.splitParam pBuf pElement =
          .ok (xml', pElement.withAttributes (attributeOf t)) ∧
        xml'.pWorkingBuffer = xml.pWorkingBuffer ∧ xml'.xmlElements = xml.xmlElements ∧
        xml'.SplitOK := by
    rw [attributeOf_none h61, pElement.withAttributes_nil]
    exact ⟨xml, splitParam_none h h61 pElement, rfl, rfl, hs⟩
  by_cases hin : 61 ∈ t
  · obtain ⟨u, v, rfl, hu⟩ := List.eq_append_cons_of_mem hin
    by_cases hne : u = []
    · subst hne
      rw [if_neg (not_emptyValue fun _ => rfl)]
      exact hnone fun _ => rfl
    · have hmax' : (v.length : ℤ) ≤ intMax := by
        rw [List.length_append, List.length_cons] at hmax
        omega
      have hsome := splitParam_some hs h hmax' hu hne (fun hin => h13 (by simp [hin])) pElement
      rw [attributeOf_append hu hne]
      by_cases hempty : afterSpace v = []
      · rw [if_pos hempty] at hsome
        rw [if_pos ((emptyValue_append hu hne v).mpr hempty)]
        exact hsome
      · rw [if_neg hempty] at hsome
        rw [if_neg fun h => hempty ((emptyValue_append hu hne v).mp h)]
        exact hsome
  · rw [if_neg (not_emptyValue fun h => absurd h hin)]
    exact hnone fun h => absurd h hin

theorem dropText_eq (xml : XmlParser) : ∃ p, xml.dropText = .ok { xml with pWorkingBuffer := p } ∧
    p.length = xml.pWorkingBuffer.length ∧ cstr p = [] := by
  unfold dropText
  by_cases hnil : xml.pWorkingBuffer = []
  · rw [if_pos hnil]
    exact ⟨xml.pWorkingBuffer, rfl, rfl, by rw [hnil]; rfl⟩
  · obtain ⟨p, hp, hlen, htext⟩ := TextBlock.of_poke (List.length_pos_iff.mpr hnil)
    rw [if_neg hnil, hp]
    exact ⟨p, rfl, hlen, htext.cstr_eq⟩

end XmlParser

/-! ### Cleaned text -/

theorem unquoted_sublist (t : Bytes) : (unquoted t).Sublist t := by
  have hsplit := List.takeWhile_append_dropWhile (p := fun c => ! isQuote c) (l := t)
  unfold unquoted
  cases hq : t.dropWhile (fun c => ! isQuote c) with
  | nil => exact List.Sublist.refl t
  | cons q v =>
    rw [hq] at hsplit
    dsimp only
    apply (List.take_sublist _ _).trans
    conv_rhs => rw [← hsplit]
    exact List.Sublist.append_left (List.sublist_cons_self q v) _

theorem trimmedEnd_sublist (p : Byte → Bool) (t : Bytes) : (trimmedEnd p t).Sublist t := by
  cases t with
  | nil => exact List.Sublist.slnil
  | cons a v => exact (List.rdropWhile_prefix p v).sublist.cons_cons a

theorem cleaned_sublist (t : Bytes) : (cleaned t).Sublist (keptChars false t) := by
  apply (unquoted_sublist _).trans
  apply (trimmedEnd_sublist _ _).trans
  exact List.dropWhile_sublist _

/-- No markup and no line break is kept. -/
theorem notMem_keptChars {c : Byte} (hc : ∀ q, isStripped q c = true) (qoute : Bool) (t : Bytes) :
    c ∉ keptChars qoute t := by
  induction t generalizing qoute with
  | nil => exact List.not_mem_nil
  | cons a t ih =>
    unfold keptChars
    dsimp only
    generalize (if isQuote a then ! qoute else qoute) = q
    by_cases ha : isStripped q a = true
    · rw [if_pos ha]
      exact ih q
    · rw [if_neg ha]
      intro hin
      rcases List.mem_cons.mp hin with rfl | h
      · exact ha (hc q)
      · exact ih q h

theorem length_cleaned_le (t : Bytes) : (cleaned t).length ≤ t.length :=
  ((cleaned_sublist t).trans (keptChars_sublist false t)).length_le

theorem notMem_cleaned (t : Bytes) : 13 ∉ cleaned t := by
  intro hin
  exact notMem_keptChars (fun q => by cases q <;> decide) false t ((cleaned_sublist t).subset hin)

/-! ### The operations of a round -/

namespace ParseState

/-- The attribute between the mark and the index can be taken in a buffer of the size. -/
def AttribOK (text : Bytes) (mark idx size : ℕ) : Prop :=
  CopyOK size (XmlParser.piece text mark idx) ∧
    ¬ EmptyValue (cleaned (XmlParser.piece text mark idx))

instance (text : Bytes) (mark idx size : ℕ) : Decidable (AttribOK text mark idx size) :=
  inferInstanceAs (Decidable (_ ∧ _))

variable {text : Bytes} (h0 : 0 ∉ text) (s : ParseState)
include h0

/-- The attribute that the input between the mark and the index holds. -/
theorem takeAttribute_eq (hmark : s.iAttribMarkStart ≤ s.idx) (hidx : s.idx < text.length)
    (hint : (s.idx+1 : ℤ) ≤ intMax) (hs : s.xml.SplitOK) {e : XmlElement}
    (he : s.pElement = some e) :
    if AttribOK text s.iAttribMarkStart s.idx s.xml.pWorkingBuffer.length then
      ∃ xml', s.takeAttribute (text ++ [0]) = .ok { s with
          xml := xml'
          pElement := some (e.withAttributes
            (attributeOf (cleaned (XmlParser.piece text s.iAttribMarkStart s.idx)))) } ∧
        xml'.pWorkingBuffer.length = s.xml.pWorkingBuffer.length ∧
        xml'.xmlElements = s.xml.xmlElements ∧ xml'.SplitOK
    else s.takeAttribute (text ++ [0]) = .error .undefined := by
  have hcopy := s.xml.copyInput_eq h0 hmark hidx
  have hattr : AttribOK text s.iAttribMarkStart s.idx s.xml.pWorkingBuffer.length ↔
      CopyOK s.xml.pWorkingBuffer.length (XmlParser.piece text s.iAttribMarkStart s.idx) ∧
        ¬ EmptyValue (cleaned (XmlParser.piece text s.iAttribMarkStart s.idx)) := Iff.rfl
  have hlen := XmlParser.length_piece hmark hidx
  unfold takeAttribute
  generalize XmlParser.piece text s.iAttribMarkStart s.idx = t at hcopy hattr hlen ⊢
  by_cases hroom : t.length < s.xml.pWorkingBuffer.length
  · rw [if_pos hroom] at hcopy
    obtain ⟨p, hcopied, hplen, hp⟩ := hcopy
    rw [hcopied, ok_bind]
    have hclean := cleanInput_eq hp
    rw [hplen] at hclean
    by_cases hkept : (keptChars false t).length+1 < s.xml.pWorkingBuffer.length
    · rw [if_pos hkept] at hclean
      obtain ⟨p', hcleaned, hplen', hp'⟩ := hclean
      rw [hcleaned, ok_bind, hp'.peek_zero, ok_bind]
      by_cases hnil : (cleaned t).headD 0 = 0
      · have hempty := nil_of_headD_eq_zero hp'.zero_notMem hnil
        rw [hempty] at hattr
        rw [if_pos hnil, hempty, if_pos (hattr.mpr ⟨⟨hroom, hkept⟩, by decide⟩),
          attributeOf_none (fun h => absurd h List.not_mem_nil), e.withAttributes_nil]
        refine ⟨{ s.xml with pWorkingBuffer := p' }, ?_, hplen', rfl, hs⟩
        rw [← he]
        rfl
      · rw [if_neg hnil, he]
        have hle := length_cleaned_le t
        have hsplit := XmlParser.splitParam_eq
          (show XmlParser.SplitOK { s.xml with pWorkingBuffer := p' } from hs) hp' (by omega)
          (notMem_cleaned t) e
        by_cases hvalue : EmptyValue (cleaned t)
        · rw [if_pos hvalue] at hsplit
          rw [if_neg fun h => (hattr.mp h).2 hvalue]
          dsimp only
          rw [hsplit]
          rfl
        · rw [if_neg hvalue] at hsplit
          obtain ⟨xml', hsplit, hwork, helems, hok⟩ := hsplit
          rw [if_pos (hattr.mpr ⟨⟨hroom, hkept⟩, hvalue⟩)]
          dsimp only
          rw [hsplit]
          exact ⟨xml', rfl, (congrArg List.length hwork).trans hplen', helems, hok⟩
    · rw [if_neg hkept] at hclean
      rw [hclean, if_neg fun h => hkept (hattr.mp h).1.2]
      rfl
  · rw [if_neg hroom] at hcopy
    rw [hcopy, if_neg fun h => hroom (hattr.mp h).1.1]
    rfl

omit h0

/-- The name of a tag from its cleaned text. -/
def tagName (hasShortTerminator : Bool) (t : Bytes) : Bytes :=
  if hasShortTerminator then (t.takeWhile (· ≠ 32)).takeWhile (· ≠ 47) else t.takeWhile (· ≠ 32)

theorem setName_eq {t : Bytes} (hp : TextBlock s.xml.pWorkingBuffer t)
    (hasShortTerminator : Bool) :
    ∃ p, s.setName hasShortTerminator = .ok { s with
        xml := { s.xml with pWorkingBuffer := p }
        pElement := s.pElement.map fun e =>
          { e with xmlTagName := some (tagName hasShortTerminator t) } } ∧
      p.length = s.xml.pWorkingBuffer.length := by
  obtain ⟨idx, inQoute, iTagMarkStart, iAttribMarkStart, iScanMarkStart, iState, iLastState,
    pElement, xml⟩ := s
  cases pElement with
  | none => exact ⟨xml.pWorkingBuffer, rfl, rfl⟩
  | some e =>
    obtain ⟨p, hspace, hplen, hp'⟩ := terminateAtChar_eq hp 32
    unfold setName
    dsimp only
    rw [hspace, ok_bind]
    cases hasShortTerminator with
    | false =>
      refine ⟨p, ?_, hplen⟩
      rw [if_neg (by simp), pure_eq_ok, ok_bind, hp'.cstr_eq]
      rfl
    | true =>
      obtain ⟨p', hslash, hplen', hp''⟩ := terminateAtChar_eq hp' 47
      refine ⟨p', ?_, hplen'.trans hplen⟩
      rw [if_pos rfl, hslash, ok_bind, hp''.cstr_eq]
      rfl

/-- The tag ends in a slash before its last byte. -/
def shortTag (t : Bytes) : Bool := (t.drop (t.length-2)).headD 0 = 47

/-- The element behind its tag. -/
def closeWith (t : Bytes) (attributes : List (Bytes × Bytes)) (e : XmlElement) : XmlElement :=
  { e with xmlTagName := some (tagName (shortTag t) (cleaned t)) }.withAttributes attributes

include h0

/-- What a tag gives to the element: its name, and the attribute behind the mark. -/
def closed (text : Bytes) (s : ParseState) (e : XmlElement) : XmlElement :=
  closeWith (XmlParser.piece text s.iTagMarkStart s.idx)
    (if s.iAttribMarkStart = 0 then []
      else attributeOf (cleaned (XmlParser.piece text s.iAttribMarkStart s.idx))) e

/-- The end of a tag can be dealt with in a buffer of the size. -/
def CloseOK (text : Bytes) (s : ParseState) (size : ℕ) : Prop :=
  s.iTagMarkStart ≠ s.idx ∧ CopyOK size (XmlParser.piece text s.iTagMarkStart s.idx) ∧
    (s.iAttribMarkStart ≠ 0 → AttribOK text s.iAttribMarkStart s.idx size)

instance (text : Bytes) (s : ParseState) (size : ℕ) : Decidable (CloseOK text s size) :=
  inferInstanceAs (Decidable (_ ∧ _ ∧ (_ → _)))

theorem lastAttribute_eq (hmark : s.iAttribMarkStart ≤ s.idx) (hidx : s.idx < text.length)
    (hint : (s.idx+1 : ℤ) ≤ intMax) (hs : s.xml.SplitOK)
    (he : s.iAttribMarkStart ≠ 0 → s.pElement.isSome) :
    if s.iAttribMarkStart ≠ 0 → AttribOK text s.iAttribMarkStart s.idx s.xml.pWorkingBuffer.length then
      ∃ xml', s.lastAttribute (text ++ [0]) = .ok { s with
          xml := xml'
          iAttribMarkStart := 0
          pElement := s.pElement.map fun e => e.withAttributes
            (if s.iAttribMarkStart = 0 then []
              else attributeOf (cleaned (XmlParser.piece text s.iAttribMarkStart s.idx))) } ∧
        xml'.pWorkingBuffer.length = s.xml.pWorkingBuffer.length ∧
        xml'.xmlElements = s.xml.xmlElements ∧ xml'.SplitOK
    else s.lastAttribute (text ++ [0]) = .error .undefined := by
  unfold lastAttribute
  by_cases hzero : s.iAttribMarkStart = 0
  · rw [if_pos fun h => absurd hzero h, if_neg (not_not.mpr hzero), if_pos hzero]
    refine ⟨s.xml, ?_, rfl, rfl, hs⟩
    obtain ⟨idx, inQoute, iTagMarkStart, iAttribMarkStart, iScanMarkStart, iState, iLastState,
      pElement, xml⟩ := s
    obtain rfl : iAttribMarkStart = 0 := hzero
    cases pElement with
    | none => rfl
    | some e => rw [Option.map_some, e.withAttributes_nil]; rfl
  · obtain ⟨e, he⟩ := Option.isSome_iff_exists.mp (he hzero)
    have htake := s.takeAttribute_eq h0 hmark hidx hint hs he
    rw [if_pos hzero, if_neg hzero]
    by_cases hok : AttribOK text s.iAttribMarkStart s.idx s.xml.pWorkingBuffer.length
    · rw [if_pos hok] at htake
      obtain ⟨xml', htake, hwork, helems, hsplit⟩ := htake
      rw [if_pos fun _ => hok, htake, he]
      exact ⟨xml', rfl, hwork, helems, hsplit⟩
    · rw [if_neg hok] at htake
      rw [if_neg fun h => hok (h hzero), htake]
      rfl

/-- The end of a tag for which there is room. -/
theorem closeTag_eq (htag : s.iTagMarkStart ≤ s.idx) (hmark : s.iAttribMarkStart ≤ s.idx)
    (hidx : s.idx < text.length) (hint : (s.idx+1 : ℤ) ≤ intMax) (hs : s.xml.SplitOK)
    (he : s.iAttribMarkStart ≠ 0 → s.pElement.isSome) {p : Bytes}
    (hcheck : s.xml.checkWorkingBuffer (s.idx-s.iTagMarkStart+1) =
      .ok (some { s.xml with pWorkingBuffer := p })) :
    if CloseOK text s p.length then
      ∃ xml', s.closeTag (text ++ [0]) = .ok (.next { s with
          xml := xml'
          pElement :=
            if shortTag (XmlParser.piece text s.iTagMarkStart s.idx) then
              s.pElement.map fun _ => { xmlTagName := some (bytes "/>") }
            else s.pElement.map (s.closed text)
          iTagMarkStart := 0
          iAttribMarkStart := 0
          iScanMarkStart := s.idx+1
          iState := .tagScan
          iLastState := s.iState
          idx := s.idx+1 }) ∧
        xml'.pWorkingBuffer.length = p.length ∧ xml'.SplitOK ∧
        xml'.xmlElements = s.xml.xmlElements ++
          (if shortTag (XmlParser.piece text s.iTagMarkStart s.idx) then
            (s.pElement.map (s.closed text)).toList else [])
    else s.closeTag (text ++ [0]) = .error .undefined := by
  have hlen := XmlParser.length_piece htag hidx
  have hcopy := XmlParser.copyInput_eq { s.xml with pWorkingBuffer := p } h0 htag hidx
  unfold closeTag
  rw [hcheck, ok_bind]
  dsimp only at hcopy ⊢
  have hclose : CloseOK text s p.length ↔ s.iTagMarkStart ≠ s.idx ∧
      CopyOK p.length (XmlParser.piece text s.iTagMarkStart s.idx) ∧
        (s.iAttribMarkStart ≠ 0 → AttribOK text s.iAttribMarkStart s.idx p.length) := Iff.rfl
  unfold closed
  generalize XmlParser.piece text s.iTagMarkStart s.idx = t at hlen hcopy hclose ⊢
  by_cases hroom : t.length < p.length
  · rw [if_pos hroom] at hcopy
    obtain ⟨p₁, hcopied, hlen₁, hp₁⟩ := hcopy
    rw [hcopied, ok_bind, hp₁.strlen_eq, ok_bind]
    by_cases hone : s.iTagMarkStart = s.idx
    · -- one byte was copied, and the one before it is read
      rw [if_neg fun h => (hclose.mp h).1 hone, peek_neg (by omega)]
      rfl
    · have hpeek : peek p₁ ((t.length : ℤ)-2) = .ok ((t.drop (t.length-2)).headD 0) := by
        have hint : (t.length : ℤ)-2 = (t.length-2 : ℕ) := by omega
        rw [hint, hp₁.peek_eq (by omega)]
      rw [hpeek, ok_bind]
      have hclean := cleanInput_eq hp₁
      rw [hlen₁] at hclean
      by_cases hkept : (keptChars false t).length+1 < p.length
      · rw [if_pos hkept] at hclean
        obtain ⟨p₂, hcleaned, hlen₂, hp₂⟩ := hclean
        rw [hcleaned, ok_bind]
        obtain ⟨p₃, hname, hlen₃⟩ := setName_eq
          { s with xml := { s.xml with pWorkingBuffer := p₂ } } hp₂ (shortTag t)
        have hlast := lastAttribute_eq h0 { s with
          xml := { s.xml with pWorkingBuffer := p₃ }
          pElement := s.pElement.map fun e =>
            { e with xmlTagName := some (tagName (shortTag t) (cleaned t)) } } hmark hidx hint hs
          fun h => by rw [Option.isSome_map]; exact he h
        have hsize : p₃.length = p.length := hlen₃.trans hlen₂
        rw [show decide ((t.drop (t.length-2)).headD 0 = 47) = shortTag t from rfl, hname, ok_bind]
        dsimp only at hlast ⊢
        rw [hsize] at hlast
        by_cases hattr : s.iAttribMarkStart ≠ 0 → AttribOK text s.iAttribMarkStart s.idx p.length
        · rw [if_pos hattr] at hlast
          obtain ⟨xml', hlast, hwork, helems, hsplit⟩ := hlast
          rw [if_pos (hclose.mpr ⟨hone, ⟨hroom, hkept⟩, hattr⟩), hlast, ok_bind]
          dsimp only
          rw [Option.map_map]
          have hclosed : (fun e : XmlElement => e.withAttributes (if s.iAttribMarkStart = 0 then []
              else attributeOf (cleaned (XmlParser.piece text s.iAttribMarkStart s.idx)))) ∘
              (fun e => { e with xmlTagName := some (tagName (shortTag t) (cleaned t)) }) =
              closeWith t (if s.iAttribMarkStart = 0 then []
                else attributeOf (cleaned (XmlParser.piece text s.iAttribMarkStart s.idx))) := rfl
          rw [hclosed]
          generalize closeWith t _ = f
          cases hshort : shortTag t with
          | false =>
            have hch : ¬ (t.drop (t.length-2)).headD 0 = 47 := by
              unfold shortTag at hshort
              simpa using hshort
            rw [if_neg fun h => hch h.2]
            exact ⟨xml', rfl, hwork, hsplit, by
              rw [if_neg (by simp), List.append_nil]; exact helems⟩
          | true =>
            have hch : (t.drop (t.length-2)).headD 0 = 47 := of_decide_eq_true hshort
            cases hpe : s.pElement with
            | none =>
              rw [Option.map_none, if_neg fun h => by cases h.1]
              refine ⟨xml', rfl, hwork, hsplit, ?_⟩
              rw [if_pos rfl, helems]
              exact (List.append_nil _).symm
            | some e =>
              rw [Option.map_some, if_pos ⟨rfl, hch⟩]
              refine ⟨{ xml' with xmlElements := xml'.xmlElements ++ [f e] }, rfl, hwork, hsplit,
                ?_⟩
              rw [if_pos rfl, ← helems]
              rfl
        · rw [if_neg hattr] at hlast
          rw [hlast, if_neg fun h => hattr (hclose.mp h).2.2]
          rfl
      · rw [if_neg hkept] at hclean
        rw [hclean, if_neg fun h => hkept (hclose.mp h).2.1.2]
        rfl
  · rw [if_neg hroom] at hcopy
    rw [hcopy, if_neg fun h => hroom (hclose.mp h).2.1.1]
    rfl

omit h0

/-- A text that is scanned between two tags, as a value. -/
def trimmed (t : Bytes) : Bytes := trimmedEnd isWhite (t.dropWhile isWhite)

theorem length_trimmed_le (t : Bytes) : (trimmed t).length ≤ t.length :=
  ((trimmedEnd_sublist _ _).trans (List.dropWhile_sublist _)).length_le

/-- The text of `n` bytes at the start of the working buffer becomes the value. -/
theorem setValue_eq (hint : (s.idx+1 : ℤ) ≤ intMax) {p : Bytes}
    (hroom : s.idx-s.iScanMarkStart < p.length)
    (hcheck : s.xml.checkWorkingBuffer (s.idx-s.iScanMarkStart+1) =
      .ok (some { s.xml with pWorkingBuffer := p })) :
    ∃ p', p'.length = p.length ∧ s.setValue = .ok (some { s with
      xml := { s.xml with pWorkingBuffer := p' }
      pElement := s.pElement.map fun e =>
        e.withValue (trimmed (cstr (p.take (s.idx-s.iScanMarkStart)))) }) := by
  obtain ⟨p₁, hpoke, hlen₁, hp₁⟩ := TextBlock.of_poke hroom
  obtain ⟨p₂, hfront, hlen₂, hp₂⟩ := stripFront_eq isWhite hp₁
  obtain ⟨p₃, hback, hlen₃, hp₃⟩ := stripBack_eq isWhite hp₂
  change TextBlock p₃ (trimmed _) at hp₃
  have hlen : p₃.length = p.length := (hlen₃.trans hlen₂).trans hlen₁
  have hmax : ((trimmed (cstr (p.take (s.idx-s.iScanMarkStart)))).length : ℤ) ≤ intMax := by
    have htrimmed := length_trimmed_le (cstr (p.take (s.idx-s.iScanMarkStart)))
    have htext := length_cstr_le (p.take (s.idx-s.iScanMarkStart))
    rw [List.length_take] at htext
    omega
  unfold setValue
  rw [hcheck, ok_bind]
  dsimp only
  rw [hpoke, ok_bind, stripLeading, hfront, ok_bind, stripTrailing, hback, ok_bind, hp₃.peek_zero,
    ok_bind]
  generalize trimmed (cstr (p.take (s.idx-s.iScanMarkStart))) = v at hp₃ hmax ⊢
  cases hpe : s.pElement with
  | none => exact ⟨p₃, hlen, rfl⟩
  | some e =>
    dsimp only
    rw [Option.map_some]
    unfold XmlElement.withValue
    by_cases hnil : v = []
    · subst hnil
      rw [if_pos (show ([] : Bytes) = [] from rfl), ← hpe]
      exact ⟨p₃, hlen, rfl⟩
    · have hhead : v.headD 0 ≠ 0 := fun h => hnil (nil_of_headD_eq_zero hp₃.zero_notMem h)
      obtain ⟨p₄, hdecode, hlen₄, hp₄⟩ := transformXMLEntities_eq hp₃ hmax
      rw [if_neg hhead, if_neg hnil, hdecode, ok_bind, hp₄.cstr_eq]
      exact ⟨p₄, hlen₄.trans hlen, rfl⟩

/-! ### The input -/

theorem strstrAt_text {text : Bytes} (h0 : 0 ∉ text) {i : ℕ} (hi : i ≤ text.length) (pat : Bytes) :
    strstrAt (text ++ [0]) i pat = .ok (firstOcc pat (text.drop i)) := by
  have hblock : TextBlock ((text ++ [0]).drop i) (text.drop i) :=
    (TextBlock.mk text [] h0).drop hi
  have hstr := hblock.strstrAt_append (w := (text ++ [0]).take i) pat
  have hlen : ((text ++ [0]).take i).length = i := by
    rw [List.length_take, List.length_append]
    omega
  rwa [List.take_append_drop, hlen] at hstr

theorem strstrAt_fail {text : Bytes} {i : ℕ} (hi : text.length < i) (pat : Bytes) :
    strstrAt (text ++ [0]) i pat = .error .undefined := by
  have hnil : (text ++ [0]).drop i = [] := by
    rw [List.drop_eq_nil_iff, List.length_append, List.length_singleton]
    omega
  unfold strstrAt
  rw [hnil]
  rfl

/-- No terminator is part of a pattern. -/
theorem prefix_drop_iff (text : Bytes) {pat : Bytes} (hpat : 0 ∉ pat) {i : ℕ}
    (hi : i ≤ text.length) :
    pat <+: (text ++ [0]).drop i ↔ pat <+: text.drop i := by
  rw [List.drop_append_of_le_length hi, List.prefix_concat_iff]
  constructor
  · intro h
    rcases h with rfl | h
    · exact absurd (by simp) hpat
    · exact h
  · exact Or.inr

/-- The end of a section is behind the eight bytes that are compared. -/
theorem marker_ge {u : Bytes} {k : ℕ} (hstart : bytes "<![CDATA" <+: u)
    (hk : firstOcc (bytes "]]>") u = some k) : 8 ≤ k := by
  by_contra hlt
  obtain ⟨r, rfl⟩ := hstart
  obtain ⟨r', hmatch⟩ := ((firstOcc_eq_some_iff (by decide)).mp hk).1
  have hhead := congrArg List.head? hmatch
  rw [List.head?_drop, List.getElem?_append_left (show k < (bytes "<![CDATA").length by
    rw [show (bytes "<![CDATA").length = 8 from rfl]; omega)] at hhead
  have hne : ∀ j < 8, (bytes "<![CDATA")[j]? ≠ some 93 := by decide
  exact hne k (by omega) hhead.symm

/-- A section needs two bytes behind its end. -/
theorem takeCDATA_eq {text : Bytes} (h0 : 0 ∉ text) (s : ParseState) (e : XmlElement) {k : ℕ}
    (hstart : bytes "<![CDATA" <+: text.drop s.idx)
    (hk : firstOcc (bytes "]]>") (text.drop s.idx) = some k) :
    if s.idx+k+5 ≤ text.length then
      ∃ block, s.takeCDATA (text ++ [0]) e k = .ok (.next { s with
          iState := .tagBegin
          idx := s.idx+k+5+(firstOcc [60] (text.drop (s.idx+k+5))).getD 0
          pElement := some { e with xmlCDATA := some block } }) ∧
        (9 ≤ k → block = (text.drop (s.idx+9)).take (k-9))
    else s.takeCDATA (text ++ [0]) e k = .error .undefined := by
  have hge := marker_ge hstart hk
  have hle := firstOcc_le _ hk
  rw [show (bytes "]]>").length = 3 from rfl, List.length_drop] at hle
  have hblock : TextBlock ((text ++ [0]).drop (s.idx+9)) (text.drop (s.idx+9)) :=
    (TextBlock.mk text [] h0).drop (by omega)
  have hlength : (text ++ [0]).length = text.length+1 := by simp
  -- the section itself lies in the input, also when its length comes out as -1
  obtain ⟨n, block, hn, hfetch, hcontent⟩ : ∃ (n : ℤ) (block : Bytes),
      lengthArg ((text ++ [0]).drop (s.idx+9)) ((k : ℤ)-1-8) = .ok n ∧
        fetch (text ++ [0]) (s.idx+9 : ℕ) n = .ok block ∧
          (9 ≤ k → block = (text.drop (s.idx+9)).take (k-9)) := by
    by_cases hnine : 9 ≤ k
    · have hsize : (k : ℤ)-1-8 = (k-9 : ℕ) := by omega
      refine ⟨(k-9 : ℕ), ((text ++ [0]).drop (s.idx+9)).take (k-9), ?_, ?_, fun _ => ?_⟩
      · unfold lengthArg
        rw [hsize, if_neg (by omega)]
        rfl
      · exact fetch_ok (by omega)
      · rw [List.drop_append_of_le_length (by omega),
          List.take_append_of_le_length (by rw [List.length_drop]; omega)]
    · have hsize : (k : ℤ)-1-8 = -1 := by omega
      refine ⟨(text.drop (s.idx+9)).length,
        ((text ++ [0]).drop (s.idx+9)).take (text.drop (s.idx+9)).length, ?_, ?_,
        fun h => absurd h hnine⟩
      · unfold lengthArg
        rw [hsize, if_pos rfl]
        exact hblock.strlen_eq
      · exact fetch_ok (by rw [List.length_drop]; omega)
  have hidx : ((s.idx : ℤ)+((k : ℤ)-1-8+9+3+2)).toNat = s.idx+k+5 := by omega
  unfold takeCDATA
  dsimp only
  rw [hn, ok_bind, hfetch, ok_bind, hidx]
  split_ifs with hfit
  · rw [strstrAt_text h0 hfit]
    exact ⟨block, rfl, hcontent⟩
  · rw [strstrAt_fail (by omega)]
    rfl

end ParseState

end MsgCourier
