import MsgCourier.XmlRounds

/-! What `Parse` reads off a document: its state machine without the buffers and the indices. -/
namespace MsgCourier
open ListSearch CText

/-! ### The scanner -/

/-- `scanned` is the text since the last tag, as long as no comment has dropped it. Behind a section
everything is skipped up to the next `<`. -/
inductive ScanMode
  | text (scanned : Option Bytes)
  | tag
  | skip
  deriving DecidableEq, Repr

/-- The text that becomes a value when a tag opens. -/
def ScanMode.value : ScanMode → Bytes
  | .text (some t) => t
  | _ => []

/-- `seen` is the input so far, `tag` and `attrib` are its ends from the marks on. A mark of 0 is
none. -/
structure Scanner where
  seen : Bytes := []
  mode : ScanMode := .text none
  inQoute : Bool := false
  tag : Option Bytes := none
  attrib : Option Bytes := none
  elements : List XmlElement := []
  pElement : Option XmlElement := none
  deriving DecidableEq

namespace Scanner

def finish (a : Scanner) : List XmlElement := a.elements ++ a.pElement.toList

def pass (a : Scanner) (u : Bytes) : Scanner :=
  { a with
    seen := a.seen ++ u
    tag := a.tag.map (· ++ u)
    attrib := a.attrib.map (· ++ u) }

def comment (a : Scanner) (u : Bytes) : Scanner := { a.pass u with mode := .text none }

def cdata (a : Scanner) (u block : Bytes) : Scanner :=
  { a.pass u with
    mode := .skip
    pElement := a.pElement.map fun e => { e with xmlCDATA := some block } }

def openTag (a : Scanner) : Scanner :=
  { a.pass [60] with
    mode := .tag
    tag := some [60]
    elements := a.elements ++ (a.pElement.map (·.withValue (ParseState.trimmed a.mode.value))).toList
    pElement := some {} }

/-- Without a mark the tag is the whole input so far. -/
def closeTag (a : Scanner) : Scanner :=
  let t := a.tag.getD a.seen ++ [62]
  let l := (a.attrib.map fun u => attributeOf (cleaned (u ++ [62]))).getD []
  let closed := a.pElement.map (ParseState.closeWith t l)
  { a.pass [62] with
    mode := .text (some [])
    tag := none
    attrib := none
    elements := a.elements ++ (if ParseState.shortTag t then closed.toList else [])
    pElement :=
      if ParseState.shortTag t then closed.map fun _ => { xmlTagName := some (bytes "/>") }
      else closed }

/-- The same holds of an attribute that a tab ends. -/
def separator (a : Scanner) (ch : Byte) : Scanner :=
  { a.pass [ch] with
    attrib := some [ch]
    pElement := a.pElement.map
      (·.withAttributes (attributeOf (cleaned (a.attrib.getD a.seen ++ [ch])))) }

def inTag (a : Scanner) (ch : Byte) : Scanner :=
  if ch = 34 then { a.pass [ch] with inQoute := ! a.inQoute }
  else if ch = 32 ∧ a.attrib = none then { a.pass [ch] with attrib := some [ch] }
  else if (ch = 32 ∨ ch = 9) ∧ a.inQoute = false then a.separator ch
  else a.pass [ch]

/-- A byte other than `<`. -/
def byte (a : Scanner) (ch : Byte) : Scanner :=
  match a.mode with
  | .skip => a.pass [ch]
  | .tag => if ch = 62 then a.closeTag else a.inTag ch
  | .text scanned =>
    if ch = 62 then a.closeTag
    else { a.pass [ch] with mode := .text (scanned.map (· ++ [ch])) }

/-- At a `<`. Comments and sections need their ends, and a section a tag behind the two bytes that
are skipped with it. -/
def markup (a : Scanner) (rest : Bytes) : Option (Scanner × Bytes) :=
  if bytes "<!--" <+: rest then
    (firstOcc (bytes "-->") rest).map fun k => (a.comment (rest.take (k+3)), rest.drop (k+3))
  else if bytes "<![CDATA" <+: rest then
    (firstOcc (bytes "]]>") rest).bind fun k =>
      if a.pElement.isSome ∧ 9 ≤ k ∧ 60 ∈ rest.drop (k+5) then
        some (a.cdata (rest.take (k+5)) ((rest.drop 9).take (k-9)), rest.drop (k+5))
      else none
  else some (a.openTag, rest.tail)

def step (a : Scanner) : Bytes → Option (Scanner × Bytes)
  | [] => none
  | ch :: rest => if ch = 60 then a.markup (ch :: rest) else some (a.byte ch, rest)

/-- The scanner gets from a place in the input to another one. -/
def Reads : Scanner × Bytes → Scanner × Bytes → Prop :=
  Relation.ReflTransGen fun c d => c.1.step c.2 = some d

theorem Reads.total {c d d' : Scanner × Bytes} (h : Reads c d) (h' : Reads c d') :
    Reads d d' ∨ Reads d' d :=
  Relation.ReflTransGen.total_of_right_unique
    (fun _ _ _ h h' => Option.some.inj (h.symm.trans h')) h h'

/-- The place after `n` steps. -/
def readFor : ℕ → Scanner × Bytes → Scanner × Bytes
  | 0, c => c
  | n+1, c => ((c.1.step c.2).map (readFor n)).getD c

theorem reads_readFor (n : ℕ) (c : Scanner × Bytes) : Reads c (readFor n c) := by
  induction n generalizing c with
  | zero => exact .refl
  | succ n ih =>
    unfold readFor
    cases hstep : c.1.step c.2 with
    | none => exact .refl
    | some d => exact (ih d).head hstep

/-- Nothing is read behind the end. -/
theorem Reads.end_eq {a : Scanner} {d : Scanner × Bytes} (h : Reads (a, []) d) : d = (a, []) := by
  cases h.cases_head with
  | inl heq => exact heq.symm
  | inr hnext =>
    obtain ⟨c, hc, -⟩ := hnext
    cases hc

/-- A place on the way to the end is the end, or the scanner goes on there. -/
theorem Reads.to_end {a b : Scanner} {c : Scanner × Bytes} (hend : Reads c (b, []))
    {rest : Bytes} (h : Reads c (a, rest)) : Reads (a, rest) (b, []) := by
  rcases h.total hend with hto | hback
  · exact hto
  · rw [hback.end_eq]
    exact .refl

theorem Reads.goes_on {a b : Scanner} {rest : Bytes} (h : Reads (a, rest) (b, []))
    (hrest : rest ≠ []) : ∃ d, a.step rest = some d := by
  cases h.cases_head with
  | inl heq =>
    cases heq
    exact absurd rfl hrest
  | inr hnext =>
    obtain ⟨d, hd, -⟩ := hnext
    exact ⟨d, hd⟩

section
variable {a : Scanner} {ch : Byte}

theorem byte_skip (hmode : a.mode = .skip) (ch : Byte) : a.byte ch = a.pass [ch] := by
  unfold byte
  rw [hmode]

theorem byte_close (hmode : a.mode ≠ .skip) : a.byte 62 = a.closeTag := by
  unfold byte
  cases h : a.mode with
  | text scanned => exact if_pos rfl
  | tag => exact if_pos rfl
  | skip => exact absurd h hmode

theorem byte_tag (hmode : a.mode = .tag) (hgt : ch ≠ 62) : a.byte ch = a.inTag ch := by
  unfold byte
  rw [hmode]
  exact if_neg hgt

theorem byte_text {scanned : Option Bytes} (hmode : a.mode = .text scanned) (hgt : ch ≠ 62) :
    a.byte ch = { a.pass [ch] with mode := .text (scanned.map (· ++ [ch])) } := by
  unfold byte
  rw [hmode]
  exact if_neg hgt

end

theorem pass_pass (a : Scanner) (u v : Bytes) : (a.pass u).pass v = a.pass (u ++ v) := by
  unfold pass
  simp [Function.comp_def]

theorem cdata_pass (a : Scanner) (u v block : Bytes) :
    (a.cdata u block).pass v = a.cdata (u ++ v) block := by
  unfold cdata
  rw [← pass_pass]
  rfl

/-- Behind a section the scanner moves up to the next `<`. -/
theorem reads_skip {a : Scanner} (hmode : a.mode = .skip) {u : Bytes} (hu : 60 ∉ u) (rest : Bytes) :
    Reads (a, u ++ rest) (a.pass u, rest) := by
  induction u generalizing a with
  | nil =>
    have hsame : a.pass [] = a := by
      unfold pass
      simp
    rw [hsame]
    exact .refl
  | cons ch u ih =>
    have hch : ch ≠ 60 := fun h => hu (h ▸ List.mem_cons_self)
    have hstep : a.step (ch :: u ++ rest) = some (a.pass [ch], u ++ rest) := by
      unfold step
      rw [List.cons_append]
      dsimp only
      rw [if_neg hch, byte_skip hmode]
    have hrest := ih (a := a.pass [ch]) hmode fun h => hu (List.mem_cons_of_mem ch h)
    rw [pass_pass] at hrest
    exact hrest.head hstep

end Scanner

/-! ### The parser follows the scanner -/

namespace ParseState

variable {text rest : Bytes} {s t : ParseState} {a : Scanner}

/-- What the state and the working buffer say about the mode. The parser passes over the bytes
behind a section in one round. -/
def InMode (s : ParseState) (rest : Bytes) : ScanMode → Prop
  | .text none => s.iState = .tagScan ∧ (s.iScanMarkStart = 0 ∨
      s.iScanMarkStart < s.idx ∧ [0] <+: s.xml.pWorkingBuffer)
  | .text (some t) => s.iState = .tagScan ∧ 0 < s.iScanMarkStart ∧ 0 ∉ t ∧
      s.iScanMarkStart+t.length = s.idx ∧ t <+: s.xml.pWorkingBuffer
  | .tag => s.iState = .tagProcess ∧ 0 < s.idx
  | .skip => s.iState = .tagBegin ∧ rest.head? = some 60

/-- The state in front of the rest of the input is the one of the scanner. -/
structure Tracks (text : Bytes) (s : ParseState) (a : Scanner) (rest : Bytes) : Prop where
  inv : s.Inv text
  input : a.seen ++ rest = text
  idx : s.idx = a.seen.length
  inQoute : s.inQoute = a.inQoute
  tag : a.seen.drop s.iTagMarkStart = a.tag.getD a.seen
  attrib : a.seen.drop s.iAttribMarkStart = a.attrib.getD a.seen
  unmarked : s.iAttribMarkStart = 0 ↔ a.attrib = none
  elements : s.xml.xmlElements = a.elements
  pElement : s.pElement = a.pElement
  mode : s.InMode rest a.mode

theorem Tracks.drop_eq (h : s.Tracks text a rest) : text.drop s.idx = rest := by
  rw [← h.input, h.idx, List.drop_left]

/-- What a mark holds grows with the input. -/
theorem drop_pass {seen : Bytes} {mark : ℕ} (hmark : mark ≤ seen.length) {o : Option Bytes}
    (h : seen.drop mark = o.getD seen) (u : Bytes) :
    (seen ++ u).drop mark = (o.map (· ++ u)).getD (seen ++ u) := by
  rw [List.drop_append_of_le_length hmark, h]
  cases o with
  | none => rfl
  | some t => rfl

theorem piece_append (seen r : Bytes) (ch : Byte) {mark : ℕ} (hmark : mark ≤ seen.length) :
    XmlParser.piece (seen ++ ch :: r) mark seen.length = seen.drop mark ++ [ch] := by
  have hlen : (seen.drop mark ++ [ch]).length = seen.length-mark+1 := by
    rw [List.length_append, List.length_drop, List.length_singleton]
  unfold XmlParser.piece
  rw [List.drop_append_of_le_length hmark, ← hlen,
    show seen.drop mark ++ ch :: r = (seen.drop mark ++ [ch]) ++ r by
    rw [List.append_assoc, List.singleton_append], List.take_left]

/-- The index moves over bytes that stay behind the marks. -/
theorem Tracks.moved {u : Bytes} (h : s.Tracks text a (u ++ rest)) (hinv : t.Inv text)
    (hidx : t.idx = s.idx+u.length) (htag : t.iTagMarkStart = s.iTagMarkStart)
    (hattr : t.iAttribMarkStart = s.iAttribMarkStart)
    (hxml : t.xml.xmlElements = s.xml.xmlElements) {q : Bool} (hq : t.inQoute = q)
    {e : Option XmlElement} (he : t.pElement = e) {mode : ScanMode} (hmode : t.InMode rest mode) :
    t.Tracks text { a.pass u with mode := mode, inQoute := q, pElement := e } rest where
  inv := hinv
  input := by
    dsimp only [Scanner.pass]
    rw [List.append_assoc]
    exact h.input
  idx := by
    dsimp only [Scanner.pass]
    rw [hidx, h.idx, List.length_append]
  inQoute := hq
  tag := by
    rw [htag]
    exact drop_pass (h.idx ▸ h.inv.tagMark) h.tag u
  attrib := by
    rw [hattr]
    exact drop_pass (h.idx ▸ h.inv.attribMark) h.attrib u
  unmarked := by
    rw [hattr, h.unmarked]
    exact Option.map_eq_none_iff.symm
  elements := hxml.trans h.elements
  pElement := he
  mode := hmode

/-- A block without a text starts with a terminator. -/
theorem prefix_of_cstr_nil {p : Bytes} (h : cstr p = []) (hne : p ≠ []) : [0] <+: p := by
  cases p with
  | nil => exact absurd rfl hne
  | cons c p =>
    by_cases hc : c = 0
    · rw [hc]
      exact ⟨p, rfl⟩
    · unfold cstr at h
      rw [List.takeWhile_cons_of_pos (by simpa using hc)] at h
      cases h

theorem Tracks.comment (h0 : 0 ∉ text) (h : s.Tracks text a rest) (hnext : Next text s t)
    {k : ℕ} (hk : s.comment text = some k) :
    t.Tracks text (a.comment (rest.take (k+3))) (rest.drop (k+3)) := by
  have hinv := (h.inv.next h0 hnext).1
  have hdrop := h.drop_eq
  obtain ⟨hstart, hfound⟩ : bytes "<!--" <+: rest ∧ firstOcc (bytes "-->") rest = some k := by
    unfold ParseState.comment at hk
    rw [hdrop] at hk
    split_ifs at hk with hstart
    exact ⟨hstart, hk⟩
  have hle : k+3 ≤ rest.length := firstOcc_le _ hfound
  have hlen : (rest.take (k+3)).length = k+3 := List.length_take_of_le hle
  obtain ⟨ch, r, hr⟩ := List.exists_cons_of_ne_nil
    (show rest ≠ [] by rintro rfl; exact absurd hle (by simp))
  obtain ⟨p, hp, hplen, hcstr⟩ := s.xml.dropText_eq
  unfold Next at hnext
  rw [step_cons h0 (hdrop.trans hr), hk] at hnext
  dsimp only at hnext
  split_ifs at hnext
  unfold skipComment at hnext
  rw [hp] at hnext
  cases hnext
  rw [← List.take_append_drop (k+3) rest] at h
  have hmode : InMode { s with
      idx := s.idx+(k+3), iState := .tagScan, xml := { s.xml with pWorkingBuffer := p } }
      (rest.drop (k+3)) (.text none) := by
    refine ⟨rfl, ?_⟩
    rcases Nat.eq_zero_or_pos s.iScanMarkStart with hzero | hpos
    · exact .inl hzero
    · -- the first byte of the text is gone
      have hne : p ≠ [] := by
        intro hnil
        apply h.inv.scanned hpos
        rw [hnil, List.length_nil] at hplen
        exact List.length_eq_zero_iff.mp hplen.symm
      have hscan := h.inv.scanMark
      exact .inr ⟨by dsimp only; omega, prefix_of_cstr_nil hcstr hne⟩
  exact h.moved hinv (by rw [hlen]) rfl rfl rfl h.inQoute h.pElement hmode

/-- A byte of the text goes into the working buffer, which may have grown. -/
theorem tagScan_next {ch : Byte} (hint : (s.idx+1 : ℤ) ≤ intMax)
    (hstep : s.tagScan ch = .ok (.next t)) : ∃ p p', s.xml.pWorkingBuffer <+: p ∧
      t = { s with xml := { s.xml with pWorkingBuffer := p' }, idx := s.idx+1 } ∧
      p'.take (s.idx-s.iScanMarkStart+1) = p.take (s.idx-s.iScanMarkStart) ++ [ch] := by
  have hpoke {p : Bytes} (hp : s.xml.pWorkingBuffer <+: p)
      (hstep : (poke p (s.idx-s.iScanMarkStart) ch >>= fun p' => pure (ParseStep.next { s with
        xml := { s.xml with pWorkingBuffer := p' }, idx := s.idx+1 })) = .ok (.next t)) :
      ∃ p p', s.xml.pWorkingBuffer <+: p ∧
        t = { s with xml := { s.xml with pWorkingBuffer := p' }, idx := s.idx+1 } ∧
        p'.take (s.idx-s.iScanMarkStart+1) = p.take (s.idx-s.iScanMarkStart) ++ [ch] := by
    by_cases hlt : s.idx-s.iScanMarkStart < p.length
    · obtain ⟨p', hp', -, htake⟩ := poke_lt hlt ch
      rw [hp'] at hstep
      cases hstep
      exact ⟨p, p', hp, rfl, htake⟩
    · rw [poke_fail ch (not_lt.mp hlt)] at hstep
      cases hstep
  unfold tagScan at hstep
  split_ifs at hstep
  · rcases s.xml.checkWorkingBuffer_cases (n := s.idx-s.iScanMarkStart+1) (by omega) with
      ⟨-, hcheck⟩ | ⟨p, -, hp, hcheck⟩
    · rw [hcheck] at hstep
      cases hstep
    · rw [hcheck] at hstep
      exact hpoke hp hstep
  · exact hpoke List.prefix_rfl hstep

theorem zero_ne_of_drop (h0 : 0 ∉ text) {ch : Byte} (hdrop : text.drop s.idx = ch :: rest) :
    0 ≠ ch := by
  intro hch
  have hin : 0 ∈ text.drop s.idx := by
    rw [hdrop, hch]
    exact List.mem_cons_self
  exact h0 (List.mem_of_mem_drop hin)

/-- What stands in front of the byte is still there. -/
theorem append_prefix_of_take {v p p' : Bytes} {ch : Byte} (hv : v <+: p)
    (htake : p'.take (v.length+1) = p.take v.length ++ [ch]) : v ++ [ch] <+: p' := by
  rw [← List.prefix_iff_eq_take.mp hv] at htake
  rw [← htake]
  exact List.take_prefix _ p'

theorem Tracks.scan (h0 : 0 ∉ text) {ch : Byte} (h : s.Tracks text a (ch :: rest)) (hlt : ch ≠ 60)
    (hgt : ch ≠ 62) {scanned : Option Bytes} (hmode : a.mode = .text scanned)
    (hnext : Next text s t) : t.Tracks text (a.byte ch) rest := by
  have hinv := (h.inv.next h0 hnext).1
  have hin := h.mode
  rw [hmode] at hin
  have hstate : s.iState = .tagScan := by
    cases scanned with
    | none => exact hin.1
    | some v => exact hin.1
  have hscan := h.inv.scanMark
  have hne := zero_ne_of_drop h0 h.drop_eq
  unfold Next at hnext
  rw [step_cons h0 h.drop_eq, comment_none h.drop_eq hlt] at hnext
  dsimp only at hnext
  split_ifs at hnext with hint
  rw [markup_plain hlt hgt] at hnext
  unfold branch at hnext
  rw [hstate] at hnext
  obtain ⟨p, p', hp, rfl, htake⟩ := tagScan_next hint hnext
  rw [Scanner.byte_text hmode hgt]
  apply h.moved (u := [ch]) hinv rfl rfl rfl rfl h.inQoute h.pElement
  cases scanned with
  | none =>
    refine ⟨hstate, hin.2.imp id fun hlost => ⟨Nat.lt_succ_of_lt hlost.1, ?_⟩⟩
    -- the index is behind the first byte of the buffer
    have hhead : [0] <+: p.take (s.idx-s.iScanMarkStart) :=
      List.prefix_take_iff.mpr ⟨hlost.2.trans hp, by rw [List.length_singleton]; omega⟩
    have hlast := hhead.trans (List.prefix_append _ [ch])
    rw [← htake] at hlast
    exact hlast.trans (List.take_prefix _ p')
  | some v =>
    obtain ⟨-, hpos, hv, hlen, hpre⟩ := hin
    have hcount : s.idx-s.iScanMarkStart = v.length := by omega
    rw [hcount] at htake
    refine ⟨hstate, hpos, ?_, ?_, append_prefix_of_take (hpre.trans hp) htake⟩
    · rw [List.mem_append, List.mem_singleton]
      exact fun h => h.elim hv hne
    · rw [List.length_append, List.length_singleton, ← hlen]
      rfl

/-- A space or a tab becomes the start of an attribute. -/
theorem Tracks.marked {ch : Byte} (h : s.Tracks text a (ch :: rest)) (hpos : 0 < s.idx)
    (hinv : t.Inv text) (hidx : t.idx = s.idx+1) (htag : t.iTagMarkStart = s.iTagMarkStart)
    (hattr : t.iAttribMarkStart = s.idx) (hxml : t.xml.xmlElements = s.xml.xmlElements)
    (hq : t.inQoute = s.inQoute) {e : Option XmlElement} (he : t.pElement = e)
    (hmode : t.InMode rest a.mode) :
    t.Tracks text { a.pass [ch] with attrib := some [ch], pElement := e } rest where
  inv := hinv
  input := by
    dsimp only [Scanner.pass]
    rw [List.append_assoc]
    exact h.input
  idx := by
    dsimp only [Scanner.pass]
    rw [hidx, h.idx, List.length_append, List.length_singleton]
  inQoute := hq.trans h.inQoute
  tag := by
    rw [htag]
    exact drop_pass (h.idx ▸ h.inv.tagMark) h.tag [ch]
  attrib := by
    rw [hattr, h.idx]
    exact List.drop_left
  unmarked := by
    rw [hattr]
    exact iff_of_false hpos.ne' (Option.some_ne_none _)
  elements := hxml.trans h.elements
  pElement := he
  mode := hmode

theorem Tracks.inTag (h0 : 0 ∉ text) {ch : Byte} (h : s.Tracks text a (ch :: rest)) (hlt : ch ≠ 60)
    (hgt : ch ≠ 62) (hmode : a.mode = .tag) (hnext : Next text s t) :
    t.Tracks text (a.byte ch) rest := by
  have hinv := (h.inv.next h0 hnext).1
  obtain ⟨hstate, hpos⟩ : s.iState = .tagProcess ∧ 0 < s.idx := by
    have hin := h.mode
    rw [hmode] at hin
    exact hin
  have hin {u : ParseState} (hu : u.iState = .tagProcess) (hidx : 0 < u.idx) :
      u.InMode rest a.mode := by
    rw [hmode]
    exact ⟨hu, hidx⟩
  obtain ⟨e, he⟩ := Option.isSome_iff_exists.mp (h.inv.element (.inl hstate))
  have hstep := hnext
  unfold Next at hstep
  rw [step_tagProcess h0 h.drop_eq hlt hgt hstate] at hstep
  split_ifs at hstep
  unfold tagProcess at hstep
  rw [Scanner.byte_tag hmode hgt]
  unfold Scanner.inTag
  by_cases hquote : ch = 34
  · rw [if_pos hquote] at hstep ⊢
    subst hquote
    cases hstep
    have hturn : (! s.inQoute) = ! a.inQoute := by rw [h.inQoute]
    exact h.moved (u := [34]) hinv rfl rfl rfl rfl hturn h.pElement
      (hin hstate (Nat.succ_pos _))
  · rw [if_neg hquote] at hstep ⊢
    dsimp only at hstep
    by_cases hfirst : ch = 32 ∧ s.iAttribMarkStart = 0
    · rw [if_pos hfirst] at hstep
      rw [if_pos ⟨hfirst.1, h.unmarked.mp hfirst.2⟩]
      cases hstep
      exact h.marked hpos hinv rfl rfl rfl rfl rfl h.pElement (hin hstate (Nat.succ_pos _))
    · rw [if_neg hfirst] at hstep
      rw [if_neg fun hmark => hfirst ⟨hmark.1, h.unmarked.mpr hmark.2⟩]
      by_cases hsep : (ch = 32 ∨ ch = 9) ∧ s.inQoute = false
      · have hseparates : s.Separates ch := by
          refine ⟨?_, hsep.2⟩
          rcases hsep.1 with h32 | h9
          · exact .inl ⟨h32, fun hzero => hfirst ⟨h32, hzero⟩⟩
          · exact .inr h9
        rw [if_pos ⟨hsep.1, h.inQoute ▸ hsep.2⟩]
        rcases separator_round h0 h.inv h.drop_eq hstate hseparates he with
          ⟨xml', -, -, -, hxml, hround⟩ | ⟨hstuck, -⟩
        · cases hround.symm.trans hnext
          have hpiece : XmlParser.piece text s.iAttribMarkStart s.idx =
              a.attrib.getD a.seen ++ [ch] := by
            rw [← h.input, h.idx, piece_append _ _ _ (h.idx ▸ h.inv.attribMark), h.attrib]
          refine h.marked hpos hinv rfl rfl rfl hxml rfl ?_ (hin hstate (Nat.succ_pos _))
          rw [hpiece, ← h.pElement, he]
          rfl
        · exact absurd hnext (hstuck t)
      · rw [if_neg hsep] at hstep
        rw [if_neg fun hend => hsep ⟨hend.1, h.inQoute ▸ hend.2⟩]
        cases hstep
        exact h.moved (u := [ch]) hinv rfl rfl rfl rfl h.inQoute h.pElement
          (hin hstate (Nat.succ_pos _))

/-- The text in the buffer is the one the scanner has, or there is none. -/
theorem Tracks.scanned (h : s.Tracks text a rest) (hstate : s.iState = .tagScan)
    (hpos : 0 < s.iScanMarkStart) (hlt : s.iScanMarkStart < s.idx) {p : Bytes}
    (hp : s.xml.pWorkingBuffer <+: p) :
    cstr (p.take (s.idx-s.iScanMarkStart)) = a.mode.value := by
  have hin := h.mode
  cases hmode : a.mode with
  | text scanned =>
    rw [hmode] at hin
    cases scanned with
    | none =>
      rcases hin.2 with hzero | hlost
      · omega
      · have hhead : [0] <+: p.take (s.idx-s.iScanMarkStart) :=
          List.prefix_take_iff.mpr ⟨hlost.2.trans hp, by rw [List.length_singleton]; omega⟩
        obtain ⟨r, hr⟩ := hhead
        rw [← hr]
        exact cstr_append_zero [] r
    | some v =>
      obtain ⟨-, -, hv, hlen, hpre⟩ := hin
      have hcount : s.idx-s.iScanMarkStart = v.length := by omega
      rw [hcount, ← List.prefix_iff_eq_take.mp (hpre.trans hp)]
      exact cstr_eq_self hv
  | tag =>
    rw [hmode] at hin
    cases hstate.symm.trans hin.1
  | skip =>
    rw [hmode] at hin
    cases hstate.symm.trans hin.1

/-- The value is empty where the parser does not look for one. -/
theorem Tracks.no_value (h : s.Tracks text a rest)
    (hno : ¬ (0 < s.iScanMarkStart ∧ s.iState = .tagScan ∧ s.iScanMarkStart < s.idx)) :
    a.mode.value = [] := by
  have hin := h.mode
  cases hmode : a.mode with
  | text scanned =>
    rw [hmode] at hin
    cases scanned with
    | none => rfl
    | some v =>
      obtain ⟨hstate, hpos, -, hlen, -⟩ := hin
      have hle : ¬ s.iScanMarkStart < s.idx := fun hlt => hno ⟨hpos, hstate, hlt⟩
      exact List.length_eq_zero_iff.mp (show v.length = 0 by omega)
  | tag => rfl
  | skip => rfl

/-- The element before a tag gets its value, and a new one begins. -/
theorem Tracks.tagBegin_next (h : s.Tracks text a rest) (hint : (s.idx+1 : ℤ) ≤ intMax)
    (hstep : ParseState.tagBegin { s with iLastState := s.iState, iState := .tagBegin } =
      .ok (.next t)) : ∃ (xml : XmlParser) (pElement : Option XmlElement),
        xml.xmlElements = s.xml.xmlElements ∧
        pElement = a.pElement.map (·.withValue (trimmed a.mode.value)) ∧
        t = { s with
          xml := { xml with xmlElements := xml.xmlElements ++ pElement.toList }
          pElement := some {}
          iScanMarkStart := 0
          iTagMarkStart := s.idx
          iLastState := .tagBegin
          iState := .tagProcess
          idx := s.idx+1 } := by
  unfold ParseState.tagBegin at hstep
  dsimp only at hstep
  by_cases htext : 0 < s.iScanMarkStart ∧ s.iState = .tagScan ∧ s.iScanMarkStart < s.idx
  · rw [if_pos htext] at hstep
    rcases s.xml.checkWorkingBuffer_cases (n := s.idx-s.iScanMarkStart+1) (by omega) with
      ⟨-, hcheck⟩ | ⟨p, hsome, hp, hcheck⟩
    · unfold setValue at hstep
      rw [hcheck] at hstep
      cases hstep
    · have hne := h.inv.scanned htext.1
      have hle := le_roomFor hsome fun hlen => hne (List.length_eq_zero_iff.mp hlen)
      obtain ⟨p', -, hvalue⟩ := setValue_eq
        { s with iLastState := s.iState, iState := .tagBegin } hint (by dsimp only; omega) hcheck
      rw [hvalue] at hstep
      cases hstep
      have htake := h.scanned htext.2.1 htext.1 htext.2.2 hp
      refine ⟨{ s.xml with pWorkingBuffer := p' }, _, rfl, ?_, rfl⟩
      dsimp only
      rw [htake, h.pElement]
  · rw [if_neg htext] at hstep
    cases hstep
    refine ⟨s.xml, s.pElement, rfl, ?_, rfl⟩
    rw [h.no_value htext, h.pElement]
    exact Option.map_id'.symm

theorem Tracks.openTag (h0 : 0 ∉ text) (h : s.Tracks text a (60 :: rest))
    (hcomment : ¬ bytes "<!--" <+: 60 :: rest) (hcdata : ¬ bytes "<![CDATA" <+: 60 :: rest)
    (hnext : Next text s t) : t.Tracks text a.openTag rest := by
  have hinv := (h.inv.next h0 hnext).1
  have hle := h.inv.idx_le
  have hattr := drop_pass (h.idx ▸ h.inv.attribMark) h.attrib [60]
  have hmarks : s.comment text = none := by
    unfold ParseState.comment
    rw [h.drop_eq, if_neg hcomment]
  have hmarkup : s.markup (text ++ [0]) 60 =
      { s with iLastState := s.iState, iState := .tagBegin } := by
    have hstart := (prefix_drop_iff text (show 0 ∉ bytes "<![CDATA" by decide) hle).not.mpr
      (by rw [h.drop_eq]; exact hcdata)
    unfold ParseState.markup
    rw [if_pos rfl, if_neg hstart]
  unfold Next at hnext
  rw [step_cons h0 h.drop_eq, hmarks] at hnext
  dsimp only at hnext
  split_ifs at hnext with hint
  rw [hmarkup] at hnext
  obtain ⟨xml, pElement, hxml, hpe, rfl⟩ := h.tagBegin_next hint hnext
  refine ⟨hinv, ?_, ?_, h.inQoute, ?_, hattr, ?_, ?_, rfl, rfl, Nat.succ_pos _⟩
  · exact (List.append_assoc a.seen [60] rest).trans h.input
  · exact show s.idx+1 = (a.seen ++ [60]).length by
      rw [List.length_append, List.length_singleton, h.idx]
  · exact h.idx ▸ List.drop_left
  · exact h.unmarked.trans Option.map_eq_none_iff.symm
  · dsimp only
    rw [hxml, hpe, h.elements]
    rfl

theorem tagEnd_close (hidx : s.idx ≤ text.length) (hdrop : text.drop s.idx = 62 :: rest) :
    s.tagEnd (text ++ [0]) = s.closeTag (text ++ [0]) := by
  have hstart : ¬ bytes "<![CDATA" <+: (text ++ [0]).drop s.idx := by
    rw [List.drop_append_of_le_length hidx, hdrop]
    exact fun hstart => absurd (List.cons_prefix_cons.mp hstart).1 (by decide)
  unfold tagEnd
  cases s.pElement with
  | none => rfl
  | some e => exact if_neg hstart

/-- What the tag gives to its element. -/
theorem Tracks.closed_eq (h : s.Tracks text a (62 :: rest)) :
    XmlParser.piece text s.iTagMarkStart s.idx = a.tag.getD a.seen ++ [62] ∧
      s.closed text = closeWith (a.tag.getD a.seen ++ [62])
        ((a.attrib.map fun u => attributeOf (cleaned (u ++ [62]))).getD []) := by
  have htag : XmlParser.piece text s.iTagMarkStart s.idx = a.tag.getD a.seen ++ [62] := by
    rw [← h.input, h.idx, piece_append _ _ _ (h.idx ▸ h.inv.tagMark), h.tag]
  refine ⟨htag, funext fun e => ?_⟩
  unfold closed
  rw [htag]
  cases hattr : a.attrib with
  | none =>
    rw [if_pos (h.unmarked.mpr hattr)]
    rfl
  | some u =>
    have hmark : a.seen.drop s.iAttribMarkStart = u := by
      rw [h.attrib, hattr]
      rfl
    have hset : s.iAttribMarkStart ≠ 0 := by
      intro hzero
      cases hattr.symm.trans (h.unmarked.mp hzero)
    rw [if_neg hset, ← h.input, h.idx, piece_append _ _ _ (h.idx ▸ h.inv.attribMark), hmark]
    rfl

theorem Tracks.closeTag (h0 : 0 ∉ text) (h : s.Tracks text a (62 :: rest))
    (hnext : Next text s t) : t.Tracks text a.closeTag rest := by
  have hinv := (h.inv.next h0 hnext).1
  have hidx := lt_of_drop_cons h.drop_eq
  obtain ⟨htag, hclosed⟩ := h.closed_eq
  unfold Next at hnext
  rw [step_cons h0 h.drop_eq, comment_none h.drop_eq (by decide)] at hnext
  dsimp only at hnext
  split_ifs at hnext with hint
  have hbranch : (s.markup (text ++ [0]) 62).branch (text ++ [0]) 62 =
      ParseState.closeTag { s with iLastState := s.iState, iState := .tagEnd } (text ++ [0]) :=
    tagEnd_close (s := { s with iLastState := s.iState, iState := .tagEnd }) hidx.le h.drop_eq
  rw [hbranch] at hnext
  rcases s.xml.checkWorkingBuffer_cases (n := s.idx-s.iTagMarkStart+1) (by omega) with
    ⟨-, hcheck⟩ | ⟨p, -, -, hcheck⟩
  · unfold ParseState.closeTag at hnext
    dsimp only at hnext
    rw [hcheck] at hnext
    cases hnext
  · have hclose := ParseState.closeTag_eq h0 { s with iLastState := s.iState, iState := .tagEnd }
      h.inv.tagMark h.inv.attribMark hidx hint h.inv.split (fun hne => h.inv.element (.inr hne))
      hcheck
    by_cases hok : CloseOK text { s with iLastState := s.iState, iState := .tagEnd } p.length
    · rw [if_pos hok] at hclose
      obtain ⟨xml', hclose, -, -, hxml⟩ := hclose
      obtain rfl := ParseStep.next.inj (Except.ok.inj (hclose.symm.trans hnext))
      have hsame : ParseState.closed text { s with iLastState := s.iState, iState := .tagEnd } =
          s.closed text := rfl
      dsimp only at hxml
      refine ⟨hinv, ?_, ?_, h.inQoute, rfl, rfl, iff_of_true rfl rfl, ?_, ?_, rfl, Nat.succ_pos _,
        List.not_mem_nil, rfl, List.nil_prefix⟩
      · exact (List.append_assoc a.seen [62] rest).trans h.input
      · exact show s.idx+1 = (a.seen ++ [62]).length by
          rw [List.length_append, List.length_singleton, h.idx]
      · rw [hsame, hclosed, htag, h.elements, h.pElement] at hxml
        exact hxml
      · dsimp only
        rw [hsame, hclosed, htag, h.pElement]
        unfold Scanner.closeTag
        dsimp only
        rw [Option.map_map]
        rfl
    · rw [if_neg hok] at hclose
      cases hclose.symm.trans hnext

theorem not_comment_of_cdata {u : Bytes} (h : bytes "<![CDATA" <+: u) : ¬ bytes "<!--" <+: u := by
  intro hcomment
  rcases List.prefix_or_prefix_of_prefix h hcomment with hlong | hshort
  · exact absurd hlong (by decide)
  · exact absurd hshort (by decide)

/-- A section and what stands between it and the next `<`. -/
theorem Tracks.cdata (h0 : 0 ∉ text) (h : s.Tracks text a (60 :: rest))
    (hstart : bytes "<![CDATA" <+: 60 :: rest) {k : ℕ}
    (hk : firstOcc (bytes "]]>") (60 :: rest) = some k) (hsome : a.pElement.isSome)
    (hnine : 9 ≤ k) {u r : Bytes} (hu : 60 ∉ u) (hdrop : (60 :: rest).drop (k+5) = u ++ 60 :: r)
    (hnext : Next text s t) :
    t.Tracks text (a.cdata ((60 :: rest).take (k+5) ++ u)
      (((60 :: rest).drop 9).take (k-9))) (60 :: r) := by
  have hinv := (h.inv.next h0 hnext).1
  have hle := h.inv.idx_le
  have hrest := h.drop_eq
  obtain ⟨e, he⟩ := Option.isSome_iff_exists.mp hsome
  have hcomment : s.comment text = none := by
    unfold ParseState.comment
    rw [hrest, if_neg (not_comment_of_cdata hstart)]
  have hmarkup : s.markup (text ++ [0]) 60 =
      { s with iLastState := s.iState, iState := .tagEnd } := by
    have hstart' := (prefix_drop_iff text (show 0 ∉ bytes "<![CDATA" by decide) hle).mpr
      (by rw [hrest]; exact hstart)
    unfold ParseState.markup
    rw [if_pos rfl, if_pos hstart']
  have hbranch : ParseState.tagEnd { s with iLastState := s.iState, iState := .tagEnd }
      (text ++ [0]) = ParseState.takeCDATA { s with iLastState := s.iState, iState := .tagEnd }
        (text ++ [0]) e k := by
    have hstart' := (prefix_drop_iff text (show 0 ∉ bytes "<![CDATA" by decide) hle).mpr
      (by rw [hrest]; exact hstart)
    have hpe : s.pElement = some e := h.pElement.trans he
    unfold ParseState.tagEnd
    dsimp only
    rw [hpe]
    dsimp only
    rw [if_pos hstart', strstrAt_text h0 hle, hrest, hk]
    rfl
  -- the whole jump, from the section's start to the next tag
  have hsplit : 60 :: rest = ((60 :: rest).take (k+5) ++ u) ++ 60 :: r := by
    rw [List.append_assoc, ← hdrop, List.take_append_drop]
  have hlen : ((60 :: rest).take (k+5)).length = k+5 := by
    have hfits := congrArg List.length hdrop
    rw [List.length_drop, List.length_append] at hfits
    have hnext : 0 < (60 :: r).length := Nat.succ_pos _
    exact List.length_take_of_le (by omega)
  have htext : text.length = s.idx+(60 :: rest).length := by
    rw [← h.input, List.length_append, h.idx]
  have hfit : s.idx+k+5 ≤ text.length := by
    have hall := congrArg List.length hsplit
    rw [List.length_append, List.length_append, hlen] at hall
    omega
  have hjump : text.drop (s.idx+k+5) = u ++ 60 :: r := by
    rw [← hdrop, ← hrest, List.drop_drop, Nat.add_assoc]
  have htake := takeCDATA_eq h0 { s with iLastState := s.iState, iState := .tagEnd } e
    (by rw [hrest]; exact hstart) (by rw [hrest]; exact hk)
  rw [if_pos hfit] at htake
  obtain ⟨block, htake, hblock⟩ := htake
  dsimp only at htake
  rw [hjump, firstOcc_singleton hu, Option.getD_some] at htake
  unfold Next at hnext
  rw [step_cons h0 hrest, hcomment] at hnext
  dsimp only at hnext
  split_ifs at hnext
  rw [hmarkup] at hnext
  obtain rfl := ParseStep.next.inj (Except.ok.inj
    (htake.symm.trans (hbranch.symm.trans hnext)))
  rw [hsplit] at h
  have hcontent : block = ((60 :: rest).drop 9).take (k-9) := by
    rw [hblock hnine, ← hrest, List.drop_drop]
  refine h.moved hinv ?_ rfl rfl rfl h.inQoute ?_ ⟨rfl, rfl⟩
  · dsimp only
    rw [List.length_append, hlen]
    omega
  · rw [he, hcontent]
    rfl

/-- In front of a byte other than `<` the scanner is in a text or in a tag. -/
theorem Tracks.mode_ne_skip {ch : Byte} (h : s.Tracks text a (ch :: rest)) (hch : ch ≠ 60) :
    a.mode ≠ .skip := by
  intro hmode
  have hin := h.mode
  rw [hmode] at hin
  exact hch (Option.some.inj hin.2)

/-- One round of the loop is a step of the scanner, or more behind a section. -/
theorem Tracks.next (h0 : 0 ∉ text) (h : s.Tracks text a rest) (hnext : Next text s t)
    {d : Scanner × Bytes} (hstep : a.step rest = some d) :
    ∃ a' rest', Scanner.Reads (a, rest) (a', rest') ∧ t.Tracks text a' rest' := by
  cases rest with
  | nil => cases hstep
  | cons ch rest =>
    by_cases hlt : ch = 60
    · subst hlt
      have hmarkup : a.step (60 :: rest) = a.markup (60 :: rest) := rfl
      have hread := hstep
      rw [hmarkup] at hstep
      unfold Scanner.markup at hstep
      by_cases hcomment : bytes "<!--" <+: 60 :: rest
      · rw [if_pos hcomment] at hstep
        obtain ⟨k, hk, rfl⟩ := Option.map_eq_some_iff.mp hstep
        have hend : s.comment text = some k := by
          unfold ParseState.comment
          rw [h.drop_eq, if_pos hcomment, hk]
        exact ⟨_, _, .single hread, h.comment h0 hnext hend⟩
      · rw [if_neg hcomment] at hstep
        by_cases hcdata : bytes "<![CDATA" <+: 60 :: rest
        · rw [if_pos hcdata] at hstep
          obtain ⟨k, hk, hsection⟩ := Option.bind_eq_some_iff.mp hstep
          split_ifs at hsection with hfull
          obtain ⟨hsome, hnine, hmem⟩ := hfull
          obtain rfl := Option.some.inj hsection
          obtain ⟨u, r, hdrop, hu⟩ := List.eq_append_cons_of_mem hmem
          have hskip := Scanner.reads_skip (a := a.cdata ((60 :: rest).take (k+5))
            (((60 :: rest).drop 9).take (k-9))) rfl hu (60 :: r)
          rw [Scanner.cdata_pass] at hskip
          rw [hdrop] at hread
          exact ⟨_, _, hskip.head hread, h.cdata h0 hcdata hk hsome hnine hu hdrop hnext⟩
        · rw [if_neg hcdata] at hstep
          obtain rfl := Option.some.inj hstep
          exact ⟨_, _, .single hread, h.openTag h0 hcomment hcdata hnext⟩
    · have hbyte : a.step (ch :: rest) = some (a.byte ch, rest) := if_neg hlt
      refine ⟨a.byte ch, rest, .single hbyte, ?_⟩
      have hskip := h.mode_ne_skip hlt
      by_cases hgt : ch = 62
      · subst hgt
        rw [Scanner.byte_close hskip]
        exact h.closeTag h0 hnext
      · cases hmode : a.mode with
        | text scanned => exact h.scan h0 hlt hgt hmode hnext
        | tag => exact h.inTag h0 hlt hgt hmode hnext
        | skip => exact absurd hmode hskip

end ParseState

end MsgCourier
