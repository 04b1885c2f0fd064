import MsgCourier.XmlBounds

/-! The rounds of `Parse` inside a tag, and how far a run gets. -/
namespace MsgCourier
open ListSearch CText

namespace ParseState

variable {text : Bytes} {s t : ParseState} {i : ℕ} {P : ParseState → Prop}

/-! ### How far a run gets -/

/-- The loop gets from the state to the index, and the state there has the property. -/
def Arrives (text : Bytes) (i : ℕ) (P : ParseState → Prop) (s : ParseState) : Prop :=
  ∃ t, Relation.ReflTransGen (Next text) s t ∧ t.idx = i ∧ P t

theorem Inv.next (h0 : 0 ∉ text) (h : s.Inv text) (hnext : Next text s t) :
    t.Inv text ∧ s.idx < t.idx := by
  have hfares := step_fares h0 h
  by_cases hround : s.RoundOK text
  · obtain ⟨r, hstep, hgoes⟩ := hfares.1 hround
    obtain rfl := Except.ok.inj (hstep.symm.trans hnext)
    exact hgoes
  · cases hnext.symm.trans (hfares.2 hround)

theorem Inv.steps (h0 : 0 ∉ text) (h : s.Inv text)
    (hsteps : Relation.ReflTransGen (Next text) s t) : t.Inv text ∧ s.idx ≤ t.idx := by
  induction hsteps with
  | refl => exact ⟨h, le_rfl⟩
  | tail _ hlast ih =>
    obtain ⟨hinv, hlt⟩ := ih.1.next h0 hlast
    exact ⟨hinv, ih.2.trans hlt.le⟩

theorem arrives_here (h0 : 0 ∉ text) (h : s.Inv text) : Arrives text s.idx P s ↔ P s := by
  constructor
  · intro harrives
    obtain ⟨t, hsteps, hidx, hP⟩ := harrives
    cases hsteps.cases_head with
    | inl heq => exact heq ▸ hP
    | inr hnext =>
      -- the index has moved on
      obtain ⟨u, hu, hrest⟩ := hnext
      obtain ⟨hinv, hlt⟩ := h.next h0 hu
      have hle := (hinv.steps h0 hrest).2
      omega
  · exact fun hP => ⟨s, .refl, rfl, hP⟩

theorem arrives_next (hnext : Next text s t) (hlt : s.idx < i) :
    Arrives text i P s ↔ Arrives text i P t := by
  constructor
  · intro harrives
    obtain ⟨u, hsteps, hidx, hP⟩ := harrives
    cases hsteps.cases_head with
    | inl heq =>
      subst heq
      omega
    | inr hhead =>
      obtain ⟨t', ht', hrest⟩ := hhead
      cases hnext.symm.trans ht'
      exact ⟨u, hrest, hidx, hP⟩
  · intro harrives
    obtain ⟨u, hsteps, hidx, hP⟩ := harrives
    exact ⟨u, hsteps.head hnext, hidx, hP⟩

theorem not_arrives (hstuck : ∀ t, ¬ Next text s t) (hlt : s.idx < i) : ¬ Arrives text i P s := by
  intro harrives
  obtain ⟨u, hsteps, hidx, -⟩ := harrives
  cases hsteps.cases_head with
  | inl heq =>
    subst heq
    omega
  | inr hhead =>
    obtain ⟨t, ht, -⟩ := hhead
    exact hstuck t ht

/-! ### Plain bytes -/

theorem comment_none {ch : Byte} {rest : Bytes} (hdrop : text.drop s.idx = ch :: rest)
    (hch : ch ≠ 60) : s.comment text = none := by
  unfold comment
  rw [hdrop, if_neg]
  intro h
  exact hch (List.cons_prefix_cons.mp h).1.symm

theorem markup_plain {ch : Byte} (hlt : ch ≠ 60) (hgt : ch ≠ 62) (pszData : Bytes) :
    s.markup pszData ch = s := by
  unfold ParseState.markup
  rw [if_neg hlt, if_neg hgt]

/-- A byte inside a tag that is no markup. -/
theorem step_tagProcess (h0 : 0 ∉ text) {ch : Byte} {rest : Bytes}
    (hdrop : text.drop s.idx = ch :: rest) (hlt : ch ≠ 60) (hgt : ch ≠ 62)
    (hstate : s.iState = .tagProcess) :
    s.step (text ++ [0]) = if (s.idx+1 : ℤ) ≤ intMax then s.tagProcess (text ++ [0]) ch
      else .error .undefined := by
  rw [step_cons h0 hdrop, comment_none hdrop hlt]
  dsimp only
  rw [markup_plain hlt hgt]
  unfold branch
  rw [hstate]

/-- The state with the index moved on. -/
def skip (s : ParseState) (n : ℕ) : ParseState := { s with idx := s.idx+n }

theorem skip_zero : s.skip 0 = s := rfl

theorem Inv.skip (h : s.Inv text) {n : ℕ} (hn : s.idx+n ≤ text.length) : (s.skip n).Inv text where
  idx_le := hn
  tagMark := Nat.le_add_right_of_le h.tagMark
  attribMark := Nat.le_add_right_of_le h.attribMark
  scanMark := Nat.le_add_right_of_le h.scanMark
  split := h.split
  scanned := h.scanned
  element := h.element

theorem skip_skip (n m : ℕ) : (s.skip n).skip m = s.skip (n+m) := by
  unfold skip
  dsimp only
  rw [Nat.add_assoc]

/-- The byte neither sets the mark of an attribute nor ends one. -/
def Passes (s : ParseState) (ch : Byte) : Prop :=
  ch ≠ 60 ∧ ch ≠ 62 ∧ ch ≠ 34 ∧ ¬ (ch = 32 ∧ s.iAttribMarkStart = 0) ∧
    ¬ ((ch = 32 ∨ ch = 9) ∧ s.inQoute = false)

theorem drop_skip {u rest : Bytes} (hdrop : text.drop s.idx = u ++ rest) :
    text.drop (s.skip u.length).idx = rest := by
  change text.drop (s.idx+u.length) = rest
  rw [← List.drop_drop, hdrop, List.drop_left]

/-- The index moves over bytes that pass, as long as it is an `int`. -/
theorem arrives_skip (h0 : 0 ∉ text) {u rest : Bytes} (hdrop : text.drop s.idx = u ++ rest)
    (hstate : s.iState = .tagProcess) (hu : ∀ ch ∈ u, s.Passes ch) (hint : (s.idx : ℤ) ≤ intMax)
    (hi : s.idx+u.length ≤ i) : Arrives text i P s ↔
      (s.idx+u.length : ℤ) ≤ intMax ∧ Arrives text i P (s.skip u.length) := by
  induction u generalizing s with
  | nil =>
    rw [List.length_nil, skip_zero, Nat.cast_zero, add_zero]
    exact (and_iff_right hint).symm
  | cons ch u ih =>
    obtain ⟨hlt, hgt, hquote, hfirst, hsep⟩ := hu ch List.mem_cons_self
    rw [List.length_cons] at hi ⊢
    have hstep := step_tagProcess h0 hdrop hlt hgt hstate
    have hbranch : s.tagProcess (text ++ [0]) ch = .ok (.next (s.skip 1)) := by
      unfold tagProcess
      rw [if_neg hquote]
      dsimp only
      rw [if_neg hfirst, if_neg hsep]
      rfl
    by_cases hnext : (s.idx+1 : ℤ) ≤ intMax
    · rw [if_pos hnext, hbranch] at hstep
      have hrest : text.drop (s.skip 1).idx = u ++ rest := drop_skip (u := [ch]) hdrop
      have hidx : (s.skip 1).idx = s.idx+1 := rfl
      have hih := ih hrest hstate (fun c hc => hu c (List.mem_cons_of_mem ch hc))
        (by rw [hidx]; exact_mod_cast hnext) (by rw [hidx]; omega)
      rw [arrives_next hstep (by omega), hih, skip_skip, hidx, Nat.add_comm 1 u.length]
      push_cast
      rw [add_assoc, add_comm (1 : ℤ)]
    · rw [if_neg hnext] at hstep
      refine iff_of_false (not_arrives (fun t ht => ?_) (by omega)) fun h => hnext ?_
      · cases hstep.symm.trans ht
      · have hle := h.1
        push_cast at hle
        omega

/-- A quote sign turns the quotes on or off. -/
theorem arrives_quote (h0 : 0 ∉ text) {rest : Bytes} (hdrop : text.drop s.idx = 34 :: rest)
    (hstate : s.iState = .tagProcess) (hi : s.idx < i) : Arrives text i P s ↔
      (s.idx+1 : ℤ) ≤ intMax ∧
        Arrives text i P { s with inQoute := ! s.inQoute, idx := s.idx+1 } := by
  have hstep := step_tagProcess h0 hdrop (by decide) (by decide) hstate
  have hbranch : s.tagProcess (text ++ [0]) 34 =
      .ok (.next { s with inQoute := ! s.inQoute, idx := s.idx+1 }) := rfl
  by_cases hnext : (s.idx+1 : ℤ) ≤ intMax
  · rw [if_pos hnext, hbranch] at hstep
    rw [arrives_next hstep hi, and_iff_right hnext]
  · rw [if_neg hnext] at hstep
    refine iff_of_false (not_arrives (fun t ht => ?_) hi) fun h => hnext h.1
    cases hstep.symm.trans ht

/-! ### Separators -/

/-- The first space of a tag sets the mark. -/
theorem arrives_mark (h0 : 0 ∉ text) {rest : Bytes} (hdrop : text.drop s.idx = 32 :: rest)
    (hstate : s.iState = .tagProcess) (hmark : s.iAttribMarkStart = 0) (hi : s.idx < i) :
    Arrives text i P s ↔ (s.idx+1 : ℤ) ≤ intMax ∧
      Arrives text i P { s with iAttribMarkStart := s.idx, idx := s.idx+1 } := by
  have hstep := step_tagProcess h0 hdrop (by decide) (by decide) hstate
  have hbranch : s.tagProcess (text ++ [0]) 32 =
      .ok (.next { s with iAttribMarkStart := s.idx, idx := s.idx+1 }) := by
    unfold tagProcess
    rw [if_neg (show ¬ (32 : Byte) = 34 by decide)]
    dsimp only
    rw [if_pos ⟨rfl, hmark⟩]
    rfl
  by_cases hnext : (s.idx+1 : ℤ) ≤ intMax
  · rw [if_pos hnext, hbranch] at hstep
    rw [arrives_next hstep hi, and_iff_right hnext]
  · rw [if_neg hnext] at hstep
    refine iff_of_false (not_arrives (fun t ht => ?_) hi) fun h => hnext h.1
    cases hstep.symm.trans ht

/-- There is a buffer for a copy after the check for `n` bytes, and the condition holds of it. -/
def Room (size n : ℕ) (ok : ℕ → Prop) : Prop := ∃ m ∈ roomFor size n, ok m

theorem room_iff {size n m : ℕ} (h : roomFor size n = some m) (ok : ℕ → Prop) :
    Room size n ok ↔ ok m := by
  constructor
  · intro hroom
    obtain ⟨m', hm', hok⟩ := hroom
    exact Option.some.inj (h.symm.trans hm') ▸ hok
  · exact fun hok => ⟨m, h, hok⟩

theorem room_and {size n : ℕ} {ok : ℕ → Prop} {c : Prop} :
    Room size n (fun m => ok m ∧ c) ↔ Room size n ok ∧ c := by
  constructor
  · rintro ⟨m, hm, hok, hc⟩
    exact ⟨⟨m, hm, hok⟩, hc⟩
  · rintro ⟨⟨m, hm, hok⟩, hc⟩
    exact ⟨m, hm, hok, hc⟩


/-- Any other separator outside quotes takes the attribute between the mark and itself. -/
theorem separator_round (h0 : 0 ∉ text) (h : s.Inv text) {ch : Byte} {rest : Bytes}
    (hdrop : text.drop s.idx = ch :: rest) (hstate : s.iState = .tagProcess)
    (hsep : s.Separates ch) {e : XmlElement} (he : s.pElement = some e) :
    (∃ xml', roomFor s.xml.pWorkingBuffer.length (s.idx-s.iAttribMarkStart+1) =
          some xml'.pWorkingBuffer.length ∧
        AttribOK text s.iAttribMarkStart s.idx xml'.pWorkingBuffer.length ∧
        (s.idx+1 : ℤ) ≤ intMax ∧ xml'.xmlElements = s.xml.xmlElements ∧
        Next text s { s with
          xml := xml'
          pElement := some (e.withAttributes
            (attributeOf (cleaned (XmlParser.piece text s.iAttribMarkStart s.idx))))
          iAttribMarkStart := s.idx
          idx := s.idx+1 }) ∨
      (∀ t, ¬ Next text s t) ∧ ¬ ((s.idx+1 : ℤ) ≤ intMax ∧
        Room s.xml.pWorkingBuffer.length (s.idx-s.iAttribMarkStart+1)
          (AttribOK text s.iAttribMarkStart s.idx)) := by
  have hattr := h.attribMark
  have hidx := lt_of_drop_cons hdrop
  have hblank : ch = 32 ∨ ch = 9 := hsep.1.imp And.left id
  have hother {c : Byte} (h32 : 32 ≠ c) (h9 : 9 ≠ c) : ch ≠ c := by
    rcases hblank with h | h
    · exact h ▸ h32
    · exact h ▸ h9
  have hfirst : ¬ (ch = 32 ∧ s.iAttribMarkStart = 0) := by
    intro hfirst
    rcases hsep.1 with h | h
    · exact h.2 hfirst.2
    · exact absurd (hfirst.1.symm.trans h) (by decide)
  have hlt : ch ≠ 60 := hother (by decide) (by decide)
  have hgt : ch ≠ 62 := hother (by decide) (by decide)
  have hquote : ch ≠ 34 := hother (by decide) (by decide)
  have hends : (ch = 32 ∨ ch = 9) ∧ s.inQoute = false := ⟨hblank, hsep.2⟩
  have hstep := step_tagProcess h0 hdrop hlt hgt hstate
  unfold tagProcess at hstep
  rw [if_neg hquote] at hstep
  dsimp only at hstep
  rw [if_neg hfirst, if_pos hends] at hstep
  by_cases hnext : (s.idx+1 : ℤ) ≤ intMax
  · rw [if_pos hnext] at hstep
    rcases s.xml.checkWorkingBuffer_cases (n := s.idx-s.iAttribMarkStart+1) (by omega) with
      ⟨hnone, hcheck⟩ | ⟨p, hsome, -, hcheck⟩
    · refine .inr ⟨fun t ht => ?_, fun hcond => ?_⟩
      · unfold Next at ht
        rw [ht, hcheck] at hstep
        cases hstep
      · obtain ⟨m, hm, -⟩ := hcond.2
        cases hnone.symm.trans hm
    · have htake := takeAttribute_eq h0 { s with xml := { s.xml with pWorkingBuffer := p } }
        hattr hidx hnext h.split he
      rw [hcheck, ok_bind] at hstep
      dsimp only at htake hstep
      by_cases hok : AttribOK text s.iAttribMarkStart s.idx p.length
      · rw [if_pos hok] at htake
        obtain ⟨xml', htake, hlen, helems, -⟩ := htake
        rw [htake, ok_bind] at hstep
        exact .inl ⟨xml', hlen ▸ hsome, hlen ▸ hok, hnext, helems, hstep⟩
      · rw [if_neg hok] at htake
        rw [htake] at hstep
        refine .inr ⟨fun t ht => ?_, fun hcond => ?_⟩
        · unfold Next at ht
          rw [ht] at hstep
          cases hstep
        · obtain ⟨m, hm, hm'⟩ := hcond.2
          obtain rfl := Option.some.inj (hsome.symm.trans hm)
          exact hok hm'
  · rw [if_neg hnext] at hstep
    refine .inr ⟨fun t ht => ?_, fun hcond => hnext hcond.1⟩
    cases hstep.symm.trans ht

/-! ### The end of a tag -/

/-- No tag is open whose attributes could still grow. -/
def Outside (s : ParseState) : Prop := s.iAttribMarkStart = 0 ∧ s.iState ≠ .tagProcess

/-- The end of the tag gives the element its name and its last attribute. -/
theorem close_round (h0 : 0 ∉ text) (h : s.Inv text) {rest : Bytes}
    (hdrop : text.drop s.idx = 62 :: rest) {e : XmlElement} (he : s.pElement = some e) :
    (∃ t, Next text s t ∧ ((s.idx+1 : ℤ) ≤ intMax ∧
        Room s.xml.pWorkingBuffer.length (s.idx-s.iTagMarkStart+1) (CloseOK text s)) ∧
        t.idx = s.idx+1 ∧ t.Outside ∧
        t.finish.xmlElements = s.xml.xmlElements ++ s.closed text e ::
          (if shortTag (XmlParser.piece text s.iTagMarkStart s.idx) then
            [{ xmlTagName := some (bytes "/>") }] else [])) ∨
      (∀ t, ¬ Next text s t) ∧ ¬ ((s.idx+1 : ℤ) ≤ intMax ∧
        Room s.xml.pWorkingBuffer.length (s.idx-s.iTagMarkStart+1) (CloseOK text s)) := by
  have hidx := lt_of_drop_cons hdrop
  have hstep := step_cons h0 hdrop
  rw [comment_none hdrop (by decide)] at hstep
  have hbranch : (s.markup (text ++ [0]) 62).branch (text ++ [0]) 62 =
      ParseState.closeTag { s with iLastState := s.iState, iState := .tagEnd } (text ++ [0]) := by
    have hmarkup : s.markup (text ++ [0]) 62 =
      { s with iLastState := s.iState, iState := .tagEnd } :=
      rfl
    have hstart : ¬ bytes "<![CDATA" <+: (text ++ [0]).drop s.idx := by
      rw [List.drop_append_of_le_length hidx.le, hdrop]
      exact fun hstart => absurd (List.cons_prefix_cons.mp hstart).1 (by decide)
    rw [hmarkup]
    unfold branch tagEnd
    dsimp only
    rw [he]
    dsimp only
    rw [if_neg hstart]
  dsimp only at hstep
  rw [hbranch] at hstep
  by_cases hnext : (s.idx+1 : ℤ) ≤ intMax
  · rw [if_pos hnext] at hstep
    rcases s.xml.checkWorkingBuffer_cases (n := s.idx-s.iTagMarkStart+1) (by omega) with
      ⟨hnone, hcheck⟩ | ⟨p, hsome, -, hcheck⟩
    · have hclose : ParseState.closeTag { s with iLastState := s.iState, iState := .tagEnd }
          (text ++ [0]) = .ok (.done xmlliteparserAlloc s.finish) := by
        unfold closeTag
        dsimp only
        rw [hcheck]
        rfl
      refine .inr ⟨fun t ht => ?_, fun hcond => ?_⟩
      · cases hclose.symm.trans (hstep.symm.trans ht)
      · obtain ⟨m, hm, -⟩ := hcond.2
        cases hnone.symm.trans hm
    · have hclose := ParseState.closeTag_eq h0 { s with iLastState := s.iState, iState := .tagEnd }
        h.tagMark h.attribMark hidx hnext h.split (fun hne => h.element (.inr hne)) hcheck
      have hsame : CloseOK text { s with iLastState := s.iState, iState := .tagEnd } p.length ↔
          CloseOK text s p.length := Iff.rfl
      by_cases hok : CloseOK text s p.length
      · rw [if_pos (hsame.mpr hok)] at hclose
        obtain ⟨xml', hclose, -, -, helems⟩ := hclose
        refine .inl ⟨_, hstep.trans hclose, ⟨hnext, p.length, hsome, hok⟩, rfl,
          ⟨rfl, TagState.noConfusion⟩, ?_⟩
        unfold finish
        dsimp only at helems ⊢
        rw [helems, he]
        cases shortTag (XmlParser.piece text s.iTagMarkStart s.idx) with
        | false =>
          rw [if_neg Bool.noConfusion, if_neg Bool.noConfusion, if_neg Bool.noConfusion,
            List.append_nil]
          rfl
        | true =>
          rw [if_pos rfl, if_pos rfl, if_pos rfl, List.append_assoc]
          rfl
      · rw [if_neg fun h => hok (hsame.mp h)] at hclose
        refine .inr ⟨fun t ht => ?_, fun hcond => ?_⟩
        · cases hclose.symm.trans (hstep.symm.trans ht)
        · obtain ⟨m, hm, hm'⟩ := hcond.2
          obtain rfl := Option.some.inj (hsome.symm.trans hm)
          exact hok hm'
  · rw [if_neg hnext] at hstep
    refine .inr ⟨fun t ht => ?_, fun hcond => hnext hcond.1⟩
    cases hstep.symm.trans ht

/-! ### The attributes of the elements that are done -/

/-- The attributes of all elements. -/
def attributeLists (xml : XmlParser) : List (List (Bytes × Bytes)) :=
  xml.xmlElements.map (·.xmlAttributes)

/-- The elements before the current one keep their attributes, and so does the current one outside
of a tag. -/
structure Keeps (s t : ParseState) : Prop where
  earlier : attributeLists s.xml <+: attributeLists t.xml
  current : s.Outside → attributeLists s.finish <+: attributeLists t.finish ∧
    (t.Outside ∨ attributeLists s.finish <+: attributeLists t.xml)

/-- The end of the loop leaves all elements as they are. -/
def KeepsStep (s : ParseState) : ParseStep → Prop
  | .next t => s.Keeps t
  | .done _ xml => xml.xmlElements = s.finish.xmlElements

/-- Nothing happens to the elements. -/
theorem Keeps.of_eq (hxml : t.xml.xmlElements = s.xml.xmlElements)
    (hpe : t.pElement.map (·.xmlAttributes) = s.pElement.map (·.xmlAttributes))
    (hout : s.Outside → t.Outside) : s.Keeps t := by
  have hfinish : attributeLists s.finish = attributeLists t.finish := by
    unfold attributeLists finish
    dsimp only
    rw [List.map_append, List.map_append, hxml, ← Option.toList_map, ← Option.toList_map, hpe]
  refine ⟨?_, fun h => ⟨hfinish ▸ List.prefix_rfl, .inl (hout h)⟩⟩
  unfold attributeLists
  rw [hxml]

theorem KeepsStep.of_markup {pszData : Bytes} {ch : Byte} {r : ParseStep}
    (h : (s.markup pszData ch).KeepsStep r) : s.KeepsStep r := by
  have hfinish : (s.markup pszData ch).finish = s.finish := by
    unfold ParseState.markup
    split_ifs <;> rfl
  have hxml : (s.markup pszData ch).xml = s.xml := by
    unfold ParseState.markup
    split_ifs <;> rfl
  have hout (h : s.Outside) : (s.markup pszData ch).Outside := by
    unfold ParseState.markup
    split_ifs
    · exact ⟨h.1, by simp⟩
    · exact ⟨h.1, by simp⟩
    · exact ⟨h.1, by simp⟩
    · exact h
  cases r with
  | done code xml => exact Eq.trans h (congrArg _ hfinish)
  | next t =>
    refine ⟨hxml ▸ h.earlier, fun hs => ?_⟩
    rw [← hfinish]
    exact h.current (hout hs)

theorem checkWorkingBuffer_elements {xml xml' : XmlParser} {n : ℕ}
    (h : xml.checkWorkingBuffer n = .ok (some xml')) : xml'.xmlElements = xml.xmlElements := by
  unfold XmlParser.checkWorkingBuffer at h
  dsimp only at h
  split_ifs at h
  · cases h
    rfl
  · cases h
  · obtain ⟨p, -, hp⟩ := bind_eq_ok.mp h
    cases hp
    rfl
  · cases h
    rfl

theorem tagScan_keeps {ch : Byte} {r : ParseStep} (hstep : s.tagScan ch = .ok r) :
    s.KeepsStep r := by
  have hpoke {xml : XmlParser} (helems : xml.xmlElements = s.xml.xmlElements)
      (hr : (poke xml.pWorkingBuffer (s.idx-s.iScanMarkStart) ch >>= fun p =>
        pure (ParseStep.next { s with xml := { xml with pWorkingBuffer := p }, idx := s.idx+1 })) =
          .ok r) : s.KeepsStep r := by
    obtain ⟨p, -, hr⟩ := bind_eq_ok.mp hr
    cases hr
    exact Keeps.of_eq helems rfl id
  unfold tagScan at hstep
  split_ifs at hstep
  · obtain ⟨o, hroom, hstep⟩ := bind_eq_ok.mp hstep
    cases o with
    | none =>
      cases hstep
      rfl
    | some xml => exact hpoke (checkWorkingBuffer_elements hroom) hstep
  · exact hpoke rfl hstep

/-- A value does not touch the attributes. -/
theorem setValue_elements (hvalue : s.setValue = .ok (some t)) :
    t.xml.xmlElements = s.xml.xmlElements ∧
      t.pElement.map (·.xmlAttributes) = s.pElement.map (·.xmlAttributes) := by
  unfold setValue at hvalue
  obtain ⟨o, hroom, hvalue⟩ := bind_eq_ok.mp hvalue
  cases o with
  | none => cases hvalue
  | some xml =>
    have helems := checkWorkingBuffer_elements hroom
    obtain ⟨p₁, -, hvalue⟩ := bind_eq_ok.mp hvalue
    obtain ⟨p₂, -, hvalue⟩ := bind_eq_ok.mp hvalue
    obtain ⟨p₃, -, hvalue⟩ := bind_eq_ok.mp hvalue
    obtain ⟨c, -, hvalue⟩ := bind_eq_ok.mp hvalue
    cases hpe : s.pElement with
    | none =>
      rw [hpe] at hvalue
      cases hvalue
      exact ⟨helems, rfl⟩
    | some e =>
      rw [hpe] at hvalue
      dsimp only at hvalue
      split_ifs at hvalue
      · cases hvalue
        exact ⟨helems, rfl⟩
      · obtain ⟨p₄, -, hvalue⟩ := bind_eq_ok.mp hvalue
        cases hvalue
        exact ⟨helems, rfl⟩

theorem attributeLists_finish (s : ParseState) : attributeLists s.finish =
    attributeLists s.xml ++ (s.pElement.map (·.xmlAttributes)).toList := by
  unfold attributeLists finish
  dsimp only
  rw [List.map_append, Option.toList_map]

theorem tagBegin_keeps {r : ParseStep} (hstep : s.tagBegin = .ok r) : s.KeepsStep r := by
  have hopen {u : ParseState} (hu : u.xml.xmlElements = s.xml.xmlElements ∧
      u.pElement.map (·.xmlAttributes) = s.pElement.map (·.xmlAttributes)) :
      s.KeepsStep (.next { u.getNewEntry {} with
        iScanMarkStart := 0, iTagMarkStart := u.idx, iLastState := u.iState, iState := .tagProcess,
        idx := u.idx+1 }) := by
    have hfinish : attributeLists u.finish = attributeLists s.finish := by
      rw [attributeLists_finish, attributeLists_finish, hu.2]
      unfold attributeLists
      rw [hu.1]
    have hall : attributeLists s.finish <+: attributeLists u.finish := hfinish ▸ List.prefix_rfl
    refine ⟨?_, fun _ => ⟨?_, .inr hall⟩⟩
    · refine List.IsPrefix.trans ?_ hall
      exact List.IsPrefix.map _ (List.prefix_append _ _)
    · refine hall.trans ?_
      exact List.IsPrefix.map _ (List.prefix_append _ _)
  unfold tagBegin at hstep
  split_ifs at hstep
  · obtain ⟨o, hvalue, hstep⟩ := bind_eq_ok.mp hstep
    cases o with
    | none =>
      cases hstep
      rfl
    | some u =>
      cases hstep
      exact hopen (setValue_elements hvalue)
  · cases hstep
    exact hopen ⟨rfl, rfl⟩

/-- The current element is still in its tag. -/
theorem tagProcess_keeps (h0 : 0 ∉ text) (h : s.Inv text) (hidx : s.idx < text.length)
    (hint : (s.idx+1 : ℤ) ≤ intMax) (hstate : s.iState = .tagProcess) {ch : Byte} {r : ParseStep}
    (hstep : s.tagProcess (text ++ [0]) ch = .ok r) : s.KeepsStep r := by
  have hin {t : ParseState} (hxml : t.xml.xmlElements = s.xml.xmlElements) :
      s.KeepsStep (.next t) := by
    refine ⟨?_, fun hout => absurd hstate hout.2⟩
    unfold attributeLists
    rw [hxml]
  obtain ⟨e, he⟩ := Option.isSome_iff_exists.mp (h.element (.inl hstate))
  have hattr := h.attribMark
  unfold tagProcess at hstep
  by_cases hquote : ch = 34
  · rw [if_pos hquote, hquote] at hstep
    cases hstep
    exact hin rfl
  · rw [if_neg hquote] at hstep
    dsimp only at hstep
    split_ifs at hstep
    · cases hstep
      exact hin rfl
    · obtain ⟨o, hroom, hstep⟩ := bind_eq_ok.mp hstep
      cases o with
      | none =>
        cases hstep
        rfl
      | some xml =>
        have hsplit : xml.SplitOK := by
          rcases s.xml.checkWorkingBuffer_cases (n := s.idx-s.iAttribMarkStart+1) (by omega) with
            ⟨-, hcheck⟩ | ⟨p, -, -, hcheck⟩
          · cases hcheck.symm.trans hroom
          · cases hcheck.symm.trans hroom
            exact h.split
        have htake := takeAttribute_eq h0 { s with xml := xml } hattr hidx hint hsplit he
        have helems := checkWorkingBuffer_elements hroom
        obtain ⟨t, ht, hstep⟩ := bind_eq_ok.mp hstep
        cases hstep
        rw [ht] at htake
        split_ifs at htake
        obtain ⟨xml', htake, -, helems', -⟩ := htake
        cases htake
        exact hin (helems'.trans helems)
    · cases hstep
      exact hin rfl

theorem closeTag_keeps (h0 : 0 ∉ text) (h : s.Inv text) (hidx : s.idx < text.length)
    (hint : (s.idx+1 : ℤ) ≤ intMax) {r : ParseStep} (hstep : s.closeTag (text ++ [0]) = .ok r) :
    s.KeepsStep r := by
  rcases s.xml.checkWorkingBuffer_cases (n := s.idx-s.iTagMarkStart+1) (by omega) with
    ⟨-, hcheck⟩ | ⟨p, -, -, hcheck⟩
  · unfold closeTag at hstep
    rw [hcheck] at hstep
    cases hstep
    rfl
  · have hclose := s.closeTag_eq h0 h.tagMark h.attribMark hidx hint h.split
      (fun hne => h.element (.inr hne)) hcheck
    by_cases hok : CloseOK text s p.length
    · rw [if_pos hok] at hclose
      obtain ⟨xml', hclose, -, -, helems⟩ := hclose
      obtain rfl := Except.ok.inj (hstep.symm.trans hclose)
      -- without a mark the tag adds nothing to its element
      have hclosed (e : XmlElement) (hzero : s.iAttribMarkStart = 0) :
          (s.closed text e).xmlAttributes = e.xmlAttributes := by
        unfold closed closeWith XmlElement.withAttributes
        dsimp only
        rw [if_pos hzero, List.append_nil]
      have hsame (hzero : s.iAttribMarkStart = 0) :
          (s.pElement.map (s.closed text)).map (·.xmlAttributes) =
            s.pElement.map (·.xmlAttributes) := by
        rw [Option.map_map]
        exact congrArg (s.pElement.map ·) (funext fun e => hclosed e hzero)
      refine ⟨?_, fun hout => ?_⟩
      · unfold attributeLists
        rw [helems]
        exact List.IsPrefix.map _ (List.prefix_append _ _)
      · rw [attributeLists_finish, attributeLists_finish, ← hsame hout.1]
        have hlists : attributeLists xml' = attributeLists s.xml ++
            (if shortTag (XmlParser.piece text s.iTagMarkStart s.idx) then
              (s.pElement.map (s.closed text)).toList else []).map (·.xmlAttributes) := by
          unfold attributeLists
          rw [helems, List.map_append]
        cases hshort : shortTag (XmlParser.piece text s.iTagMarkStart s.idx) with
        | false =>
          rw [hshort, if_neg Bool.noConfusion, List.map_nil, List.append_nil] at hlists
          dsimp only
          rw [hlists, if_neg Bool.noConfusion]
          exact ⟨List.prefix_rfl, .inl ⟨rfl, TagState.noConfusion⟩⟩
        | true =>
          rw [hshort, if_pos rfl, ← Option.toList_map] at hlists
          dsimp only
          rw [hlists]
          exact ⟨List.prefix_append _ _, .inr List.prefix_rfl⟩
    · rw [if_neg hok] at hclose
      cases hstep.symm.trans hclose

/-- A section leaves the attributes of its element alone. -/
theorem takeCDATA_keeps {pszData : Bytes} {e : XmlElement} (he : s.pElement = some e) {k : ℕ}
    {r : ParseStep} (hstep : s.takeCDATA pszData e k = .ok r) : s.KeepsStep r := by
  unfold takeCDATA at hstep
  dsimp only at hstep
  obtain ⟨n, -, hstep⟩ := bind_eq_ok.mp hstep
  obtain ⟨block, -, hstep⟩ := bind_eq_ok.mp hstep
  obtain ⟨o, -, hstep⟩ := bind_eq_ok.mp hstep
  cases hstep
  refine Keeps.of_eq rfl ?_ fun hout => ⟨hout.1, TagState.noConfusion⟩
  rw [he]
  rfl

theorem tagEnd_keeps (h0 : 0 ∉ text) (h : s.Inv text) (hidx : s.idx < text.length)
    (hint : (s.idx+1 : ℤ) ≤ intMax) {r : ParseStep} (hstep : s.tagEnd (text ++ [0]) = .ok r) :
    s.KeepsStep r := by
  unfold tagEnd at hstep
  cases he : s.pElement with
  | none =>
    rw [he] at hstep
    exact closeTag_keeps h0 h hidx hint hstep
  | some e =>
    rw [he] at hstep
    dsimp only at hstep
    split_ifs at hstep
    · obtain ⟨o, -, hstep⟩ := bind_eq_ok.mp hstep
      cases o with
      | none => exact closeTag_keeps h0 h hidx hint hstep
      | some k => exact takeCDATA_keeps he hstep
    · exact closeTag_keeps h0 h hidx hint hstep

theorem skipComment_keeps {k : ℕ} {r : ParseStep} (hstep : s.skipComment k = .ok r) :
    s.KeepsStep r := by
  obtain ⟨p, hdrop, -, -⟩ := s.xml.dropText_eq
  unfold skipComment at hstep
  rw [hdrop] at hstep
  cases hstep
  exact Keeps.of_eq rfl rfl fun hout => ⟨hout.1, TagState.noConfusion⟩

theorem branch_keeps (h0 : 0 ∉ text) (h : s.Inv text) (hidx : s.idx < text.length)
    (hint : (s.idx+1 : ℤ) ≤ intMax) {ch : Byte} {r : ParseStep}
    (hstep : s.branch (text ++ [0]) ch = .ok r) : s.KeepsStep r := by
  unfold branch at hstep
  cases hstate : s.iState with
  | tagScan =>
    rw [hstate] at hstep
    exact tagScan_keeps hstep
  | tagBegin =>
    rw [hstate] at hstep
    exact tagBegin_keeps hstep
  | tagProcess =>
    rw [hstate] at hstep
    exact tagProcess_keeps h0 h hidx hint hstate hstep
  | tagEnd =>
    rw [hstate] at hstep
    exact tagEnd_keeps h0 h hidx hint hstep

theorem step_keeps (h0 : 0 ∉ text) (h : s.Inv text) {r : ParseStep}
    (hstep : s.step (text ++ [0]) = .ok r) : s.KeepsStep r := by
  cases hdrop : text.drop s.idx with
  | nil =>
    rw [step_end h0 h.idx_le hdrop] at hstep
    split_ifs at hstep
    cases hstep
    rfl
  | cons ch rest =>
    have hidx := lt_of_drop_cons hdrop
    rw [step_cons h0 hdrop] at hstep
    split_ifs at hstep with hint
    cases hk : s.comment text with
    | some k =>
      rw [hk] at hstep
      exact skipComment_keeps hstep
    | none =>
      rw [hk] at hstep
      exact (branch_keeps h0 (h.markup (text ++ [0]) ch) (by rw [markup_idx]; exact hidx)
        (by rw [markup_idx]; exact hint) hstep).of_markup

/-- The element at the place has the attributes, and its tag is over. -/
def Settled (n : ℕ) (l : List (Bytes × Bytes)) (s : ParseState) : Prop :=
  (attributeLists s.finish)[n]? = some l ∧ (s.Outside ∨ n < (attributeLists s.xml).length)

theorem getElem?_of_isPrefix {α : Type} {l l' : List α} (h : l <+: l') {n : ℕ} {a : α}
    (hn : l[n]? = some a) : l'[n]? = some a := by
  obtain ⟨r, rfl⟩ := h
  rw [List.getElem?_append_left (List.getElem?_eq_some_iff.mp hn).1]
  exact hn

variable {n : ℕ} {l : List (Bytes × Bytes)}

theorem Settled.next (hs : s.Settled n l) (h : s.Keeps t) : t.Settled n l := by
  have hlast : attributeLists t.xml <+: attributeLists t.finish := by
    rw [attributeLists_finish]
    exact List.prefix_append _ _
  obtain ⟨hn, hout⟩ := hs
  by_cases hlt : n < (attributeLists s.xml).length
  · rw [attributeLists_finish, List.getElem?_append_left hlt] at hn
    exact ⟨getElem?_of_isPrefix (h.earlier.trans hlast) hn,
      .inr (hlt.trans_le h.earlier.length_le)⟩
  · obtain ⟨hall, hrest⟩ := h.current (hout.resolve_right hlt)
    refine ⟨getElem?_of_isPrefix hall hn, hrest.imp id fun hearlier => ?_⟩
    exact (List.getElem?_eq_some_iff.mp hn).1.trans_le hearlier.length_le

theorem Settled.steps (h0 : 0 ∉ text) (hinv : s.Inv text) (hs : s.Settled n l)
    (hsteps : Relation.ReflTransGen (Next text) s t) : t.Settled n l := by
  induction hsteps with
  | refl => exact hs
  | tail hrun hlast ih => exact ih.next (step_keeps h0 (hinv.steps h0 hrun).1 hlast)

/-- The loop ends in a round that is reached. -/
theorem loop_cases {fuel : ℕ} {code : ℤ} {xml : XmlParser}
    (hloop : loop (text ++ [0]) fuel s = .ok (code, xml)) :
    ∃ t, Relation.ReflTransGen (Next text) s t ∧ t.step (text ++ [0]) = .ok (.done code xml) := by
  induction fuel generalizing s with
  | zero => cases hloop
  | succ fuel ih =>
    unfold loop at hloop
    obtain ⟨r, hstep, hloop⟩ := bind_eq_ok.mp hloop
    cases r with
    | next u =>
      obtain ⟨t, hrun, ht⟩ := ih hloop
      exact ⟨t, hrun.head hstep, ht⟩
    | done code' xml' =>
      cases hloop
      exact ⟨s, .refl, hstep⟩

/-- Of two states that a run gets to, one is reached from the other. -/
theorem steps_total {u : ParseState} (ht : Relation.ReflTransGen (Next text) s t)
    (hu : Relation.ReflTransGen (Next text) s u) :
    Relation.ReflTransGen (Next text) t u ∨ Relation.ReflTransGen (Next text) u t :=
  Relation.ReflTransGen.total_of_right_unique
    (fun _ _ _ h h' => by cases h.symm.trans h'; rfl) ht hu

/-- The round that ends the loop is reached from every state on the way. -/
theorem steps_to_last {u : ParseState} (ht : Relation.ReflTransGen (Next text) s t)
    (hu : Relation.ReflTransGen (Next text) s u) {code : ℤ} {xml : XmlParser}
    (hdone : u.step (text ++ [0]) = .ok (.done code xml)) :
    Relation.ReflTransGen (Next text) t u := by
  rcases steps_total ht hu with h | h
  · exact h
  · -- there is no round behind the last one
    cases h.cases_head with
    | inl heq => exact heq ▸ .refl
    | inr hnext =>
      obtain ⟨v, hv, -⟩ := hnext
      cases hdone.symm.trans hv

/-- What `Parse` returns still has the attributes of an element whose tag was over on the way. -/
theorem Settled.of_loop (h0 : 0 ∉ text) (hinv : s.Inv text)
    (hrun : Relation.ReflTransGen (Next text) s t) (ht : t.Settled n l) {fuel : ℕ} {code : ℤ}
    {xml : XmlParser} (hloop : loop (text ++ [0]) fuel s = .ok (code, xml)) :
    (attributeLists xml)[n]? = some l := by
  obtain ⟨u, hu, hdone⟩ := loop_cases hloop
  have hsettled := ht.steps h0 (hinv.steps h0 hrun).1 (steps_to_last hrun hu hdone)
  have hkeep : xml.xmlElements = u.finish.xmlElements := step_keeps h0 (hinv.steps h0 hu).1 hdone
  unfold attributeLists
  rw [hkeep]
  exact hsettled.1

end ParseState

end MsgCourier
