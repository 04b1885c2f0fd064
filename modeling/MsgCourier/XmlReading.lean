import MsgCourier.XmlScanner

/-! Whole calls of `Parse`: what they return is what the scanner has read. -/
namespace MsgCourier
open ListSearch CText

namespace ParseState

variable {text rest : Bytes} {s t : ParseState} {a b : Scanner}

/-! ### Allocations -/

/-- The size that a branch asks of the working buffer. -/
def asked (text : Bytes) (ch : Byte) (s : ParseState) : Option ℕ :=
  match s.iState with
  | .tagScan => some (s.idx-s.iScanMarkStart+1)
  | .tagBegin =>
    if 0 < s.iScanMarkStart ∧ s.iLastState = .tagScan ∧ s.iScanMarkStart < s.idx then
      some (s.idx-s.iScanMarkStart+1)
    else none
  | .tagProcess => if s.Separates ch then some (s.idx-s.iAttribMarkStart+1) else none
  | .tagEnd => if s.marker text = none then some (s.idx-s.iTagMarkStart+1) else none

/-- The working buffer can have the size that the round asks for. -/
def Allocates (text : Bytes) (s : ParseState) : Prop :=
  match text.drop s.idx with
  | [] => True
  | ch :: _ => s.comment text = none →
      ∀ n ∈ (s.markup (text ++ [0]) ch).asked text ch,
        (roomFor s.xml.pWorkingBuffer.length n).isSome

/-- The branch gives up because the size it asks for is refused. -/
def Refused (n : ℕ) (s : ParseState) (code : ℤ) : Prop :=
  code = xmlliteparserAlloc ∧ roomFor s.xml.pWorkingBuffer.length n = none

theorem refused_of_check {xml : XmlParser} {n : ℕ} (hn : (n : ℤ) ≤ intMax)
    (hcheck : xml.checkWorkingBuffer n = .ok none) :
    roomFor xml.pWorkingBuffer.length n = none := by
  rcases xml.checkWorkingBuffer_cases hn with ⟨hnone, -⟩ | ⟨p, -, -, hsome⟩
  · exact hnone
  · cases hcheck.symm.trans hsome

theorem tagScan_done {ch : Byte} {code : ℤ} {xml : XmlParser} (hint : (s.idx+1 : ℤ) ≤ intMax)
    (hstep : s.tagScan ch = .ok (.done code xml)) : s.Refused (s.idx-s.iScanMarkStart+1) code := by
  have hpoke {x : XmlParser} : (poke x.pWorkingBuffer (s.idx-s.iScanMarkStart) ch >>= fun p =>
      pure (ParseStep.next { s with xml := { x with pWorkingBuffer := p }, idx := s.idx+1 })) ≠
        .ok (.done code xml) := by
    intro h
    obtain ⟨p, -, hp⟩ := bind_eq_ok.mp h
    cases hp
  unfold tagScan at hstep
  split_ifs at hstep
  · obtain ⟨o, hcheck, hstep⟩ := bind_eq_ok.mp hstep
    cases o with
    | none =>
      cases hstep
      exact ⟨rfl, refused_of_check (by omega) hcheck⟩
    | some x => exact absurd hstep hpoke
  · exact absurd hstep hpoke

theorem setValue_none (hint : (s.idx+1 : ℤ) ≤ intMax) (hvalue : s.setValue = .ok none) :
    roomFor s.xml.pWorkingBuffer.length (s.idx-s.iScanMarkStart+1) = none := by
  unfold setValue at hvalue
  obtain ⟨o, hcheck, hvalue⟩ := bind_eq_ok.mp hvalue
  cases o with
  | none => exact refused_of_check (by omega) hcheck
  | some x =>
    obtain ⟨p₁, -, hvalue⟩ := bind_eq_ok.mp hvalue
    obtain ⟨p₂, -, hvalue⟩ := bind_eq_ok.mp hvalue
    obtain ⟨p₃, -, hvalue⟩ := bind_eq_ok.mp hvalue
    obtain ⟨c, -, hvalue⟩ := bind_eq_ok.mp hvalue
    cases hpe : s.pElement with
    | none =>
      rw [hpe] at hvalue
      cases hvalue
    | some e =>
      rw [hpe] at hvalue
      dsimp only at hvalue
      split_ifs at hvalue
      · cases hvalue
      · obtain ⟨p₄, -, hvalue⟩ := bind_eq_ok.mp hvalue
        cases hvalue

theorem tagBegin_done {code : ℤ} {xml : XmlParser} (hint : (s.idx+1 : ℤ) ≤ intMax)
    (hstep : s.tagBegin = .ok (.done code xml)) :
    (0 < s.iScanMarkStart ∧ s.iLastState = .tagScan ∧ s.iScanMarkStart < s.idx) ∧
      s.Refused (s.idx-s.iScanMarkStart+1) code := by
  unfold tagBegin at hstep
  split_ifs at hstep with htext
  · obtain ⟨o, hvalue, hstep⟩ := bind_eq_ok.mp hstep
    cases o with
    | none =>
      cases hstep
      exact ⟨htext, rfl, setValue_none hint hvalue⟩
    | some u => cases hstep
  · cases hstep

theorem tagProcess_done {pszData : Bytes} {ch : Byte} {code : ℤ} {xml : XmlParser}
    (hint : (s.idx+1 : ℤ) ≤ intMax) (hstep : s.tagProcess pszData ch = .ok (.done code xml)) :
    s.Separates ch ∧ s.Refused (s.idx-s.iAttribMarkStart+1) code := by
  unfold tagProcess at hstep
  by_cases hquote : ch = 34
  · rw [if_pos hquote, hquote] at hstep
    cases hstep
  · rw [if_neg hquote] at hstep
    dsimp only at hstep
    split_ifs at hstep with hfirst hsep
    · cases hstep
    · obtain ⟨o, hcheck, hstep⟩ := bind_eq_ok.mp hstep
      cases o with
      | none =>
        cases hstep
        refine ⟨⟨?_, hsep.2⟩, rfl, refused_of_check (by omega) hcheck⟩
        exact hsep.1.imp (fun h32 => ⟨h32, fun hzero => hfirst ⟨h32, hzero⟩⟩) id
      | some x =>
        obtain ⟨u, -, hstep⟩ := bind_eq_ok.mp hstep
        cases hstep
    · cases hstep

theorem closeTag_done {pszData : Bytes} {code : ℤ} {xml : XmlParser}
    (hint : (s.idx+1 : ℤ) ≤ intMax) (hstep : s.closeTag pszData = .ok (.done code xml)) :
    s.Refused (s.idx-s.iTagMarkStart+1) code := by
  unfold closeTag at hstep
  obtain ⟨o, hcheck, hstep⟩ := bind_eq_ok.mp hstep
  cases o with
  | none =>
    cases hstep
    exact ⟨rfl, refused_of_check (by omega) hcheck⟩
  | some x =>
    obtain ⟨x', -, hstep⟩ := bind_eq_ok.mp hstep
    obtain ⟨n, -, hstep⟩ := bind_eq_ok.mp hstep
    obtain ⟨c, -, hstep⟩ := bind_eq_ok.mp hstep
    obtain ⟨p, -, hstep⟩ := bind_eq_ok.mp hstep
    obtain ⟨u, -, hstep⟩ := bind_eq_ok.mp hstep
    obtain ⟨v, -, hstep⟩ := bind_eq_ok.mp hstep
    cases hstep

theorem takeCDATA_done {pszData : Bytes} {e : XmlElement} {k : ℕ} {code : ℤ} {xml : XmlParser} :
    s.takeCDATA pszData e k ≠ .ok (.done code xml) := by
  intro hstep
  unfold takeCDATA at hstep
  dsimp only at hstep
  obtain ⟨n, -, hstep⟩ := bind_eq_ok.mp hstep
  obtain ⟨block, -, hstep⟩ := bind_eq_ok.mp hstep
  obtain ⟨o, -, hstep⟩ := bind_eq_ok.mp hstep
  cases hstep

theorem tagEnd_done (h0 : 0 ∉ text) (hidx : s.idx ≤ text.length) {code : ℤ} {xml : XmlParser}
    (hint : (s.idx+1 : ℤ) ≤ intMax) (hstep : s.tagEnd (text ++ [0]) = .ok (.done code xml)) :
    s.marker text = none ∧ s.Refused (s.idx-s.iTagMarkStart+1) code := by
  have hstarts := prefix_drop_iff text (show 0 ∉ bytes "<![CDATA" by decide) hidx
  unfold tagEnd at hstep
  unfold marker
  cases hpe : s.pElement with
  | none =>
    rw [hpe] at hstep
    exact ⟨if_neg fun h => Bool.noConfusion h.1, closeTag_done hint hstep⟩
  | some e =>
    rw [hpe] at hstep
    dsimp only at hstep
    by_cases hstart : bytes "<![CDATA" <+: text.drop s.idx
    · rw [if_pos (hstarts.mpr hstart), strstrAt_text h0 hidx, ok_bind] at hstep
      rw [if_pos ⟨rfl, hstart⟩]
      cases hk : firstOcc (bytes "]]>") (text.drop s.idx) with
      | none =>
        rw [hk] at hstep
        exact ⟨rfl, closeTag_done hint hstep⟩
      | some k =>
        rw [hk] at hstep
        exact absurd hstep takeCDATA_done
    · rw [if_neg fun h => hstart (hstarts.mp h)] at hstep
      exact ⟨if_neg fun h => hstart h.2, closeTag_done hint hstep⟩

theorem branch_done (h0 : 0 ∉ text) (hidx : s.idx ≤ text.length) {ch : Byte} {code : ℤ}
    {xml : XmlParser} (hint : (s.idx+1 : ℤ) ≤ intMax)
    (hstep : s.branch (text ++ [0]) ch = .ok (.done code xml)) :
    ∃ n ∈ s.asked text ch, s.Refused n code := by
  unfold branch at hstep
  unfold asked
  cases hstate : s.iState with
  | tagScan =>
    rw [hstate] at hstep
    exact ⟨_, rfl, tagScan_done hint hstep⟩
  | tagBegin =>
    rw [hstate] at hstep
    obtain ⟨htext, hrefused⟩ := tagBegin_done hint hstep
    exact ⟨_, if_pos htext, hrefused⟩
  | tagProcess =>
    rw [hstate] at hstep
    obtain ⟨hsep, hrefused⟩ := tagProcess_done hint hstep
    exact ⟨_, if_pos hsep, hrefused⟩
  | tagEnd =>
    rw [hstate] at hstep
    obtain ⟨hmarker, hrefused⟩ := tagEnd_done h0 hidx hint hstep
    exact ⟨_, if_pos hmarker, hrefused⟩

/-- The loop ends at the end of the text, or because the working buffer cannot grow. -/
theorem step_done (h0 : 0 ∉ text) (hidx : s.idx ≤ text.length) {code : ℤ} {xml : XmlParser}
    (hstep : s.step (text ++ [0]) = .ok (.done code xml)) :
    text.drop s.idx = [] ∧ code = xmlliteparserOk ∧ xml = s.finish ∨
      code = xmlliteparserAlloc ∧ ¬ s.Allocates text := by
  cases hdrop : text.drop s.idx with
  | nil =>
    rw [step_end h0 hidx hdrop] at hstep
    split_ifs at hstep
    cases hstep
    exact .inl ⟨rfl, rfl, rfl⟩
  | cons ch rest =>
    rw [step_cons h0 hdrop] at hstep
    split_ifs at hstep with hint
    cases hk : s.comment text with
    | some k =>
      rw [hk] at hstep
      obtain ⟨x, -, hskip⟩ := bind_eq_ok.mp hstep
      cases hskip
    | none =>
      rw [hk] at hstep
      have hxml : (s.markup (text ++ [0]) ch).xml = s.xml := by
        unfold ParseState.markup
        split_ifs <;> rfl
      obtain ⟨n, hn, hcode, hrefused⟩ := branch_done h0 (by rw [markup_idx]; exact hidx)
        (by rw [markup_idx]; exact hint) hstep
      rw [hxml] at hrefused
      refine .inr ⟨hcode, fun halloc => ?_⟩
      unfold Allocates at halloc
      rw [hdrop] at halloc
      have hsome := halloc hk n hn
      rw [hrefused] at hsome
      cases hsome

/-- A size that is refused ends the loop. -/
theorem branch_refused (h0 : 0 ∉ text) (hidx : s.idx ≤ text.length) {ch : Byte} {n : ℕ}
    (hint : (s.idx+1 : ℤ) ≤ intMax) (hn : n ∈ s.asked text ch)
    (hnone : roomFor s.xml.pWorkingBuffer.length n = none) :
    s.branch (text ++ [0]) ch = .ok (.done xmlliteparserAlloc s.finish) := by
  have hcheck {m : ℕ} (hm : some m = some n) (hle : m ≤ s.idx+1) :
      s.xml.checkWorkingBuffer m = .ok none := by
    obtain rfl := Option.some.inj hm
    rcases s.xml.checkWorkingBuffer_cases (n := m) (by omega) with ⟨-, h⟩ | ⟨p, h, -, -⟩
    · exact h
    · cases hnone.symm.trans h
  unfold asked at hn
  unfold branch
  cases hstate : s.iState with
  | tagScan =>
    rw [hstate] at hn
    have hsmall : s.xml.pWorkingBuffer.length < s.idx-s.iScanMarkStart+1 := by
      obtain rfl := Option.some.inj hn
      unfold roomFor at hnone
      split_ifs at hnone
      assumption
    dsimp only
    unfold tagScan
    rw [if_pos hsmall, hcheck hn (by omega)]
    rfl
  | tagBegin =>
    rw [hstate] at hn
    dsimp only at hn ⊢
    by_cases htext : 0 < s.iScanMarkStart ∧ s.iLastState = .tagScan ∧ s.iScanMarkStart < s.idx
    · rw [if_pos htext] at hn
      unfold tagBegin setValue
      rw [if_pos htext, hcheck hn (by omega)]
      rfl
    · rw [if_neg htext] at hn
      cases hn
  | tagProcess =>
    rw [hstate] at hn
    dsimp only at hn ⊢
    by_cases hsep : s.Separates ch
    · rw [if_pos hsep] at hn
      have hquote : ch ≠ 34 := by
        rintro rfl
        exact absurd hsep.1 (by simp)
      have hfirst : ¬ (ch = 32 ∧ s.iAttribMarkStart = 0) := by
        intro hfirst
        rcases hsep.1 with h | h
        · exact h.2 hfirst.2
        · exact absurd (hfirst.1.symm.trans h) (by decide)
      have hends : (ch = 32 ∨ ch = 9) ∧ s.inQoute = false := ⟨hsep.1.imp And.left id, hsep.2⟩
      unfold tagProcess
      rw [if_neg hquote]
      dsimp only
      rw [if_neg hfirst, if_pos hends, hcheck hn (by omega)]
      rfl
    · rw [if_neg hsep] at hn
      cases hn
  | tagEnd =>
    rw [hstate] at hn
    dsimp only at hn ⊢
    by_cases hmarker : s.marker text = none
    · rw [if_pos hmarker] at hn
      have hclose : s.closeTag (text ++ [0]) = .ok (.done xmlliteparserAlloc s.finish) := by
        unfold closeTag
        rw [hcheck hn (by omega)]
        rfl
      have hstarts := prefix_drop_iff text (show 0 ∉ bytes "<![CDATA" by decide) hidx
      unfold tagEnd
      unfold marker at hmarker
      cases hpe : s.pElement with
      | none => exact hclose
      | some e =>
        rw [hpe] at hmarker
        dsimp only
        by_cases hstart : bytes "<![CDATA" <+: text.drop s.idx
        · rw [if_pos ⟨rfl, hstart⟩] at hmarker
          rw [if_pos (hstarts.mpr hstart), strstrAt_text h0 hidx, hmarker, ok_bind]
          exact hclose
        · rw [if_neg fun h => hstart (hstarts.mp h)]
          exact hclose
    · rw [if_neg hmarker] at hn
      cases hn

/-- A round that goes on got what it asked for. -/
theorem allocates_of_next (h0 : 0 ∉ text) (hidx : s.idx ≤ text.length) (hnext : Next text s t) :
    s.Allocates text := by
  unfold Allocates
  cases hdrop : text.drop s.idx with
  | nil => trivial
  | cons ch rest =>
    intro hk n hn
    have hxml : (s.markup (text ++ [0]) ch).xml = s.xml := by
      unfold ParseState.markup
      split_ifs <;> rfl
    rw [← hxml]
    unfold Next at hnext
    rw [step_cons h0 hdrop, hk] at hnext
    dsimp only at hnext
    split_ifs at hnext with hint
    rw [← Option.ne_none_iff_isSome]
    intro hnone
    have hdone := branch_refused h0 (by rw [markup_idx]; exact hidx)
      (by rw [markup_idx]; exact hint)
      hn hnone
    cases hdone.symm.trans hnext

/-! ### Runs -/

/-- Every state of a run is one of the scanner's on its way to the end of the text. -/
theorem Tracks.steps (h0 : 0 ∉ text) (h : s.Tracks text a rest)
    (hend : Scanner.Reads (a, rest) (b, [])) (hrun : Relation.ReflTransGen (Next text) s t) :
    ∃ a' rest', Scanner.Reads (a', rest') (b, []) ∧ t.Tracks text a' rest' := by
  induction hrun with
  | refl => exact ⟨a, rest, hend, h⟩
  | tail hrun hlast ih =>
    obtain ⟨a', rest', hend', h'⟩ := ih
    have hne : rest' ≠ [] := by
      intro hnil
      have hstop := step_end h0 h'.inv.idx_le (h'.drop_eq.trans hnil)
      split_ifs at hstop
      · cases hstop.symm.trans hlast
      · cases hstop.symm.trans hlast
    obtain ⟨d, hd⟩ := hend'.goes_on hne
    obtain ⟨a'', rest'', hread, h''⟩ := h'.next h0 hlast hd
    exact ⟨a'', rest'', hend'.to_end hread, h''⟩

end ParseState

namespace XmlParser

variable {text : Bytes} {xml x : XmlParser} {b : Scanner}

/-- The scanner starts where the parser does. -/
theorem SplitOK.tracks (h : xml.SplitOK) : xml.start.Tracks text {} text where
  inv := h.start
  input := rfl
  idx := rfl
  inQoute := rfl
  tag := rfl
  attrib := rfl
  unmarked := iff_of_true rfl rfl
  elements := rfl
  pElement := rfl
  mode := ⟨rfl, .inl rfl⟩

/-- Of a text that the scanner reads to its end, `Parse` returns what the scanner has. -/
theorem elements_of_parse (hused : Relation.ReflTransGen Parsed {} xml) (h0 : 0 ∉ text)
    (hread : Scanner.Reads ({}, text) (b, []))
    (hparse : xml.parse text = .ok (xmlliteparserOk, x)) :
    x.xmlElements = b.finish := by
  have htracks : xml.start.Tracks text {} text := (splitOK_of_parsed hused).tracks
  obtain ⟨t, hrun, hdone⟩ := ParseState.loop_cases hparse
  obtain ⟨a, rest, hend, h⟩ := htracks.steps h0 hread hrun
  rcases ParseState.step_done h0 h.inv.idx_le hdone with ⟨hdrop, -, rfl⟩ | ⟨hcode, -⟩
  · rw [h.drop_eq.symm.trans hdrop] at hend
    cases hend.end_eq
    unfold Scanner.finish
    rw [← h.elements, ← h.pElement]
    rfl
  · exact absurd hcode (by decide)

/-- A call returns without an error if and only if all its rounds have their room. -/
theorem parse_ok_iff (hused : Relation.ReflTransGen Parsed {} xml) (h0 : 0 ∉ text) :
    (∃ x, xml.parse text = .ok (xmlliteparserOk, x)) ↔
      ∀ s, xml.Reached text s → s.RoundOK text ∧ s.Allocates text := by
  have hinv : xml.start.Inv text := (splitOK_of_parsed hused).start
  have hidx {s : ParseState} (hs : xml.Reached text s) : s.idx ≤ text.length :=
    (hinv.steps h0 hs).1.idx_le
  have hbounds : (∃ r, xml.parse text = .ok r) ↔ ∀ s, xml.Reached text s → s.RoundOK text :=
    ParseState.loop_iff h0 hinv (show text.length < 0+(text.length+1) by omega)
  constructor
  · intro hok s hs
    obtain ⟨x, hparse⟩ := hok
    refine ⟨hbounds.mp ⟨_, hparse⟩ s hs, ?_⟩
    obtain ⟨t, hrun, hdone⟩ := ParseState.loop_cases hparse
    -- the state is the last one, or the loop goes on there
    cases (ParseState.steps_to_last hs hrun hdone).cases_head with
    | inl heq =>
      subst heq
      rcases ParseState.step_done h0 (hidx hs) hdone with ⟨hdrop, -⟩ | ⟨hcode, -⟩
      · unfold ParseState.Allocates
        rw [hdrop]
        trivial
      · exact absurd hcode (by decide)
    | inr hnext =>
      obtain ⟨u, hu, -⟩ := hnext
      exact ParseState.allocates_of_next h0 (hidx hs) hu
  · intro hroom
    obtain ⟨⟨code, x⟩, hparse⟩ := hbounds.mpr fun s hs => (hroom s hs).1
    obtain ⟨t, hrun, hdone⟩ := ParseState.loop_cases hparse
    rcases ParseState.step_done h0 (hidx hrun) hdone with ⟨-, rfl, -⟩ | ⟨-, hno⟩
    · exact ⟨x, hparse⟩
    · exact absurd (hroom t hrun).2 hno

end XmlParser

end MsgCourier
