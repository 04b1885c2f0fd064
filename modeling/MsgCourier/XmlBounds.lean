import MsgCourier.XmlContent
import Mathlib.Logic.Relation

/-! Every access of `Parse` to its buffers and to its input, over all states that a run reaches. -/
namespace MsgCourier
open ListSearch CText

namespace ParseState

/-! ### The condition of a round -/

/-- The end of a comment that starts at the index. -/
def comment (text : Bytes) (s : ParseState) : Option ℕ :=
  if bytes "<!--" <+: text.drop s.idx then firstOcc (bytes "-->") (text.drop s.idx) else none

/-- The end of a section that starts at the index behind an element. -/
def marker (text : Bytes) (s : ParseState) : Option ℕ :=
  if s.pElement.isSome ∧ bytes "<![CDATA" <+: text.drop s.idx then
    firstOcc (bytes "]]>") (text.drop s.idx)
  else none

/-- A space or a tab outside quotes that ends an attribute. -/
def Separates (ch : Byte) (s : ParseState) : Prop :=
  (ch = 32 ∧ s.iAttribMarkStart ≠ 0 ∨ ch = 9) ∧ s.inQoute = false

instance (ch : Byte) (s : ParseState) : Decidable (s.Separates ch) :=
  inferInstanceAs (Decidable (_ ∧ _))

/-- The branch of the state has room in the buffers and stays inside the input. -/
def BranchOK (text : Bytes) (ch : Byte) (s : ParseState) : Prop :=
  match s.iState with
  | .tagScan => s.xml.pWorkingBuffer = [] → s.idx-s.iScanMarkStart < initialWorkingBufferSize
  | .tagBegin => True
  | .tagProcess => s.Separates ch →
      ∀ size, roomFor s.xml.pWorkingBuffer.length (s.idx-s.iAttribMarkStart+1) = some size →
        AttribOK text s.iAttribMarkStart s.idx size
  | .tagEnd =>
    match s.marker text with
    | some k => s.idx+k+5 ≤ text.length
    | none => ∀ size, roomFor s.xml.pWorkingBuffer.length (s.idx-s.iTagMarkStart+1) = some size →
        CloseOK text s size

/-- The round that starts in the state goes on inside the buffers and the input. -/
def RoundOK (text : Bytes) (s : ParseState) : Prop :=
  match text.drop s.idx with
  | [] => (s.idx : ℤ) ≤ intMax
  | ch :: _ => (s.idx+1 : ℤ) ≤ intMax ∧
      (s.comment text = none → (s.markup (text ++ [0]) ch).BranchOK text ch)

/-! ### The invariant of the loop -/

/-- The marks are behind the index, and what a branch needs is there. -/
structure Inv (text : Bytes) (s : ParseState) : Prop where
  idx_le : s.idx ≤ text.length
  tagMark : s.iTagMarkStart ≤ s.idx
  attribMark : s.iAttribMarkStart ≤ s.idx
  scanMark : s.iScanMarkStart ≤ s.idx
  split : s.xml.SplitOK
  scanned : 0 < s.iScanMarkStart → s.xml.pWorkingBuffer ≠ []
  element : s.iState = .tagProcess ∨ s.iAttribMarkStart ≠ 0 → s.pElement.isSome

/-- A step goes on to a state behind the index, and the invariant holds there, or it ends
the loop. -/
def Goes (text : Bytes) (idx : ℕ) : ParseStep → Prop
  | .next t => t.Inv text ∧ idx < t.idx
  | .done _ xml => xml.SplitOK

/-- The condition decides whether the computation goes on or makes an access that is none. -/
def Fares (text : Bytes) (idx : ℕ) (ok : Prop) (x : Cxx ParseStep) : Prop :=
  (ok → ∃ r, x = .ok r ∧ Goes text idx r) ∧ (¬ ok → x = .error .undefined)

theorem Fares.of_ok {text : Bytes} {idx : ℕ} {ok : Prop} {x : Cxx ParseStep} (h : ok)
    (hx : ∃ r, x = .ok r ∧ Goes text idx r) : Fares text idx ok x :=
  ⟨fun _ => hx, fun hn => absurd h hn⟩

theorem Fares.of_error {text : Bytes} {idx : ℕ} {ok : Prop} {x : Cxx ParseStep} (h : ¬ ok)
    (hx : x = .error .undefined) : Fares text idx ok x :=
  ⟨fun hok => absurd hok h, fun _ => hx⟩

variable {text : Bytes} {s : ParseState}

theorem Inv.markup (h : s.Inv text) (pszData : Bytes) (ch : Byte) :
    (s.markup pszData ch).Inv text := by
  unfold ParseState.markup
  split_ifs
  · exact ⟨h.idx_le, h.tagMark, h.attribMark, h.scanMark, h.split, h.scanned,
      fun hor => h.element (Or.inr (hor.resolve_left (by simp)))⟩
  · exact ⟨h.idx_le, h.tagMark, h.attribMark, h.scanMark, h.split, h.scanned,
      fun hor => h.element (Or.inr (hor.resolve_left (by simp)))⟩
  · exact ⟨h.idx_le, h.tagMark, h.attribMark, h.scanMark, h.split, h.scanned,
      fun hor => h.element (Or.inr (hor.resolve_left (by simp)))⟩
  · exact h

/-- A buffer that is there gets at least the size that is asked for. -/
theorem le_roomFor {size n m : ℕ} (h : roomFor size n = some m) (hsize : size ≠ 0) : n ≤ m := by
  unfold roomFor at h
  rw [if_neg hsize] at h
  split_ifs at h with hlt hfit
  · cases h
    omega
  · cases h
    omega

theorem pos_of_roomFor {size n m : ℕ} (h : roomFor size n = some m) : 0 < m := by
  unfold roomFor at h
  split_ifs at h with hzero hlt hfit
  · cases h
    decide
  · cases h
    omega
  · cases h
    omega

theorem tagScan_fares (h : s.Inv text) (hidx : s.idx < text.length)
    (hint : (s.idx+1 : ℤ) ≤ intMax) (ch : Byte) :
    Fares text s.idx
      (s.xml.pWorkingBuffer = [] → s.idx-s.iScanMarkStart < initialWorkingBufferSize)
      (s.tagScan ch) := by
  have hgoes {p : Bytes} (hp : p ≠ []) : Goes text s.idx
      (.next { s with xml := { s.xml with pWorkingBuffer := p }, idx := s.idx+1 }) := by
    have htag := h.tagMark
    have hattr := h.attribMark
    have hscan := h.scanMark
    refine ⟨⟨hidx, ?_, ?_, ?_, h.split, fun _ => hp, h.element⟩, Nat.lt_succ_self _⟩
    all_goals dsimp only
    all_goals omega
  have hpoke {xml : XmlParser} {p : Bytes} (hxml : xml = { s.xml with pWorkingBuffer := p })
      (hp : s.idx-s.iScanMarkStart < p.length) : ∃ r,
      (poke xml.pWorkingBuffer (s.idx-s.iScanMarkStart) ch >>= fun p => pure (ParseStep.next
        { s with xml := { xml with pWorkingBuffer := p }, idx := s.idx+1 })) = .ok r ∧
          Goes text s.idx r := by
    subst hxml
    obtain ⟨p', hp', hlen, -⟩ := poke_lt hp ch
    dsimp only
    rw [hp']
    refine ⟨_, rfl, hgoes fun hnil => ?_⟩
    rw [hnil] at hlen
    exact absurd hlen.symm (by rw [List.length_nil]; omega)
  unfold tagScan
  by_cases hsmall : s.xml.pWorkingBuffer.length < s.idx-s.iScanMarkStart+1
  · rw [if_pos hsmall]
    rcases s.xml.checkWorkingBuffer_cases (n := s.idx-s.iScanMarkStart+1) (by omega) with
      ⟨hnone, hcheck⟩ | ⟨p, hsome, -, hcheck⟩
    · have hne : s.xml.pWorkingBuffer ≠ [] := by
        intro hnil
        rw [hnil] at hnone
        cases hnone
      rw [hcheck]
      exact .of_ok (fun h => absurd h hne) ⟨_, rfl, h.split⟩
    · rw [hcheck]
      by_cases hnil : s.xml.pWorkingBuffer = []
      · -- the first allocation does not look at the size asked for
        rw [hnil] at hsome
        have hsize : initialWorkingBufferSize = p.length := Option.some.inj hsome
        by_cases hfit : s.idx-s.iScanMarkStart < initialWorkingBufferSize
        · exact .of_ok (fun _ => hfit) (hpoke rfl (hsize ▸ hfit))
        · rw [ok_bind]
          dsimp only
          rw [poke_fail ch (by omega)]
          exact .of_error (fun h => hfit (h hnil)) rfl
      · have hle := le_roomFor hsome fun h => hnil (List.length_eq_zero_iff.mp h)
        exact .of_ok (fun h => absurd h hnil) (hpoke rfl (by omega))
  · have hne : s.xml.pWorkingBuffer ≠ [] := by
      intro hnil
      rw [hnil] at hsmall
      exact hsmall (Nat.succ_pos _)
    rw [if_neg hsmall]
    exact .of_ok (fun h => absurd h hne) (hpoke rfl (Nat.lt_of_succ_le (not_lt.mp hsmall)))

theorem openTag_goes (h : s.Inv text) (hidx : s.idx < text.length) :
    Goes text s.idx (.next { s.getNewEntry {} with
      iScanMarkStart := 0, iTagMarkStart := s.idx, iLastState := s.iState, iState := .tagProcess,
      idx := s.idx+1 }) := by
  have hattr := h.attribMark
  refine ⟨⟨hidx, ?_, ?_, Nat.zero_le _, h.split, fun h0 => absurd h0 (lt_irrefl _),
    fun _ => rfl⟩, Nat.lt_succ_self _⟩
  all_goals dsimp only [getNewEntry]
  all_goals omega

/-- The buffer is there as soon as a tag has ended, and has the room for the text behind it. -/
theorem tagBegin_ok (h : s.Inv text) (hidx : s.idx < text.length) (hint : (s.idx+1 : ℤ) ≤ intMax) :
    ∃ r, s.tagBegin = .ok r ∧ Goes text s.idx r := by
  unfold tagBegin
  by_cases htext : 0 < s.iScanMarkStart ∧ s.iLastState = .tagScan ∧ s.iScanMarkStart < s.idx
  · rw [if_pos htext]
    rcases s.xml.checkWorkingBuffer_cases (n := s.idx-s.iScanMarkStart+1) (by omega) with
      ⟨hnone, hcheck⟩ | ⟨p, hsome, -, hcheck⟩
    · have hvalue : s.setValue = .ok none := by
        unfold setValue
        rw [hcheck]
        rfl
      rw [hvalue]
      exact ⟨_, rfl, h.split⟩
    · have hne := h.scanned htext.1
      have hle := le_roomFor hsome fun h => hne (List.length_eq_zero_iff.mp h)
      obtain ⟨p', hlen, hvalue⟩ := s.setValue_eq hint (by omega) hcheck
      have hnext : ParseState.Inv text { s with
          xml := { s.xml with pWorkingBuffer := p' }
          pElement := s.pElement.map fun e =>
            e.withValue (trimmed (cstr (p.take (s.idx-s.iScanMarkStart)))) } := by
        refine ⟨h.idx_le, h.tagMark, h.attribMark, h.scanMark, h.split, fun _ hnil => ?_,
          fun hor => by rw [Option.isSome_map]; exact h.element hor⟩
        dsimp only at hnil
        rw [hnil, List.length_nil] at hlen
        omega
      rw [hvalue]
      exact ⟨_, rfl, openTag_goes hnext hidx⟩
  · rw [if_neg htext]
    exact ⟨_, rfl, openTag_goes h hidx⟩

/-- Only a separator reads the buffers. -/
theorem tagProcess_fares (h0 : 0 ∉ text) (h : s.Inv text) (hidx : s.idx < text.length)
    (hint : (s.idx+1 : ℤ) ≤ intMax) (hstate : s.iState = .tagProcess) (ch : Byte) :
    Fares text s.idx (s.Separates ch → ∀ size,
        roomFor s.xml.pWorkingBuffer.length (s.idx-s.iAttribMarkStart+1) = some size →
          AttribOK text s.iAttribMarkStart s.idx size)
      (s.tagProcess (text ++ [0]) ch) := by
  have hsome := h.element (Or.inl hstate)
  have htag := h.tagMark
  have hattr := h.attribMark
  have hscan := h.scanMark
  -- whatever the branch does to the quotes, the buffers and the element, the index goes on
  have hgoes {t : ParseState} {mark : ℕ} (hmark : mark ≤ s.idx+1) (hidx' : t.idx = s.idx)
      (htag' : t.iTagMarkStart = s.iTagMarkStart) (hscan' : t.iScanMarkStart = s.iScanMarkStart)
      (hsplit : t.xml.SplitOK) (hwork : 0 < s.iScanMarkStart → t.xml.pWorkingBuffer ≠ [])
      (hpe : t.pElement.isSome) :
      Goes text s.idx (.next { t with iAttribMarkStart := mark, idx := t.idx+1 }) := by
    refine ⟨⟨?_, ?_, hmark.trans_eq (by rw [hidx']), ?_, hsplit, ?_, fun _ => hpe⟩, ?_⟩
    all_goals dsimp only
    · omega
    · omega
    · omega
    · rwa [hscan']
    · omega
  have hstay {t : ParseState} (ht : t = s ∨ t = { s with inQoute := ! s.inQoute }) {mark : ℕ}
      (hmark : mark ≤ s.idx+1) :
      Goes text s.idx (.next { t with iAttribMarkStart := mark, idx := t.idx+1 }) := by
    rcases ht with rfl | rfl
    · exact hgoes hmark rfl rfl rfl h.split h.scanned hsome
    · exact hgoes hmark rfl rfl rfl h.split h.scanned hsome
  unfold tagProcess
  by_cases hquote : ch = 34
  · subst hquote
    rw [if_pos rfl]
    exact .of_ok (fun h => absurd h.1 (by simp))
      ⟨_, rfl, hstay (Or.inr rfl) (Nat.le_succ_of_le hattr)⟩
  · rw [if_neg hquote]
    dsimp only
    by_cases hfirst : ch = 32 ∧ s.iAttribMarkStart = 0
    · rw [if_pos hfirst]
      obtain ⟨rfl, hzero⟩ := hfirst
      refine .of_ok (fun h => ?_) ⟨_, rfl, hstay (Or.inl rfl) (Nat.le_succ _)⟩
      exact absurd h.1 (by rw [hzero]; decide)
    · rw [if_neg hfirst]
      by_cases hsep : (ch = 32 ∨ ch = 9) ∧ s.inQoute = false
      · have hseparates : s.Separates ch := by
          refine ⟨?_, hsep.2⟩
          rcases hsep.1 with h32 | h9
          · exact Or.inl ⟨h32, fun hzero => hfirst ⟨h32, hzero⟩⟩
          · exact Or.inr h9
        rw [if_pos hsep]
        rcases s.xml.checkWorkingBuffer_cases (n := s.idx-s.iAttribMarkStart+1) (by omega) with
          ⟨hnone, hcheck⟩ | ⟨p, hroom, -, hcheck⟩
        · rw [hcheck]
          refine .of_ok (fun _ size hsize => ?_) ⟨_, rfl, h.split⟩
          rw [hnone] at hsize
          cases hsize
        · obtain ⟨e, he⟩ := Option.isSome_iff_exists.mp hsome
          have hpos := pos_of_roomFor hroom
          have htake := takeAttribute_eq h0 { s with xml := { s.xml with pWorkingBuffer := p } }
            hattr hidx hint h.split he
          rw [hcheck, ok_bind]
          dsimp only at htake ⊢
          by_cases hok : AttribOK text s.iAttribMarkStart s.idx p.length
          · rw [if_pos hok] at htake
            obtain ⟨xml', htake, hlen, -, hsplit⟩ := htake
            apply Fares.of_ok
            · intro _ size hsize
              rw [hroom] at hsize
              exact Option.some.inj hsize ▸ hok
            · rw [htake]
              refine ⟨_, rfl, hgoes (Nat.le_succ _) rfl rfl rfl hsplit (fun _ hnil => ?_) rfl⟩
              dsimp only at hnil
              rw [hnil, List.length_nil] at hlen
              omega
          · rw [if_neg hok] at htake
            rw [htake]
            exact .of_error (fun h => hok (h hseparates _ hroom)) rfl
      · rw [if_neg hsep]
        refine .of_ok (fun h => absurd ⟨?_, h.2⟩ hsep)
          ⟨_, rfl, hstay (Or.inl rfl) (Nat.le_succ_of_le hattr)⟩
        exact h.1.imp And.left id

theorem closeTag_fares (h0 : 0 ∉ text) (h : s.Inv text) (hidx : s.idx < text.length)
    (hint : (s.idx+1 : ℤ) ≤ intMax) :
    Fares text s.idx
      (∀ size, roomFor s.xml.pWorkingBuffer.length (s.idx-s.iTagMarkStart+1) = some size →
        CloseOK text s size)
      (s.closeTag (text ++ [0])) := by
  rcases s.xml.checkWorkingBuffer_cases (n := s.idx-s.iTagMarkStart+1) (by omega) with
    ⟨hnone, hcheck⟩ | ⟨p, hsome, -, hcheck⟩
  · apply Fares.of_ok
    · intro size hsize
      rw [hnone] at hsize
      cases hsize
    · unfold closeTag
      rw [hcheck]
      exact ⟨_, rfl, h.split⟩
  · have hpos := pos_of_roomFor hsome
    have hclose := s.closeTag_eq h0 h.tagMark h.attribMark hidx hint h.split
      (fun hne => h.element (Or.inr hne)) hcheck
    by_cases hok : CloseOK text s p.length
    · rw [if_pos hok] at hclose
      obtain ⟨xml', hclose, hlen, hsplit, -⟩ := hclose
      apply Fares.of_ok
      · intro size hsize
        rw [hsome] at hsize
        exact Option.some.inj hsize ▸ hok
      · refine ⟨_, hclose, ⟨hidx, Nat.zero_le _, Nat.zero_le _, le_rfl, hsplit, fun _ hnil => ?_,
          fun hor => ?_⟩, Nat.lt_succ_self _⟩
        · dsimp only at hnil
          rw [hnil, List.length_nil] at hlen
          omega
        · rcases hor with h | h
          · cases h
          · exact absurd rfl h
    · rw [if_neg hok] at hclose
      exact .of_error (fun h => hok (h _ hsome)) hclose

theorem tagEnd_fares (h0 : 0 ∉ text) (h : s.Inv text) (hidx : s.idx < text.length)
    (hint : (s.idx+1 : ℤ) ≤ intMax) :
    Fares text s.idx
      (match s.marker text with
        | some k => s.idx+k+5 ≤ text.length
        | none => ∀ size,
            roomFor s.xml.pWorkingBuffer.length (s.idx-s.iTagMarkStart+1) = some size →
              CloseOK text s size)
      (s.tagEnd (text ++ [0])) := by
  have hclose := closeTag_fares h0 h hidx hint
  have hstarts := prefix_drop_iff text (show 0 ∉ bytes "<![CDATA" by decide) hidx.le
  unfold tagEnd marker
  cases hpe : s.pElement with
  | none =>
    rw [if_neg fun h => by cases h.1]
    exact hclose
  | some e =>
    dsimp only
    by_cases hstart : bytes "<![CDATA" <+: text.drop s.idx
    · rw [if_pos ⟨rfl, hstart⟩, if_pos (hstarts.mpr hstart), strstrAt_text h0 hidx.le, ok_bind]
      cases hk : firstOcc (bytes "]]>") (text.drop s.idx) with
      | none => exact hclose
      | some k =>
        dsimp only
        have htake := takeCDATA_eq h0 s e hstart hk
        by_cases hfit : s.idx+k+5 ≤ text.length
        · rw [if_pos hfit] at htake
          obtain ⟨block, htake, -⟩ := htake
          -- the index goes on to the next tag, or stays where the section ends
          have hnext : (firstOcc [60] (text.drop (s.idx+k+5))).getD 0 ≤
              text.length-(s.idx+k+5) := by
            cases hj : firstOcc [60] (text.drop (s.idx+k+5)) with
            | none => exact Nat.zero_le _
            | some j =>
              have hle := firstOcc_le _ hj
              rw [List.length_drop] at hle
              exact (Nat.le_add_right j _).trans hle
          have htag := h.tagMark
          have hattr := h.attribMark
          have hscan := h.scanMark
          refine .of_ok hfit ⟨_, htake, ⟨?_, ?_, ?_, ?_, h.split, h.scanned, fun _ => rfl⟩, ?_⟩
          all_goals dsimp only
          all_goals omega
        · rw [if_neg hfit] at htake
          exact .of_error hfit htake
    · rw [if_neg fun h => hstart h.2, if_neg fun h => hstart (hstarts.mp h)]
      exact hclose

/-- A comment is skipped up to its end. -/
theorem skipComment_goes (h : s.Inv text) {k : ℕ} (hk : s.comment text = some k) :
    ∃ r, s.skipComment k = .ok r ∧ Goes text s.idx r := by
  have hend : s.idx+(k+3) ≤ text.length := by
    unfold comment at hk
    split_ifs at hk
    have hle := firstOcc_le _ hk
    rw [show (bytes "-->").length = 3 from rfl, List.length_drop] at hle
    omega
  obtain ⟨p, hdrop, hlen, -⟩ := s.xml.dropText_eq
  have hne (hp : s.xml.pWorkingBuffer ≠ []) : p ≠ [] := by
    intro hnil
    rw [hnil, List.length_nil] at hlen
    exact hp (List.length_eq_zero_iff.mp hlen.symm)
  have htag := h.tagMark
  have hattr := h.attribMark
  have hscan := h.scanMark
  unfold skipComment
  rw [hdrop]
  refine ⟨_, rfl, ⟨hend, ?_, ?_, ?_, h.split, fun h0 => hne (h.scanned h0),
    fun hor => h.element (Or.inr (hor.resolve_left (by simp)))⟩, ?_⟩
  all_goals dsimp only
  all_goals omega

/-- The branch of the loop. -/
def branch (pszData : Bytes) (ch : Byte) (s : ParseState) : Cxx ParseStep :=
  match s.iState with
  | .tagScan => s.tagScan ch
  | .tagBegin => s.tagBegin
  | .tagProcess => s.tagProcess pszData ch
  | .tagEnd => s.tagEnd pszData

theorem step_end (h0 : 0 ∉ text) (hidx : s.idx ≤ text.length) (hdrop : text.drop s.idx = []) :
    s.step (text ++ [0]) = if (s.idx : ℤ) ≤ intMax then .ok (.done xmlliteparserOk s.finish)
      else .error .undefined := by
  have hread : peek (text ++ [0]) s.idx = .ok 0 := by
    rw [(TextBlock.mk text [] h0).peek_eq hidx, hdrop]
    rfl
  unfold step
  rw [hread, ok_bind]
  rw [if_pos rfl, add_zero]
  by_cases hint : (s.idx : ℤ) ≤ intMax
  · rw [if_neg (not_lt.mpr hint), if_pos rfl, if_pos hint]
    rfl
  · rw [if_pos (not_le.mp hint), if_neg hint]

theorem lt_of_drop_cons {ch : Byte} {rest : Bytes} (hdrop : text.drop s.idx = ch :: rest) :
    s.idx < text.length := by
  by_contra hge
  rw [List.drop_eq_nil_of_le (by omega)] at hdrop
  cases hdrop

/-- A round that reads a byte. -/
theorem step_cons (h0 : 0 ∉ text) {ch : Byte} {rest : Bytes}
    (hdrop : text.drop s.idx = ch :: rest) :
    s.step (text ++ [0]) = if (s.idx+1 : ℤ) ≤ intMax then
        match s.comment text with
        | some k => s.skipComment k
        | none => (s.markup (text ++ [0]) ch).branch (text ++ [0]) ch
      else .error .undefined := by
  have hidx := lt_of_drop_cons hdrop
  have hch : ch ≠ 0 := by
    rintro rfl
    exact h0 (List.mem_of_mem_drop (hdrop ▸ List.mem_cons_self))
  have hread : peek (text ++ [0]) s.idx = .ok ch := by
    rw [(TextBlock.mk text [] h0).peek_eq hidx.le, hdrop]
    rfl
  have hcomment : s.commentEnd (text ++ [0]) = .ok (s.comment text) := by
    have hstarts := prefix_drop_iff text (show 0 ∉ bytes "<!--" by decide) hidx.le
    unfold commentEnd comment
    by_cases hstart : bytes "<!--" <+: text.drop s.idx
    · rw [if_pos hstart, if_pos (hstarts.mpr hstart), strstrAt_text h0 hidx.le]
    · rw [if_neg hstart, if_neg fun h => hstart (hstarts.mp h)]
      rfl
  unfold step
  rw [hread, ok_bind]
  rw [if_neg hch]
  by_cases hint : (s.idx+1 : ℤ) ≤ intMax
  · rw [if_neg (not_lt.mpr hint), if_neg hch, if_pos hint, hcomment, ok_bind]
    cases s.comment text with
    | some k => rfl
    | none => rfl
  · rw [if_pos (not_le.mp hint), if_neg hint]

theorem markup_idx (pszData : Bytes) (ch : Byte) : (s.markup pszData ch).idx = s.idx := by
  unfold ParseState.markup
  split_ifs <;> rfl

theorem branch_fares (h0 : 0 ∉ text) (h : s.Inv text) (hidx : s.idx < text.length)
    (hint : (s.idx+1 : ℤ) ≤ intMax) (ch : Byte) :
    Fares text s.idx (s.BranchOK text ch) (s.branch (text ++ [0]) ch) := by
  unfold branch BranchOK
  cases hstate : s.iState with
  | tagScan => exact tagScan_fares h hidx hint ch
  | tagBegin => exact .of_ok trivial (tagBegin_ok h hidx hint)
  | tagProcess => exact tagProcess_fares h0 h hidx hint hstate ch
  | tagEnd => exact tagEnd_fares h0 h hidx hint

theorem step_fares (h0 : 0 ∉ text) (h : s.Inv text) :
    Fares text s.idx (s.RoundOK text) (s.step (text ++ [0])) := by
  unfold RoundOK
  cases hdrop : text.drop s.idx with
  | nil =>
    rw [step_end h0 h.idx_le hdrop]
    by_cases hint : (s.idx : ℤ) ≤ intMax
    · rw [if_pos hint]
      exact .of_ok hint ⟨_, rfl, h.split⟩
    · rw [if_neg hint]
      exact .of_error hint rfl
  | cons ch rest =>
    have hidx := lt_of_drop_cons hdrop
    rw [step_cons h0 hdrop]
    by_cases hint : (s.idx+1 : ℤ) ≤ intMax
    · rw [if_pos hint]
      cases hk : s.comment text with
      | some k => exact .of_ok ⟨hint, fun h => by cases h⟩ (skipComment_goes h hk)
      | none =>
        have hbranch := branch_fares h0 (h.markup (text ++ [0]) ch)
          (by rw [markup_idx]; exact hidx) (by rw [markup_idx]; exact hint) ch
        rw [markup_idx] at hbranch
        exact ⟨fun hok => hbranch.1 (hok.2 rfl), fun hno => hbranch.2 fun hok =>
          hno ⟨hint, fun _ => hok⟩⟩
    · rw [if_neg hint]
      exact .of_error (fun h => hint h.1) rfl

/-! ### Runs -/

/-- One round leads from a state to the next one. -/
def Next (text : Bytes) (s t : ParseState) : Prop := s.step (text ++ [0]) = .ok (.next t)

/-- A loop that still has a round for every byte of the input ends as it should if and only if all
rounds do that it gets to. -/
theorem loop_iff (h0 : 0 ∉ text) {fuel : ℕ} (h : s.Inv text)
    (hfuel : text.length < s.idx+fuel) :
    (∃ r, loop (text ++ [0]) fuel s = .ok r) ↔
      ∀ t, Relation.ReflTransGen (Next text) s t → t.RoundOK text := by
  induction fuel generalizing s with
  | zero => exact absurd h.idx_le (by omega)
  | succ fuel ih =>
    have hfares := step_fares h0 h
    unfold loop
    by_cases hround : s.RoundOK text
    · obtain ⟨r, hstep, hgoes⟩ := hfares.1 hround
      rw [hstep, ok_bind]
      cases r with
      | done code xml =>
        refine iff_of_true ⟨_, rfl⟩ fun t ht => ?_
        cases ht.cases_head with
        | inl heq => exact heq ▸ hround
        | inr hnext =>
          obtain ⟨u, hu, -⟩ := hnext
          cases hstep.symm.trans hu
      | next u =>
        have hih := ih hgoes.1 (by have hlt := hgoes.2; omega)
        dsimp only
        rw [hih]
        constructor
        · intro hall t ht
          cases ht.cases_head with
          | inl heq => exact heq ▸ hround
          | inr hnext =>
            obtain ⟨u', hu', hrest⟩ := hnext
            cases hstep.symm.trans hu'
            exact hall t hrest
        · exact fun hall t ht => hall t (ht.head hstep)
    · rw [hfares.2 hround]
      refine iff_of_false (fun ⟨r, hr⟩ => by cases hr) fun hall => hround (hall s .refl)

/-- The buffers are left as a later call needs them. -/
theorem loop_split (h0 : 0 ∉ text) {fuel : ℕ} (h : s.Inv text) {r : ℤ × XmlParser}
    (hr : loop (text ++ [0]) fuel s = .ok r) : r.2.SplitOK := by
  induction fuel generalizing s with
  | zero => cases hr
  | succ fuel ih =>
    have hfares := step_fares h0 h
    unfold loop at hr
    obtain ⟨r', hstep, hr⟩ := bind_eq_ok.mp hr
    have hgoes : Goes text s.idx r' := by
      by_cases hround : s.RoundOK text
      · obtain ⟨r'', hstep', hgoes⟩ := hfares.1 hround
        obtain rfl := Except.ok.inj (hstep.symm.trans hstep')
        exact hgoes
      · cases hstep.symm.trans (hfares.2 hround)
    cases r' with
    | done code xml =>
      obtain rfl := Except.ok.inj hr
      exact hgoes
    | next u => exact ih hgoes.1 hr

end ParseState

namespace XmlParser

variable {text : Bytes} {xml : XmlParser}

/-- The state in which `Parse` enters its loop. -/
def start (xml : XmlParser) : ParseState := { xml := { xml with xmlElements := [] } }

/-- A state that the loop gets to. -/
def Reached (xml : XmlParser) (text : Bytes) (s : ParseState) : Prop :=
  Relation.ReflTransGen (ParseState.Next text) xml.start s

/-- An earlier call on another text. -/
def Parsed (xml xml' : XmlParser) : Prop :=
  ∃ text code, 0 ∉ text ∧ xml.parse text = .ok (code, xml')

theorem SplitOK.start (h : xml.SplitOK) : xml.start.Inv text where
  idx_le := Nat.zero_le _
  tagMark := le_rfl
  attribMark := le_rfl
  scanMark := le_rfl
  split := h
  scanned hpos := absurd hpos (lt_irrefl 0)
  element hor := by
    rcases hor with h | h
    · cases h
    · exact absurd rfl h

theorem splitOK_of_parsed (h : Relation.ReflTransGen Parsed {} xml) : xml.SplitOK := by
  induction h with
  | refl => exact Or.inl rfl
  | tail _ hlast ih =>
    obtain ⟨text, code, h0, hparse⟩ := hlast
    exact ParseState.loop_split h0 ih.start hparse

/-- For a parser with any history and for every text, `Parse` returns without an access outside its
buffers or its input if and only if no state that it gets to lacks the room for its round. -/
theorem parse_inBounds_iff (hused : Relation.ReflTransGen Parsed {} xml) (h0 : 0 ∉ text) :
    (∃ r, xml.parse text = .ok r) ↔ ∀ s, xml.Reached text s → s.RoundOK text :=
  ParseState.loop_iff h0 (splitOK_of_parsed hused).start
    (show text.length < 0+(text.length+1) by omega)

theorem parse_inBounds_of_element :
    (∃ r, ({} : XmlParser).parse (bytes "<a b=\"1\">c</a>") = .ok r) ∧
    ∀ s, ({} : XmlParser).Reached (bytes "<a b=\"1\">c</a>") s →
      s.RoundOK (bytes "<a b=\"1\">c</a>") := by
  refine (and_iff_left_of_imp (parse_inBounds_iff .refl (by decide)).mp).mpr ?_
  have hok : (({} : XmlParser).parse (bytes "<a b=\"1\">c</a>")).toBool = true := by
    decide +kernel
  cases hparse : ({} : XmlParser).parse (bytes "<a b=\"1\">c</a>") with
  | ok r => exact ⟨r, rfl⟩
  | error e =>
    rw [hparse] at hok
    cases hok

/-- The first byte of the input closes a tag. -/
theorem parse_outOfBounds : ¬ ∃ r, ({} : XmlParser).parse (bytes ">") = .ok r := by
  intro hok
  have hstart : ({} : XmlParser).start.Inv (bytes ">") := SplitOK.start (Or.inl rfl)
  have hround := (ParseState.loop_iff (by decide) hstart (by decide)).mp hok _ .refl
  -- the tag would be the one byte at the index
  exact (hround.2 rfl initialWorkingBufferSize rfl).1 rfl

end XmlParser

end MsgCourier
