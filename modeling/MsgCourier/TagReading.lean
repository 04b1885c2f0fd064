import MsgCourier.XmlAttributes

/-! How `Parse` reads a written tag, attribute by attribute. -/
namespace MsgCourier
open ListSearch CText

/-! ### Bytes of a written attribute -/

theorem notMem_escapedWith (apostrophes : Bool) (v : Bytes) :
    ∀ c ∈ escapedWith apostrophes v, c ≠ 60 ∧ c ≠ 62 ∧ c ≠ 34 := by
  intro c hc
  obtain ⟨b, -, hb⟩ := List.mem_flatMap.mp hc
  split_ifs at hb with hapos
  · rw [List.mem_singleton.mp hb, hapos.2]
    decide
  · unfold escapeChar at hb
    cases hfind : xmlEntities.find? (·.2 = b) with
    | some e =>
      rw [hfind] at hb
      have hall : ∀ e ∈ xmlEntities, ∀ c ∈ e.1, c ≠ 60 ∧ c ≠ 62 ∧ c ≠ 34 := by decide +kernel
      exact hall e (List.mem_of_find?_eq_some hfind) c hb
    | none =>
      rw [hfind] at hb
      obtain rfl := List.mem_singleton.mp hb
      have hspecial : ∀ e ∈ xmlEntities, c ≠ e.2 := fun e he h =>
        List.find?_eq_none.mp hfind e he (decide_eq_true h.symm)
      exact ⟨hspecial (bytes "&lt;", 60) (by decide), hspecial (bytes "&gt;", 62) (by decide),
        hspecial (bytes "&quot;", 34) (by decide)⟩

variable {text rest : Bytes} {s t : ParseState} {i n : ℕ} {P : ParseState → Prop}
  {e : XmlElement} {wanted : List (Bytes × Bytes)}

namespace ParseState

theorem passes_nameChar {c : Byte} (hc : isNameChar c) : s.Passes c := by
  have hne (d : Byte) (hd : ¬ isNameChar d) : c ≠ d := nameChar_ne hc hd
  refine ⟨hne 60 (by decide), hne 62 (by decide), hne 34 (by decide), fun h => ?_, fun h => ?_⟩
  · exact hne 32 (by decide) h.1
  · rcases h.1 with h | h
    · exact hne 32 (by decide) h
    · exact hne 9 (by decide) h

/-- The name, the equals sign and the value between its quotes are passed over. -/
theorem arrives_body (h0 : 0 ∉ text) (a : WrittenAttribute)
    (hdrop : text.drop s.idx = a.body ++ rest) (hstate : s.iState = .tagProcess)
    (hquote : s.inQoute = false) (hmark : s.iAttribMarkStart ≠ 0) (hint : (s.idx : ℤ) ≤ intMax)
    (hi : s.idx+a.body.length ≤ i) : Arrives text i P s ↔
      (s.idx+a.body.length : ℤ) ≤ intMax ∧ Arrives text i P (s.skip a.body.length) := by
  have hbody : a.body = (a.key ++ [61]) ++ 34 :: (a.escapedValue ++ [34]) := by
    unfold WrittenAttribute.body
    simp
  have hlen : a.body.length = (a.key ++ [61]).length+1+a.escapedValue.length+1 := by
    rw [hbody]
    simp only [List.length_append, List.length_cons, List.length_nil]
    omega
  -- the name and the equals sign
  have hname : text.drop s.idx = (a.key ++ [61]) ++ 34 :: (a.escapedValue ++ 34 :: rest) := by
    rw [hdrop, hbody]
    simp
  have hpass : ∀ c ∈ a.key ++ [61], s.Passes c := by
    intro c hc
    rcases List.mem_append.mp hc with hc | hc
    · exact passes_nameChar (a.named.2 c hc)
    · rw [List.mem_singleton.mp hc]
      exact ⟨by decide, by decide, by decide, fun h => absurd h.1 (by decide),
        fun h => absurd h.1 (by decide)⟩
  have hskip := arrives_skip (P := P) h0 hname hstate hpass hint (show _ ≤ i by omega)
  have hsign := drop_skip hname
  generalize (a.key ++ [61]).length = k at hlen hskip hsign
  -- the value, inside the quotes
  let u : ParseState := { s with inQoute := ! s.inQoute, idx := s.idx+k+1 }
  have hopen : Arrives text i P (s.skip k) ↔
      (s.idx+k+1 : ℤ) ≤ intMax ∧ Arrives text i P u := by
    have hquote := arrives_quote (P := P) h0 hsign hstate (show (s.skip k).idx < i by
      change s.idx+k < i
      omega)
    exact_mod_cast hquote
  have hvalue : text.drop u.idx = a.escapedValue ++ 34 :: rest := by
    change text.drop (s.idx+k+1) = _
    rw [← List.drop_drop, show text.drop (s.idx+k) = _ from hsign]
    rfl
  have hinside : ∀ c ∈ a.escapedValue, u.Passes c := by
    intro c hc
    obtain ⟨hlt, hgt, hsame⟩ := notMem_escapedWith a.apostrophes a.value c hc
    refine ⟨hlt, hgt, hsame, fun h => hmark h.2, fun h => ?_⟩
    have hin : (! s.inQoute) = false := h.2
    rw [hquote] at hin
    cases hin
  have hover (hu : (u.idx : ℤ) ≤ intMax) :=
    arrives_skip (P := P) h0 hvalue hstate hinside hu (show s.idx+k+1+_ ≤ i by omega)
  have hend := drop_skip hvalue
  generalize a.escapedValue.length = m at hlen hover hend
  have hclose : Arrives text i P (u.skip m) ↔
      (s.idx+a.body.length : ℤ) ≤ intMax ∧ Arrives text i P (s.skip a.body.length) := by
    have hquote := arrives_quote (P := P) h0 hend hstate (show (u.skip m).idx < i by
      change s.idx+k+1+m < i
      omega)
    have hlast : { u.skip m with inQoute := ! (u.skip m).inQoute, idx := (u.skip m).idx+1 } =
        s.skip a.body.length := by
      unfold skip
      dsimp only [u]
      rw [Bool.not_not, hlen]
      congr 1
      omega
    have hidx : (((u.skip m).idx : ℕ)+1 : ℤ) = (s.idx+a.body.length : ℤ) := by
      change (((s.idx+k+1+m : ℕ) : ℤ)+1) = _
      rw [hlen]
      push_cast
      ring
    rwa [hlast, hidx] at hquote
  have hidx : (u.idx : ℤ) = s.idx+k+1 := by
    change ((s.idx+k+1 : ℕ) : ℤ) = _
    push_cast
    ring
  constructor
  · intro h
    obtain ⟨hint₁, h₁⟩ := hskip.mp h
    obtain ⟨hint₂, h₂⟩ := hopen.mp h₁
    obtain ⟨-, h₃⟩ := (hover (hidx.trans_le hint₂)).mp h₂
    exact hclose.mp h₃
  · rintro ⟨hall, h⟩
    have hint₂ : (s.idx+k+1 : ℤ) ≤ intMax := by
      rw [hlen] at hall
      push_cast at hall
      omega
    refine hskip.mpr ⟨by omega, hopen.mpr ⟨hint₂, ?_⟩⟩
    refine (hover (hidx.trans_le hint₂)).mpr ⟨?_, hclose.mpr ⟨hall, h⟩⟩
    rw [hidx]
    rw [hlen] at hall
    push_cast at hall
    omega

/-! ### The end of the tag -/

/-- Outside of a tag the property says which attributes the element at the place has. -/
def Tells (P : ParseState → Prop) (n : ℕ) (l : List (Bytes × Bytes)) : Prop :=
  ∀ t : ParseState, t.Outside → (P t ↔ (attributeLists t.finish)[n]? = some l)

/-- The end of a tag: its element gets the last attribute. -/
theorem arrives_bracket (h0 : 0 ∉ text) (hinv : s.Inv text) (hdrop : text.drop s.idx = 62 :: rest)
    (he : s.pElement = some e) (hn : (attributeLists s.xml).length = n) (hP : Tells P n wanted) :
    Arrives text (s.idx+1) P s ↔ (s.idx+1 : ℤ) ≤ intMax ∧
      Room s.xml.pWorkingBuffer.length (s.idx-s.iTagMarkStart+1) (CloseOK text s) ∧
      (s.closed text e).xmlAttributes = wanted := by
  rcases close_round h0 hinv hdrop he with ⟨t, hnext, hcond, hidx, hout, hfinish⟩ | ⟨hstuck, hno⟩
  · have hinv' := (hinv.next h0 hnext).1
    have hplace : (attributeLists t.finish)[n]? = some (s.closed text e).xmlAttributes := by
      unfold attributeLists at hn ⊢
      rw [hfinish, List.map_append, List.getElem?_append_right hn.le, hn, Nat.sub_self]
      rfl
    rw [arrives_next hnext (show s.idx < s.idx+1 by omega), ← hidx, arrives_here h0 hinv']
    rw [hP t hout, hplace, Option.some.injEq, ← and_assoc, and_iff_right hcond]
  · exact iff_of_false (not_arrives hstuck (show s.idx < s.idx+1 by omega)) fun h =>
      hno ⟨h.1, h.2.1⟩

/-- The slash of an empty element is passed over. -/
theorem arrives_closing (h0 : 0 ∉ text) (hinv : s.Inv text) (g : WrittenTag)
    (hdrop : text.drop s.idx = g.closing ++ rest) (hstate : s.iState = .tagProcess)
    (he : s.pElement = some e) (hn : (attributeLists s.xml).length = n) (hP : Tells P n wanted)
    (hint : (s.idx : ℤ) ≤ intMax) :
    Arrives text (s.idx+g.closing.length) P s ↔
      (s.idx+g.closing.length : ℤ) ≤ intMax ∧
      Room s.xml.pWorkingBuffer.length (s.idx+g.closing.length-s.iTagMarkStart)
        (CloseOK text (s.skip (g.closing.length-1))) ∧
      ((s.skip (g.closing.length-1)).closed text e).xmlAttributes = wanted := by
  have htag := hinv.tagMark
  unfold WrittenTag.closing at hdrop ⊢
  by_cases hempty : g.empty = true
  · rw [if_pos hempty] at hdrop ⊢
    have hslash : text.drop s.idx = [47] ++ 62 :: rest := hdrop
    have hrest := drop_skip hslash
    have hpass : ∀ c ∈ [47], s.Passes c := by
      intro c hc
      rw [List.mem_singleton.mp hc]
      exact ⟨by decide, by decide, by decide, fun h => absurd h.1 (by decide),
        fun h => absurd h.1 (by decide)⟩
    have hle := (lt_of_drop_cons hdrop)
    have hskip := arrives_skip (P := P) h0 hslash hstate hpass hint
      (show s.idx+1 ≤ s.idx+2 by omega)
    have hclose := arrives_bracket h0 (hinv.skip (n := 1) hle) hrest he hn hP
    have hlen : s.idx+2-s.iTagMarkStart = s.idx+1-s.iTagMarkStart+1 := by omega
    change Arrives text (s.idx+2) _ s ↔ (s.idx+((2 : ℕ) : ℤ)) ≤ intMax ∧
      Room _ (s.idx+2-s.iTagMarkStart) (CloseOK text (s.skip 1)) ∧ _
    change Arrives text (s.idx+2) _ s ↔ (s.idx+((1 : ℕ) : ℤ)) ≤ intMax ∧
      Arrives text (s.idx+2) _ (s.skip 1) at hskip
    change Arrives text (s.idx+2) _ (s.skip 1) ↔ ((s.idx+1 : ℕ)+1 : ℤ) ≤ intMax ∧
      Room _ (s.idx+1-s.iTagMarkStart+1) (CloseOK text (s.skip 1)) ∧ _ at hclose
    rw [hskip, hclose, hlen]
    refine ⟨fun h => ⟨?_, h.2.2⟩, fun h => ⟨?_, ?_, h.2⟩⟩
    · have hle := h.2.1
      push_cast at hle ⊢
      omega
    · have hle := h.1
      push_cast at hle ⊢
      omega
    · have hle := h.1
      push_cast at hle ⊢
      omega
  · rw [if_neg hempty] at hdrop ⊢
    have hclose := arrives_bracket h0 hinv hdrop he hn hP
    have hlen : s.idx+1-s.iTagMarkStart = s.idx-s.iTagMarkStart+1 := by omega
    change Arrives text (s.idx+1) _ s ↔ (s.idx+((1 : ℕ) : ℤ)) ≤ intMax ∧
      Room _ (s.idx+1-s.iTagMarkStart) (CloseOK text (s.skip 0)) ∧ _
    rw [hlen, skip_zero]
    exact_mod_cast hclose

end ParseState

/-! ### The attributes of a tag -/

/-- There is room for the copies, where those that share a check of the buffer's size are listed
together, the one that the check is for in front. -/
def CopiesOK : ℕ → List (List Bytes) → Prop
  | _, [] => True
  | size, ts :: rest =>
    ParseState.Room size (ts.headD []).length fun m => (∀ t ∈ ts, CopyOK m t) ∧ CopiesOK m rest

/-- The last check. -/
theorem copiesOK_last (size : ℕ) (t : Bytes) (ts : List Bytes) :
    CopiesOK size [t :: ts] ↔ ParseState.Room size t.length fun m => ∀ u ∈ t :: ts, CopyOK m u := by
  unfold CopiesOK
  exact ParseState.room_and.trans (and_iff_left trivial)

theorem copiesOK_cons {size m : ℕ} {t : Bytes} (h : roomFor size t.length = some m)
    (ts : List Bytes) (rest : List (List Bytes)) :
    CopiesOK size ((t :: ts) :: rest) ↔ (∀ u ∈ t :: ts, CopyOK m u) ∧ CopiesOK m rest :=
  ParseState.room_iff h _

/-- Each attribute is copied at the separator behind it, and the last one with its tag. -/
def copiesOf (tag closing : Bytes) : List WrittenAttribute → List (List Bytes)
  | [] => [[tag]]
  | [a] => [[tag, a.text ++ closing]]
  | a :: b :: l => [a.text ++ [b.separator]] :: copiesOf tag closing (b :: l)

/-- What the parser makes of an attribute. -/
def WrittenAttribute.givenPair (a : WrittenAttribute) : Bytes × Bytes :=
  (a.key, decoded (afterSpace a.givenValue))

theorem WrittenAttribute.attributeOf_text (a : WrittenAttribute) {w : Bytes} (hw : Follows w) :
    attributeOf (cleaned (a.text ++ w)) = [a.givenPair] ∧
      (EmptyValue (cleaned (a.text ++ w)) ↔ afterSpace a.givenValue = []) := by
  have hkey : 61 ∉ a.key := fun h => nameChar_ne (a.named.2 61 h) (by decide) rfl
  rw [a.cleaned_text hw]
  exact ⟨attributeOf_append hkey a.named.1 _, emptyValue_append hkey a.named.1 _⟩

theorem WrittenTag.follows_closing (g : WrittenTag) : Follows g.closing := by
  unfold WrittenTag.closing
  split_ifs
  · exact .inr (.inr (.inr rfl))
  · exact .inr (.inr (.inl rfl))

theorem WrittenAttribute.follows_separator (a : WrittenAttribute) : Follows [a.separator] := by
  rcases a.separates with h | h
  · exact .inl (congrArg (fun c => [c]) h)
  · exact .inr (.inl (congrArg (fun c => [c]) h))

theorem piece_eq {text w rest : Bytes} {mark idx : ℕ} (hdrop : text.drop mark = w ++ rest)
    (hlen : w.length = idx-mark+1) : XmlParser.piece text mark idx = w := by
  unfold XmlParser.piece
  rw [hdrop, ← hlen, List.take_left]

namespace ParseState

/-- The element at the end of a tag, with its last attribute. -/
theorem closed_attributes (e : XmlElement) {w : Bytes} (hmark : s.iAttribMarkStart ≠ 0)
    (hw : XmlParser.piece text s.iAttribMarkStart s.idx = w) :
    (s.closed text e).xmlAttributes = e.xmlAttributes ++ attributeOf (cleaned w) := by
  unfold closed closeWith XmlElement.withAttributes
  rw [if_neg hmark, hw]

/-- The last attribute is read with the end of its tag. -/
theorem arrives_last (h0 : 0 ∉ text) (g : WrittenTag) (a : WrittenAttribute) (hinv : s.Inv text)
    (hstate : s.iState = .tagProcess) (hquote : s.inQoute = false)
    (hmark : s.iAttribMarkStart ≠ 0) (hidx : s.idx = s.iAttribMarkStart+1)
    (he : s.pElement = some e) (hn : (attributeLists s.xml).length = n) (hP : Tells P n wanted)
    (hint : (s.idx : ℤ) ≤ intMax) (htag : text.drop s.iTagMarkStart = g.text ++ rest)
    (hend : s.iTagMarkStart+g.text.length = i)
    (hdrop : text.drop s.iAttribMarkStart = a.text ++ (g.closing ++ rest))
    (hi : s.iAttribMarkStart+a.text.length+g.closing.length = i) :
    Arrives text i P s ↔ (i : ℤ) ≤ intMax ∧
      CopiesOK s.xml.pWorkingBuffer.length [[g.text, a.text ++ g.closing]] ∧
      afterSpace a.givenValue ≠ [] ∧ e.xmlAttributes ++ [a.givenPair] = wanted := by
  have hbody : text.drop s.idx = a.body ++ (g.closing ++ rest) := by
    rw [hidx, ← List.drop_drop, hdrop]
    rfl
  have hlength : a.text.length = a.body.length+1 := rfl
  have hclosing : 0 < g.closing.length := by
    unfold WrittenTag.closing
    split_ifs <;> decide
  have hname := List.length_pos_iff.mpr g.named.1
  have hopen : g.text.length = g.name.length+(g.attributes.flatMap WrittenAttribute.text).length+
      g.closing.length+1 := by
    unfold WrittenTag.text
    simp only [List.length_cons, List.length_append]
    omega
  have hskip := arrives_body (P := P) h0 a hbody hstate hquote hmark hint
    (show s.idx+a.body.length ≤ i by omega)
  have hfit : s.idx+a.body.length ≤ text.length := by
    have hcount := congrArg List.length hdrop
    rw [List.length_drop, List.length_append] at hcount
    omega
  rw [hskip]
  by_cases hover : (s.idx+a.body.length : ℤ) ≤ intMax
  · rw [and_iff_right hover]
    have hclose := arrives_closing h0 (hinv.skip hfit) g (drop_skip hbody)
      hstate he hn hP hover
    have hstop : (s.skip a.body.length).idx+g.closing.length = i := by
      change s.idx+a.body.length+g.closing.length = i
      omega
    have hlast : ((s.skip a.body.length).skip (g.closing.length-1)).idx+1 = i := by
      change s.idx+a.body.length+(g.closing.length-1)+1 = i
      omega
    generalize hu : (s.skip a.body.length).skip (g.closing.length-1) = u at hclose hlast
    have hattrib : u.iAttribMarkStart = s.iAttribMarkStart := by
      rw [← hu]
      rfl
    have htagMark : u.iTagMarkStart = s.iTagMarkStart := by
      rw [← hu]
      rfl
    have hpiece : XmlParser.piece text u.iAttribMarkStart u.idx = a.text ++ g.closing := by
      rw [hattrib]
      exact piece_eq (hdrop.trans (List.append_assoc _ _ _).symm)
        (by rw [List.length_append]; omega)
    have hwhole : XmlParser.piece text u.iTagMarkStart u.idx = g.text := by
      rw [htagMark]
      exact piece_eq htag (by omega)
    obtain ⟨hattr, hempty⟩ := a.attributeOf_text g.follows_closing
    have hok (m : ℕ) : CloseOK text u m ↔
        (∀ t ∈ [g.text, a.text ++ g.closing], CopyOK m t) ∧ afterSpace a.givenValue ≠ [] := by
      unfold CloseOK AttribOK
      rw [hwhole, hpiece, hempty]
      constructor
      · intro h
        obtain ⟨hcopy, hvalue⟩ := h.2.2 (hattrib ▸ hmark)
        exact ⟨List.forall_mem_cons.mpr ⟨h.2.1, List.forall_mem_singleton.mpr hcopy⟩, hvalue⟩
      · rintro ⟨hcopies, hvalue⟩
        refine ⟨by omega, hcopies _ List.mem_cons_self, fun _ => ⟨?_, hvalue⟩⟩
        exact hcopies _ (List.mem_cons_of_mem _ List.mem_cons_self)
    have hroom : Room s.xml.pWorkingBuffer.length (i-s.iTagMarkStart) (CloseOK text u) ↔
        CopiesOK s.xml.pWorkingBuffer.length [[g.text, a.text ++ g.closing]] ∧
          afterSpace a.givenValue ≠ [] := by
      rw [copiesOK_last, ← room_and, ← hend, Nat.add_sub_cancel_left]
      exact exists_congr fun m => and_congr_right fun _ => hok m
    have hint' : ((s.skip a.body.length).idx+(g.closing.length : ℕ) : ℤ) = i := by
      exact_mod_cast hstop
    rw [hstop, hint'] at hclose
    rw [hclose, closed_attributes e (hattrib ▸ hmark) hpiece, hattr, ← and_assoc (b := _ ≠ _),
      ← hroom]
    exact Iff.rfl
  · refine iff_of_false (fun h => hover h.1) fun h => hover ?_
    have hle := h.1
    omega

/-- Behind the separator of an attribute, that attribute and the others of the tag are read. -/
theorem arrives_attributes (h0 : 0 ∉ text) (g : WrittenTag) (a : WrittenAttribute)
    (l : List WrittenAttribute) (hinv : s.Inv text) (hstate : s.iState = .tagProcess)
    (hquote : s.inQoute = false) (hmark : s.iAttribMarkStart ≠ 0)
    (hidx : s.idx = s.iAttribMarkStart+1) (he : s.pElement = some e)
    (hn : (attributeLists s.xml).length = n) (hP : Tells P n wanted) (hint : (s.idx : ℤ) ≤ intMax)
    (htag : text.drop s.iTagMarkStart = g.text ++ rest)
    (hend : s.iTagMarkStart+g.text.length = i)
    (hdrop : text.drop s.iAttribMarkStart =
      a.text ++ (l.flatMap WrittenAttribute.text ++ (g.closing ++ rest)))
    (hi : s.iAttribMarkStart+a.text.length+
      (l.flatMap WrittenAttribute.text).length+g.closing.length = i) :
    Arrives text i P s ↔ (i : ℤ) ≤ intMax ∧
      CopiesOK s.xml.pWorkingBuffer.length (copiesOf g.text g.closing (a :: l)) ∧
      (∀ b ∈ a :: l, afterSpace b.givenValue ≠ []) ∧
      e.xmlAttributes ++ (a :: l).map WrittenAttribute.givenPair = wanted := by
  induction l generalizing s a e with
  | nil =>
    have hlast := arrives_last h0 g a hinv hstate hquote hmark hidx he hn hP hint
      htag hend hdrop (by rw [← hi]; rfl)
    rw [hlast, List.forall_mem_singleton]
    rfl
  | cons b l ih =>
    have hbody : text.drop s.idx = a.body ++ b.separator ::
        (b.body ++ (l.flatMap WrittenAttribute.text ++ (g.closing ++ rest))) := by
      rw [hidx, ← List.drop_drop, hdrop, List.flatMap_cons]
      unfold WrittenAttribute.text
      simp
    have hlength : a.text.length = a.body.length+1 := rfl
    have hmore : ((b :: l).flatMap WrittenAttribute.text).length =
        b.text.length+(l.flatMap WrittenAttribute.text).length := by
      rw [List.flatMap_cons, List.length_append]
    have hnext : b.text.length = b.body.length+1 := rfl
    have hskip := arrives_body (P := P) h0 a hbody hstate hquote hmark hint
      (show s.idx+a.body.length ≤ i by omega)
    have hfit : s.idx+a.body.length ≤ text.length := by
      have hcount := congrArg List.length hdrop
      rw [List.length_drop, List.length_append] at hcount
      omega
    rw [hskip]
    by_cases hover : (s.idx+a.body.length : ℤ) ≤ intMax
    · rw [and_iff_right hover]
      have hhere := drop_skip hbody
      have hinv' := hinv.skip hfit
      have hsep : (s.skip a.body.length).Separates b.separator :=
        ⟨b.separates.imp (fun h => ⟨h, hmark⟩) id, hquote⟩
      have hcount : s.idx+a.body.length-s.iAttribMarkStart+1 =
        (a.text ++ [b.separator]).length := by
        rw [List.length_append, List.length_singleton]
        omega
      have hpiece : XmlParser.piece text s.iAttribMarkStart (s.idx+a.body.length) =
          a.text ++ [b.separator] := by
        have hsplit : text.drop s.iAttribMarkStart = (a.text ++ [b.separator]) ++
            (b.body ++ (l.flatMap WrittenAttribute.text ++ (g.closing ++ rest))) := by
          rw [hdrop, List.flatMap_cons]
          unfold WrittenAttribute.text
          simp
        exact piece_eq hsplit hcount.symm
      obtain ⟨hattrOf, hempty⟩ := a.attributeOf_text b.follows_separator
      rcases separator_round h0 hinv' hhere hstate hsep he with
        ⟨xml', hroom, hattr, hint', helems, hround⟩ | ⟨hstuck, hno⟩
      · have hinv'' := (hinv'.next h0 hround).1
        change roomFor s.xml.pWorkingBuffer.length
          (s.idx+a.body.length-s.iAttribMarkStart+1) = _ at hroom
        change AttribOK text s.iAttribMarkStart (s.idx+a.body.length) _ at hattr
        change xml'.xmlElements = s.xml.xmlElements at helems
        unfold AttribOK at hattr
        rw [hpiece, hempty] at hattr
        rw [hcount] at hroom
        have hih := ih b hinv'' hstate hquote (show s.idx+a.body.length ≠ 0 by omega) rfl rfl
          (by rw [← hn]; unfold attributeLists; rw [helems]) (by exact_mod_cast hint') htag hend
          hhere (by change s.idx+a.body.length+_+_+_ = i; omega)
        have hgiven : (e.withAttributes (attributeOf (cleaned (XmlParser.piece text
            s.iAttribMarkStart (s.idx+a.body.length))))).xmlAttributes =
              e.xmlAttributes ++ [a.givenPair] := by
          rw [hpiece, hattrOf]
          rfl
        have hcopies : CopiesOK s.xml.pWorkingBuffer.length
            (copiesOf g.text g.closing (a :: b :: l)) ↔
              CopiesOK xml'.pWorkingBuffer.length (copiesOf g.text g.closing (b :: l)) :=
          (copiesOK_cons hroom [] _).trans
            (and_iff_right (List.forall_mem_singleton.mpr hattr.1))
        have hlt : (s.skip a.body.length).idx < i := by
          change s.idx+a.body.length < i
          omega
        have hvalues : (∀ c ∈ a :: b :: l, afterSpace c.givenValue ≠ []) ↔
            ∀ c ∈ b :: l, afterSpace c.givenValue ≠ [] :=
          List.forall_mem_cons.trans (and_iff_right hattr.2)
        rw [arrives_next hround hlt, hih, hcopies, hvalues]
        change _ ∧ _ ∧ _ ∧ (e.withAttributes (attributeOf (cleaned (XmlParser.piece text
            s.iAttribMarkStart (s.idx+a.body.length))))).xmlAttributes ++ _ = _ ↔ _
        rw [hgiven, List.append_assoc]
        rfl
      · have hlt : (s.skip a.body.length).idx < i := by
          change s.idx+a.body.length < i
          omega
        refine iff_of_false (not_arrives hstuck hlt) fun h => hno ⟨?_, ?_⟩
        · have hle := h.1
          change ((s.idx+a.body.length : ℕ)+1 : ℤ) ≤ intMax
          omega
        · obtain ⟨m, hm, hc, -⟩ := h.2.1
          refine ⟨m, ?_, ?_⟩
          · change m ∈ roomFor _ (s.idx+a.body.length-s.iAttribMarkStart+1)
            rw [hcount]
            exact hm
          · change AttribOK text s.iAttribMarkStart (s.idx+a.body.length) m
            unfold AttribOK
            rw [hpiece, hempty]
            exact ⟨hc _ List.mem_cons_self, h.2.2.1 a List.mem_cons_self⟩
    · refine iff_of_false (fun h => hover h.1) fun h => hover ?_
      have hle := h.1
      omega

theorem int_of_arrives (h0 : 0 ∉ text) (hinv : s.Inv text) (h : Arrives text i P s)
    (hlt : s.idx < i) : (s.idx+1 : ℤ) ≤ intMax := by
  by_contra hint
  refine not_arrives (fun t ht => ?_) hlt h
  cases hdrop : text.drop s.idx with
  | nil =>
    have hstep := step_end h0 hinv.idx_le hdrop
    rw [ht] at hstep
    split_ifs at hstep
    cases hstep
  | cons ch rest =>
    have hstep := step_cons h0 hdrop
    rw [if_neg hint] at hstep
    cases hstep.symm.trans ht

/-- The start of a tag was read, and no attribute or quote of an earlier one is open. -/
structure Begun (s : ParseState) : Prop where
  state : s.iState = .tagProcess
  quote : s.inQoute = false
  attribMark : s.iAttribMarkStart = 0
  idx : s.idx = s.iTagMarkStart+1
  element : s.pElement = some {}

end ParseState

namespace WrittenTag

variable (g : WrittenTag)

def TabFirst : Prop := (g.attributes.head?.map WrittenAttribute.separator) = some 9

instance : Decidable g.TabFirst := inferInstanceAs (Decidable (_ = _))

theorem not_tabFirst (hg : g.attributes = []) : ¬ g.TabFirst := by
  unfold TabFirst
  rw [hg]
  exact fun h => by cases h

theorem tabFirst_iff {a : WrittenAttribute} {l : List WrittenAttribute}
    (hg : g.attributes = a :: l) : g.TabFirst ↔ a.separator = 9 := by
  unfold TabFirst
  rw [hg]
  exact Option.some_inj

/-- The input up to a tab behind the name of the tag. -/
def front (pre : Bytes) : Bytes := pre ++ 60 :: (g.name ++ [9])

/-- At a tab without a mark the input is copied from its start. -/
def copies (pre : Bytes) : List (List Bytes) :=
  (if g.TabFirst then [[g.front pre]] else []) ++ copiesOf g.text g.closing g.attributes

/-- The index can be counted to the end of the tag, there is room for all copies, the input up to a
tab behind the name is no attribute, and all values are kept. -/
structure Readable (g : WrittenTag) (pre : Bytes) (size : ℕ) : Prop where
  int : ((pre.length+g.text.length : ℕ) : ℤ) ≤ intMax
  room : CopiesOK size (g.copies pre)
  tab : g.TabFirst → 61 ∈ cleaned (g.front pre) → (cleaned (g.front pre)).headD 0 = 61
  values : ∀ a ∈ g.attributes, a.Kept

def pairs : List (Bytes × Bytes) := g.attributes.map fun a => (a.key, a.value)

/-- All values come back. -/
theorem givenPairs_iff (l : List WrittenAttribute) :
    ((∀ a ∈ l, afterSpace a.givenValue ≠ []) ∧
      l.map WrittenAttribute.givenPair = l.map fun a => (a.key, a.value)) ↔ ∀ a ∈ l, a.Kept := by
  rw [List.map_inj_left, ← forall₂_and]
  refine forall₂_congr fun a _ => ?_
  rw [← a.kept_iff]
  exact and_congr_right fun _ => ⟨fun h => (Prod.mk.inj h).2, fun h => Prod.ext rfl h⟩

theorem readable_iff {a : WrittenAttribute} {l : List WrittenAttribute}
    (hg : g.attributes = a :: l) (pre : Bytes) (size : ℕ) : g.Readable pre size ↔
      ((pre.length+g.text.length : ℕ) : ℤ) ≤ intMax ∧ CopiesOK size (g.copies pre) ∧
      (∀ b ∈ a :: l, afterSpace b.givenValue ≠ []) ∧
      (a.separator = 9 → 61 ∈ cleaned (g.front pre) → (cleaned (g.front pre)).headD 0 = 61) ∧
      (a :: l).map WrittenAttribute.givenPair = g.pairs := by
  have hvalues := givenPairs_iff (a :: l)
  rw [← hg] at hvalues ⊢
  rw [← g.tabFirst_iff hg]
  constructor
  · intro h
    obtain ⟨hgiven, hpairs⟩ := hvalues.mpr h.values
    exact ⟨h.int, h.room, hgiven, h.tab, hpairs⟩
  · rintro ⟨hint, hroom, hgiven, htab, hpairs⟩
    exact ⟨hint, hroom, htab, hvalues.mp ⟨hgiven, hpairs⟩⟩

end WrittenTag

theorem attributeOf_eq_nil_iff {t : Bytes} : attributeOf t = [] ↔ (61 ∈ t → t.headD 0 = 61) := by
  unfold attributeOf
  split_ifs with h
  · exact iff_of_false not_false fun hno => h.2 (hno h.1)
  · exact iff_of_true rfl fun hin => not_not.mp fun hne => h ⟨hin, hne⟩

namespace ParseState

theorem length_tag (g : WrittenTag) : g.text.length =
    g.name.length+(g.attributes.flatMap WrittenAttribute.text).length+g.closing.length+1 := by
  unfold WrittenTag.text
  simp only [List.length_cons, List.length_append]
  omega

theorem drop_name (hbegun : s.Begun) (g : WrittenTag)
    (hdrop : text.drop s.iTagMarkStart = g.text ++ rest) : text.drop s.idx =
      g.name ++ (g.attributes.flatMap WrittenAttribute.text ++ (g.closing ++ rest)) := by
  rw [hbegun.idx, ← List.drop_drop, hdrop]
  unfold WrittenTag.text
  simp

theorem length_front (hinv : s.Inv text) (g : WrittenTag)
    (hdrop : text.drop s.iTagMarkStart = g.text ++ rest) :
    (text.take s.iTagMarkStart).length = s.iTagMarkStart ∧
      s.iTagMarkStart+g.text.length ≤ text.length := by
  have hcount := congrArg List.length hdrop
  have htag := hinv.tagMark
  have hidx := hinv.idx_le
  rw [List.length_drop, List.length_append] at hcount
  rw [List.length_take]
  have hlen := length_tag g
  omega

/-- The name of the tag is passed over. -/
theorem arrives_name (h0 : 0 ∉ text) (hbegun : s.Begun) (g : WrittenTag)
    (hdrop : text.drop s.iTagMarkStart = g.text ++ rest) (hint : (s.idx : ℤ) ≤ intMax)
    (hi : s.idx+g.name.length ≤ i) : Arrives text i P s ↔
      (s.idx+g.name.length : ℤ) ≤ intMax ∧ Arrives text i P (s.skip g.name.length) :=
  arrives_skip h0 (drop_name hbegun g hdrop) hbegun.state
    (fun c hc => passes_nameChar (g.named.2 c hc)) hint hi

section Begin

variable (h0 : 0 ∉ text) (hinv : s.Inv text) (hbegun : s.Begun) (g : WrittenTag)
  (hdrop : text.drop s.iTagMarkStart = g.text ++ rest) (hn : (attributeLists s.xml).length = n)
  (hP : Tells P n g.pairs)
include h0 hinv hbegun hdrop hn hP

/-- The tag has no attributes. -/
theorem arrives_empty (hg : g.attributes = []) (hint : (s.idx+g.name.length : ℤ) ≤ intMax) :
    Arrives text (s.iTagMarkStart+g.text.length) P (s.skip g.name.length) ↔
      g.Readable (text.take s.iTagMarkStart) s.xml.pWorkingBuffer.length := by
  have hlen := length_tag g
  have hidx := hbegun.idx
  obtain ⟨hfront, hfit⟩ := length_front hinv g hdrop
  have hrest := drop_skip (drop_name hbegun g hdrop)
  rw [hg] at hrest hlen
  change g.text.length = g.name.length+0+g.closing.length+1 at hlen
  have hclose := arrives_closing h0
    (hinv.skip (n := g.name.length) (by omega)) g hrest hbegun.state hbegun.element hn hP
    (by exact_mod_cast hint)
  have hclosing : 0 < g.closing.length := by
    unfold WrittenTag.closing
    split_ifs <;> decide
  have hstop : (s.skip g.name.length).idx+g.closing.length = s.iTagMarkStart+g.text.length := by
    change s.idx+g.name.length+g.closing.length = _
    omega
  have hlast : ((s.skip g.name.length).skip (g.closing.length-1)).idx+1 =
      s.iTagMarkStart+g.text.length := by
    change s.idx+g.name.length+(g.closing.length-1)+1 = _
    omega
  generalize hu : (s.skip g.name.length).skip (g.closing.length-1) = u at hclose hlast
  have hattrib : u.iAttribMarkStart = 0 := by
    rw [← hu]
    exact hbegun.attribMark
  have htagMark : u.iTagMarkStart = s.iTagMarkStart := by
    rw [← hu]
    rfl
  have hwhole : XmlParser.piece text u.iTagMarkStart u.idx = g.text := by
    rw [htagMark]
    exact piece_eq hdrop (by omega)
  have hok (m : ℕ) : CloseOK text u m ↔ ∀ t ∈ [g.text], CopyOK m t := by
    unfold CloseOK
    rw [hwhole, List.forall_mem_singleton]
    exact ⟨fun h => h.2.1, fun h => ⟨by omega, h, fun hne => absurd hattrib hne⟩⟩
  have hcopies : g.copies (text.take s.iTagMarkStart) = [[g.text]] := by
    unfold WrittenTag.copies
    rw [if_neg (g.not_tabFirst hg), hg]
    rfl
  have hroom : Room s.xml.pWorkingBuffer.length (s.iTagMarkStart+g.text.length-s.iTagMarkStart)
      (CloseOK text u) ↔
        CopiesOK s.xml.pWorkingBuffer.length (g.copies (text.take s.iTagMarkStart)) := by
    rw [hcopies, copiesOK_last, Nat.add_sub_cancel_left]
    exact exists_congr fun m => and_congr_right fun _ => hok m
  have hnone : (u.closed text {}).xmlAttributes = g.pairs := by
    unfold closed closeWith XmlElement.withAttributes WrittenTag.pairs
    rw [if_pos hattrib, hg]
    rfl
  have hint' : ((s.skip g.name.length).idx+(g.closing.length : ℕ) : ℤ) =
      ((text.take s.iTagMarkStart).length+g.text.length : ℕ) := by
    rw [hfront]
    exact_mod_cast hstop
  rw [hstop, hint'] at hclose
  change _ ↔ _ ∧ Room s.xml.pWorkingBuffer.length (_-s.iTagMarkStart) _ ∧ _ at hclose
  rw [hclose, hroom, and_iff_left hnone]
  constructor
  · refine fun h => ⟨h.1, h.2, fun htab => absurd htab (g.not_tabFirst hg), fun a ha => ?_⟩
    rw [hg] at ha
    cases ha
  · exact fun h => ⟨h.int, h.room⟩

/-- A space behind the name starts the first attribute. -/
theorem arrives_space {a : WrittenAttribute} {l : List WrittenAttribute}
    (hg : g.attributes = a :: l) (hspace : a.separator = 32)
    (hint : (s.idx+g.name.length : ℤ) ≤ intMax) :
    Arrives text (s.iTagMarkStart+g.text.length) P (s.skip g.name.length) ↔
      g.Readable (text.take s.iTagMarkStart) s.xml.pWorkingBuffer.length := by
  have hlen := length_tag g
  have hidx := hbegun.idx
  obtain ⟨hfront, hfit⟩ := length_front hinv g hdrop
  have hname := List.length_pos_iff.mpr g.named.1
  have hrest := drop_skip (drop_name hbegun g hdrop)
  rw [hg, List.flatMap_cons] at hrest hlen
  rw [List.length_append] at hlen
  have hbody : text.drop (s.skip g.name.length).idx =
      32 :: (a.body ++ (l.flatMap WrittenAttribute.text ++ (g.closing ++ rest))) := by
    rw [hrest, ← hspace]
    simp [WrittenAttribute.text]
  have hlength : a.text.length = a.body.length+1 := rfl
  have hlt : (s.skip g.name.length).idx < s.iTagMarkStart+g.text.length := by
    change s.idx+g.name.length < _
    omega
  have hmarked : ParseState.Inv text { s.skip g.name.length with
      iAttribMarkStart := s.idx+g.name.length, idx := s.idx+g.name.length+1 } := by
    have htag := hinv.tagMark
    have hscan := hinv.scanMark
    refine ⟨?_, ?_, Nat.le_succ _, ?_, hinv.split, hinv.scanned, fun _ => ?_⟩
    · change s.idx+g.name.length+1 ≤ text.length
      omega
    · change s.iTagMarkStart ≤ s.idx+g.name.length+1
      omega
    · change s.iScanMarkStart ≤ s.idx+g.name.length+1
      omega
    · change s.pElement.isSome
      rw [hbegun.element]
      rfl
  have hcopies : g.copies (text.take s.iTagMarkStart) = copiesOf g.text g.closing (a :: l) := by
    unfold WrittenTag.copies
    rw [if_neg fun h => absurd (((g.tabFirst_iff hg).mp h).symm.trans hspace) (by decide), hg]
    rfl
  rw [arrives_mark h0 hbody hbegun.state hbegun.attribMark hlt, g.readable_iff hg, hcopies, hfront]
  have hwhole : text.drop (s.idx+g.name.length) =
      a.text ++ (l.flatMap WrittenAttribute.text ++ (g.closing ++ rest)) := by
    change text.drop (s.skip g.name.length).idx = _
    rw [hrest, List.append_assoc]
  by_cases hnext : ((s.skip g.name.length).idx+1 : ℤ) ≤ intMax
  · have hattributes := arrives_attributes h0 g a l hmarked hbegun.state
      hbegun.quote (show s.idx+g.name.length ≠ 0 by omega) rfl hbegun.element hn hP
      (by exact_mod_cast hnext) hdrop rfl hwhole
      (by change s.idx+g.name.length+_+_+_ = s.iTagMarkStart+_; omega)
    rw [and_iff_right hnext]
    refine hattributes.trans (and_congr_right fun _ => and_congr_right fun _ =>
      and_congr_right fun _ => (and_iff_right ?_).symm)
    exact fun h => absurd (hspace.symm.trans h) (by decide)
  · refine iff_of_false (fun h => hnext h.1) fun h => hnext ?_
    have hle := h.1
    change ((s.idx+g.name.length : ℕ)+1 : ℤ) ≤ intMax
    omega

/-- At a tab behind the name the input up to it is taken for an attribute. -/
theorem arrives_tab {a : WrittenAttribute} {l : List WrittenAttribute}
    (hg : g.attributes = a :: l) (htab : a.separator = 9)
    (hint : (s.idx+g.name.length : ℤ) ≤ intMax) :
    Arrives text (s.iTagMarkStart+g.text.length) P (s.skip g.name.length) ↔
      g.Readable (text.take s.iTagMarkStart) s.xml.pWorkingBuffer.length := by
  have hlen := length_tag g
  have hidx := hbegun.idx
  obtain ⟨hfront, hfit⟩ := length_front hinv g hdrop
  have hname := List.length_pos_iff.mpr g.named.1
  have hrest := drop_skip (drop_name hbegun g hdrop)
  rw [hg, List.flatMap_cons] at hrest hlen
  rw [List.length_append] at hlen
  have hbody : text.drop (s.skip g.name.length).idx =
      9 :: (a.body ++ (l.flatMap WrittenAttribute.text ++ (g.closing ++ rest))) := by
    rw [hrest, ← htab]
    simp [WrittenAttribute.text]
  have hwhole : text.drop (s.idx+g.name.length) =
      a.text ++ (l.flatMap WrittenAttribute.text ++ (g.closing ++ rest)) := by
    change text.drop (s.skip g.name.length).idx = _
    rw [hrest, List.append_assoc]
  have hlength : a.text.length = a.body.length+1 := rfl
  have hlt : (s.skip g.name.length).idx < s.iTagMarkStart+g.text.length := by
    change s.idx+g.name.length < _
    omega
  generalize hpre : text.take s.iTagMarkStart = pre at hfront
  have hcount : s.idx+g.name.length-0+1 = (g.front pre).length := by
    unfold WrittenTag.front
    simp only [List.length_append, List.length_cons, List.length_nil]
    omega
  have hpiece : XmlParser.piece text 0 (s.idx+g.name.length) = g.front pre := by
    have hsplit : text.drop 0 = g.front pre ++
        (a.body ++ (l.flatMap WrittenAttribute.text ++ (g.closing ++ rest))) := by
      have hall := List.take_append_drop s.iTagMarkStart text
      rw [hdrop, hpre] at hall
      rw [List.drop_zero, ← hall]
      unfold WrittenTag.front WrittenTag.text
      rw [hg, List.flatMap_cons]
      unfold WrittenAttribute.text
      rw [htab]
      simp
    exact piece_eq hsplit hcount.symm
  have hcopies : g.copies pre = [g.front pre] :: copiesOf g.text g.closing (a :: l) := by
    unfold WrittenTag.copies
    rw [if_pos ((g.tabFirst_iff hg).mpr htab), hg]
    rfl
  rw [g.readable_iff hg, hcopies]
  rcases separator_round h0 (hinv.skip (n := g.name.length) (by omega)) hbody hbegun.state
    ⟨.inr rfl, hbegun.quote⟩ hbegun.element with
    ⟨xml', hroom, hattr, hint', helems, hround⟩ | ⟨hstuck, hno⟩
  · have hinv' := ((hinv.skip (n := g.name.length) (by omega)).next h0 hround).1
    have hzero : (s.skip g.name.length).iAttribMarkStart = 0 := hbegun.attribMark
    rw [hzero] at hroom hattr hround hinv'
    change roomFor s.xml.pWorkingBuffer.length (s.idx+g.name.length-0+1) = _ at hroom
    change AttribOK text 0 (s.idx+g.name.length) _ at hattr
    change xml'.xmlElements = s.xml.xmlElements at helems
    unfold AttribOK at hattr
    rw [hpiece] at hattr
    rw [hcount] at hroom
    have hn' : (attributeLists xml').length = n := by
      rw [← hn]
      unfold attributeLists
      rw [helems]
    have hattributes := arrives_attributes h0 g a l hinv' hbegun.state
      hbegun.quote (show s.idx+g.name.length ≠ 0 by omega) rfl rfl hn' hP (by exact_mod_cast hint')
      hdrop rfl hwhole
      (by change s.idx+g.name.length+_+_+_ = s.iTagMarkStart+_; omega)
    have hcut : CopiesOK s.xml.pWorkingBuffer.length
        ([g.front pre] :: copiesOf g.text g.closing (a :: l)) ↔
          CopiesOK xml'.pWorkingBuffer.length (copiesOf g.text g.closing (a :: l)) :=
      (copiesOK_cons hroom [] _).trans (and_iff_right (List.forall_mem_singleton.mpr hattr.1))
    -- an attribute from the input in front would be one too many
    have hpairs : (attributeOf (cleaned (g.front pre)) ++ (a :: l).map WrittenAttribute.givenPair =
        g.pairs) ↔ (a.separator = 9 →
          61 ∈ cleaned (g.front pre) → (cleaned (g.front pre)).headD 0 = 61) ∧
        (a :: l).map WrittenAttribute.givenPair = g.pairs := by
      have hlength : ((a :: l).map WrittenAttribute.givenPair).length = g.pairs.length := by
        unfold WrittenTag.pairs
        rw [hg, List.length_map, List.length_map]
      rw [← attributeOf_eq_nil_iff]
      constructor
      · intro h
        have hsum := congrArg List.length h
        rw [List.length_append, hlength] at hsum
        have hnil : attributeOf (cleaned (g.front pre)) = [] :=
          List.length_eq_zero_iff.mp (by omega)
        rw [hnil, List.nil_append] at h
        exact ⟨fun _ => hnil, h⟩
      · intro h
        rw [h.1 htab, List.nil_append]
        exact h.2
    refine (arrives_next hround hlt).trans (hattributes.trans ?_)
    rw [hcut, hfront, ← hpairs, ← hpiece]
    exact Iff.rfl
  · refine iff_of_false (not_arrives hstuck hlt) fun h => hno ⟨?_, ?_⟩
    · have hle := h.1
      change ((s.idx+g.name.length : ℕ)+1 : ℤ) ≤ intMax
      omega
    · obtain ⟨m, hm, hc, -⟩ := h.2.1
      have hzero : (s.skip g.name.length).iAttribMarkStart = 0 := hbegun.attribMark
      rw [hzero]
      refine ⟨m, ?_, ?_⟩
      · change m ∈ roomFor _ (s.idx+g.name.length-0+1)
        rw [hcount]
        exact hm
      · change AttribOK text 0 (s.idx+g.name.length) m
        unfold AttribOK
        rw [hpiece]
        exact ⟨hc _ List.mem_cons_self, not_emptyValue (h.2.2.2.1 htab)⟩

end Begin

theorem arrives_tag (h0 : 0 ∉ text) (hinv : s.Inv text) (hbegun : s.Begun) (g : WrittenTag)
    (hdrop : text.drop s.iTagMarkStart = g.text ++ rest)
    (hn : (attributeLists s.xml).length = n) (hP : Tells P n g.pairs) :
    Arrives text (s.iTagMarkStart+g.text.length) P s ↔
      g.Readable (text.take s.iTagMarkStart) s.xml.pWorkingBuffer.length := by
  have hlen := length_tag g
  have hidx := hbegun.idx
  obtain ⟨hfront, hfit⟩ := length_front hinv g hdrop
  have hname := List.length_pos_iff.mpr g.named.1
  have hlt : s.idx < s.iTagMarkStart+g.text.length := by omega
  by_cases hint : (s.idx : ℤ) ≤ intMax
  · rw [arrives_name h0 hbegun g hdrop hint (by omega)]
    by_cases hover : (s.idx+g.name.length : ℤ) ≤ intMax
    · rw [and_iff_right hover]
      cases hg : g.attributes with
      | nil => exact arrives_empty h0 hinv hbegun g hdrop hn hP hg hover
      | cons a l =>
        rcases a.separates with hsep | hsep
        · exact arrives_space h0 hinv hbegun g hdrop hn hP hg hsep hover
        · exact arrives_tab h0 hinv hbegun g hdrop hn hP hg hsep hover
    · refine iff_of_false (fun h => hover h.1) fun h => hover ?_
      have hle := h.int
      rw [hfront] at hle
      omega
  · refine iff_of_false (fun h => hint ?_) fun h => hint ?_
    · have hle := int_of_arrives h0 hinv h hlt
      omega
    · have hle := h.int
      rw [hfront] at hle
      omega

end ParseState

/-! ### The element that comes back -/

namespace WrittenTag

/-- The element at the place has the attributes of the tag in their order, and each name that does
not occur before leads to its value. -/
def Restored (g : WrittenTag) (n : ℕ) (xml : XmlParser) : Prop :=
  ∃ e, xml.xmlElements[n]? = some e ∧ e.xmlAttributes = g.pairs ∧
    ∀ l a r, g.attributes = l ++ a :: r → (∀ b ∈ l, b.key ≠ a.key) →
      e.getAttributeValue a.name = a.value

theorem getAttributeValue_eq (g : WrittenTag) {e : XmlElement} (he : e.xmlAttributes = g.pairs)
    {l r : List WrittenAttribute} {a : WrittenAttribute} (hg : g.attributes = l ++ a :: r)
    (hl : ∀ b ∈ l, b.key ≠ a.key) : e.getAttributeValue a.name = a.value := by
  have hfirst : (e.xmlAttributes.find? fun p => p.1 = bytes a.name) = some (a.key, a.value) := by
    rw [he]
    unfold pairs
    rw [hg, List.map_append, List.find?_append, List.find?_eq_none.mpr]
    · rw [Option.none_or, List.map_cons, List.find?_cons_of_pos (by exact decide_eq_true rfl)]
    · intro p hp
      obtain ⟨b, hb, rfl⟩ := List.mem_map.mp hp
      rw [decide_eq_true_iff]
      exact hl b hb
  unfold XmlElement.getAttributeValue
  rw [hfirst]
  rfl

theorem restored_iff_lists (g : WrittenTag) (n : ℕ) (xml : XmlParser) :
    g.Restored n xml ↔ (ParseState.attributeLists xml)[n]? = some g.pairs := by
  unfold Restored ParseState.attributeLists
  rw [List.getElem?_map]
  constructor
  · rintro ⟨e, he, hattributes, -⟩
    rw [he, ← hattributes]
    rfl
  · intro h
    obtain ⟨e, he, hattributes⟩ := Option.map_eq_some_iff.mp h
    exact ⟨e, he, hattributes, fun l a r hg hl => g.getAttributeValue_eq hattributes hg hl⟩

/-- For a parser with any history, every document and every tag in it that the parser gets to,
`Parse` reads the tag to its end and its element has exactly the written attributes, then and
whenever `Parse` returns, if and only if the tag is readable. -/
theorem restored_iff {xml : XmlParser} {text rest : Bytes} {s : ParseState}
    (hused : Relation.ReflTransGen XmlParser.Parsed {} xml) (h0 : 0 ∉ text)
    (hreached : xml.Reached text s) (hbegun : s.Begun) (g : WrittenTag)
    (hdrop : text.drop s.iTagMarkStart = g.text ++ rest) :
    s.Arrives text (s.iTagMarkStart+g.text.length) (fun t =>
        g.Restored s.xml.xmlElements.length t.finish ∧ ∀ code xml',
          xml.parse text = .ok (code, xml') → g.Restored s.xml.xmlElements.length xml') ↔
      g.Readable (text.take s.iTagMarkStart) s.xml.pWorkingBuffer.length := by
  have hstart : xml.start.Inv text := (XmlParser.splitOK_of_parsed hused).start
  have hinv := (hstart.steps h0 hreached).1
  have hn : (ParseState.attributeLists s.xml).length = s.xml.xmlElements.length := List.length_map _
  constructor
  · intro h
    obtain ⟨t, hsteps, hidx, hrestored, -⟩ := h
    refine (ParseState.arrives_tag h0 hinv hbegun g hdrop hn fun _ _ => Iff.rfl).mp
      ⟨t, hsteps, hidx, ?_⟩
    exact (g.restored_iff_lists _ _).mp hrestored
  · intro h
    have hsettled : ParseState.Tells (ParseState.Settled s.xml.xmlElements.length g.pairs)
        s.xml.xmlElements.length g.pairs :=
      fun t hout => ⟨And.left, fun hlist => ⟨hlist, .inl hout⟩⟩
    obtain ⟨t, hsteps, hidx, ht⟩ :=
      (ParseState.arrives_tag h0 hinv hbegun g hdrop hn hsettled).mpr h
    refine ⟨t, hsteps, hidx, (g.restored_iff_lists _ _).mpr ht.1, fun code xml' hparse => ?_⟩
    -- what is read behind the tag leaves the attributes alone
    exact (g.restored_iff_lists _ _).mpr (ht.of_loop h0 hstart (hreached.trans hsteps) hparse)

end WrittenTag

/-! ### Two attributes, and a value with a space in front -/

def attributeOfText (name : String) (value : Bytes)
    (named : IsName (bytes name)) (printable : ∀ c ∈ value, 32 ≤ c ∧ c ≠ 127) :
    WrittenAttribute where
  separator := 32
  name := name
  value := value
  separates := .inl rfl
  named := named
  printable := printable

theorem isName_of_all {t : Bytes} (hne : t ≠ []) (hall : t.all isNameChar = true) : IsName t :=
  ⟨hne, List.all_eq_true.mp hall⟩

def twoAttributes : WrittenTag where
  name := bytes "e"
  attributes :=
    [attributeOfText "a" (bytes "1<2?") (isName_of_all (by decide) (by decide)) (by decide +kernel),
      attributeOfText "b" (bytes "x='y '/") (isName_of_all (by decide) (by decide))
        (by decide +kernel)]
  named := isName_of_all (by decide) (by decide)

theorem begun_twoAttributes : ({} : XmlParser).Reached (twoAttributes.text ++ bytes "</e>")
    { xml := {}, idx := 1, iState := .tagProcess, iLastState := .tagBegin, pElement := some {} } :=
  .single rfl

theorem readable_twoAttributes : twoAttributes.Readable [] 0 where
  int := by decide
  room := by
    refine ⟨initialWorkingBufferSize, rfl, by decide, initialWorkingBufferSize, ?_, ?_,
      trivial⟩
    · decide
    · decide
  tab h := absurd h (by decide)
  values := by
    intro a ha
    have hspace : ∀ a ∈ twoAttributes.attributes, a.value ≠ [] ∧ a.value.head? ≠ some 32 ∧
        a.apostrophes = false := by decide
    obtain ⟨hne, hhead, hapos⟩ := hspace a ha
    exact ⟨hne, hhead, fun h => absurd (hapos.symm.trans h) Bool.noConfusion⟩

theorem twoAttributes_restored : ∃ t : ParseState, Relation.ReflTransGen
      (ParseState.Next (twoAttributes.text ++ bytes "</e>"))
      { xml := {}, idx := 1, iState := .tagProcess, iLastState := .tagBegin, pElement := some {} } t ∧
    t.idx = 0+twoAttributes.text.length ∧ twoAttributes.Restored 0 t.finish ∧ ∀ code xml',
      ({} : XmlParser).parse (twoAttributes.text ++ bytes "</e>") = .ok (code, xml') →
        twoAttributes.Restored 0 xml' :=
  (twoAttributes.restored_iff .refl (by decide) begun_twoAttributes
    ⟨rfl, rfl, rfl, rfl, rfl⟩ rfl).mpr readable_twoAttributes

def spaceInFront : WrittenTag where
  name := bytes "e"
  attributes := [attributeOfText "a" (bytes " x") (isName_of_all (by decide) (by decide))
    (by decide +kernel)]
  named := isName_of_all (by decide) (by decide)

/-- The space is dropped. -/
theorem spaceInFront_not_restored : ¬ ∃ code xml',
    ({} : XmlParser).parse (spaceInFront.text ++ bytes "</e>") = .ok (code, xml') ∧
      spaceInFront.Restored 0 xml' := by
  have hlists : (({} : XmlParser).parse (spaceInFront.text ++ bytes "</e>")).map
      (fun r => (ParseState.attributeLists r.2)[0]?) = .ok (some [(bytes "a", bytes "x")]) := by
    decide +kernel
  rintro ⟨code, xml', hparse, hrestored⟩
  have hpairs := (spaceInFront.restored_iff_lists 0 xml').mp hrestored
  rw [hparse] at hlists
  have hlist : (ParseState.attributeLists xml')[0]? = some [(bytes "a", bytes "x")] :=
    Except.ok.inj hlists
  rw [hpairs] at hlist
  exact absurd hlist (by decide)

end MsgCourier
