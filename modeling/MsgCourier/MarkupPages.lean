import MsgCourier.MarkupTexts

/-! When `cParseMarkup::Parse` returns: every round that its loops come to begins with a text that
it can handle, and its buffers have room. -/
namespace MsgCourier
open ListSearch CText RegionCheck
open Markup (TitlePass RemovalPass TokenAt tokenOf TitleOk RemovalOk Next rounds findChar startsWith
  isKept keywordsOf brackets commons otherCharacters separators)

namespace ParseMarkup

variable {temp : Buffer} {baseURL value d : Bytes}

/-! ### Links -/

/-- Room for an address: the value of the attribute, behind the website's address if that is not
part of it. -/
def FillRoom [Malloc] (baseURL : Bytes) (temp : Buffer) (value : Bytes) : Prop :=
  if startsWith (bytes "http://") value then TextRoom temp.reset value
  else TextRoom temp.reset baseURL ∧
    ∀ temp', replaceWithText temp baseURL = .ok temp' → temp'.Fits value.length

/-- The only replacement in an address that makes it longer. -/
structure LinkRoom [Malloc] (baseURL : Bytes) (temp : Buffer) (value : Bytes) : Prop where
  fill : FillRoom baseURL temp value
  slashes : ∀ temp', fillLink baseURL temp value = .ok temp' →
    bytes "http:/" <:+: temp'.content → RoomFor temp' (bytes "http:/") (bytes "http://")

theorem truncateAtQuote_sized (h : temp.Sized d) :
    (truncateAtQuote temp).Sized (Markup.truncated d) := by
  unfold truncateAtQuote Markup.truncated
  rw [h.keeps.content_eq]
  cases hquote : findChar d 34 0 with
  | none => exact h
  | some i =>
    obtain ⟨-, hlt, -⟩ := Markup.findChar_eq_some hquote
    dsimp only
    split_ifs
    · exact truncate_sized h hlt.le
    · exact h

theorem truncated_ne_nil (hd : d ≠ []) : Markup.truncated d ≠ [] := by
  unfold Markup.truncated
  split
  · next i hquote =>
    obtain ⟨-, hlt, -⟩ := Markup.findChar_eq_some hquote
    split_ifs with hpos
    · intro hnil
      have hlen := congrArg List.length hnil
      rw [List.length_take_of_le hlt.le, List.length_nil] at hlen
      omega
    · exact hd
  · exact hd

theorem received_eq_self {s : Bytes} (hmax : (s.length : ℤ) ≤ intMax) : received s = s := by
  unfold received
  rw [int32_eq (by omega) hmax, Int.toNat_natCast, List.take_length]

theorem cutLink_refines [Malloc] (h : temp.Sized d) (h0 : 0 ∉ d) (hne : d ≠ []) :
    Refines True (fun b' t => b'.Sized t ∧ b'.Closed t)
      (replaceAll (truncateAtQuote temp) (bytes "//") (bytes "/"))
      (Markup.replaceAll (bytes "//") (bytes "/") (Markup.truncated d)) := by
  have hfree : 0 ∉ Markup.truncated d := fun hin => h0 ((Markup.truncated_front d).subset hin)
  have hreplace := replaceAll_refines_short (truncateAtQuote_sized h) hfree
    (show bytes "//" ≠ [] by decide) (w := bytes "/") (by decide) (by decide)
  exact hreplace.mono fun b' t _ _ hR => ⟨hR.1, hR.2 (.inl (truncated_ne_nil hne))⟩

theorem fillLink_refines [Malloc] (h : temp.Sized d) (hbase : 0 ∉ baseURL) (h0 : 0 ∉ value)
    (hne : value ≠ []) (hmax : (value.length : ℤ) ≤ intMax) :
    Refines (FillRoom baseURL temp value) (fun b' t => b'.Sized t ∧ b'.Closed t)
      (fillLink baseURL temp value) (Markup.fillLink (received baseURL) value) := by
  unfold fillLink Markup.fillLink FillRoom
  dsimp only
  split_ifs with hstart
  · have hfill := replaceWithText_refines h value
    rw [received_eq_self hmax] at hfill
    exact hfill.bind_value_free fun b' _ hR => cutLink_refines hR.1 h0 hne
  · have hfree : 0 ∉ received baseURL ++ value := by
      rw [List.mem_append]
      exact fun hin => hin.elim (received_free hbase) h0
    have hlink : received baseURL ++ value ≠ [] := List.append_ne_nil_of_right_ne_nil _ hne
    refine (replaceWithText_refines h baseURL).bind_value fun b₁ _ hR₁ => ?_
    refine (appendString_refines hR₁.1 h0 hne hmax).bind_value_free fun b₂ _ hR₂ => ?_
    exact cutLink_refines hR₂.1 hfree hlink

theorem replace_refines_short [Malloc] {pat w : Bytes} (h : temp.Sized d) (h0 : 0 ∉ d)
    (hclosed : temp.Closed d) (hpat : pat ≠ []) (hw : (w.length : ℤ) ≤ intMax)
    (hshort : w.length ≤ pat.length) :
    Refines True (fun b' r => b'.Sized r ∧ b'.Closed r) (replace temp pat w)
      (Markup.replace pat w d) := by
  refine (replace_refines h h0 hclosed hpat hw).congr fun _ _ => iff_true_intro fun hin => ?_
  refine roomFor_short h (fun hnil => hpat ?_) hshort
  rw [hnil] at hin
  exact List.infix_nil.mp hin

theorem linkText_refines [Malloc] (h : temp.Sized d) (hbase : 0 ∉ baseURL) (h0 : 0 ∉ value)
    (hne : value ≠ []) (hmax : (value.length : ℤ) ≤ intMax) :
    Refines (LinkRoom baseURL temp value) (fun b' t => b'.Sized t ∧ b'.Closed t)
      (linkText baseURL temp value)
      (Markup.linkOf (received baseURL) value >>= Markup.cleanup) := by
  have hfree {s t pat w : Bytes} (hs : 0 ∉ s) (hpat : pat ≠ []) (hw : 0 ∉ w)
      (ht : Markup.replace pat w s = .ok t) : 0 ∉ t := by
    obtain ⟨t', ht', h'⟩ := Markup.zero_notMem_replace pat w hs hpat hw
    obtain rfl := Except.ok.inj (ht.symm.trans ht')
    exact h'
  have hroom : LinkRoom baseURL temp value ↔ FillRoom baseURL temp value ∧
      ∀ temp', fillLink baseURL temp value = .ok temp' →
        bytes "http:/" <:+: temp'.content → RoomFor temp' (bytes "http:/") (bytes "http://") :=
    ⟨fun hr => ⟨hr.fill, hr.slashes⟩, fun hr => ⟨hr.1, hr.2⟩⟩
  refine Refines.congr ?_ fun _ _ => hroom.symm
  unfold linkText Markup.linkOf
  rw [bind_assoc]
  refine (fillLink_refines h hbase h0 hne hmax).bind fun b₁ t₁ _ ht₁ hR₁ => ?_
  obtain ⟨t₁', ht₁', h₁⟩ := Markup.fillLink_ok (received_free hbase) h0
  obtain rfl := Except.ok.inj (ht₁.symm.trans ht₁')
  rw [bind_assoc, hR₁.1.keeps.content_eq]
  refine (replace_refines hR₁.1 h₁ hR₁.2 (by decide) (by decide)).bind_free
    fun b₂ t₂ _ ht₂ hR₂ => ?_
  have h₂ := hfree h₁ (by decide) (by decide) ht₂
  rw [bind_assoc]
  refine (replace_refines_short hR₂.1 h₂ hR₂.2 (by decide) (by decide) (by decide)).bind_free
    fun b₃ t₃ _ ht₃ hR₃ => ?_
  have h₃ := hfree h₂ (by decide) (by decide) ht₃
  refine (replace_refines_short hR₃.1 h₃ hR₃.2 (by decide) (by decide) (by decide)).bind_free
    fun b₄ t₄ _ ht₄ hR₄ => ?_
  exact cleanup_refines hR₄.1 hR₄.2 (hfree h₃ (by decide) (by decide) ht₄)

/-! ### The states of the loops -/

/-- What the first loop sees of its state. -/
def Pass.titlePass (x : Pass) : TitlePass :=
  ⟨x.buffer.content, x.mark, x.title, x.metaContentKeywords⟩

/-- What the second loop sees of its state. -/
def Pass.removalPass (x : Pass) : RemovalPass := ⟨x.buffer.content, x.mark, x.uriMap⟩

/-- The buffers hold texts in blocks whose lengths are `int`s. -/
structure Pass.Sized (x : Pass) : Prop where
  buffer : x.buffer.Sized x.buffer.content
  token : x.token.Sized x.token.content
  temp : x.temp.Sized x.temp.content

theorem sized_content {b : Buffer} {c : Bytes} (h : b.Sized c) : b.Sized b.content := by
  rw [h.keeps.content_eq]
  exact h

/-- The same texts behind a call that has changed the blocks. -/
structure SameTexts (x x' : Pass) : Prop where
  sized : x'.Sized
  content : x'.buffer.content = x.buffer.content
  mark : x'.mark = x.mark
  title : x'.title = x.title
  keywords : x'.metaContentKeywords = x.metaContentKeywords
  uriMap : x'.uriMap = x.uriMap

variable {x : Pass} {loc1 loc2 : ℕ}

theorem SameTexts.titlePass {x' : Pass} (h : SameTexts x x') : x'.titlePass = x.titlePass := by
  unfold Pass.titlePass
  rw [h.content, h.mark, h.title, h.keywords]

theorem SameTexts.removalPass {x' : Pass} (h : SameTexts x x') :
    x'.removalPass = x.removalPass := by
  unfold Pass.removalPass
  rw [h.content, h.mark, h.uriMap]

/-- A token needs room. -/
theorem takeToken_refines [Malloc] (hx : x.Sized) (h0 : 0 ∉ x.buffer.content)
    (h : TokenAt x.buffer.content x.mark loc1 loc2) :
    Refines (x.token.reset.Fits (loc2-loc1+1 : ℕ))
      (fun r token => r.1 = token ∧ SameTexts x r.2 ∧ r.2.temp = x.temp) (takeToken x loc1 loc2)
      (Markup.region x.buffer.content loc1 ((loc2 : ℤ)-loc1+1)) := by
  have hlt := h.lt.2.1
  have hint : (loc2 : ℤ)-loc1+1 = (loc2-loc1+1 : ℕ) := by omega
  unfold takeToken
  rw [hint]
  have hcopy := copyRegion_refines hx.buffer hx.token loc1 (loc2-loc1+1 : ℕ)
  rw [← hint, h.region_eq] at hcopy ⊢
  refine hcopy.bind_value_free fun r _ hR => ?_
  obtain ⟨hbuffer, htoken, hclosed⟩ := hR
  refine .bind_left (cText_closed htoken (hclosed h.token_ne_nil)
    (Markup.zero_notMem_tokenOf h0 _ _)) fun r' _ hr' => ?_
  obtain ⟨htext, htoken', -⟩ := hr'
  refine .of_ok rfl rfl ⟨htext, ⟨⟨sized_content hbuffer, sized_content htoken', hx.temp⟩,
    hbuffer.keeps.content_eq, rfl, rfl, rfl, rfl⟩, rfl⟩

/-- A round of the buffers does what the round of the texts does. -/
structure SameRound {γ : Type} (view : Pass → γ) (o : Option Pass) (o' : Option γ) : Prop where
  view : o.map view = o'
  sized : ∀ x, o = some x → x.Sized

theorem SameRound.of_some {γ : Type} {view : Pass → γ} {y : γ} (hview : view x = y)
    (hx : x.Sized) : SameRound view (some x) (some y) :=
  ⟨congrArg some hview, fun _ hx' => Option.some.inj hx' ▸ hx⟩

/-! ### The rounds of the first loop -/

/-- Room for the token and for the title. -/
def TitleRoom (x : Pass) : Prop :=
  ∀ loc1 loc2, TokenAt x.buffer.content x.mark loc1 loc2 →
    x.token.reset.Fits (loc2-loc1+1 : ℕ) ∧
      (tokenOf x.buffer.content loc1 loc2 = bytes "<title>" →
        ∀ iEnd, findChar x.buffer.content 60 (loc2+1) = some iEnd →
          x.temp.reset.Fits (iEnd-(loc2+1) : ℕ))

theorem takeTitle_refines [Malloc] (hx : x.Sized) (h0 : 0 ∉ x.buffer.content)
    (h : TokenAt x.buffer.content x.mark loc1 loc2) :
    Refines (tokenOf x.buffer.content loc1 loc2 = bytes "<title>" →
        ∀ iEnd, findChar x.buffer.content 60 (loc2+1) = some iEnd →
          x.temp.reset.Fits (iEnd-(loc2+1) : ℕ))
      (fun r o => r.1 = o ∧ SameTexts x r.2) (takeTitle x (tokenOf x.buffer.content loc1 loc2) loc1)
      (Markup.titleOf x.titlePass (tokenOf x.buffer.content loc1 loc2) loc1) := by
  have hstart : loc1+(tokenOf x.buffer.content loc1 loc2).length = loc2+1 := by
    have hlt := h.lt
    rw [h.length_eq]
    omega
  unfold takeTitle Markup.titleOf
  by_cases htitle : tokenOf x.buffer.content loc1 loc2 = bytes "<title>"
  · rw [if_pos htitle, if_pos htitle]
    dsimp only [Pass.titlePass]
    rw [hstart]
    obtain ⟨iEnd, hiEnd⟩ : ∃ iEnd : ℤ, (findChar x.buffer.content 60 (loc2+1)).elim (-1)
        (fun i => (i : ℤ)) = iEnd := ⟨_, rfl⟩
    rw [hiEnd]
    refine Refines.congr ((copyRegion_refines hx.buffer hx.temp (loc2+1)
      (iEnd-(loc2+1 : ℕ))).bind_free fun r s _ hs hR => ?_) fun o ho => ?_
    · obtain ⟨hbuffer, htemp, hclosed⟩ := hR
      have hlen : r.2.tail = s.length := htemp.keeps.tail_eq
      have hsame (b : Buffer) (hb : b.Sized s) :
          SameTexts x { x with buffer := r.1, temp := b } :=
        ⟨⟨sized_content hbuffer, hx.token, sized_content hb⟩, hbuffer.keeps.content_eq, rfl, rfl,
          rfl, rfl⟩
      by_cases hshort : s.length < 1
      · rw [if_pos (by omega), if_pos hshort]
        exact .of_ok rfl rfl ⟨rfl, hsame _ htemp⟩
      · have hne : s ≠ [] := fun hnil => hshort (by rw [hnil]; exact Nat.zero_lt_one)
        have hs0 : 0 ∉ s := by
          unfold Markup.region at hs
          split_ifs at hs
          rw [← Except.ok.inj hs]
          exact fun hin => h0 (List.mem_of_mem_drop (List.mem_of_mem_take hin))
        rw [if_neg (by omega), if_neg hshort]
        refine .bind_left (cText_closed htemp (hclosed hne) hs0) fun r' _ hr' => ?_
        exact .of_ok rfl rfl ⟨congrArg some hr'.1, hsame _ hr'.2.1⟩
    · -- a title without a tag behind it has no region
      obtain ⟨s, hs, -⟩ := markup_bind_eq_ok.mp ho
      unfold Markup.region at hs
      split_ifs at hs with hin
      have hpos := hin.2.1
      cases hfound : findChar x.buffer.content 60 (loc2+1) with
      | none =>
        rw [hfound, Option.elim_none] at hiEnd
        omega
      | some i =>
        rw [hfound, Option.elim_some] at hiEnd
        have hint : iEnd-(loc2+1 : ℕ) = (i-(loc2+1) : ℕ) := by omega
        rw [hint]
        constructor
        · intro hfits _ i' hi'
          obtain rfl := Option.some.inj hi'
          exact hfits
        · exact fun hroom => hroom htitle i rfl
  · rw [if_neg htitle, if_neg htitle]
    refine Refines.congr (.of_ok rfl rfl ⟨rfl, hx, rfl, rfl, rfl, rfl, rfl⟩) fun _ _ => ?_
    exact ⟨fun _ hin => absurd hin htitle, fun _ => trivial⟩

theorem takeTag_refines [Malloc] (hx : x.Sized) (h0 : 0 ∉ x.buffer.content)
    (h : TokenAt x.buffer.content x.mark loc1 loc2) :
    Refines (tokenOf x.buffer.content loc1 loc2 = bytes "<title>" →
        ∀ iEnd, findChar x.buffer.content 60 (loc2+1) = some iEnd →
          x.temp.reset.Fits (iEnd-(loc2+1) : ℕ))
      (SameRound Pass.titlePass) (takeTag x (tokenOf x.buffer.content loc1 loc2) loc1)
      (Markup.takeTag x.titlePass (tokenOf x.buffer.content loc1 loc2) loc1) := by
  unfold takeTag Markup.takeTag
  refine (takeTitle_refines hx h0 h).bind_free fun r o _ ho hR => ?_
  obtain ⟨o', x'⟩ := r
  obtain ⟨rfl, hsame⟩ : o' = o ∧ SameTexts x x' := hR
  cases o' with
  | none =>
    refine .of_ok rfl rfl (.of_some ?_ ⟨hsame.sized.buffer, hsame.sized.token, hsame.sized.temp⟩)
    unfold Pass.titlePass
    dsimp only
    rw [hsame.content, hsame.title, hsame.keywords]
  | some title =>
    dsimp only
    refine (Refines.refl _).bind_free fun keywords keywords' _ _ hkeywords => ?_
    obtain rfl := hkeywords
    have hbuffer := hsame.sized.buffer
    rw [hsame.content] at hbuffer
    refine (replaceAll_refines_short hbuffer h0 h.token_ne_nil (by decide)
      (Nat.zero_le _)).bind_free fun b' text _ _ hR => ?_
    refine .of_ok rfl rfl (.of_some ?_ ⟨sized_content hR.1, hsame.sized.token, hsame.sized.temp⟩)
    unfold Pass.titlePass
    dsimp only
    rw [hR.1.keeps.content_eq, hsame.keywords]

theorem titleRound_none [Malloc] (h : ∀ loc1 loc2, ¬ TokenAt x.buffer.content x.mark loc1 loc2) :
    titleRound x = .ok none := by
  unfold titleRound
  cases hopen : findChar x.buffer.content 60 x.mark with
  | none => rfl
  | some loc1 =>
    cases hclose : findChar x.buffer.content 62 loc1 with
    | none =>
      dsimp only
      rw [hclose]
      rfl
    | some loc2 => exact absurd ⟨hopen, hclose⟩ (h loc1 loc2)

theorem titleRound_refines [Malloc] (hx : x.Sized) (h0 : 0 ∉ x.buffer.content) :
    Refines (TitleRoom x) (SameRound Pass.titlePass) (titleRound x)
      (Markup.titleRound x.titlePass) := by
  by_cases hat : ∃ loc1 loc2, TokenAt x.buffer.content x.mark loc1 loc2
  · obtain ⟨loc1, loc2, h⟩ := hat
    have hlt := h.lt.2.1
    have hint : (loc2 : ℤ)-loc1+1 = (loc2-loc1+1 : ℕ) := by omega
    have hroom : TitleRoom x ↔ x.token.reset.Fits (loc2-loc1+1 : ℕ) ∧
        (tokenOf x.buffer.content loc1 loc2 = bytes "<title>" →
          ∀ iEnd, findChar x.buffer.content 60 (loc2+1) = some iEnd →
            x.temp.reset.Fits (iEnd-(loc2+1) : ℕ)) := by
      constructor
      · exact fun hr => hr loc1 loc2 h
      · intro hr loc1' loc2' h'
        obtain ⟨rfl, rfl⟩ := h.unique h'
        exact hr
    refine Refines.congr ?_ fun _ _ => hroom.symm
    unfold titleRound Markup.titleRound
    dsimp only [Pass.titlePass]
    rw [h.opening]
    dsimp only
    rw [h.closing]
    dsimp only
    refine (takeToken_refines hx h0 h).bind_same fun r token _ hs hR => ?_
    obtain rfl := Except.ok.inj (h.region_eq.symm.trans hs)
    obtain ⟨token, x'⟩ := r
    obtain ⟨rfl, hsame, htemp⟩ : token = tokenOf x.buffer.content loc1 loc2 ∧ SameTexts x x' ∧
      x'.temp = x.temp := hR
    dsimp only
    cases hkept : isKept (tokenOf x.buffer.content loc1 loc2) with
    | true =>
      rw [if_pos rfl, if_pos rfl]
      refine Refines.congr (.of_ok rfl rfl (.of_some ?_ ⟨hsame.sized.buffer, hsame.sized.token,
        hsame.sized.temp⟩)) fun _ _ => ?_
      · unfold Pass.titlePass
        dsimp only
        rw [hsame.content, hsame.title, hsame.keywords]
      · refine ⟨fun _ htitle => ?_, fun _ => trivial⟩
        rw [htitle] at hkept
        exact absurd hkept (by decide)
    | false =>
      rw [if_neg Bool.false_ne_true, if_neg Bool.false_ne_true]
      have htoken : TokenAt x'.buffer.content x'.mark loc1 loc2 := by
        rw [hsame.content, hsame.mark]
        exact h
      have htake := takeTag_refines hsame.sized (hsame.content.symm ▸ h0) htoken
      rw [hsame.content, hsame.titlePass, htemp] at htake
      exact htake
  · have hnone : ∀ loc1 loc2, ¬ TokenAt x.buffer.content x.mark loc1 loc2 := fun loc1 loc2 h =>
      hat ⟨loc1, loc2, h⟩
    refine Refines.congr (.of_ok (titleRound_none hnone) (Markup.titleRound_none hnone)
      ⟨rfl, fun _ hx' => nomatch hx'⟩) fun _ _ => ?_
    exact ⟨fun _ loc1 loc2 h => absurd h (hnone loc1 loc2), fun _ => trivial⟩

/-! ### The rounds of the second loop -/

/-- The value that the address of a link is taken from. -/
def linkValue (token : Bytes) : Option Bytes :=
  if startsWith (bytes "<style") token || startsWith (bytes "<script") token ||
      !startsWith (bytes "<a ") token then none
  else (strstr token (bytes "href=\"")).map fun p => token.drop (p+6)

/-- Room for the token and for the address of a link. -/
def RemovalRoom [Malloc] (baseURL : Bytes) (x : Pass) : Prop :=
  ∀ loc1 loc2, TokenAt x.buffer.content x.mark loc1 loc2 →
    x.token.reset.Fits (loc2-loc1+1 : ℕ) ∧
      ∀ value, linkValue (tokenOf x.buffer.content loc1 loc2) = some value →
        LinkRoom baseURL x.temp value

theorem removeElement_refines {b : Buffer} {c endTag : Bytes} {iOffset : ℕ} (h : b.Sized c)
    (h0 : 0 ∉ c) (htag : endTag ≠ []) (hfrom : loc1 ≤ iOffset) (hloc2 : loc1 ≤ loc2)
    (hin : loc2 < c.length) (hoff : iOffset ≤ c.length) :
    Refines True (fun b' s => b'.Sized s) (removeElement b loc1 loc2 iOffset endTag)
      (Markup.removeElement c loc1 loc2 iOffset endTag) := by
  have hfree : 0 ∉ c.drop iOffset := fun hin => h0 (List.mem_of_mem_drop hin)
  obtain ⟨b', hfind, hsized, -, -⟩ := search_ok h htag hfree hoff
  have hlong := h.keeps.length_lt
  have hcontent : Markup.find c endTag iOffset =
      (firstOcc endTag (c.drop iOffset)).map (iOffset + ·) := by
    unfold Markup.find
    rw [strstr_of_zero_notMem hfree]
  obtain ⟨e, he⟩ : ∃ e, (Markup.find c endTag iOffset).getD loc2 = e := ⟨_, rfl⟩
  have hend : (if (firstOcc endTag (c.drop iOffset)).elim (-1) (fun k => ((iOffset+k : ℕ) : ℤ)) = -1
      then (loc2 : ℤ) else (firstOcc endTag (c.drop iOffset)).elim (-1) fun k =>
        ((iOffset+k : ℕ) : ℤ)) = e := by
    rw [hcontent] at he
    cases hk : firstOcc endTag (c.drop iOffset) with
    | none =>
      rw [hk] at he
      rw [← he]
      rfl
    | some k =>
      rw [hk] at he
      have hne : ¬ ((iOffset+k : ℕ) : ℤ) = -1 := by omega
      rw [Option.elim_some, if_neg hne, ← he]
      rfl
  have hbetween : loc1 ≤ e ∧ e ≤ c.length := by
    rw [← he]
    cases hk : Markup.find c endTag iOffset with
    | none => exact ⟨hloc2, hin.le⟩
    | some k =>
      obtain ⟨hle, hlen⟩ := Markup.find_eq_some htag hk
      exact ⟨hfrom.trans hle, by rw [Option.getD_some]; omega⟩
  unfold search at hfind
  unfold removeElement Markup.removeElement
  dsimp only
  rw [hfind, markup_ok_bind]
  dsimp only
  rw [hend, he]
  by_cases hmax : (e : ℤ)-loc1+8 ≤ intMax
  · rw [int32_eq (by omega) hmax]
    exact remove_refines hsized loc1 (by omega)
  · -- the length is too large for the content, and negative as an `int`
    have hneg : int32 ((e : ℤ)-loc1+8) < 0 := by
      rw [int32_of_gt (by omega) (by unfold intMax at hlong; omega)]
      unfold intMax at hlong
      omega
    refine .of_error (fun b₁ hb₁ => ?_) fun s hs => ?_
    · unfold remove at hb₁
      rw [checkRegion_fault hsized fun hin => absurd hin.2.1 (by omega)] at hb₁
      cases hb₁
    · unfold Markup.remove at hs
      rw [if_neg fun hin => absurd hin.2.2 (by omega)] at hs
      cases hs

/-- A token ends with its closing bracket, so something is left of it behind a quote. -/
theorem value_ne_nil (h0 : 0 ∉ x.buffer.content) (h : TokenAt x.buffer.content x.mark loc1 loc2)
    {p : ℕ} (hp : strstr (tokenOf x.buffer.content loc1 loc2) (bytes "href=\"") = some p) :
    (tokenOf x.buffer.content loc1 loc2).drop (p+6) ≠ [] := by
  intro hnil
  have hle := List.drop_eq_nil_iff.mp hnil
  rw [strstr_of_zero_notMem (Markup.zero_notMem_tokenOf h0 _ _)] at hp
  have hfits : p+6 ≤ (tokenOf x.buffer.content loc1 loc2).length := firstOcc_le _ hp
  obtain ⟨-, hlt, -⟩ := h.lt
  have hlen := h.length_eq
  obtain ⟨-, -, hclose⟩ := Markup.findChar_eq_some h.closing
  have hlast : (tokenOf x.buffer.content loc1 loc2)[p+5]? = some 62 := by
    have hat : p+5 = loc2-loc1 := by omega
    unfold tokenOf
    rw [hat, List.getElem?_take_of_lt (Nat.lt_succ_self _), List.getElem?_drop, ← hclose]
    congr 1
    omega
  have hmatch := ((firstOcc_eq_some_iff (show bytes "href=\"" ≠ [] by decide)).mp hp).1
  obtain ⟨rest, hrest⟩ := hmatch
  have hquote : (tokenOf x.buffer.content loc1 loc2)[p+5]? = some 34 := by
    rw [← List.getElem?_drop, ← hrest]
    rfl
  rw [hlast] at hquote
  exact absurd (Option.some.inj hquote) (by decide)

/-- The token is taken out of both texts. -/
theorem tokenTaken_refines [Malloc] (hx : x.Sized) (h0 : 0 ∉ x.buffer.content)
    (h : TokenAt x.buffer.content x.mark loc1 loc2) {temp : Buffer}
    (htemp : temp.Sized temp.content) (uriMap : List Bytes) :
    Refines True (fun x' o => x'.Sized ∧ o = some { x'.removalPass with mark := loc1 })
      (do
        let buffer ← replaceAll x.buffer (tokenOf x.buffer.content loc1 loc2) []
        pure { x with buffer, temp, uriMap })
      (do
        let text ← Markup.replaceAll (tokenOf x.buffer.content loc1 loc2) [] x.buffer.content
        pure (some ⟨text, loc1, uriMap⟩) : Markup (Option RemovalPass)) := by
  refine (replaceAll_refines_short hx.buffer h0 h.token_ne_nil (by decide)
    (Nat.zero_le _)).bind_free fun b' text _ _ hR => ?_
  refine .of_ok rfl rfl ⟨⟨sized_content hR.1, hx.token, htemp⟩, ?_⟩
  unfold Pass.removalPass
  dsimp only
  rw [hR.1.keeps.content_eq]

theorem linkValue_of_element {token : Bytes} (h : startsWith (bytes "<style") token = true ∨
    startsWith (bytes "<script") token = true) : linkValue token = none := by
  unfold linkValue
  rw [Bool.or_eq_true_iff.mpr h, Bool.true_or]
  rfl

theorem linkValue_eq {token : Bytes} (hstyle : startsWith (bytes "<style") token = false)
    (hscript : startsWith (bytes "<script") token = false) :
    linkValue token = if startsWith (bytes "<a ") token then
      (strstr token (bytes "href=\"")).map fun p => token.drop (p+6) else none := by
  unfold linkValue
  rw [hstyle, hscript]
  cases startsWith (bytes "<a ") token <;> rfl

/-- The address of a link is taken down before its token goes. -/
theorem linkTaken_refines [Malloc] (hx : x.Sized) (h0 : 0 ∉ x.buffer.content)
    (hbase : 0 ∉ baseURL) (h : TokenAt x.buffer.content x.mark loc1 loc2) {p : ℕ}
    (hp : strstr (tokenOf x.buffer.content loc1 loc2) (bytes "href=\"") = some p) :
    Refines (LinkRoom baseURL x.temp ((tokenOf x.buffer.content loc1 loc2).drop (p+6)))
      (fun x' o => x'.Sized ∧ o = some { x'.removalPass with mark := loc1 })
      (do
        let temp ← linkText baseURL x.temp ((tokenOf x.buffer.content loc1 loc2).drop (p+6))
        let (uri, temp) ← cText temp
        let buffer ← replaceAll x.buffer (tokenOf x.buffer.content loc1 loc2) []
        pure { x with buffer, temp, uriMap := x.uriMap.insert uri })
      (do
        let temp ← Markup.linkOf (received baseURL)
          ((tokenOf x.buffer.content loc1 loc2).drop (p+6))
        let temp ← Markup.cleanup temp
        let text ← Markup.replaceAll (tokenOf x.buffer.content loc1 loc2) [] x.buffer.content
        pure (some ⟨text, loc1, x.uriMap.insert temp⟩) : Markup (Option RemovalPass)) := by
  have hv0 : 0 ∉ (tokenOf x.buffer.content loc1 loc2).drop (p+6) := fun hin =>
    Markup.zero_notMem_tokenOf h0 _ _ (List.mem_of_mem_drop hin)
  have hvmax : (((tokenOf x.buffer.content loc1 loc2).drop (p+6)).length : ℤ) ≤ intMax := by
    have hlong := hx.buffer.keeps.length_lt
    have hlen := h.length_eq
    obtain ⟨-, hlt, hin⟩ := h.lt
    rw [List.length_drop]
    omega
  have hassoc : (do
      let temp ← Markup.linkOf (received baseURL)
        ((tokenOf x.buffer.content loc1 loc2).drop (p+6))
      let temp ← Markup.cleanup temp
      let text ← Markup.replaceAll (tokenOf x.buffer.content loc1 loc2) [] x.buffer.content
      pure (some ⟨text, loc1, x.uriMap.insert temp⟩) : Markup (Option RemovalPass)) =
      ((Markup.linkOf (received baseURL) ((tokenOf x.buffer.content loc1 loc2).drop (p+6)) >>=
        Markup.cleanup) >>= fun temp => do
      let text ← Markup.replaceAll (tokenOf x.buffer.content loc1 loc2) [] x.buffer.content
      pure (some ⟨text, loc1, x.uriMap.insert temp⟩)) := (bind_assoc _ _ _).symm
  rw [hassoc]
  refine (linkText_refines hx.temp hbase hv0 (value_ne_nil h0 h hp) hvmax).bind_free
    fun temp t _ ht hR => ?_
  have ht0 : 0 ∉ t := by
    obtain ⟨link, hlinkOf, hclean⟩ := markup_bind_eq_ok.mp ht
    obtain ⟨link', hlink', hfree⟩ := Markup.linkOf_ok (received_free hbase) hv0
    obtain rfl := Except.ok.inj (hlinkOf.symm.trans hlink')
    exact Markup.zero_notMem_cleanup hfree hclean
  refine .bind_left (cText_closed hR.1 hR.2 ht0) fun (uri, temp') _ hr => ?_
  obtain rfl : uri = t := hr.1
  exact tokenTaken_refines hx h0 h (sized_content hr.2.1) _

theorem removeToken_refines [Malloc] (hx : x.Sized) (h0 : 0 ∉ x.buffer.content)
    (hbase : 0 ∉ baseURL) (h : TokenAt x.buffer.content x.mark loc1 loc2) :
    Refines (∀ value, linkValue (tokenOf x.buffer.content loc1 loc2) = some value →
        LinkRoom baseURL x.temp value)
      (fun x' o => x'.Sized ∧ o = some { x'.removalPass with mark := loc1 })
      (removeToken baseURL x loc1 loc2 (tokenOf x.buffer.content loc1 loc2))
      (Markup.removeToken (received baseURL) x.removalPass loc1 loc2
        (tokenOf x.buffer.content loc1 loc2)) := by
  obtain ⟨-, hlt, hin⟩ := h.lt
  have helement {iOffset : ℕ} {endTag : Bytes} (htag : endTag ≠ []) (hfrom : loc1 ≤ iOffset)
      (hoff : iOffset ≤ x.buffer.content.length) :
      Refines True (fun x' o => x'.Sized ∧ o = some { x'.removalPass with mark := loc1 })
        (do
          let buffer ← removeElement x.buffer loc1 loc2 iOffset endTag
          pure { x with buffer })
        (do
          let text ← Markup.removeElement x.buffer.content loc1 loc2 iOffset endTag
          pure (some ⟨text, loc1, x.uriMap⟩) : Markup (Option RemovalPass)) := by
    refine (removeElement_refines hx.buffer h0 htag hfrom hlt.le hin hoff).bind_free
      fun b' text _ _ hR => ?_
    refine .of_ok rfl rfl ⟨⟨sized_content hR, hx.token, hx.temp⟩, ?_⟩
    unfold Pass.removalPass
    dsimp only
    rw [hR.keeps.content_eq]
  have hnone (hv : linkValue (tokenOf x.buffer.content loc1 loc2) = none) :
      True ↔ ∀ value, linkValue (tokenOf x.buffer.content loc1 loc2) = some value →
        LinkRoom baseURL x.temp value := by
    refine ⟨fun _ value hvalue => ?_, fun _ => trivial⟩
    rw [hv] at hvalue
    cases hvalue
  unfold removeToken Markup.removeToken
  by_cases hstyle : startsWith (bytes "<style") (tokenOf x.buffer.content loc1 loc2) = true
  · rw [if_pos hstyle, if_pos hstyle]
    exact (helement (by decide) le_rfl (hlt.le.trans hin.le)).congr
      fun _ _ => hnone (linkValue_of_element (.inl hstyle))
  by_cases hscript : startsWith (bytes "<script") (tokenOf x.buffer.content loc1 loc2) = true
  · rw [if_neg hstyle, if_neg hstyle, if_pos hscript, if_pos hscript]
    exact (helement (by decide) hlt.le hin.le).congr
      fun _ _ => hnone (linkValue_of_element (.inr hscript))
  rw [if_neg hstyle, if_neg hstyle, if_neg hscript, if_neg hscript]
  have hvalue := linkValue_eq (Bool.eq_false_iff.mpr hstyle) (Bool.eq_false_iff.mpr hscript)
  by_cases hlink : startsWith (bytes "<a ") (tokenOf x.buffer.content loc1 loc2) = true
  · rw [if_pos hlink] at hvalue
    rw [if_pos hlink, if_pos hlink]
    unfold Markup.linkText
    cases hp : strstr (tokenOf x.buffer.content loc1 loc2) (bytes "href=\"") with
    | none =>
      rw [hp, Option.map_none] at hvalue
      exact (tokenTaken_refines hx h0 h hx.temp x.uriMap).congr fun _ _ => hnone hvalue
    | some p =>
      rw [hp, Option.map_some] at hvalue
      have hroom : LinkRoom baseURL x.temp ((tokenOf x.buffer.content loc1 loc2).drop (p+6)) ↔
          ∀ value, linkValue (tokenOf x.buffer.content loc1 loc2) = some value →
            LinkRoom baseURL x.temp value := by
        rw [hvalue]
        simp only [Option.some.injEq, forall_eq']
      refine Refines.congr ?_ fun _ _ => hroom
      dsimp only
      rw [bind_assoc]
      simp only [pure_bind]
      exact linkTaken_refines hx h0 hbase h hp
  · rw [if_neg hlink] at hvalue
    rw [if_neg hlink, if_neg hlink]
    exact (tokenTaken_refines hx h0 h hx.temp x.uriMap).congr fun _ _ => hnone hvalue

theorem removalRound_none [Malloc] (baseURL : Bytes)
    (h : ∀ loc1 loc2, ¬ TokenAt x.buffer.content x.mark loc1 loc2) :
    removalRound baseURL x = .ok none := by
  unfold removalRound
  cases hopen : findChar x.buffer.content 60 x.mark with
  | none => rfl
  | some loc1 =>
    cases hclose : findChar x.buffer.content 62 loc1 with
    | none =>
      dsimp only
      rw [hclose]
      rfl
    | some loc2 => exact absurd ⟨hopen, hclose⟩ (h loc1 loc2)

theorem removalRound_refines [Malloc] (hx : x.Sized) (h0 : 0 ∉ x.buffer.content)
    (hbase : 0 ∉ baseURL) :
    Refines (RemovalRoom baseURL x) (SameRound Pass.removalPass) (removalRound baseURL x)
      (Markup.removalRound (received baseURL) x.removalPass) := by
  by_cases hat : ∃ loc1 loc2, TokenAt x.buffer.content x.mark loc1 loc2
  · obtain ⟨loc1, loc2, h⟩ := hat
    have hroom : RemovalRoom baseURL x ↔ x.token.reset.Fits (loc2-loc1+1 : ℕ) ∧
        ∀ value, linkValue (tokenOf x.buffer.content loc1 loc2) = some value →
          LinkRoom baseURL x.temp value := by
      constructor
      · exact fun hr => hr loc1 loc2 h
      · intro hr loc1' loc2' h'
        obtain ⟨rfl, rfl⟩ := h.unique h'
        exact hr
    refine Refines.congr ?_ fun _ _ => hroom.symm
    unfold removalRound Markup.removalRound
    dsimp only [Pass.removalPass]
    rw [h.opening]
    dsimp only
    rw [h.closing]
    dsimp only
    refine (takeToken_refines hx h0 h).bind_same fun r token _ hs hR => ?_
    obtain rfl := Except.ok.inj (h.region_eq.symm.trans hs)
    obtain ⟨token, x'⟩ := r
    obtain ⟨rfl, hsame, htemp⟩ : token = tokenOf x.buffer.content loc1 loc2 ∧ SameTexts x x' ∧
      x'.temp = x.temp := hR
    have htoken : TokenAt x'.buffer.content x'.mark loc1 loc2 := by
      rw [hsame.content, hsame.mark]
      exact h
    have hremove := removeToken_refines hsame.sized (hsame.content.symm ▸ h0) hbase htoken
    rw [hsame.content, hsame.removalPass, htemp] at hremove
    refine hremove.map_left fun y o hy => ?_
    obtain ⟨hsized, rfl⟩ := hy
    exact .of_some rfl ⟨hsized.buffer, hsized.token, hsized.temp⟩
  · have hnone : ∀ loc1 loc2, ¬ TokenAt x.buffer.content x.mark loc1 loc2 := fun loc1 loc2 h =>
      hat ⟨loc1, loc2, h⟩
    refine Refines.congr (.of_ok (removalRound_none baseURL hnone) (Markup.removalRound_none hnone)
      ⟨rfl, fun _ hx' => nomatch hx'⟩) fun _ _ => ?_
    exact ⟨fun _ loc1 loc2 h => absurd h (hnone loc1 loc2), fun _ => trivial⟩

end ParseMarkup
end MsgCourier
