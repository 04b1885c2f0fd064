import MsgCourier.MarkupPages

/-! When `cParseMarkup::Parse` returns: every round that its loops come to begins with a text that
it can handle, and every text that is copied has room. -/
namespace MsgCourier
open ListSearch CText RegionCheck
open Markup (TitlePass TitleOk RemovalOk Next rounds brackets commons otherCharacters separators)

namespace ParseMarkup

variable {p : ParseMarkup} {b : Buffer} {c pData : Bytes} {bLightParse : Bool}

/-! ### The text in front of the loops -/

theorem roomEach_true {α τ ε : Type} (op : α → τ → Except ε α) (l : List τ) (a : α) :
    RoomEach op (fun _ _ => True) l a := by
  induction l generalizing a with
  | nil => trivial
  | cons t l ih => exact ⟨trivial, fun a' _ => ih a'⟩

/-- Replacements that are not longer than their patterns, one behind the other. -/
theorem replaceEach_refines [Malloc] {pairs : List (Bytes × Bytes)} (hpairs : ∀ pair ∈ pairs,
      pair.1 ≠ [] ∧ 0 ∉ pair.2 ∧ (pair.2.length : ℤ) ≤ intMax ∧ pair.2.length ≤ pair.1.length)
    (h : b.Sized c) (h0 : 0 ∉ c) :
    Refines True (fun b' s => b'.Sized s ∧ 0 ∉ s) (replaceEach pairs b)
      (Markup.replaceEach pairs c) := by
  have hstep : ∀ (b' : Buffer) (s : Bytes), ∀ pair ∈ pairs, b'.Sized s ∧ 0 ∉ s →
      Refines True (fun b' s => b'.Sized s ∧ 0 ∉ s) (replaceAll b' pair.1 pair.2)
        (Markup.replaceAll pair.1 pair.2 s) := by
    intro b' s pair hin hs
    obtain ⟨hpat, hw0, hw, hshort⟩ := hpairs pair hin
    refine (replaceAll_refines_short hs.1 hs.2 hpat hw hshort).mono fun b₁ r _ hr hR => ⟨hR.1, ?_⟩
    obtain ⟨r', hr', h'⟩ := Markup.zero_notMem_replaceAll pair.1 pair.2 hs.2 hpat hw0
    obtain rfl := Except.ok.inj (hr.symm.trans hr')
    exact h'
  have hfold := Refines.foldlM hstep ⟨h, h0⟩
  exact hfold.congr fun _ _ => iff_true_intro (roomEach_true _ _ _)

def lowered (bLightParse : Bool) (s : Bytes) : Bytes :=
  if bLightParse then s else Markup.toLower s

theorem lowered_free (h0 : 0 ∉ c) : 0 ∉ lowered bLightParse c := by
  unfold lowered
  split_ifs
  · exact h0
  · exact Markup.zero_notMem_toLower h0

/-- The page with its brackets decoded, as a text. -/
def decoded (pData : Bytes) (bLightParse : Bool) : Markup Bytes :=
  Markup.replaceEach brackets (lowered bLightParse (received pData))

theorem decodeText_refines [Malloc] (h : p.buffer.Sized c) (hdata : 0 ∉ pData) :
    Refines (TextRoom p.buffer.reset pData) (fun b s => b.Sized s ∧ 0 ∉ s)
      (p.decodeText pData bLightParse) (decoded pData bLightParse) := by
  unfold decodeText decoded
  refine (replaceWithText_refines h pData).bind_value_free fun b₁ _ hR => ?_
  have hlow : (if bLightParse = true then b₁ else RegionCheck.toLower b₁).Sized
      (lowered bLightParse (received pData)) := by
    unfold lowered
    split_ifs
    · exact hR.1
    · exact toLower_sized hR.1
  exact replaceEach_refines (by decide) hlow (lowered_free (received_free hdata))

/-- Room for the page, and for a blank behind each closing bracket. -/
structure FillTextRoom [Malloc] (p : ParseMarkup) (pData : Bytes) (bLightParse : Bool) : Prop where
  page : TextRoom p.buffer.reset pData
  brackets : ∀ b, p.decodeText pData bLightParse = .ok b →
    ReplaceRoom b (bytes ">") (bytes "> ")

theorem fillText_refines [Malloc] (h : p.buffer.Sized c) (hdata : 0 ∉ pData) :
    Refines (p.FillTextRoom pData bLightParse)
      (fun b s => b.Sized s ∧ 0 ∉ s ∧ Markup.BlankBehind s) (p.fillText pData bLightParse)
      (decoded pData bLightParse >>= Markup.replaceAll (bytes ">") (bytes "> ")) := by
  have hroom : p.FillTextRoom pData bLightParse ↔ TextRoom p.buffer.reset pData ∧
      ∀ b, p.decodeText pData bLightParse = .ok b → ReplaceRoom b (bytes ">") (bytes "> ") :=
    ⟨fun hr => ⟨hr.page, hr.brackets⟩, fun hr => ⟨hr.1, hr.2⟩⟩
  refine Refines.congr ?_ fun _ _ => hroom.symm
  unfold fillText
  refine (decodeText_refines h hdata).bind fun b s _ _ hs => ?_
  refine (replaceAll_refines hs.1 hs.2 (by decide) (by decide)).mono fun b' r _ hr hR => ?_
  obtain ⟨r', hr', hfree⟩ := Markup.zero_notMem_replaceAll (bytes ">") (bytes "> ") hs.2
    (by decide) (by decide)
  obtain rfl := Except.ok.inj (hr.symm.trans hr')
  exact ⟨hR.1, hfree, Markup.blankBehind_brackets hs.2 hr⟩

theorem filled_ok (hdata : 0 ∉ pData) : ∃ s,
    (decoded pData bLightParse >>= Markup.replaceAll (bytes ">") (bytes "> ")) = .ok s := by
  obtain ⟨s₁, hs₁, h₁⟩ := Markup.replaceEach_ok brackets (by decide)
    (@lowered_free _ bLightParse (received_free hdata))
  obtain ⟨s₂, hs₂, -⟩ := Markup.zero_notMem_replaceAll (bytes ">") (bytes "> ") h₁
    (by decide) (by decide)
  refine ⟨s₂, ?_⟩
  unfold decoded
  rw [hs₁]
  exact hs₂

/-! ### The loops -/

variable {x x' y y' : Pass}

/-- The state of the first loop. -/
structure TitleInv (x : Pass) : Prop where
  sized : x.Sized
  texts : x.titlePass.Inv

theorem titleRound_iff [Malloc] (h : TitleInv x) :
    (∃ o, titleRound x = .ok o) ↔ TitleRoom x ∧ TitleOk x.titlePass := by
  rw [(titleRound_refines h.sized h.texts.text).returns_iff, Markup.titleRound_ok_iff h.texts]

theorem TitleInv.next [Malloc] (h : TitleInv x) (hnext : Next titleRound x x') :
    TitleInv x' ∧ x'.titlePass.measure < x.titlePass.measure := by
  obtain ⟨-, o, ho, hsame⟩ := (titleRound_refines h.sized h.texts.text).result _ hnext
  have hview : o = some x'.titlePass := hsame.view.symm
  rw [hview] at ho
  obtain ⟨hinv, hless⟩ := h.texts.next ho
  exact ⟨⟨hsame.sized x' rfl, hinv⟩, hless⟩

/-- The state of the second loop. -/
structure RemovalInv (y : Pass) : Prop where
  sized : y.Sized
  text : 0 ∉ y.buffer.content
  title : 0 ∉ y.title
  keywords : 0 ∉ y.metaContentKeywords

theorem removalRound_iff [Malloc] (h : RemovalInv y) (hbase : 0 ∉ p.baseURL) :
    (∃ o, removalRound p.baseURL y = .ok o) ↔
      RemovalRoom p.baseURL y ∧ RemovalOk (received p.baseURL) y.removalPass := by
  rw [(removalRound_refines h.sized h.text hbase).returns_iff,
    Markup.removalRound_ok_iff h.text (received_free hbase)]

/-- The second loop changes no member but the addresses. -/
structure SameNames (y y' : Pass) : Prop where
  title : y'.title = y.title
  keywords : y'.metaContentKeywords = y.metaContentKeywords

theorem takeToken_names [Malloc] {loc1 loc2 : ℕ} {r : Bytes × Pass}
    (h : takeToken y loc1 loc2 = .ok r) : SameNames y r.2 := by
  obtain ⟨r₁, -, h⟩ := markup_bind_eq_ok.mp h
  obtain ⟨r₂, -, h⟩ := markup_bind_eq_ok.mp h
  obtain rfl := Except.ok.inj h
  exact ⟨rfl, rfl⟩

theorem removeToken_names [Malloc] {baseURL token : Bytes} {loc1 loc2 : ℕ}
    (h : removeToken baseURL y loc1 loc2 token = .ok y') : SameNames y y' := by
  unfold removeToken at h
  split_ifs at h
  · obtain ⟨b, -, h⟩ := markup_bind_eq_ok.mp h
    exact Except.ok.inj h ▸ ⟨rfl, rfl⟩
  · obtain ⟨b, -, h⟩ := markup_bind_eq_ok.mp h
    exact Except.ok.inj h ▸ ⟨rfl, rfl⟩
  · cases hp : strstr token (bytes "href=\"") with
    | none =>
      rw [hp] at h
      obtain ⟨b, -, h⟩ := markup_bind_eq_ok.mp h
      exact Except.ok.inj h ▸ ⟨rfl, rfl⟩
    | some p =>
      rw [hp] at h
      obtain ⟨temp, -, h⟩ := markup_bind_eq_ok.mp h
      obtain ⟨r, -, h⟩ := markup_bind_eq_ok.mp h
      obtain ⟨b, -, h⟩ := markup_bind_eq_ok.mp h
      exact Except.ok.inj h ▸ ⟨rfl, rfl⟩
  · obtain ⟨b, -, h⟩ := markup_bind_eq_ok.mp h
    exact Except.ok.inj h ▸ ⟨rfl, rfl⟩

theorem removalRound_names [Malloc] {baseURL : Bytes} (h : Next (removalRound baseURL) y y') :
    SameNames y y' := by
  have hround : removalRound baseURL y = .ok (some y') := h
  unfold removalRound at hround
  split at hround
  · cases hround
  · split at hround
    · cases hround
    · obtain ⟨r, hr, hround⟩ := markup_bind_eq_ok.mp hround
      obtain ⟨y₁, hy₁, hround⟩ := markup_bind_eq_ok.mp hround
      have htoken := takeToken_names hr
      have hremove := removeToken_names hy₁
      obtain rfl := Option.some.inj (Except.ok.inj hround)
      exact ⟨hremove.title.trans htoken.title, hremove.keywords.trans htoken.keywords⟩

theorem RemovalInv.next [Malloc] (h : RemovalInv y) (hbase : 0 ∉ p.baseURL)
    (hnext : Next (removalRound p.baseURL) y y') :
    RemovalInv y' ∧ y'.buffer.content.length < y.buffer.content.length := by
  obtain ⟨-, o, ho, hsame⟩ := (removalRound_refines h.sized h.text hbase).result _ hnext
  have hview : o = some y'.removalPass := hsame.view.symm
  rw [hview] at ho
  obtain ⟨hfree, hless⟩ := Markup.removalRound_next h.text ho
  have hnames := removalRound_names hnext
  exact ⟨⟨hsame.sized y' rfl, hfree, hnames.title ▸ h.title, hnames.keywords ▸ h.keywords⟩, hless⟩

/-! ### Texts behind the text -/

/-- Each of the texts has room where it is appended. -/
def AppendsRoom [Malloc] (b : Buffer) (texts : List Bytes) : Prop :=
  RoomEach appendText TextRoom texts b

theorem appendTexts_refines [Malloc] {texts : List Bytes} (htexts : ∀ s ∈ texts, 0 ∉ s)
    (h : b.Sized c) (h0 : 0 ∉ c) :
    Refines (AppendsRoom b texts) (fun b' s => b'.Sized s ∧ 0 ∉ s) (texts.foldlM appendText b)
      (texts.foldlM (fun c s => .ok (c ++ received s)) c : Markup Bytes) := by
  refine Refines.foldlM (fun b' c' s hs hR => ?_) ⟨h, h0⟩
  refine (appendText_refines hR.1 s).mono fun b₁ t _ ht hR' => ⟨hR'.1, ?_⟩
  rw [← Except.ok.inj ht, List.mem_append]
  exact fun hin => hin.elim hR.2 (received_free (htexts s hs))

theorem appended_ok {texts : List Bytes} (htexts : ∀ s ∈ texts, 0 ∉ s) (h0 : 0 ∉ c) :
    ∃ s, (texts.foldlM (fun c s => .ok (c ++ received s)) c : Markup Bytes) = .ok s ∧ 0 ∉ s := by
  induction texts generalizing c with
  | nil => exact ⟨c, rfl, h0⟩
  | cons t l ih =>
    refine ih (fun s hs => htexts s (List.mem_cons_of_mem _ hs)) ?_
    rw [List.mem_append]
    exact fun hin => hin.elim h0 (received_free (htexts t List.mem_cons_self))

/-- Room for the keywords, where there are any. -/
def KeywordsRoom [Malloc] (bLightParse : Bool) (x : Pass) : Prop :=
  bLightParse = false → x.metaContentKeywords.length > 0 →
    AppendsRoom x.buffer [bytes " ", x.metaContentKeywords]

theorem keywords_free (h : TitleInv x) :
    ∀ s ∈ [bytes " ", x.metaContentKeywords], 0 ∉ s := by
  intro s hs
  rcases List.mem_cons.mp hs with rfl | hs
  · decide
  · exact List.mem_singleton.mp hs ▸ h.texts.keywords

theorem appendKeywords_iff [Malloc] (h : TitleInv x) :
    (∃ y, appendKeywords bLightParse x = .ok y) ↔ KeywordsRoom bLightParse x := by
  have happend := appendTexts_refines (keywords_free h) h.sized.buffer h.texts.text
  unfold appendKeywords KeywordsRoom
  split_ifs with hkeywords
  · have hlight : bLightParse = false := by simpa using hkeywords.1
    have hiff := happend.returns_iff
    obtain ⟨s, hs, -⟩ := appended_ok (keywords_free h) h.texts.text
    rw [and_iff_left ⟨s, hs⟩] at hiff
    refine Iff.trans ⟨fun hy => ?_, fun hb => ?_⟩ (hiff.trans ⟨fun hr _ _ => hr, fun hr =>
      hr hlight hkeywords.2⟩)
    · obtain ⟨y, hy⟩ := hy
      obtain ⟨b, hb, -⟩ := markup_bind_eq_ok.mp hy
      exact ⟨b, hb⟩
    · obtain ⟨b, hb⟩ := hb
      rw [hb]
      exact ⟨_, rfl⟩
  · refine ⟨fun _ hlight hlen => absurd ⟨by simpa using hlight, hlen⟩ hkeywords, fun _ => ⟨_, rfl⟩⟩

theorem appendKeywords_inv [Malloc] (h : TitleInv x)
    (hy : appendKeywords bLightParse x = .ok y) : RemovalInv y := by
  unfold appendKeywords at hy
  split_ifs at hy
  · obtain ⟨b, hb, hy⟩ := markup_bind_eq_ok.mp hy
    obtain ⟨-, s, -, hsized, hfree⟩ :=
      (appendTexts_refines (keywords_free h) h.sized.buffer h.texts.text).result b hb
    obtain rfl := Except.ok.inj hy
    refine ⟨⟨sized_content hsized, h.sized.token, h.sized.temp⟩, ?_, h.texts.title,
      h.texts.keywords⟩
    dsimp only
    rw [hsized.keeps.content_eq]
    exact hfree
  · obtain rfl := Except.ok.inj hy
    exact ⟨⟨h.sized.buffer, h.sized.token, h.sized.temp⟩, h.texts.text, h.texts.title,
      h.texts.keywords⟩

/-! ### The words -/

/-- Room for the title and the website's address. -/
def NamesRoom [Malloc] (p : ParseMarkup) (bLightParse : Bool) (y : Pass) : Prop :=
  bLightParse = false → AppendsRoom y.buffer [bytes " ", y.title, bytes " ", p.baseURL]

theorem names_free (hbase : 0 ∉ p.baseURL) (h : RemovalInv y) :
    ∀ s ∈ [bytes " ", y.title, bytes " ", p.baseURL], 0 ∉ s := by
  intro s hs
  simp only [List.mem_cons, List.not_mem_nil, or_false] at hs
  rcases hs with rfl | rfl | rfl | rfl
  · decide
  · exact h.title
  · decide
  · exact hbase

/-- The title and the website's address behind the text, as texts. -/
def named (p : ParseMarkup) (bLightParse : Bool) (y : Pass) : Markup Bytes :=
  if bLightParse then .ok y.buffer.content
  else [bytes " ", y.title, bytes " ", p.baseURL].foldlM (fun c s => .ok (c ++ received s))
    y.buffer.content

/-- The text whose words are taken, as a text. -/
def cleaned (p : ParseMarkup) (bLightParse : Bool) (y : Pass) : Markup Bytes := do
  let s ← p.named bLightParse y
  let s ← Markup.replaceEach (if bLightParse then [] else commons) s
  Markup.replaceEach otherCharacters s

theorem appendNames_refines [Malloc] (hbase : 0 ∉ p.baseURL) (h : RemovalInv y) :
    Refines (p.NamesRoom bLightParse y) (fun b s => b.Sized s ∧ 0 ∉ s)
      (p.appendNames bLightParse y) (p.named bLightParse y) := by
  unfold appendNames NamesRoom named
  cases bLightParse with
  | true =>
    refine Refines.congr (.of_ok rfl rfl ⟨h.sized.buffer, h.text⟩) fun _ _ => ?_
    exact ⟨fun _ hlight => Bool.noConfusion hlight, fun _ => trivial⟩
  | false =>
    refine (appendTexts_refines (names_free hbase h) h.sized.buffer h.text).congr fun _ _ => ?_
    exact ⟨fun hr _ => hr, fun hr => hr rfl⟩

theorem commons_short : ∀ pair ∈ (if bLightParse then [] else commons),
    pair.1 ≠ [] ∧ 0 ∉ pair.2 ∧ (pair.2.length : ℤ) ≤ intMax ∧ pair.2.length ≤ pair.1.length := by
  cases bLightParse <;> decide

theorem cleanText_refines [Malloc] (hbase : 0 ∉ p.baseURL) (h : RemovalInv y) :
    Refines (p.NamesRoom bLightParse y) (fun b s => b.Sized s ∧ 0 ∉ s)
      (p.cleanText bLightParse y) (p.cleaned bLightParse y) := by
  unfold cleanText cleaned
  refine (appendNames_refines hbase h).bind_free fun b₁ s₁ _ _ h₁ => ?_
  refine (replaceEach_refines commons_short h₁.1 h₁.2).bind_free fun b₂ s₂ _ _ h₂ => ?_
  exact replaceEach_refines (by decide) h₂.1 h₂.2

theorem cleaned_ok (hbase : 0 ∉ p.baseURL) (h : RemovalInv y) :
    ∃ s, p.cleaned bLightParse y = .ok s := by
  obtain ⟨s₁, hs₁, h₁⟩ : ∃ s, p.named bLightParse y = .ok s ∧ 0 ∉ s := by
    unfold named
    split_ifs
    · exact ⟨_, rfl, h.text⟩
    · exact appended_ok (names_free hbase h) h.text
  obtain ⟨s₂, hs₂, h₂⟩ := Markup.replaceEach_ok (if bLightParse then [] else commons)
    (fun pair hin => ⟨(commons_short pair hin).1, (commons_short pair hin).2.1⟩) h₁
  obtain ⟨s₃, hs₃, -⟩ := Markup.replaceEach_ok otherCharacters (by decide) h₂
  refine ⟨s₃, ?_⟩
  unfold cleaned
  rw [hs₁, markup_ok_bind, hs₂, markup_ok_bind, hs₃]

/-- Each of the words has room where it is appended, and so has the blank behind it. -/
def WordsRoom [Malloc] (b : Buffer) (words : List Bytes) : Prop :=
  RoomEach appendString (fun b s => b.Fits s.length) (spaced words) b

theorem mem_spaced {words : List Bytes} {s : Bytes} (hs : s ∈ spaced words) :
    s ∈ words ∨ s = bytes " " := by
  obtain ⟨word, hword, hs⟩ := List.mem_flatMap.mp hs
  rcases List.mem_cons.mp hs with rfl | hs
  · exact .inl hword
  · exact .inr (List.mem_singleton.mp hs)

theorem appendWords_refines [Malloc] {words : List Bytes}
    (hwords : ∀ s ∈ words, 0 ∉ s ∧ s ≠ [] ∧ (s.length : ℤ) ≤ intMax) (h : b.Sized c)
    (hb : b.pBuffer ≠ none) :
    Refines (WordsRoom b words) (fun b' s => b'.Sized s ∧ b'.pBuffer ≠ none)
      ((spaced words).foldlM appendString b)
      ((spaced words).foldlM (fun c s => .ok (c ++ s)) c : Markup Bytes) := by
  refine Refines.foldlM (fun b' c' s hs hR => ?_) ⟨h, hb⟩
  have hword : 0 ∉ s ∧ s ≠ [] ∧ (s.length : ℤ) ≤ intMax := by
    rcases mem_spaced hs with hin | rfl
    · exact hwords s hin
    · decide
  refine (appendString_refines hR.1 hword.1 hword.2.1 hword.2.2).mono fun b₁ t _ _ hR' =>
    ⟨hR'.1, ?_⟩
  obtain ⟨junk, hblock⟩ := hR'.2.pBuffer_eq
  exact hblock ▸ Option.some_ne_none _

theorem joined_ok (texts : List Bytes) (c : Bytes) :
    ∃ s, (texts.foldlM (fun c s => .ok (c ++ s)) c : Markup Bytes) = .ok s := by
  induction texts generalizing c with
  | nil => exact ⟨c, rfl⟩
  | cons t l ih => exact ih (c ++ t)

/-- What is needed behind the loops: room for the title and the website's address, a text, and room
for its words. -/
structure FinishRoom [Malloc] (p : ParseMarkup) (bLightParse : Bool) (y : Pass) : Prop where
  names : p.NamesRoom bLightParse y
  text : ∀ b, p.cleanText bLightParse y = .ok b → b.pBuffer ≠ none
  words : ∀ b r, p.cleanText bLightParse y = .ok b → cText b = .ok r →
    WordsRoom r.2.reset (wordsOf bLightParse r.1)

theorem words_refines [Malloc] (hbase : 0 ∉ p.baseURL) (h : RemovalInv y) {r : Bytes × Buffer}
    (hb : p.cleanText bLightParse y = .ok b) (hr : cText b = .ok r) :
    Refines (WordsRoom r.2.reset (wordsOf bLightParse r.1))
      (fun b' s => b'.Sized s ∧ b'.pBuffer ≠ none)
      ((spaced (wordsOf bLightParse r.1)).foldlM appendString r.2.reset)
      ((spaced (wordsOf bLightParse r.1)).foldlM (fun c s => .ok (c ++ s)) [] : Markup Bytes) := by
  obtain ⟨-, s, -, hsized, hfree⟩ := (cleanText_refines hbase h).result b hb
  obtain ⟨htext, hsized', hclosed⟩ := cText_result hsized hfree hr
  have hlong := hsized.keeps.length_lt
  have hblock : r.2.reset.pBuffer ≠ none := by
    obtain ⟨junk, hblock⟩ := hclosed.pBuffer_eq
    exact hblock ▸ Option.some_ne_none _
  refine appendWords_refines (fun word hin => ⟨fun h0 => ?_, ne_nil_of_mem_tokenizer hin, ?_⟩)
    hsized'.reset hblock
  · exact hfree (htext ▸ (of_mem_tokenizer hin 0 h0).1)
  · have hle := length_le_of_mem_splitOnP (List.mem_of_mem_filter hin)
    rw [htext] at hle
    omega

theorem finish_iff [Malloc] (hbase : 0 ∉ p.baseURL) (h : RemovalInv y) :
    (∃ r, p.finish bLightParse y = .ok r) ↔ p.FinishRoom bLightParse y := by
  have hclean : Refines (p.NamesRoom bLightParse y) (fun b s => b.Sized s ∧ 0 ∉ s)
      (p.cleanText bLightParse y) (p.cleaned bLightParse y) := cleanText_refines hbase h
  have hclean_iff := hclean.returns_iff
  rw [and_iff_left (cleaned_ok hbase h)] at hclean_iff
  unfold finish
  constructor
  · intro hr
    obtain ⟨r, hr⟩ := hr
    obtain ⟨b, hb, hr⟩ := markup_bind_eq_ok.mp hr
    obtain ⟨r₁, hr₁, hr⟩ := markup_bind_eq_ok.mp hr
    obtain ⟨b₂, hb₂, -⟩ := markup_bind_eq_ok.mp hr
    obtain ⟨-, s, -, hsized, hfree⟩ := hclean.result b hb
    refine ⟨hclean_iff.mp ⟨b, hb⟩, fun b' hb' => ?_, fun b' r' hb' hr' => ?_⟩
    · obtain rfl := Except.ok.inj (hb.symm.trans hb')
      exact (cText_iff hsized).mp ⟨r₁, hr₁⟩
    · obtain rfl := Except.ok.inj (hb.symm.trans hb')
      obtain rfl := Except.ok.inj (hr₁.symm.trans hr')
      exact ((words_refines hbase h hb hr₁).result b₂ hb₂).1
  · intro hroom
    obtain ⟨b, hb⟩ := hclean_iff.mpr hroom.names
    obtain ⟨-, s, -, hsized, -⟩ := hclean.result b hb
    obtain ⟨r₁, hr₁⟩ := (cText_iff hsized).mpr (hroom.text b hb)
    obtain ⟨s₂, hs₂⟩ := joined_ok (spaced (wordsOf bLightParse r₁.1)) []
    obtain ⟨b₂, hb₂⟩ := (words_refines hbase h hb hr₁).returns (hroom.words b r₁ hb hr₁) s₂ hs₂
    obtain ⟨-, t, -, hsized₂, hblock⟩ := (words_refines hbase h hb hr₁).result b₂ hb₂
    obtain ⟨r₃, hr₃⟩ := (cText_iff hsized₂).mpr hblock
    obtain ⟨text, b₁⟩ := r₁
    dsimp only at hb₂
    rw [hb, markup_ok_bind, hr₁, markup_ok_bind]
    dsimp only
    rw [hb₂, markup_ok_bind, hr₃, markup_ok_bind]
    exact ⟨_, rfl⟩

/-! ### The whole call -/

/-- What each call of `Parse` finds and leaves: texts of C, and a buffer with a content. -/
structure Ready (p : ParseMarkup) : Prop where
  baseURL : 0 ∉ p.baseURL
  title : 0 ∉ p.title
  keywords : 0 ∉ p.metaContentKeywords
  buffer : p.buffer.Sized p.buffer.content

/-- A state that the first loop comes to. -/
def FirstLoop [Malloc] (p : ParseMarkup) (pData : Bytes) (bLightParse : Bool) (x : Pass) : Prop :=
  ∃ b, p.fillText pData bLightParse = .ok b ∧
    Relation.ReflTransGen (Next titleRound) (p.titleStart b) x

/-- A state that the second loop comes to. -/
def SecondLoop [Malloc] (p : ParseMarkup) (pData : Bytes) (bLightParse : Bool) (y : Pass) : Prop :=
  ∃ x y₀, p.FirstLoop pData bLightParse x ∧ titleRound x = .ok none ∧
    appendKeywords bLightParse x = .ok y₀ ∧
    Relation.ReflTransGen (Next (removalRound p.baseURL)) y₀ y

/-- What the call needs of the page, and of each state that its loops come to. -/
structure RoundsOk [Malloc] (p : ParseMarkup) (pData : Bytes) (bLightParse : Bool) : Prop where
  fill : p.FillTextRoom pData bLightParse
  title : ∀ x, p.FirstLoop pData bLightParse x → TitleRoom x ∧ TitleOk x.titlePass
  keywords : ∀ x, p.FirstLoop pData bLightParse x → titleRound x = .ok none →
    KeywordsRoom bLightParse x
  removal : ∀ y, p.SecondLoop pData bLightParse y →
    RemovalRoom p.baseURL y ∧ RemovalOk (received p.baseURL) y.removalPass
  finish : ∀ y, p.SecondLoop pData bLightParse y → removalRound p.baseURL y = .ok none →
    p.FinishRoom bLightParse y

/-- The call returns: its loops end, and each region is inside the content. -/
def ParsesSafely [Malloc] (p : ParseMarkup) (pData : Bytes) (bLightParse : Bool) : Prop :=
  ∃ n r, p.parse n pData bLightParse = .ok r

theorem titleStart_inv [Malloc] (hp : p.Ready) (hdata : 0 ∉ pData)
    (hb : p.fillText pData bLightParse = .ok b) : TitleInv (p.titleStart b) := by
  obtain ⟨-, s, -, hsized, hfree, hblank⟩ := (fillText_refines hp.buffer hdata).result b hb
  have hcontent := hsized.keeps.content_eq
  rw [← hcontent] at hfree hblank
  exact ⟨⟨sized_content hsized, Buffer.Sized.null, Buffer.Sized.null⟩,
    ⟨hfree, hp.title, hp.keywords, hblank⟩⟩

theorem FirstLoop.inv [Malloc] (h : p.FirstLoop pData bLightParse x) (hp : p.Ready)
    (hdata : 0 ∉ pData) : TitleInv x := by
  obtain ⟨b, hb, hreach⟩ := h
  exact Markup.invariant_of_reaches (fun _ _ hx hnext => (hx.next hnext).1)
    (titleStart_inv hp hdata hb) hreach

theorem SecondLoop.inv [Malloc] (h : p.SecondLoop pData bLightParse y) (hp : p.Ready)
    (hdata : 0 ∉ pData) : RemovalInv y := by
  obtain ⟨x, y₀, hx, -, hkeywords, hreach⟩ := h
  exact Markup.invariant_of_reaches (fun _ _ hy hnext => (hy.next hp.baseURL hnext).1)
    (appendKeywords_inv (hx.inv hp hdata) hkeywords) hreach

/-- The parts of a call that returns. -/
structure Parts [Malloc] (p : ParseMarkup) (n : ℕ) (pData : Bytes) (bLightParse : Bool) (b : Buffer)
    (x y₀ y : Pass) (r : ParseMarkup) : Prop where
  fill : p.fillText pData bLightParse = .ok b
  title : rounds titleRound n (p.titleStart b) = .ok x
  keywords : appendKeywords bLightParse x = .ok y₀
  removal : rounds (removalRound p.baseURL) n y₀ = .ok y
  finish : p.finish bLightParse y = .ok r

theorem parse_eq_ok_iff [Malloc] {n : ℕ} {r : ParseMarkup} :
    p.parse n pData bLightParse = .ok r ↔ ∃ b x y₀ y, p.Parts n pData bLightParse b x y₀ y r := by
  unfold parse
  constructor
  · intro h
    obtain ⟨b, hb, h⟩ := markup_bind_eq_ok.mp h
    obtain ⟨x, hx, h⟩ := markup_bind_eq_ok.mp h
    obtain ⟨y₀, hy₀, h⟩ := markup_bind_eq_ok.mp h
    obtain ⟨y, hy, h⟩ := markup_bind_eq_ok.mp h
    exact ⟨b, x, y₀, y, hb, hx, hy₀, hy, h⟩
  · intro h
    obtain ⟨b, x, y₀, y, h⟩ := h
    rw [h.fill, markup_ok_bind, h.title, markup_ok_bind, h.keywords, markup_ok_bind, h.removal,
      markup_ok_bind, h.finish]

theorem RoundsOk.of_parts [Malloc] (hp : p.Ready) (hdata : 0 ∉ pData) {n : ℕ} {y₀ : Pass}
    {r : ParseMarkup} (h : p.Parts n pData bLightParse b x y₀ y r) :
    p.RoundsOk pData bLightParse := by
  -- the loops are left at one place only
  have hleft (x') (hx' : p.FirstLoop pData bLightParse x') (hnone : titleRound x' = .ok none) :
      x' = x := by
    obtain ⟨b', hb', hreach⟩ := hx'
    obtain rfl := Except.ok.inj (h.fill.symm.trans hb')
    exact Markup.left_of_rounds h.title hreach hnone
  have hsecond (y') (hy' : p.SecondLoop pData bLightParse y') :
      Relation.ReflTransGen (Next (removalRound p.baseURL)) y₀ y' := by
    obtain ⟨x', y₀', hx', hnone, hkeywords, hreach⟩ := hy'
    obtain rfl := hleft x' hx' hnone
    obtain rfl := Except.ok.inj (h.keywords.symm.trans hkeywords)
    exact hreach
  refine ⟨?_, fun x' hx' => ?_, fun x' hx' hnone => ?_, fun y' hy' => ?_, fun y' hy' hnone => ?_⟩
  · exact ((fillText_refines hp.buffer hdata).result b h.fill).1
  · have hinv := hx'.inv hp hdata
    obtain ⟨b', hb', hreach⟩ := hx'
    obtain rfl := Except.ok.inj (h.fill.symm.trans hb')
    exact (titleRound_iff hinv).mp (Markup.ok_of_rounds h.title hreach)
  · have hinv := hx'.inv hp hdata
    obtain rfl := hleft x' hx' hnone
    exact (appendKeywords_iff hinv).mp ⟨y₀, h.keywords⟩
  · exact (removalRound_iff (hy'.inv hp hdata) hp.baseURL).mp
      (Markup.ok_of_rounds h.removal (hsecond y' hy'))
  · have hinv := hy'.inv hp hdata
    obtain rfl := Markup.left_of_rounds h.removal (hsecond y' hy') hnone
    exact (finish_iff hp.baseURL hinv).mp ⟨r, h.finish⟩

/-- For every page: the call returns exactly if each round that its loops come to begins with a text
that it can handle, and each text that is copied has room. -/
theorem parsesSafely_iff [Malloc] (hp : p.Ready) (hdata : 0 ∉ pData) :
    p.ParsesSafely pData bLightParse ↔ p.RoundsOk pData bLightParse := by
  constructor
  · intro h
    obtain ⟨n, r, hr⟩ := h
    obtain ⟨b, x, y₀, y, hparts⟩ := parse_eq_ok_iff.mp hr
    exact .of_parts hp hdata hparts
  · intro h
    obtain ⟨s, hs⟩ := @filled_ok _ bLightParse hdata
    obtain ⟨b, hb⟩ := (fillText_refines hp.buffer hdata).returns h.fill s hs
    have hstart := titleStart_inv hp hdata hb
    obtain ⟨x, hx⟩ := Markup.exists_rounds_ok (fun _ _ hin hnext => hin.next hnext) hstart
      (fun x' hreach => (titleRound_iff (FirstLoop.inv ⟨b, hb, hreach⟩ hp hdata)).mpr
        (h.title x' ⟨b, hb, hreach⟩)) (Nat.lt_succ_self _)
    obtain ⟨hreach, hleft⟩ := Markup.reaches_of_rounds hx
    have hfirst : p.FirstLoop pData bLightParse x := ⟨b, hb, hreach⟩
    obtain ⟨y₀, hy₀⟩ := (appendKeywords_iff (hfirst.inv hp hdata)).mpr (h.keywords x hfirst hleft)
    have hsecond (y') (hy' : Relation.ReflTransGen (Next (removalRound p.baseURL)) y₀ y') :
        p.SecondLoop pData bLightParse y' := ⟨x, y₀, hfirst, hleft, hy₀, hy'⟩
    obtain ⟨y, hy⟩ := Markup.exists_rounds_ok
      (fun _ _ hin hnext => RemovalInv.next hin hp.baseURL hnext)
      (appendKeywords_inv (hfirst.inv hp hdata) hy₀)
      (fun y' hreach' => (removalRound_iff ((hsecond y' hreach').inv hp hdata) hp.baseURL).mpr
        (h.removal y' (hsecond y' hreach'))) (Nat.lt_succ_self _)
    obtain ⟨hreach', hleft'⟩ := Markup.reaches_of_rounds hy
    have hlast := hsecond y hreach'
    obtain ⟨r, hr⟩ := (finish_iff hp.baseURL (hlast.inv hp hdata)).mpr (h.finish y hlast hleft')
    exact ⟨_, r, parse_eq_ok_iff.mpr ⟨b, x, y₀, y, hb, Markup.rounds_mono hx (le_max_left _ _), hy₀,
      Markup.rounds_mono hy (le_max_right _ _), hr⟩⟩

theorem finish_ready [Malloc] (hbase : 0 ∉ p.baseURL) (h : RemovalInv y) {r : ParseMarkup}
    (hr : p.finish bLightParse y = .ok r) : r.Ready := by
  unfold finish at hr
  obtain ⟨b, hb, hr⟩ := markup_bind_eq_ok.mp hr
  obtain ⟨r₁, hr₁, hr⟩ := markup_bind_eq_ok.mp hr
  obtain ⟨b₂, hb₂, hr⟩ := markup_bind_eq_ok.mp hr
  obtain ⟨r₂, hr₂, hr⟩ := markup_bind_eq_ok.mp hr
  obtain ⟨-, t, -, hsized, -⟩ := (words_refines hbase h hb hr₁).result b₂ hb₂
  obtain rfl := Except.ok.inj hr
  exact ⟨hbase, h.title, h.keywords, sized_content (cText_sized hsized hr₂).2.1⟩

/-- A call leaves its parser as the next one needs it. -/
theorem Ready.parse [Malloc] (hp : p.Ready) (hdata : 0 ∉ pData) {n : ℕ} {r : ParseMarkup}
    (h : p.parse n pData bLightParse = .ok r) : r.Ready := by
  obtain ⟨b, x, y₀, y, hparts⟩ := parse_eq_ok_iff.mp h
  obtain ⟨hreach, hleft⟩ := Markup.reaches_of_rounds hparts.title
  obtain ⟨hreach', -⟩ := Markup.reaches_of_rounds hparts.removal
  have hlast : p.SecondLoop pData bLightParse y :=
    ⟨x, y₀, ⟨b, hparts.fill, hreach⟩, hleft, hparts.keywords, hreach'⟩
  exact finish_ready hp.baseURL (hlast.inv hp hdata) hparts.finish

/-- A parser as it is constructed. -/
def fresh : ParseMarkup := {}

theorem fresh_ready : fresh.Ready :=
  ⟨List.not_mem_nil, List.not_mem_nil, List.not_mem_nil, Buffer.Sized.null⟩

section
open ZeroFill

theorem parsesSafely_page : fresh.ParsesSafely (bytes "<title>a</title><b>c</b>") true ∧
    fresh.RoundsOk (bytes "<title>a</title><b>c</b>") true := by
  have hok : (fresh.parse 8 (bytes "<title>a</title><b>c</b>") true).isOk = true := by
    decide +kernel
  have hsafe : fresh.ParsesSafely (bytes "<title>a</title><b>c</b>") true := by
    cases hr : fresh.parse 8 (bytes "<title>a</title><b>c</b>") true with
    | error e =>
      rw [hr] at hok
      cases hok
    | ok r => exact ⟨8, r, hr⟩
  exact ⟨hsafe, (parsesSafely_iff fresh_ready (by decide)).mp hsafe⟩

/-- A title without a tag behind it: the end of the title is taken as -1. -/
theorem parse_open_title : ¬ ∀ (p : ParseMarkup) (pData : Bytes) (bLightParse : Bool),
    p.Ready → 0 ∉ pData → p.ParsesSafely pData bLightParse := by
  intro h
  have hdata : 0 ∉ bytes "<title>a" := by decide
  obtain ⟨n, r, hr⟩ := h fresh (bytes "<title>a") true fresh_ready hdata
  obtain ⟨b, x, y₀, y, hparts⟩ := parse_eq_ok_iff.mp hr
  obtain ⟨-, s, hs, hsized, -⟩ :=
    (fillText_refines fresh_ready.buffer hdata).result b hparts.fill
  have htext : (decoded (bytes "<title>a") true >>=
      Markup.replaceAll (bytes ">") (bytes "> ")) = .ok (bytes "<title> a") := by decide
  obtain rfl := Except.ok.inj (hs.symm.trans htext)
  have hround := Markup.ok_of_rounds hparts.title .refl
  have hok := ((titleRound_iff (titleStart_inv fresh_ready hdata hparts.fill)).mp hround).2
  unfold titleStart Pass.titlePass at hok
  dsimp only at hok
  rw [hsized.keeps.content_eq] at hok
  have htag : (60 : Byte) ∈ (bytes "<title> a").drop 7 :=
    (hok 0 6 ⟨by decide, by decide⟩ (by decide)).1 (by decide)
  exact absurd htag (by decide)

end

end ParseMarkup
end MsgCourier
