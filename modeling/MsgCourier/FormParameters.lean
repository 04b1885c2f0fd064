import MsgCourier.ServerScripts
import MsgCourier.UrlCoding
import MsgCourier.VirtualDirectory

/-! The fields of a form on their way through a URI to the scripts of a page. -/
namespace MsgCourier
open ListSearch CText ZeroFill

namespace URL

/-! ### Codings of a text -/

/-- A byte stands for itself or is escaped, and a blank may be a `+`. -/
inductive CodesByte : Bytes → Byte → Prop
  | itself {b : Byte} : b ≠ 37 → b ≠ 43 → b ≠ 32 → CodesByte [b] b
  | blank : CodesByte [43] 32
  | escape {hi lo : Byte} : isxdigit hi = true → isxdigit lo = true →
      CodesByte [37, hi, lo] (hexToInt hi lo)

inductive Codes : Bytes → Bytes → Prop
  | nil : Codes [] []
  | cons {u e s : Bytes} {b : Byte} : CodesByte u b → Codes e s → Codes (u ++ e) (b :: s)

theorem CodesByte.decodeLoop_append {u : Bytes} {b : Byte} (h : CodesByte u b) (r : Bytes) :
    decodeLoop (u ++ r) = b :: decodeLoop r := by
  cases h with
  | itself hpercent hplus _ => rw [List.singleton_append, decodeLoop_byte hpercent, if_neg hplus]
  | blank => rw [List.singleton_append, decodeLoop_byte (by decide), if_pos rfl]
  | escape hhi hlo => exact decodeLoop_pair hhi hlo r

theorem Codes.decodeLoop_append {e s : Bytes} (h : Codes e s) (r : Bytes) :
    decodeLoop (e ++ r) = s ++ decodeLoop r := by
  induction h with
  | nil => rfl
  | cons hbyte _ ih => rw [List.append_assoc, hbyte.decodeLoop_append, ih, List.cons_append]

/-- Neither a blank nor, unless the byte is one, a zero. -/
theorem CodesByte.notMem {u : Bytes} {b : Byte} (h : CodesByte u b) (h0 : b ≠ 0) :
    32 ∉ u ∧ 0 ∉ u := by
  have hdigit {c : Byte} (hc : isxdigit c = true) : 32 ≠ c ∧ 0 ≠ c := by
    constructor
    · rintro rfl
      exact absurd hc (by decide)
    · rintro rfl
      exact absurd hc (by decide)
  cases h with
  | itself _ _ hblank => simp [hblank.symm, h0.symm]
  | blank => decide
  | escape hhi hlo => simp [(hdigit hhi).1, (hdigit hhi).2, (hdigit hlo).1, (hdigit hlo).2]

theorem Codes.notMem {e s : Bytes} (h : Codes e s) (h0 : 0 ∉ s) : 32 ∉ e ∧ 0 ∉ e := by
  induction h with
  | nil => exact ⟨List.not_mem_nil, List.not_mem_nil⟩
  | cons hbyte _ ih =>
    have hhead := hbyte.notMem fun hb => h0 (hb ▸ List.mem_cons_self)
    have htail := ih fun hmem => h0 (List.mem_cons_of_mem _ hmem)
    exact ⟨List.not_mem_append hhead.1 htail.1, List.not_mem_append hhead.2 htail.2⟩

/-- An escape does not reach behind a byte that is no digit. -/
theorem decodeLoop_append_cons (s : Bytes) {b : Byte} (hb : isxdigit b = false) (r : Bytes) :
    decodeLoop (s ++ b :: r) = decodeLoop s ++ decodeLoop (b :: r) := by
  fun_induction decodeLoop s with
  | case1 => rfl
  | case2 hi lo t hdigits ih =>
    rw [Bool.and_eq_true] at hdigits
    rw [List.cons_append, List.cons_append, List.cons_append, decodeLoop_pair hdigits.1 hdigits.2,
      ih, List.cons_append]
  | case3 hi lo t hdigits ih =>
    rw [← ih, List.cons_append, decodeLoop_skip]
    intro hi' lo' r' heq
    rw [List.cons_append, List.cons_append] at heq
    injection heq with hhi heq
    injection heq with hlo _
    rw [← hhi, ← hlo]
    exact Bool.not_eq_true _ ▸ hdigits
  | case4 t ht ih =>
    rw [← ih, List.cons_append, decodeLoop_skip]
    intro hi lo r' heq
    cases t with
    | nil =>
      injection heq with hhi _
      rw [← hhi, hb, Bool.false_and]
    | cons c t =>
      cases t with
      | nil =>
        rw [List.cons_append, List.nil_append] at heq
        injection heq with _ heq
        injection heq with hlo _
        rw [← hlo, hb, Bool.and_false]
      | cons d t => exact absurd rfl (ht c d t)
  | case5 t hpercent ih =>
    rw [List.cons_append, decodeLoop_byte hpercent, if_pos rfl, ih, List.cons_append]
  | case6 c t hpercent hplus ih =>
    rw [List.cons_append, decodeLoop_byte hpercent, if_neg hplus, ih, List.cons_append]

end URL

/-! ### A request with the fields of a form -/

/-- The fields as they stand in a query. -/
def queryText (fields : List (Bytes × Bytes)) : Bytes :=
  [38].intercalate (fields.map fun f => f.1 ++ 61 :: f.2)

/-- The fields with codings of their names and values. -/
abbrev CodedFields (coded fields : List (Bytes × Bytes)) : Prop :=
  List.Forall₂ (fun e f => URL.Codes e.1 f.1 ∧ URL.Codes e.2 f.2) coded fields

def formRequest (path : Bytes) (coded : List (Bytes × Bytes)) (rest : Bytes) : Bytes :=
  bytes "GET /" ++ path ++ 63 :: queryText coded ++ bytes " HTTP/" ++ rest

/-- The bytes at which a URI or its parameters are taken apart. -/
def formSeparator (b : Byte) : Bool := uriSeparator b || cgiSeparator b

/-- A field without separators, and without a `=` in its name. -/
def Restorable (f : Bytes × Bytes) : Prop :=
  (∀ b ∈ f.1, formSeparator b = false ∧ b ≠ 61) ∧ ∀ b ∈ f.2, formSeparator b = false

instance (f : Bytes × Bytes) : Decidable (Restorable f) := inferInstanceAs (Decidable (_ ∧ _))

section Query

variable {coded fields : List (Bytes × Bytes)}

theorem queryText_cons_cons (f f' : Bytes × Bytes) (fields : List (Bytes × Bytes)) :
    queryText (f :: f' :: fields) = (f.1 ++ 61 :: f.2) ++ 38 :: queryText (f' :: fields) := by
  simp [queryText]

theorem decodeLoop_field {e f : Bytes × Bytes} (h : URL.Codes e.1 f.1 ∧ URL.Codes e.2 f.2)
    (r : Bytes) :
    URL.decodeLoop ((e.1 ++ 61 :: e.2) ++ r) = (f.1 ++ 61 :: f.2) ++ URL.decodeLoop r := by
  rw [List.append_assoc, h.1.decodeLoop_append, List.cons_append, URL.decodeLoop_byte (by decide),
    if_neg (by decide), h.2.decodeLoop_append, List.append_assoc, List.cons_append]

/-- The query is decoded before it is taken apart. -/
theorem decodeLoop_queryText (h : CodedFields coded fields) :
    URL.decodeLoop (queryText coded) = queryText fields := by
  induction h with
  | nil => rfl
  | cons hfield hrest ih =>
    cases hrest with
    | nil =>
      have hone := decodeLoop_field hfield []
      rw [List.append_nil] at hone
      simpa [queryText, URL.decodeLoop] using hone
    | cons hfield' hrest =>
      rw [queryText_cons_cons, decodeLoop_field hfield, URL.decodeLoop_byte (by decide),
        if_neg (by decide), ih, queryText_cons_cons]

theorem mem_queryText {c : Byte} (h : c ∈ queryText fields) :
    c = 38 ∨ c = 61 ∨ ∃ f ∈ fields, c ∈ f.1 ∨ c ∈ f.2 := by
  induction fields with
  | nil => cases h
  | cons f fields ih =>
    have hfield (h : c ∈ f.1 ++ 61 :: f.2) :
        c = 38 ∨ c = 61 ∨ ∃ f' ∈ f :: fields, c ∈ f'.1 ∨ c ∈ f'.2 := by
      rcases List.mem_append.mp h with h | h
      · exact .inr (.inr ⟨f, List.mem_cons_self, .inl h⟩)
      · rcases List.mem_cons.mp h with h | h
        · exact .inr (.inl h)
        · exact .inr (.inr ⟨f, List.mem_cons_self, .inr h⟩)
    cases fields with
    | nil => exact hfield (by simpa [queryText] using h)
    | cons f' fields =>
      rw [queryText_cons_cons, List.mem_append] at h
      rcases h with h | h
      · exact hfield h
      · rcases List.mem_cons.mp h with h | h
        · exact .inl h
        · refine (ih h).imp_right (Or.imp_right ?_)
          rintro ⟨f'', hf'', hc⟩
          exact ⟨f'', List.mem_cons_of_mem _ hf'', hc⟩

theorem equals_mem_queryText (h : fields ≠ []) : 61 ∈ queryText fields := by
  obtain ⟨f, fields, rfl⟩ := List.exists_cons_of_ne_nil h
  cases fields with
  | nil => simp [queryText]
  | cons f' fields => simp [queryText_cons_cons]

end Query

/-! ### The parameters of a query -/

/-- Whatever the text is, no parameter has a separator, and no name a `=`. -/
theorem cgiParameters_plain {cgiParams : Bytes} {f : Bytes × Bytes}
    (h : f ∈ cgiParameters cgiParams) :
    (∀ b ∈ f.1, (b ∈ cgiParams ∧ cgiSeparator b = false) ∧ b ≠ 61) ∧
      ∀ b ∈ f.2, b ∈ cgiParams ∧ cgiSeparator b = false := by
  obtain ⟨sTemp, htoken, hfield⟩ := List.mem_filterMap.mp h
  obtain ⟨i, hi, rfl⟩ := Option.map_eq_some_iff.mp hfield
  have hplain := of_mem_tokenizer htoken
  refine ⟨fun b hb => ⟨hplain b (List.mem_of_mem_take hb), ?_⟩,
    fun b hb => hplain b (List.mem_of_mem_drop hb)⟩
  rintro rfl
  exact notMem_take_of_firstOcc hi hb

theorem tokenizer_single {isSeparator : Byte → Bool} {s : Bytes} (hs : s ≠ [])
    (h : ∀ b ∈ s, isSeparator b = false) : tokenizer isSeparator s = [s] := by
  rw [tokenizer, List.splitOnP_eq_singleton h]
  exact List.filter_cons_of_pos (decide_eq_true hs)

/-- The token of a field gives the field back. -/
theorem cgiParameters_field {f : Bytes × Bytes} (hname : 61 ∉ f.1)
    (hsep : ∀ b ∈ f.1 ++ 61 :: f.2, cgiSeparator b = false) :
    cgiParameters (f.1 ++ 61 :: f.2) = [f] := by
  have hne : f.1 ++ 61 :: f.2 ≠ [] := List.append_ne_nil_of_right_ne_nil _ (List.cons_ne_nil _ _)
  have hvalue : (f.1 ++ 61 :: f.2).drop (f.1.length+1) = f.2 := by
    rw [← List.drop_drop, List.drop_left]
    rfl
  rw [cgiParameters, tokenizer_single hne hsep, List.filterMap_cons, firstOcc_singleton hname,
    Option.map_some, List.take_left, hvalue]
  rfl

theorem cgiParameters_append_cons (s t : Bytes) :
    cgiParameters (s ++ 38 :: t) = cgiParameters s ++ cgiParameters t := by
  rw [cgiParameters, tokenizer_append_cons s t rfl, List.filterMap_append, cgiParameters,
    cgiParameters]

theorem formSeparator_eq_false {b : Byte} (h : formSeparator b = false) :
    uriSeparator b = false ∧ cgiSeparator b = false := Bool.or_eq_false_iff.mp h

theorem cgiParameters_queryText {fields : List (Bytes × Bytes)}
    (h : ∀ f ∈ fields, Restorable f) : cgiParameters (queryText fields) = fields := by
  induction fields with
  | nil => rfl
  | cons f fields ih =>
    obtain ⟨hf, hfields⟩ := List.forall_mem_cons.mp h
    have hname : 61 ∉ f.1 := fun hmem => (hf.1 61 hmem).2 rfl
    have hsep : ∀ b ∈ f.1 ++ 61 :: f.2, cgiSeparator b = false := by
      intro b hb
      rcases List.mem_append.mp hb with hb | hb
      · exact (formSeparator_eq_false (hf.1 b hb).1).2
      · rcases List.mem_cons.mp hb with rfl | hb
        · decide
        · exact (formSeparator_eq_false (hf.2 b hb)).2
    cases fields with
    | nil =>
      have hone := cgiParameters_field hname hsep
      simpa [queryText] using hone
    | cons f' fields =>
      rw [queryText_cons_cons, cgiParameters_append_cons, cgiParameters_field hname hsep,
        ih hfields, List.singleton_append]

/-! ### From the request to the parameters -/

/-- The parameters are a token of the URI. -/
theorem cgiParams_setURI_plain (h : WebRequestHandler) (decURI : Bytes) :
    ∀ b ∈ (h.setURI decURI).cgiParams, uriSeparator b = false := by
  intro b hb
  change b ∈ ((tokenizer uriSeparator decURI).filter (61 ∈ ·)).getLast?.getD [] at hb
  cases hlast : ((tokenizer uriSeparator decURI).filter (61 ∈ ·)).getLast? with
  | none =>
    rw [hlast] at hb
    cases hb
  | some token =>
    rw [hlast] at hb
    have htoken := List.mem_of_mem_filter (List.mem_of_getLast? hlast)
    exact (of_mem_tokenizer htoken b hb).2

/-- A query without separators is the last token. -/
theorem cgiParams_setURI_query (h : WebRequestHandler) (path : Bytes) {query : Bytes}
    (hequals : 61 ∈ query) (hsep : ∀ b ∈ query, uriSeparator b = false) :
    (h.setURI (path ++ 63 :: query)).cgiParams = query := by
  change ((tokenizer uriSeparator (path ++ 63 :: query)).filter (61 ∈ ·)).getLast?.getD [] = query
  have hne : query ≠ [] := List.ne_nil_of_mem hequals
  rw [tokenizer_append_cons path query rfl, tokenizer_single hne hsep, List.filter_append,
    List.filter_cons_of_pos (by simpa using hequals), List.filter_nil, List.getLast?_concat]
  rfl

section Request

variable {path rest : Bytes} {coded fields : List (Bytes × Bytes)}

/-- What the request asks for. -/
def formTarget (path : Bytes) (coded : List (Bytes × Bytes)) : Bytes :=
  47 :: path ++ 63 :: queryText coded

theorem formRequest_eq : formRequest path coded rest =
    (bytes "GET " ++ formTarget path coded ++ bytes " HTTP/") ++ rest := by
  simp [formRequest, formTarget, bytes]

theorem formTarget_notMem (hpath : 32 ∉ path ∧ 0 ∉ path) (hcodes : CodedFields coded fields)
    (hplain : ∀ f ∈ fields, 0 ∉ f.1 ∧ 0 ∉ f.2) :
    32 ∉ formTarget path coded ∧ 0 ∉ formTarget path coded := by
  have hcoded : ∀ e ∈ coded, (32 ∉ e.1 ∧ 0 ∉ e.1) ∧ 32 ∉ e.2 ∧ 0 ∉ e.2 := by
    induction hcodes with
    | nil => exact fun _ h => absurd h List.not_mem_nil
    | cons hfield _ ih =>
      obtain ⟨hhead, htail⟩ := List.forall_mem_cons.mp hplain
      exact List.forall_mem_cons.mpr
        ⟨⟨hfield.1.notMem hhead.1, hfield.2.notMem hhead.2⟩, ih htail⟩
  have hquery : 32 ∉ queryText coded ∧ 0 ∉ queryText coded := by
    constructor
    · intro hmem
      rcases mem_queryText hmem with h | h | ⟨e, he, h | h⟩
      · exact absurd h (by decide)
      · exact absurd h (by decide)
      · exact (hcoded e he).1.1 h
      · exact (hcoded e he).2.1 h
    · intro hmem
      rcases mem_queryText hmem with h | h | ⟨e, he, h | h⟩
      · exact absurd h (by decide)
      · exact absurd h (by decide)
      · exact (hcoded e he).1.2 h
      · exact (hcoded e he).2.2 h
  simp [formTarget, hpath, hquery]

theorem isGet_formRequest : WebRequestHandler.isGet (formRequest path coded rest) = true := by
  have hget : 0 ∉ bytes "GET " := by decide
  rw [WebRequestHandler.isGet, formRequest_eq, List.append_assoc, List.append_assoc,
    cstr_append hget]
  rfl

/-- The version is found behind the target, which has no blank. -/
theorem strstr_formRequest (htarget : 32 ∉ formTarget path coded ∧ 0 ∉ formTarget path coded) :
    strstr (formRequest path coded rest) (bytes " HTTP/") =
      some (4+(formTarget path coded).length) := by
  have hplain : 0 ∉ bytes "GET " ++ formTarget path coded ++ bytes " HTTP/" :=
    List.not_mem_append (List.not_mem_append (by decide) htarget.2) (by decide)
  have hpat : bytes " HTTP/" = 32 :: bytes "HTTP/" := rfl
  have hversion : firstOcc (bytes " HTTP/") (formTarget path coded ++ bytes " HTTP/") =
      some (formTarget path coded).length := by
    rw [hpat, firstOcc_append_notMem htarget.1, ← hpat]
    rfl
  -- the blank behind the method is followed by a `/`
  have hblank : ¬ bytes " HTTP/" <+: 32 :: (formTarget path coded ++ bytes " HTTP/") := by
    intro hprefix
    rw [hpat, List.cons_prefix_cons] at hprefix
    exact absurd (List.cons_prefix_cons.mp hprefix.2).1 (by decide)
  have hmethod : bytes "GET " ++ (formTarget path coded ++ bytes " HTTP/") =
      bytes "GET" ++ 32 :: (formTarget path coded ++ bytes " HTTP/") := rfl
  rw [formRequest_eq]
  refine strstr_append (by decide) ?_ rest
  rw [strstr_of_zero_notMem hplain, List.append_assoc, hmethod, hpat,
    firstOcc_append_notMem (by decide), ← hpat, firstOcc, if_neg hblank, hversion]
  simp only [Option.map_some, Option.some.injEq]
  have hlen : (bytes "GET").length = 3 := rfl
  omega

/-- The target of the request stands between the method and the version. -/
theorem sourceURI_formRequest (htarget : 32 ∉ formTarget path coded ∧ 0 ∉ formTarget path coded) :
    WebRequestHandler.sourceURI (formRequest path coded rest) = .ok (formTarget path coded) := by
  have hget : 0 ∉ bytes "GET " := by decide
  have htext : cstr (formRequest path coded rest) =
      bytes "GET " ++ (formTarget path coded ++ cstr (bytes " HTTP/" ++ rest)) := by
    rw [formRequest_eq, List.append_assoc, List.append_assoc, cstr_append hget,
      cstr_append htarget.2]
  unfold WebRequestHandler.sourceURI
  rw [strstr_formRequest htarget, isGet_formRequest, htext, if_pos rfl]
  dsimp only
  have hlong : ¬ (bytes "GET " ++ (formTarget path coded ++ cstr (bytes " HTTP/" ++ rest))).length <
      3+1 := by
    rw [List.length_append]
    exact Nat.not_lt.mpr (Nat.le_add_right _ _)
  have hcount : ((4+(formTarget path coded).length : ℕ) : ℤ)-(3+1 : ℕ) =
      (formTarget path coded).length := by
    push_cast
    omega
  rw [substr, if_neg hlong, hcount, if_neg (by omega), Int.toNat_natCast]
  exact congrArg Except.ok (List.take_left)

/-- A `GET` leaves the parameters as the URI has them. -/
theorem cgiParams_of_processHTTPHeader [Malloc] {h h' : WebRequestHandler}
    {dirs : VirtualDirectoryMap}
    {m : Msg} {c srcURI : Bytes} {b : Bool} (hraw : m.msgRawBuffer.Sealed c)
    (hget : WebRequestHandler.isGet c = true) (hsrc : WebRequestHandler.sourceURI c = .ok srcURI)
    (hok : h.processHTTPHeader dirs m = .ok (b, h')) :
    h'.cgiParams = (h.setURI (cstr (URL.decodeLoop (cstr srcURI)))).cgiParams := by
  obtain ⟨junk, hblock⟩ := hraw.pBuffer_eq
  unfold WebRequestHandler.processHTTPHeader at hok
  rw [hblock] at hok
  dsimp only at hok
  rw [sourceURI_terminated, hsrc, ok_bind] at hok
  obtain ⟨decURI, hdec, hok⟩ := bind_eq_ok.mp hok
  obtain ⟨⟨rc, buf⟩, _, hok⟩ := bind_eq_ok.mp hok
  obtain ⟨⟨he, buf'⟩, _, hok⟩ := bind_eq_ok.mp hok
  obtain ⟨h₁, htag, hok⟩ := bind_eq_ok.mp hok
  have hkept := WebRequestHandler.setETag_kept htag
  have hparams : h₁.cgiParams = (h.setURI decURI).cgiParams := by
    unfold WebRequestHandler.setETag at htag
    dsimp only at htag
    split_ifs at htag
    · obtain ⟨tag, _, htag⟩ := bind_eq_ok.mp htag
      rw [← Except.ok.inj htag]
      rfl
    · rw [← Except.ok.inj htag]
      rfl
  have hget₁ : h₁.bMessageTypeGet = true := by
    rw [hkept.2]
    change WebRequestHandler.isGet (c ++ 0 :: junk) = true
    rwa [WebRequestHandler.isGet, cstr_append_zero]
  rw [WebRequestHandler.readBody, if_pos hget₁, pure_eq_ok, ok_bind] at hok
  rw [← URL.decode_inv hdec, ← hparams]
  split_ifs at hok
  · rw [← (Prod.mk.inj (Except.ok.inj hok)).2]
  · rw [← (Prod.mk.inj (Except.ok.inj hok)).2]

end Request

/-! ### A form with a blank and an escape -/

def searchFields : List (Bytes × Bytes) :=
  [(bytes "name", bytes "a b"), (bytes "id", bytes "7")]

def searchCoded : List (Bytes × Bytes) :=
  [(bytes "name", bytes "a+b"), (bytes "id", bytes "%37")]

theorem URL.codes_self {s : Bytes} (h : s.all (· ∉ [37, 43, 32]) = true) : URL.Codes s s := by
  induction s with
  | nil => exact .nil
  | cons b s ih =>
    rw [List.all_cons, Bool.and_eq_true] at h
    have hb : b ≠ 37 ∧ b ≠ 43 ∧ b ≠ 32 := by simpa using h.1
    exact .cons (.itself hb.1 hb.2.1 hb.2.2) (ih h.2)

theorem searchCoded_codes : CodedFields searchCoded searchFields := by
  have hname : URL.Codes (bytes "name") (bytes "name") := URL.codes_self rfl
  have hid : URL.Codes (bytes "id") (bytes "id") := URL.codes_self rfl
  have hvalue : URL.Codes (bytes "a+b") (bytes "a b") :=
    .cons (.itself (by decide) (by decide) (by decide))
      (.cons .blank (URL.codes_self (s := bytes "b") rfl))
  have hseven : URL.Codes (bytes "%37") (bytes "7") :=
    .cons (@URL.CodesByte.escape 51 55 rfl rfl) .nil
  exact .cons ⟨hname, hvalue⟩ (.cons ⟨hid, hseven⟩ .nil)

def searchText : Bytes := formRequest (bytes "page.htm") searchCoded (bytes "1.1\r\n\r\n")

def searchMsg : Msg := { msgRawBuffer := Buffer.terminated searchText }

end MsgCourier
