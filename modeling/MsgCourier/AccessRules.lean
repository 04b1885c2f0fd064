import MsgCourier.XmlCursor
import Mathlib.Data.Fin.VecNotation
import Mathlib.Tactic.FinCases

/-! `cIPAccess`, and the rules that the core reads from the configuration. -/
namespace MsgCourier
open ListSearch CText

inductive EntryType
  | inclusion
  | exclusion
  deriving DecidableEq, Repr

structure IPAccessEntry where
  type : EntryType
  octant : Fin 4 → ℤ
  deriving DecidableEq

inductive AccessCode
  | ok
  | ipparseFailed
  | deny
  deriving DecidableEq, Repr

/-- The rules are the rows of `m_rulelist`. -/
structure IPAccess where
  rulelist : List IPAccessEntry := []
  deriving DecidableEq

/-! ### The rules -/

/-- The next token between dots, and the text behind it. -/
def strtokDot (s : Bytes) : Option (Bytes × Bytes) :=
  match s.dropWhile (· = 46) with
  | [] => none
  | t => some (t.takeWhile (· ≠ 46), (t.dropWhile (· ≠ 46)).tail)

/-- One octet, or none when it is too large. A token that is missing is compared as a null
pointer, and a text that is not `ended` goes on in bytes without a value. -/
def nextOctet (ended : Bool) (s : Bytes) : Cxx (Option ℤ × Bytes) :=
  if ended = false ∧ 46 ∉ s.dropWhile (· = 46) then .error .undefined
  else
    match strtokDot s with
    | none => .error .undefined
    | some (pToken, s) =>
      let octval := if pToken = bytes "*" then -1 else atoi pToken
      pure (if 255 < octval then none else some octval, s)

namespace IPAccess

/-- 16 bytes are copied, which leaves an address of 16 bytes or more without a terminator. -/
def parseIP (pLine : Bytes) : Cxx (Option IPAccessEntry) := do
  let type := if pLine.head? = some 43 then EntryType.inclusion else .exclusion
  let ended := decide (pLine.tail.length < 16)
  let (first, s) ← nextOctet ended (pLine.tail.take 16)
  match first with
  | none => pure none
  | some a => do
    let (second, s) ← nextOctet ended s
    match second with
    | none => pure none
    | some b => do
      let (third, s) ← nextOctet ended s
      match third with
      | none => pure none
      | some c => do
        let (fourth, _) ← nextOctet ended s
        match fourth with
        | none => pure none
        | some d => pure (some { type, octant := ![a, b, c, d] })

/-- The line is copied to 255 bytes. -/
def add (x : IPAccess) (pIPAddr : Bytes) : Cxx (AccessCode × IPAccess) := do
  let oneline := cstr pIPAddr
  if 255 ≤ oneline.length then .error .undefined
  else if oneline.head? ≠ some 43 ∧ oneline.head? ≠ some 45 then pure (.ipparseFailed, x)
  else do
    match ← parseIP oneline with
    | some pEntry => pure (.ok, { x with rulelist := x.rulelist ++ [pEntry] })
    | none => pure (.ipparseFailed, x)

end IPAccess

/-- The comparison of the four octets with those of an address. -/
def IPAccessEntry.matches (pRuleEntry entry : IPAccessEntry) : Bool :=
  decide (∀ i, pRuleEntry.octant i = -1 ∨ pRuleEntry.octant i = entry.octant i)

namespace IPAccess

def validate (x : IPAccess) (pIPAddr : Bytes) : Cxx AccessCode := do
  match ← parseIP (43 :: cstr pIPAddr) with
  | none => pure .ipparseFailed
  | some entry =>
    match x.rulelist.find? fun pRuleEntry => pRuleEntry.matches entry with
    | none => pure .deny
    | some pRuleEntry => pure (if pRuleEntry.type = .inclusion then .ok else .deny)

end IPAccess

/-! ### The configuration -/

/-- The loop over the addresses of a section. A section has fewer addresses than the document has
elements left. -/
def addRules (sign : Byte) (pNot : Bytes) : ℕ → XmlCursor → IPAccess → Cxx (XmlCursor × IPAccess)
  | 0, _, _ => .error .undefined
  | fuel+1, pXML, x =>
    match pXML.findNextTag (bytes "addr") (some pNot) with
    | (none, pXML) => pure (pXML, x)
    | (some pElm, pXML) =>
      match pElm.xmlValue with
      | none => .error .undefined
      | some value => do
        let (_, x) ← x.add (sign :: value)
        addRules sign pNot fuel pXML x

/-- The rules of the section that `tag` begins. -/
def sectionRules (sign : Byte) (tag : Bytes) (pXML : XmlCursor) (x : IPAccess) :
    Cxx (XmlCursor × IPAccess) :=
  match pXML.findNextTag tag none with
  | (none, pXML) => pure (pXML, x)
  | (some _, pXML) => addRules sign (47 :: tag) (pXML.rest.length+1) pXML x

/-- The text up to the last dot, as a rule for its subnet. -/
def subnetRule (primaryIP : Bytes) : Bytes :=
  (43 :: primaryIP).rdropWhile (· ≠ 46) ++ bytes "*"

def processIPRules (pXML : XmlCursor) (x : IPAccess) (primaryIP : Bytes) : Cxx IPAccess :=
  match pXML.findTag (bytes "connections") with
  | (some _, pXML) => do
    let (pXML, x) ← sectionRules 43 (bytes "allow") pXML x
    let (_, x) ← sectionRules 45 (bytes "block") pXML x
    pure x
  | (none, _) => do
    let (_, x) ← x.add (subnetRule primaryIP)
    pure x

/-! ### Addresses -/

/-- An address of the configuration: each part is a star or a number. -/
structure AddrPattern where
  part : Fin 4 → Bytes
  form : ∀ i, part i = bytes "*" ∨ part i ≠ [] ∧ ∀ b ∈ part i, isDigit b = true
  fits : (part 0).length+(part 1).length+(part 2).length+(part 3).length ≤ 12

namespace AddrPattern

def text (p : AddrPattern) : Bytes :=
  p.part 0 ++ 46 :: (p.part 1 ++ 46 :: (p.part 2 ++ 46 :: p.part 3))

/-- The addresses that the pattern stands for. -/
def Accepts (p : AddrPattern) (addr : Fin 4 → UInt8) : Prop :=
  ∀ i, p.part i = bytes "*" ∨ digitsVal (p.part i) = (addr i).toNat

/-- The number that a part is read as. -/
def octval (p : AddrPattern) (i : Fin 4) : ℤ :=
  if p.part i = bytes "*" then -1 else digitsVal (p.part i)

end AddrPattern

/-- What `inet_ntoa` prints. -/
def clientAddr (addr : Fin 4 → UInt8) : Bytes :=
  decimal (addr 0).toNat ++ 46 :: (decimal (addr 1).toNat ++ 46 ::
    (decimal (addr 2).toNat ++ 46 :: decimal (addr 3).toNat))

theorem digitsVal_lt {s : Bytes} (hs : ∀ b ∈ s, isDigit b = true) :
    digitsVal s < 10 ^ s.length := by
  induction s using List.reverseRecOn with
  | nil => exact Nat.one_pos
  | append_singleton s b ih =>
    have hdigit := hs b (List.mem_append_right _ (List.mem_singleton_self b))
    have hlt := ih fun c hc => hs c (List.mem_append_left _ hc)
    simp only [isDigit, Bool.and_eq_true, decide_eq_true_eq, UInt8.le_iff_toNat_le,
      UInt8.reduceToNat] at hdigit
    rw [digitsVal_append_singleton, List.length_append, List.length_singleton, pow_succ]
    omega

/-- A token is read up to its dot. -/
theorem strtokDot_eq {t r : Bytes} (ht : t ≠ []) (hdot : ∀ b ∈ t, b ≠ 46)
    (hr : r = [] ∨ ∃ s, r = 46 :: s) : strtokDot (t ++ r) = some (t, r.tail) := by
  obtain ⟨b, u, rfl⟩ := List.exists_cons_of_ne_nil ht
  have hb : b ≠ 46 := hdot b List.mem_cons_self
  have hhead : ((b :: u) ++ r).dropWhile (· = 46) = (b :: u) ++ r :=
    List.dropWhile_cons_of_neg (by simpa using hb)
  have hall : ∀ c ∈ b :: u, decide (c ≠ 46) = true := fun c hc => decide_eq_true (hdot c hc)
  have hrest : r.takeWhile (· ≠ 46) = [] ∧ r.dropWhile (· ≠ 46) = r := by
    rcases hr with rfl | ⟨s, rfl⟩
    · exact ⟨rfl, rfl⟩
    · exact ⟨rfl, rfl⟩
  unfold strtokDot
  rw [hhead]
  change some (((b :: u) ++ r).takeWhile (· ≠ 46), (((b :: u) ++ r).dropWhile (· ≠ 46)).tail) = _
  rw [List.takeWhile_append_of_pos hall, List.dropWhile_append_of_pos hall, hrest.1, hrest.2,
    List.append_nil]

namespace AddrPattern

variable (p : AddrPattern)

theorem part_ne_nil (i : Fin 4) : p.part i ≠ [] := by
  rcases p.form i with h | h
  · rw [h]
    decide
  · exact h.1

theorem part_ne_dot (i : Fin 4) : ∀ b ∈ p.part i, b ≠ 46 := by
  intro b hb
  rcases p.form i with h | h
  · rw [h] at hb
    rw [List.mem_singleton.mp hb]
    decide
  · rintro rfl
    exact absurd (h.2 46 hb) (by decide)

theorem part_ne_zero (i : Fin 4) : 0 ∉ p.part i := by
  intro hb
  rcases p.form i with h | h
  · rw [h] at hb
    exact absurd hb (by decide)
  · exact absurd (h.2 0 hb) (by decide)

theorem length_part_le (i : Fin 4) : (p.part i).length ≤ 9 := by
  have hpos (j : Fin 4) : 1 ≤ (p.part j).length := List.length_pos_of_ne_nil (p.part_ne_nil j)
  have hfits := p.fits
  have h0 := hpos 0
  have h1 := hpos 1
  have h2 := hpos 2
  have h3 := hpos 3
  match i with
  | 0 => omega
  | 1 => omega
  | 2 => omega
  | 3 => omega

/-- A part is read as its number. -/
theorem atoi_part (i : Fin 4) :
    (if p.part i = bytes "*" then -1 else atoi (p.part i)) = p.octval i := by
  unfold octval
  split_ifs with hstar
  · rfl
  · have hdigits := ((p.form i).resolve_left hstar).2
    have hlt : digitsVal (p.part i) < 10 ^ 9 :=
      (digitsVal_lt hdigits).trans_le (Nat.pow_le_pow_right (by decide) (p.length_part_le i))
    apply atoi_of_digits hdigits
    unfold intMax
    omega

theorem nextOctet_part (i : Fin 4) {r : Bytes} (hr : r = [] ∨ ∃ s, r = 46 :: s) :
    nextOctet true (p.part i ++ r) =
      .ok (if 255 < p.octval i then none else some (p.octval i), r.tail) := by
  unfold nextOctet
  rw [if_neg fun h => Bool.noConfusion h.1, strtokDot_eq (p.part_ne_nil i) (p.part_ne_dot i) hr]
  dsimp only
  rw [p.atoi_part i]
  rfl

theorem length_text : p.text.length ≤ 15 := by
  have hfits := p.fits
  simp only [text, List.length_append, List.length_cons]
  omega

theorem zero_notMem_text : 0 ∉ p.text := by
  have h := p.part_ne_zero
  simp [text, h]

/-- The numbers of an address, when none is too large. -/
def octants : Option (Fin 4 → ℤ) := if ∀ i, p.octval i ≤ 255 then some p.octval else none

theorem parseIP_text (sign : Byte) : IPAccess.parseIP (sign :: p.text) =
    .ok (p.octants.map fun octant =>
      { type := if sign = 43 then .inclusion else .exclusion, octant }) := by
  have hlen : p.text.length < 16 := by
    have := p.length_text
    omega
  have hvec : ![p.octval 0, p.octval 1, p.octval 2, p.octval 3] = p.octval := by
    funext i
    fin_cases i <;> rfl
  have htype : (if (sign :: p.text).head? = some 43 then EntryType.inclusion else .exclusion) =
      if sign = 43 then EntryType.inclusion else .exclusion := by
    rw [List.head?_cons]
    exact if_congr Option.some_inj rfl rfl
  have hlast : nextOctet true (p.part 3) =
      .ok (if 255 < p.octval 3 then none else some (p.octval 3), []) := by
    have h := p.nextOctet_part 3 (r := []) (Or.inl rfl)
    rwa [List.append_nil] at h
  have hlarge {i : Fin 4} (hi : 255 < p.octval i) : ¬ ∀ i, p.octval i ≤ 255 :=
    fun h => absurd (h i) (not_le.mpr hi)
  unfold IPAccess.parseIP octants
  dsimp only
  rw [htype, List.tail_cons, decide_eq_true hlen, List.take_of_length_le hlen.le]
  unfold text
  rw [p.nextOctet_part 0 (Or.inr ⟨_, rfl⟩), ok_bind, List.tail_cons]
  by_cases h0 : 255 < p.octval 0
  · rw [if_pos h0, if_neg (hlarge h0)]
    rfl
  rw [if_neg h0]
  dsimp only
  rw [p.nextOctet_part 1 (Or.inr ⟨_, rfl⟩), ok_bind, List.tail_cons]
  by_cases h1 : 255 < p.octval 1
  · rw [if_pos h1, if_neg (hlarge h1)]
    rfl
  rw [if_neg h1]
  dsimp only
  rw [p.nextOctet_part 2 (Or.inr ⟨_, rfl⟩), ok_bind, List.tail_cons]
  by_cases h2 : 255 < p.octval 2
  · rw [if_pos h2, if_neg (hlarge h2)]
    rfl
  rw [if_neg h2]
  dsimp only
  rw [hlast, ok_bind]
  by_cases h3 : 255 < p.octval 3
  · rw [if_pos h3, if_neg (hlarge h3)]
    rfl
  have hall : ∀ i, p.octval i ≤ 255 := by
    intro i
    fin_cases i
    · exact not_lt.mp h0
    · exact not_lt.mp h1
    · exact not_lt.mp h2
    · exact not_lt.mp h3
  rw [if_neg h3, if_pos hall]
  dsimp only
  rw [hvec]
  rfl

end AddrPattern

/-! ### The sections -/

/-- The elements from `<tag>` to `</tag>`. Those named `addr` have addresses. -/
structure AddrSection (tag : Bytes) where
  first : XmlElement
  body : List XmlElement
  last : XmlElement
  first_tag : first.isTag tag = true
  last_tag : last.isTag (47 :: tag) = true
  inside : ∀ e ∈ body, e.isTag (47 :: tag) = false
  addresses : ∀ e ∈ body, e.isTag (bytes "addr") = true →
    ∃ p : AddrPattern, e.xmlValue = some p.text

namespace AddrSection

variable {tag : Bytes}

def elements (s : AddrSection tag) : List XmlElement := s.first :: (s.body ++ [s.last])

/-- One of the addresses stands for the client's. -/
def Matches (s : AddrSection tag) (addr : Fin 4 → UInt8) : Prop :=
  ∃ e ∈ s.body, e.isTag (bytes "addr") = true ∧
    ∃ p : AddrPattern, e.xmlValue = some p.text ∧ p.Accepts addr

/-- The elements of a section that may be missing. -/
def elementsOf (s : Option (AddrSection tag)) : List XmlElement := s.elim [] elements

def bodyOf (s : Option (AddrSection tag)) : List XmlElement := s.elim [] body

end AddrSection

/-- The rule that an element is read as. -/
def XmlElement.rule (sign : Byte) (e : XmlElement) : Option IPAccessEntry :=
  if e.isTag (bytes "addr") then
    match IPAccess.parseIP (sign :: e.xmlValue.getD []) with
    | .ok pEntry => pEntry
    | .error _ => none
  else none

/-- A configuration with an `allow` and a `block` section, in either order, or without one or both
of them. The tags that are searched for are not used elsewhere in between. -/
structure AccessConfig where
  before : List XmlElement
  connections : XmlElement
  gap : List XmlElement
  allow : Option (AddrSection (bytes "allow"))
  between : List XmlElement
  block : Option (AddrSection (bytes "block"))
  after : List XmlElement
  blockFirst : Bool
  before_tag : ∀ e ∈ before, e.isTag (bytes "connections") = false
  connections_tag : connections.isTag (bytes "connections") = true
  gap_tag : ∀ e ∈ gap ++ between ++ AddrSection.bodyOf block,
    e.isTag (bytes "allow") = false ∧ e.isTag (bytes "block") = false
  after_tag : ∀ e ∈ after, e.isTag (bytes "block") = false
  after_noAllow : allow = none → ∀ e ∈ after, e.isTag (bytes "allow") = false

namespace AccessConfig

def elements (c : AccessConfig) : List XmlElement :=
  c.before ++ c.connections :: (c.gap ++ ((if c.blockFirst then
    AddrSection.elementsOf c.block ++ (c.between ++ AddrSection.elementsOf c.allow)
  else AddrSection.elementsOf c.allow ++ (c.between ++ AddrSection.elementsOf c.block)) ++ c.after))

def Allows (c : AccessConfig) (addr : Fin 4 → UInt8) : Prop := ∃ s ∈ c.allow, s.Matches addr

def Blocks (c : AccessConfig) (addr : Fin 4 → UInt8) : Prop := ∃ s ∈ c.block, s.Matches addr

end AccessConfig

theorem XmlElement.isTag_unique {e : XmlElement} {s t : Bytes} (hs : e.isTag s = true)
    (hne : s ≠ t) : e.isTag t = false := by
  unfold isTag at hs ⊢
  rw [decide_eq_true_eq] at hs
  rw [hs, decide_eq_false_iff_not]
  exact fun h => hne (Option.some_inj.mp h)

theorem AddrPattern.add_text (p : AddrPattern) {sign : Byte} (hsign : sign = 43 ∨ sign = 45)
    (x : IPAccess) : ∃ code, x.add (sign :: p.text) = .ok (code,
      { rulelist := x.rulelist ++ (p.octants.map fun octant =>
          { type := if sign = 43 then .inclusion else .exclusion, octant }).toList }) := by
  have hzero : 0 ∉ sign :: p.text := by
    rw [List.mem_cons]
    rintro (h | h)
    · rcases hsign with rfl | rfl
      · exact absurd h (by decide)
      · exact absurd h (by decide)
    · exact p.zero_notMem_text h
  have hlen : ¬ 255 ≤ (sign :: p.text).length := by
    have := p.length_text
    rw [List.length_cons]
    omega
  have hhead : ¬ ((sign :: p.text).head? ≠ some 43 ∧ (sign :: p.text).head? ≠ some 45) := by
    rw [List.head?_cons]
    rintro ⟨h43, h45⟩
    rcases hsign with rfl | rfl
    · exact h43 rfl
    · exact h45 rfl
  unfold IPAccess.add
  rw [cstr_eq_self hzero]
  dsimp only
  rw [if_neg hlen, if_neg hhead, p.parseIP_text, ok_bind]
  cases p.octants with
  | none => exact ⟨.ipparseFailed, by simp⟩
  | some octant => exact ⟨.ok, rfl⟩

/-- The loop adds the rules of the section in their order and stops at its end. -/
theorem addRules_eq {sign : Byte} (hsign : sign = 43 ∨ sign = 45) {tag : Bytes}
    (htag : bytes "addr" ≠ 47 :: tag) {elements rest : List XmlElement} {last : XmlElement}
    (hlast : last.isTag (47 :: tag) = true) {fuel : ℕ} {body : List XmlElement} (d : XmlElement)
    (x : IPAccess) (hfuel : body.length < fuel)
    (hinside : ∀ e ∈ body, e.isTag (47 :: tag) = false)
    (haddr : ∀ e ∈ body, e.isTag (bytes "addr") = true →
      ∃ p : AddrPattern, e.xmlValue = some p.text) :
    addRules sign (47 :: tag) fuel ⟨elements, d :: (body ++ last :: rest)⟩ x =
      .ok (⟨elements, last :: rest⟩,
        { rulelist := x.rulelist ++ body.filterMap (XmlElement.rule sign) }) := by
  induction fuel generalizing d x body with
  | zero => exact absurd hfuel (Nat.not_lt_zero _)
  | succ fuel ih =>
    have hskipped : ∀ e ∈ body.takeWhile (fun e => ! e.isTag (bytes "addr")),
        e.isTag (47 :: tag) = false ∧ e.isTag (bytes "addr") = false := by
      intro e he
      have hnot := List.mem_takeWhile_imp he
      exact ⟨hinside e ((List.takeWhile_prefix _).subset he), by simpa using hnot⟩
    have hnone : (body.takeWhile fun e => ! e.isTag (bytes "addr")).filterMap
        (XmlElement.rule sign) = [] := by
      rw [List.filterMap_eq_nil_iff]
      intro e he
      unfold XmlElement.rule
      rw [(hskipped e he).2]
      rfl
    have hsplit := List.takeWhile_append_dropWhile (p := fun e => ! e.isTag (bytes "addr"))
      (l := body)
    generalize body.takeWhile (fun e => ! e.isTag (bytes "addr")) = skipped at *
    unfold addRules
    cases hrest : body.dropWhile fun e => ! e.isTag (bytes "addr") with
    | nil =>
      rw [hrest, List.append_nil] at hsplit
      rw [← hsplit, XmlCursor.findNextTag_not hskipped hlast, hnone, List.append_nil]
      rfl
    | cons e body' =>
      have he : e.isTag (bytes "addr") = true := by
        have hne : body.dropWhile (fun e => ! e.isTag (bytes "addr")) ≠ [] := by
          rw [hrest]
          exact List.cons_ne_nil _ _
        have hhead := List.head_dropWhile_not _ hne
        simpa only [hrest, List.head_cons, Bool.not_eq_false'] using hhead
      rw [hrest] at hsplit
      have hmem : ∀ e' ∈ e :: body', e' ∈ body := fun e' he' =>
        hsplit ▸ List.mem_append_right _ he'
      obtain ⟨p, hvalue⟩ := haddr e (hmem e List.mem_cons_self) he
      obtain ⟨code, hadd⟩ := p.add_text hsign x
      have hrule : (XmlElement.rule sign e).toList = (p.octants.map fun octant =>
          { type := if sign = 43 then .inclusion else .exclusion, octant }).toList := by
        unfold XmlElement.rule
        rw [he, if_pos rfl, hvalue, Option.getD_some, p.parseIP_text]
      have hlength : body'.length < fuel := by
        rw [← hsplit, List.length_append, List.length_cons] at hfuel
        omega
      have hnext := @XmlCursor.findNextTag_eq elements _ (body' ++ last :: rest) e d _
        (some (47 :: tag)) (fun e' he' => hskipped e' he') (XmlElement.isTag_unique he htag) he
      rw [← hsplit, List.append_assoc, List.cons_append, hnext]
      dsimp only
      rw [hvalue]
      dsimp only
      rw [hadd, ok_bind]
      dsimp only
      rw [ih e _ hlength (fun e' he' => hinside e' (hmem e' (List.mem_cons_of_mem _ he')))
        fun e' he' => haddr e' (hmem e' (List.mem_cons_of_mem _ he'))]
      rw [List.filterMap_append, hnone, List.nil_append, ← hrule, List.append_assoc]
      cases h : XmlElement.rule sign e with
      | none => rw [List.filterMap_cons_none h]; rfl
      | some r => rw [List.filterMap_cons_some h]; rfl

/-! ### The decision -/

theorem length_decimal_le {n : ℕ} (hn : n < 256) : (decimal n).length ≤ 3 := by
  unfold decimal
  split_ifs
  · exact Nat.le_of_ble_eq_true rfl
  · rw [List.length_map, List.length_reverse, Nat.digits_length_le_iff (by decide)]
    omega

/-- The address of a client as a pattern. -/
def clientPattern (addr : Fin 4 → UInt8) : AddrPattern where
  part i := decimal (addr i).toNat
  form i := Or.inr ⟨decimal_ne_nil _, fun _ => isDigit_of_mem_decimal⟩
  fits := by
    have hle (i : Fin 4) := length_decimal_le (addr i).toNat_lt
    have h0 := hle 0
    have h1 := hle 1
    have h2 := hle 2
    have h3 := hle 3
    omega

theorem clientPattern_octval (addr : Fin 4 → UInt8) (i : Fin 4) :
    (clientPattern addr).octval i = (addr i).toNat := by
  have hnot : (clientPattern addr).part i ≠ bytes "*" := by
    intro hstar
    have hin : (42 : Byte) ∈ (clientPattern addr).part i := by
      rw [hstar]
      exact List.mem_singleton_self _
    exact absurd (isDigit_of_mem_decimal hin) (by decide)
  unfold AddrPattern.octval
  rw [if_neg hnot]
  exact congrArg Nat.cast (digitsVal_decimal _)

theorem clientPattern_octants (addr : Fin 4 → UInt8) :
    (clientPattern addr).octants = some fun i => ((addr i).toNat : ℤ) := by
  have hoctval : (clientPattern addr).octval = fun i => ((addr i).toNat : ℤ) :=
    funext (clientPattern_octval addr)
  have hle : ∀ i, (clientPattern addr).octval i ≤ 255 := by
    intro i
    have := (addr i).toNat_lt
    rw [clientPattern_octval]
    omega
  unfold AddrPattern.octants
  rw [if_pos hle, hoctval]

/-- A rule matches the addresses that its pattern stands for. -/
theorem AddrPattern.matches_iff (p : AddrPattern) (type type' : EntryType)
    (addr : Fin 4 → UInt8) :
    IPAccessEntry.matches ⟨type, p.octval⟩ ⟨type', fun i => ((addr i).toNat : ℤ)⟩ = true ↔
      p.Accepts addr := by
  unfold IPAccessEntry.matches AddrPattern.Accepts
  rw [decide_eq_true_eq]
  apply forall_congr'
  intro i
  dsimp only
  unfold AddrPattern.octval
  by_cases hstar : p.part i = bytes "*"
  · rw [if_pos hstar]
    exact iff_of_true (Or.inl rfl) (Or.inl hstar)
  · rw [if_neg hstar, or_iff_right hstar, Nat.cast_inj]
    exact or_iff_right (by omega)

/-- What the addresses of a section stand for, its rules match. -/
theorem AddrSection.rules_match {tag : Bytes} (s : AddrSection tag) (sign : Byte)
    (addr : Fin 4 → UInt8) (type : EntryType) :
    (∃ r ∈ s.body.filterMap (XmlElement.rule sign),
      r.matches ⟨type, fun i => ((addr i).toNat : ℤ)⟩ = true) ↔ s.Matches addr := by
  constructor
  · rintro ⟨r, hr, hmatch⟩
    obtain ⟨e, he, hrule⟩ := List.mem_filterMap.mp hr
    unfold XmlElement.rule at hrule
    split_ifs at hrule with htag
    obtain ⟨p, hvalue⟩ := s.addresses e he htag
    rw [hvalue, Option.getD_some, p.parseIP_text] at hrule
    obtain ⟨octant, hoctant, rfl⟩ := Option.map_eq_some_iff.mp hrule
    unfold AddrPattern.octants at hoctant
    split_ifs at hoctant
    obtain rfl := Option.some_inj.mp hoctant
    exact ⟨e, he, htag, p, hvalue, (p.matches_iff _ _ addr).mp hmatch⟩
  · rintro ⟨e, he, htag, p, hvalue, haccepts⟩
    have hle : ∀ i, p.octval i ≤ 255 := by
      intro i
      have hlt := (addr i).toNat_lt
      unfold AddrPattern.octval
      rcases haccepts i with hstar | hvalue
      · rw [if_pos hstar]
        decide
      · rw [hvalue]
        split_ifs
        · decide
        · omega
    refine ⟨⟨if sign = 43 then .inclusion else .exclusion, p.octval⟩, ?_,
      (p.matches_iff _ _ addr).mpr haccepts⟩
    refine List.mem_filterMap.mpr ⟨e, he, ?_⟩
    unfold XmlElement.rule
    rw [htag, if_pos rfl, hvalue, Option.getD_some, p.parseIP_text]
    unfold AddrPattern.octants
    rw [if_pos hle]
    rfl

/-- The rules of a section have one type. -/
theorem AddrSection.rules_type {tag : Bytes} (s : AddrSection tag) (sign : Byte) :
    ∀ r ∈ s.body.filterMap (XmlElement.rule sign),
      r.type = if sign = 43 then EntryType.inclusion else .exclusion := by
  intro r hr
  obtain ⟨e, he, hrule⟩ := List.mem_filterMap.mp hr
  unfold XmlElement.rule at hrule
  split_ifs at hrule with htag
  obtain ⟨p, hvalue⟩ := s.addresses e he htag
  rw [hvalue, Option.getD_some, p.parseIP_text] at hrule
  obtain ⟨octant, -, rfl⟩ := Option.map_eq_some_iff.mp hrule
  rfl

/-- The first rule that matches decides, and without one the address is refused. -/
theorem IPAccess.validate_eq (x : IPAccess) (addr : Fin 4 → UInt8) :
    x.validate (clientAddr addr) = .ok
      (match x.rulelist.find? fun r => r.matches ⟨.inclusion, fun i => ((addr i).toNat : ℤ)⟩ with
        | none => .deny
        | some r => if r.type = .inclusion then .ok else .deny) := by
  have htext : clientAddr addr = (clientPattern addr).text := rfl
  unfold validate
  rw [htext, cstr_eq_self (clientPattern addr).zero_notMem_text, (clientPattern addr).parseIP_text,
    clientPattern_octants, Option.map_some, ok_bind]
  dsimp only
  rw [if_pos rfl]
  cases x.rulelist.find? fun r => r.matches ⟨.inclusion, fun i => ((addr i).toNat : ℤ)⟩ with
  | none => rfl
  | some r => rfl

/-- The loop for a section that the search finds, and no loop for one that is missing. -/
theorem sectionRules_eq {sign : Byte} (hsign : sign = 43 ∨ sign = 45) {tag : Bytes}
    (htag : bytes "addr" ≠ 47 :: tag) (s : Option (AddrSection tag))
    {elements skipped rest : List XmlElement} (d : XmlElement) (x : IPAccess)
    (hskip : ∀ e ∈ skipped, e.isTag tag = false)
    (hrest : s = none → ∀ e ∈ rest, e.isTag tag = false) :
    sectionRules sign tag ⟨elements, d :: (skipped ++ (AddrSection.elementsOf s ++ rest))⟩ x =
      .ok (⟨elements, s.elim (d :: (skipped ++ rest)) fun s => s.last :: rest⟩,
        { rulelist := x.rulelist ++ (AddrSection.bodyOf s).filterMap (XmlElement.rule sign) }) := by
  cases s with
  | none =>
    have hnone : ∀ e ∈ skipped ++ rest, e.isTag tag = false := by
      intro e he
      rcases List.mem_append.mp he with he | he
      · exact hskip e he
      · exact hrest rfl e he
    have hrules : x.rulelist ++ (AddrSection.bodyOf (none : Option (AddrSection tag))).filterMap
        (XmlElement.rule sign) = x.rulelist := List.append_nil _
    have helements : AddrSection.elementsOf (none : Option (AddrSection tag)) ++ rest = rest := rfl
    unfold sectionRules
    rw [helements, XmlCursor.findNextTag_none hnone, hrules]
    rfl
  | some s =>
    have hfound := @XmlCursor.findNextTag_eq elements _ (s.body ++ s.last :: rest) s.first d _ none
      (fun e he => ⟨rfl, hskip e he⟩) rfl s.first_tag
    have helements : AddrSection.elementsOf (some s) ++ rest =
        s.first :: (s.body ++ s.last :: rest) := by
      unfold AddrSection.elementsOf AddrSection.elements
      rw [Option.elim_some, List.cons_append, List.append_assoc]
      rfl
    have hlength : s.body.length < (s.first :: (s.body ++ s.last :: rest)).length+1 := by
      simp only [List.length_cons, List.length_append]
      omega
    unfold sectionRules
    rw [helements, hfound]
    exact addRules_eq hsign htag s.last_tag s.first x hlength s.inside s.addresses

namespace AccessConfig

variable (c : AccessConfig)

/-- The search for the `allow` section passes over the `block` section. -/
theorem blockElements_noAllow :
    ∀ e ∈ AddrSection.elementsOf c.block, e.isTag (bytes "allow") = false := by
  intro e he
  have hgap := c.gap_tag
  cases hblock : c.block with
  | none =>
    rw [hblock] at he
    cases he
  | some s =>
    rw [hblock] at he hgap
    rcases List.mem_cons.mp he with rfl | he
    · exact XmlElement.isTag_unique s.first_tag (by decide)
    rcases List.mem_append.mp he with he | he
    · exact (hgap e (List.mem_append_right _ he)).1
    · rw [List.mem_singleton.mp he]
      exact XmlElement.isTag_unique s.last_tag (by decide)

/-- The rules of the `block` section are read when the search for it starts in front of it. -/
def blockRead : Bool := ! c.blockFirst || c.allow.isNone

/-- The rules are those of the `allow` section, with those of the `block` section behind them when
that is the second one or the only one, and without them otherwise. -/
theorem processIPRules_eq (old : List XmlElement) (primaryIP : Bytes) :
    processIPRules ⟨c.elements, old⟩ {} primaryIP = .ok
      { rulelist := (AddrSection.bodyOf c.allow).filterMap (XmlElement.rule 43) ++
          if c.blockRead then (AddrSection.bodyOf c.block).filterMap (XmlElement.rule 45)
          else [] } := by
  have hallow : bytes "addr" ≠ 47 :: bytes "allow" := by decide
  have hblock : bytes "addr" ≠ 47 :: bytes "block" := by decide
  have hgap : ∀ e ∈ c.gap ++ c.between,
      e.isTag (bytes "allow") = false ∧ e.isTag (bytes "block") = false :=
    fun e he => c.gap_tag e (List.mem_append_left _ he)
  have hgapAllow : ∀ e ∈ c.gap, e.isTag (bytes "allow") = false :=
    fun e he => (hgap e (List.mem_append_left _ he)).1
  have hnone := c.after_noAllow
  unfold processIPRules elements blockRead
  rw [XmlCursor.findTag_eq c.before_tag c.connections_tag]
  dsimp only
  generalize c.before ++ c.connections :: _ = document
  cases c.blockFirst with
  | false =>
    have hbehind : c.allow = none → ∀ e ∈ c.between ++ (AddrSection.elementsOf c.block ++ c.after),
        e.isTag (bytes "allow") = false := by
      intro h e he
      rcases List.mem_append.mp he with he | he
      · exact (hgap e (List.mem_append_right _ he)).1
      rcases List.mem_append.mp he with he | he
      · exact c.blockElements_noAllow e he
      · exact hnone h e he
    rw [if_neg Bool.false_ne_true, Bool.not_false, Bool.true_or, if_pos rfl, List.append_assoc,
      List.append_assoc, sectionRules_eq (Or.inl rfl) hallow c.allow c.connections {} hgapAllow
        hbehind, ok_bind]
    dsimp only
    cases c.allow with
    | none =>
      rw [Option.elim_none, ← List.append_assoc, sectionRules_eq (Or.inr rfl) hblock c.block
        c.connections _ (fun e he => (hgap e he).2) (fun _ => c.after_tag), ok_bind]
      rfl
    | some s =>
      rw [Option.elim_some, sectionRules_eq (Or.inr rfl) hblock c.block s.last _
        (fun e he => (hgap e (List.mem_append_right _ he)).2) (fun _ => c.after_tag), ok_bind]
      rfl
  | true =>
    have hskip : ∀ e ∈ c.gap ++ (AddrSection.elementsOf c.block ++ c.between),
        e.isTag (bytes "allow") = false := by
      intro e he
      rcases List.mem_append.mp he with he | he
      · exact hgapAllow e he
      rcases List.mem_append.mp he with he | he
      · exact c.blockElements_noAllow e he
      · exact (hgap e (List.mem_append_right _ he)).1
    have hsplit : c.gap ++ ((AddrSection.elementsOf c.block ++
        (c.between ++ AddrSection.elementsOf c.allow)) ++ c.after) =
        (c.gap ++ (AddrSection.elementsOf c.block ++ c.between)) ++
          (AddrSection.elementsOf c.allow ++ c.after) := by
      simp only [List.append_assoc]
    rw [if_pos rfl, hsplit, sectionRules_eq (Or.inl rfl) hallow c.allow c.connections {} hskip
      hnone, ok_bind]
    dsimp only
    cases c.allow with
    | none =>
      have hbehind : ∀ e ∈ c.between ++ c.after, e.isTag (bytes "block") = false := by
        intro e he
        rcases List.mem_append.mp he with he | he
        · exact (hgap e (List.mem_append_right _ he)).2
        · exact c.after_tag e he
      rw [Option.elim_none, List.append_assoc, List.append_assoc,
        sectionRules_eq (Or.inr rfl) hblock c.block c.connections _
          (fun e he => (hgap e (List.mem_append_left _ he)).2) (fun _ => hbehind), ok_bind]
      rfl
    | some s =>
      -- Behind the `allow` section there is no other one.
      unfold sectionRules
      rw [Option.elim_some, XmlCursor.findNextTag_none c.after_tag]
      exact congrArg (fun l => Except.ok (IPAccess.mk l)) (List.append_nil _).symm

/-- What the addresses of a section stand for, its rules match, when there is one. -/
theorem rules_match {tag : Bytes} (s : Option (AddrSection tag)) (sign : Byte)
    (addr : Fin 4 → UInt8) (type : EntryType) :
    (∃ r ∈ (AddrSection.bodyOf s).filterMap (XmlElement.rule sign),
      r.matches ⟨type, fun i => ((addr i).toNat : ℤ)⟩ = true) ↔ ∃ t ∈ s, t.Matches addr := by
  cases s with
  | none =>
    constructor
    · rintro ⟨r, hr, -⟩
      cases hr
    · rintro ⟨t, ht, -⟩
      cases ht
  | some s =>
    constructor
    · intro h
      exact ⟨s, rfl, (s.rules_match sign addr type).mp h⟩
    · rintro ⟨t, ht, hmatch⟩
      obtain rfl := Option.mem_some.mp ht
      exact (s.rules_match sign addr type).mpr hmatch

theorem rules_type {tag : Bytes} (s : Option (AddrSection tag)) (sign : Byte) :
    ∀ r ∈ (AddrSection.bodyOf s).filterMap (XmlElement.rule sign),
      r.type = if sign = 43 then EntryType.inclusion else .exclusion := by
  cases s with
  | none => exact fun _ h => nomatch h
  | some s => exact s.rules_type sign

/-- An address is let in exactly when the `allow` section has it. -/
theorem validate_rules (old : List XmlElement) (primaryIP : Bytes) (addr : Fin 4 → UInt8) :
    ∃ x, processIPRules ⟨c.elements, old⟩ {} primaryIP = .ok x ∧
      (c.Allows addr → x.validate (clientAddr addr) = .ok .ok) ∧
      (¬ c.Allows addr → x.validate (clientAddr addr) = .ok .deny) := by
  refine ⟨_, c.processIPRules_eq old primaryIP, ?_, ?_⟩
  · intro hallow
    obtain ⟨r, hr, hmatch⟩ := (rules_match c.allow 43 addr .inclusion).mpr hallow
    rw [IPAccess.validate_eq, List.find?_append]
    cases hfind : ((AddrSection.bodyOf c.allow).filterMap (XmlElement.rule 43)).find?
        fun r => r.matches ⟨.inclusion, fun i => ((addr i).toNat : ℤ)⟩ with
    | none => exact absurd hmatch (by simpa using List.find?_eq_none.mp hfind r hr)
    | some r =>
      have htype := rules_type c.allow 43 r (List.mem_of_find?_eq_some hfind)
      rw [if_pos rfl] at htype
      rw [Option.some_or]
      dsimp only
      rw [if_pos htype]
  · intro hnot
    have hnone : ((AddrSection.bodyOf c.allow).filterMap (XmlElement.rule 43)).find?
        (fun r => r.matches ⟨.inclusion, fun i => ((addr i).toNat : ℤ)⟩) = none := by
      rw [List.find?_eq_none]
      intro r hr hmatch
      exact hnot ((rules_match c.allow 43 addr .inclusion).mp ⟨r, hr, hmatch⟩)
    rw [IPAccess.validate_eq, List.find?_append, hnone, Option.none_or]
    cases hfind : (if c.blockRead then
        (AddrSection.bodyOf c.block).filterMap (XmlElement.rule 45) else []).find?
        fun r => r.matches ⟨.inclusion, fun i => ((addr i).toNat : ℤ)⟩ with
    | none => rfl
    | some r =>
      have hmem := List.mem_of_find?_eq_some hfind
      have htype : r.type = .exclusion := by
        split_ifs at hmem
        · exact rules_type c.block 45 r hmem
        · cases hmem
      dsimp only
      rw [htype]
      rfl

/-- An address of the `block` section is refused, and one of the `allow` section that the other does
not have is let in. -/
structure BlockedStayOut (x : IPAccess) (addr : Fin 4 → UInt8) : Prop where
  blocked : c.Blocks addr → x.validate (clientAddr addr) = .ok .deny
  allowed : c.Allows addr → ¬ c.Blocks addr → x.validate (clientAddr addr) = .ok .ok

/-- The `block` section takes nothing away from what the `allow` section lets in. -/
theorem blockedStayOut_iff (old : List XmlElement) (primaryIP : Bytes) (addr : Fin 4 → UInt8) :
    ∃ x, processIPRules ⟨c.elements, old⟩ {} primaryIP = .ok x ∧
      (c.BlockedStayOut x addr ↔ ¬ (c.Allows addr ∧ c.Blocks addr)) := by
  obtain ⟨x, hx, hin, hout⟩ := c.validate_rules old primaryIP addr
  refine ⟨x, hx, ?_, ?_⟩
  · rintro hstay ⟨hallow, hblock⟩
    have hdeny := hstay.blocked hblock
    rw [hin hallow] at hdeny
    cases hdeny
  · intro hnot
    exact ⟨fun hblock => hout fun hallow => hnot ⟨hallow, hblock⟩, fun hallow _ => hin hallow⟩

/-! ### Everyone but one -/

def anyAddr : AddrPattern where
  part _ := bytes "*"
  form _ := Or.inl rfl
  fits := by decide

/-- A section with one address. -/
def oneAddr (tag : Bytes) (htag : bytes "addr" ≠ 47 :: tag) (p : AddrPattern) :
    AddrSection tag where
  first := { xmlTagName := some tag }
  body := [{ xmlTagName := some (bytes "addr"), xmlValue := some p.text }]
  last := { xmlTagName := some (47 :: tag) }
  first_tag := decide_eq_true rfl
  last_tag := decide_eq_true rfl
  inside e he := by
    rw [List.mem_singleton.mp he]
    exact decide_eq_false fun h => htag (Option.some_inj.mp h)
  addresses e he _ := by
    rw [List.mem_singleton.mp he]
    exact ⟨p, rfl⟩

def blockedAddr : Fin 4 → UInt8 := ![10, 0, 0, 8]

/-- All addresses are allowed, and one is blocked. -/
def openConfig : AccessConfig where
  before := []
  connections := { xmlTagName := some (bytes "connections") }
  gap := []
  allow := some (oneAddr (bytes "allow") (by decide) anyAddr)
  between := []
  block := some (oneAddr (bytes "block") (by decide) (clientPattern blockedAddr))
  after := []
  blockFirst := false
  before_tag _ h := absurd h List.not_mem_nil
  connections_tag := decide_eq_true rfl
  gap_tag e he := by
    rw [List.mem_singleton.mp he]
    exact ⟨XmlElement.isTag_unique (s := bytes "addr") (decide_eq_true rfl) (by decide),
      XmlElement.isTag_unique (s := bytes "addr") (decide_eq_true rfl) (by decide)⟩
  after_tag _ h := absurd h List.not_mem_nil
  after_noAllow _ _ h := absurd h List.not_mem_nil

theorem blocked_is_let_in : openConfig.Blocks blockedAddr ∧
    ∃ x, processIPRules ⟨openConfig.elements, []⟩ {} [] = .ok x ∧
      x.validate (clientAddr blockedAddr) = .ok .ok := by
  have hallow : openConfig.Allows blockedAddr :=
    ⟨_, rfl, _, List.mem_singleton_self _, decide_eq_true rfl, anyAddr, rfl, fun _ => Or.inl rfl⟩
  have hblock : openConfig.Blocks blockedAddr :=
    ⟨_, rfl, _, List.mem_singleton_self _, decide_eq_true rfl, clientPattern blockedAddr, rfl,
      fun _ => Or.inr (digitsVal_decimal _)⟩
  obtain ⟨x, hx, hin, -⟩ := openConfig.validate_rules [] [] blockedAddr
  exact ⟨hblock, x, hx, hin hallow⟩

end AccessConfig

end MsgCourier
