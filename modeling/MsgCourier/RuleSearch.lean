import MsgCourier.MsgContent
import MsgCourier.RulesEngine

/-! What the tests of the rules engine find, and where they look past the header and the payload of
a message. -/
namespace MsgCourier
open ListSearch CText

/-! ### Where a text occurs -/

section
variable {pat l : Bytes}

theorem firstOcc_zero_iff : firstOcc pat l = some 0 ↔ pat <+: l := by
  cases l with
  | nil =>
    unfold firstOcc
    rw [List.prefix_nil]
    by_cases hp : pat = []
    · rw [if_pos hp]
      exact ⟨fun _ => hp, fun _ => rfl⟩
    · rw [if_neg hp]
      exact ⟨fun h => absurd h (Option.some_ne_none 0).symm, fun h => absurd h hp⟩
  | cons a l =>
    unfold firstOcc
    by_cases hp : pat <+: a :: l
    · rw [if_pos hp]
      exact ⟨fun _ => hp, fun _ => rfl⟩
    · rw [if_neg hp]
      refine ⟨?_, fun h => absurd h hp⟩
      intro h
      obtain ⟨k, -, hk⟩ := Option.map_eq_some_iff.mp h
      omega

theorem exists_firstOcc_iff : (∃ k, firstOcc pat l = some k) ↔ pat <:+: l := by
  by_cases hp : pat = []
  · rw [hp]
    exact ⟨fun _ => List.nil_infix, fun _ => ⟨0, firstOcc_zero_iff.mpr List.nil_prefix⟩⟩
  · rw [← occursIn_iff hp, occursIn, Option.isSome_iff_exists]

/-- The first occurrence ends first. -/
theorem firstOcc_bound {k n : ℕ} (h : firstOcc pat l = some k) (hin : pat <:+: l.take n) :
    k+pat.length ≤ n := by
  obtain ⟨j, hj⟩ := exists_firstOcc_iff.mpr hin
  by_cases hp : pat = []
  · rw [hp] at h
    have hzero : firstOcc [] l = some 0 := firstOcc_zero_iff.mpr List.nil_prefix
    obtain rfl := Option.some.inj (hzero.symm.trans h)
    rw [hp]
    exact Nat.zero_le _
  · have hsame := firstOcc_append hp hj (l.drop n)
    rw [List.take_append_drop] at hsame
    obtain rfl := Option.some.inj (hsame.symm.trans h)
    exact (firstOcc_le pat hj).trans (List.length_take_le n l)

theorem infix_take_of_firstOcc {k n : ℕ} (h : firstOcc pat l = some k) (hn : k+pat.length ≤ n) :
    pat <:+: l.take n := by
  by_cases hp : pat = []
  · rw [hp]
    exact List.nil_infix
  · exact exists_firstOcc_iff.mp ⟨k, firstOcc_take hp h hn⟩

/-- A text without NUL stands in front of the first NUL when it stands at the beginning. -/
theorem prefix_cstr_iff (hpat : 0 ∉ pat) : pat <+: cstr l ↔ pat <+: l := by
  obtain ⟨r, hr⟩ := cstr_split l
  constructor
  · intro h
    exact h.trans ⟨r, hr.symm⟩
  · intro h
    obtain ⟨s, hs⟩ := h
    rw [← hs, cstr_append hpat]
    exact List.prefix_append _ _

theorem infix_of_cstr (h : pat <:+: cstr l) : pat <:+: l := by
  obtain ⟨r, hr⟩ := cstr_split l
  have hprefix : cstr l <+: l := ⟨r, hr.symm⟩
  exact h.trans hprefix.isInfix

end

/-! ### What the tests read -/

structure MsgView where
  statusLine : Bytes
  content : Bytes
  headerSize : ℕ

/-- A message whose header ends inside its buffer. -/
structure Parsed (m : Msg) (v : MsgView) : Prop where
  line : m.msgStatusLine = v.statusLine
  buffer : m.msgBuffer.Keeps v.content
  size : m.msgHeaderSize = v.headerSize
  inside : v.headerSize < v.content.length

/-- The value of a rule occurs where the rule says: the payload is what follows the empty line. -/
def Occurs (v : MsgView) (location : MsgRouterLocationType) (value : Bytes) : Prop :=
  match location with
  | .status => value <:+: v.statusLine
  | .header => value <:+: v.content.take v.headerSize
  | .payload => value <:+: v.content.drop (v.headerSize+4)
  | .notset | .all => False

/-- What `TestContains` returns. -/
def containsTest (v : MsgView) (pRule : MsgRouterRule) : Bool :=
  match pRule.location with
  | .status => (strstr v.statusLine (cstr pRule.value)).isSome
  | .header =>
    match strstr v.content (cstr pRule.value) with
    | some idx => 0 < idx && idx < v.headerSize
    | none => false
  | .payload =>
    match strstr (v.content.drop v.headerSize) (cstr pRule.value) with
    | some k => 0 < v.headerSize+k
    | none => false
  | .notset | .all => false

/-- Where `TestContains` looks as it should. In the status line and in the payload: no occurrence is
behind a NUL alone. In the header: the value does not begin with the message, is not behind a NUL
alone, and its first occurrence does not reach over the end of the header. In the payload: the value
does not begin in the empty line alone, nor with a message that has no header. -/
def Agrees (v : MsgView) (location : MsgRouterLocationType) (value : Bytes) : Prop :=
  match location with
  | .status => value <:+: v.statusLine → value <:+: cstr v.statusLine
  | .header =>
    ¬ value <+: v.content.take v.headerSize ∧
      (value <:+: v.content.take v.headerSize → value <:+: cstr (v.content.take v.headerSize)) ∧
      ∀ i, firstOcc value (cstr v.content) = some i → 0 < i → i < v.headerSize →
        i+value.length ≤ v.headerSize
  | .payload =>
    let atStart := v.headerSize = 0 ∧ value <+: v.content
    (value <:+: v.content.drop (v.headerSize+4) →
        value <:+: cstr (v.content.drop v.headerSize) ∧ ¬ atStart) ∧
      (value <:+: cstr (v.content.drop v.headerSize) → ¬ atStart →
        value <:+: v.content.drop (v.headerSize+4))
  | .notset | .all => True

namespace Parsed

variable {m : Msg} {v : MsgView}

theorem ne_nil (h : Parsed m v) : v.content ≠ [] := by
  intro hnil
  have hinside := h.inside
  rw [hnil] at hinside
  exact absurd hinside (Nat.not_lt_zero _)

theorem withBuffer (h : Parsed m v) {b : Buffer} (hb : b.Keeps v.content) :
    Parsed { m with msgBuffer := b } v :=
  ⟨h.line, hb, h.size, h.inside⟩

theorem testContains (h : Parsed m v) (pRule : MsgRouterRule) : ∃ m',
    MsgCourier.testContains m pRule = .ok (containsTest v pRule, m') ∧ Parsed m' v := by
  unfold MsgCourier.testContains containsTest
  cases hloc : pRule.location with
  | notset => exact ⟨m, rfl, h⟩
  | all => exact ⟨m, rfl, h⟩
  | status =>
    refine ⟨m, ?_, h⟩
    rw [h.line]
    rfl
  | header =>
    obtain ⟨b', hfind, hclosed, -⟩ := h.buffer.find h.ne_nil (cstr pRule.value) (Nat.zero_le _)
    refine ⟨_, ?_, h.withBuffer hclosed.keeps⟩
    dsimp only
    rw [Nat.cast_zero, List.drop_zero] at hfind
    rw [hfind, ok_bind, h.size]
    dsimp only
    cases strstr v.content (cstr pRule.value) with
    | none => rfl
    | some idx =>
      dsimp only [Option.elim]
      simp only [Nat.zero_add, Nat.cast_pos, Nat.cast_lt]
      rfl
  | payload =>
    obtain ⟨b', hfind, hclosed, -⟩ := h.buffer.find h.ne_nil (cstr pRule.value) h.inside.le
    refine ⟨_, ?_, h.withBuffer hclosed.keeps⟩
    dsimp only
    rw [h.size, hfind, ok_bind]
    dsimp only
    cases strstr (v.content.drop v.headerSize) (cstr pRule.value) with
    | none => rfl
    | some k =>
      dsimp only [Option.elim]
      simp only [Nat.cast_pos]
      rfl

end Parsed

namespace Buffer

end Buffer

theorem containsTest_header_iff {v : MsgView} {pRule : MsgRouterRule}
    (hloc : pRule.location = .header) :
    containsTest v pRule = true ↔
      ∃ idx, firstOcc (cstr pRule.value) (cstr v.content) = some idx ∧ 0 < idx ∧
        idx < v.headerSize := by
  unfold containsTest strstr
  rw [hloc]
  dsimp only
  cases firstOcc (cstr pRule.value) (cstr v.content) with
  | none => simp
  | some idx => simp

theorem containsTest_payload_iff {v : MsgView} {pRule : MsgRouterRule}
    (hloc : pRule.location = .payload) (hvalue : 0 ∉ pRule.value) :
    containsTest v pRule = true ↔ pRule.value <:+: cstr (v.content.drop v.headerSize) ∧
      ¬ (v.headerSize = 0 ∧ pRule.value <+: v.content) := by
  unfold containsTest strstr
  rw [hloc, cstr_eq_self hvalue, ← exists_firstOcc_iff]
  dsimp only
  cases hfirst : firstOcc pRule.value (cstr (v.content.drop v.headerSize)) with
  | none => simp
  | some k =>
    have hstart : v.headerSize = 0 ∧ pRule.value <+: v.content ↔ v.headerSize+k = 0 := by
      constructor
      · intro h
        obtain ⟨hzero, hprefix⟩ := h
        rw [hzero, List.drop_zero, firstOcc_zero_iff.mpr ((prefix_cstr_iff hvalue).mpr hprefix)]
          at hfirst
        have hk := Option.some.inj hfirst
        omega
      · intro h
        obtain ⟨hzero, rfl⟩ := Nat.add_eq_zero_iff.mp h
        rw [hzero, List.drop_zero, firstOcc_zero_iff, prefix_cstr_iff hvalue] at hfirst
        exact ⟨hzero, hfirst⟩
    rw [hstart, decide_eq_true_iff]
    exact ⟨fun h => ⟨⟨k, rfl⟩, h.ne'⟩, fun h => Nat.pos_of_ne_zero h.2⟩

/-- The test of a header rule finds what it should exactly where its positions are right. -/
theorem header_agrees_iff {v : MsgView} {pRule : MsgRouterRule} (hloc : pRule.location = .header)
    (hvalue : 0 ∉ pRule.value) :
    (containsTest v pRule = true ↔ Occurs v .header pRule.value) ↔
    Agrees v .header pRule.value := by
  rw [containsTest_header_iff hloc, cstr_eq_self hvalue]
  unfold Occurs Agrees
  dsimp only
  have htake : cstr (v.content.take v.headerSize) = (cstr v.content).take v.headerSize :=
    cstr_take _ _
  constructor
  · intro h
    refine ⟨?_, ?_, ?_⟩
    · intro hprefix
      obtain ⟨idx, hidx, hpos, -⟩ := h.mpr hprefix.isInfix
      have hzero : firstOcc pRule.value (cstr v.content) = some 0 := by
        rw [firstOcc_zero_iff, prefix_cstr_iff hvalue]
        exact hprefix.trans (List.take_prefix _ _)
      rw [hzero] at hidx
      exact hpos.ne (Option.some.inj hidx)
    · intro hin
      obtain ⟨idx, hidx, -, hlt⟩ := h.mpr hin
      rw [htake]
      by_cases hbound : idx+pRule.value.length ≤ v.headerSize
      · exact infix_take_of_firstOcc hidx hbound
      · -- then the text reaches over the end of the header, and no NUL hides a part of it
        have hlong : v.headerSize ≤ (cstr v.content).length := by
          have hend := firstOcc_le _ hidx
          omega
        have hsame : v.content.take v.headerSize = (cstr v.content).take v.headerSize := by
          obtain ⟨r, hr⟩ := cstr_split v.content
          conv_lhs => rw [hr]
          exact List.take_append_of_le_length hlong
        rwa [hsame] at hin
    · intro idx hidx hpos hlt
      have hin := h.mp ⟨idx, hidx, hpos, hlt⟩
      by_contra hover
      have hlong : v.headerSize ≤ (cstr v.content).length := by
        have hend := firstOcc_le _ hidx
        omega
      have hsame : v.content.take v.headerSize = (cstr v.content).take v.headerSize := by
        obtain ⟨r, hr⟩ := cstr_split v.content
        conv_lhs => rw [hr]
        exact List.take_append_of_le_length hlong
      rw [hsame] at hin
      exact hover (firstOcc_bound hidx hin)
  · intro h
    obtain ⟨hstart, hnul, hover⟩ := h
    constructor
    · intro htest
      obtain ⟨idx, hidx, hpos, hlt⟩ := htest
      have hin := infix_take_of_firstOcc hidx (hover idx hidx hpos hlt)
      rw [← htake] at hin
      exact infix_of_cstr hin
    · intro hin
      have htext := hnul hin
      rw [htake] at htext
      obtain ⟨idx, hidx⟩ := exists_firstOcc_iff.mpr (htext.trans (List.take_prefix _ _).isInfix)
      have hbound := firstOcc_bound hidx htext
      have hne : pRule.value ≠ [] := by
        intro hnil
        exact hstart (hnil ▸ List.nil_prefix)
      have hlen := List.length_pos_iff.mpr hne
      have hpos : idx ≠ 0 := by
        intro hzero
        rw [hzero, firstOcc_zero_iff, prefix_cstr_iff hvalue] at hidx
        apply hstart
        rw [List.prefix_take_iff]
        exact ⟨hidx, by omega⟩
      exact ⟨idx, hidx, Nat.pos_of_ne_zero hpos, by omega⟩

/-- What a rule's value has to meet for its test to be right. -/
theorem agrees_iff {v : MsgView} {pRule : MsgRouterRule} (hvalue : 0 ∉ pRule.value) :
    (containsTest v pRule = true ↔ Occurs v pRule.location pRule.value) ↔
      Agrees v pRule.location pRule.value := by
  cases hloc : pRule.location with
  | notset =>
    unfold containsTest Occurs Agrees
    rw [hloc]
    simp
  | all =>
    unfold containsTest Occurs Agrees
    rw [hloc]
    simp
  | status =>
    unfold containsTest Occurs Agrees strstr
    rw [hloc, cstr_eq_self hvalue, Option.isSome_iff_exists, exists_firstOcc_iff]
    exact ⟨fun h => h.mpr, fun h => ⟨infix_of_cstr, h⟩⟩
  | header => exact header_agrees_iff hloc hvalue
  | payload =>
    rw [containsTest_payload_iff hloc hvalue]
    unfold Occurs Agrees
    dsimp only
    constructor
    · intro h
      exact ⟨h.mpr, fun htext hstart => h.mp ⟨htext, hstart⟩⟩
    · intro h
      obtain ⟨hfinds, hstays⟩ := h
      exact ⟨fun htest => hstays htest.1 htest.2, hfinds⟩

/-! ### The loops -/

/-- What `TestMatch` returns, if it does. -/
def matchTest (regexMatch : Bytes → Bytes → Option Bool) (v : MsgView) (pRule : MsgRouterRule) :
    Option Bool :=
  match pRule.location with
  | .status => regexMatch (cstr pRule.matchPattern) (cstr v.statusLine)
  | .header => regexMatch (cstr pRule.matchPattern) (cstr (v.content.take v.headerSize))
  | .payload | .notset | .all => some false

/-- The test of the rule leaves the search. -/
def RuleThrows (regexMatch : Bytes → Bytes → Option Bool) (v : MsgView) (pRule : MsgRouterRule) :
    Prop :=
  pRule.operationType = .matching ∧ matchTest regexMatch v pRule = none

instance (regexMatch : Bytes → Bytes → Option Bool) (v : MsgView) (pRule : MsgRouterRule) :
    Decidable (RuleThrows regexMatch v pRule) := inferInstanceAs (Decidable (_ ∧ _))

def ruleTest (regexMatch : Bytes → Bytes → Option Bool) (v : MsgView) (pRule : MsgRouterRule)
    (bTests : Bool) : Bool :=
  match pRule.operationType with
  | .contains => containsTest v pRule
  | .matching => (matchTest regexMatch v pRule).getD false
  | .like => false
  | .notset => bTests

/-- The flag behind the rules of a set, which are looked at up to the first that fails; as long as
none of these throws. -/
def rulesTest (regexMatch : Bytes → Bytes → Option Bool) (v : MsgView) :
    List MsgRouterRule → Bool → Bool
  | [], bTests => bTests
  | pRule :: rest, bTests =>
    if ruleTest regexMatch v pRule bTests then rulesTest regexMatch v rest true else false

/-- One of the rules that are looked at throws. -/
def rulesThrow (regexMatch : Bytes → Bytes → Option Bool) (v : MsgView) :
    List MsgRouterRule → Bool → Bool
  | [], _ => false
  | pRule :: rest, bTests =>
    RuleThrows regexMatch v pRule ||
      (ruleTest regexMatch v pRule bTests && rulesThrow regexMatch v rest true)

/-- One of the sets that are looked at has such a rule. -/
def setsThrow (regexMatch : Bytes → Bytes → Option Bool) (v : MsgView) :
    List MsgRouterRuleSet → Bool
  | [] => false
  | s :: rest =>
    rulesThrow regexMatch v s.ruleSet false ||
      (!rulesTest regexMatch v s.ruleSet false && setsThrow regexMatch v rest)

variable (regexMatch : Bytes → Bytes → Option Bool) {m : Msg} {v : MsgView}

/-- The test goes on where the library does. -/
theorem Parsed.testMatch (h : Parsed m v) (pRule : MsgRouterRule) : ∃ m', Parsed m' v ∧
    MsgCourier.testMatch regexMatch m pRule =
      match matchTest regexMatch v pRule with
      | some b => .ok (b, m')
      | none => .error .charPtr := by
  unfold MsgCourier.testMatch matchTest
  cases hloc : pRule.location with
  | notset => exact ⟨m, h, rfl⟩
  | all => exact ⟨m, h, rfl⟩
  | payload => exact ⟨m, h, rfl⟩
  | status =>
    refine ⟨m, h, ?_⟩
    rw [h.line]
    rfl
  | header =>
    rcases h.buffer.makeString with ⟨-, hnil⟩ | ⟨b', hb', hclosed⟩
    · exact absurd hnil h.ne_nil
    · obtain ⟨junk, hmem⟩ := hclosed.pBuffer_eq
      have hroom : (v.headerSize : ℤ) ≤ (v.content ++ 0 :: junk).length := by
        have hinside := h.inside
        rw [List.length_append]
        omega
      have hfetch : fetch (v.content ++ 0 :: junk) 0 v.headerSize =
          .ok (v.content.take v.headerSize) := by
        unfold fetch
        rw [if_pos ⟨le_refl 0, Int.natCast_nonneg _, by omega⟩, Int.toNat_zero, List.drop_zero,
          Int.toNat_natCast, List.take_append_of_le_length h.inside.le]
      refine ⟨_, h.withBuffer hclosed.keeps, ?_⟩
      unfold Buffer.getBuffer
      dsimp only
      rw [hb', ok_bind, pure_eq_ok, ok_bind, hmem]
      dsimp only [Option.getD_some]
      rw [h.size, hfetch]
      rfl

variable {regexMatch}

theorem Parsed.testRule (h : Parsed m v) {pRule : MsgRouterRule}
    (htaken : ¬ RuleThrows regexMatch v pRule) (bTests : Bool) : ∃ m',
    MsgCourier.testRule regexMatch m pRule bTests =
      .ok (ruleTest regexMatch v pRule bTests, m') ∧ Parsed m' v := by
  unfold RuleThrows at htaken
  unfold MsgCourier.testRule ruleTest
  cases hop : pRule.operationType with
  | contains => exact h.testContains pRule
  | matching =>
    obtain ⟨m', hparsed, hmatch⟩ := h.testMatch regexMatch pRule
    obtain ⟨b, hb⟩ := Option.ne_none_iff_exists'.mp fun hnone => htaken ⟨hop, hnone⟩
    rw [hb] at hmatch ⊢
    exact ⟨m', hmatch, hparsed⟩
  | like => exact ⟨m, rfl, h⟩
  | notset => exact ⟨m, rfl, h⟩

theorem Parsed.testRule_throws (h : Parsed m v) {pRule : MsgRouterRule}
    (hthrows : RuleThrows regexMatch v pRule) (bTests : Bool) :
    MsgCourier.testRule regexMatch m pRule bTests = .error .charPtr := by
  obtain ⟨hop, hnone⟩ := hthrows
  obtain ⟨m', -, hmatch⟩ := h.testMatch regexMatch pRule
  unfold MsgCourier.testRule
  rw [hnone] at hmatch
  rw [hop]
  exact hmatch

/-- The iterator is at the rule that is looked at; the loop only moves it. -/
theorem Parsed.testLoop {n : ℕ} {s : MsgRouterRuleSet} {pRule : MsgRouterRule}
    {rest : List MsgRouterRule} (h : Parsed m v) (hn : rest.length < n)
    (hat : s.ruleSet.drop s.ruleSetIterator = pRule :: rest) {bTests : Bool}
    (htaken : rulesThrow regexMatch v (pRule :: rest) bTests = false) : ∃ m' i,
    MsgCourier.testLoop regexMatch n m s pRule bTests =
      .ok (rulesTest regexMatch v (pRule :: rest) bTests, m', { s with ruleSetIterator := i }) ∧
      Parsed m' v := by
  induction rest generalizing n m s pRule bTests with
  | nil =>
    obtain ⟨n, rfl⟩ := Nat.exists_eq_add_one.mpr (Nat.zero_lt_of_lt hn)
    have htaken' := of_decide_eq_false (Bool.or_eq_false_iff.mp htaken).1
    obtain ⟨m', htest, hparsed⟩ := h.testRule htaken' bTests
    have hnext : s.ruleSet[s.ruleSetIterator+1]? = none := by
      have hlast := congrArg (fun l => (l)[1]?) hat
      simpa using hlast
    unfold MsgCourier.testLoop rulesTest
    rw [htest, ok_bind]
    dsimp only
    cases ruleTest regexMatch v pRule bTests with
    | false => exact ⟨m', s.ruleSetIterator, rfl, hparsed⟩
    | true =>
      refine ⟨m', s.ruleSetIterator+1, ?_, hparsed⟩
      rw [if_pos rfl, if_pos rfl]
      unfold MsgRouterRuleSet.getNextRule
      dsimp only
      rw [hnext]
      rfl
  | cons next rest ih =>
    obtain ⟨n, rfl⟩ := Nat.exists_eq_add_one.mpr (Nat.zero_lt_of_lt hn)
    unfold rulesThrow at htaken
    obtain ⟨hrule, hrest⟩ := Bool.or_eq_false_iff.mp htaken
    obtain ⟨m', htest, hparsed⟩ := h.testRule (of_decide_eq_false hrule) bTests
    have hnext : s.ruleSet[s.ruleSetIterator+1]? = some next := by
      have hsecond := congrArg (fun l => (l)[1]?) hat
      simpa using hsecond
    have hdrop : s.ruleSet.drop (s.ruleSetIterator+1) = next :: rest := by
      rw [← List.drop_drop, hat]
      rfl
    unfold MsgCourier.testLoop rulesTest
    rw [htest, ok_bind]
    dsimp only
    cases hb : ruleTest regexMatch v pRule bTests with
    | false => exact ⟨m', s.ruleSetIterator, rfl, hparsed⟩
    | true =>
      rw [hb, Bool.true_and] at hrest
      rw [if_pos rfl, if_pos rfl]
      unfold MsgRouterRuleSet.getNextRule
      dsimp only
      rw [hnext]
      exact ih (s := { s with ruleSetIterator := s.ruleSetIterator+1 }) hparsed
        (Nat.lt_of_succ_lt_succ hn) hdrop hrest

theorem Parsed.testLoop_throws {n : ℕ} {s : MsgRouterRuleSet} {pRule : MsgRouterRule}
    {rest : List MsgRouterRule} (h : Parsed m v) (hn : rest.length < n)
    (hat : s.ruleSet.drop s.ruleSetIterator = pRule :: rest) {bTests : Bool}
    (hthrows : rulesThrow regexMatch v (pRule :: rest) bTests = true) :
    MsgCourier.testLoop regexMatch n m s pRule bTests = .error .charPtr := by
  induction rest generalizing n m s pRule bTests with
  | nil =>
    obtain ⟨n, rfl⟩ := Nat.exists_eq_add_one.mpr (Nat.zero_lt_of_lt hn)
    have hrule : RuleThrows regexMatch v pRule := by
      simpa [rulesThrow] using hthrows
    unfold MsgCourier.testLoop
    rw [h.testRule_throws hrule, error_bind]
  | cons next rest ih =>
    obtain ⟨n, rfl⟩ := Nat.exists_eq_add_one.mpr (Nat.zero_lt_of_lt hn)
    unfold MsgCourier.testLoop
    by_cases hrule : RuleThrows regexMatch v pRule
    · rw [h.testRule_throws hrule, error_bind]
    · unfold rulesThrow at hthrows
      rw [decide_eq_false hrule, Bool.false_or, Bool.and_eq_true] at hthrows
      obtain ⟨m', htest, hparsed⟩ := h.testRule hrule bTests
      have hnext : s.ruleSet[s.ruleSetIterator+1]? = some next := by
        have hsecond := congrArg (fun l => (l)[1]?) hat
        simpa using hsecond
      have hdrop : s.ruleSet.drop (s.ruleSetIterator+1) = next :: rest := by
        rw [← List.drop_drop, hat]
        rfl
      rw [htest, ok_bind]
      dsimp only
      rw [hthrows.1, if_pos rfl]
      unfold MsgRouterRuleSet.getNextRule
      dsimp only
      rw [hnext]
      exact ih (s := { s with ruleSetIterator := s.ruleSetIterator+1 }) hparsed
        (Nat.lt_of_succ_lt_succ hn) hdrop hthrows.2

theorem getFirstRule_cons {s : MsgRouterRuleSet} {pRule : MsgRouterRule}
    {rules : List MsgRouterRule} (h : s.ruleSet = pRule :: rules) :
    s.getFirstRule = .ok (pRule, { s with ruleSetIterator := 0 }) := by
  unfold MsgRouterRuleSet.getFirstRule
  rw [h]
  rfl

/-- The first set, if there is one, whose rules all pass; no flag is carried from one set to the
next, since the loop is left with a flag that is set. -/
theorem Parsed.searchLoop {sets : List MsgRouterRuleSet} (h : Parsed m v)
    (hne : ∀ s ∈ sets, s.ruleSet ≠ []) (htaken : setsThrow regexMatch v sets = false) :
    ∃ m' sets', MsgCourier.searchLoop regexMatch sets m false =
      .ok ((sets.find? fun s => rulesTest regexMatch v s.ruleSet false).map
        fun s => cstr s.routeTo, m', sets') ∧ Parsed m' v := by
  induction sets generalizing m with
  | nil => exact ⟨m, [], rfl, h⟩
  | cons s rest ih =>
    obtain ⟨pRule, rules, hrules⟩ := List.exists_cons_of_ne_nil (hne s List.mem_cons_self)
    have hshort : rules.length < s.ruleSet.length := by
      rw [hrules]
      exact Nat.lt_succ_self _
    obtain ⟨hset, hrest⟩ := Bool.or_eq_false_iff.mp htaken
    rw [hrules] at hset
    obtain ⟨m', i, hloop, hparsed⟩ := h.testLoop
      (s := { s with ruleSetIterator := 0 }) hshort hrules hset
    unfold MsgCourier.searchLoop
    rw [getFirstRule_cons hrules, ok_bind]
    dsimp only
    rw [hloop, ok_bind, ← hrules]
    dsimp only
    cases htest : rulesTest regexMatch v s.ruleSet false with
    | true =>
      have hfind : (s :: rest).find? (fun s => rulesTest regexMatch v s.ruleSet false) = some s :=
        List.find?_cons_of_pos htest
      rw [hfind]
      exact ⟨m', _, rfl, hparsed⟩
    | false =>
      rw [htest, Bool.not_false, Bool.true_and] at hrest
      obtain ⟨m'', sets', hloop', hparsed'⟩ :=
        ih hparsed (fun t ht => hne t (List.mem_cons_of_mem _ ht)) hrest
      have hfind : (s :: rest).find? (fun s => rulesTest regexMatch v s.ruleSet false) =
          rest.find? fun s => rulesTest regexMatch v s.ruleSet false :=
        List.find?_cons_of_neg (Bool.eq_false_iff.mp htest)
      rw [hfind, if_neg Bool.false_ne_true, hloop']
      exact ⟨m'', _, rfl, hparsed'⟩

theorem Parsed.searchLoop_throws {sets : List MsgRouterRuleSet} (h : Parsed m v)
    (hne : ∀ s ∈ sets, s.ruleSet ≠ []) (hthrows : setsThrow regexMatch v sets = true) :
    MsgCourier.searchLoop regexMatch sets m false = .error .charPtr := by
  induction sets generalizing m with
  | nil => cases hthrows
  | cons s rest ih =>
    obtain ⟨pRule, rules, hrules⟩ := List.exists_cons_of_ne_nil (hne s List.mem_cons_self)
    have hshort : rules.length < s.ruleSet.length := by
      rw [hrules]
      exact Nat.lt_succ_self _
    unfold MsgCourier.searchLoop
    rw [getFirstRule_cons hrules, ok_bind]
    dsimp only
    cases hset : rulesThrow regexMatch v s.ruleSet false with
    | true =>
      rw [hrules] at hset
      rw [h.testLoop_throws (s := { s with ruleSetIterator := 0 }) hshort hrules hset, error_bind]
    | false =>
      unfold setsThrow at hthrows
      rw [hset, Bool.false_or, Bool.and_eq_true, Bool.not_eq_true'] at hthrows
      rw [hrules] at hset
      obtain ⟨m', i, hloop, hparsed⟩ := h.testLoop
        (s := { s with ruleSetIterator := 0 }) hshort hrules hset
      rw [hloop, ok_bind, ← hrules]
      dsimp only
      rw [hthrows.1, if_neg Bool.false_ne_true,
        ih hparsed (fun t ht => hne t (List.mem_cons_of_mem _ ht)) hthrows.2, error_bind]

variable (regexMatch)

/-! ### What the search is for -/

/-- A rule holds: a `contains` rule where its value occurs, a `match` rule where the pattern matches
the text of its place. A `like` rule never does. -/
def RuleHolds (v : MsgView) (pRule : MsgRouterRule) : Prop :=
  match pRule.operationType with
  | .contains => Occurs v pRule.location pRule.value
  | .matching => matchTest regexMatch v pRule = some true
  | .like => False
  | .notset => True

/-- All rules of a set hold. A rule without an operation tests nothing, and a set that begins with
one is never met. -/
def Met (v : MsgView) (s : MsgRouterRuleSet) : Prop :=
  (∃ pRule rest, s.ruleSet = pRule :: rest ∧ pRule.operationType ≠ .notset) ∧
    ∀ pRule ∈ s.ruleSet, RuleHolds regexMatch v pRule

/-- The route of the first of the sets that is met. -/
inductive FirstMet (v : MsgView) (sets : List MsgRouterRuleSet) : Option Bytes → Prop
  | found {front rest : List MsgRouterRuleSet} {s : MsgRouterRuleSet} :
      sets = front ++ s :: rest → (∀ t ∈ front, ¬ Met regexMatch v t) → Met regexMatch v s →
      FirstMet v sets (some s.routeTo)
  | none : (∀ s ∈ sets, ¬ Met regexMatch v s) → FirstMet v sets none

/-- The search comes to a rule: no set before its own is met, and the rules before it are none, or
would be met as a set. -/
def Reaches (v : MsgView) (sets : List MsgRouterRuleSet) (pRule : MsgRouterRule) : Prop :=
  ∃ front s rest before after, sets = front ++ s :: rest ∧ (∀ t ∈ front, ¬ Met regexMatch v t) ∧
    s.ruleSet = before ++ pRule :: after ∧
      (before = [] ∨ Met regexMatch v { s with ruleSet := before })

/-- The library takes the patterns of all rules that the search comes to. -/
def PatternsTaken (v : MsgView) (sets : List MsgRouterRuleSet) : Prop :=
  ∀ pRule, Reaches regexMatch v sets pRule → ¬ RuleThrows regexMatch v pRule

/-- For the rules of some calls, the tests say exactly where their values occur, and the search
finds the first set that is met and leaves `Match` as it was when there is none. -/
structure SearchesExactly (calls : List RuleCall) (m : Msg) (v : MsgView) : Prop where
  contains : ∀ call ∈ calls, call.rule.operationType = .contains → ∃ b m',
    MsgCourier.testContains m call.rule = .ok (b, m') ∧
      (b = true ↔ Occurs v call.rule.location call.rule.value)
  search : ∀ sMatch, ∃ found m' x,
    (MsgRouterRulesEngine.addRules calls).search regexMatch m sMatch =
      .ok (found.isSome, found.getD sMatch, m', x) ∧
      FirstMet regexMatch v (ruleSetsOf calls) found

/-- The arguments are texts of the configuration, which have no NUL. -/
def RuleCall.CStrings (call : RuleCall) : Prop := 0 ∉ call.routeTo ∧ 0 ∉ call.rule.value

variable {regexMatch} {calls : List RuleCall}

/-- Behind a rule that passed, a rule without an operation passes too. -/
theorem rulesTest_true_iff (rules : List MsgRouterRule) : rulesTest regexMatch v rules true = true ↔
    ∀ pRule ∈ rules, ruleTest regexMatch v pRule true = true := by
  induction rules with
  | nil => exact ⟨fun _ _ h => absurd h List.not_mem_nil, fun _ => rfl⟩
  | cons pRule rest ih =>
    unfold rulesTest
    rw [List.forall_mem_cons, ← ih]
    cases ruleTest regexMatch v pRule true with
    | true => simp
    | false => simp

theorem ruleTest_of_set {pRule : MsgRouterRule} (hop : pRule.operationType ≠ .notset) (b : Bool) :
    ruleTest regexMatch v pRule b = ruleTest regexMatch v pRule true := by
  unfold ruleTest
  cases h : pRule.operationType with
  | contains => rfl
  | matching => rfl
  | like => rfl
  | notset => exact absurd h hop

/-- The flag is set behind a set that begins with a rule with an operation and whose rules pass. -/
theorem rulesTest_false_iff (rules : List MsgRouterRule) :
    rulesTest regexMatch v rules false = true ↔
      (∃ pRule rest, rules = pRule :: rest ∧ pRule.operationType ≠ .notset) ∧
        ∀ pRule ∈ rules, ruleTest regexMatch v pRule true = true := by
  cases rules with
  | nil =>
    constructor
    · intro h
      cases h
    · intro h
      obtain ⟨⟨pRule, rest, hnil, -⟩, -⟩ := h
      cases hnil
  | cons pRule rest =>
    unfold rulesTest
    by_cases hop : pRule.operationType = .notset
    · have hfails : ruleTest regexMatch v pRule false = false := by
        unfold ruleTest
        rw [hop]
      rw [hfails]
      constructor
      · intro h
        cases h
      · intro h
        obtain ⟨⟨pRule', rest', hcons, hne⟩, -⟩ := h
        obtain ⟨rfl, -⟩ := List.cons.inj hcons
        exact absurd hop hne
    · rw [ruleTest_of_set hop, List.forall_mem_cons, ← rulesTest_true_iff]
      cases ruleTest regexMatch v pRule true with
      | true => simp [hop]
      | false => simp

/-- Where the tests are right, the flag says whether the set is met. -/
theorem met_iff {s : MsgRouterRuleSet} (h : ∀ pRule ∈ s.ruleSet, pRule.operationType = .contains →
    (containsTest v pRule = true ↔ Occurs v pRule.location pRule.value)) :
    rulesTest regexMatch v s.ruleSet false = true ↔ Met regexMatch v s := by
  rw [rulesTest_false_iff]
  unfold Met
  apply and_congr_right'
  apply forall₂_congr
  intro pRule hmem
  unfold ruleTest RuleHolds
  cases hop : pRule.operationType with
  | contains => exact h pRule hmem hop
  | matching =>
    dsimp only
    cases matchTest regexMatch v pRule <;> simp
  | like => simp
  | notset => simp

/-- The rule that throws, and those in front of it. -/
theorem rulesThrow_iff (rules : List MsgRouterRule) (bTests : Bool) :
    rulesThrow regexMatch v rules bTests = true ↔ ∃ before pRule after,
      rules = before ++ pRule :: after ∧ RuleThrows regexMatch v pRule ∧
        (before = [] ∨ rulesTest regexMatch v before bTests = true) := by
  induction rules generalizing bTests with
  | nil =>
    refine iff_of_false Bool.false_ne_true fun h => ?_
    obtain ⟨before, pRule, after, hnil, -⟩ := h
    cases before <;> cases hnil
  | cons rule rest ih =>
    unfold rulesThrow
    rw [Bool.or_eq_true, decide_eq_true_iff, Bool.and_eq_true, ih]
    constructor
    · intro h
      rcases h with hthrows | ⟨htest, before, pRule, after, rfl, hthrows, hbefore⟩
      · exact ⟨[], rule, rest, rfl, hthrows, .inl rfl⟩
      · refine ⟨rule :: before, pRule, after, rfl, hthrows, .inr ?_⟩
        unfold rulesTest
        rw [htest, if_pos rfl]
        rcases hbefore with rfl | hbefore
        · rfl
        · exact hbefore
    · intro h
      obtain ⟨before, pRule, after, hsplit, hthrows, hbefore⟩ := h
      cases before with
      | nil =>
        obtain ⟨rfl, -⟩ := List.cons.inj hsplit
        exact .inl hthrows
      | cons first before =>
        obtain ⟨rfl, hrest⟩ := List.cons.inj hsplit
        have hpass := hbefore.resolve_left (List.cons_ne_nil _ _)
        unfold rulesTest at hpass
        split_ifs at hpass with htest
        exact .inr ⟨htest, before, pRule, after, hrest, hthrows, .inr hpass⟩

theorem setsThrow_iff (sets : List MsgRouterRuleSet) :
    setsThrow regexMatch v sets = true ↔ ∃ front s rest, sets = front ++ s :: rest ∧
      (∀ t ∈ front, rulesTest regexMatch v t.ruleSet false = false) ∧
        rulesThrow regexMatch v s.ruleSet false = true := by
  induction sets with
  | nil =>
    refine iff_of_false Bool.false_ne_true fun h => ?_
    obtain ⟨front, s, rest, hnil, -⟩ := h
    cases front <;> cases hnil
  | cons set sets ih =>
    unfold setsThrow
    rw [Bool.or_eq_true, Bool.and_eq_true, Bool.not_eq_true', ih]
    constructor
    · intro h
      rcases h with hthrows | ⟨htest, front, s, rest, rfl, hfront, hthrows⟩
      · exact ⟨[], set, sets, rfl, fun t ht => absurd ht List.not_mem_nil, hthrows⟩
      · exact ⟨set :: front, s, rest, rfl, List.forall_mem_cons.mpr ⟨htest, hfront⟩, hthrows⟩
    · intro h
      obtain ⟨front, s, rest, hsplit, hfront, hthrows⟩ := h
      cases front with
      | nil =>
        obtain ⟨rfl, -⟩ := List.cons.inj hsplit
        exact .inl hthrows
      | cons first front =>
        obtain ⟨rfl, hrest⟩ := List.cons.inj hsplit
        obtain ⟨hfirst, hfront'⟩ := List.forall_mem_cons.mp hfront
        exact .inr ⟨hfirst, front, s, rest, hrest, hfront', hthrows⟩

/-- Where the tests are right, the flags say which rules the search comes to. -/
theorem patternsTaken_iff {sets : List MsgRouterRuleSet} (h : ∀ s ∈ sets, ∀ pRule ∈ s.ruleSet,
    pRule.operationType = .contains →
      (containsTest v pRule = true ↔ Occurs v pRule.location pRule.value)) :
    setsThrow regexMatch v sets = false ↔ PatternsTaken regexMatch v sets := by
  rw [← Bool.not_eq_true, setsThrow_iff]
  constructor
  · intro hnone pRule hreaches hthrows
    obtain ⟨front, s, rest, before, after, hsplit, hfront, hrules, hbefore⟩ := hreaches
    have hs : s ∈ sets := hsplit ▸ List.mem_append_right _ List.mem_cons_self
    refine hnone ⟨front, s, rest, hsplit, ?_, ?_⟩
    · intro t ht
      have hin : t ∈ sets := hsplit ▸ List.mem_append_left _ ht
      exact Bool.eq_false_iff.mpr fun htest => hfront t ht ((met_iff (h t hin)).mp htest)
    · refine (rulesThrow_iff _ _).mpr ⟨before, pRule, after, hrules, hthrows, ?_⟩
      refine hbefore.imp_right fun hmet => (met_iff ?_).mpr hmet
      exact fun rule hrule => h s hs rule (hrules ▸ List.mem_append_left _ hrule)
  · intro htaken hthrows
    obtain ⟨front, s, rest, hsplit, hfront, hthrows⟩ := hthrows
    obtain ⟨before, pRule, after, hrules, hrule, hbefore⟩ := (rulesThrow_iff _ _).mp hthrows
    have hs : s ∈ sets := hsplit ▸ List.mem_append_right _ List.mem_cons_self
    refine htaken pRule ⟨front, s, rest, before, after, hsplit, ?_, hrules, ?_⟩ hrule
    · intro t ht hmet
      have hin : t ∈ sets := hsplit ▸ List.mem_append_left _ ht
      have hfails := hfront t ht
      rw [(met_iff (h t hin)).mpr hmet] at hfails
      cases hfails
    · refine hbefore.imp_right fun htest => (met_iff ?_).mp htest
      exact fun rule hrule => h s hs rule (hrules ▸ List.mem_append_left _ hrule)

theorem firstMet_of_find {sets : List MsgRouterRuleSet} (hroutes : ∀ s ∈ sets, 0 ∉ s.routeTo)
    (h : ∀ s ∈ sets, rulesTest regexMatch v s.ruleSet false = true ↔ Met regexMatch v s) :
    FirstMet regexMatch v sets ((sets.find? fun s => rulesTest regexMatch v s.ruleSet false).map
      fun s => cstr s.routeTo) := by
  cases hfind : sets.find? fun s => rulesTest regexMatch v s.ruleSet false with
  | none =>
    refine .none ?_
    intro s hs hmet
    exact List.find?_eq_none.mp hfind s hs ((h s hs).mpr hmet)
  | some s =>
    obtain ⟨htest, front, rest, hsplit, hfront⟩ := List.find?_eq_some_iff_append.mp hfind
    have hmem : s ∈ sets := List.mem_of_find?_eq_some hfind
    rw [Option.map_some, cstr_eq_self (hroutes s hmem)]
    refine .found hsplit ?_ ((h s hmem).mp htest)
    intro t ht hmet
    have hin : t ∈ sets := hsplit ▸ List.mem_append_left _ ht
    have hfails := hfront t ht
    rw [(h t hin).mpr hmet] at hfails
    cases hfails

/-- The rules of the sets are those of the calls. -/
theorem mem_ruleSetsOf {s : MsgRouterRuleSet} (hs : s ∈ ruleSetsOf calls) :
    s.ruleSet ≠ [] ∧ (∃ call ∈ calls, call.routeTo = s.routeTo) ∧
      ∀ pRule ∈ s.ruleSet, ∃ call ∈ calls, call.rule = pRule := by
  obtain ⟨name, hname, rfl⟩ := List.mem_map.mp hs
  obtain ⟨call, hcall, hof⟩ := mem_setNames.mp hname
  have hkept : call ∈ calls.filter (·.ruleSetName = name) :=
    List.mem_filter.mpr ⟨hcall, decide_eq_true hof⟩
  refine ⟨?_, ?_, ?_⟩
  · intro hnil
    rw [setOf, List.map_eq_nil_iff] at hnil
    rw [hnil] at hkept
    exact absurd hkept List.not_mem_nil
  · have hsome : (calls.find? (·.ruleSetName = name)).isSome :=
      List.find?_isSome.mpr ⟨call, hcall, decide_eq_true hof⟩
    obtain ⟨first, hfirst⟩ := Option.isSome_iff_exists.mp hsome
    refine ⟨first, List.mem_of_find?_eq_some hfirst, ?_⟩
    unfold setOf
    rw [hfirst]
    rfl
  · intro pRule hrule
    obtain ⟨call', hcall', rfl⟩ := List.mem_map.mp hrule
    exact ⟨call', List.mem_of_mem_filter hcall', rfl⟩

/-- A request as it came in, behind `Parse`. -/
def request : Msg :=
  { msgBuffer := Buffer.terminated (bytes "GET /a HTTP/1.0\r\nHost: b\r\n\r\ncd")
    msgStatusLine := bytes "GET /a HTTP/1.0"
    msgHeaderSize := 24 }

def requestView : MsgView :=
  ⟨bytes "GET /a HTTP/1.0", bytes "GET /a HTTP/1.0\r\nHost: b\r\n\r\ncd", 24⟩

theorem request_parsed : Parsed request requestView where
  line := rfl
  buffer := Buffer.keeps_terminated (by decide)
  size := rfl
  inside := by decide

def headerCall (value : Bytes) : RuleCall :=
  ⟨bytes "HTTP_GET", bytes "MCWS", ⟨.header, .contains, [], value⟩⟩

theorem headerCall_cstrings {value : Bytes} (h : 0 ∉ value) :
    ∀ call ∈ [headerCall value], call.CStrings := by
  intro call hcall
  obtain rfl := List.mem_singleton.mp hcall
  have hroute : 0 ∉ bytes "MCWS" := by decide
  exact ⟨hroute, h⟩

/-- A library that takes texts without parentheses, which match themselves. -/
def plainMatch (pattern text : Bytes) : Option Bool :=
  if 40 ∈ pattern ∨ 41 ∈ pattern then none else some (pattern = text)

def statusCall (pattern : Bytes) : RuleCall :=
  ⟨pattern, bytes "W", ⟨.status, .matching, pattern, []⟩⟩

end MsgCourier
