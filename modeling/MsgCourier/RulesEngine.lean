import MsgCourier.Msg
import MsgCourier.BufferEdit

/-! `cMsgRouterRulesEngine`: rule sets in the order in which their names first came, and the search
for the first set that a message meets. -/
namespace MsgCourier
open ListSearch CText

inductive MsgRouterOperationType
  | notset
  | contains
  | matching
  | like
  deriving DecidableEq, Repr

inductive MsgRouterLocationType
  | notset
  | header
  | payload
  | status
  | all
  deriving DecidableEq, Repr

structure MsgRouterRule where
  location : MsgRouterLocationType
  operationType : MsgRouterOperationType
  matchPattern : Bytes
  value : Bytes
  deriving DecidableEq, Repr

/-- The iterator is kept as the number of the rule that it is at. -/
structure MsgRouterRuleSet where
  ruleSetName : Bytes
  routeTo : Bytes
  ruleSet : List MsgRouterRule := []
  ruleSetIterator : ℕ := 0
  deriving DecidableEq, Repr

namespace MsgRouterRuleSet

def addRule (s : MsgRouterRuleSet) (rule : MsgRouterRule) : MsgRouterRuleSet :=
  { s with ruleSet := s.ruleSet ++ [rule] }

def getFirstRule (s : MsgRouterRuleSet) : Cxx (MsgRouterRule × MsgRouterRuleSet) :=
  match s.ruleSet with
  | [] => .error .undefined
  | pRule :: _ => pure (pRule, { s with ruleSetIterator := 0 })

def getNextRule (s : MsgRouterRuleSet) : Option MsgRouterRule × MsgRouterRuleSet :=
  let s := { s with ruleSetIterator := s.ruleSetIterator+1 }
  (s.ruleSet[s.ruleSetIterator]?, s)

end MsgRouterRuleSet

/-- The map has the number of the rule set that a name points to. -/
structure MsgRouterRulesEngine where
  ruleSets : List MsgRouterRuleSet := []
  rulesMap : Bytes → Option ℕ := fun _ => none

/-- The arguments of a call of `AddRule`. -/
structure RuleCall where
  ruleSetName : Bytes
  routeTo : Bytes
  rule : MsgRouterRule
  deriving DecidableEq, Repr

/-- The tests read the status line of a message, its buffer and the size of its header. -/
def testContains (pMsg : Msg) (pRule : MsgRouterRule) : Cxx (Bool × Msg) :=
  match pRule.location with
  | .status => pure ((strstr pMsg.msgStatusLine (cstr pRule.value)).isSome, pMsg)
  | .header => do
    let (idx, msgBuffer) ← pMsg.msgBuffer.find (cstr pRule.value) 0
    pure (0 < idx && idx < pMsg.msgHeaderSize, { pMsg with msgBuffer })
  | .payload => do
    let (idx, msgBuffer) ← pMsg.msgBuffer.find (cstr pRule.value) pMsg.msgHeaderSize
    pure (0 < idx, { pMsg with msgBuffer })
  | .notset | .all => pure (false, pMsg)

/-- `regexMatch` says whether a text matches a pattern as a whole. It is `none` where the library
throws, as for a pattern that is no regular expression: the exception is caught, but `LOGALL` throws
its text on, which nothing in the engine catches. -/
def testMatch (regexMatch : Bytes → Bytes → Option Bool) (pMsg : Msg) (pRule : MsgRouterRule) :
    Cxx (Bool × Msg) :=
  match pRule.location with
  | .status =>
    match regexMatch (cstr pRule.matchPattern) (cstr pMsg.msgStatusLine) with
    | some b => pure (b, pMsg)
    | none => .error .charPtr
  | .header => do
    let (pBuffer, msgBuffer) ← pMsg.msgBuffer.getBuffer
    let header ← fetch (pBuffer.getD []) 0 pMsg.msgHeaderSize
    match regexMatch (cstr pRule.matchPattern) (cstr header) with
    | some b => pure (b, { pMsg with msgBuffer })
    | none => .error .charPtr
  | .payload | .notset | .all => pure (false, pMsg)

/-- Not implemented in the source. -/
def testLike (pMsg : Msg) (_ : MsgRouterRule) : Cxx (Bool × Msg) := pure (false, pMsg)

/-- An operation that is not set leaves `bTests` as it was. -/
def testRule (regexMatch : Bytes → Bytes → Option Bool) (pMsg : Msg) (pRule : MsgRouterRule)
    (bTests : Bool) : Cxx (Bool × Msg) :=
  match pRule.operationType with
  | .contains => testContains pMsg pRule
  | .matching => testMatch regexMatch pMsg pRule
  | .like => testLike pMsg pRule
  | .notset => pure (bTests, pMsg)

/-- The inner loop, with a round for each rule of the set at most. -/
def testLoop (regexMatch : Bytes → Bytes → Option Bool) :
    ℕ → Msg → MsgRouterRuleSet → MsgRouterRule → Bool → Cxx (Bool × Msg × MsgRouterRuleSet)
  | 0, _, _, _, _ => .error .undefined
  | n+1, pMsg, pRuleSet, pRule, bTests => do
    let (bTests, pMsg) ← testRule regexMatch pMsg pRule bTests
    if bTests then
      match pRuleSet.getNextRule with
      | (some pRule, pRuleSet) => testLoop regexMatch n pMsg pRuleSet pRule bTests
      | (none, pRuleSet) => pure (bTests, pMsg, pRuleSet)
    else pure (bTests, pMsg, pRuleSet)

/-- The outer loop: the route of the set that was met, the message and the sets. -/
def searchLoop (regexMatch : Bytes → Bytes → Option Bool) :
    List MsgRouterRuleSet → Msg → Bool → Cxx (Option Bytes × Msg × List MsgRouterRuleSet)
  | [], pMsg, _ => pure (none, pMsg, [])
  | pRuleSet :: rest, pMsg, bTests => do
    let (pRule, pRuleSet) ← pRuleSet.getFirstRule
    let (bTests, pMsg, pRuleSet) ←
      testLoop regexMatch pRuleSet.ruleSet.length pMsg pRuleSet pRule bTests
    if bTests then pure (some (cstr pRuleSet.routeTo), pMsg, pRuleSet :: rest)
    else
      let (found, pMsg, rest) ← searchLoop regexMatch rest pMsg bTests
      pure (found, pMsg, pRuleSet :: rest)

namespace MsgRouterRulesEngine

def addRule (x : MsgRouterRulesEngine) (call : RuleCall) : MsgRouterRulesEngine :=
  match x.rulesMap call.ruleSetName with
  | some i => { x with ruleSets := x.ruleSets.modify i (·.addRule call.rule) }
  | none =>
    let pRuleSet : MsgRouterRuleSet := ⟨call.ruleSetName, call.routeTo, [], 0⟩
    { ruleSets := x.ruleSets ++ [pRuleSet.addRule call.rule]
      rulesMap := Function.update x.rulesMap call.ruleSetName (some x.ruleSets.length) }

def addRules (calls : List RuleCall) : MsgRouterRulesEngine := calls.foldl addRule {}

/-- Whether a set was met, what `Match` is then, and the message and the engine. -/
def search (x : MsgRouterRulesEngine) (regexMatch : Bytes → Bytes → Option Bool) (pMsg : Msg)
    (sMatch : Bytes) : Cxx (Bool × Bytes × Msg × MsgRouterRulesEngine) := do
  let (found, pMsg, ruleSets) ← searchLoop regexMatch x.ruleSets pMsg false
  pure (found.isSome, found.getD sMatch, pMsg, { x with ruleSets })

end MsgRouterRulesEngine

/-! ### The rule sets -/

/-- The set of a name: the route of its first call, and the rules of all its calls. -/
def setOf (calls : List RuleCall) (name : Bytes) : MsgRouterRuleSet where
  ruleSetName := name
  routeTo := ((calls.find? (·.ruleSetName = name)).map RuleCall.routeTo).getD []
  ruleSet := (calls.filter (·.ruleSetName = name)).map RuleCall.rule

/-- The names in the order in which they first came. -/
def setNames (calls : List RuleCall) : List Bytes := (calls.map RuleCall.ruleSetName).eraseDups

def ruleSetsOf (calls : List RuleCall) : List MsgRouterRuleSet :=
  (setNames calls).map (setOf calls)

variable {calls : List RuleCall} {call : RuleCall} {name : Bytes}

theorem mem_setNames : name ∈ setNames calls ↔ ∃ call ∈ calls, call.ruleSetName = name := by
  rw [setNames, List.mem_eraseDups, List.mem_map]

theorem nodup_eraseDups {α : Type} [BEq α] [LawfulBEq α] (l : List α) : l.eraseDups.Nodup := by
  induction hl : l.length using Nat.strong_induction_on generalizing l with
  | _ n ih =>
    cases l with
    | nil =>
      rw [List.eraseDups_nil]
      exact List.nodup_nil
    | cons a l =>
      rw [List.eraseDups_cons, List.nodup_cons, List.mem_eraseDups]
      have hshort := List.length_filter_le (fun b => !b == a) l
      rw [List.length_cons] at hl
      refine ⟨?_, ih _ (by omega) _ rfl⟩
      intro hmem
      have hne := (List.mem_filter.mp hmem).2
      rw [beq_self_eq_true] at hne
      cases hne

theorem setNames_nodup (calls : List RuleCall) : (setNames calls).Nodup := nodup_eraseDups _

/-- A call for a name that came before adds no name. -/
theorem setNames_old (h : call.ruleSetName ∈ setNames calls) :
    setNames (calls ++ [call]) = setNames calls := by
  rw [setNames, List.mem_eraseDups] at h
  have hnone : [call.ruleSetName].removeAll (calls.map RuleCall.ruleSetName) = [] := by
    unfold List.removeAll
    rw [List.filter_cons_of_neg, List.filter_nil]
    simpa using h
  rw [setNames, List.map_append, List.map_singleton, List.eraseDups_append, hnone,
    List.eraseDups_nil, List.append_nil]
  rfl

theorem setNames_new (h : call.ruleSetName ∉ setNames calls) :
    setNames (calls ++ [call]) = setNames calls ++ [call.ruleSetName] := by
  rw [setNames, List.mem_eraseDups] at h
  have hone : [call.ruleSetName].removeAll (calls.map RuleCall.ruleSetName) =
      [call.ruleSetName] := by
    unfold List.removeAll
    rw [List.filter_cons_of_pos, List.filter_nil]
    simpa using h
  rw [setNames, List.map_append, List.map_singleton, List.eraseDups_append, hone,
    List.eraseDups_cons, List.filter_nil, List.eraseDups_nil]
  rfl

/-- A call concerns the set of its own name alone. -/
theorem setOf_other (h : call.ruleSetName ≠ name) :
    setOf (calls ++ [call]) name = setOf calls name := by
  unfold setOf
  rw [List.find?_append, List.filter_append, List.filter_cons_of_neg, List.filter_nil,
    List.append_nil, List.find?_cons_of_neg, List.find?_nil, Option.or_none]
  · simpa using h
  · simpa using h

theorem setOf_old (h : call.ruleSetName ∈ setNames calls) :
    setOf (calls ++ [call]) call.ruleSetName =
      (setOf calls call.ruleSetName).addRule call.rule := by
  obtain ⟨first, hfirst, hname⟩ := mem_setNames.mp h
  have hsome : (calls.find? (·.ruleSetName = call.ruleSetName)).isSome :=
    List.find?_isSome.mpr ⟨first, hfirst, by simpa using hname⟩
  unfold setOf MsgRouterRuleSet.addRule
  rw [List.find?_append, Option.or_of_isSome hsome, List.filter_append, List.map_append,
    List.filter_cons_of_pos, List.filter_nil]
  · rfl
  · simp

theorem setOf_new (h : call.ruleSetName ∉ setNames calls) :
    setOf (calls ++ [call]) call.ruleSetName =
      ⟨call.ruleSetName, call.routeTo, [call.rule], 0⟩ := by
  have hnone : ∀ c ∈ calls, c.ruleSetName ≠ call.ruleSetName := by
    intro c hc heq
    exact h (mem_setNames.mpr ⟨c, hc, heq⟩)
  have hfind : calls.find? (·.ruleSetName = call.ruleSetName) = none := by
    rw [List.find?_eq_none]
    simpa using hnone
  have hfilter : calls.filter (·.ruleSetName = call.ruleSetName) = [] := by
    rw [List.filter_eq_nil_iff]
    simpa using hnone
  unfold setOf
  rw [List.find?_append, hfind, List.filter_append, hfilter, List.filter_cons_of_pos,
    List.find?_cons_of_pos]
  · rfl
  · simp
  · simp

namespace MsgRouterRulesEngine

/-- The sets are those of the calls, and the map leads to the set of a name. -/
structure Has (x : MsgRouterRulesEngine) (calls : List RuleCall) : Prop where
  sets : x.ruleSets = ruleSetsOf calls
  points : ∀ name i, x.rulesMap name = some i → (setNames calls)[i]? = some name
  all : ∀ name ∈ setNames calls, (x.rulesMap name).isSome

variable {x : MsgRouterRulesEngine}

theorem Has.addRule_old (h : x.Has calls) {i : ℕ} (hi : x.rulesMap call.ruleSetName = some i) :
    (x.addRule call).Has (calls ++ [call]) := by
  have hplace := h.points _ i hi
  have hmem : call.ruleSetName ∈ setNames calls := List.mem_of_getElem? hplace
  unfold addRule
  rw [hi]
  refine ⟨?_, ?_, ?_⟩
  · dsimp only
    rw [h.sets, ruleSetsOf, ruleSetsOf, setNames_old hmem]
    apply List.ext_getElem?
    intro j
    rw [List.getElem?_modify, List.getElem?_map, List.getElem?_map]
    cases hj : (setNames calls)[j]? with
    | none => rfl
    | some name =>
      by_cases heq : i = j
      · have hname : name = call.ruleSetName :=
          Option.some.inj (hj.symm.trans (heq ▸ hplace))
        simp only [if_pos heq, hname, Option.map_some, Option.map_eq_map, setOf_old hmem]
      · have hname : call.ruleSetName ≠ name := by
          intro hsame
          have hlt := (List.getElem?_eq_some_iff.mp hplace).1
          rw [← hsame, ← hplace] at hj
          exact heq ((List.getElem?_inj hlt (setNames_nodup calls)).mp hj.symm)
        simp only [if_neg heq, Option.map_some, Option.map_eq_map, setOf_other hname]
  · rw [setNames_old hmem]
    exact h.points
  · rw [setNames_old hmem]
    exact h.all

theorem Has.addRule_new (h : x.Has calls) (hnone : x.rulesMap call.ruleSetName = none) :
    (x.addRule call).Has (calls ++ [call]) := by
  have hnot : call.ruleSetName ∉ setNames calls := by
    intro hmem
    have hsome := h.all _ hmem
    rw [hnone] at hsome
    cases hsome
  have hlength : x.ruleSets.length = (setNames calls).length := by
    rw [h.sets, ruleSetsOf, List.length_map]
  unfold addRule
  rw [hnone]
  refine ⟨?_, ?_, ?_⟩
  · have hsame : (setNames calls).map (setOf (calls ++ [call])) = ruleSetsOf calls := by
      apply List.map_congr_left
      intro name hname
      apply setOf_other
      intro heq
      exact hnot (heq ▸ hname)
    dsimp only
    rw [ruleSetsOf, setNames_new hnot, List.map_append, hsame, h.sets, List.map_singleton,
      setOf_new hnot]
    rfl
  · intro name i hi
    dsimp only at hi
    rw [setNames_new hnot]
    by_cases heq : name = call.ruleSetName
    · rw [heq, Function.update_self] at hi
      obtain rfl := Option.some.inj hi
      rw [hlength, List.getElem?_concat_length, heq]
    · rw [Function.update_of_ne heq] at hi
      have hplace := h.points name i hi
      rw [List.getElem?_append_left (List.getElem?_eq_some_iff.mp hplace).1]
      exact hplace
  · intro name hname
    rw [setNames_new hnot] at hname
    dsimp only
    by_cases heq : name = call.ruleSetName
    · rw [heq, Function.update_self]
      rfl
    · rw [Function.update_of_ne heq]
      rcases List.mem_append.mp hname with hold | hnew
      · exact h.all name hold
      · exact absurd (List.mem_singleton.mp hnew) heq

theorem Has.addRule (h : x.Has calls) (call : RuleCall) :
    (x.addRule call).Has (calls ++ [call]) := by
  cases hmap : x.rulesMap call.ruleSetName with
  | some i => exact h.addRule_old hmap
  | none => exact h.addRule_new hmap

theorem addRules_has (calls : List RuleCall) : (addRules calls).Has calls := by
  induction calls using List.reverseRecOn with
  | nil =>
    refine ⟨rfl, ?_, ?_⟩
    · intro name i hi
      cases hi
    · intro name hname
      exact absurd hname List.not_mem_nil
  | append_singleton calls call ih =>
    unfold addRules
    rw [List.foldl_append]
    exact ih.addRule call

end MsgRouterRulesEngine
end MsgCourier
