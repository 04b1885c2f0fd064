import MsgCourier.RouteConfig
import MsgCourier.RuleSearch
import MsgCourier.XmlDocument

/-! From the text of a configuration to the handler that a message is routed to. -/
namespace MsgCourier
open ListSearch CText

/-! ### Rule sets of routes with names of their own -/

theorem ruleSetsOf_new {calls : List RuleCall} {call : RuleCall}
    (h : call.ruleSetName ∉ setNames calls) :
    ruleSetsOf (calls ++ [call]) =
      ruleSetsOf calls ++ [⟨call.ruleSetName, call.routeTo, [call.rule], 0⟩] := by
  have hothers : (setNames calls).map (setOf (calls ++ [call])) = ruleSetsOf calls := by
    apply List.map_congr_left
    intro name hname
    apply setOf_other
    intro heq
    exact h (heq ▸ hname)
  rw [ruleSetsOf, setNames_new h, List.map_append, hothers, List.map_singleton, setOf_new h]

/-- The rules of a route with a new name become one set behind the others. -/
theorem ruleSetsOf_route {calls : List RuleCall} {name routeTo : Bytes}
    (hnew : name ∉ setNames calls) {rules : List MsgRouterRule} (hrules : rules ≠ []) :
    ruleSetsOf (calls ++ rules.map fun rule => ⟨name, routeTo, rule⟩) =
        ruleSetsOf calls ++ [⟨name, routeTo, rules, 0⟩] ∧
      setNames (calls ++ rules.map fun rule => ⟨name, routeTo, rule⟩) =
        setNames calls ++ [name] := by
  induction rules using List.reverseRecOn with
  | nil => exact absurd rfl hrules
  | append_singleton rules rule ih =>
    rw [List.map_append, List.map_singleton, ← List.append_assoc]
    by_cases hfirst : rules = []
    · rw [hfirst, List.map_nil, List.append_nil, List.nil_append]
      exact ⟨ruleSetsOf_new hnew, setNames_new hnew⟩
    · obtain ⟨hsets, hnames⟩ := ih hfirst
      have hold : name ∈ setNames (calls ++ rules.map fun rule => ⟨name, routeTo, rule⟩) := by
        rw [hnames]
        exact List.mem_append_right _ (List.mem_singleton_self name)
      have hsame := @setNames_old _ ⟨name, routeTo, rule⟩ hold
      refine ⟨?_, hsame.trans hnames⟩
      rw [ruleSetsOf, hsame, hnames, List.map_append, List.map_singleton]
      rw [ruleSetsOf, hnames, List.map_append, List.map_singleton] at hsets
      obtain ⟨hfront, hlast⟩ := List.append_inj' hsets rfl
      have hother : (setNames calls).map (setOf
          ((calls ++ rules.map fun rule => ⟨name, routeTo, rule⟩) ++ [⟨name, routeTo, rule⟩])) =
          ruleSetsOf calls := by
        rw [← hfront]
        apply List.map_congr_left
        intro other hmem
        apply setOf_other
        intro heq
        have hname : name = other := heq
        exact hnew (hname ▸ hmem)
      have hone := @setOf_old _ ⟨name, routeTo, rule⟩ hold
      rw [hother, hone, (List.cons.inj hlast).1]
      rfl

namespace RouteSection

def set (r : RouteSection) (o : TestSetting) : MsgRouterRuleSet where
  ruleSetName := r.route.attribute "name"
  routeTo := r.route.attribute "to"
  ruleSet := testRules o r.tests

/-- The sets of some routes; a route without a test has none. -/
def sets : TestSetting → List RouteSection → List MsgRouterRuleSet
  | _, [] => []
  | o, r :: routes =>
    if r.tests = [] then sets o routes
    else r.set o :: sets (r.tests.foldl TestSetting.next o) routes

theorem testRules_eq_nil (o : TestSetting) (tests : List XmlElement) :
    testRules o tests = [] ↔ tests = [] := by
  cases tests <;> simp [testRules]

theorem ruleSetsOf_allCalls {routes : List RouteSection} {calls : List RuleCall} (o : TestSetting)
    (hnames : (routes.map fun r => r.route.attribute "name").Nodup)
    (hnew : ∀ r ∈ routes, r.route.attribute "name" ∉ setNames calls) :
    ruleSetsOf (calls ++ allCalls o routes) = ruleSetsOf calls ++ sets o routes := by
  induction routes generalizing calls o with
  | nil => rw [allCalls, sets, List.append_nil, List.append_nil]
  | cons r routes ih =>
    rw [List.map_cons, List.nodup_cons] at hnames
    have hrest : ∀ r' ∈ routes, r'.route.attribute "name" ∉ setNames calls :=
      fun r' hr' => hnew r' (List.mem_cons_of_mem _ hr')
    rw [allCalls, sets]
    by_cases htests : r.tests = []
    · have hcalls : r.calls o = [] := by rw [RouteSection.calls, htests]; rfl
      rw [if_pos htests, hcalls, htests, List.nil_append]
      exact ih o hnames.2 hrest
    · obtain ⟨hsets, hset⟩ := @ruleSetsOf_route calls _ (r.route.attribute "to")
        (hnew r List.mem_cons_self) _ (mt (testRules_eq_nil o r.tests).mp htests)
      have hothers : ∀ r' ∈ routes, r'.route.attribute "name" ∉ setNames (calls ++ r.calls o) := by
        intro r' hr' hmem
        rw [RouteSection.calls, hset, List.mem_append, List.mem_singleton] at hmem
        rcases hmem with hmem | heq
        · exact hrest r' hr' hmem
        · exact hnames.1 (heq ▸ List.mem_map_of_mem hr')
      rw [if_neg htests, ← List.append_assoc, ih _ hnames.2 hothers, RouteSection.calls, hsets,
        List.append_assoc]
      rfl

end RouteSection

/-! ### The search with the rules of a document -/

variable {regexMatch : Bytes → Bytes → Option Bool} {m : Msg} {v : MsgView}

/-- A search with the rules of some calls, wherever the engine took them from. -/
theorem search_has {x : MsgRouterRulesEngine} {calls : List RuleCall} (hx : x.Has calls)
    (h : Parsed m v) (htaken : setsThrow regexMatch v (ruleSetsOf calls) = false)
    (sMatch : Bytes) : ∃ m' x',
    x.search regexMatch m sMatch = .ok (((ruleSetsOf calls).find?
        fun s => rulesTest regexMatch v s.ruleSet false).isSome,
      (((ruleSetsOf calls).find? fun s => rulesTest regexMatch v s.ruleSet false).map
        fun s => cstr s.routeTo).getD sMatch, m', x') := by
  have hne : ∀ s ∈ ruleSetsOf calls, s.ruleSet ≠ [] := fun s hs => (mem_ruleSetsOf hs).1
  obtain ⟨m', sets', hloop, -⟩ := h.searchLoop hne htaken
  refine ⟨m', { x with ruleSets := sets' }, ?_⟩
  unfold MsgRouterRulesEngine.search
  rw [hx.sets, hloop]
  simp

/-- Sets without `match` rules ask nothing of the library. -/
theorem setsThrow_of_noMatch {sets : List MsgRouterRuleSet}
    (h : ∀ s ∈ sets, ∀ pRule ∈ s.ruleSet, pRule.operationType ≠ .matching) :
    setsThrow regexMatch v sets = false := by
  rw [← Bool.not_eq_true, setsThrow_iff]
  intro hthrows
  obtain ⟨front, s, rest, rfl, -, hrules⟩ := hthrows
  obtain ⟨before, pRule, after, hsplit, hrule, -⟩ := (rulesThrow_iff _ _).mp hrules
  refine h s (List.mem_append_right _ List.mem_cons_self) pRule ?_ hrule.1
  rw [hsplit]
  exact List.mem_append_right _ List.mem_cons_self

/-- The engine of a section has its rules behind the first one. -/
theorem has_foldl {x : MsgRouterRulesEngine} {calls : List RuleCall} (hx : x.Has calls)
    (more : List RuleCall) : (more.foldl MsgRouterRulesEngine.addRule x).Has (calls ++ more) := by
  induction more generalizing x calls with
  | nil => rwa [List.append_nil]
  | cons call more ih =>
    have hnext := ih (hx.addRule call)
    rwa [List.append_assoc, List.singleton_append] at hnext

theorem has_empty : ({} : MsgRouterRulesEngine).Has [] := MsgRouterRulesEngine.addRules_has []

/-! ### Servers without routes of their own -/

/-- Where a message goes without a configuration of routes. -/
def defaultRoute (line : Bytes) : Option Bytes :=
  if bytes "MC " <:+: line then some (bytes "MC")
  else if bytes "GET " <:+: line ∨ bytes "POST " <:+: line then some (bytes "MCWS")
  else none

theorem containsTest_status (v : MsgView) {pRule : MsgRouterRule} (h : pRule.location = .status)
    (hop : pRule.operationType = .contains) (b : Bool) :
    rulesTest regexMatch v [pRule] b = true ↔ cstr pRule.value <:+: cstr v.statusLine := by
  have hocc := @exists_firstOcc_iff (cstr pRule.value) (cstr v.statusLine)
  unfold rulesTest ruleTest containsTest
  rw [hop, h, ← hocc, ← Option.isSome_iff_exists, strstr]
  cases (firstOcc (cstr pRule.value) (cstr v.statusLine)).isSome <;> simp [rulesTest]

/-- The three sets of the defaults. -/
def defaultSets (rules : List MsgRouterRule) : List MsgRouterRuleSet :=
  [⟨bytes "MC", bytes "MC", rules, 0⟩, ⟨bytes "HTTP_GET", bytes "MCWS", [ruleGet.rule], 0⟩,
    ⟨bytes "HTTP_POST", bytes "MCWS", [rulePost.rule], 0⟩]

theorem find_default (v : MsgView) {rules : List MsgRouterRule}
    (hrules : rulesTest regexMatch v rules false = rulesTest regexMatch v [ruleMC.rule] false) :
    (((defaultSets rules).find? fun s => rulesTest regexMatch v s.ruleSet false).map
      fun s => cstr s.routeTo) = defaultRoute (cstr v.statusLine) := by
  have hmc := @containsTest_status regexMatch v ruleMC.rule rfl rfl false
  have hget := @containsTest_status regexMatch v ruleGet.rule rfl rfl false
  have hpost := @containsTest_status regexMatch v rulePost.rule rfl rfl false
  have hvalues : cstr ruleMC.rule.value = bytes "MC " ∧ cstr ruleGet.rule.value = bytes "GET " ∧
      cstr rulePost.rule.value = bytes "POST " := by decide
  have hroutes : cstr (bytes "MC") = bytes "MC" ∧ cstr (bytes "MCWS") = bytes "MCWS" := by decide
  rw [hvalues.1, ← hrules] at hmc
  rw [hvalues.2.1] at hget
  rw [hvalues.2.2] at hpost
  unfold defaultSets defaultRoute
  simp only [List.find?_cons, List.find?_nil, ← hmc, ← hget, ← hpost]
  cases rulesTest regexMatch v rules false with
  | true => simp [hroutes.1]
  | false =>
    cases rulesTest regexMatch v [ruleGet.rule] false with
    | true => simp [hroutes.2]
    | false =>
      cases rulesTest regexMatch v [rulePost.rule] false with
      | true => simp [hroutes.2]
      | false => simp

/-- Without a file, and with a file that has no `handlers`, every message goes to the same
handler. -/
theorem search_default (h : Parsed m v) {c : XmlCursor}
    (hnone : hasTag c.xmlElements "handlers" = false) (sMatch : Bytes) :
    ∃ s m₁ x₁ m₂ x₂, HandlersState.processHandlers c {} = (s, none) ∧
      s.engine.search regexMatch m sMatch = .ok ((defaultRoute (cstr v.statusLine)).isSome,
        (defaultRoute (cstr v.statusLine)).getD sMatch, m₁, x₁) ∧
      (MsgRouterRulesEngine.addRules defaultRules).search regexMatch m sMatch =
        .ok ((defaultRoute (cstr v.statusLine)).isSome,
          (defaultRoute (cstr v.statusLine)).getD sMatch, m₂, x₂) := by
  have htwice : ruleSetsOf (ruleMC :: defaultRules) =
      defaultSets [ruleMC.rule, ruleMC.rule] := by decide
  have honce : ruleSetsOf defaultRules = defaultSets [ruleMC.rule] := by decide
  have hsame : rulesTest regexMatch v [ruleMC.rule, ruleMC.rule] false =
      rulesTest regexMatch v [ruleMC.rule] false := by
    unfold rulesTest
    rw [ruleTest_of_set (by decide)]
    cases htest : ruleTest regexMatch v ruleMC.rule true with
    | true => simp [rulesTest, htest]
    | false => simp
  have hrun : HandlersState.processHandlers c {} =
      ((({} : HandlersState).addRules [ruleMC]).addRules defaultRules, none) := by
    unfold HandlersState.processHandlers
    rcases c.findTag_hasTag "handlers" with ⟨hhas, -⟩ | ⟨-, hfind⟩
    · rw [hnone] at hhas
      cases hhas
    · dsimp only
      rw [hfind]
      rfl
  have hhas : (({} : HandlersState).addRules [ruleMC]).addRules defaultRules |>.engine.Has
      (ruleMC :: defaultRules) := has_foldl has_empty (ruleMC :: defaultRules)
  have htaken : setsThrow regexMatch v (ruleSetsOf (ruleMC :: defaultRules)) = false := by
    rw [htwice]
    exact setsThrow_of_noMatch (by decide)
  have htaken' : setsThrow regexMatch v (ruleSetsOf defaultRules) = false := by
    rw [honce]
    exact setsThrow_of_noMatch (by decide)
  obtain ⟨m₁, x₁, hfile⟩ := search_has hhas h htaken sMatch
  obtain ⟨m₂, x₂, hnofile⟩ :=
    search_has (MsgRouterRulesEngine.addRules_has defaultRules) h htaken' sMatch
  refine ⟨_, m₁, x₁, m₂, x₂, hrun, ?_, ?_⟩
  · rw [hfile, htwice, ← find_default v hsame, Option.isSome_map]
  · rw [hnofile, honce, ← find_default v rfl, Option.isSome_map]

/-- The elements of `<server><port number="80"/></server>`. -/
def portElements : List XmlElement :=
  [{ xmlTagName := some (bytes "server") },
    { xmlTagName := some (bytes "port"), xmlAttributes := [(bytes "number", bytes "80")] },
    { xmlTagName := some (bytes "/") }, { xmlTagName := some (bytes "/server") }]

theorem search_default_request : ∃ s m₁ x₁ m₂ x₂,
    HandlersState.processHandlers ⟨portElements, []⟩ {} = (s, none) ∧
      s.engine.search plainMatch request [] = .ok (true, bytes "MCWS", m₁, x₁) ∧
      (MsgRouterRulesEngine.addRules defaultRules).search plainMatch request [] =
        .ok (true, bytes "MCWS", m₂, x₂) := by
  have hroute : defaultRoute (cstr requestView.statusLine) = some (bytes "MCWS") := by decide
  have hsearch := @search_default plainMatch request requestView request_parsed ⟨portElements, []⟩
    (by decide) []
  rwa [hroute] at hsearch

/-! ### Servers with routes -/

namespace RouteSection

theorem testRules_cstrings (o : TestSetting) (tests : List XmlElement) :
    ∀ rule ∈ testRules o tests, 0 ∉ rule.value := by
  induction tests generalizing o with
  | nil => exact fun _ h => absurd h List.not_mem_nil
  | cons e tests ih =>
    intro rule hrule
    rcases List.mem_cons.mp hrule with rfl | hrest
    · exact zero_notMem_attribute e "value"
    · exact ih (o.next e) rule hrest

/-- The texts of the rules come from attributes, which have no NUL. -/
theorem sets_cstrings (o : TestSetting) (routes : List RouteSection) :
    ∀ s ∈ sets o routes, 0 ∉ s.routeTo ∧ ∀ rule ∈ s.ruleSet, 0 ∉ rule.value := by
  induction routes generalizing o with
  | nil => exact fun _ h => absurd h List.not_mem_nil
  | cons r routes ih =>
    intro s hs
    rw [sets] at hs
    split_ifs at hs
    · exact ih o s hs
    · rcases List.mem_cons.mp hs with rfl | hs
      · exact ⟨zero_notMem_attribute r.route "to", testRules_cstrings o r.tests⟩
      · exact ih _ s hs

end RouteSection

/-- The set that comes before those of the routes. -/
def setMC : MsgRouterRuleSet := ⟨bytes "MC", bytes "MC", [ruleMC.rule], 0⟩

/-- A configuration of closed routes with different names, as the text of a document. -/
structure RouteDocument where
  content : Content
  orderly : content.Orderly .quiet
  handlers : XmlElement
  body : List XmlElement
  opens : content.elements.dropWhile (fun e => ! e.isTag (bytes "handlers")) = handlers :: body
  directory : HandlersState.DirectoryRead (handlers :: body)
  routes : List RouteSection
  closed : Routes body routes
  complete : ∀ r ∈ routes, r.Complete
  names : (bytes "MC" :: routes.map fun r => r.route.attribute "name").Nodup

open XmlParser (noText isName_of separates_blank)

namespace RouteDocument

def sets (d : RouteDocument) : List MsgRouterRuleSet := setMC :: RouteSection.sets {} d.routes

theorem ruleSetsOf_calls (d : RouteDocument) :
    ruleSetsOf (ruleMC :: RouteSection.allCalls {} d.routes) = d.sets := by
  have hnames := List.nodup_cons.mp d.names
  have hone : setNames [ruleMC] = [bytes "MC"] := by decide
  have hset : ruleSetsOf [ruleMC] = [setMC] := by decide
  have hnew : ∀ r ∈ d.routes, r.route.attribute "name" ∉ setNames [ruleMC] := by
    intro r hr hmem
    rw [hone, List.mem_singleton] at hmem
    exact hnames.1 (hmem ▸ List.mem_map_of_mem hr)
  have hall := RouteSection.ruleSetsOf_allCalls {} hnames.2 hnew
  rwa [hset, List.singleton_append, List.singleton_append] at hall

theorem sets_cstrings (d : RouteDocument) :
    ∀ s ∈ d.sets, 0 ∉ s.routeTo ∧ ∀ rule ∈ s.ruleSet, 0 ∉ rule.value := by
  intro s hs
  rcases List.mem_cons.mp hs with rfl | hs
  · decide
  · exact RouteSection.sets_cstrings {} d.routes s hs

theorem plain_letters {raw : Bytes} (hr : ∀ c ∈ raw, 64 < c) :
    ∀ c ∈ raw, c ≠ 0 ∧ c ≠ 34 ∧ c ≠ 60 ∧ c ≠ 62 := by
  intro c hc
  have hlt := hr c hc
  refine ⟨?_, ?_, ?_, ?_⟩ <;> exact fun h => absurd hlt (by rw [h]; decide)

/-- An attribute whose value consists of letters. -/
def wordAttribute (key raw : String) (hk : IsName (bytes key)) (hr : ∀ c ∈ bytes raw, 64 < c) :
    Bytes × QuotedAttribute :=
  ([], ⟨32, bytes key, bytes raw, separates_blank, hk, plain_letters hr⟩)

theorem kept_wordAttribute (key raw : String) (hk : IsName (bytes key))
    (hr : ∀ c ∈ bytes raw, 64 < c) : (wordAttribute key raw hk hr).2.Kept where
  space := fun h => absurd (hr 32 (List.mem_of_mem_head? h)) (by decide)
  plain := by
    intro c hc
    have hlt := hr c hc
    refine ⟨?_, ?_, ?_⟩ <;> exact fun h => absurd hlt (by rw [h]; decide)
  question := by
    intro u w huw
    have hraw : bytes raw = u ++ 63 :: w := huw
    have hmark : 63 ∈ bytes raw := hraw ▸ List.mem_append_right u List.mem_cons_self
    exact absurd (hr 63 hmark) (by decide)

def routeTag : SpacedTag :=
  { XmlParser.plainTag "route" (isName_of (by decide)) with
    attributes := [wordAttribute "name" "h" (isName_of (by decide)) (by simp [bytes]),
      wordAttribute "to" "W" (isName_of (by decide)) (by simp [bytes])]
    gaps := by simp [IsGap, wordAttribute] }

def ifTag : SpacedTag :=
  { XmlParser.plainTag "if" (isName_of (by decide)) with
    attributes := [wordAttribute "op" "contains" (isName_of (by decide)) (by simp [bytes]),
      wordAttribute "location" "header" (isName_of (by decide)) (by simp [bytes]),
      wordAttribute "value" "Host" (isName_of (by decide)) (by simp [bytes])]
    gaps := by simp [IsGap, wordAttribute] }

/-- Requests with a `Host` field go to the handler `W`. -/
def hostContent : Content :=
  .element noText (XmlParser.plainTag "handlers" (isName_of (by decide)))
    (.element noText routeTag (.empty noText ifTag (.done noText)) (.done noText)) (.done noText)

theorem tidy_routeTag : routeTag.Tidy where
  space := by decide
  kept := by
    intro a ha
    rcases List.mem_cons.mp ha with rfl | ha
    · exact kept_wordAttribute "name" "h" _ _
    · obtain rfl := List.mem_singleton.mp ha
      exact kept_wordAttribute "to" "W" _ _

theorem tidy_ifTag : ifTag.Tidy where
  space := by decide
  kept := by
    intro a ha
    rcases List.mem_cons.mp ha with rfl | ha
    · exact kept_wordAttribute "op" "contains" _ _
    · rcases List.mem_cons.mp ha with rfl | ha
      · exact kept_wordAttribute "location" "header" _ _
      · obtain rfl := List.mem_singleton.mp ha
        exact kept_wordAttribute "value" "Host" _ _

theorem blank_noText : Blank noText.1 := fun _ h => absurd h List.not_mem_nil

def hostRoute : RouteSection :=
  ⟨(Content.empty noText ifTag (.done noText)).filled routeTag.element, [ifTag.element]⟩

def hostDocument : RouteDocument where
  content := hostContent
  orderly := ⟨blank_noText, XmlParser.tidy_plainTag _ _, ⟨trivial, tidy_routeTag,
    ⟨trivial, tidy_ifTag, blank_noText⟩, blank_noText⟩, blank_noText⟩
  handlers := hostContent.elements.head (by decide)
  body := hostContent.elements.tail
  opens := by decide
  directory := by
    intro e he
    have hnone : (hostContent.elements.tail).find? (·.isTag (bytes "directory")) = none := by decide
    rw [List.tail_cons, hnone] at he
    cases he
  routes := [hostRoute]
  closed := by
    have hbody : hostContent.elements.tail = hostRoute.route :: ([ifTag.element, emptyEnd] ++
        routeTag.closeElement ::
          [(XmlParser.plainTag "handlers" (isName_of (by decide))).closeElement]) := by
      decide
    have htests : hostRoute =
        ⟨hostRoute.route, [ifTag.element, emptyEnd].filter (·.isTag (bytes "if"))⟩ := rfl
    rw [hbody, htests]
    refine .route (by decide) ?_ (by decide) (.ended (by decide))
    exact List.forall_mem_cons.mpr ⟨by decide, List.forall_mem_singleton.mpr (by decide)⟩
  complete := by
    intro r hr
    obtain rfl := List.mem_singleton.mp hr
    refine ⟨by decide, by decide, ?_⟩
    intro e he
    obtain rfl := List.mem_singleton.mp he
    decide
  names := by decide

end RouteDocument

end MsgCourier
