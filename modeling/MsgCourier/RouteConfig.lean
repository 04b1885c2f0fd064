import MsgCourier.RulesEngine
import MsgCourier.ServerConfig

/-! The routing rules that `cCore::ProcessHandlers` takes from the elements of the configuration,
and those that it and `cCore::SetDefaults` add by themselves. -/
namespace MsgCourier
open ListSearch CText

/-- `OperationType` and `Location`, which keep the values of the last test. -/
structure TestSetting where
  operationType : MsgRouterOperationType := .notset
  location : MsgRouterLocationType := .notset
  deriving DecidableEq, Repr

namespace TestSetting

def locationOf (o : TestSetting) (location : Bytes) : MsgRouterLocationType :=
  if location = bytes "status" then .status
  else if location = bytes "header" then .header
  else if location = bytes "payload" then .payload
  else o.location

def operationOf (o : TestSetting) (op variance : Bytes) : MsgRouterOperationType :=
  if op = bytes "match" ∧ variance.length ≠ 0 then .like
  else if op = bytes "match" then .matching
  else if op = bytes "contains" then .contains
  else o.operationType

def next (o : TestSetting) (pElm : XmlElement) : TestSetting where
  operationType := o.operationOf (pElm.attribute "op") (pElm.attribute "variance")
  location := o.locationOf (pElm.attribute "location")

/-- The rule that a test becomes behind the tests before it. -/
def rule (o : TestSetting) (pElm : XmlElement) : MsgRouterRule where
  location := (o.next pElm).location
  operationType := (o.next pElm).operationType
  matchPattern := pElm.attribute "pattern"
  value := pElm.attribute "value"

end TestSetting

/-- The calls of `LoadPlugin`. -/
structure PluginCall where
  pPluginName : Bytes
  localAccess : Bytes
  remoteAccess : Bytes
  deriving DecidableEq, Repr

/-- What `ProcessHandlers` has done when it returns, or when an exception ends it. -/
structure HandlersState where
  engine : MsgRouterRulesEngine := {}
  setting : TestSetting := {}
  pluginDirectory : Bytes := []
  plugins : List PluginCall := []

/-- The rule that comes first, to ensure fastest routing. -/
def ruleMC : RuleCall := ⟨bytes "MC", bytes "MC", ⟨.status, .contains, [], bytes "MC "⟩⟩

def ruleGet : RuleCall := ⟨bytes "HTTP_GET", bytes "MCWS", ⟨.status, .contains, [], bytes "GET "⟩⟩

def rulePost : RuleCall :=
  ⟨bytes "HTTP_POST", bytes "MCWS", ⟨.status, .contains, [], bytes "POST "⟩⟩

namespace HandlersState

def addRules (s : HandlersState) (calls : List RuleCall) : HandlersState :=
  { s with engine := calls.foldl MsgRouterRulesEngine.addRule s.engine }

/-- The body of the loop over the tests of a route. -/
def addTest (name routeTo : Bytes) (s : HandlersState) (pElm : XmlElement) :
    Except Exn HandlersState :=
  if (pElm.attribute "op").length = 0 then .error .cException
  else if (pElm.attribute "location").length = 0 then .error .cException
  else pure { s with
    engine := s.engine.addRule ⟨name, routeTo, s.setting.rule pElm⟩
    setting := s.setting.next pElm }

/-- The loop keeps what it did before an exception. -/
def addTests (name routeTo : Bytes) : List XmlElement → HandlersState → HandlersState × Option Exn
  | [], s => (s, none)
  | pElm :: rest, s =>
    match s.addTest name routeTo pElm with
    | .error e => (s, some e)
    | .ok s => addTests name routeTo rest s

/-- The loop over the routes. Each round goes on behind its `route`, so there are fewer rounds than
elements. -/
def addRoutes : ℕ → XmlCursor → HandlersState → HandlersState × Option Exn
  | 0, _, s => (s, some .undefined)
  | fuel+1, pXML, s =>
    match pXML.findNextTag (bytes "route") (some (bytes "/handlers")) with
    | (none, _) => (s, none)
    | (some pElm, pXML) =>
      if (pElm.attribute "name").length = 0 ∨ (pElm.attribute "to").length = 0 then
        (s, some .cException)
      else
        match pXML.each "if" "/route" with
        | .error e => (s, some e)
        | .ok (tests, pXML) =>
          match addTests (pElm.attribute "name") (pElm.attribute "to") tests s with
          | (s, some e) => (s, some e)
          | (s, none) => addRoutes fuel pXML s

def loadPlugin (s : HandlersState) (pElm : XmlElement) : HandlersState :=
  { s with
    plugins := s.plugins ++ [⟨pElm.attribute "module", pElm.attribute "local-access",
      pElm.attribute "remote-access"⟩] }

/-- The directory and the modules of the plugins. -/
def loadPlugins (pXML : XmlCursor) (s : HandlersState) : Cxx (HandlersState × XmlCursor) := do
  let (pluginDirectory, pXML) ← CoreConfig.nextValue pXML "directory"
  let (handlers, pXML) ← pXML.each "handler" "/handlers"
  pure (handlers.foldl loadPlugin { s with pluginDirectory }, pXML)

def processHandlers (pXML : XmlCursor) (s : HandlersState) : HandlersState × Option Exn :=
  let s := s.addRules [ruleMC]
  match pXML.findTag (bytes "handlers") with
  | (some _, pXML) =>
    match s.loadPlugins pXML with
    | .error e => (s, some e)
    | .ok (s, pXML) =>
      let (_, pXML) := pXML.findTag (bytes "handlers")
      addRoutes (pXML.rest.length+1) pXML { s with setting := {} }
  | (none, _) => (s.addRules [ruleMC, ruleGet, rulePost], none)

end HandlersState

/-- The rules of `SetDefaults`, which is what a server without a configuration file has. -/
def defaultRules : List RuleCall := [ruleMC, ruleGet, rulePost]

/-! ### The routes of a document -/

/-- A `route` element and the `if` elements up to its end. -/
structure RouteSection where
  route : XmlElement
  tests : List XmlElement

/-- The routes of the elements behind `handlers`, up to the end of the section. Every route is
closed by an element of its own. -/
inductive Routes : List XmlElement → List RouteSection → Prop
  | nil : Routes [] []
  | ended {e : XmlElement} {rest : List XmlElement} :
      e.isTag (bytes "/handlers") = true → Routes (e :: rest) []
  | skip {e : XmlElement} {rest : List XmlElement} {routes : List RouteSection} :
      e.isTag (bytes "/handlers") = false → e.isTag (bytes "route") = false →
      Routes rest routes → Routes (e :: rest) routes
  | route {e stop : XmlElement} {body rest : List XmlElement} {routes : List RouteSection} :
      e.isTag (bytes "route") = true → (∀ d ∈ body, d.isTag (bytes "/route") = false) →
      stop.isTag (bytes "/route") = true → Routes rest routes →
      Routes (e :: (body ++ stop :: rest)) (⟨e, body.filter (·.isTag (bytes "if"))⟩ :: routes)

namespace RouteSection

/-- The attributes without which an exception ends the reading. -/
structure Complete (r : RouteSection) : Prop where
  name : r.route.attribute "name" ≠ []
  routeTo : r.route.attribute "to" ≠ []
  tests : ∀ e ∈ r.tests, e.attribute "op" ≠ [] ∧ e.attribute "location" ≠ []

/-- The rules of some tests behind a setting. -/
def testRules : TestSetting → List XmlElement → List MsgRouterRule
  | _, [] => []
  | o, e :: rest => o.rule e :: testRules (o.next e) rest

def calls (r : RouteSection) (o : TestSetting) : List RuleCall :=
  (testRules o r.tests).map fun rule => ⟨r.route.attribute "name", r.route.attribute "to", rule⟩

/-- The calls of all routes; what a test leaves open is as in the last test, also in that of an
earlier route. -/
def allCalls : TestSetting → List RouteSection → List RuleCall
  | _, [] => []
  | o, r :: routes => r.calls o ++ allCalls (r.tests.foldl TestSetting.next o) routes

end RouteSection

/-! ### What the loops do -/

namespace HandlersState

variable {s s' : HandlersState} {name routeTo : Bytes}

/-- The state behind some tests. -/
def tested (s : HandlersState) (r : RouteSection) : HandlersState :=
  { s.addRules (r.calls s.setting) with setting := r.tests.foldl TestSetting.next s.setting }

theorem addTests_eq (route : XmlElement) {tests : List XmlElement}
    (h : ∀ e ∈ tests, e.attribute "op" ≠ [] ∧ e.attribute "location" ≠ []) (s : HandlersState) :
    addTests (route.attribute "name") (route.attribute "to") tests s =
      (s.tested ⟨route, tests⟩, none) := by
  induction tests generalizing s with
  | nil => rfl
  | cons e tests ih =>
    obtain ⟨hop, hlocation⟩ := h e List.mem_cons_self
    have hfirst : s.addTest (route.attribute "name") (route.attribute "to") e = .ok { s with
        engine := s.engine.addRule
          ⟨route.attribute "name", route.attribute "to", s.setting.rule e⟩
        setting := s.setting.next e } := by
      unfold addTest
      rw [if_neg fun h => hop (List.length_eq_zero_iff.mp h),
        if_neg fun h => hlocation (List.length_eq_zero_iff.mp h)]
      rfl
    unfold addTests
    rw [hfirst]
    dsimp only
    rw [ih fun e he => h e (List.mem_cons_of_mem _ he)]
    rfl

theorem route_ne_handlers {e : XmlElement} (h : e.isTag (bytes "route") = true) :
    e.isTag (bytes "/handlers") = false := by
  unfold XmlElement.isTag at h ⊢
  rw [of_decide_eq_true h]
  decide

/-- Elements of other names between the routes are passed over. -/
theorem findNextTag_skip {c c' : XmlCursor} {e : XmlElement} {rest : List XmlElement}
    (hc : c.rest.tail = e :: rest) (hc' : c'.rest.tail = rest)
    (helements : c'.xmlElements = c.xmlElements) (hend : e.isTag (bytes "/handlers") = false)
    (hroute : e.isTag (bytes "route") = false) :
    (c.findNextTag (bytes "route") (some (bytes "/handlers"))).1 =
        (c'.findNextTag (bytes "route") (some (bytes "/handlers"))).1 ∧
      ((c'.findNextTag (bytes "route") (some (bytes "/handlers"))).1.isSome →
        (c.findNextTag (bytes "route") (some (bytes "/handlers"))).2 =
          (c'.findNextTag (bytes "route") (some (bytes "/handlers"))).2) := by
  unfold XmlCursor.findNextTag
  rw [hc, hc', List.dropWhile_cons_of_pos (by rw [Option.any_some, hend, hroute]; rfl), helements]
  cases rest.dropWhile fun e =>
      ! ((some (bytes "/handlers")).any e.isTag || e.isTag (bytes "route")) with
  | nil =>
    refine ⟨rfl, ?_⟩
    intro h
    cases h
  | cons d rest => exact ⟨rfl, fun _ => rfl⟩

theorem addRoutes_skip {c c' : XmlCursor} {e : XmlElement} {rest : List XmlElement}
    (hc : c.rest.tail = e :: rest) (hc' : c'.rest.tail = rest)
    (helements : c'.xmlElements = c.xmlElements) (hend : e.isTag (bytes "/handlers") = false)
    (hroute : e.isTag (bytes "route") = false) (fuel : ℕ) (s : HandlersState) :
    addRoutes (fuel+1) c s = addRoutes (fuel+1) c' s := by
  obtain ⟨hsame, hposition⟩ := findNextTag_skip hc hc' helements hend hroute
  unfold addRoutes
  generalize c.findNextTag (bytes "route") (some (bytes "/handlers")) = r at hsame hposition ⊢
  generalize c'.findNextTag (bytes "route") (some (bytes "/handlers")) = r' at hsame hposition ⊢
  obtain ⟨found, next⟩ := r
  obtain ⟨found', next'⟩ := r'
  obtain rfl : found = found' := hsame
  cases found with
  | none => rfl
  | some pElm =>
    obtain rfl : next = next' := hposition rfl
    rfl

/-- The loop takes the routes one after the other. -/
theorem addRoutes_eq {l : List XmlElement} {routes : List RouteSection} (hl : Routes l routes)
    (hroutes : ∀ r ∈ routes, r.Complete) {fuel : ℕ} (hfuel : l.length < fuel) {c : XmlCursor}
    (hc : c.rest.tail = l) (s : HandlersState) :
    addRoutes fuel c s = (routes.foldl tested s, none) := by
  obtain ⟨fuel, rfl⟩ := Nat.exists_eq_add_one.mpr (Nat.zero_lt_of_lt hfuel)
  induction hl generalizing c fuel s with
  | nil =>
    unfold addRoutes XmlCursor.findNextTag
    rw [hc]
    rfl
  | @ended e rest hend =>
    unfold addRoutes XmlCursor.findNextTag
    rw [hc, List.dropWhile_cons_of_neg (by rw [Option.any_some, hend]; exact Bool.noConfusion)]
    dsimp only
    rw [Option.any_some, hend]
    rfl
  | @skip e rest routes hend hroute _ ih =>
    rw [List.length_cons] at hfuel
    rw [@addRoutes_skip c ⟨c.xmlElements, e :: rest⟩ e rest hc rfl rfl hend hroute]
    exact ih hroutes rfl s fuel (by omega)
  | @route e stop body rest routes hroute hbody hstop _ ih =>
    have hcomplete := hroutes _ List.mem_cons_self
    rw [List.length_cons, List.length_append, List.length_cons] at hfuel
    have hfind : c.findNextTag (bytes "route") (some (bytes "/handlers")) =
        (some e, { c with rest := e :: (body ++ stop :: rest) }) := by
      unfold XmlCursor.findNextTag
      rw [hc, List.dropWhile_cons_of_neg (by rw [hroute, Bool.or_true]; exact Bool.noConfusion)]
      dsimp only
      rw [Option.any_some, route_ne_handlers hroute]
      rfl
    obtain ⟨found, c', hloop, hsweeps⟩ := XmlCursor.each_sweeps
      { c with rest := e :: (body ++ stop :: rest) } "if" "/route"
    have htests : found = body.filter (·.isTag (bytes "if")) := by
      rw [hsweeps.found, XmlCursor.ahead, List.tail_cons,
        List.takeWhile_append_of_pos fun d hd => by rw [hbody d hd]; rfl,
        List.takeWhile_cons_of_neg (by rw [hstop]; exact Bool.noConfusion), List.append_nil]
    have hbehind : c'.rest.tail = rest := hsweeps.stop rest ⟨body, stop, rfl, hbody, hstop⟩
    obtain ⟨fuel, rfl⟩ := Nat.exists_eq_add_one.mpr (show 0 < fuel by omega)
    unfold addRoutes
    rw [hfind]
    dsimp only
    rw [if_neg (not_or.mpr ⟨fun h => hcomplete.name (List.length_eq_zero_iff.mp h),
      fun h => hcomplete.routeTo (List.length_eq_zero_iff.mp h)⟩), hloop]
    dsimp only
    rw [htests, addTests_eq e hcomplete.tests]
    dsimp only
    exact ih (fun r hr => hroutes r (List.mem_cons_of_mem _ hr)) hbehind _ fuel (by omega)

/-- The rules behind some routes are those of their calls. -/
theorem foldl_tested (routes : List RouteSection) (s : HandlersState) :
    (routes.foldl tested s).engine =
      (s.addRules (RouteSection.allCalls s.setting routes)).engine := by
  induction routes generalizing s with
  | nil => rfl
  | cons r routes ih =>
    rw [List.foldl_cons, ih, RouteSection.allCalls]
    unfold addRules
    rw [List.foldl_append]
    rfl

/-- The value of the element that names the directory is no null pointer. -/
def DirectoryRead (elements : List XmlElement) : Prop :=
  ∀ e, (elements.tail.find? (·.isTag (bytes "directory"))) = some e → e.xmlValue ≠ none

theorem loadPlugins_ok {c : XmlCursor} (h : DirectoryRead c.rest) (s : HandlersState) :
    ∃ s' c', s.loadPlugins c = .ok (s', c') ∧ s'.engine = s.engine ∧
      c'.xmlElements = c.xmlElements := by
  have hplugins (handlers : List XmlElement) (s : HandlersState) :
      (handlers.foldl loadPlugin s).engine = s.engine := by
    induction handlers generalizing s with
    | nil => rfl
    | cons e handlers ih => exact ih (s.loadPlugin e)
  have hvalue : ∃ v c', CoreConfig.nextValue c "directory" = .ok (v, c') ∧
      c'.xmlElements = c.xmlElements := by
    unfold CoreConfig.nextValue XmlCursor.findNextTag
    cases hdrop : c.rest.tail.dropWhile fun e =>
        ! ((none : Option Bytes).any e.isTag || e.isTag (bytes "directory")) with
    | nil => exact ⟨[], c, rfl, rfl⟩
    | cons e rest =>
      have hfind : c.rest.tail.find? (·.isTag (bytes "directory")) = some e := by
        rw [List.find?_eq_head?_dropWhile_not, ← List.head?_cons (a := e) (l := rest), ← hdrop]
        congr 1
      obtain ⟨v, hv⟩ := Option.ne_none_iff_exists'.mp (h e hfind)
      refine ⟨cstr v, { c with rest := e :: rest }, ?_, rfl⟩
      simp only [Option.any_none, Bool.false_eq_true, if_false]
      rw [XmlElement.value, hv]
      rfl
  obtain ⟨v, c₁, hnext, helements⟩ := hvalue
  obtain ⟨found, c₂, hloop, hsweeps⟩ := XmlCursor.each_sweeps c₁ "handler" "/handlers"
  refine ⟨found.foldl loadPlugin { s with pluginDirectory := v }, c₂, ?_, hplugins _ _,
    hsweeps.elements.trans helements⟩
  unfold loadPlugins
  rw [hnext, ok_bind]
  dsimp only
  rw [hloop]
  rfl

/-- A section of closed routes becomes the rules of its tests, in their order and behind the rule
that the program adds first. -/
theorem processHandlers_eq {c : XmlCursor} {handlers : XmlElement} {l : List XmlElement}
    {routes : List RouteSection}
    (hsection : c.xmlElements.dropWhile (fun e => ! e.isTag (bytes "handlers")) = handlers :: l)
    (hdirectory : DirectoryRead (handlers :: l)) (hl : Routes l routes)
    (hroutes : ∀ r ∈ routes, r.Complete) (s : HandlersState) :
    ∃ s', processHandlers c s = (s', none) ∧ s'.engine =
      (s.addRules (ruleMC :: RouteSection.allCalls {} routes)).engine := by
  have hfind (old : List XmlElement) : XmlCursor.findTag ⟨c.xmlElements, old⟩ (bytes "handlers") =
      (some handlers, ⟨c.xmlElements, handlers :: l⟩) := by
    unfold XmlCursor.findTag
    rw [hsection]
  obtain ⟨s', c', hplugins, hengine, helements⟩ :=
    loadPlugins_ok (c := ⟨c.xmlElements, handlers :: l⟩) hdirectory (s.addRules [ruleMC])
  obtain ⟨elements, rest⟩ := c'
  obtain rfl : elements = c.xmlElements := helements
  unfold processHandlers
  dsimp only
  rw [hfind c.rest]
  dsimp only
  rw [hplugins]
  dsimp only
  rw [hfind rest]
  dsimp only
  rw [addRoutes_eq hl hroutes (by rw [List.length_cons]; omega) (c := ⟨_, handlers :: l⟩) rfl]
  refine ⟨_, rfl, ?_⟩
  rw [foldl_tested]
  unfold addRules
  dsimp only
  rw [hengine]
  rfl

end HandlersState

end MsgCourier
