import MsgCourier.ServiceRegistry

/-! Several callers of `cService`, whose calls interleave one by one: walks from
`QueryServiceFirst` over `QueryServiceNext` until 0, and the other operations. -/
namespace MsgCourier
open ListSearch CText SortedEntries Runs

/-- A walk: the map when it began, where it began, and the entries it was given so far. It overlaps
a modification when the map changes before it ends. -/
structure ServiceWalk where
  serviceMap : List (Bytes × ℕ)
  start : ℕ
  returned : List ℕ
  overlapped : Bool := false

/-- `failed` is set when a call has used the iterator where it may not. -/
structure ServiceCallers where
  registry : ServiceState
  /-- The walks that callers are in the middle of. -/
  walks : ℕ → Option ServiceWalk := fun _ => none
  ended : List ServiceWalk := []
  failed : Bool := false

namespace ServiceCallers

/-- The registry after a call by another caller. -/
def setRegistry (s : ServiceCallers) (t : ServiceState) : ServiceCallers :=
  { s with
    registry := t
    walks := fun c => (s.walks c).map fun w =>
      { w with overlapped := w.overlapped || t.service.serviceMap ≠ s.registry.service.serviceMap } }

def setTable (s : ServiceCallers) (table : ServiceTable) : ServiceCallers :=
  { s with registry := { s.registry with table } }

def setWalk (s : ServiceCallers) (c : ℕ) (w : Option ServiceWalk) : ServiceCallers :=
  { s with walks := Function.update s.walks c w }

@[simp] theorem setWalk_walks_self (s : ServiceCallers) (c : ℕ) (w : Option ServiceWalk) :
    (s.setWalk c w).walks c = w := by
  unfold setWalk
  dsimp only
  rw [Function.update_self]

theorem setWalk_walks_of_ne (s : ServiceCallers) {c d : ℕ} (h : d ≠ c) (w : Option ServiceWalk) :
    (s.setWalk c w).walks d = s.walks d := by
  unfold setWalk
  dsimp only
  rw [Function.update_of_ne h]

/-- Where a walk begins. -/
def start (s : ServiceCallers) (pServiceName : Option Bytes) : ℕ :=
  pServiceName.elim 0 fun name => s.registry.service.find (cstr name)

def walk (s : ServiceCallers) (pServiceName : Option Bytes) : ServiceWalk where
  serviceMap := s.registry.service.serviceMap
  start := s.start pServiceName
  returned := (s.registry.service.entryAt (s.start pServiceName)).toList

end ServiceCallers

/-- `call` is any operation but one of a walk; a walk begins whether or not it is given an entry. -/
inductive CallerAction
  | call (c : ℕ) (op : ServiceOp)
  | begin (c : ℕ) (pServiceName : Option Bytes)
  | next (c : ℕ)

inductive CallerStep : ServiceCallers → CallerAction → ServiceCallers → Prop
  | call {s : ServiceCallers} {c : ℕ} {op : ServiceOp} {t : ServiceState} :
      s.failed = false → s.walks c = none → op ≠ .queryNext → ServiceCall s.registry op t →
      CallerStep s (.call c op) (s.setRegistry t)
  | callFails {s : ServiceCallers} {c : ℕ} {op : ServiceOp} {e : Exn} :
      s.failed = false → s.walks c = none → op ≠ .queryNext → op.Ready s.registry →
      op.call s.registry = .error e →
      CallerStep s (.call c op) { s with failed := true }
  | begin {s : ServiceCallers} {c : ℕ} {name : Option Bytes} :
      s.failed = false → s.walks c = none →
      CallerStep s (.begin c name)
        ((s.setTable (s.registry.table.moveTo (s.start name))).setWalk c (some (s.walk name)))
  | next {s : ServiceCallers} {c pServiceEntry : ℕ} {w : ServiceWalk} {table : ServiceTable} :
      s.failed = false → s.walks c = some w →
      s.registry.table.queryServiceNext = .ok (some pServiceEntry, table) →
      CallerStep s (.next c) ((s.setTable table).setWalk c
        (some { w with returned := w.returned ++ [pServiceEntry] }))
  | last {s : ServiceCallers} {c : ℕ} {w : ServiceWalk} {table : ServiceTable} :
      s.failed = false → s.walks c = some w →
      s.registry.table.queryServiceNext = .ok (none, table) →
      CallerStep s (.next c) { (s.setTable table).setWalk c none with ended := w :: s.ended }
  | nextFails {s : ServiceCallers} {c : ℕ} {w : ServiceWalk} {e : Exn} :
      s.failed = false → s.walks c = some w → s.registry.table.queryServiceNext = .error e →
      CallerStep s (.next c) { s with failed := true }

/-! ### What walks are for -/

/-- The walk was given the entries from its starting position to the end, each once. -/
structure ServiceWalk.Complete (w : ServiceWalk) : Prop where
  returned : w.returned = (w.serviceMap.drop w.start).map Prod.snd
  once : w.returned.Nodup

/-- No call has used a bad iterator, and the walks that overlapped no modification are complete. -/
structure ServiceCallers.Sound (s : ServiceCallers) : Prop where
  safe : s.failed = false
  complete : ∀ w ∈ s.ended, w.overlapped = false → w.Complete

namespace CallerAction

/-- While a caller is in the middle of a walk, no other one begins a walk, registers or unregisters
a remote service, or moves the iterator by a query. Walks begin at an entry, and remote services are
registered and unregistered under names that are keys. -/
def Undisturbed (s : ServiceCallers) : CallerAction → Prop
  | .call _ (.registerRemote _ name _ _) | .call _ (.unregisterRemote _ name) =>
    (∀ c, s.walks c = none) ∧ s.registry.service.HasKey (cstr name)
  | .call _ (.queryFirst name) =>
    (∀ c, s.walks c = none) ∨ s.registry.table.it = s.registry.service.itAt (s.start name)
  | .call _ (.updateNode _ _) | .call _ (.registerLocal _ _) | .call _ .queryNext => True
  | .begin _ name =>
    (∀ c, s.walks c = none) ∧ s.start name < s.registry.service.serviceMap.length
  | .next _ => True

end CallerAction

abbrev UndisturbedStep (s : ServiceCallers) (a : CallerAction) (t : ServiceCallers) : Prop :=
  CallerStep s a t ∧ a.Undisturbed s

/-! ### What the steps keep -/

/-- What a walk was given are the entries of its map from its start up to the one at `i`. -/
structure ServiceWalk.Exact (w : ServiceWalk) (i : ℕ) : Prop where
  length : w.start+w.returned.length = i+1
  returned : w.returned = ((w.serviceMap.drop w.start).take w.returned.length).map Prod.snd

/-- A walk in the middle: the iterator stands at an entry, and while the map is the one the walk
began with, the walk was given the entries up to this one. -/
structure ServiceWalk.Standing (w : ServiceWalk) (x : ServiceTable) (i : ℕ) : Prop where
  inside : i < x.service.serviceMap.length
  it : x.it = x.service.itAt i
  exact : w.overlapped = false → x.service.serviceMap = w.serviceMap ∧ w.Exact i

namespace Service

variable {x : Service}

theorem itAt_of_mem {e : Bytes × ℕ} (he : e ∈ x.serviceMap) :
    ∃ i < x.serviceMap.length, x.itAt i = .node e.2 := by
  obtain ⟨i, hi, rfl⟩ := List.getElem_of_mem he
  refine ⟨i, hi, ?_⟩
  rw [itAt, List.getElem?_eq_getElem hi]

theorem itAt_of_lt {i : ℕ} (hi : i < x.serviceMap.length) : x.itAt i = .node x.serviceMap[i].2 := by
  rw [itAt, List.getElem?_eq_getElem hi]

end Service

namespace ServiceWalk.Standing

variable {w : ServiceWalk} {x y : ServiceTable} {i : ℕ}

theorem moveTo (h : w.Standing x i) : x.moveTo i = x := by
  obtain ⟨service, it⟩ := x
  exact congrArg (ServiceTable.mk service) h.it.symm

/-- A call that leaves the iterator and the entries alone may add an entry. -/
theorem other (h : w.Standing x i) (hit : y.it = x.it)
    (hmap : x.service.serviceMap ⊆ y.service.serviceMap) :
    ∃ j, Standing { w with overlapped := w.overlapped ||
      y.service.serviceMap ≠ x.service.serviceMap } y j := by
  by_cases hsame : y.service.serviceMap = x.service.serviceMap
  · have hitAt : y.service.itAt i = x.service.itAt i := by
      rw [Service.itAt, Service.itAt, hsame]
    refine ⟨i, hsame ▸ h.inside, hit.trans (h.it.trans hitAt.symm), fun hw => ?_⟩
    obtain ⟨hw, -⟩ := Bool.or_eq_false_iff.mp hw
    exact ⟨hsame.trans (h.exact hw).1, (h.exact hw).2.length, (h.exact hw).2.returned⟩
  · obtain ⟨j, hj, hitAt⟩ := Service.itAt_of_mem (hmap (List.getElem_mem h.inside))
    refine ⟨j, hj, ?_, fun hw => ?_⟩
    · rw [hitAt, hit, h.it, Service.itAt_of_lt h.inside]
    · exact absurd (Bool.or_eq_false_iff.mp hw).2 (by simpa using hsame)

/-- The next call of the walk is sound. -/
theorem next (h : w.Standing x i) (hx : x.service.WellFormed) :
    x.queryServiceNext = .ok (x.service.entryAt (i+1), x.moveTo (i+1)) := by
  have hnext := ServiceTable.queryServiceNext_moveTo hx h.inside
  rwa [h.moveTo] at hnext

/-- The walk goes on at the next entry. -/
theorem advance (h : w.Standing x i) (hlt : i+1 < x.service.serviceMap.length) :
    Standing { w with returned := w.returned ++ [x.service.serviceMap[i+1].2] }
      (x.moveTo (i+1)) (i+1) := by
  refine ⟨hlt, rfl, fun hw => ?_⟩
  obtain ⟨hsame, hlen, hret⟩ := h.exact hw
  refine ⟨hsame, ?_, ?_⟩
  · dsimp only
    rw [List.length_append, List.length_singleton]
    omega
  · dsimp only
    have hget : (w.serviceMap.drop w.start)[w.returned.length]? =
        some x.service.serviceMap[i+1] := by
      rw [List.getElem?_drop, hlen, ← hsame]
      exact List.getElem?_eq_getElem hlt
    rw [List.length_append, List.length_singleton, List.take_add_one, hget, List.map_append,
      ← hret]
    rfl

/-- A walk that ends at the last entry is complete. -/
theorem last (h : w.Standing x i) (hx : x.service.WellFormed)
    (hlast : i+1 = x.service.serviceMap.length) (hw : w.overlapped = false) : w.Complete := by
  obtain ⟨hsame, hlen, hret⟩ := h.exact hw
  have hall : w.returned = (w.serviceMap.drop w.start).map Prod.snd := by
    have htake : (w.serviceMap.drop w.start).take w.returned.length =
        w.serviceMap.drop w.start := by
      apply List.take_of_length_le
      rw [List.length_drop, ← hsame]
      omega
    rwa [htake] at hret
  refine ⟨hall, ?_⟩
  rw [hall, ← hsame]
  exact hx.nodup.sublist ((List.drop_sublist _ _).map _)

end ServiceWalk.Standing

structure ServiceCallers.Inv (s : ServiceCallers) : Prop where
  registry : s.registry.Inv
  sound : s.Sound
  alone : ∀ c d, s.walks c ≠ none → s.walks d ≠ none → c = d
  standing : ∀ c w, s.walks c = some w → ∃ i, w.Standing s.registry.table i

namespace ServiceCallers

variable {s t : ServiceCallers} {c : ℕ}

/-- While nobody walks, a call has only to keep the registry. -/
theorem Inv.call_idle (h : s.Inv) {t : ServiceState} (ht : t.Inv) (hidle : ∀ c, s.walks c = none) :
    (s.setRegistry t).Inv := by
  have hnone (c : ℕ) : (s.setRegistry t).walks c = none := congrArg (Option.map _) (hidle c)
  refine ⟨ht, ⟨h.sound.safe, h.sound.complete⟩, fun c d hc => absurd (hnone c) hc, ?_⟩
  intro c w hw
  cases (hnone c).symm.trans hw

/-- A call that leaves the iterator and the entries alone disturbs no walk. -/
theorem Inv.call_other (h : s.Inv) {t : ServiceState} (ht : t.Inv)
    (hit : t.table.it = s.registry.table.it)
    (hmap : s.registry.service.serviceMap ⊆ t.service.serviceMap) : (s.setRegistry t).Inv := by
  refine ⟨ht, ⟨h.sound.safe, h.sound.complete⟩, fun c d hc hd => ?_, fun c w hw => ?_⟩
  · refine h.alone c d (fun hnone => hc ?_) fun hnone => hd ?_
    · exact congrArg (Option.map _) hnone
    · exact congrArg (Option.map _) hnone
  · obtain ⟨v, hv, rfl⟩ := Option.map_eq_some_iff.mp hw
    obtain ⟨i, hi⟩ := h.standing c v hv
    exact hi.other hit hmap

/-- The only walk is in the middle. -/
theorem Inv.walking (h : s.Inv) {table : ServiceTable} {w : ServiceWalk} {i : ℕ}
    (hservice : table.service = s.registry.service) (halone : ∀ d, d ≠ c → s.walks d = none)
    (hw : w.Standing table i) : ((s.setTable table).setWalk c (some w)).Inv := by
  have hother (d : ℕ) (hd : d ≠ c) : ((s.setTable table).setWalk c (some w)).walks d = none :=
    (setWalk_walks_of_ne _ hd _).trans (halone d hd)
  refine ⟨h.registry.same hservice fun _ => id, ⟨h.sound.safe, h.sound.complete⟩, ?_, ?_⟩
  · intro d d' hd hd'
    rw [not_imp_comm.mp (hother d) hd, not_imp_comm.mp (hother d') hd']
  · intro d w' hw'
    by_cases hd : d = c
    · rw [hd, setWalk_walks_self] at hw'
      obtain rfl := Option.some.inj hw'
      exact ⟨i, hw⟩
    · cases (hother d hd).symm.trans hw'

theorem Inv.begin (h : s.Inv) {name : Option Bytes} (hidle : ∀ c, s.walks c = none)
    (hstart : s.start name < s.registry.service.serviceMap.length) :
    ((s.setTable (s.registry.table.moveTo (s.start name))).setWalk c (some (s.walk name))).Inv := by
  have hget : s.registry.service.entryAt (s.start name) =
      some s.registry.service.serviceMap[s.start name].2 := Service.entryAt_of_lt hstart
  refine h.walking rfl (fun d _ => hidle d) ⟨hstart, rfl, fun _ => ⟨rfl, ?_, ?_⟩⟩
  · rw [walk, hget]
    rfl
  · rw [walk, hget]
    dsimp only [Option.toList_some, List.length_singleton]
    rw [List.drop_eq_getElem_cons hstart]
    rfl

/-- The operations that leave the iterator where it stands, and the entries. -/
theorem Inv.call (h : s.Inv) {op : ServiceOp} (hop : op ≠ .queryNext) {t : ServiceState}
    (hcall : ServiceCall s.registry op t) (hfine : CallerAction.Undisturbed s (.call c op)) :
    (s.setRegistry t).Inv := by
  have ht : t.Inv := h.registry.change (ServiceState.change_of_call h.registry hcall)
  obtain ⟨-, hok⟩ := hcall
  cases op with
  | updateNode key garbage =>
    obtain ⟨-, rfl⟩ := Prod.mk.inj (Except.ok.inj hok)
    exact h.call_other ht rfl fun _ => id
  | registerLocal name pNew =>
    obtain ⟨-, rfl⟩ := Prod.mk.inj (Except.ok.inj hok)
    refine h.call_other ht rfl fun e he => ?_
    by_cases hkey : s.registry.service.HasKey (cstr name)
    · change e ∈ (s.registry.service.registerLocalService (cstr name) pNew).serviceMap
      rwa [Service.registerLocalService_hasKey hkey]
    · change e ∈ (s.registry.service.registerLocalService (cstr name) pNew).serviceMap
      rw [Service.registerLocalService_new hkey]
      exact (Service.mem_insert_iff _ _ _ _).mpr (Or.inr he)
  | registerRemote k name fd pNew => exact h.call_idle ht hfine.1
  | unregisterRemote k name => exact h.call_idle ht hfine.1
  | queryFirst name =>
    rcases hfine with hidle | hit
    · exact h.call_idle ht hidle
    · obtain ⟨-, rfl⟩ := Prod.mk.inj (Except.ok.inj hok)
      exact h.call_other ht hit.symm fun _ => id
  | queryNext => exact absurd rfl hop

/-- An undisturbed call uses no bad iterator. -/
theorem Inv.call_ok (h : s.Inv) {op : ServiceOp} (hop : op ≠ .queryNext)
    (hready : op.Ready s.registry) (hfine : CallerAction.Undisturbed s (.call c op)) (e : Exn) :
    op.call s.registry ≠ .error e := by
  cases op with
  | updateNode key garbage => exact fun h => nomatch h
  | registerLocal name pNew => exact fun h => nomatch h
  | queryFirst name => exact fun h => nomatch h
  | queryNext => exact absurd rfl hop
  | registerRemote k name fd pNew =>
    intro herr
    rw [ServiceOp.call] at herr
    rcases ServiceTable.registerRemoteService_cases fd pNew h.registry.ordered hfine.2 hready.2 with
      ⟨-, i, heq⟩ | ⟨-, it, heq⟩
    · rw [heq] at herr
      cases herr
    · rw [heq] at herr
      cases herr
  | unregisterRemote k name =>
    intro herr
    rw [ServiceOp.call] at herr
    rcases ServiceTable.unregisterRemoteService_cases (k := k) h.registry.ordered hfine.2 with
      ⟨-, i, heq⟩ | ⟨-, j, e, it, -, -, -, -, heq⟩
    · rw [heq] at herr
      cases herr
    · rw [heq] at herr
      cases herr

theorem Inv.step (h : s.Inv) {a : CallerAction} (hstep : UndisturbedStep s a t) : t.Inv := by
  obtain ⟨hstep, hfine⟩ := hstep
  cases hstep with
  | call _ _ hop hcall => exact h.call hop hcall hfine
  | callFails _ _ hop hready herr => exact absurd herr (h.call_ok hop hready hfine _)
  | begin => exact h.begin hfine.1 hfine.2
  | @next c p w table _ hw hnext =>
    obtain ⟨i, hi⟩ := h.standing c w hw
    rw [hi.next h.registry.ordered.toWellFormed] at hnext
    obtain ⟨hentry, rfl⟩ := Prod.mk.inj (Except.ok.inj hnext)
    obtain ⟨e, he, rfl⟩ := Option.map_eq_some_iff.mp hentry
    obtain ⟨hlt, rfl⟩ := List.getElem?_eq_some_iff.mp he
    refine h.walking rfl (fun d hd => ?_) (hi.advance hlt)
    by_contra hne
    exact hd (h.alone d c hne (hw ▸ Option.some_ne_none w))
  | @last c w table _ hw hnext =>
    obtain ⟨i, hi⟩ := h.standing c w hw
    rw [hi.next h.registry.ordered.toWellFormed] at hnext
    obtain ⟨hentry, rfl⟩ := Prod.mk.inj (Except.ok.inj hnext)
    have hlast : i+1 = s.registry.table.service.serviceMap.length := by
      have hge := List.getElem?_eq_none_iff.mp (Option.map_eq_none_iff.mp hentry)
      have hlt := hi.inside
      omega
    have hidle (d : ℕ) : (s.setWalk c none).walks d = none := by
      by_cases hd : d = c
      · rw [hd, setWalk_walks_self]
      · rw [setWalk_walks_of_ne _ hd]
        by_contra hne
        exact hd (h.alone d c hne (hw ▸ Option.some_ne_none w))
    refine ⟨h.registry.same rfl fun _ => id, ⟨h.sound.safe, fun v hv hover => ?_⟩,
      fun d _ hd => absurd (hidle d) hd, fun d v hv => ?_⟩
    · rcases List.mem_cons.mp hv with rfl | hv
      · exact hi.last h.registry.ordered.toWellFormed hlast hover
      · exact h.sound.complete v hv hover
    · cases (hidle d).symm.trans hv
  | @nextFails c w e _ hw herr =>
    obtain ⟨i, hi⟩ := h.standing c w hw
    rw [hi.next h.registry.ordered.toWellFormed] at herr
    cases herr

/-- In every interleaving in which walks are not disturbed, no call uses a bad iterator, and every
walk that overlaps no modification is complete. -/
theorem walks_sound {nodes : Nodes} {actions : List CallerAction}
    (hrun : Run UndisturbedStep { registry := { nodes } } actions s) : s.Sound := by
  have hinit : Inv { registry := { nodes } } := by
    refine ⟨ServiceState.Inv.initial nodes, ⟨rfl, ?_⟩, fun c d h => absurd rfl h, ?_⟩
    · exact fun w hw => absurd hw List.not_mem_nil
    · exact fun c w hw => nomatch hw
  exact (hrun.invariant (fun _ _ _ hi hstep => hi.step hstep) hinit).sound

/-- Nobody walks, and the map has one entry. -/
def oneEntry : ServiceCallers :=
  setRegistry { registry := {} }
    { table := ({} : ServiceTable).registerLocalService (cstr [65]) 0 }

/-- The caller `c` begins to walk. -/
def begun (s : ServiceCallers) (c : ℕ) : ServiceCallers :=
  (s.setTable (s.registry.table.moveTo 0)).setWalk c (some (s.walk none))

/-- The caller `c` is at the end. -/
def walked (s : ServiceCallers) (c : ℕ) : ServiceCallers :=
  { (s.setTable (s.registry.table.moveTo 1)).setWalk c none with
    ended := oneEntry.walk none :: s.ended }

theorem oneEntry_step : CallerStep { registry := {} } (.call 0 (.registerLocal [65] 0)) oneEntry :=
  .call rfl rfl (fun h => nomatch h) (.returns rfl rfl)

theorem begun_step (c : ℕ) : CallerStep oneEntry (.begin c none) (oneEntry.begun c) :=
  .begin rfl rfl

theorem walks_sound_of_one : ∃ actions s,
    Run UndisturbedStep { registry := { nodes := fun _ => none } } actions s ∧ s.Sound ∧
      s.ended ≠ [] := by
  have hrun : Run UndisturbedStep { registry := { nodes := fun _ => none } }
      ([] ++ [.call 0 (.registerLocal [65] 0)] ++ [.begin 0 none] ++ [.next 0])
      ((oneEntry.begun 0).walked 0) := by
    refine .snoc (.snoc (.snoc .nil ⟨oneEntry_step, trivial⟩)
      ⟨begun_step 0, fun _ => rfl, by decide⟩) ⟨?_, trivial⟩
    exact .last (w := oneEntry.walk none) rfl rfl rfl
  exact ⟨_, _, hrun, walks_sound hrun, List.cons_ne_nil _ _⟩

/-- Two callers walk at once, and the second advances the iterator that the first left at the
end. -/
theorem walks_of_two : ∃ actions s,
    Run CallerStep { registry := { nodes := fun _ => none } } actions s ∧ ¬ s.Sound := by
  have hsecond : CallerStep (oneEntry.begun 0) (.begin 1 none) ((oneEntry.begun 0).begun 1) :=
    .begin rfl rfl
  have hlast : CallerStep ((oneEntry.begun 0).begun 1) (.next 0)
      (((oneEntry.begun 0).begun 1).walked 0) := .last (w := oneEntry.walk none) rfl rfl rfl
  have hfails : CallerStep (((oneEntry.begun 0).begun 1).walked 0) (.next 1)
      { ((oneEntry.begun 0).begun 1).walked 0 with failed := true } :=
    .nextFails (w := oneEntry.walk none) (e := .undefined) rfl rfl rfl
  have hrun := ((((Run.nil.snoc oneEntry_step).snoc (begun_step 0)).snoc hsecond).snoc hlast).snoc
    hfails
  exact ⟨_, _, hrun, fun hs => Bool.noConfusion hs.safe⟩

end ServiceCallers

end MsgCourier
