import MsgCourier.HttpReply
import MsgCourier.Leases
import MsgCourier.PeerList
import MsgCourier.PresenceIdentity
import MsgCourier.SortedMap

/-! Which nodes are away, and the report of the nodes that scripts ask for. -/
namespace MsgCourier
open ListSearch CText Leases

/-- A node with the time of its last announcement. -/
structure NodeRecord where
  node : NodeEntry
  lastConnect : ℤ

/-- `m_PresenceMap`, in the order of its keys. -/
abbrev PresenceMap := SortedMap Bytes NodeRecord (· < ·)

/-- `PRESENCE_TIMOUT`. -/
def presenceTimeout : ℤ := 60

/-- The test of `DoUpdateNode`, on numbers of 32 bits. -/
def timedOut (lastConnect currentTime : ℤ) : Bool :=
  int32 (lastConnect+presenceTimeout) < currentTime

namespace PresenceMap

/-- The map as `UpdateNode` leaves it: the time of a new entry is set twice, and the last
one stays. -/
def updated (m : PresenceMap) (u : NodeUpdate) (now : ℤ) : PresenceMap :=
  let machineEntry : NodeRecord :=
    match m.lookup u.key with
    | none => { node := u.newEntry, lastConnect := int32 now }
    | some r => { r with node := { r.node with status := u.status } }
  m.insert u.key { machineEntry with lastConnect := int32 now }

/-- A node that is not found is logged first. -/
def updateNode (m : PresenceMap) (log : Log) (u : NodeUpdate) (now : ℤ) :
    Cxx (Bytes × PresenceMap) :=
  match m.lookup u.key with
  | none => do
    log.log u.logLine
    pure (u.key, m.updated u now)
  | some _ => pure (u.key, m.updated u now)

def doUpdateNode (m : PresenceMap) (now : ℤ) : PresenceMap :=
  let currentTime := int32 now
  m.mapValues fun r =>
    if timedOut r.lastConnect currentTime then { r with node := { r.node with status := .away } }
    else r

/-- The entries without their times. -/
def nodes (m : PresenceMap) : Presence := fun key => (m.lookup key).map NodeRecord.node

theorem nodes_updated (m : PresenceMap) (u : NodeUpdate) (now : ℤ) :
    (m.updated u now).nodes = m.nodes.updated u := by
  funext key
  by_cases hkey : key = u.key
  · subst hkey
    have hfound : m.nodes u.key = (m.lookup u.key).map NodeRecord.node := rfl
    unfold Presence.updated
    rw [Function.update_self, hfound]
    unfold nodes updated
    rw [SortedMap.lookup_insert_self]
    cases m.lookup u.key <;> rfl
  · rw [m.nodes.updated_of_ne u hkey]
    unfold nodes updated
    rw [SortedMap.lookup_insert_of_ne _ hkey]

/-- Without the times it is the call of the map of nodes. -/
theorem nodes_updateNode (m : PresenceMap) (log : Log) (u : NodeUpdate) (now : ℤ) :
    (m.updateNode log u now).map (fun r => (r.1, r.2.nodes)) = m.nodes.updateNode log u := by
  have hfound : m.nodes u.key = (m.lookup u.key).map NodeRecord.node := rfl
  have hnodes := m.nodes_updated u now
  unfold updateNode Presence.updateNode
  unfold Presence.updated at hnodes
  rw [hfound] at hnodes ⊢
  cases hl : m.lookup u.key with
  | some r =>
    rw [hl] at hnodes
    exact congrArg (fun p => Except.ok (u.key, p)) hnodes
  | none =>
    rw [hl] at hnodes
    dsimp only [Option.map_none]
    cases log.log u.logLine with
    | error e => rfl
    | ok _ => exact congrArg (fun p => Except.ok (u.key, p)) hnodes

end PresenceMap

/-! ### Runs -/

/-- A call, with the time it reads. -/
inductive PresenceCall
  | updateNode (u : NodeUpdate) (now : ℤ)
  | doUpdateNode (now : ℤ)

namespace PresenceCall

def event : PresenceCall → Event Bytes NodeUpdate ℤ
  | updateNode u now => .renew u.key u (int32 now)
  | doUpdateNode now => .sweep (int32 now)

def run (log : Log) (m : PresenceMap) : PresenceCall → Cxx PresenceMap
  | updateNode u now => do
    let (_, m) ← m.updateNode log u now
    pure m
  | doUpdateNode now => pure (m.doUpdateNode now)

/-- What a call that returns leaves. -/
def apply (m : PresenceMap) : PresenceCall → PresenceMap
  | updateNode u now => m.updated u now
  | doUpdateNode now => m.doUpdateNode now

theorem run_inv {log : Log} {m m' : PresenceMap} {call : PresenceCall}
    (h : call.run log m = .ok m') : m' = call.apply m := by
  cases call with
  | updateNode u now =>
    obtain ⟨r, hr, hret⟩ := bind_eq_ok.mp h
    obtain rfl := Except.ok.inj hret
    unfold PresenceMap.updateNode at hr
    cases hfound : m.lookup u.key with
    | none =>
      rw [hfound] at hr
      obtain ⟨_, _, hr⟩ := bind_eq_ok.mp hr
      exact congrArg Prod.snd (Except.ok.inj hr).symm
    | some r' =>
      rw [hfound] at hr
      exact congrArg Prod.snd (Except.ok.inj hr).symm
  | doUpdateNode now => exact (Except.ok.inj h).symm

end PresenceCall

namespace PresenceMap

/-- The map behind any calls. -/
def runCalls (log : Log) (calls : List PresenceCall) : Cxx PresenceMap :=
  calls.foldlM (PresenceCall.run log) {}

/-- What calls that return leave. -/
def afterCalls (calls : List PresenceCall) : PresenceMap := calls.foldl PresenceCall.apply {}

theorem runCalls_inv {log : Log} {calls : List PresenceCall} {m : PresenceMap}
    (h : runCalls log calls = .ok m) : m = afterCalls calls := by
  induction calls using List.reverseRecOn generalizing m with
  | nil => exact (Except.ok.inj h).symm
  | append_singleton calls call ih =>
    unfold runCalls at h
    rw [List.foldlM_append] at h
    obtain ⟨m', hm', h⟩ := bind_eq_ok.mp h
    rw [List.foldlM_cons] at h
    obtain ⟨m'', hcall, h⟩ := bind_eq_ok.mp h
    obtain rfl := Except.ok.inj h
    rw [PresenceCall.run_inv hcall, ih hm', afterCalls, afterCalls, List.foldl_append]
    rfl

/-- What the first announcement of a node put in, with the status and the time of the last one, or
away since then. -/
def recordOf (l : Lease NodeUpdate ℤ) : NodeRecord where
  node := { l.first.newEntry with status := if l.lapsed then .away else l.value.status }
  lastConnect := l.since

/-- One call does to an entry what its event does to the lease. -/
theorem lookup_apply {m : PresenceMap} {key : Bytes} {l : Option (Lease NodeUpdate ℤ)}
    (h : m.lookup key = l.map recordOf) (call : PresenceCall) :
    (call.apply m).lookup key = (step timedOut key l call.event).map recordOf := by
  cases call with
  | updateNode u now =>
    unfold PresenceCall.apply PresenceCall.event step updated
    dsimp only
    by_cases hkey : u.key = key
    · subst hkey
      rw [SortedMap.lookup_insert_self, if_pos rfl, h]
      cases l <;> rfl
    · rw [SortedMap.lookup_insert_of_ne _ (Ne.symm hkey), if_neg hkey, h]
  | doUpdateNode now =>
    change (m.mapValues _).lookup key = _
    rw [SortedMap.lookup_mapValues, h]
    cases l with
    | none => rfl
    | some l =>
      refine congrArg some ?_
      change (if timedOut l.since (int32 now) = true then _ else _) = _
      cases hlate : timedOut l.since (int32 now)
      · rw [if_neg Bool.false_ne_true]
        simp [recordOf, hlate]
      · rw [if_pos rfl]
        simp [recordOf, hlate]

theorem lookup_afterCalls (calls : List PresenceCall) (key : Bytes) :
    (afterCalls calls).lookup key =
      (lease timedOut key (calls.map PresenceCall.event)).map recordOf := by
  induction calls using List.reverseRecOn with
  | nil => rfl
  | append_singleton calls call ih =>
    rw [List.map_append, List.map_singleton, lease_concat, ← lookup_apply ih call, afterCalls,
      List.foldl_append]
    rfl

theorem lookup_afterCalls_iff (calls : List PresenceCall) (key : Bytes) (r : NodeRecord) :
    (afterCalls calls).lookup key = some r ↔
      ∃ l, Holds timedOut key (calls.map PresenceCall.event) l ∧ recordOf l = r := by
  rw [lookup_afterCalls, Option.map_eq_some_iff]
  simp only [lease_eq_some_iff]

/-- In every run, an entry shows a node as its announcements left it: the fields of the first one,
the status and the time of the last one, and away instead exactly if a later sweep found that time
too old. -/
theorem lookup_iff_holds {log : Log} {calls : List PresenceCall} {m : PresenceMap}
    (hrun : runCalls log calls = .ok m) (key : Bytes) (r : NodeRecord) :
    m.lookup key = some r ↔
      ∃ l, Holds timedOut key (calls.map PresenceCall.event) l ∧ recordOf l = r := by
  rw [runCalls_inv hrun]
  exact lookup_afterCalls_iff calls key r

/-- Two nodes announce themselves, and one of them again. -/
def relayUpdate : NodeUpdate where
  ipAddress := bytes "10.0.0.2"
  machineName := bytes "relay"
  macAddress := bytes "0C"
  services := bytes "MC"
  status := .active
  garbage := 0

def storeUpdate : NodeUpdate where
  ipAddress := bytes "10.0.0.3"
  machineName := bytes "store"
  macAddress := bytes "0D"
  services := bytes "MC"
  status := .busy
  garbage := 0

def sweptCalls : List PresenceCall :=
  [.updateNode relayUpdate 0, .updateNode storeUpdate 10, .doUpdateNode 65,
    .updateNode storeUpdate 80, .doUpdateNode 130]

/-- The first node was silent for more than a minute. -/
theorem lookup_iff_holds_swept : ∃ l,
    Holds timedOut relayUpdate.key (sweptCalls.map PresenceCall.event) l ∧
      recordOf l = ⟨{ relayUpdate.newEntry with status := .away }, 0⟩ :=
  (@lookup_iff_holds {} sweptCalls _ rfl relayUpdate.key
    ⟨{ relayUpdate.newEntry with status := .away }, 0⟩).mp rfl

end PresenceMap

/-! ### Who is listed as a peer -/

/-- The node said last that it is active, and no sweep since found this too old. -/
def Fresh (calls : List PresenceCall) (key : Bytes) : Prop :=
  ∃ before u now after, calls = before ++ .updateNode u now :: after ∧ u.key = key ∧
    u.status = .active ∧ (∀ v t, .updateNode v t ∈ after → v.key ≠ key) ∧
    ∀ t, .doUpdateNode t ∈ after → timedOut (int32 now) (int32 t) = false

theorem silent_map_event {calls : List PresenceCall} {key : Bytes} :
    Silent key (calls.map PresenceCall.event) ↔
      ∀ v t, .updateNode v t ∈ calls → v.key ≠ key := by
  unfold Silent
  rw [List.forall_mem_map]
  constructor
  · exact fun h v t hmem => h (.updateNode v t) hmem
  · intro h call hmem
    cases call with
    | updateNode v t => exact h v t hmem
    | doUpdateNode t => exact id

theorem swept_map_event {calls : List PresenceCall} {since : ℤ} :
    Swept timedOut since (calls.map PresenceCall.event) ↔
      ∃ t, .doUpdateNode t ∈ calls ∧ timedOut since (int32 t) = true := by
  constructor
  · rintro ⟨now, hmem, hold⟩
    obtain ⟨call, hcall, hevent⟩ := List.mem_map.mp hmem
    cases call with
    | updateNode u t => cases hevent
    | doUpdateNode t =>
      injection hevent with hnow
      exact ⟨t, hcall, hnow ▸ hold⟩
  · exact fun ⟨t, hmem, hold⟩ => ⟨int32 t, List.mem_map_of_mem hmem, hold⟩

/-- The calls around the one that an event stands for. -/
theorem exists_call_of_renew {calls : List PresenceCall} {key : Bytes} {u : NodeUpdate} {now : ℤ}
    {before after : List (Event Bytes NodeUpdate ℤ)}
    (h : calls.map PresenceCall.event = before ++ .renew key u now :: after) :
    ∃ before' t after', calls = before' ++ .updateNode u t :: after' ∧ u.key = key ∧
      int32 t = now ∧ before'.map PresenceCall.event = before ∧
      after'.map PresenceCall.event = after := by
  obtain ⟨before', rest, rfl, hbefore, hrest⟩ := List.map_eq_append_iff.mp h
  obtain ⟨call, after', rfl, hcall, hafter⟩ := List.map_eq_cons_iff.mp hrest
  cases call with
  | updateNode v t =>
    injection hcall with hkey hu hnow
    subst hu
    exact ⟨before', t, after', rfl, hkey, hnow, hbefore, hafter⟩
  | doUpdateNode t => cases hcall

namespace PresenceMap

theorem active_iff_fresh (calls : List PresenceCall) (key : Bytes) :
    (∃ n, (afterCalls calls).nodes key = some n ∧ n.status = .active) ↔ Fresh calls key := by
  unfold nodes
  constructor
  · rintro ⟨n, hn, hactive⟩
    obtain ⟨r, hr, rfl⟩ := Option.map_eq_some_iff.mp hn
    obtain ⟨l, hl, rfl⟩ := (lookup_afterCalls_iff calls key r).mp hr
    obtain ⟨before, after, heq, hsilent, hlapsed⟩ := hl.last
    obtain ⟨before', t, after', hcalls, hkey, hnow, -, rfl⟩ := exists_call_of_renew heq
    have hnot : l.lapsed = false := by
      cases hflag : l.lapsed with
      | false => rfl
      | true => simp [recordOf, hflag] at hactive
    refine ⟨before', l.value, t, after', hcalls, hkey, ?_, silent_map_event.mp hsilent, ?_⟩
    · simpa [recordOf, hnot] using hactive
    · intro t' hmem
      rw [hnow]
      by_contra hold
      have hswept : Swept timedOut l.since (after'.map PresenceCall.event) :=
        swept_map_event.mpr ⟨t', hmem, by simpa using hold⟩
      rw [hlapsed.mpr hswept] at hnot
      cases hnot
  · rintro ⟨before, u, now, after, rfl, hkey, hactive, hsilent, hkept⟩
    have hevents : (before ++ .updateNode u now :: after).map PresenceCall.event =
        before.map PresenceCall.event ++
          .renew key u (int32 now) :: after.map PresenceCall.event := by
      rw [List.map_append, List.map_cons, ← hkey]
      rfl
    obtain ⟨l, hl, hvalue, -, hlapsed⟩ :=
      exists_lease_of_last hevents (silent_map_event.mpr hsilent)
    have hnot : l.lapsed = false := by
      rw [← Bool.not_eq_true, hlapsed, swept_map_event]
      rintro ⟨t, hmem, hold⟩
      rw [hkept t hmem] at hold
      cases hold
    refine ⟨(recordOf l).node, by rw [lookup_afterCalls, hl]; rfl, ?_⟩
    simp [recordOf, hnot, hvalue, hactive]

end PresenceMap

namespace PeerRegistry

variable (s : PeerRegistry) {subject : Bytes}

/-- The loop returns a list only from remote entries. -/
theorem peerList_ok {sList : Bytes} {x : ServiceTable}
    (h : s.peerList subject = .ok (sList, x)) :
    s.service.HasKey (cstr subject) ∧ (∀ e ∈ s.visited subject, (s.pairOf e).2 ≠ none) ∧
      sList = ((s.visited subject).map s.pairOf).flatMap s.peerLine := by
  by_cases hkey : s.service.HasKey (cstr subject)
  · have hmap : ∀ e ∈ s.visited subject, e ∈ s.service.serviceMap :=
      fun e he => ((s.mem_visited hkey e).mp he).1
    rw [s.peerList_eq hkey] at h
    by_cases hremote : ∀ e ∈ s.visited subject, (s.pairOf e).2 ≠ none
    · rw [s.foldl_remote hmap hremote, ok_bind, List.nil_append] at h
      exact ⟨hkey, hremote, (Prod.mk.inj (Except.ok.inj h)).1.symm⟩
    · push Not at hremote
      obtain ⟨e, he, hlocal⟩ := hremote
      rw [s.foldl_local hmap he hlocal, error_bind] at h
      cases h
  · rw [s.peerList_absent hkey] at h
    cases h

/-- The nodes of the pairs that are active. -/
def activeNodes (l : List (Bytes × Option Bytes)) : List Bytes :=
  (l.filterMap Prod.snd).filter fun key => (s.presence key).any fun n => n.status = .active

def addressLine (key : Bytes) : Bytes :=
  (s.presence key).elim [] fun n => cstr n.ipAddress ++ bytes ":3400\n"

theorem flatMap_peerLine (l : List (Bytes × Option Bytes)) :
    l.flatMap s.peerLine = (s.activeNodes l).flatMap s.addressLine := by
  induction l with
  | nil => rfl
  | cons p l ih =>
    rw [List.flatMap_cons, ih]
    unfold activeNodes peerLine
    cases hp : p.2 with
    | none => rw [List.filterMap_cons_none hp, Option.bind_none, List.nil_append]
    | some key =>
      rw [List.filterMap_cons_some hp, Option.bind_some, List.filter_cons]
      cases hnode : s.presence key with
      | none => rfl
      | some n =>
        by_cases hactive : n.status = .active
        · simp [hactive, addressLine, hnode]
        · simp [hactive]

/-- In every run, the answer to `PEER.LIST` has the addresses of the fresh nodes that are registered
for the service or a larger name, and no others. -/
theorem peerList_run {log : Log} {calls : List PresenceCall} {m : PresenceMap}
    (hrun : PresenceMap.runCalls log calls = .ok m) (hpresence : s.presence = m.nodes)
    {sList : Bytes} {x : ServiceTable} (hok : s.peerList subject = .ok (sList, x)) :
    ∃ keys : List Bytes, keys.Sublist (s.service.pairs.filterMap Prod.snd) ∧
      (∀ key, key ∈ keys ↔ Fresh calls key ∧
        ∃ name, (name, some key) ∈ s.service.pairs ∧ ¬ name < cstr subject) ∧
      sList = keys.flatMap s.addressLine := by
  obtain ⟨hkey, -, hlist⟩ := s.peerList_ok hok
  refine ⟨s.activeNodes ((s.visited subject).map s.pairOf), ?_, fun key => ?_,
    hlist.trans (s.flatMap_peerLine _)⟩
  · have hpart : ((s.visited subject).map s.pairOf).Sublist s.service.pairs :=
      (List.drop_sublist _ _).map s.pairOf
    exact List.filter_sublist.trans (hpart.filterMap Prod.snd)
  · have hfresh : (s.presence key).any (fun n => n.status = .active) = true ↔ Fresh calls key := by
      rw [← PresenceMap.active_iff_fresh, ← PresenceMap.runCalls_inv hrun, ← hpresence]
      cases s.presence key with
      | none => simp
      | some n => simp
    unfold activeNodes
    rw [List.mem_filter, hfresh, List.mem_filterMap, and_comm, and_congr_right_iff]
    refine fun _ => ⟨?_, ?_⟩
    · rintro ⟨p, hp, hnode⟩
      obtain ⟨e, he, rfl⟩ := List.mem_map.mp hp
      obtain ⟨hmem, hle⟩ := (s.mem_visited hkey e).mp he
      refine ⟨e.1, ?_, hle⟩
      rw [← hnode]
      exact List.mem_map_of_mem hmem
    · rintro ⟨name, hpair, hle⟩
      obtain ⟨e, hmem, heq⟩ := List.mem_map.mp hpair
      injection heq with hname hnode
      have he := (s.mem_visited hkey e).mpr ⟨hmem, hname ▸ hle⟩
      exact ⟨s.pairOf e, List.mem_map_of_mem he, hnode⟩

/-- A node announces a service, and is swept before its time is over. -/
def relayCalls : List PresenceCall := [.updateNode PresenceMap.relayUpdate 0, .doUpdateNode 30]

theorem relayCalls_run :
    PresenceMap.runCalls {} relayCalls = .ok (PresenceMap.afterCalls relayCalls) := rfl

def relayTable : ServiceTable where
  service :=
    { serviceMap := [(bytes "MC", 0)]
      entries :=
          Function.update (fun _ => none) 0 (some ⟨bytes "MC", some PresenceMap.relayUpdate.key⟩) }

theorem relayTable_inv : ServiceState.Inv
    ⟨relayTable, (PresenceMap.afterCalls relayCalls).nodes.sockets⟩ where
  ordered :=
    { nodup := List.nodup_singleton 0
      named := by
        intro e he
        cases List.mem_singleton.mp he
        exact ⟨_, rfl, rfl⟩
      sorted := List.pairwise_singleton _ _
      plain := by
        intro e he
        cases List.mem_singleton.mp he
        decide }
  nodup := List.nodup_singleton _
  known := by
    intro name key hmem
    cases List.mem_singleton.mp hmem
    rfl
  owned := by
    intro a ha
    by_contra hnot
    have hne : a ≠ 0 := fun h => hnot (List.mem_singleton.mpr h)
    have hnone : relayTable.service.entries a = none := by simp [relayTable, hne]
    exact ha hnone

def relayRegistry : PeerRegistry where
  table := relayTable
  presence := (PresenceMap.afterCalls relayCalls).nodes
  inv := relayTable_inv

theorem peerList_relayRun : ∃ keys : List Bytes,
    keys.Sublist (relayRegistry.service.pairs.filterMap Prod.snd) ∧
    (∀ key, key ∈ keys ↔ Fresh relayCalls key ∧
      ∃ name, (name, some key) ∈ relayRegistry.service.pairs ∧ ¬ name < cstr (bytes "MC")) ∧
    bytes "10.0.0.2:3400\n" = keys.flatMap relayRegistry.addressLine :=
  relayRegistry.peerList_run relayCalls_run rfl (x := relayTable.moveTo 1) rfl

end PeerRegistry

/-! ### The report -/

def weekdays : List Bytes :=
  [bytes "Sun", bytes "Mon", bytes "Tue", bytes "Wed", bytes "Thu", bytes "Fri", bytes "Sat"]

def months : List Bytes :=
  [bytes "Jan", bytes "Feb", bytes "Mar", bytes "Apr", bytes "May", bytes "Jun", bytes "Jul",
    bytes "Aug", bytes "Sep", bytes "Oct", bytes "Nov", bytes "Dec"]

/-- `%3d`. -/
def paddedInt3 (z : ℤ) : Bytes := List.replicate (3-(formatInt z).length) 32 ++ formatInt z

/-- `asctime`, with its end of line. -/
def asctime (t : CalendarTime) : Bytes :=
  tableName weekdays t.wday ++ bytes " " ++ tableName months t.mon ++ paddedInt3 t.mday ++
    bytes " " ++ formatInt2 t.hour ++ bytes ":" ++ formatInt2 t.min ++ bytes ":" ++
    formatInt2 t.sec ++ bytes " " ++ formatInt (int32 (1900+t.year)) ++ bytes "\n"

section Report

variable (localtime : ℤ → CalendarTime) (hostName : Bytes)

/-- One round of the loop of `GetPresenceData`, on `m_PresenceDataBuffer` and `message`. -/
def presenceStep (st : Bytes × Bytes) (pEntry : NodeRecord) : Bytes × Bytes :=
  if pEntry.node.machineName = hostName then st
  else
    let (data, message) :=
      match pEntry.node.status with
      | .away => (st.1 ++ bytes "w|", bytes "Node is currently away")
      | .active => (st.1 ++ bytes "a|", bytes "Node is currently active")
      | .busy => (st.1 ++ bytes "b|", bytes "Node is currently busy")
      -- the message of the node before it is kept
      | .notSet => st
    let message := message ++ bytes ". Services: " ++ pEntry.node.services
    let data := (data ++ asctime (localtime pEntry.lastConnect)).dropLast
    let data := data ++ bytes "|" ++ pEntry.node.machineName ++ bytes "|" ++
      pEntry.node.ipAddress ++ bytes "|" ++ message ++ bytes "~"
    (data, message)

def getPresenceData (m : PresenceMap) : Bytes :=
  (m.entries.foldl (fun st it => presenceStep localtime hostName st it.2) ([], [])).1

/-! ### What the report is for -/

/-- A report is a string with a `~` behind each record, and `|` between the fields of one. -/
def readReport (report : Bytes) : List (List Bytes) :=
  ((cstr report).splitOn 126).dropLast.map (List.splitOn 124)

def statusLetter : PresenceStatus → Bytes
  | .notSet => []
  | .away => bytes "w"
  | .active => bytes "a"
  | .busy => bytes "b"

def statusText : PresenceStatus → Bytes
  | .notSet => []
  | .away => bytes "Node is currently away"
  | .active => bytes "Node is currently active"
  | .busy => bytes "Node is currently busy"

/-- The letter of the status, the time without its end of line, the name, the address and the
message. -/
def reportFields (r : NodeRecord) : List Bytes :=
  [statusLetter r.node.status, (asctime (localtime r.lastConnect)).dropLast, r.node.machineName,
    r.node.ipAddress, statusText r.node.status ++ bytes ". Services: " ++ r.node.services]

/-- The nodes but the one with the name of the host. -/
def otherNodes (m : PresenceMap) : List NodeRecord :=
  (m.entries.map Prod.snd).filter fun r => r.node.machineName ≠ hostName

end Report

/-- A text that a field can carry. -/
def ReportField (s : Bytes) : Prop := 124 ∉ s ∧ 126 ∉ s ∧ 0 ∉ s

instance (s : Bytes) : Decidable (ReportField s) := inferInstanceAs (Decidable (_ ∧ _))

/-- An announcement that gives a status, in texts without separators. -/
structure NodeUpdate.Reportable (u : NodeUpdate) : Prop where
  status : u.status ≠ .notSet
  machineName : ReportField (cstr u.machineName)
  ipAddress : ReportField (cstr u.ipAddress)
  services : ReportField (cstr u.services)

/-! ### Texts without separators -/

namespace ReportField

theorem append {s t : Bytes} (hs : ReportField s) (ht : ReportField t) : ReportField (s ++ t) :=
  ⟨List.not_mem_append hs.1 ht.1, List.not_mem_append hs.2.1 ht.2.1,
    List.not_mem_append hs.2.2 ht.2.2⟩

theorem dropLast {s : Bytes} (hs : ReportField s) : ReportField s.dropLast :=
  ⟨fun h => hs.1 (List.mem_of_mem_dropLast h), fun h => hs.2.1 (List.mem_of_mem_dropLast h),
    fun h => hs.2.2 (List.mem_of_mem_dropLast h)⟩

theorem of_chars {s : Bytes} (h : ∀ c ∈ s, c = 32 ∨ c = 45 ∨ isDigit c = true) : ReportField s := by
  refine ⟨fun hc => ?_, fun hc => ?_, fun hc => ?_⟩
  all_goals
    rcases h _ hc with hc | hc | hc
    · exact absurd hc (by decide)
    · exact absurd hc (by decide)
    · exact absurd hc (by decide)

theorem formatInt2 (z : ℤ) : ReportField (formatInt2 z) :=
  of_chars fun _ hc => .inr (mem_formatInt2 hc)

theorem formatInt (z : ℤ) : ReportField (formatInt z) :=
  of_chars fun _ hc => .inr (mem_formatInt hc)

theorem paddedInt3 (z : ℤ) : ReportField (paddedInt3 z) :=
  append (of_chars fun _ hc => .inl (List.eq_of_mem_replicate hc)) (formatInt z)

theorem tableName {names : List Bytes} (hnames : ∀ name ∈ names, ReportField name) (k : ℤ) :
    ReportField (tableName names k) := by
  unfold MsgCourier.tableName
  have hnil : ReportField [] := by decide
  split_ifs
  · exact hnil
  · cases hget : names[k.toNat]? with
    | none => exact hnil
    | some name => exact hnames name (List.mem_of_getElem? hget)

theorem asctime (t : CalendarTime) : ReportField (asctime t) := by
  have hblank : ReportField (bytes " ") := by decide
  have hcolon : ReportField (bytes ":") := by decide
  have hweekdays : ∀ name ∈ weekdays, ReportField name := by decide
  have hmonths : ∀ name ∈ months, ReportField name := by decide
  have hday := (tableName hweekdays t.wday).append hblank
  have hmonth := hday.append (tableName hmonths t.mon)
  have hmday := (hmonth.append (paddedInt3 t.mday)).append hblank
  have hhour := (hmday.append (formatInt2 t.hour)).append hcolon
  have hmin := (hhour.append (formatInt2 t.min)).append hcolon
  have hsec := (hmin.append (formatInt2 t.sec)).append hblank
  exact (hsec.append (formatInt _)).append (by decide)

end ReportField

/-! ### From the loop to the records -/

section Report

variable {localtime : ℤ → CalendarTime} {hostName : Bytes}

/-- A record of the report. -/
def reportLine (localtime : ℤ → CalendarTime) (r : NodeRecord) : Bytes :=
  [124].intercalate (reportFields localtime r)

theorem presenceStep_fst {st : Bytes × Bytes} {r : NodeRecord} (h : r.node.status ≠ .notSet)
    (hname : r.node.machineName ≠ hostName) :
    (presenceStep localtime hostName st r).1 = st.1 ++ (reportLine localtime r ++ [126]) := by
  have htime (data : Bytes) : (data ++ asctime (localtime r.lastConnect)).dropLast =
      data ++ (asctime (localtime r.lastConnect)).dropLast :=
    List.dropLast_append_of_ne_nil (List.append_ne_nil_of_right_ne_nil _ (by decide))
  have hfst : (presenceStep localtime hostName st r).1 =
      (st.1 ++ (statusLetter r.node.status ++ bytes "|") ++
          asctime (localtime r.lastConnect)).dropLast ++ bytes "|" ++ r.node.machineName ++
        bytes "|" ++ r.node.ipAddress ++ bytes "|" ++
        (statusText r.node.status ++ bytes ". Services: " ++ r.node.services) ++ bytes "~" := by
    unfold presenceStep
    rw [if_neg hname]
    cases hstatus : r.node.status with
    | notSet => exact absurd hstatus h
    | away => rfl
    | active => rfl
    | busy => rfl
  have hbar : bytes "|" = [124] := rfl
  have hend : bytes "~" = [126] := rfl
  rw [hfst, htime, hbar, hend]
  simp [reportLine, reportFields]

/-- The loop over nodes with a status puts one record behind the other. -/
theorem foldl_presenceStep {l : List (Bytes × NodeRecord)}
    (h : ∀ e ∈ l, e.2.node.status ≠ .notSet) (st : Bytes × Bytes) :
    (l.foldl (fun st it => presenceStep localtime hostName st it.2) st).1 =
      st.1 ++ ((l.map Prod.snd).filter fun r => r.node.machineName ≠ hostName).flatMap
        fun r => reportLine localtime r ++ [126] := by
  induction l generalizing st with
  | nil => exact (List.append_nil _).symm
  | cons e l ih =>
    obtain ⟨he, hl⟩ := List.forall_mem_cons.mp h
    rw [List.foldl_cons, ih hl, List.map_cons]
    by_cases hname : e.2.node.machineName = hostName
    · rw [presenceStep, if_pos hname, List.filter_cons_of_neg (by simpa using hname)]
    · rw [presenceStep_fst he hname, List.filter_cons_of_pos (by simpa using hname),
        List.flatMap_cons, List.append_assoc]

/-- A record that a reader can take apart. -/
structure NodeRecord.Reportable (r : NodeRecord) : Prop where
  status : r.node.status ≠ .notSet
  machineName : ReportField r.node.machineName
  ipAddress : ReportField r.node.ipAddress
  services : ReportField r.node.services

theorem NodeRecord.Reportable.fields {r : NodeRecord} (h : r.Reportable) :
    ∀ s ∈ reportFields localtime r, ReportField s := by
  have hletter : ∀ status : PresenceStatus, ReportField (statusLetter status) := by
    intro status
    cases status <;> decide
  have htext : ∀ status : PresenceStatus, ReportField (statusText status) := by
    intro status
    cases status <;> decide
  have hlabel : ReportField (bytes ". Services: ") := by decide
  have hmessage := ((htext r.node.status).append hlabel).append h.services
  have htime := (ReportField.asctime (localtime r.lastConnect)).dropLast
  unfold reportFields
  simp only [List.forall_mem_cons]
  exact ⟨hletter _, htime, h.machineName, h.ipAddress, hmessage,
    fun _ h => absurd h List.not_mem_nil⟩

theorem mem_intercalate {sep c : Byte} {l : List Bytes} (h : c ∈ [sep].intercalate l) :
    c = sep ∨ ∃ s ∈ l, c ∈ s := by
  induction l with
  | nil => cases h
  | cons s l ih =>
    cases l with
    | nil => exact .inr ⟨s, List.mem_cons_self, by simpa using h⟩
    | cons s' l =>
      rw [List.intercalate_cons_cons, List.mem_append, List.mem_append, List.mem_singleton] at h
      rcases h with (h | h) | h
      · exact .inr ⟨s, List.mem_cons_self, h⟩
      · exact .inl h
      · refine (ih h).imp_right ?_
        rintro ⟨s'', hs'', hc⟩
        exact ⟨s'', List.mem_cons_of_mem _ hs'', hc⟩

theorem readReport_getPresenceData {m : PresenceMap} (h : ∀ e ∈ m.entries, e.2.Reportable) :
    readReport (getPresenceData localtime hostName m) =
      (otherNodes hostName m).map (reportFields localtime) := by
  have hother : ∀ r ∈ otherNodes hostName m, r.Reportable := by
    intro r hr
    obtain ⟨e, he, rfl⟩ := List.mem_map.mp (List.mem_of_mem_filter hr)
    exact h e he
  have hline {c : Byte} (hc : c ≠ 124) (hfield : ∀ s, ReportField s → c ∉ s) :
      ∀ r ∈ otherNodes hostName m, c ∉ reportLine localtime r := by
    intro r hr hmem
    rcases mem_intercalate hmem with heq | ⟨s, hs, hcs⟩
    · exact hc heq
    · exact hfield s ((hother r hr).fields s hs) hcs
  have hdata : getPresenceData localtime hostName m =
      (otherNodes hostName m).flatMap fun r => reportLine localtime r ++ [126] :=
    foldl_presenceStep (fun e he => (h e he).status) ([], [])
  have hzero : 0 ∉ getPresenceData localtime hostName m := by
    rw [hdata, List.mem_flatMap]
    rintro ⟨r, hr, hmem⟩
    rcases List.mem_append.mp hmem with hmem | hmem
    · exact hline (by decide) (fun _ hs => hs.2.2) r hr hmem
    · exact absurd hmem (by decide)
  rw [readReport, cstr_eq_self hzero, hdata,
    splitOn_terminated _ (hline (by decide) fun _ hs => hs.2.1), List.dropLast_concat, List.map_map]
  refine List.map_congr_left fun r hr => ?_
  have hfields : ∀ s ∈ reportFields localtime r, 124 ∉ s :=
    fun s hs => ((hother r hr).fields s hs).1
  exact List.splitOn_intercalate 124 hfields (List.cons_ne_nil _ _)

end Report

/-! ### The report of a run -/

/-- The words of a lease are announcements of the run. -/
theorem reportable_recordOf {calls : List PresenceCall} {key : Bytes} {l : Lease NodeUpdate ℤ}
    (h : Holds timedOut key (calls.map PresenceCall.event) l)
    (hcalls : ∀ u t, .updateNode u t ∈ calls → u.Reportable) :
    (PresenceMap.recordOf l).Reportable := by
  obtain ⟨_, _, _, heq, -⟩ := h.first
  obtain ⟨before, t, after, rfl, -⟩ := exists_call_of_renew heq
  have hfirst := hcalls l.first t (List.mem_append_right _ List.mem_cons_self)
  obtain ⟨_, _, heq', -, -⟩ := h.last
  obtain ⟨before', t', after', hsplit, -⟩ := exists_call_of_renew heq'
  have hlast := hcalls l.value t' (hsplit ▸ List.mem_append_right _ List.mem_cons_self)
  refine ⟨?_, hfirst.machineName, hfirst.ipAddress, hfirst.services⟩
  unfold PresenceMap.recordOf
  dsimp only
  split_ifs
  · decide
  · exact hlast.status

/-- In every run with announcements that can be reported, a reader finds one record for each node
but the host, in the order of the keys, with what the map says of it. -/
theorem readReport_run (localtime : ℤ → CalendarTime) (hostName : Bytes) {log : Log}
    {calls : List PresenceCall} {m : PresenceMap} (hrun : PresenceMap.runCalls log calls = .ok m)
    (hcalls : ∀ u t, .updateNode u t ∈ calls → u.Reportable) :
    readReport (getPresenceData localtime hostName m) =
      (otherNodes hostName m).map (reportFields localtime) := by
  refine readReport_getPresenceData fun e he => ?_
  rw [PresenceMap.runCalls_inv hrun] at he
  obtain ⟨l, hl, hrecord⟩ := (PresenceMap.lookup_afterCalls_iff calls e.1 e.2).mp
    (SortedMap.mem_entries_iff.mp he)
  rw [← hrecord]
  exact reportable_recordOf hl hcalls

theorem relayUpdate_reportable : PresenceMap.relayUpdate.Reportable where
  status := by decide
  machineName := by decide
  ipAddress := by decide
  services := by decide

theorem relayCalls_reportable (u : NodeUpdate) (t : ℤ)
    (h : .updateNode u t ∈ PeerRegistry.relayCalls) : u.Reportable := by
  rcases List.mem_cons.mp h with heq | h
  · injection heq with hu _
    exact hu ▸ relayUpdate_reportable
  · cases List.mem_singleton.mp h

def firstDay : CalendarTime := ⟨4, 1, 0, 70, 0, 0, 0⟩

theorem readReport_relayRun :
    readReport (getPresenceData (fun _ => firstDay) (bytes "hub")
        (PresenceMap.afterCalls PeerRegistry.relayCalls)) =
      [[bytes "a", bytes "Thu Jan  1 00:00:00 1970", bytes "relay", bytes "10.0.0.2",
        bytes "Node is currently active. Services: MC"]] :=
  (readReport_run (fun _ => firstDay) (bytes "hub") PeerRegistry.relayCalls_run
    relayCalls_reportable).trans rfl

end MsgCourier
