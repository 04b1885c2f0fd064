import MsgCourier.PendingWrite
import MsgCourier.RoundRobin
import Mathlib.Data.Finset.Basic
import Mathlib.Order.Interval.Finset.Nat

/-! The descriptors that the operating system gives to connections, and those that are polled. -/
namespace MsgCourier
open ListSearch CText NodeLists Runs

/-! ### The descriptors of a process -/

theorem exists_free (opened : Finset ℕ) : ∃ n, n ∉ opened := Infinite.exists_notMem_finset opened

/-- What `accept` and `open` return. -/
def lowestFree (opened : Finset ℕ) : ℕ := Nat.find (exists_free opened)

/-- The queue's use of its cache in a process with some open descriptors. The connections of
`accepted` wait in the pre-queue. -/
structure Polling where
  use : CacheUse := {}
  opened : Finset ℕ
  accepted : List ℕ := []

namespace Polling

def start (opened : Finset ℕ) : Polling := { opened }

/-- The descriptors that a call of the cache has closed. -/
def closedSince (s : Polling) (use : CacheUse) : Finset ℕ :=
  ((use.cache.closed.drop s.use.cache.closed.length).map Int.toNat).toFinset

end Polling

inductive PollAction
  | accept
  | openOther
  | closeOther (n : ℕ)
  | add (now : ℤ)
  | cache (a : CacheAction)

/-- Connections are added in the order in which they were accepted. All other calls of the cache
come in any order, and other parts of the process open and close what they like. -/
inductive PollStep : Polling → PollAction → Polling → Prop
  | accept {s : Polling} :
      PollStep s .accept
        { s with
          opened := insert (lowestFree s.opened) s.opened
          accepted := s.accepted ++ [lowestFree s.opened] }
  | openOther {s : Polling} :
      PollStep s .openOther { s with opened := insert (lowestFree s.opened) s.opened }
  | closeOther {s : Polling} {n : ℕ} :
      PollStep s (.closeOther n) { s with opened := s.opened.erase n }
  | add {s : Polling} {n : ℕ} {rest : List ℕ} {now : ℤ} {use : CacheUse} :
      s.accepted = n :: rest → CacheStep s.use (.call (.addConnection n now)) use →
      PollStep s (.add now) { s with use, accepted := rest }
  | cache {s : Polling} {a : CacheAction} {use : CacheUse} :
      (∀ socketfd now, a ≠ .call (.addConnection socketfd now)) → CacheStep s.use a use →
      PollStep s (.cache a) { s with use, opened := s.opened \ s.closedSince use }

/-- A connection is accepted only while one of the descriptors with a bit is free. -/
abbrev RoomyStep (s : Polling) (a : PollAction) (t : Polling) : Prop :=
  PollStep s a t ∧ (a = .accept → ∃ n < fdSetSize, n ∉ s.opened)

theorem lowestFree_lt {opened : Finset ℕ} {n : ℕ} (h : ∃ k < n, k ∉ opened) :
    lowestFree opened < n := by
  obtain ⟨k, hk, hfree⟩ := h
  exact lt_of_le_of_lt (Nat.find_min' (exists_free opened) hfree) hk

theorem lowestFree_range (n : ℕ) : lowestFree (Finset.range n) = n := by
  apply le_antisymm
  · exact Nat.find_min' _ Finset.notMem_range_self
  · by_contra hlt
    have hfree := Nat.find_spec (exists_free (Finset.range n))
    exact hfree (Finset.mem_range.mpr (not_le.mp hlt))

namespace ConnectionCache

/-- The descriptors that the loop of `GetNextSetRecord` passes to `FD_ISSET`. -/
def tested (x : ConnectionCache) (isSet : ℤ → Bool) : List (ℕ × ℤ) → List ℤ
  | [] => []
  | p :: rest =>
    let r := x.record p.2
    if r.state = .waiting ∧ r.pActiveHandler = false then
      r.socketfd :: if x.ready isSet p.2 then [] else tested x isSet rest
    else tested x isSet rest

/-- Whatever a call passes to `FD_SET` or `FD_ISSET` has a bit in the set. -/
structure Representable (x : ConnectionCache) : Prop where
  set : ∀ (size : ℤ) (fds : List ℤ) (maxsocketfd : ℤ) (y : ConnectionCache),
    x.selectActive size = .ok (fds, maxsocketfd, y) → ∀ fd ∈ fds, fd < fdSetSize
  isSet : ∀ (isSet : ℤ → Bool) (nodes : List (ℕ × ℤ)),
    x.activeConnectionList.since x.it = some nodes → ∀ fd ∈ x.tested isSet nodes, fd < fdSetSize

/-- Every waiting record has a descriptor with a bit. -/
def Below (x : ConnectionCache) : Prop :=
  ∀ fd, (x.record fd).state = .waiting → (x.record fd).socketfd < fdSetSize

/-- What waits behind a call has waited before it, with the same descriptor. -/
def Narrows (x y : ConnectionCache) : Prop :=
  ∀ fd, (y.record fd).state = .waiting →
    (x.record fd).state = .waiting ∧ (y.record fd).socketfd = (x.record fd).socketfd

variable {x y z : ConnectionCache} {fd : ℤ}

/-! ### The calls that add nothing -/

theorem Narrows.refl (x : ConnectionCache) : Narrows x x := fun _ h => ⟨h, rfl⟩

theorem Narrows.trans (h : Narrows x y) (h' : Narrows y z) : Narrows x z := by
  intro fd hwait
  obtain ⟨hmiddle, hsocket⟩ := h' fd hwait
  obtain ⟨hfirst, hsocket'⟩ := h fd hmiddle
  exact ⟨hfirst, hsocket.trans hsocket'⟩

theorem Narrows.below (h : Narrows x y) (hx : x.Below) : y.Below := by
  intro fd hwait
  obtain ⟨hfirst, hsocket⟩ := h fd hwait
  rw [hsocket]
  exact hx fd hfirst

/-- A record is written without its state and its descriptor. -/
theorem Narrows.write {r : CacheRecord} (hstate : r.state = (x.record fd).state)
    (hsocket : r.socketfd = (x.record fd).socketfd) : Narrows x (x.setRecord fd r) := by
  intro fd' hwait
  by_cases heq : fd' = fd
  · rw [heq, record_setRecord_self] at hwait ⊢
    exact ⟨hstate.symm.trans hwait, hsocket⟩
  · rw [record_setRecord_of_ne x heq] at hwait ⊢
    exact ⟨hwait, rfl⟩

theorem Narrows.freeConnection (hok : x.freeConnection fd = .ok y) : Narrows x y := by
  obtain ⟨-, hother, hidle⟩ := freeConnection_eq_ok hok
  intro fd' hwait
  by_cases heq : fd' = fd
  · rw [heq] at hwait
    obtain ⟨-, rfl⟩ := hidle hwait
    exact ⟨heq ▸ hwait, rfl⟩
  · rw [hother fd' heq] at hwait ⊢
    exact ⟨hwait, rfl⟩

theorem Narrows.markPendingWrite (hok : x.markPendingWrite fd = .ok y) : Narrows x y := by
  obtain ⟨-, hrecord⟩ := markPendingWrite_eq_ok hok
  intro fd' hwait
  rw [hrecord fd'] at hwait ⊢
  exact ⟨hwait, rfl⟩

theorem Narrows.timeoutLoop {iTimeout curTime : ℤ} {fuel : ℕ}
    (hok : ConnectionCache.timeoutLoop iTimeout curTime fuel x = .ok y) : Narrows x y := by
  induction fuel generalizing x with
  | zero => cases hok
  | succ fuel ih =>
    unfold ConnectionCache.timeoutLoop at hok
    split at hok
    · obtain rfl := Except.ok.inj hok
      exact Narrows.refl x
    · obtain ⟨z, hfree, hok⟩ := bind_eq_ok.mp hok
      exact (Narrows.freeConnection hfree).trans (ih hok)

theorem Narrows.selectActive {size top : ℤ} {fds : List ℤ}
    (hok : x.selectActive size = .ok (fds, top, y)) : Narrows x y := by
  unfold ConnectionCache.selectActive at hok
  split_ifs at hok
  · obtain ⟨-, -, rfl⟩ := hok
    exact Narrows.refl _
  · split at hok
    · cases hok
    · obtain ⟨_, -, hok⟩ := bind_eq_ok.mp hok
      obtain ⟨-, -, rfl⟩ := hok
      exact Narrows.refl _

/-- Only `AddConnection` lets a record wait. -/
theorem Narrows.call {op : CacheOp} (hop : ∀ socketfd now, op ≠ .addConnection socketfd now)
    (hok : op.call x = .ok y) : Narrows x y := by
  cases op with
  | addConnection socketfd now => exact absurd rfl (hop socketfd now)
  | freeConnection socketfd => exact Narrows.freeConnection hok
  | getConnectionRecord socketfd =>
    obtain ⟨r, hread, hok⟩ := bind_eq_ok.mp hok
    obtain rfl := Except.ok.inj hok
    rcases getConnectionRecord_eq_ok hread with ⟨rfl, -⟩ | ⟨rfl, -⟩
    · exact Narrows.refl x
    · exact Narrows.write rfl rfl
  | markPendingWrite socketfd => exact Narrows.markPendingWrite hok
  | handle socketfd timestamp pendingwrite pActiveHandler bufferCount =>
    dsimp only [CacheOp.call] at hok
    cases hr : x.connectionMap socketfd with
    | none =>
      rw [hr] at hok
      obtain rfl := Except.ok.inj hok
      exact Narrows.refl x
    | some r =>
      rw [hr] at hok
      obtain rfl := Except.ok.inj hok
      have hrecord := record_of_some hr
      exact Narrows.write (hrecord ▸ rfl) (hrecord ▸ rfl)
  | timeoutConnections iTimeout curTime =>
    dsimp only [CacheOp.call] at hok
    unfold ConnectionCache.timeoutConnections at hok
    split_ifs at hok
    · obtain rfl := Except.ok.inj hok
      exact Narrows.refl x
    · exact Narrows.timeoutLoop hok
  | setActiveConnections size =>
    obtain ⟨⟨fds, top, z⟩, hset, hok⟩ := bind_eq_ok.mp hok
    obtain rfl := Except.ok.inj hok
    exact Narrows.selectActive hset

theorem Narrows.getNextSetRecord {isSet : ℤ → Bool} {found : Option ℤ}
    (hok : x.getNextSetRecord isSet = .ok (found, y)) : Narrows x y := by
  unfold ConnectionCache.getNextSetRecord at hok
  split at hok
  · cases hok
  · obtain ⟨-, rfl⟩ := Prod.mk.inj (Except.ok.inj hok)
    exact Narrows.refl _

theorem Below.addConnection (h : x.Below) {n : ℕ} (hn : n < fdSetSize) {now : ℤ}
    (hok : x.addConnection n now = .ok y) : y.Below := by
  unfold ConnectionCache.addConnection at hok
  split_ifs at hok with hrange
  obtain rfl := Except.ok.inj hok
  intro fd hwait
  by_cases heq : fd = n
  · rw [heq, record_setRecord_self]
    exact Int.ofNat_lt.mpr hn
  · rw [record_setRecord_of_ne _ heq] at hwait ⊢
    exact h fd hwait

/-! ### The calls that poll -/

theorem Below.selectConnections (h : x.Below) {size count top : ℤ} {nodes : List (ℕ × ℤ)}
    {fds : List ℤ} (hfds : ∀ fd ∈ fds, fd < fdSetSize) {r : List ℤ × ℤ × It × It}
    (hok : x.selectConnections size nodes count fds top = .ok r) : ∀ fd ∈ r.1, fd < fdSetSize := by
  induction nodes generalizing count fds top with
  | nil =>
    obtain rfl := Except.ok.inj hok
    exact hfds
  | cons p rest ih =>
    unfold ConnectionCache.selectConnections at hok
    dsimp only at hok
    by_cases hwait : (x.record p.2).state = .waiting
    · rw [if_pos hwait] at hok
      have hmore : ∀ fd ∈ fds ++ [(x.record p.2).socketfd], fd < fdSetSize := by
        intro fd hfd
        rcases List.mem_append.mp hfd with hold | hnew
        · exact hfds fd hold
        · rw [List.mem_singleton.mp hnew]
          exact h p.2 hwait
      split_ifs at hok
      · obtain rfl := Except.ok.inj hok
        exact hmore
      · exact ih hmore hok
    · rw [if_neg hwait] at hok
      exact ih hfds hok

theorem Below.tested (h : x.Below) (isSet : ℤ → Bool) (nodes : List (ℕ × ℤ)) :
    ∀ fd ∈ x.tested isSet nodes, fd < fdSetSize := by
  induction nodes with
  | nil =>
    intro fd hfd
    exact absurd hfd List.not_mem_nil
  | cons p rest ih =>
    intro fd hfd
    unfold ConnectionCache.tested at hfd
    dsimp only at hfd
    split_ifs at hfd with hwait hready
    · rw [List.mem_singleton.mp hfd]
      exact h p.2 hwait.1
    · rcases List.mem_cons.mp hfd with rfl | hfd
      · exact h p.2 hwait.1
      · exact ih fd hfd
    · exact ih fd hfd

theorem Below.representable (h : x.Below) : x.Representable := by
  refine ⟨?_, fun isSet nodes _ => h.tested isSet nodes⟩
  intro size fds top y hok
  unfold ConnectionCache.selectActive at hok
  split_ifs at hok
  · obtain ⟨rfl, -, -⟩ := hok
    intro fd hfd
    exact absurd hfd List.not_mem_nil
  · split at hok
    · cases hok
    · obtain ⟨r, hload, hok⟩ := bind_eq_ok.mp hok
      obtain ⟨rfl, -, -⟩ := hok
      exact h.selectConnections (fun fd hfd => absurd hfd List.not_mem_nil) hload

end ConnectionCache

/-! ### The runs -/

namespace Polling

variable {s t : Polling}

/-- What is accepted, and what is added already, has a bit. -/
structure Inv (s : Polling) : Prop where
  below : s.use.cache.Below
  accepted : ∀ n ∈ s.accepted, n < fdSetSize

theorem Inv.start (opened : Finset ℕ) : (start opened).Inv where
  below _ h := nomatch h
  accepted _ h := absurd h List.not_mem_nil

theorem below_after {u : CacheUse} (h : u.cache.Below) (pc : InboundPc)
    {r : Cxx ConnectionCache} (hr : ∀ y, r = .ok y → y.Below) : (u.after pc r).cache.Below := by
  cases r with
  | ok y => exact hr y rfl
  | error e =>
    cases e with
    | undefined => exact h
    | charPtr => exact h
    | stdException => exact h
    | cException => exact h

theorem below_add {u v : CacheUse} (h : u.cache.Below) {n : ℕ} (hn : n < fdSetSize) {now : ℤ}
    (hstep : CacheStep u (.call (.addConnection n now)) v) : v.cache.Below := by
  cases hstep with
  | call _ _ => exact below_after h _ fun y hy => h.addConnection hn hy

/-- Every other step of the cache is made of calls that add nothing. -/
theorem below_cache {u v : CacheUse} (h : u.cache.Below) {a : CacheAction}
    (ha : ∀ socketfd now, a ≠ .call (.addConnection socketfd now)) (hstep : CacheStep u a v) :
    v.cache.Below := by
  cases hstep with
  | call _ _ =>
    apply below_after h
    intro y hy
    refine (ConnectionCache.Narrows.call ?_ hy).below h
    intro socketfd now heq
    exact ha socketfd now (congrArg CacheAction.call heq)
  | handle _ _ =>
    apply below_after h
    intro y hy
    refine (ConnectionCache.Narrows.call ?_ hy).below h
    intro socketfd now heq
    cases heq
  | resetEnumerator _ _ => exact h
  | getNextSetRecord _ _ hok => exact (ConnectionCache.Narrows.getNextSetRecord hok).below h
  | lastSetRecord _ _ hok => exact (ConnectionCache.Narrows.getNextSetRecord hok).below h
  | nextFails _ _ _ => exact h
  | keep _ _ => exact h
  | close _ _ =>
    apply below_after h
    intro y hy
    exact (ConnectionCache.Narrows.freeConnection hy).below h

theorem Inv.step (h : s.Inv) {a : PollAction} (hstep : RoomyStep s a t) : t.Inv := by
  obtain ⟨hstep, hroom⟩ := hstep
  cases hstep with
  | accept =>
    refine ⟨h.below, ?_⟩
    intro n hn
    rcases List.mem_append.mp hn with hold | hnew
    · exact h.accepted n hold
    · rw [List.mem_singleton.mp hnew]
      exact lowestFree_lt (hroom rfl)
  | openOther => exact ⟨h.below, h.accepted⟩
  | closeOther => exact ⟨h.below, h.accepted⟩
  | add haccepted hcall =>
    have hall := h.accepted
    rw [haccepted, List.forall_mem_cons] at hall
    exact ⟨below_add h.below hall.1 hcall, hall.2⟩
  | cache ha hcall => exact ⟨below_cache h.below ha hcall, h.accepted⟩

/-- While every connection is accepted with one of the descriptors that have a bit still free, the
queue polls no others. -/
theorem polls_representable {opened : Finset ℕ} {actions : List PollAction}
    (hrun : Run RoomyStep (start opened) actions s) : s.use.cache.Representable := by
  have hinv := hrun.invariant (fun _ _ _ hi hstep => Inv.step hi hstep) (Inv.start opened)
  exact hinv.below.representable

/-! ### A crowd of connections -/

/-- The standard streams and the listening socket. -/
def listening : Polling := start (Finset.range 4)

/-- `n` connections are open and nothing else has happened. -/
structure Crowd (s : Polling) (n : ℕ) : Prop where
  opened : s.opened = Finset.range (4+n)
  accepted : s.accepted = []
  safe : s.use.failed = false
  pc : s.use.pc = .outside
  marker : s.use.cache.itIncompleteMarker = .stop
  keys : ∀ p ∈ s.use.cache.activeConnectionList.nodes, p.2 < (4+n : ℕ)
  waiting : s.use.cache.AllWaiting s.use.cache.activeConnectionList.nodes
  descriptors : s.use.cache.descriptors s.use.cache.activeConnectionList.nodes =
    (List.range n).map fun i : ℕ => ((4+i : ℕ) : ℤ)

theorem crowd_zero : listening.Crowd 0 where
  opened := rfl
  accepted := rfl
  safe := rfl
  pc := rfl
  marker := rfl
  keys _ h := absurd h List.not_mem_nil
  waiting _ h := absurd h List.not_mem_nil
  descriptors := rfl

/-- The cache with one connection more. -/
def withConnection (x : ConnectionCache) (fd : ℤ) : ConnectionCache :=
  { x with activeConnectionList := x.activeConnectionList.pushBack fd }.setRecord fd
    { socketfd := fd, state := .waiting, it := .node x.activeConnectionList.next }

/-- One more connection is accepted and added. -/
theorem Crowd.grow {n : ℕ} (h : s.Crowd n) (hn : 4+n < 65536) : ∃ t,
    Run PollStep s [.accept, .add 0] t ∧ t.Crowd (n+1) := by
  have hrange : (0 : ℤ) < (4+n : ℕ) ∧ ((4+n : ℕ) : ℤ) < 65536 := by omega
  have hfree : lowestFree s.opened = 4+n := h.opened ▸ lowestFree_range (4+n)
  have hadd : s.use.cache.addConnection (4+n : ℕ) 0 =
      .ok (withConnection s.use.cache (4+n : ℕ)) := if_pos hrange
  have hold : ∀ p ∈ s.use.cache.activeConnectionList.nodes,
      (withConnection s.use.cache (4+n : ℕ)).record p.2 = s.use.cache.record p.2 := by
    intro p hp
    exact ConnectionCache.record_setRecord_of_ne _ (h.keys p hp).ne _
  have hnew : (withConnection s.use.cache (4+n : ℕ)).record (4+n : ℕ) =
      { socketfd := (4+n : ℕ)
        state := .waiting
        it := .node s.use.cache.activeConnectionList.next } :=
    ConnectionCache.record_setRecord_self _ _ _
  have hnodes : (withConnection s.use.cache (4+n : ℕ)).activeConnectionList.nodes =
      s.use.cache.activeConnectionList.nodes ++
        [(s.use.cache.activeConnectionList.next, ((4+n : ℕ) : ℤ))] := rfl
  let accepting : Polling :=
    { s with opened := insert (lowestFree s.opened) s.opened
             accepted := s.accepted ++ [lowestFree s.opened] }
  let use : CacheUse := s.use.after .outside (s.use.cache.addConnection (4+n : ℕ) 0)
  have huse : use.cache = withConnection s.use.cache (4+n : ℕ) := by
    dsimp only [use]
    rw [hadd]
    rfl
  have haccepted : accepting.accepted = (4+n) :: [] := by
    dsimp only [accepting]
    rw [h.accepted, hfree]
    rfl
  have hcall : PollStep accepting (.add 0) { accepting with use, accepted := [] } :=
    .add haccepted (.call h.safe h.pc)
  refine ⟨_, (Run.nil.snoc .accept).snoc hcall, ?_⟩
  refine ⟨?_, rfl, ?_, ?_, ?_, ?_, ?_, ?_⟩
  · dsimp only [accepting]
    rw [hfree, h.opened, ← Finset.range_add_one]
    rfl
  · dsimp only [use]
    rw [hadd]
    exact h.safe
  · dsimp only [use]
    rw [hadd]
    rfl
  · dsimp only
    rw [huse]
    exact h.marker
  · intro p hp
    dsimp only at hp
    rw [huse, hnodes] at hp
    rcases List.mem_append.mp hp with hp | hp
    · have hbelow := h.keys p hp
      omega
    · rw [List.mem_singleton.mp hp]
      dsimp only
      omega
  · intro p hp
    dsimp only at hp ⊢
    rw [huse] at hp ⊢
    rw [hnodes] at hp
    rcases List.mem_append.mp hp with hp | hp
    · rw [hold p hp]
      exact h.waiting p hp
    · rw [List.mem_singleton.mp hp, hnew]
      exact ⟨rfl, hrange⟩
  · dsimp only
    rw [huse, hnodes]
    unfold ConnectionCache.descriptors
    rw [List.map_append, List.range_succ, List.map_append, ← h.descriptors]
    unfold ConnectionCache.descriptors
    rw [List.map_congr_left fun p hp => by rw [hold p hp], List.map_singleton, hnew]
    rfl

theorem exists_crowd (n : ℕ) (hn : n ≤ 65532) : ∃ actions s,
    Run PollStep listening actions s ∧ s.Crowd n := by
  induction n with
  | zero => exact ⟨[], listening, Run.nil, crowd_zero⟩
  | succ n ih =>
    obtain ⟨actions, s, hrun, hcrowd⟩ := ih (by omega)
    obtain ⟨t, hgrow, hcrowd'⟩ := hcrowd.grow (by omega)
    exact ⟨_, t, hrun.trans hgrow, hcrowd'⟩

/-- One connection is accepted, added and polled. -/
theorem polls_representable_one : ∃ actions s, Run RoomyStep listening actions s ∧
    s.use.cache.Representable ∧
    s.use.cache.descriptors s.use.cache.activeConnectionList.nodes = [4] := by
  let accepting : Polling := { opened := insert 4 (Finset.range 4), accepted := [4] }
  have haccept : PollStep listening .accept accepting := by
    have hstep := PollStep.accept (s := listening)
    have hfree : lowestFree listening.opened = 4 := lowestFree_range 4
    rw [hfree] at hstep
    exact hstep
  have hroom : ∃ n < fdSetSize, n ∉ listening.opened :=
    ⟨4, by decide, Finset.notMem_range_self⟩
  have hadd : PollStep accepting (.add 0)
      { accepting with use := CacheUse.called {} (.addConnection 4 0), accepted := [] } :=
    .add rfl (.call rfl rfl)
  have hfirst : RoomyStep listening .accept accepting := ⟨haccept, fun _ => hroom⟩
  have hrun := (Run.nil.snoc hfirst).snoc ⟨hadd, fun h => nomatch h⟩
  exact ⟨_, _, hrun, polls_representable hrun, rfl⟩

/-- With 1021 connections the descriptor 1024 is put into the set. -/
theorem polls_beyond_set : ¬ ∀ (opened : Finset ℕ) (actions : List PollAction) (s : Polling),
    Run PollStep (start opened) actions s → s.use.cache.Representable := by
  intro h
  obtain ⟨actions, s, hrun, hcrowd⟩ := exists_crowd 1021 (by decide)
  have hlength : s.use.cache.activeConnectionList.nodes.length = 1021 := by
    have hmap := congrArg List.length hcrowd.descriptors
    rwa [ConnectionCache.descriptors, List.length_map, List.length_map, List.length_range] at hmap
  have hne : s.use.cache.activeConnectionList.nodes ≠ [] := by
    intro hnil
    rw [hnil] at hlength
    cases hlength
  have hall : s.use.cache.activeConnectionList.nodes.take 1024 =
      s.use.cache.activeConnectionList.nodes := List.take_of_length_le (by omega)
  have hsize : 0 < 1024 := by decide
  obtain ⟨top, it, -, hset⟩ := ConnectionCache.selectActive_waiting hsize hne
    (List.suffix_refl _) hcrowd.waiting (if_pos hcrowd.marker)
  rw [hall, hcrowd.descriptors] at hset
  have hin : (1024 : ℤ) ∈ (List.range 1021).map fun i : ℕ => ((4+i : ℕ) : ℤ) :=
    List.mem_map.mpr ⟨1020, List.mem_range.mpr (by decide), rfl⟩
  have hbelow := (h _ _ _ hrun).set _ _ _ _ hset 1024 hin
  exact absurd hbelow (by decide)

end Polling
end MsgCourier
