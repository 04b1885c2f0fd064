import MsgCourier.ConnectionCache

/-! The connection cache over any sequence of the calls that the connection queue makes. -/
namespace MsgCourier
open ListSearch CText NodeLists Runs

/-! ### The calls -/

/-- A call of the queue on the cache. `handle` is what a connection handler writes to a record. -/
inductive CacheOp
  | addConnection (socketfd now : ℤ)
  | freeConnection (socketfd : ℤ)
  | getConnectionRecord (socketfd : ℤ)
  | markPendingWrite (socketfd : ℤ)
  | handle (socketfd timestamp : ℤ) (pendingwrite pActiveHandler : Bool) (bufferCount : ℤ)
  | timeoutConnections (iTimeout curTime : ℤ)
  | setActiveConnections (size : ℤ)

def CacheOp.call (x : ConnectionCache) : CacheOp → Cxx ConnectionCache
  | .addConnection socketfd now => x.addConnection socketfd now
  | .freeConnection socketfd => x.freeConnection socketfd
  | .getConnectionRecord socketfd => do
    let (_, x) ← x.getConnectionRecord socketfd
    pure x
  | .markPendingWrite socketfd => x.markPendingWrite socketfd
  | .handle socketfd timestamp pendingwrite pActiveHandler bufferCount =>
    match x.connectionMap socketfd with
    | none => pure x
    | some r =>
      pure (x.setRecord socketfd { r with timestamp, pendingwrite, pActiveHandler, bufferCount })
  | .timeoutConnections iTimeout curTime => x.timeoutConnections iTimeout curTime
  | .setActiveConnections size => do
    let (_, _, x) ← x.selectActive size
    pure x

/-- Where the queue is in `ProcessInboundTasks`: outside, before `GetNextSetRecord`, or with the
record that it returned. -/
inductive InboundPc
  | outside
  | next
  | returned (socketfd : ℤ)
  deriving DecidableEq, Repr

/-- `failed` is set when a call has used an iterator of an erased node, or none. -/
structure CacheUse where
  cache : ConnectionCache := {}
  pc : InboundPc := .outside
  failed : Bool := false

inductive CacheAction
  | call (op : CacheOp)
  | resetEnumerator
  | getNextSetRecord (isSet : ℤ → Bool)
  | keep
  | close

/-- What a call leaves. An assertion that throws leaves the cache as it was. -/
def CacheUse.after (s : CacheUse) (pc : InboundPc) : Cxx ConnectionCache → CacheUse
  | .ok cache => { s with cache, pc }
  | .error .undefined => { s with failed := true }
  | .error _ => s

inductive CacheStep : CacheUse → CacheAction → CacheUse → Prop
  | call {s : CacheUse} {op : CacheOp} :
      s.failed = false → s.pc = .outside →
      CacheStep s (.call op) (s.after .outside (op.call s.cache))
  | handle {s : CacheUse} {socketfd timestamp bufferCount : ℤ}
      {pendingwrite pActiveHandler : Bool} :
      s.failed = false → s.pc = .returned socketfd →
      CacheStep s
        (.call (.handle socketfd timestamp pendingwrite pActiveHandler bufferCount))
        (s.after s.pc (CacheOp.call s.cache
          (.handle socketfd timestamp pendingwrite pActiveHandler bufferCount)))
  | resetEnumerator {s : CacheUse} :
      s.failed = false → s.pc = .outside →
      CacheStep s .resetEnumerator { s with cache := s.cache.resetEnumerator, pc := .next }
  | getNextSetRecord {s : CacheUse} {isSet : ℤ → Bool} {socketfd : ℤ} {cache : ConnectionCache} :
      s.failed = false → s.pc = .next →
      s.cache.getNextSetRecord isSet = .ok (some socketfd, cache) →
      CacheStep s (.getNextSetRecord isSet) { s with cache, pc := .returned socketfd }
  | lastSetRecord {s : CacheUse} {isSet : ℤ → Bool} {cache : ConnectionCache} :
      s.failed = false → s.pc = .next → s.cache.getNextSetRecord isSet = .ok (none, cache) →
      CacheStep s (.getNextSetRecord isSet) { s with cache, pc := .outside }
  | nextFails {s : CacheUse} {isSet : ℤ → Bool} {e : Exn} :
      s.failed = false → s.pc = .next → s.cache.getNextSetRecord isSet = .error e →
      CacheStep s (.getNextSetRecord isSet) { s with failed := true }
  | keep {s : CacheUse} {socketfd : ℤ} :
      s.failed = false → s.pc = .returned socketfd → CacheStep s .keep { s with pc := .next }
  | close {s : CacheUse} {socketfd : ℤ} :
      s.failed = false → s.pc = .returned socketfd →
      CacheStep s .close
        (s.after .next (s.cache.freeConnection (s.cache.record socketfd).socketfd))

/-! ### What the representation is -/

/-- The active list has the waiting records, each once; their iterators denote their own nodes, and
those of all other records are at the end. -/
structure ConnectionCache.Represented (x : ConnectionCache) : Prop where
  once : (x.activeConnectionList.nodes.map Prod.snd).Nodup
  listed : ∀ n fd, (n, fd) ∈ x.activeConnectionList.nodes →
    ∃ r, x.connectionMap fd = some r ∧ r.state = .waiting ∧ r.it = .node n
  waiting : ∀ fd r, x.connectionMap fd = some r → r.state = .waiting →
    ∃ n, (n, fd) ∈ x.activeConnectionList.nodes
  free : ∀ fd r, x.connectionMap fd = some r → r.state ≠ .waiting → r.it = .stop

structure CacheUse.Sound (s : CacheUse) : Prop where
  safe : s.failed = false
  represented : s.cache.Represented

/-- The marker is not at the node of the record. -/
def ConnectionCache.KeepsMarker (x : ConnectionCache) (fd : ℤ) : Prop :=
  x.itIncompleteMarker = .stop ∨ (x.record fd).it ≠ x.itIncompleteMarker

/-- No connection is added that is active already, no record is created but by adding a connection,
and no record is freed while the marker is at its node. -/
def CacheAction.Orderly (s : CacheUse) : CacheAction → Prop
  | .call (.addConnection socketfd _) => (s.cache.record socketfd).state ≠ .waiting
  | .call (.getConnectionRecord socketfd) | .call (.markPendingWrite socketfd) =>
    0 < socketfd ∧ socketfd < 65536 → (s.cache.connectionMap socketfd).isSome
  | .call (.freeConnection socketfd) => s.cache.KeepsMarker socketfd
  | .call (.timeoutConnections iTimeout curTime) =>
    ∀ fd, s.cache.expired iTimeout curTime fd = true → s.cache.KeepsMarker fd
  | .close => ∀ fd, s.pc = .returned fd → s.cache.KeepsMarker fd
  | .call (.handle _ _ _ _ _) | .call (.setActiveConnections _) | .resetEnumerator |
    .getNextSetRecord _ | .keep => True

abbrev OrderlyStep (s : CacheUse) (a : CacheAction) (t : CacheUse) : Prop :=
  CacheStep s a t ∧ a.Orderly s

/-! ### What the calls keep -/

namespace ConnectionCache

variable {x y : ConnectionCache} {fd : ℤ}

/-- A represented cache whose records have their descriptors, and whose marker may be used. -/
structure Consistent (x : ConnectionCache) : Prop extends x.Represented where
  socket : ∀ fd r, x.connectionMap fd = some r → r.state = .waiting →
    r.socketfd = fd ∧ 0 < fd ∧ fd < 65536
  marker : x.activeConnectionList.Valid x.itIncompleteMarker

@[simp] theorem setRecord_self (x : ConnectionCache) (fd : ℤ) (r : CacheRecord) :
    (x.setRecord fd r).connectionMap fd = some r := by
  unfold setRecord
  dsimp only
  rw [Function.update_self]

theorem setRecord_of_ne (x : ConnectionCache) {fd fd' : ℤ} (h : fd' ≠ fd) (r : CacheRecord) :
    (x.setRecord fd r).connectionMap fd' = x.connectionMap fd' := by
  unfold setRecord
  dsimp only
  rw [Function.update_of_ne h]

theorem record_of_some {r : CacheRecord} (h : x.connectionMap fd = some r) : x.record fd = r := by
  rw [record, h]
  rfl

/-- A record that is waiting is in the map. -/
theorem exists_of_waiting (h : (x.record fd).state = .waiting) :
    ∃ r, x.connectionMap fd = some r ∧ r.state = .waiting := by
  unfold record at h
  cases hr : x.connectionMap fd with
  | none =>
    rw [hr] at h
    cases h
  | some r =>
    rw [hr] at h
    exact ⟨r, rfl, h⟩

namespace Consistent

theorem initial : Consistent {} where
  once := List.nodup_nil
  listed _ _ h := absurd h List.not_mem_nil
  waiting _ _ h := nomatch h
  free _ _ h := nomatch h
  socket _ _ h := nomatch h
  marker := Or.inl rfl

/-- The node of a record says which record it is. -/
theorem eq_of_node (h : x.Consistent) {n m : ℕ} (hn : (n, fd) ∈ x.activeConnectionList.nodes)
    (hm : (m, fd) ∈ x.activeConnectionList.nodes) : n = m := by
  obtain ⟨r, hr, -, hit⟩ := h.listed n fd hn
  obtain ⟨r', hr', -, hit'⟩ := h.listed m fd hm
  obtain rfl := Option.some.inj (hr.symm.trans hr')
  exact It.node.inj (hit.symm.trans hit')

/-- A list of nodes of which each says which record it is has no record twice. -/
theorem once_of_listed {l : NodeList ℤ} {map : ℤ → Option CacheRecord}
    (h : ∀ n fd, (n, fd) ∈ l.nodes →
      ∃ r, map fd = some r ∧ r.state = .waiting ∧ r.it = .node n) :
    (l.nodes.map Prod.snd).Nodup := by
  have hnodes : l.nodes.Nodup := List.Nodup.of_map _ l.nodup
  refine (List.nodup_map_iff_inj_on hnodes).mpr ?_
  rintro ⟨n, fd⟩ hn ⟨m, fd'⟩ hm rfl
  obtain ⟨r, hr, -, hit⟩ := h n _ hn
  obtain ⟨r', hr', -, hit'⟩ := h m _ hm
  obtain rfl := Option.some.inj (hr.symm.trans hr')
  exact Prod.ext (It.node.inj (hit.symm.trans hit')) rfl

/-- A record may be written without its state, its descriptor and its iterator. -/
theorem setRecord (h : x.Consistent) {r r' : CacheRecord} (hr : x.connectionMap fd = some r)
    (hstate : r'.state = r.state) (hsocket : r'.socketfd = r.socketfd) (hit : r'.it = r.it) :
    (x.setRecord fd r').Consistent := by
  have hmap (fd' : ℤ) (q' : CacheRecord) (hq' : (x.setRecord fd r').connectionMap fd' = some q') :
      ∃ q, x.connectionMap fd' = some q ∧ q'.state = q.state ∧ q'.socketfd = q.socketfd ∧
        q'.it = q.it := by
    by_cases heq : fd' = fd
    · rw [heq, setRecord_self] at hq'
      obtain rfl := Option.some.inj hq'
      exact ⟨r, heq ▸ hr, hstate, hsocket, hit⟩
    · rw [setRecord_of_ne _ heq] at hq'
      exact ⟨q', hq', rfl, rfl, rfl⟩
  have hlisted : ∀ n fd', (n, fd') ∈ x.activeConnectionList.nodes →
      ∃ q, (x.setRecord fd r').connectionMap fd' = some q ∧ q.state = .waiting ∧
        q.it = .node n := by
    intro n fd' hn
    obtain ⟨q, hq, hwait, hqit⟩ := h.listed n fd' hn
    by_cases heq : fd' = fd
    · obtain rfl := Option.some.inj ((heq ▸ hr : x.connectionMap fd' = some r).symm.trans hq)
      exact ⟨r', heq ▸ setRecord_self _ _ _, hstate.trans hwait, hit.trans hqit⟩
    · exact ⟨q, (setRecord_of_ne _ heq _).trans hq, hwait, hqit⟩
  refine ⟨⟨once_of_listed hlisted, hlisted, ?_, ?_⟩, ?_, h.marker⟩
  · intro fd' q' hq' hwait
    obtain ⟨q, hq, hst, -, -⟩ := hmap fd' q' hq'
    exact h.waiting fd' q hq (hst.symm.trans hwait)
  · intro fd' q' hq' hnot
    obtain ⟨q, hq, hst, -, hqit⟩ := hmap fd' q' hq'
    exact hqit.trans (h.free fd' q hq (hst ▸ hnot))
  · intro fd' q' hq' hwait
    obtain ⟨q, hq, hst, hsock, -⟩ := hmap fd' q' hq'
    rw [hsock]
    exact h.socket fd' q hq (hst.symm.trans hwait)

/-- Only the iterators of the cache differ. -/
theorem iterators (h : x.Consistent) {it marker : It}
    (hmarker : x.activeConnectionList.Valid marker) :
    Consistent { x with it, itIncompleteMarker := marker } :=
  ⟨⟨h.once, h.listed, h.waiting, h.free⟩, h.socket, hmarker⟩

theorem addConnection (h : x.Consistent) (hnot : (x.record fd).state ≠ .waiting) {now : ℤ}
    (hok : x.addConnection fd now = .ok y) : y.Consistent := by
  unfold ConnectionCache.addConnection at hok
  split_ifs at hok with hrange
  obtain rfl := Except.ok.inj hok
  have hother (n : ℕ) (fd' : ℤ) (hn : (n, fd') ∈ x.activeConnectionList.nodes) : fd' ≠ fd := by
    rintro rfl
    obtain ⟨r, hr, hwait, -⟩ := h.listed n _ hn
    exact hnot (record_of_some hr ▸ hwait)
  have hlisted : ∀ n fd', (n, fd') ∈ (x.activeConnectionList.pushBack fd).nodes → ∃ q,
      (ConnectionCache.setRecord
        { x with activeConnectionList := x.activeConnectionList.pushBack fd } fd
        { socketfd := fd
          timestamp := now
          state := .waiting
          it := .node x.activeConnectionList.next }).connectionMap fd' = some q ∧
        q.state = .waiting ∧ q.it = .node n := by
    intro n fd' hn
    rcases x.activeConnectionList.mem_pushBack.mp hn with hold | hnew
    · obtain ⟨q, hq, hwait, hit⟩ := h.listed n fd' hold
      exact ⟨q, (setRecord_of_ne _ (hother n fd' hold) _).trans hq, hwait, hit⟩
    · obtain ⟨rfl, rfl⟩ := Prod.mk.inj hnew
      exact ⟨_, setRecord_self _ _ _, rfl, rfl⟩
  refine ⟨⟨once_of_listed hlisted, hlisted, ?_, ?_⟩, ?_, NodeList.valid_pushBack h.marker fd⟩
  · intro fd' q hq hwait
    by_cases heq : fd' = fd
    · rw [heq]
      exact ⟨_, x.activeConnectionList.mem_pushBack.mpr (Or.inr rfl)⟩
    · rw [setRecord_of_ne _ heq] at hq
      obtain ⟨n, hn⟩ := h.waiting fd' q hq hwait
      exact ⟨n, x.activeConnectionList.mem_pushBack.mpr (Or.inl hn)⟩
  · intro fd' q hq hfree
    by_cases heq : fd' = fd
    · rw [heq, setRecord_self] at hq
      obtain rfl := Option.some.inj hq
      exact absurd rfl hfree
    · rw [setRecord_of_ne _ heq] at hq
      exact h.free fd' q hq hfree
  · intro fd' q hq hwait
    by_cases heq : fd' = fd
    · rw [heq, setRecord_self] at hq
      obtain rfl := Option.some.inj hq
      exact ⟨heq.symm, heq ▸ hrange⟩
    · rw [setRecord_of_ne _ heq] at hq
      exact h.socket fd' q hq hwait

end Consistent

/-- The record that is returned is one of the list, and the iterator is past it. -/
theorem nextSetRecord_some (isSet : ℤ → Bool) {nodes : List (ℕ × ℤ)}
    (hsuffix : nodes <:+ x.activeConnectionList.nodes)
    (hfound : (x.nextSetRecord isSet nodes).1 = some fd) :
    ∃ n, (n, fd) ∈ x.activeConnectionList.nodes ∧
      x.activeConnectionList.Valid (x.nextSetRecord isSet nodes).2 ∧
      (x.nextSetRecord isSet nodes).2 ≠ .node n := by
  induction nodes with
  | nil => cases hfound
  | cons p rest ih =>
    have hrest : rest <:+ x.activeConnectionList.nodes := (List.suffix_cons p rest).trans hsuffix
    unfold nextSetRecord at hfound ⊢
    split_ifs at hfound ⊢ with hready
    · obtain rfl := Option.some.inj hfound
      exact ⟨p.1, hsuffix.subset List.mem_cons_self, NodeList.valid_itOf hrest,
        NodeList.itOf_ne hsuffix⟩
    · exact ih hrest hfound

/-- What freeing a descriptor leaves. -/
structure Freed (x y : ConnectionCache) (fd : ℤ) : Prop where
  consistent : y.Consistent
  marker : y.itIncompleteMarker = x.itIncompleteMarker
  it : y.it = x.it
  other : ∀ fd', fd' ≠ fd → y.connectionMap fd' = x.connectionMap fd'
  idle : (y.record fd).state ≠ .waiting
  valid : ∀ it, x.activeConnectionList.Valid it → it = .stop ∨ it ≠ (x.record fd).it →
    y.activeConnectionList.Valid it
  shorter : (x.record fd).state = .waiting →
    y.activeConnectionList.nodes.length < x.activeConnectionList.nodes.length

theorem freeConnection_record {r : CacheRecord} (hne : fd ≠ -1)
    (hr : x.connectionMap fd = some r) {l : NodeList ℤ} (hl : x.unlink r = .ok l) :
    x.freeConnection fd = .ok (({ x with activeConnectionList := l }.closeSocket fd).setRecord fd
      { r with
        state := .free
        pActiveHandler := false
        socketfd := -1
        pendingwrite := false
        it := .stop }) := by
  unfold freeConnection
  rw [if_neg hne, hr]
  dsimp only
  rw [hl]
  rfl

namespace Consistent

/-- A record that does not wait is freed without a change of the list. -/
theorem freed_idle (h : x.Consistent) {r r' : CacheRecord} (hr : x.connectionMap fd = some r)
    (hnot : r.state ≠ .waiting) (hstate : r'.state = .free) (hit : r'.it = .stop)
    (closed : List ℤ) : Freed x (ConnectionCache.setRecord { x with closed } fd r') fd := by
  have hother (fd' : ℤ) (hne : fd' ≠ fd) :
      (ConnectionCache.setRecord { x with closed } fd r').connectionMap fd' =
        x.connectionMap fd' := setRecord_of_ne _ hne _
  have hidle : r'.state ≠ .waiting := by
    rw [hstate]
    exact fun h => nomatch h
  have hlisted : ∀ n fd', (n, fd') ∈ x.activeConnectionList.nodes → ∃ q,
      (ConnectionCache.setRecord { x with closed } fd r').connectionMap fd' = some q ∧
        q.state = .waiting ∧ q.it = .node n := by
    intro n fd' hn
    obtain ⟨q, hq, hwait, hqit⟩ := h.listed n fd' hn
    refine ⟨q, (hother fd' ?_).trans hq, hwait, hqit⟩
    rintro rfl
    exact hnot (Option.some.inj (hr.symm.trans hq) ▸ hwait)
  have hback (fd' : ℤ) (q : CacheRecord)
      (hq : (ConnectionCache.setRecord { x with closed } fd r').connectionMap fd' = some q)
      (hwait : q.state = .waiting) : x.connectionMap fd' = some q := by
    by_cases heq : fd' = fd
    · rw [heq, setRecord_self] at hq
      exact absurd (Option.some.inj hq ▸ hwait) hidle
    · exact (hother fd' heq).symm.trans hq
  constructor
  · refine ⟨⟨once_of_listed hlisted, hlisted, fun fd' q hq hwait => ?_, fun fd' q hq hfree => ?_⟩,
      fun fd' q hq hwait => ?_, h.marker⟩
    · exact h.waiting fd' q (hback fd' q hq hwait) hwait
    · by_cases heq : fd' = fd
      · rw [heq, setRecord_self] at hq
        exact Option.some.inj hq ▸ hit
      · exact h.free fd' q ((hother fd' heq).symm.trans hq) hfree
    · exact h.socket fd' q (hback fd' q hq hwait) hwait
  · rfl
  · rfl
  · exact hother
  · rw [record_of_some (setRecord_self _ _ _)]
    exact hidle
  · exact fun it hit _ => hit
  · intro hwait
    rw [record_of_some hr] at hwait
    exact absurd hwait hnot

/-- A record that waits leaves the list. -/
theorem freed_waiting (h : x.Consistent) {r r' : CacheRecord} {n : ℕ}
    (hr : x.connectionMap fd = some r) (hn : (n, fd) ∈ x.activeConnectionList.nodes)
    (hit : r.it = .node n) (hstate : r'.state = .free) (hit' : r'.it = .stop)
    (hmarker : x.KeepsMarker fd) (closed : List ℤ) :
    Freed x (ConnectionCache.setRecord
      { x with activeConnectionList := x.activeConnectionList.erase n, closed } fd r') fd := by
  have hother (fd' : ℤ) (hne : fd' ≠ fd) : (ConnectionCache.setRecord
      { x with activeConnectionList := x.activeConnectionList.erase n, closed } fd
      r').connectionMap fd' = x.connectionMap fd' := setRecord_of_ne _ hne _
  have hidle : r'.state ≠ .waiting := by
    rw [hstate]
    exact fun h => nomatch h
  have hlisted : ∀ m fd', (m, fd') ∈ (x.activeConnectionList.erase n).nodes → ∃ q,
      (ConnectionCache.setRecord
        { x with activeConnectionList := x.activeConnectionList.erase n, closed } fd
        r').connectionMap fd' = some q ∧ q.state = .waiting ∧ q.it = .node m := by
    intro m fd' hm
    obtain ⟨hm, hne⟩ := x.activeConnectionList.mem_erase.mp hm
    obtain ⟨q, hq, hwait, hqit⟩ := h.listed m fd' hm
    refine ⟨q, (hother fd' ?_).trans hq, hwait, hqit⟩
    rintro rfl
    exact hne (h.eq_of_node hm hn)
  have hback (fd' : ℤ) (q : CacheRecord)
      (hq : (ConnectionCache.setRecord
        { x with activeConnectionList := x.activeConnectionList.erase n, closed } fd
        r').connectionMap fd' = some q) (hwait : q.state = .waiting) :
      fd' ≠ fd ∧ x.connectionMap fd' = some q := by
    by_cases heq : fd' = fd
    · rw [heq, setRecord_self] at hq
      exact absurd (Option.some.inj hq ▸ hwait) hidle
    · exact ⟨heq, (hother fd' heq).symm.trans hq⟩
  have hrecord : x.record fd = r := record_of_some hr
  have hvalid (it : It) (hv : x.activeConnectionList.Valid it)
      (hne : it = .stop ∨ it ≠ (x.record fd).it) : (x.activeConnectionList.erase n).Valid it := by
    rcases hne with rfl | hne
    · exact Or.inl rfl
    · exact NodeList.valid_erase hv (hit ▸ hrecord ▸ hne)
  constructor
  · refine ⟨⟨once_of_listed hlisted, hlisted, fun fd' q hq hwait => ?_, fun fd' q hq hfree => ?_⟩,
      fun fd' q hq hwait => ?_, ?_⟩
    · obtain ⟨hne, hq⟩ := hback fd' q hq hwait
      obtain ⟨m, hm⟩ := h.waiting fd' q hq hwait
      refine ⟨m, x.activeConnectionList.mem_erase.mpr ⟨hm, ?_⟩⟩
      rintro rfl
      exact hne (congrArg Prod.snd (NodeList.eq_of_mem hm hn rfl))
    · by_cases heq : fd' = fd
      · rw [heq, setRecord_self] at hq
        exact Option.some.inj hq ▸ hit'
      · exact h.free fd' q ((hother fd' heq).symm.trans hq) hfree
    · exact h.socket fd' q (hback fd' q hq hwait).2 hwait
    · exact hvalid _ h.marker (hmarker.imp_right Ne.symm)
  · rfl
  · rfl
  · exact hother
  · rw [record_of_some (setRecord_self _ _ _)]
    exact hidle
  · exact hvalid
  · intro _
    exact List.length_filter_lt_length_iff_exists.mpr ⟨(n, fd), hn, by simp⟩

/-- Freeing a descriptor, unless the marker is at the node of its record. -/
theorem freeConnection (h : x.Consistent) (hmarker : x.KeepsMarker fd) :
    ∃ y, x.freeConnection fd = .ok y ∧ Freed x y fd := by
  by_cases hne : fd = -1
  · refine ⟨x, if_pos hne, h, rfl, rfl, fun _ _ => rfl, fun hwait => ?_, fun _ hv _ => hv,
      fun hwait => ?_⟩
    all_goals
      obtain ⟨r, hr, hwait⟩ := exists_of_waiting hwait
      have hrange := h.socket fd r hr hwait
      omega
  · cases hr : x.connectionMap fd with
    | none =>
      have hidle : (x.record fd).state ≠ .waiting := by
        intro hwait
        obtain ⟨r, hr', -⟩ := exists_of_waiting hwait
        cases hr.symm.trans hr'
      refine ⟨x.closeSocket fd, ?_, ⟨⟨h.once, h.listed, h.waiting, h.free⟩, h.socket, h.marker⟩,
        rfl, rfl, fun _ _ => rfl, hidle, fun _ hv _ => hv, fun hwait => absurd hwait hidle⟩
      unfold ConnectionCache.freeConnection
      rw [if_neg hne, hr]
      rfl
    | some r =>
      by_cases hwait : r.state = .waiting
      · obtain ⟨n, hn⟩ := h.waiting fd r hr hwait
        obtain ⟨q, hq, -, hit⟩ := h.listed n fd hn
        obtain rfl := Option.some.inj (hr.symm.trans hq)
        have hunlink : x.unlink r = .ok (x.activeConnectionList.erase n) := by
          unfold unlink
          rw [hit]
          exact if_pos (List.mem_map_of_mem hn)
        exact ⟨_, freeConnection_record hne hr hunlink,
          h.freed_waiting hr hn hit rfl rfl hmarker _⟩
      · have hunlink : x.unlink r = .ok x.activeConnectionList := by
          unfold unlink
          rw [h.free fd r hr hwait]
          rfl
        exact ⟨_, freeConnection_record hne hr hunlink, h.freed_idle hr hwait rfl rfl _⟩

/-- A node of the list has a record with its descriptor. -/
theorem record_of_mem (h : x.Consistent) {n : ℕ} (hn : (n, fd) ∈ x.activeConnectionList.nodes) :
    (x.record fd).state = .waiting ∧ (x.record fd).it = .node n ∧
      (x.record fd).socketfd = fd ∧ 0 < fd ∧ fd < 65536 := by
  obtain ⟨r, hr, hwait, hit⟩ := h.listed n fd hn
  rw [record_of_some hr]
  exact ⟨hwait, hit, h.socket fd r hr hwait⟩

theorem timeoutLoop (h : x.Consistent) {iTimeout curTime : ℤ}
    (hmarker : ∀ fd, x.expired iTimeout curTime fd = true → x.KeepsMarker fd) {fuel : ℕ}
    (hfuel : x.activeConnectionList.nodes.length < fuel) :
    ∃ y, ConnectionCache.timeoutLoop iTimeout curTime fuel x = .ok y ∧ y.Consistent := by
  induction fuel generalizing x with
  | zero => exact absurd hfuel (Nat.not_lt_zero _)
  | succ fuel ih =>
    unfold ConnectionCache.timeoutLoop
    cases hfind : x.activeConnectionList.nodes.find? fun p =>
        x.expired iTimeout curTime p.2 with
    | none => exact ⟨_, rfl, h.iterators h.marker⟩
    | some p =>
      obtain ⟨n, fd⟩ := p
      have hexp : x.expired iTimeout curTime fd = true := by simpa using List.find?_some hfind
      obtain ⟨hwait, -, hsocket, -⟩ := h.record_of_mem (List.mem_of_find?_eq_some hfind)
      obtain ⟨y, hy, hfreed⟩ := h.freeConnection (hmarker fd hexp)
      have hshort := hfreed.shorter hwait
      have hrest : ∀ fd', y.expired iTimeout curTime fd' = true → y.KeepsMarker fd' := by
        intro fd' hexp'
        have hne : fd' ≠ fd := by
          rintro rfl
          have hidle := hfreed.idle
          unfold expired at hexp'
          simp only [Bool.and_eq_true, decide_eq_true_iff] at hexp'
          exact hidle hexp'.1.2
        have hsame : y.record fd' = x.record fd' := by
          rw [record, record, hfreed.other fd' hne]
        have hold : x.expired iTimeout curTime fd' = true := by
          unfold expired at hexp' ⊢
          rwa [hsame] at hexp'
        have hkeep := hmarker fd' hold
        unfold KeepsMarker at hkeep ⊢
        rwa [hsame, hfreed.marker]
      obtain ⟨z, hz, hcons⟩ := ih hfreed.consistent hrest (by omega)
      refine ⟨z, ?_, hcons⟩
      dsimp only
      rw [hsocket, hy, ok_bind, hz]

theorem timeoutConnections (h : x.Consistent) {iTimeout curTime : ℤ}
    (hmarker : ∀ fd, x.expired iTimeout curTime fd = true → x.KeepsMarker fd) :
    ∃ y, x.timeoutConnections iTimeout curTime = .ok y ∧ y.Consistent := by
  unfold ConnectionCache.timeoutConnections
  split_ifs
  · exact ⟨x, rfl, h⟩
  · exact h.timeoutLoop hmarker (Nat.lt_succ_self _)

/-- The loop leaves the marker behind a node or at the end. -/
theorem selectConnections (h : x.Consistent) (size : ℤ) {nodes : List (ℕ × ℤ)}
    (hsuffix : nodes <:+ x.activeConnectionList.nodes) (count : ℤ) (fds : List ℤ) (top : ℤ) :
    ∃ r, x.selectConnections size nodes count fds top = .ok r ∧
      x.activeConnectionList.Valid r.2.2.2 := by
  induction nodes generalizing count fds top with
  | nil => exact ⟨_, rfl, Or.inl rfl⟩
  | cons p rest ih =>
    obtain ⟨n, fd⟩ := p
    obtain ⟨hwait, -, hsocket, hrange⟩ := h.record_of_mem (hsuffix.subset List.mem_cons_self)
    have hrest : rest <:+ x.activeConnectionList.nodes :=
      (List.suffix_cons (n, fd) rest).trans hsuffix
    unfold ConnectionCache.selectConnections
    dsimp only
    rw [if_pos hwait, hsocket, if_pos hrange]
    split_ifs
    · exact ⟨_, rfl, NodeList.valid_itOf hrest⟩
    · exact ih hrest _ _ _

theorem selectActive (h : x.Consistent) (size : ℤ) :
    ∃ r, x.selectActive size = .ok r ∧ r.2.2.Consistent := by
  unfold ConnectionCache.selectActive
  split_ifs
  · exact ⟨_, rfl, h⟩
  · -- the walk begins at the first node or at the marker
    have hstart : ∃ nodes, x.firstToLoad = some nodes ∧
        nodes <:+ x.activeConnectionList.nodes := by
      unfold firstToLoad
      split_ifs
      · exact ⟨_, rfl, List.suffix_refl _⟩
      · obtain ⟨nodes, hnodes⟩ := NodeList.since_isSome h.marker
        exact ⟨nodes, hnodes, NodeList.since_suffix hnodes⟩
    obtain ⟨nodes, hnodes, hsuffix⟩ := hstart
    obtain ⟨⟨fds, top, it, marker⟩, hload, hvalid⟩ := h.selectConnections size hsuffix 0 [] 0
    refine ⟨(fds, top, { x with it, itIncompleteMarker := marker }), ?_, h.iterators hvalid⟩
    rw [hnodes]
    dsimp only
    rw [hload]
    rfl

theorem getConnectionRecord (h : x.Consistent)
    (hknown : 0 < fd ∧ fd < 65536 → (x.connectionMap fd).isSome) {r : Option ℤ}
    (hok : x.getConnectionRecord fd = .ok (r, y)) :
    y.Consistent ∧ ∀ fd', r = some fd' → ∃ q, y.connectionMap fd' = some q := by
  unfold ConnectionCache.getConnectionRecord at hok
  split_ifs at hok with hnone hrange
  · obtain ⟨rfl, rfl⟩ := Prod.mk.inj (Except.ok.inj hok)
    exact ⟨h, fun _ h => nomatch h⟩
  · obtain ⟨rfl, rfl⟩ := Prod.mk.inj (Except.ok.inj hok)
    obtain ⟨q, hq⟩ := Option.isSome_iff_exists.mp (hknown hrange)
    rw [record_of_some hq]
    refine ⟨h.setRecord hq rfl rfl rfl, fun fd' heq => ?_⟩
    obtain rfl := Option.some.inj heq
    exact ⟨q, setRecord_self _ _ _⟩

theorem markPendingWrite (h : x.Consistent)
    (hknown : 0 < fd ∧ fd < 65536 → (x.connectionMap fd).isSome)
    (hok : x.markPendingWrite fd = .ok y) : y.Consistent := by
  obtain ⟨⟨r, z⟩, hget, hret⟩ := bind_eq_ok.mp hok
  obtain ⟨hz, hrecord⟩ := h.getConnectionRecord hknown hget
  cases r with
  | none => exact Except.ok.inj hret ▸ hz
  | some fd' =>
    obtain ⟨q, hq⟩ := hrecord fd' rfl
    obtain rfl := Except.ok.inj hret
    rw [record_of_some hq]
    exact hz.setRecord hq rfl rfl rfl

end Consistent

end ConnectionCache

/-! ### Every run -/

namespace CacheUse

variable {s t : CacheUse}

/-- Before `GetNextSetRecord` the iterator may be used, also when the record it returned last is
freed. -/
def Enumerates (x : ConnectionCache) : InboundPc → Prop
  | .outside => True
  | .next => x.activeConnectionList.Valid x.it
  | .returned fd => ∃ n, (n, fd) ∈ x.activeConnectionList.nodes ∧
      x.activeConnectionList.Valid x.it ∧ x.it ≠ .node n

structure Inv (s : CacheUse) : Prop where
  safe : s.failed = false
  consistent : s.cache.Consistent
  enumerates : Enumerates s.cache s.pc

/-- A call that returns or throws, but does not use a bad iterator. -/
theorem Inv.after (h : s.Inv) {pc : InboundPc} {r : Cxx ConnectionCache}
    (hr : r ≠ .error .undefined)
    (hok : ∀ y, r = .ok y → y.Consistent ∧ Enumerates y pc) : (s.after pc r).Inv := by
  cases r with
  | ok y =>
    obtain ⟨hcons, henum⟩ := hok y rfl
    exact ⟨h.safe, hcons, henum⟩
  | error e =>
    cases e with
    | undefined => exact absurd rfl hr
    | charPtr => exact h
    | stdException => exact h
    | cException => exact h

theorem addConnection_ne (x : ConnectionCache) (fd now : ℤ) :
    x.addConnection fd now ≠ .error .undefined := by
  unfold ConnectionCache.addConnection
  split_ifs
  · exact fun h => nomatch h
  · exact fun h => nomatch h

theorem getConnectionRecord_ne (x : ConnectionCache) (fd : ℤ) :
    x.getConnectionRecord fd ≠ .error .undefined := by
  unfold ConnectionCache.getConnectionRecord
  split_ifs
  all_goals exact fun h => nomatch h

theorem markPendingWrite_ne (x : ConnectionCache) (fd : ℤ) :
    x.markPendingWrite fd ≠ .error .undefined := by
  have hget := getConnectionRecord_ne x fd
  unfold ConnectionCache.markPendingWrite
  cases hr : x.getConnectionRecord fd with
  | error e =>
    rw [error_bind]
    exact fun heq => hget (hr.trans (congrArg _ (Except.error.inj heq)))
  | ok r =>
    obtain ⟨o, y⟩ := r
    rw [ok_bind]
    cases o with
    | none => exact fun h => nomatch h
    | some fd' => exact fun h => nomatch h

/-- What a handler writes to a record changes neither the list nor the iterators. -/
theorem handle_ok (x : ConnectionCache) (hx : x.Consistent) (fd timestamp bufferCount : ℤ)
    (pendingwrite pActiveHandler : Bool) :
    ∃ y, CacheOp.call x (.handle fd timestamp pendingwrite pActiveHandler bufferCount) = .ok y ∧
      y.Consistent ∧ y.activeConnectionList = x.activeConnectionList ∧ y.it = x.it := by
  unfold CacheOp.call
  dsimp only
  cases hr : x.connectionMap fd with
  | none => exact ⟨x, rfl, hx, rfl, rfl⟩
  | some r => exact ⟨_, rfl, hx.setRecord hr rfl rfl rfl, rfl, rfl⟩

/-- The calls outside of the enumeration. -/
theorem Inv.call (h : s.Inv) {op : CacheOp} (horder : (CacheAction.call op).Orderly s) :
    (s.after .outside (op.call s.cache)).Inv := by
  cases op with
  | addConnection fd now =>
    exact h.after (addConnection_ne _ _ _) fun y hy =>
      ⟨h.consistent.addConnection horder hy, trivial⟩
  | freeConnection fd =>
    obtain ⟨y, hy, hfreed⟩ := h.consistent.freeConnection horder
    refine h.after ?_ fun z hz => ?_
    · exact fun herr => nomatch hy.symm.trans herr
    · obtain rfl := Except.ok.inj (hy.symm.trans hz)
      exact ⟨hfreed.consistent, trivial⟩
  | getConnectionRecord fd =>
    refine h.after ?_ fun y hy => ?_
    · have hne := getConnectionRecord_ne s.cache fd
      unfold CacheOp.call
      dsimp only
      cases hr : s.cache.getConnectionRecord fd with
      | error e =>
        rw [error_bind]
        exact fun heq => hne (hr.trans (congrArg _ (Except.error.inj heq)))
      | ok r => exact fun h => nomatch h
    · obtain ⟨⟨o, z⟩, hget, hret⟩ := bind_eq_ok.mp hy
      obtain rfl := Except.ok.inj hret
      exact ⟨(h.consistent.getConnectionRecord horder hget).1, trivial⟩
  | markPendingWrite fd =>
    exact h.after (markPendingWrite_ne _ _) fun y hy =>
      ⟨h.consistent.markPendingWrite horder hy, trivial⟩
  | handle fd timestamp pendingwrite pActiveHandler bufferCount =>
    obtain ⟨y, hy, hcons, -⟩ := handle_ok s.cache h.consistent fd timestamp bufferCount
      pendingwrite pActiveHandler
    refine h.after ?_ fun z hz => ?_
    · exact fun herr => nomatch hy.symm.trans herr
    · obtain rfl := Except.ok.inj (hy.symm.trans hz)
      exact ⟨hcons, trivial⟩
  | timeoutConnections iTimeout curTime =>
    obtain ⟨y, hy, hcons⟩ := h.consistent.timeoutConnections horder
    refine h.after ?_ fun z hz => ?_
    · exact fun herr => nomatch hy.symm.trans herr
    · obtain rfl := Except.ok.inj (hy.symm.trans hz)
      exact ⟨hcons, trivial⟩
  | setActiveConnections size =>
    obtain ⟨r, hr, hcons⟩ := h.consistent.selectActive size
    have hy : CacheOp.call s.cache (.setActiveConnections size) = .ok r.2.2 := by
      unfold CacheOp.call
      dsimp only
      rw [hr]
      rfl
    refine h.after ?_ fun z hz => ?_
    · exact fun herr => nomatch hy.symm.trans herr
    · obtain rfl := Except.ok.inj (hy.symm.trans hz)
      exact ⟨hcons, trivial⟩

theorem Inv.next (h : s.Inv) (hpc : s.pc = .next) (isSet : ℤ → Bool) :
    ∃ nodes, nodes <:+ s.cache.activeConnectionList.nodes ∧
      s.cache.getNextSetRecord isSet = .ok ((s.cache.nextSetRecord isSet nodes).1,
        { s.cache with it := (s.cache.nextSetRecord isSet nodes).2 }) := by
  have hvalid : s.cache.activeConnectionList.Valid s.cache.it := by
    have henum := h.enumerates
    rwa [hpc] at henum
  obtain ⟨nodes, hnodes⟩ := NodeList.since_isSome hvalid
  refine ⟨nodes, NodeList.since_suffix hnodes, ?_⟩
  unfold ConnectionCache.getNextSetRecord
  rw [hnodes]
  rfl

theorem Inv.step (h : s.Inv) {a : CacheAction} (hstep : OrderlyStep s a t) : t.Inv := by
  obtain ⟨hstep, horder⟩ := hstep
  cases hstep with
  | call _ _ => exact h.call horder
  | @handle fd timestamp bufferCount pendingwrite pActiveHandler _ hpc =>
    obtain ⟨y, hy, hcons, hlist, hit⟩ := handle_ok s.cache h.consistent fd timestamp bufferCount
      pendingwrite pActiveHandler
    refine h.after ?_ fun z hz => ?_
    · exact fun herr => nomatch hy.symm.trans herr
    · obtain rfl := Except.ok.inj (hy.symm.trans hz)
      have henum := h.enumerates
      rw [hpc] at henum ⊢
      unfold Enumerates at henum ⊢
      rw [hlist, hit]
      exact ⟨hcons, henum⟩
  | resetEnumerator _ _ =>
    exact ⟨h.safe, h.consistent.iterators h.consistent.marker,
      NodeList.valid_itOf (List.suffix_refl _)⟩
  | @getNextSetRecord isSet fd y _ hpc hok =>
    obtain ⟨nodes, hsuffix, hnext⟩ := h.next hpc isSet
    obtain ⟨hfd, rfl⟩ := Prod.mk.inj (Except.ok.inj (hnext.symm.trans hok))
    exact ⟨h.safe, h.consistent.iterators h.consistent.marker,
      ConnectionCache.nextSetRecord_some isSet hsuffix hfd⟩
  | @lastSetRecord isSet y _ hpc hok =>
    obtain ⟨nodes, -, hnext⟩ := h.next hpc isSet
    obtain ⟨-, rfl⟩ := Prod.mk.inj (Except.ok.inj (hnext.symm.trans hok))
    exact ⟨h.safe, h.consistent.iterators h.consistent.marker, trivial⟩
  | @nextFails isSet e _ hpc herr =>
    obtain ⟨nodes, -, hnext⟩ := h.next hpc isSet
    cases hnext.symm.trans herr
  | @keep fd _ hpc =>
    have henum := h.enumerates
    rw [hpc] at henum
    obtain ⟨n, -, hvalid, -⟩ := henum
    exact ⟨h.safe, h.consistent, hvalid⟩
  | @close fd _ hpc =>
    have henum := h.enumerates
    rw [hpc] at henum
    obtain ⟨n, hn, hvalid, hne⟩ := henum
    obtain ⟨-, hit, hsocket, -⟩ := h.consistent.record_of_mem hn
    rw [hsocket]
    obtain ⟨y, hy, hfreed⟩ := h.consistent.freeConnection (horder fd hpc)
    refine h.after ?_ fun z hz => ?_
    · exact fun herr => nomatch hy.symm.trans herr
    · obtain rfl := Except.ok.inj (hy.symm.trans hz)
      refine ⟨hfreed.consistent, ?_⟩
      unfold Enumerates
      rw [hfreed.it]
      exact hfreed.valid _ hvalid (Or.inr (hit.symm ▸ hne))

/-- In every run of orderly calls the cache is represented as it should be, and no call uses a bad
iterator. -/
theorem cache_sound {actions : List CacheAction} (hrun : Run OrderlyStep {} actions s) :
    s.Sound := by
  have hinit : Inv {} := ⟨rfl, ConnectionCache.Consistent.initial, trivial⟩
  have hinv := hrun.invariant (fun _ _ _ hi hstep => hi.step hstep) hinit
  exact ⟨hinv.safe, hinv.consistent.toRepresented⟩

/-- What a call outside of the enumeration leaves. -/
def called (s : CacheUse) (op : CacheOp) : CacheUse := s.after .outside (op.call s.cache)

theorem called_step (op : CacheOp) (hsafe : s.failed = false) (hpc : s.pc = .outside) :
    CacheStep s (.call op) (s.called op) := .call hsafe hpc

/-- A connection is accepted, read and closed. -/
theorem cache_sound_of_one : ∃ actions s, Run OrderlyStep {} actions s ∧ s.Sound ∧
    s.cache.closed = [5] := by
  let accepted := called {} (.addConnection 5 0)
  let started : CacheUse := { accepted with cache := accepted.cache.resetEnumerator, pc := .next }
  let read : CacheUse := { started with cache := { started.cache with it := .stop }
                                        pc := .returned 5 }
  have hadd : OrderlyStep {} (.call (.addConnection 5 0)) accepted :=
    ⟨called_step _ rfl rfl, fun h => nomatch h⟩
  have hstart : OrderlyStep accepted .resetEnumerator started := ⟨.resetEnumerator rfl rfl, trivial⟩
  have hread : OrderlyStep started (.getNextSetRecord fun _ => true) read :=
    ⟨.getNextSetRecord rfl rfl rfl, trivial⟩
  have hclose : OrderlyStep read .close
      (read.after .next (read.cache.freeConnection (read.cache.record 5).socketfd)) :=
    ⟨.close rfl rfl, fun _ _ => Or.inl rfl⟩
  have hrun := (((Run.nil.snoc hadd).snoc hstart).snoc hread).snoc hclose
  exact ⟨_, _, hrun, cache_sound hrun, rfl⟩

/-- A pending write is marked on a descriptor that was never accepted, and the descriptor is
freed. -/
theorem cache_of_unknown : ∃ actions s, Run CacheStep {} actions s ∧ ¬ s.Sound := by
  let marked := called {} (.markPendingWrite 5)
  have hmark : CacheStep {} (.call (.markPendingWrite 5)) marked := called_step _ rfl rfl
  have hfree : CacheStep marked (.call (.freeConnection 5)) (marked.called (.freeConnection 5)) :=
    called_step _ rfl rfl
  exact ⟨_, _, (Run.nil.snoc hmark).snoc hfree, fun hs => Bool.noConfusion hs.safe⟩

end CacheUse

end MsgCourier
