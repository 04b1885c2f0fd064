import MsgCourier.OutboundTasks

/-! The iterations of `cConnectionQueue::Run` beside the calls of `SendMsg`: the flag of a
connection and the messages that are queued for it. -/
namespace MsgCourier
open ListSearch CText NodeLists Runs ZeroFill

/-- Where `Run` is in its iteration. Outside it does not hold `m_ThreadSync`; where it ended it
holds it for ever. -/
inductive IterationPc
  | outside
  | timeouts
  | connections
  | outbound
  | ended
  deriving DecidableEq, Repr

/-- The connection queue with the messages of its outbound queue, each an object of its own. -/
structure OutboundQueue where
  queue : ConnectionQueue := {}
  outbound : List Msg := []
  pc : IterationPc := .outside

/-- The record that a message is handled with. -/
def Msg.connectionRecord (m : Msg) : Option ℤ :=
  if m.msgConnectionType = .obTcp ∧ m.tcpSocketHandle ≠ -1 ∧ m.tcpSocketHandle ≠ 0 then
    some m.tcpSocketHandle
  else none

namespace ConnectionQueue

def markPending (q : ConnectionQueue) (pMsg : Msg) : Cxx ConnectionCache :=
  if pMsg.msgConnectionType = .obTcp then q.cache.markPendingWrite pMsg.tcpSocketHandle
  else if pMsg.msgConnectionType = .obUdp then q.cache.markPendingWrite pMsg.udpSocketHandle
  else pure q.cache

/-- What the handler writes to the record behind `TransmitMsg`. -/
def clearPending (x : ConnectionCache) : Option ℤ → ConnectionCache
  | none => x
  | some fd => x.setRecord fd { x.record fd with pendingwrite := false }

/-- The body of the loop of `ProcessOutboundTasks`. -/
def transmit [Malloc] (q : ConnectionQueue) (t : OutboundTask) : Cxx ConnectionQueue := do
  let (s, cache) ← q.handleConnection t
  let cache ← freeSent s (clearPending cache t.pMsg.connectionRecord)
  pure { q with handler := s.handler, cache }

end ConnectionQueue

namespace OutboundQueue

def setCache (s : OutboundQueue) (cache : ConnectionCache) : OutboundQueue :=
  { s with queue := { s.queue with cache } }

/-- The message stays on the queue when the assertion on its descriptor throws. -/
def sendMsg (s : OutboundQueue) (pMsg : Msg) : OutboundQueue :=
  let s := { s with outbound := pMsg :: s.outbound }
  match s.queue.markPending pMsg with
  | .ok cache => s.setCache cache
  | .error _ => s

end OutboundQueue

inductive IterationAction
  | sendMsg (pMsg : Msg)
  | freeConnection (socketfd : ℤ)
  | lock
  | timeoutConnections (iTimeout curTime : ℤ)
  | early
  | call (op : CacheOp)
  | enumerate (it : It)
  | processOutboundTasks
  | transmit (t : OutboundTask)
  | unlock

/-- Another thread calls `SendMsg` or `FreeConnection` while `Run` does not hold the lock. Behind
the timeouts `Run` adds the connections of the pre-queue and handles what is read; then it takes the
messages off the queue, one of the highest priority at a time; `TransmitMsg` does not throw. What an
assertion throws there leaves `Run` through `LOGALL`, and `m_ThreadSync` stays locked. -/
inductive IterationStep [Malloc] : OutboundQueue → IterationAction → OutboundQueue → Prop
  | sendMsg {s : OutboundQueue} {pMsg : Msg} :
      s.pc = .outside → IterationStep s (.sendMsg pMsg) (s.sendMsg pMsg)
  | freeConnection {s : OutboundQueue} {socketfd : ℤ} {cache : ConnectionCache} :
      s.pc = .outside → s.queue.cache.freeConnection socketfd = .ok cache →
      IterationStep s (.freeConnection socketfd) (s.setCache cache)
  | lock {s : OutboundQueue} :
      s.pc = .outside → IterationStep s .lock { s with pc := .timeouts }
  | timeoutConnections {s : OutboundQueue} {iTimeout curTime : ℤ} {cache : ConnectionCache} :
      s.pc = .timeouts → s.queue.cache.timeoutConnections iTimeout curTime = .ok cache →
      IterationStep s (.timeoutConnections iTimeout curTime)
        { s.setCache cache with pc := .connections }
  | early {s : OutboundQueue} :
      s.pc = .timeouts → IterationStep s .early { s with pc := .connections }
  | call {s : OutboundQueue} {op : CacheOp} {cache : ConnectionCache} :
      s.pc = .connections → op.call s.queue.cache = .ok cache →
      IterationStep s (.call op) (s.setCache cache)
  | enumerate {s : OutboundQueue} {it : It} :
      s.pc = .connections → IterationStep s (.enumerate it) (s.setCache { s.queue.cache with it })
  | processOutboundTasks {s : OutboundQueue} :
      s.pc = .connections → IterationStep s .processOutboundTasks { s with pc := .outbound }
  | transmit {s : OutboundQueue} {before after : List Msg} {t : OutboundTask}
      {queue : ConnectionQueue} :
      s.pc = .outbound → s.outbound = before ++ t.pMsg :: after →
      (∀ m ∈ before ++ after, m.msgPriority ≤ t.pMsg.msgPriority) →
      s.queue.transmit t = .ok queue →
      IterationStep s (.transmit t) { s with queue, outbound := before ++ after }
  | throws {s : OutboundQueue} {t : OutboundTask} :
      s.pc = .outbound → t.pMsg ∈ s.outbound →
      (∀ m ∈ s.outbound, m.msgPriority ≤ t.pMsg.msgPriority) →
      s.queue.findRecord t.pMsg = .error .charPtr →
      IterationStep s (.transmit t) { s with pc := .ended }
  | unlock {s : OutboundQueue} :
      s.pc = .outbound → s.outbound = [] → IterationStep s .unlock { s with pc := .outside }

/-! ### The records -/

namespace ConnectionCache

variable {x y : ConnectionCache} {fd : ℤ}

/-- A record that is waiting has the descriptor that it is found under. -/
def Keyed (x : ConnectionCache) : Prop :=
  ∀ fd, (x.record fd).state = .waiting →
    (x.record fd).socketfd = fd ∧ 0 < fd ∧ fd < 65536

theorem record_setRecord_self (x : ConnectionCache) (fd : ℤ) (r : CacheRecord) :
    (x.setRecord fd r).record fd = r := record_of_some (setRecord_self x fd r)

theorem record_setRecord_of_ne (x : ConnectionCache) {fd fd' : ℤ} (h : fd' ≠ fd)
    (r : CacheRecord) : (x.setRecord fd r).record fd' = x.record fd' := by
  unfold record
  rw [setRecord_of_ne x h r]

theorem Keyed.initial : Keyed {} := fun _ h => nomatch h

theorem Keyed.setRecord (h : x.Keyed) {r : CacheRecord}
    (hr : r.state = .waiting → r.socketfd = fd ∧ 0 < fd ∧ fd < 65536) :
    (x.setRecord fd r).Keyed := by
  intro fd' hwait
  by_cases heq : fd' = fd
  · rw [heq, record_setRecord_self] at hwait ⊢
    exact hr hwait
  · rw [record_setRecord_of_ne x heq] at hwait ⊢
    exact h fd' hwait

/-- What does not write a descriptor or a state. -/
theorem Keyed.write (h : x.Keyed) {r : CacheRecord} (hstate : r.state = (x.record fd).state)
    (hsocket : r.socketfd = (x.record fd).socketfd) : (x.setRecord fd r).Keyed := by
  apply h.setRecord
  intro hwait
  rw [hsocket]
  exact h fd (hstate.symm.trans hwait)

theorem Keyed.addConnection (h : x.Keyed) {now : ℤ} (hok : x.addConnection fd now = .ok y) :
    y.Keyed := by
  unfold ConnectionCache.addConnection at hok
  split_ifs at hok with hrange
  obtain rfl := Except.ok.inj hok
  exact Keyed.setRecord (x := { x with activeConnectionList := _ }) h fun _ => ⟨rfl, hrange⟩

/-- A connection that is freed is closed, and no other record is written. -/
theorem freeConnection_eq_ok (hok : x.freeConnection fd = .ok y) :
    y.closed = (if fd = -1 then x.closed else x.closed ++ [fd]) ∧
      (∀ fd', fd' ≠ fd → y.record fd' = x.record fd') ∧
      ((y.record fd).state = .waiting → fd = -1 ∧ y = x) := by
  unfold freeConnection at hok
  split_ifs at hok with hminus
  · obtain rfl := Except.ok.inj hok
    exact ⟨(if_pos hminus).symm, fun _ _ => rfl, fun _ => ⟨hminus, rfl⟩⟩
  · rw [if_neg hminus]
    cases hr : x.connectionMap fd with
    | none =>
      rw [hr] at hok
      obtain rfl := Except.ok.inj hok
      refine ⟨rfl, fun _ _ => rfl, fun hwait => ?_⟩
      obtain ⟨r, hsome, -⟩ := exists_of_waiting hwait
      cases hr.symm.trans hsome
    | some r =>
      rw [hr] at hok
      obtain ⟨l, -, hok⟩ := bind_eq_ok.mp hok
      obtain rfl := Except.ok.inj hok
      refine ⟨rfl, fun fd' hne => record_setRecord_of_ne _ hne _, fun hwait => ?_⟩
      rw [record_setRecord_self] at hwait
      cases hwait

theorem Keyed.freeConnection (h : x.Keyed) (hok : x.freeConnection fd = .ok y) : y.Keyed := by
  obtain ⟨-, hother, hidle⟩ := freeConnection_eq_ok hok
  intro fd' hwait
  by_cases heq : fd' = fd
  · rw [heq] at hwait
    obtain ⟨-, rfl⟩ := hidle hwait
    exact h fd' (heq ▸ hwait)
  · rw [hother fd' heq] at hwait ⊢
    exact h fd' hwait

theorem getConnectionRecord_eq_ok {r : Option ℤ × ConnectionCache}
    (hok : x.getConnectionRecord fd = .ok r) :
    (r = (none, x) ∧ (fd = -1 ∨ fd = 0)) ∨
      (r = (some fd, x.setRecord fd (x.record fd)) ∧ 0 < fd ∧ fd < 65536) := by
  unfold getConnectionRecord at hok
  split_ifs at hok with hnone hrange
  · exact Or.inl ⟨(Except.ok.inj hok).symm, hnone⟩
  · exact Or.inr ⟨(Except.ok.inj hok).symm, hrange⟩

/-- The record that is marked, with all others as they were. -/
theorem markPendingWrite_eq_ok (hok : x.markPendingWrite fd = .ok y) :
    y.closed = x.closed ∧
      ∀ fd', y.record fd' = { x.record fd' with
        pendingwrite := (x.record fd').pendingwrite ||
          decide (fd' = fd ∧ 0 < fd ∧ fd < 65536) } := by
  obtain ⟨r, hread, hok⟩ := bind_eq_ok.mp hok
  rcases getConnectionRecord_eq_ok hread with ⟨rfl, hnone⟩ | ⟨rfl, hrange⟩
  · obtain rfl := Except.ok.inj hok
    refine ⟨rfl, fun fd' => ?_⟩
    have hnot : ¬ (fd' = fd ∧ 0 < fd ∧ fd < 65536) := by omega
    rw [decide_eq_false hnot, Bool.or_false]
  · obtain rfl := Except.ok.inj hok
    refine ⟨rfl, fun fd' => ?_⟩
    by_cases heq : fd' = fd
    · rw [heq, record_setRecord_self, record_setRecord_self,
        decide_eq_true ⟨rfl, hrange⟩, Bool.or_true]
    · rw [record_setRecord_of_ne _ heq, record_setRecord_of_ne _ heq,
        decide_eq_false fun h => heq h.1, Bool.or_false]

/-- The assertion on a descriptor holds for every record that is waiting. -/
theorem Keyed.markPendingWrite_ok (h : x.Keyed) (hwait : (x.record fd).state = .waiting) :
    ∃ y, x.markPendingWrite fd = .ok y := by
  obtain ⟨-, hrange⟩ := h fd hwait
  have hread : x.getConnectionRecord fd = .ok (some fd, x.setRecord fd (x.record fd)) := by
    unfold getConnectionRecord
    rw [if_neg (by omega), if_pos hrange]
    rfl
  unfold ConnectionCache.markPendingWrite
  rw [hread]
  exact ⟨_, rfl⟩

theorem Keyed.markPendingWrite (h : x.Keyed) (hok : x.markPendingWrite fd = .ok y) : y.Keyed := by
  obtain ⟨-, hrecord⟩ := markPendingWrite_eq_ok hok
  intro fd' hwait
  rw [hrecord fd'] at hwait ⊢
  exact h fd' hwait

/-- The timeouts pass over a record whose flag is set. -/
theorem Keyed.timeoutLoop {iTimeout curTime : ℤ} {fuel : ℕ} (h : x.Keyed)
    (hok : ConnectionCache.timeoutLoop iTimeout curTime fuel x = .ok y) :
    y.Keyed ∧ ∀ fd, (x.record fd).pendingwrite = true →
      y.record fd = x.record fd ∧ y.closed.count fd = x.closed.count fd := by
  induction fuel generalizing x with
  | zero => cases hok
  | succ fuel ih =>
    unfold ConnectionCache.timeoutLoop at hok
    split at hok
    · obtain rfl := Except.ok.inj hok
      exact ⟨h, fun _ _ => ⟨rfl, rfl⟩⟩
    next p hfind =>
      obtain ⟨z, hfree, hok⟩ := bind_eq_ok.mp hok
      have hexpired : x.expired iTimeout curTime p.2 = true := by simpa using List.find?_some hfind
      simp only [expired, Bool.and_eq_true, Bool.not_eq_true', decide_eq_true_eq] at hexpired
      obtain ⟨⟨hflag, hwait⟩, -⟩ := hexpired
      -- The descriptor that is freed is the one of the expired record, which has no flag.
      rw [(h p.2 hwait).1] at hfree
      obtain ⟨hclosed, hother, -⟩ := freeConnection_eq_ok hfree
      obtain ⟨hkeyed, hspared⟩ := ih (h.freeConnection hfree) hok
      refine ⟨hkeyed, fun fd hpending => ?_⟩
      have hne : fd ≠ p.2 := by
        rintro rfl
        rw [hflag] at hpending
        cases hpending
      have hrecord := hother fd hne
      have hcount : z.closed.count fd = x.closed.count fd := by
        rw [hclosed]
        split_ifs
        · rfl
        · rw [List.count_append, List.count_singleton, beq_eq_false_iff_ne.mpr hne.symm]
          rfl
      obtain ⟨hsame, hcount'⟩ := hspared fd (hrecord ▸ hpending)
      exact ⟨hsame.trans hrecord, hcount'.trans hcount⟩

theorem Keyed.timeoutConnections {iTimeout curTime : ℤ} (h : x.Keyed)
    (hok : x.timeoutConnections iTimeout curTime = .ok y) :
    y.Keyed ∧ ∀ fd, (x.record fd).pendingwrite = true →
      y.record fd = x.record fd ∧ y.closed.count fd = x.closed.count fd := by
  unfold ConnectionCache.timeoutConnections at hok
  split_ifs at hok
  · obtain rfl := Except.ok.inj hok
    exact ⟨h, fun _ _ => ⟨rfl, rfl⟩⟩
  · exact h.timeoutLoop hok

/-- No call of the cache leaves a waiting record under another descriptor. -/
theorem Keyed.call (h : x.Keyed) {op : CacheOp} (hok : op.call x = .ok y) : y.Keyed := by
  cases op with
  | addConnection socketfd now => exact h.addConnection hok
  | freeConnection socketfd => exact h.freeConnection hok
  | getConnectionRecord socketfd =>
    obtain ⟨r, hread, hok⟩ := bind_eq_ok.mp hok
    obtain rfl := Except.ok.inj hok
    rcases getConnectionRecord_eq_ok hread with ⟨rfl, -⟩ | ⟨rfl, -⟩
    · exact h
    · exact h.write rfl rfl
  | markPendingWrite socketfd => exact h.markPendingWrite hok
  | handle socketfd timestamp pendingwrite pActiveHandler bufferCount =>
    dsimp only [CacheOp.call] at hok
    cases hr : x.connectionMap socketfd with
    | none =>
      rw [hr] at hok
      obtain rfl := Except.ok.inj hok
      exact h
    | some r =>
      rw [hr] at hok
      obtain rfl := Except.ok.inj hok
      have hrecord := record_of_some hr
      exact h.write (hrecord ▸ rfl) (hrecord ▸ rfl)
  | timeoutConnections iTimeout curTime => exact (h.timeoutConnections hok).1
  | setActiveConnections size =>
    obtain ⟨r, hset, hok⟩ := bind_eq_ok.mp hok
    obtain rfl := Except.ok.inj hok
    unfold ConnectionCache.selectActive at hset
    split_ifs at hset
    · obtain rfl := Except.ok.inj hset
      exact h
    · split at hset
      · cases hset
      · obtain ⟨_, -, hset⟩ := bind_eq_ok.mp hset
        obtain rfl := Except.ok.inj hset
        exact h

end ConnectionCache

/-! ### The messages that are queued -/

namespace OutboundQueue

variable {s t : OutboundQueue}

/-- The flag of a connection that is waiting is set while a message is queued for it. -/
def Pending (s : OutboundQueue) : Prop :=
  ∀ m ∈ s.outbound, m.msgConnectionType = .obTcp →
    (s.queue.cache.record m.tcpSocketHandle).state = .waiting →
    (s.queue.cache.record m.tcpSocketHandle).pendingwrite = true

/-- Between the timeouts and the end of an iteration the flags may be anything. -/
structure Guarded (s : OutboundQueue) : Prop where
  keyed : s.queue.cache.Keyed
  pending : s.pc = .outside ∨ s.pc = .timeouts → s.Pending

theorem Guarded.initial : Guarded {} where
  keyed := .initial
  pending _ _ h := absurd h List.not_mem_nil

/-- A message is queued, and the flag of its connection set. -/
theorem Guarded.sendMsg (h : s.Guarded) (pMsg : Msg) (hpc : s.pc = .outside) :
    (s.sendMsg pMsg).Guarded := by
  have hpending := h.pending (Or.inl hpc)
  -- Marking a descriptor sets the flag of its record and keeps the others.
  have hmarked (fd : ℤ) (cache : ConnectionCache)
      (hok : s.queue.cache.markPendingWrite fd = .ok cache)
      (hown : pMsg.msgConnectionType = .obTcp → pMsg.tcpSocketHandle = fd) :
      Guarded (setCache { s with outbound := pMsg :: s.outbound } cache) := by
    obtain ⟨-, hrecord⟩ := ConnectionCache.markPendingWrite_eq_ok hok
    refine ⟨h.keyed.markPendingWrite hok, fun _ => List.forall_mem_cons.mpr ⟨?_, ?_⟩⟩
    · intro htcp hwait
      change (cache.record pMsg.tcpSocketHandle).state = .waiting at hwait
      change (cache.record pMsg.tcpSocketHandle).pendingwrite = true
      rw [hown htcp, hrecord fd] at hwait ⊢
      rw [decide_eq_true ⟨rfl, (h.keyed fd hwait).2⟩, Bool.or_true]
    · intro m hm htcp hwait
      change (cache.record m.tcpSocketHandle).state = .waiting at hwait
      change (cache.record m.tcpSocketHandle).pendingwrite = true
      rw [hrecord] at hwait ⊢
      rw [hpending m hm htcp hwait, Bool.true_or]
  have hunmarked (hcase : pMsg.msgConnectionType = .obTcp →
      (s.queue.cache.record pMsg.tcpSocketHandle).state ≠ .waiting) :
      Guarded { s with outbound := pMsg :: s.outbound } :=
    ⟨h.keyed, fun _ =>
      List.forall_mem_cons.mpr ⟨fun htcp hwait => absurd hwait (hcase htcp), hpending⟩⟩
  unfold OutboundQueue.sendMsg ConnectionQueue.markPending
  dsimp only
  by_cases htcp : pMsg.msgConnectionType = .obTcp
  · rw [if_pos htcp]
    cases hok : s.queue.cache.markPendingWrite pMsg.tcpSocketHandle with
    | error e =>
      -- The assertion that threw does not throw for a connection that is waiting.
      refine hunmarked fun _ hwait => ?_
      obtain ⟨cache, hmark⟩ := h.keyed.markPendingWrite_ok hwait
      cases hok.symm.trans hmark
    | ok cache => exact hmarked _ cache hok fun _ => rfl
  · rw [if_neg htcp]
    split_ifs
    · cases hok : s.queue.cache.markPendingWrite pMsg.udpSocketHandle with
      | error e => exact hunmarked fun h => absurd h htcp
      | ok cache => exact hmarked _ cache hok fun h => absurd h htcp
    · exact hunmarked fun h => absurd h htcp

/-- Freeing a connection between two iterations takes nothing from the others. -/
theorem Guarded.freeConnection (h : s.Guarded) {socketfd : ℤ} {cache : ConnectionCache}
    (hpc : s.pc = .outside) (hok : s.queue.cache.freeConnection socketfd = .ok cache) :
    (s.setCache cache).Guarded := by
  obtain ⟨-, hother, hidle⟩ := ConnectionCache.freeConnection_eq_ok hok
  refine ⟨h.keyed.freeConnection hok, fun _ m hm htcp hwait => ?_⟩
  have hpending := h.pending (Or.inl hpc) m hm htcp
  change (cache.record m.tcpSocketHandle).state = .waiting at hwait
  change (cache.record m.tcpSocketHandle).pendingwrite = true
  by_cases heq : m.tcpSocketHandle = socketfd
  · obtain ⟨-, rfl⟩ := hidle (heq ▸ hwait)
    exact hpending hwait
  · rw [hother _ heq] at hwait ⊢
    exact hpending hwait

theorem keyed_transmit [Malloc] {q q' : ConnectionQueue} {t : OutboundTask} (h : q.cache.Keyed)
    (hok : q.transmit t = .ok q') : q'.cache.Keyed := by
  obtain ⟨⟨r, x⟩, hhandle, hok⟩ := bind_eq_ok.mp hok
  obtain ⟨y, hfree, hok⟩ := bind_eq_ok.mp hok
  obtain rfl := Except.ok.inj hok
  obtain ⟨cache, hfind, hhandle⟩ := bind_eq_ok.mp hhandle
  obtain ⟨_, -, hhandle⟩ := bind_eq_ok.mp hhandle
  obtain ⟨rfl, rfl⟩ := Prod.mk.inj (Except.ok.inj hhandle)
  have hfound : cache.Keyed := by
    unfold ConnectionQueue.findRecord at hfind
    split_ifs at hfind
    · have hcall : (CacheOp.getConnectionRecord t.pMsg.tcpSocketHandle).call q.cache =
          .ok cache := hfind
      exact h.call hcall
    · exact Except.ok.inj hfind ▸ h
  have hclosed (fds : List ℤ) : (ConnectionQueue.closeAll cache fds).Keyed := hfound
  have hcleared (fds : List ℤ) : (ConnectionQueue.clearPending
      (ConnectionQueue.closeAll cache fds) t.pMsg.connectionRecord).Keyed := by
    cases t.pMsg.connectionRecord with
    | none => exact hclosed fds
    | some fd => exact (hclosed fds).write rfl rfl
  unfold ConnectionQueue.freeSent at hfree
  split_ifs at hfree
  · exact (hcleared _).freeConnection hfree
  · obtain rfl := Except.ok.inj hfree
    exact hcleared _

/-- Where the flags may be anything. -/
theorem Guarded.of_keyed (h : s.queue.cache.Keyed) {pc : IterationPc} (hpc : s.pc = pc)
    (hout : pc ≠ .outside) (htimeouts : pc ≠ .timeouts) : s.Guarded where
  keyed := h
  pending hat := hat.elim (fun hat => absurd (hpc.symm.trans hat) hout)
    (fun hat => absurd (hpc.symm.trans hat) htimeouts)

theorem Guarded.step [Malloc] (h : s.Guarded) {a : IterationAction}
    (hstep : IterationStep s a t) : t.Guarded := by
  cases hstep with
  | sendMsg hpc => exact h.sendMsg _ hpc
  | freeConnection hpc hok => exact h.freeConnection hpc hok
  | lock hpc => exact ⟨h.keyed, fun _ => h.pending (Or.inl hpc)⟩
  | timeoutConnections _ hok =>
    exact .of_keyed (h.keyed.timeoutConnections hok).1 rfl nofun nofun
  | early => exact .of_keyed h.keyed rfl nofun nofun
  | call hpc hok => exact .of_keyed (h.keyed.call hok) hpc nofun nofun
  | enumerate hpc => exact .of_keyed h.keyed hpc nofun nofun
  | processOutboundTasks => exact .of_keyed h.keyed rfl nofun nofun
  | transmit hpc _ _ hok => exact .of_keyed (keyed_transmit h.keyed hok) hpc nofun nofun
  | throws => exact .of_keyed h.keyed rfl nofun nofun
  | unlock _ hempty =>
    refine ⟨h.keyed, fun _ m hm => ?_⟩
    change m ∈ s.outbound at hm
    rw [hempty] at hm
    cases hm

/-- In every interleaving, when `TimeoutConnections` runs, the flag is set of every waiting
connection for which a message is queued, and the connection is neither changed nor closed. -/
theorem pendingwrite_of_queued [Malloc] {actions : List IterationAction}
    (hrun : Run IterationStep {} actions s)
    (hpc : s.pc = .timeouts) {m : Msg} (hm : m ∈ s.outbound) (htcp : m.msgConnectionType = .obTcp)
    (hwait : (s.queue.cache.record m.tcpSocketHandle).state = .waiting) :
    (s.queue.cache.record m.tcpSocketHandle).pendingwrite = true ∧
      ∀ iTimeout curTime cache, s.queue.cache.timeoutConnections iTimeout curTime = .ok cache →
        cache.record m.tcpSocketHandle = s.queue.cache.record m.tcpSocketHandle ∧
        cache.closed.count m.tcpSocketHandle = s.queue.cache.closed.count m.tcpSocketHandle := by
  have hguarded : s.Guarded := by
    clear hpc hm htcp hwait
    induction hrun with
    | nil => exact .initial
    | snoc _ hlast ih => exact ih.step hlast
  have hpending := hguarded.pending (Or.inr hpc) m hm htcp hwait
  refine ⟨hpending, fun iTimeout curTime cache hok => ?_⟩
  exact (hguarded.keyed.timeoutConnections hok).2 _ hpending

/-- A reply on the connection 5. -/
def queuedReply : Msg := { msgConnectionType := .obTcp, tcpSocketHandle := 5 }

/-- Two replies are queued for a connection that was added in the iteration before. -/
theorem pendingwrite_of_two : ∃ actions s, Run IterationStep {} actions s ∧
    s.outbound = [queuedReply, queuedReply] ∧
    (s.queue.cache.record 5).pendingwrite = true := by
  have hadd : ConnectionCache.addConnection {} 5 0 = .ok _ := if_pos (by decide)
  have haddCall : (CacheOp.addConnection 5 0).call {} = .ok _ := hadd
  have hlocked : Run IterationStep {} [.lock, .early] { pc := .connections } :=
    (Run.nil.snoc (.lock rfl)).snoc (.early rfl)
  have hadded := ((hlocked.snoc (.call rfl haddCall)).snoc
    (.processOutboundTasks rfl)).snoc (.unlock rfl rfl)
  have hsend (s : OutboundQueue) (h : s.pc = .outside) :
      IterationStep s (.sendMsg queuedReply) (s.sendMsg queuedReply) := .sendMsg h
  have hrun := ((hadded.snoc (hsend _ rfl)).snoc (hsend _ rfl)).snoc (.lock rfl)
  exact ⟨_, _, hrun, rfl, (pendingwrite_of_queued hrun rfl (List.mem_cons_self ..) rfl rfl).1⟩

end OutboundQueue

end MsgCourier
