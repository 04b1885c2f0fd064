import MsgCourier.MsgQueue
import MsgCourier.Runs

/-! The way of a message through the queue thread, the threads of the handlers and the outbound
thread, in the steps in which the threads can interleave. -/
namespace MsgCourier
open ListSearch CText Runs

/-! ### Routing -/

/-- What the queue thread asks: the factory of the handlers, the router rules and the services. -/
structure Router where
  getCommandHandler : Bytes → Option ℕ
  search : Msg → Bytes
  queryServiceFirst : Bytes → Option ℕ

/-- Where a routed message goes: to a handler, to the connection queue or nowhere. -/
inductive Destination
  | handler (h : ℕ)
  | connectionQueue
  | nowhere
  deriving DecidableEq, Repr

namespace Msg

def processInternalMessage (m : Msg) (r : Router) : Destination × Msg :=
  match r.getCommandHandler (cstr m.msgCommand) with
  | some h => (.handler h, m)
  | none => (.nowhere, m.setMsgState .undelivered)

def processOutboundMessage (m : Msg) : Destination × Msg :=
  if m.msgReplyActionType ≠ .none then (.connectionQueue, m) else (.nowhere, m.markProcessed)

def setRemoteHandler (m : Msg) (pService : ℕ) : Msg := { m with msgService := some pService }

/-- A message to the `MC` handler, which is dereferenced without a check. -/
def sentToMC (m : Msg) (r : Router) : Cxx (Destination × Msg) :=
  match r.getCommandHandler (bytes "MC") with
  | some h => pure (.handler h, m)
  | none => .error .undefined

/-- A command that starts like the first line of a reply. -/
def isReply (m : Msg) : Bool := (cstr m.msgCommand).take 4 = bytes "MCP/"

/-- The handler a rule names, or else the one of the command. -/
def handlerName (m : Msg) (r : Router) : Bytes :=
  if (r.search m).length ≠ 0 then cstr (r.search m) else cstr m.msgCommand

def withoutNotify (m : Msg) : Msg := { m with msgNotifyActionType := .no }

/-- The notify message that may be posted first is a message of its own. -/
def processInboundMessage (m : Msg) (r : Router) : Cxx (Destination × Msg) :=
  let m := m.withoutNotify
  if m.isReply then m.sentToMC r
  else
    match r.getCommandHandler (m.handlerName r) with
    | some h => pure (.handler h, m)
    | none =>
      match r.queryServiceFirst (cstr m.msgCommand) with
      | some pService => (m.setRemoteHandler pService).sentToMC r
      | none => { m with msgCommand := bytes "MC.ERROR" }.sentToMC r

/-- The switch of `ProcessPriorityQueue`. -/
def route (m : Msg) (r : Router) : Cxx (Destination × Msg) :=
  match m.msgConnectionType with
  | .internal => pure (m.processInternalMessage r)
  | .obUdp | .obTcp => pure m.processOutboundMessage
  | .ibUdp | .ibTcp => m.processInboundMessage r
  | .notSet => .error .charPtr

variable {m m' : Msg} {r : Router} {d : Destination}

theorem sentToMC_ok (h : m.sentToMC r = .ok (d, m')) :
    d ≠ .nowhere ∧ m'.msgState = m.msgState := by
  unfold sentToMC at h
  split at h
  · obtain ⟨rfl, rfl⟩ := Prod.mk.inj (Except.ok.inj h)
    exact ⟨nofun, rfl⟩
  · cases h

theorem processInboundMessage_ok (h : m.processInboundMessage r = .ok (d, m')) :
    d ≠ .nowhere ∧ m'.msgState = m.msgState := by
  have hsent {n : Msg} (h : n.sentToMC r = .ok (d, m')) (hn : n.msgState = m.msgState) :
      d ≠ .nowhere ∧ m'.msgState = m.msgState := by
    obtain ⟨hd, hs⟩ := sentToMC_ok h
    exact ⟨hd, hs.trans hn⟩
  unfold processInboundMessage at h
  dsimp only at h
  split_ifs at h with hreply
  · exact hsent h rfl
  · split at h
    · obtain ⟨rfl, rfl⟩ := Prod.mk.inj (Except.ok.inj h)
      exact ⟨nofun, rfl⟩
    · split at h
      · exact hsent h rfl
      · exact hsent h rfl

/-- An inbound message gets an entry only if no handler is found, and then the one of
its command. -/
theorem processInboundMessage_service (h : m.processInboundMessage r = .ok (d, m'))
    (hm : m.msgService = none) {pService : ℕ} (hs : m'.msgService = some pService) :
    m.isReply = false ∧ r.getCommandHandler (m.withoutNotify.handlerName r) = none ∧
      r.queryServiceFirst (cstr m.msgCommand) = some pService ∧ m'.msgCommand = m.msgCommand := by
  have hsent {n : Msg} (h : n.sentToMC r = .ok (d, m')) : m' = n := by
    unfold sentToMC at h
    split at h
    · exact (Prod.mk.inj (Except.ok.inj h)).2.symm
    · cases h
  have hfalse {n : Msg} (heq : m' = n) (hn : n.msgService = none) : False := by
    rw [heq, hn] at hs
    cases hs
  unfold processInboundMessage at h
  dsimp only at h
  split_ifs at h with hreply
  · exact (hfalse (hsent h) hm).elim
  · split at h
    · exact (hfalse (Prod.mk.inj (Except.ok.inj h)).2.symm hm).elim
    · rename_i hhandler
      split at h
      · rename_i a hquery
        have heq := hsent h
        rw [heq] at hs
        refine ⟨Bool.eq_false_iff.mpr hreply, hhandler, hquery.trans hs, ?_⟩
        rw [heq]
        rfl
      · exact (hfalse (hsent h) hm).elim

theorem processOutboundMessage_ok (h : m.processOutboundMessage = (d, m')) :
    (d ≠ .nowhere ∧ m'.msgState = m.msgState) ∨
      d = .nowhere ∧ m'.msgState ≠ .pending ∧ m'.msgState ≠ .inuse := by
  unfold processOutboundMessage at h
  split_ifs at h
  · obtain ⟨rfl, rfl⟩ := Prod.mk.inj h
    exact Or.inl ⟨nofun, rfl⟩
  · obtain ⟨rfl, rfl⟩ := Prod.mk.inj h
    exact Or.inr ⟨rfl, nofun, nofun⟩

/-- A message that goes somewhere keeps its state, and one that goes nowhere has got its next. -/
theorem route_ok (h : m.route r = .ok (d, m')) :
    (d ≠ .nowhere ∧ m'.msgState = m.msgState) ∨
      d = .nowhere ∧ m'.msgState ≠ .pending ∧ m'.msgState ≠ .inuse := by
  unfold route at h
  split at h
  · have h := Except.ok.inj h
    unfold processInternalMessage at h
    split at h
    · obtain ⟨rfl, rfl⟩ := Prod.mk.inj h
      exact Or.inl ⟨nofun, rfl⟩
    · obtain ⟨rfl, rfl⟩ := Prod.mk.inj h
      exact Or.inr ⟨rfl, nofun, nofun⟩
  · exact processOutboundMessage_ok (Except.ok.inj h)
  · exact processOutboundMessage_ok (Except.ok.inj h)
  · exact Or.inl (processInboundMessage_ok h)
  · exact Or.inl (processInboundMessage_ok h)
  · cases h

end Msg

/-! ### Queues -/

/-- A queue with the thread that works on it. The thread holds the lock of the queue from `top` to
`pop`; `current` is the message it works on and whether that has got its next state. -/
structure WorkQueue where
  queue : List ℕ := []
  current : Option (ℕ × Bool) := none
  /-- The messages that were popped without a next state. -/
  kept : List ℕ := []
  current_mem : ∀ p, current = some (p, false) → p ∈ queue := by nofun

namespace WorkQueue

/-- The messages of the queue that have not got their next state. -/
def waiting (w : WorkQueue) : List ℕ :=
  match w.current with
  | some (p, true) => w.queue.erase p ++ w.kept
  | some (_, false) | none => w.queue ++ w.kept

def push (w : WorkQueue) (pMsg : ℕ) : WorkQueue where
  queue := pMsg :: w.queue
  current := w.current
  kept := w.kept
  current_mem p hp := List.mem_cons_of_mem _ (w.current_mem p hp)

def top (w : WorkQueue) {pMsg : ℕ} (hp : pMsg ∈ w.queue) : WorkQueue where
  queue := w.queue
  current := some (pMsg, false)
  kept := w.kept
  current_mem p h := by
    obtain ⟨rfl, _⟩ := Prod.mk.inj (Option.some.inj h)
    exact hp

def handedOver (w : WorkQueue) (pMsg : ℕ) : WorkQueue where
  queue := w.queue
  current := some (pMsg, true)
  kept := w.kept

def pop (w : WorkQueue) (pMsg : ℕ) (b : Bool) : WorkQueue where
  queue := w.queue.erase pMsg
  kept := if b then w.kept else pMsg :: w.kept

def dropKept (w : WorkQueue) (pMsg : ℕ) : WorkQueue := { w with kept := w.kept.erase pMsg }

variable {w : WorkQueue} {p : ℕ}

theorem waiting_push (h : w.current = none) : (w.push p).waiting = p :: w.waiting := by
  simp only [waiting, push, h, List.cons_append]

theorem waiting_top (h : w.current = none) (hp : p ∈ w.queue) :
    (w.top hp).waiting = w.waiting := by
  simp only [waiting, top, h]

theorem waiting_handedOver (h : w.current = some (p, false)) :
    (p :: (w.handedOver p).waiting).Perm w.waiting := by
  simp only [waiting, handedOver, h]
  exact ((List.perm_cons_erase (w.current_mem p h)).append_right w.kept).symm

theorem waiting_pop {b : Bool} (h : w.current = some (p, b)) :
    (w.pop p b).waiting.Perm w.waiting := by
  cases b with
  | true =>
    have heq : (w.pop p true).waiting = w.waiting := by simp only [waiting, pop, h, if_true]
    rw [heq]
  | false =>
    simp only [waiting, pop, h, Bool.false_eq_true, if_false]
    calc
      (w.queue.erase p ++ p :: w.kept).Perm (p :: (w.queue.erase p ++ w.kept)) :=
        List.perm_middle
      _ |>.Perm (w.queue ++ w.kept) :=
        ((List.perm_cons_erase (w.current_mem p h)).append_right w.kept).symm

theorem waiting_dropKept (h : p ∈ w.kept) : (p :: (w.dropKept p).waiting).Perm w.waiting := by
  have happend (l : List ℕ) : (p :: (l ++ w.kept.erase p)).Perm (l ++ w.kept) :=
    List.perm_middle.symm.trans ((List.perm_cons_erase h).append_left l).symm
  unfold waiting dropKept
  dsimp only
  split
  · exact happend _
  · exact happend _
  · exact happend _

end WorkQueue

/-- Where the queue thread is: between its loops, in one of them at a message, with the state it has
read there, or behind a failed assertion. -/
inductive QueuePc
  | idle
  | pendingLook (pMsg : ℕ)
  | pendingAct (pMsg : ℕ) (msgState : MsgState)
  | pendingPush (pMsg : ℕ)
  | pendingNext
  | routing (pMsg : ℕ)
  | flushLook (pMsg : ℕ)
  | flushSwitch (pMsg : ℕ) (msgState : MsgState)
  | flushRelease (pMsg : ℕ) (msgState : MsgState)
  | flushNext
  | stopped
  deriving DecidableEq, Repr

structure Dispatcher where
  pool : MsgPool := {}
  pc : QueuePc := .idle
  priorityQueue : List ℕ := []
  jobs : ℕ → WorkQueue := fun _ => {}
  outbound : WorkQueue := {}
  /-- The messages their producers still fill. -/
  heldMsgs : List ℕ := []

namespace Dispatcher

def setJob (s : Dispatcher) (h : ℕ) (w : WorkQueue) : Dispatcher :=
  { s with jobs := Function.update s.jobs h w }

/-- The state a lookup of the pool leaves the thread in. -/
def advanced (s : Dispatcher) (next : Option ℕ) (pool : MsgPool) (look : ℕ → QueuePc) :
    Dispatcher :=
  match next with
  | some p => { s with pool, pc := look p }
  | none => { s with pool := pool.unlock, pc := .idle }

end Dispatcher

/-! ### Steps -/

/-- The last thing the holder of a message does with it: it is dispatched, put back by the busy web
server, processed, or dropped by the UDP server. -/
inductive Msg.HandedOver (m : Msg) : Msg → Prop
  | dispatchMsg (server : Bytes) : m.HandedOver (m.dispatchMsg server)
  | putBack : m.HandedOver (m.setMsgState .pending)
  | markProcessed : m.HandedOver m.markProcessed
  | dropped : m.HandedOver (m.setMsgState .markForReuse)

/-- The switch of `FlushMessages` on a state that was read before. -/
def Msg.switch (m : Msg) (msgState : MsgState) : Msg :=
  match msgState with
  | .inactive | .delivered | .processed => m.setMsgState .markForReuse
  | .undelivered | .pending | .inuse | .markForReuse => m

inductive DispatchAction
  | producer (pMsg : ℕ)
  | anyone (pMsg : ℕ)
  | handler (h : ℕ) (pMsg : ℕ)
  | outbound (pMsg : ℕ)
  | pending
  | priority
  | flush
  deriving DecidableEq, Repr

/-- One step of one thread. A message can be given out while the pool is not locked. Any thread may
change the fields of a message other than its state at any time. The order of a queue is by
priorities that may change, so any message may be at its top. -/
inductive DispatchStep : Dispatcher → DispatchAction → Dispatcher → Prop
  | getMessage {s : Dispatcher} {pNew p : ℕ} {newID : Bytes} {now : ℤ} {pool : MsgPool} :
      s.pool.bLocked = false → s.pool.objects pNew = none →
      s.pool.getReusableMessage pNew newID now = .ok (p, pool) →
      DispatchStep s (.producer p) { s with pool, heldMsgs := p :: s.heldMsgs }
  | handOver {s : Dispatcher} {p : ℕ} {m m' : Msg} :
      p ∈ s.heldMsgs → s.pool.objects p = some m → m.HandedOver m' →
      DispatchStep s (.producer p)
        { s with pool := s.pool.put p m', heldMsgs := s.heldMsgs.erase p }
  | change {s : Dispatcher} {p : ℕ} {m m' : Msg} :
      s.pool.objects p = some m → m'.msgState = m.msgState →
      DispatchStep s (.anyone p) { s with pool := s.pool.put p m' }
  | jobTop {s : Dispatcher} {h p : ℕ} (hp : p ∈ (s.jobs h).queue) :
      (s.jobs h).current = none →
      DispatchStep s (.handler h p) (s.setJob h ((s.jobs h).top hp))
  | jobHandOver {s : Dispatcher} {h p : ℕ} {m m' : Msg} :
      (s.jobs h).current = some (p, false) → s.pool.objects p = some m → m.HandedOver m' →
      DispatchStep s (.handler h p)
        { s.setJob h ((s.jobs h).handedOver p) with pool := s.pool.put p m' }
  | jobPop {s : Dispatcher} {h p : ℕ} {b : Bool} :
      (s.jobs h).current = some (p, b) →
      DispatchStep s (.handler h p) (s.setJob h ((s.jobs h).pop p b))
  | keptHandOver {s : Dispatcher} {h p : ℕ} {m m' : Msg} :
      p ∈ (s.jobs h).kept → s.pool.objects p = some m → m.HandedOver m' →
      DispatchStep s (.handler h p)
        { s.setJob h ((s.jobs h).dropKept p) with pool := s.pool.put p m' }
  | outboundTop {s : Dispatcher} {p : ℕ} (hp : p ∈ s.outbound.queue) :
      s.outbound.current = none →
      DispatchStep s (.outbound p) { s with outbound := s.outbound.top hp }
  | transmitted {s : Dispatcher} {p : ℕ} {m : Msg} {bRet : Bool} :
      s.outbound.current = some (p, false) → s.pool.objects p = some m →
      DispatchStep s (.outbound p) { s with
        outbound := s.outbound.handedOver p
        pool := s.pool.put p (m.setMsgState (if bRet then .delivered else .undelivered)) }
  | outboundPop {s : Dispatcher} {p : ℕ} :
      s.outbound.current = some (p, true) →
      DispatchStep s (.outbound p) { s with outbound := s.outbound.pop p true }
  | pendingHead {s : Dispatcher} {next : Option ℕ} {pool : MsgPool} :
      s.pc = .idle → s.pool.lock.getHead = (next, pool) →
      DispatchStep s .pending (s.advanced next pool .pendingLook)
  | pendingLook {s : Dispatcher} {p : ℕ} {m : Msg} :
      s.pc = .pendingLook p → s.pool.objects p = some m →
      DispatchStep s .pending { s with pc := .pendingAct p m.msgState }
  | pendingInuse {s : Dispatcher} {p : ℕ} {m : Msg} :
      s.pc = .pendingAct p .pending → s.pool.objects p = some m →
      DispatchStep s .pending
        { s with pool := s.pool.put p (m.setMsgState .inuse), pc := .pendingPush p }
  | pendingPush {s : Dispatcher} {p : ℕ} {m : Msg} :
      s.pc = .pendingPush p → s.pool.objects p = some m → m.msgConnectionType ≠ .notSet →
      DispatchStep s .pending { s with priorityQueue := p :: s.priorityQueue, pc := .pendingNext }
  | pendingAssert {s : Dispatcher} {p : ℕ} {m : Msg} :
      s.pc = .pendingPush p → s.pool.objects p = some m → m.msgConnectionType = .notSet →
      DispatchStep s .pending { s with pc := .stopped }
  | pendingFailed {s : Dispatcher} {p : ℕ} {m : Msg} {curtime now : ℤ} :
      s.pc = .pendingAct p .undelivered → s.pool.objects p = some m →
      DispatchStep s .pending
        { s with pool := s.pool.put p (m.failedDelivery curtime now), pc := .pendingNext }
  | pendingSkip {s : Dispatcher} {p : ℕ} {msgState : MsgState} :
      s.pc = .pendingAct p msgState → msgState ≠ .pending → msgState ≠ .undelivered →
      DispatchStep s .pending { s with pc := .pendingNext }
  | pendingNext {s : Dispatcher} {next : Option ℕ} {pool : MsgPool} :
      s.pc = .pendingNext → s.pool.getNext = .ok (next, pool) →
      DispatchStep s .pending (s.advanced next pool .pendingLook)
  | priorityTop {s : Dispatcher} {p : ℕ} :
      s.pc = .idle → p ∈ s.priorityQueue →
      DispatchStep s .priority
        { s with priorityQueue := s.priorityQueue.erase p, pc := .routing p }
  | toHandler {s : Dispatcher} {p h : ℕ} {m m' : Msg} {r : Router} :
      s.pc = .routing p → s.pool.objects p = some m → m.route r = .ok (.handler h, m') →
      (s.jobs h).current = none →
      DispatchStep s .priority
        { s.setJob h ((s.jobs h).push p) with pool := s.pool.put p m', pc := .idle }
  | toConnectionQueue {s : Dispatcher} {p : ℕ} {m m' : Msg} {r : Router} :
      s.pc = .routing p → s.pool.objects p = some m → m.route r = .ok (.connectionQueue, m') →
      s.outbound.current = none →
      DispatchStep s .priority
        { s with outbound := s.outbound.push p, pool := s.pool.put p m', pc := .idle }
  | toNowhere {s : Dispatcher} {p : ℕ} {m m' : Msg} {r : Router} :
      s.pc = .routing p → s.pool.objects p = some m → m.route r = .ok (.nowhere, m') →
      DispatchStep s .priority { s with pool := s.pool.put p m', pc := .idle }
  | flushHead {s : Dispatcher} {next : Option ℕ} {pool : MsgPool} :
      s.pc = .idle → s.pool.lock.flushFreeStack.getHead = (next, pool) →
      DispatchStep s .flush (s.advanced next pool .flushLook)
  | flushLook {s : Dispatcher} {p : ℕ} {m : Msg} :
      s.pc = .flushLook p → s.pool.objects p = some m →
      DispatchStep s .flush { s with pc := .flushSwitch p m.msgState }
  | flushSwitch {s : Dispatcher} {p : ℕ} {m : Msg} {msgState : MsgState} :
      s.pc = .flushSwitch p msgState → s.pool.objects p = some m →
      DispatchStep s .flush
        { s with pool := s.pool.put p (m.switch msgState), pc := .flushRelease p msgState }
  | flushDelete {s : Dispatcher} {p : ℕ} {m : Msg} {currentTime : ℤ} {pool : MsgPool} :
      s.pc = .flushRelease p .inactive → s.pool.objects p = some m →
      int32 (currentTime-m.msgInUseTS) > 60 → s.pool.deleteCurrent = .ok pool →
      DispatchStep s .flush { s with pool := pool.free p, pc := .flushNext }
  | flushReturn {s : Dispatcher} {p : ℕ} {m : Msg} {msgState : MsgState} {currentTime : ℤ}
      {pool : MsgPool} :
      s.pc = .flushRelease p msgState → s.pool.objects p = some m →
      ¬ (msgState = .inactive ∧ int32 (currentTime-m.msgInUseTS) > 60) →
      m.msgState = .markForReuse → s.pool.returnToPool p = .ok pool →
      DispatchStep s .flush { s with pool, pc := .flushNext }
  | flushLeave {s : Dispatcher} {p : ℕ} {m : Msg} {msgState : MsgState} {currentTime : ℤ} :
      s.pc = .flushRelease p msgState → s.pool.objects p = some m →
      ¬ (msgState = .inactive ∧ int32 (currentTime-m.msgInUseTS) > 60) →
      m.msgState ≠ .markForReuse →
      DispatchStep s .flush { s with pc := .flushNext }
  | flushNext {s : Dispatcher} {next : Option ℕ} {pool : MsgPool} :
      s.pc = .flushNext → s.pool.getNext = .ok (next, pool) →
      DispatchStep s .flush (s.advanced next pool .flushLook)

/-! ### Where messages wait -/

/-- The places a dispatched message passes. -/
inductive Place
  | pending
  | priority
  | job (h : ℕ)
  | outbound
  deriving DecidableEq, Repr

/-- A message leaves a handler or the outbound thread when that sets its next state. -/
def Dispatcher.At (s : Dispatcher) (p : ℕ) : Place → Prop
  | .pending => ∃ m, s.pool.objects p = some m ∧ m.msgState = .pending
  | .priority => p ∈ s.priorityQueue
  | .job h => p ∈ (s.jobs h).waiting
  | .outbound => p ∈ s.outbound.waiting

end MsgCourier
