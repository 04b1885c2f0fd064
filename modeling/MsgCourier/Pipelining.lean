import MsgCourier.Dispatch
import MsgCourier.HandOver
import MsgCourier.InboundContent
import MsgCourier.Turns

/-! Requests of one connection on their way through the queue thread, the handlers of the web server
and the outbound thread, and the order in which their responses are sent. -/
namespace MsgCourier
open ListSearch CText Runs Turns ZeroFill

/-! ### The traffic of the web server -/

/-- A request or its response; requests are counted on each connection. -/
structure WebMsg where
  msg : Msg
  request : ℕ

def WebMsg.key (w : WebMsg) : ℤ × ℕ := (w.msg.tcpSocketHandle, w.request)

/-- A handler whose thread is suspended, at work on a message, or done with it and still marked as
connected. -/
inductive WebHandler
  | free
  | busy (w : WebMsg)
  | done

def WebHandler.task : WebHandler → Option WebMsg
  | .busy w => some w
  | .free | .done => none

/-- The loop of `OnProcess`: the first handler that is not connected takes the message, else a new
one while there is `room`. -/
def assign (w : WebMsg) (room : ℕ) : List WebHandler → Option (List WebHandler)
  | [] => if 0 < room then some [.busy w] else none
  | .free :: hs => some (.busy w :: hs)
  | h :: hs => (assign w room hs).map (h :: ·)

/-- The messages that wait for the scan of the pool, in the queue of the queue thread, in the queue
of the web server and in that of the outbound thread. -/
structure WebTraffic where
  pending : Multiset WebMsg := 0
  priorityQueue : Multiset WebMsg := 0
  jobs : Multiset WebMsg := 0
  handlers : List WebHandler := []
  outbound : Multiset WebMsg := 0
  arrived : ℤ → ℕ := fun _ => 0
  transmitted : ℤ → List ℕ := fun _ => []

structure WebServer where
  /-- The command handler the web server is. -/
  job : ℕ
  iMaxHandlers : ℕ

/-- A message that the inbound handler of a connection dispatches for a request. -/
def Msg.Requested [Malloc] (m : Msg) (fd : ℤ) : Prop :=
  ∃ (s : InboundState) (env : InboundEnv) (pt : ProtocolType) (r : ℤ × InboundState),
    (pt = .httpGet ∨ pt = .httpPost) ∧ s.record.socketfd = fd ∧ s.processHTTP env pt = .ok r ∧
      r.2.dispatched = s.dispatched ++ [m]

/-- No message of the queue goes before `w`. -/
def WebMsg.Top (w : WebMsg) (queue : Multiset WebMsg) : Prop :=
  ∀ v ∈ queue, v.msg.msgPriority ≤ w.msg.msgPriority

def OutboundState.sendsOn (s : OutboundState) (fd : ℤ) : Bool :=
  s.actions.any fun
    | .tcpSend socketfd _ _ => socketfd == fd
    | .openTCP _ _ | .sendto _ _ _ _ | .close _ => false

namespace WebTraffic

def noteSent (s : WebTraffic) (w : WebMsg) (sent : Bool) : WebTraffic :=
  if sent then
    let fd := w.msg.tcpSocketHandle
    { s with transmitted := Function.update s.transmitted fd (s.transmitted fd ++ [w.request]) }
  else s

end WebTraffic

inductive WebAction
  | arrive (fd : ℤ)
  | scan
  | priority
  | onProcess
  | process
  | suspend
  | transmit (w : WebMsg)

/-- One step of one thread. A message that was not delivered and has a socket is dropped by the
scan, so none comes back from the outbound thread. -/
inductive WebStep [Malloc] (x : WebServer) : WebTraffic → WebAction → WebTraffic → Prop
  | arrive {s : WebTraffic} {m : Msg} {fd : ℤ} : m.Requested fd →
      WebStep x s (.arrive fd) { s with
        pending := ⟨m, s.arrived fd⟩ ::ₘ s.pending
        arrived := Function.update s.arrived fd (s.arrived fd+1) }
  | scan {s : WebTraffic} {w : WebMsg} {rest : Multiset WebMsg} {curtime now : ℤ} {m : Msg} :
      s.pending = w ::ₘ rest → w.msg.processPending curtime now = .ok (m, true) →
      WebStep x s .scan { s with
        pending := rest
        priorityQueue := ⟨m, w.request⟩ ::ₘ s.priorityQueue }
  | toWebServer {s : WebTraffic} {w : WebMsg} {rest : Multiset WebMsg} {r : Router} {m : Msg} :
      s.priorityQueue = w ::ₘ rest → w.Top rest → w.msg.route r = .ok (.handler x.job, m) →
      WebStep x s .priority { s with
        priorityQueue := rest
        jobs := ⟨m, w.request⟩ ::ₘ s.jobs }
  | toConnectionQueue {s : WebTraffic} {w : WebMsg} {rest : Multiset WebMsg} {r : Router}
      {m : Msg} :
      s.priorityQueue = w ::ₘ rest → w.Top rest → w.msg.route r = .ok (.connectionQueue, m) →
      WebStep x s .priority { s with
        priorityQueue := rest
        outbound := ⟨m, w.request⟩ ::ₘ s.outbound }
  | elsewhere {s : WebTraffic} {w : WebMsg} {rest : Multiset WebMsg} {r : Router}
      {d : Destination} {m : Msg} :
      s.priorityQueue = w ::ₘ rest → w.Top rest → w.msg.route r = .ok (d, m) →
      d ≠ .handler x.job → d ≠ .connectionQueue →
      WebStep x s .priority { s with priorityQueue := rest }
  | assigned {s : WebTraffic} {w : WebMsg} {rest : Multiset WebMsg} {hs : List WebHandler} :
      s.jobs = w ::ₘ rest → w.Top rest →
      assign w (x.iMaxHandlers-s.handlers.length) s.handlers = some hs →
      WebStep x s .onProcess { s with jobs := rest, handlers := hs }
  | putBack {s : WebTraffic} {w : WebMsg} {rest : Multiset WebMsg} :
      s.jobs = w ::ₘ rest → w.Top rest →
      assign w (x.iMaxHandlers-s.handlers.length) s.handlers = none →
      WebStep x s .onProcess { s with
        jobs := rest
        pending := ⟨w.msg.setMsgState .pending, w.request⟩ ::ₘ s.pending }
  | reply {s : WebTraffic} {w : WebMsg} {l₁ l₂ : List WebHandler} {pNewMsg q : Msg}
      {p : Option Bytes} {n : ℤ} {server : Bytes} :
      s.handlers = l₁ ++ .busy w :: l₂ →
      (pNewMsg.replyTo w.msg.setCloned).setContentPayload p n = .ok q →
      WebStep x s .process { s with
        handlers := l₁ ++ .done :: l₂
        pending := ⟨q.dispatchMsg server, w.request⟩ ::ₘ s.pending }
  | noReply {s : WebTraffic} {w : WebMsg} {l₁ l₂ : List WebHandler} :
      s.handlers = l₁ ++ .busy w :: l₂ →
      WebStep x s .process { s with handlers := l₁ ++ .done :: l₂ }
  | suspend {s : WebTraffic} {l₁ l₂ : List WebHandler} :
      s.handlers = l₁ ++ .done :: l₂ →
      WebStep x s .suspend { s with handlers := l₁ ++ .free :: l₂ }
  | transmit {s : WebTraffic} {w : WebMsg} {rest : Multiset WebMsg}
      {h : ConnectionHandlerOutbound} {sends : List SendResult} {env : OutboundEnv}
      {r : ℤ × OutboundState} :
      s.outbound = w ::ₘ rest → w.Top rest →
      OutboundState.transmitMsg { handler := h, pMsg := w.msg, sends } env = .ok r →
      WebStep x s (.transmit w)
        ({ s with outbound := rest }.noteSent w (r.2.sendsOn w.msg.tcpSocketHandle))

def WebTraffic.underWay (s : WebTraffic) : Multiset WebMsg :=
  s.pending + s.priorityQueue + s.jobs + (s.handlers.filterMap WebHandler.task : List WebMsg) +
    s.outbound

namespace WebAction

/-- What the outbound thread takes is the oldest of its connection: no request that arrived before
it is still in a queue or with a handler. -/
def Oldest (s : WebTraffic) : WebAction → Prop
  | transmit w => ∀ v ∈ s.underWay, v.msg.tcpSocketHandle = w.msg.tcpSocketHandle →
      w.request ≤ v.request
  | arrive _ | scan | priority | onProcess | process | suspend => True

/-- A request arrives on a connection that has none under way. -/
def Waits (s : WebTraffic) : WebAction → Prop
  | arrive fd => ∀ w ∈ s.underWay, w.msg.tcpSocketHandle ≠ fd
  | scan | priority | onProcess | process | suspend | transmit _ => True

end WebAction

/-! ### The ledger of requests and responses -/

namespace WebTraffic

def ledger (s : WebTraffic) : Ledger ℤ where
  asked := s.arrived
  unanswered := s.underWay.map WebMsg.key
  answers := s.transmitted

end WebTraffic

theorem assign_tasks {w : WebMsg} {room : ℕ} {hs hs' : List WebHandler}
    (h : assign w room hs = some hs') :
    ((hs'.filterMap WebHandler.task : List WebMsg) : Multiset WebMsg) =
      w ::ₘ (hs.filterMap WebHandler.task : List WebMsg) := by
  induction hs generalizing hs' with
  | nil =>
    unfold assign at h
    split_ifs at h
    obtain rfl := Option.some.inj h
    rfl
  | cons a hs ih =>
    cases a with
    | free =>
      obtain rfl := Option.some.inj h
      rfl
    | done =>
      obtain ⟨hs'', hassign, rfl⟩ := Option.map_eq_some_iff.mp h
      have hrest := ih hassign
      exact hrest
    | busy v =>
      obtain ⟨hs'', hassign, rfl⟩ := Option.map_eq_some_iff.mp h
      have hrest := ih hassign
      calc ((v :: hs''.filterMap WebHandler.task : List WebMsg) : Multiset WebMsg)
          = v ::ₘ (hs''.filterMap WebHandler.task : List WebMsg) := rfl
        _ = v ::ₘ w ::ₘ (hs.filterMap WebHandler.task : List WebMsg) := by rw [hrest]
        _ = w ::ₘ v ::ₘ (hs.filterMap WebHandler.task : List WebMsg) := Multiset.cons_swap v w _

/-! ### What a step does to a message -/

namespace Msg

variable {m m' : Msg}

theorem setConnectionType_tcpSocketHandle (m : Msg) (ct : MsgConnectionType) :
    (m.setConnectionType ct).tcpSocketHandle = m.tcpSocketHandle := by
  unfold setConnectionType
  dsimp only
  split_ifs <;> rfl

theorem setContentPayload_tcpSocketHandle [Malloc] {p : Option Bytes} {n : ℤ}
    (h : m.setContentPayload p n = .ok m') : m'.tcpSocketHandle = m.tcpSocketHandle := by
  obtain ⟨r, -, h⟩ := bind_eq_ok.mp h
  rw [← Except.ok.inj h]

theorem replyTo_tcpSocketHandle (pNewMsg m : Msg) :
    (pNewMsg.replyTo m).tcpSocketHandle = m.tcpSocketHandle := by
  unfold replyTo
  cases m.msgConnectionType <;> rfl

theorem parse_tcpSocketHandle [Malloc] {ct : MsgConnectionType} {ms : MsgFormat} {newID : Bytes}
    {r : ℤ × Msg} (h : m.parse ct ms newID = .ok r) : r.2.tcpSocketHandle = m.tcpSocketHandle := by
  obtain ⟨status, command, x, b, raw, i, rc, -, rfl⟩ := parse_inv h
  exact setConnectionType_tcpSocketHandle _ ct

theorem processInboundMessage_tcpSocketHandle {r : Router} {d : Destination}
    (h : m.processInboundMessage r = .ok (d, m')) : m'.tcpSocketHandle = m.tcpSocketHandle := by
  unfold processInboundMessage at h
  dsimp only at h
  split_ifs at h with hreply
  · rw [SameLook.sentToMC_eq h]
    rfl
  · split at h
    · rw [← (Prod.mk.inj (Except.ok.inj h)).2]
      rfl
    · split at h
      · rw [SameLook.sentToMC_eq h]
        rfl
      · rw [SameLook.sentToMC_eq h]
        rfl

/-- Routing does not change the socket of a message. -/
theorem route_tcpSocketHandle {r : Router} {d : Destination} (h : m.route r = .ok (d, m')) :
    m'.tcpSocketHandle = m.tcpSocketHandle := by
  have houtbound (h : m.processOutboundMessage = (d, m')) :
      m'.tcpSocketHandle = m.tcpSocketHandle := by
    unfold processOutboundMessage at h
    split_ifs at h
    · rw [← (Prod.mk.inj h).2]
    · rw [← (Prod.mk.inj h).2]
      rfl
  unfold route at h
  cases hct : m.msgConnectionType with
  | internal =>
    rw [hct] at h
    have hint := Except.ok.inj h
    unfold processInternalMessage at hint
    split at hint
    · rw [← (Prod.mk.inj hint).2]
    · rw [← (Prod.mk.inj hint).2]
      rfl
  | obUdp =>
    rw [hct] at h
    exact houtbound (Except.ok.inj h)
  | obTcp =>
    rw [hct] at h
    exact houtbound (Except.ok.inj h)
  | ibUdp =>
    rw [hct] at h
    exact processInboundMessage_tcpSocketHandle h
  | ibTcp =>
    rw [hct] at h
    exact processInboundMessage_tcpSocketHandle h
  | notSet =>
    rw [hct] at h
    cases h

/-- What the scan puts in line has the socket it had. -/
theorem processPending_tcpSocketHandle {curtime now : ℤ}
    (h : m.processPending curtime now = .ok (m', true)) :
    m'.tcpSocketHandle = m.tcpSocketHandle := by
  unfold processPending at h
  split at h
  · split_ifs at h
    rw [← (Prod.mk.inj (Except.ok.inj h)).1]
    rfl
  · cases h
  all_goals cases h

theorem takeFrame_tcpSocketHandle [Malloc] {s : InboundState} {newID : Bytes} {rc : ℤ} {b : Buffer}
    (h : s.takeFrame m newID = .ok (rc, m', b)) : m'.tcpSocketHandle = m.tcpSocketHandle := by
  obtain ⟨m₁, hpayload, h⟩ := bind_eq_ok.mp h
  obtain ⟨r₁, -, h⟩ := bind_eq_ok.mp h
  obtain ⟨r₂, hparse, h⟩ := bind_eq_ok.mp h
  obtain ⟨-, h⟩ := Prod.mk.inj (Except.ok.inj h)
  obtain ⟨rfl, -⟩ := Prod.mk.inj h
  exact (parse_tcpSocketHandle hparse).trans (setContentPayload_tcpSocketHandle hpayload)

theorem dispatchMsg_tcpSocketHandle (m : Msg) (server : Bytes) :
    (m.dispatchMsg server).tcpSocketHandle = m.tcpSocketHandle :=
  (SameLook.dispatchMsg m server).tcpSocketHandle

theorem Requested.tcpSocketHandle [Malloc] {fd : ℤ} (h : m.Requested fd) :
    m.tcpSocketHandle = fd := by
  obtain ⟨s, env, pt, r, -, rfl, hok, hdispatched⟩ := h
  obtain ⟨rc, m₀, b, htake, rfl⟩ := (s.processHTTP_ok_iff env pt r).mp hok
  obtain rfl := List.singleton_inj.mp (List.append_cancel_left hdispatched)
  have hrequest : (s.httpRequest env.pMessage pt).tcpSocketHandle = s.record.socketfd := by
    unfold InboundState.httpRequest
    dsimp only
    split_ifs <;> exact setConnectionType_tcpSocketHandle _ _
  calc (s.httpReply env m₀).tcpSocketHandle
      = m₀.tcpSocketHandle := dispatchMsg_tcpSocketHandle _ env.server
    _ = (s.httpRequest env.pMessage pt).tcpSocketHandle := takeFrame_tcpSocketHandle htake
    _ = s.record.socketfd := hrequest

end Msg

/-! ### Steps of the traffic are turns of the ledger -/

namespace WebTraffic

variable {x : WebServer} {s t : WebTraffic}

theorem ledger_congr (harrived : t.arrived = s.arrived)
    (hkeys : t.underWay.map WebMsg.key = s.underWay.map WebMsg.key)
    (htransmitted : t.transmitted = s.transmitted) : t.ledger = s.ledger := by
  rw [ledger, ledger, harrived, hkeys, htransmitted]

theorem keys_eq (s : WebTraffic) : s.underWay.map WebMsg.key =
    s.pending.map WebMsg.key + s.priorityQueue.map WebMsg.key + s.jobs.map WebMsg.key +
      (s.handlers.filterMap WebHandler.task : Multiset WebMsg).map WebMsg.key +
      s.outbound.map WebMsg.key := by
  simp only [underWay, Multiset.map_add]

/-- The task of a handler in the middle, in front of the others. -/
theorem tasks_busy (l₁ l₂ : List WebHandler) (w : WebMsg) :
    ((l₁ ++ .busy w :: l₂).filterMap WebHandler.task : Multiset WebMsg) =
      w ::ₘ ((l₁ ++ l₂).filterMap WebHandler.task : List WebMsg) := by
  have hperm : List.Perm ((l₁ ++ .busy w :: l₂).filterMap WebHandler.task)
      ((.busy w :: (l₁ ++ l₂)).filterMap WebHandler.task) :=
    List.Perm.filterMap _ List.perm_middle
  exact Multiset.coe_eq_coe.mpr hperm

theorem tasks_idle (l₁ l₂ : List WebHandler) {h : WebHandler} (hidle : h.task = none) :
    ((l₁ ++ h :: l₂).filterMap WebHandler.task : Multiset WebMsg) =
      ((l₁ ++ l₂).filterMap WebHandler.task : List WebMsg) := by
  rw [List.filterMap_append, List.filterMap_cons_none hidle, ← List.filterMap_append]

theorem waits_ledger {fd : ℤ} (h : (WebAction.arrive fd).Waits s) (n : ℕ) :
    (fd, n) ∉ s.ledger.unanswered := by
  intro hmem
  obtain ⟨w, hw, hkey⟩ := Multiset.mem_map.mp hmem
  exact h w hw (Prod.mk.inj hkey).1

theorem oldest_ledger {w : WebMsg} (h : (WebAction.transmit w).Oldest s) (n : ℕ)
    (hmem : (w.msg.tcpSocketHandle, n) ∈ s.ledger.unanswered) : w.request ≤ n := by
  obtain ⟨v, hv, hkey⟩ := Multiset.mem_map.mp hmem
  obtain ⟨hfd, rfl⟩ := Prod.mk.inj hkey
  exact h v hv hfd

/-- A message goes on under way with another content and the same socket. -/
theorem key_congr {w : WebMsg} {m : Msg} (h : m.tcpSocketHandle = w.msg.tcpSocketHandle) :
    WebMsg.key ⟨m, w.request⟩ = w.key :=
  congrArg (fun fd => (fd, w.request)) h

/-- The turn of the ledger that a step is, and what the conditions on the step say of it. -/
def IsTurn (s t : WebTraffic) (a : WebAction) : Prop :=
  ∃ turn, LedgerStep s.ledger turn t.ledger ∧ (a.Waits s → Turns.Waits s.ledger turn) ∧
    (a.Oldest s → Turns.Oldest s.ledger turn)

theorem IsTurn.keep {a : WebAction} (harrived : t.arrived = s.arrived)
    (hkeys : t.underWay.map WebMsg.key = s.underWay.map WebMsg.key)
    (htransmitted : t.transmitted = s.transmitted) : IsTurn s t a := by
  refine ⟨.keep, ?_, fun _ => trivial, fun _ => trivial⟩
  rw [ledger_congr harrived hkeys htransmitted]
  exact .keep s.ledger

theorem IsTurn.drop {a : WebAction} (w : WebMsg) (harrived : t.arrived = s.arrived)
    (hkeys : s.underWay.map WebMsg.key = w.key ::ₘ t.underWay.map WebMsg.key)
    (htransmitted : t.transmitted = s.transmitted) : IsTurn s t a := by
  refine ⟨.drop w.msg.tcpSocketHandle w.request, ?_, fun _ => trivial, fun _ => trivial⟩
  have hledger : t.ledger = { s.ledger with unanswered := t.underWay.map WebMsg.key } := by
    rw [ledger, harrived, htransmitted]
    rfl
  rw [hledger]
  exact .drop hkeys

theorem isTurn [Malloc] {a : WebAction} (h : WebStep x s a t) : IsTurn s t a := by
  cases h with
  | @arrive m fd hreq =>
    refine ⟨.ask fd, ?_, fun hwaits => waits_ledger hwaits, fun _ => trivial⟩
    have hkey : WebMsg.key ⟨m, s.arrived fd⟩ = (fd, s.arrived fd) :=
      congrArg (fun k => (k, s.arrived fd)) hreq.tcpSocketHandle
    have hkeys : (underWay { s with
        pending := ⟨m, s.arrived fd⟩ ::ₘ s.pending
        arrived := Function.update s.arrived fd (s.arrived fd+1) }).map WebMsg.key =
        (fd, s.arrived fd) ::ₘ s.underWay.map WebMsg.key := by
      simp only [keys_eq, Multiset.map_cons, hkey, Multiset.cons_add]
    have hledger : ledger { s with
        pending := ⟨m, s.arrived fd⟩ ::ₘ s.pending
        arrived := Function.update s.arrived fd (s.arrived fd+1) } = { s.ledger with
        asked := Function.update s.arrived fd (s.arrived fd+1)
        unanswered := (fd, s.arrived fd) ::ₘ s.underWay.map WebMsg.key } := by
      rw [← hkeys]
      rfl
    rw [hledger]
    exact LedgerStep.ask s.ledger fd
  | scan hpending hscan =>
    refine IsTurn.keep rfl ?_ rfl
    simp only [keys_eq, hpending, Multiset.map_cons,
      key_congr (Msg.processPending_tcpSocketHandle hscan), Multiset.cons_add, Multiset.add_cons]
  | toWebServer hqueue _ hroute =>
    refine IsTurn.keep rfl ?_ rfl
    simp only [keys_eq, hqueue, Multiset.map_cons, key_congr (Msg.route_tcpSocketHandle hroute),
      Multiset.cons_add, Multiset.add_cons]
  | toConnectionQueue hqueue _ hroute =>
    refine IsTurn.keep rfl ?_ rfl
    simp only [keys_eq, hqueue, Multiset.map_cons, key_congr (Msg.route_tcpSocketHandle hroute),
      Multiset.cons_add, Multiset.add_cons]
  | @elsewhere w _ _ _ _ hqueue _ hroute _ _ =>
    refine IsTurn.drop w rfl ?_ rfl
    simp only [keys_eq, hqueue, Multiset.map_cons, Multiset.cons_add, Multiset.add_cons]
  | assigned hjobs _ hassign =>
    refine IsTurn.keep rfl ?_ rfl
    simp only [keys_eq, hjobs, assign_tasks hassign, Multiset.map_cons, Multiset.cons_add,
      Multiset.add_cons]
  | @putBack w _ hjobs _ _ =>
    refine IsTurn.keep rfl ?_ rfl
    have hkey : WebMsg.key ⟨w.msg.setMsgState .pending, w.request⟩ = w.key := rfl
    simp only [keys_eq, hjobs, Multiset.map_cons, hkey, Multiset.cons_add, Multiset.add_cons]
  | @reply w l₁ l₂ pNewMsg q p n server hhandlers hpayload =>
    refine IsTurn.keep rfl ?_ rfl
    have hkey : WebMsg.key ⟨q.dispatchMsg server, w.request⟩ = w.key := by
      apply key_congr
      calc (q.dispatchMsg server).tcpSocketHandle
          = q.tcpSocketHandle := Msg.dispatchMsg_tcpSocketHandle _ _
        _ = (pNewMsg.replyTo w.msg.setCloned).tcpSocketHandle :=
          Msg.setContentPayload_tcpSocketHandle hpayload
        _ = w.msg.tcpSocketHandle := Msg.replyTo_tcpSocketHandle _ _
    have hdone := tasks_idle l₁ l₂ (h := .done) rfl
    simp only [keys_eq, hhandlers, tasks_busy, hdone, Multiset.map_cons, hkey, Multiset.cons_add,
      Multiset.add_cons]
  | @noReply w l₁ l₂ hhandlers =>
    refine IsTurn.drop w rfl ?_ rfl
    have hdone := tasks_idle l₁ l₂ (h := .done) rfl
    simp only [keys_eq, hhandlers, tasks_busy, hdone, Multiset.map_cons, Multiset.cons_add,
      Multiset.add_cons]
  | @suspend l₁ l₂ hhandlers =>
    refine IsTurn.keep rfl ?_ rfl
    have hdone := tasks_idle l₁ l₂ (h := .done) rfl
    have hfree := tasks_idle l₁ l₂ (h := .free) rfl
    simp only [keys_eq, hhandlers, hdone, hfree]
  | @transmit w rest _ _ _ r houtbound _ _ =>
    have hkeys : s.underWay.map WebMsg.key =
        w.key ::ₘ (underWay { s with outbound := rest }).map WebMsg.key := by
      simp only [keys_eq, houtbound, Multiset.map_cons, Multiset.add_cons]
    cases hsends : r.2.sendsOn w.msg.tcpSocketHandle with
    | false => exact IsTurn.drop w rfl hkeys rfl
    | true =>
      exact ⟨.answer w.msg.tcpSocketHandle w.request, .answer hkeys, fun _ => trivial,
        fun holdest => oldest_ledger holdest⟩

/-- Responses come in the order of the requests as long as none overtakes an older one. -/
theorem run_sorted [Malloc] {as : List WebAction}
    (hrun : Run (fun s a t => WebStep x s a t ∧ a.Oldest s) {} as t) (fd : ℤ) :
    (t.transmitted fd).Pairwise (· < ·) := by
  have hstep (s : WebTraffic) (a : WebAction) (t : WebTraffic) (h : InTurn s.ledger)
      (hstep : WebStep x s a t ∧ a.Oldest s) : InTurn t.ledger := by
    obtain ⟨turn, hturn, -, holdest⟩ := isTurn hstep.1
    exact h.step hturn (holdest hstep.2)
  exact (hrun.invariant hstep InTurn.initial).sorted fd

/-- A client that waits for each response before it sends its next request is answered in order. -/
theorem run_waits [Malloc] {as : List WebAction}
    (hrun : Run (fun s a t => WebStep x s a t ∧ a.Waits s) {} as t) (fd : ℤ) :
    (t.transmitted fd).Pairwise (· < ·) := by
  have hstep (s : WebTraffic) (a : WebAction) (t : WebTraffic)
      (h : Alone s.ledger ∧ InTurn s.ledger) (hstep : WebStep x s a t ∧ a.Waits s) :
      Alone t.ledger ∧ InTurn t.ledger := by
    obtain ⟨turn, hturn, hwaits, -⟩ := isTurn hstep.1
    exact ⟨h.1.step hturn (hwaits hstep.2), h.2.step hturn (h.1.oldest hturn)⟩
  exact (hrun.invariant hstep ⟨Alone.initial, InTurn.initial⟩).2.sorted fd

end WebTraffic

/-! ### Two pipelined requests -/

def getText : Bytes := bytes "GET / HTTP/1.1\r\n\r\n"

def getArrival : InboundState where
  handler := { msgSize := 18 }
  record := {
    socketfd := 4
    socketAddr := bytes "10.0.0.2"
    arrivalPort := 8080
    timestamp := 0
    buffer := { pBuffer := some (getText ++ [0]), bufferSize := 19, tail := 18 } }

def getEnv : InboundEnv where
  pMessage := {}
  parseID := bytes "1"
  updateID := bytes "2"
  now := 0
  server := bytes "mc@10.0.0.1"

def toFirstHandler : Router where
  getCommandHandler _ := some 0
  search _ := []
  queryServiceFirst _ := none

def emptyPage : Bytes := bytes "HTTP/1.1 200 OK\r\n\r\n"

def sendingEnv : OutboundEnv where
  serverName := bytes "mc"
  elapsed := ⟨[], fun _ h => absurd h List.not_mem_nil⟩
  connect := none
  udpSocket := none
  sendto := false

namespace Msg

/-- The way of a request that meets no other: whether its page is sent. -/
def served [Malloc] (m : Msg) : Cxx Bool := do
  let scanned ← m.processPending 0 0
  let routed ← scanned.1.route toFirstHandler
  let q ← (({} : Msg).replyTo routed.2.setCloned).setContentPayload (some emptyPage)
    emptyPage.length
  let reply ← (q.dispatchMsg getEnv.server).processPending 0 0
  let out ← reply.1.route toFirstHandler
  let sent ← OutboundState.transmitMsg
    { handler := {}, pMsg := out.2, sends := [.sent emptyPage.length] } sendingEnv
  pure (scanned.2 && decide (routed.1 = .handler 0) && reply.2 &&
    decide (out.1 = .connectionQueue) && sent.2.sendsOn out.2.tcpSocketHandle)

theorem getArrival_served :
    (getArrival.processHTTP getEnv .httpGet >>= fun r => (r.2.dispatched.getD 0 {}).served) =
      .ok true := by decide

theorem exists_served : ∃ m : Msg, m.Requested 4 ∧ m.served = .ok true := by
  obtain ⟨r, hr, hserved⟩ := bind_eq_ok.mp getArrival_served
  obtain ⟨rc, m, b, -, hm⟩ := (getArrival.processHTTP_ok_iff getEnv .httpGet r).mp hr
  refine ⟨getArrival.httpReply getEnv m, ⟨getArrival, getEnv, .httpGet, r, .inl rfl, rfl, hr, ?_⟩,
    ?_⟩
  · rw [hm]
  · rw [hm] at hserved
    exact hserved

end Msg

def twoHandlers : WebServer where
  job := 0
  iMaxHandlers := 2

/-- The forms a request and its reply have on the way of `served`. -/
structure Journey where
  request : Msg
  scanned : Msg
  task : Msg
  reply : Msg
  pending : Msg
  response : Msg
  sent : ℤ × OutboundState
  requested : request.Requested 4
  scan : request.processPending 0 0 = .ok (scanned, true)
  route : scanned.route toFirstHandler = .ok (.handler 0, task)
  setPayload : (({} : Msg).replyTo task.setCloned).setContentPayload (some emptyPage)
    emptyPage.length = .ok reply
  scanReply : (reply.dispatchMsg getEnv.server).processPending 0 0 = .ok (pending, true)
  routeReply : pending.route toFirstHandler = .ok (.connectionQueue, response)
  transmit : OutboundState.transmitMsg
    { handler := {}, pMsg := response, sends := [.sent emptyPage.length] } sendingEnv = .ok sent
  sends : sent.2.sendsOn response.tcpSocketHandle = true

theorem exists_journey : Nonempty Journey := by
  obtain ⟨m, hreq, hserved⟩ := Msg.exists_served
  obtain ⟨⟨m₁, b₁⟩, hscan, hserved⟩ := bind_eq_ok.mp hserved
  obtain ⟨⟨d₁, m₂⟩, hroute, hserved⟩ := bind_eq_ok.mp hserved
  obtain ⟨q, hpayload, hserved⟩ := bind_eq_ok.mp hserved
  obtain ⟨⟨m₃, b₂⟩, hscan', hserved⟩ := bind_eq_ok.mp hserved
  obtain ⟨⟨d₂, m₄⟩, hroute', hserved⟩ := bind_eq_ok.mp hserved
  obtain ⟨r, hsent, hserved⟩ := bind_eq_ok.mp hserved
  have hall := Except.ok.inj hserved
  simp only [Bool.and_eq_true, decide_eq_true_eq] at hall
  obtain ⟨⟨⟨⟨rfl, rfl⟩, rfl⟩, rfl⟩, hsends⟩ := hall
  exact ⟨⟨m, m₁, m₂, q, m₃, m₄, r, hreq, hscan, hroute, hpayload, hscan', hroute', hsent,
    hsends⟩⟩

namespace Journey

variable (j : Journey)

theorem tcpSocketHandle_response : j.response.tcpSocketHandle = 4 :=
  calc j.response.tcpSocketHandle
      = j.pending.tcpSocketHandle := Msg.route_tcpSocketHandle j.routeReply
    _ = (j.reply.dispatchMsg getEnv.server).tcpSocketHandle :=
      Msg.processPending_tcpSocketHandle j.scanReply
    _ = j.reply.tcpSocketHandle := Msg.dispatchMsg_tcpSocketHandle _ _
    _ = (({} : Msg).replyTo j.task.setCloned).tcpSocketHandle :=
      Msg.setContentPayload_tcpSocketHandle j.setPayload
    _ = j.task.tcpSocketHandle := Msg.replyTo_tcpSocketHandle _ _
    _ = j.scanned.tcpSocketHandle := Msg.route_tcpSocketHandle j.route
    _ = j.request.tcpSocketHandle := Msg.processPending_tcpSocketHandle j.scan
    _ = 4 := j.requested.tcpSocketHandle

theorem top (w : WebMsg) : w.Top 0 :=
  fun v hv => absurd hv (Multiset.notMem_zero v)

theorem singleton_eq (w : WebMsg) : ({w} : Multiset WebMsg) = w ::ₘ 0 :=
  (Multiset.cons_zero w).symm

/-- A request comes to a handler. -/
theorem toHandler {hs' : List WebHandler} (hs : List WebHandler) (a : ℤ → ℕ)
    (t : ℤ → List ℕ) (hassign : assign ⟨j.task, a 4⟩ (2-hs.length) hs = some hs') :
    Run (WebStep twoHandlers) { handlers := hs, arrived := a, transmitted := t }
      [.arrive 4, .scan, .priority, .onProcess]
      { handlers := hs', arrived := Function.update a 4 (a 4+1), transmitted := t } := by
  have harrive : Run (WebStep twoHandlers) { handlers := hs, arrived := a, transmitted := t }
      [.arrive 4] {
        pending := {⟨j.request, a 4⟩}
        handlers := hs
        arrived := Function.update a 4 (a 4+1)
        transmitted := t } := Run.nil.snoc (.arrive j.requested)
  have hscan := harrive.snoc (.scan (singleton_eq _) j.scan)
  have hroute := hscan.snoc (.toWebServer (w := ⟨j.scanned, a 4⟩) (singleton_eq _) (top _) j.route)
  exact hroute.snoc (.assigned (w := ⟨j.task, a 4⟩) (singleton_eq _) (top _) hassign)

/-- Its handler replies, and the reply comes to the queue of the outbound thread. -/
theorem toOutbound (l₁ l₂ : List WebHandler) (n : ℕ) (a : ℤ → ℕ) (t : ℤ → List ℕ) :
    Run (WebStep twoHandlers)
      { handlers := l₁ ++ .busy ⟨j.task, n⟩ :: l₂, arrived := a, transmitted := t }
      [.process, .scan, .priority] {
        handlers := l₁ ++ .done :: l₂
        outbound := {⟨j.response, n⟩}
        arrived := a
        transmitted := t } := by
  have hreply : Run (WebStep twoHandlers)
      { handlers := l₁ ++ .busy ⟨j.task, n⟩ :: l₂, arrived := a, transmitted := t } [.process] {
        pending := {⟨j.reply.dispatchMsg getEnv.server, n⟩}
        handlers := l₁ ++ .done :: l₂
        arrived := a
        transmitted := t } := Run.nil.snoc (.reply (w := ⟨j.task, n⟩) rfl j.setPayload)
  have hscan := hreply.snoc (.scan (singleton_eq _) j.scanReply)
  exact hscan.snoc (.toConnectionQueue (w := ⟨j.pending, n⟩) (singleton_eq _) (top _) j.routeReply)

theorem transmitted (hs : List WebHandler) (n : ℕ) (a : ℤ → ℕ) (t : ℤ → List ℕ) :
    WebStep twoHandlers
      { handlers := hs, outbound := {⟨j.response, n⟩}, arrived := a, transmitted := t }
      (.transmit ⟨j.response, n⟩)
      { handlers := hs, arrived := a, transmitted := Function.update t 4 (t 4 ++ [n]) } := by
  have hstep : WebStep twoHandlers
      { handlers := hs, outbound := {⟨j.response, n⟩}, arrived := a, transmitted := t }
      (.transmit ⟨j.response, n⟩) _ :=
    .transmit (singleton_eq _) (top _) j.transmit
  dsimp only at hstep
  rw [j.sends, WebTraffic.noteSent, if_pos rfl] at hstep
  dsimp only at hstep
  rw [j.tcpSocketHandle_response] at hstep
  exact hstep

/-- Both requests are with a handler before there is a response. -/
theorem pipelined : Run (WebStep twoHandlers) {}
    ([.arrive 4, .scan, .priority, .onProcess] ++ [.arrive 4, .scan, .priority, .onProcess]) {
      handlers := [.busy ⟨j.task, 0⟩, .busy ⟨j.task, 1⟩]
      arrived := Function.update (Function.update (fun _ => 0) 4 1) 4 2 } := by
  have hfirst := j.toHandler [] (fun _ => 0) (fun _ => []) rfl
  have hsecond := j.toHandler [.busy ⟨j.task, 0⟩] (Function.update (fun _ => 0) 4 1)
    (fun _ => []) rfl
  exact hfirst.trans hsecond

end Journey

namespace WebTraffic

/-- The condition is one on the outbound thread. -/
theorem run_oldest_of_quiet [Malloc] {x : WebServer} {s t : WebTraffic} {as : List WebAction}
    (hrun : Run (WebStep x) s as t) (hquiet : ∀ w, .transmit w ∉ as) :
    Run (fun s a t => WebStep x s a t ∧ a.Oldest s) s as t := by
  induction hrun with
  | nil => exact Run.nil
  | @snoc as t u a _ hlast ih =>
    refine (ih fun w hw => hquiet w (List.mem_append_left _ hw)).snoc ⟨hlast, ?_⟩
    cases a with
    | transmit w => exact absurd (List.mem_append_right _ List.mem_cons_self) (hquiet w)
    | _ => exact trivial

/-- Two pipelined requests whose handlers are done in their order. -/
theorem run_sorted_inOrder : ∃ (as : List WebAction) (t : WebTraffic),
    Run (fun s a t => WebStep twoHandlers s a t ∧ a.Oldest s) {} as t ∧ t.transmitted 4 = [0, 1] ∧
      ∀ fd, (t.transmitted fd).Pairwise (· < ·) := by
  obtain ⟨j⟩ := exists_journey
  have harrived := run_oldest_of_quiet j.pipelined (by simp)
  have hfirst := run_oldest_of_quiet (j.toOutbound [] [.busy ⟨j.task, 1⟩] 0
    (Function.update (Function.update (fun _ => 0) 4 1) 4 2) fun _ => []) (by simp)
  have hsecond := run_oldest_of_quiet (j.toOutbound [.done] [] 1
    (Function.update (Function.update (fun _ => 0) 4 1) 4 2)
    (Function.update (fun _ => []) 4 [0])) (by simp)
  have hsent := (harrived.trans hfirst).snoc ⟨j.transmitted _ 0 _ _, fun v _ _ => v.request.zero_le⟩
  have hall := (hsent.trans hsecond).snoc ⟨j.transmitted _ 1 _ _, fun v hv _ => ?_⟩
  · refine ⟨_, _, hall, ?_, run_sorted hall⟩
    rfl
  · have hv : v = ⟨j.response, 1⟩ := by simpa [underWay, WebHandler.task] using hv
    rw [hv]

/-- The handler of the second request is done first, and nothing holds its page back. -/
theorem swapped_pages : ¬ ∀ (x : WebServer) (as : List WebAction) (t : WebTraffic),
    Run (WebStep x) {} as t → ∀ fd, (t.transmitted fd).Pairwise (· < ·) := by
  intro h
  obtain ⟨j⟩ := exists_journey
  have hsecond := j.toOutbound [.busy ⟨j.task, 0⟩] [] 1
    (Function.update (Function.update (fun _ => 0) 4 1) 4 2) fun _ => []
  have hfirst := j.toOutbound [] [.done] 0
    (Function.update (Function.update (fun _ => 0) 4 1) 4 2) (Function.update (fun _ => []) 4 [1])
  have hsent := (j.pipelined.trans hsecond).snoc (j.transmitted _ 1 _ _)
  have hall := (hsent.trans hfirst).snoc (j.transmitted _ 0 _ _)
  have hsorted := h _ _ _ hall 4
  dsimp only at hsorted
  rw [Function.update_self, Function.update_self] at hsorted
  exact absurd hsorted (by decide)

end WebTraffic
end MsgCourier
