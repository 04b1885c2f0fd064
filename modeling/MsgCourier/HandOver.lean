import MsgCourier.DatagramReply
import MsgCourier.Delivery
import MsgCourier.DispatchOnce

/-! What the connection queue and the UDP server do with a message behind the statement that hands
it over, while every other thread goes on. -/
namespace MsgCourier
open ListSearch CText Runs ZeroFill

/-! ### The access log -/

inductive LogField
  | protocol
  | priority
  | command
  | ipaddress
  deriving DecidableEq, Repr

/-- What an entry takes from a message. -/
structure LogEntry where
  protocol : MsgProtocol := .unknown
  priority : ℤ := 0
  command : Bytes := []
  ipaddress : Bytes := []
  deriving DecidableEq, Repr

def Msg.logEntry (m : Msg) : LogEntry where
  protocol := m.msgProtocolType
  priority := m.msgPriority
  command := cstr m.msgCommand
  ipaddress := cstr m.sourceIP

namespace LogEntry

/-- One argument of `AddEntry` is read. -/
def read (e : LogEntry) (m : Msg) : LogField → LogEntry
  | .protocol => { e with protocol := m.msgProtocolType }
  | .priority => { e with priority := m.msgPriority }
  | .command => { e with command := cstr m.msgCommand }
  | .ipaddress => { e with ipaddress := cstr m.sourceIP }

def AgreeOn (e e' : LogEntry) : LogField → Prop
  | .protocol => e.protocol = e'.protocol
  | .priority => e.priority = e'.priority
  | .command => e.command = e'.command
  | .ipaddress => e.ipaddress = e'.ipaddress

variable {e e' : LogEntry}

theorem agreeOn_read (e : LogEntry) (m : Msg) (f : LogField) :
    (e.read m f).AgreeOn m.logEntry f := by
  cases f <;> rfl

theorem agreeOn_read_of_ne {f g : LogField} (hgf : g ≠ f) (m : Msg) (h : e.AgreeOn e' g) :
    (e.read m f).AgreeOn e' g := by
  cases f <;> cases g <;> first | exact h | exact absurd rfl hgf

theorem eq_of_agreeOn (h : ∀ f, e.AgreeOn e' f) : e = e' := by
  cases e
  cases e'
  obtain rfl := h .protocol
  obtain rfl := h .priority
  obtain rfl := h .command
  obtain rfl := h .ipaddress
  rfl

end LogEntry

/-! ### The threads -/

/-- Where the connection queue stands behind a hand-over: before it reads the arguments in `todo`
for the access log, or before it asks how, and then on which descriptor, the message went out. -/
inductive ConnectionPc
  | idle
  | logging (pMessage : ℕ) (dispatched : Msg) (todo : List LogField) (entry : LogEntry)
  | transmitted (pMsg : ℕ) (actions : List NetAction)
  | closing (pMsg : ℕ) (actions : List NetAction)

/-- The message the connection queue is going to look at once more. -/
def ConnectionPc.looking : ConnectionPc → Option ℕ
  | .idle => none
  | .logging p _ _ _ | .transmitted p _ | .closing p _ => some p

/-- `entries` pairs each entry of the access log with the dispatched message, `freed` each
descriptor given to `FreeConnection` with what `TransmitMsg` asked of the sockets. -/
structure Threads where
  dispatcher : Dispatcher := {}
  connection : ConnectionPc := .idle
  udp : UdpPc := .idle
  outHandler : ConnectionHandlerOutbound := {}
  entries : List (LogEntry × LogEntry) := []
  freed : List (ℤ × List NetAction) := []

namespace Threads

def put (s : Threads) (p : ℕ) (m : Msg) : Threads :=
  { s with dispatcher := { s.dispatcher with pool := s.dispatcher.pool.put p m } }

/-- The message leaves its producer. -/
def release (s : Threads) (p : ℕ) (m : Msg) : Threads :=
  { s with dispatcher := { s.dispatcher with
    pool := s.dispatcher.pool.put p m
    heldMsgs := s.dispatcher.heldMsgs.erase p } }

def setOutbound (s : Threads) (w : WorkQueue) : Threads :=
  { s with dispatcher := { s.dispatcher with outbound := w } }

/-- A thread that handed the message over is at a statement that uses it. -/
def LooksBack (s : Threads) (p : ℕ) : Prop :=
  s.connection.looking = some p ∨ s.udp.noting = some p

end Threads

inductive ThreadAction
  | others (a : DispatchAction)
  | dispatch (pMessage : ℕ)
  | lookField (f : LogField)
  | addEntry (f : LogField)
  | top (pMsg : ℕ)
  | transmit (pMsg : ℕ)
  | thrown (pMsg : ℕ)
  | keepConnection
  | doCloseConnection
  | freeConnection
  | udpDispatch (pNewMessage : ℕ)
  | udpNote

/-- A message becomes PENDING, DELIVERED or UNDELIVERED in the hands of an inbound or the outbound
thread. -/
def ThreadAction.HandsOver : ThreadAction → Prop
  | .dispatch _ | .transmit _ | .udpDispatch _ => True
  | .others _ | .lookField _ | .addEntry _ | .top _ | .thrown _ | .keepConnection
  | .doCloseConnection | .freeConnection | .udpNote => False

/-- The steps of the queue thread, the handlers and the producers are those of the dispatcher,
except for the outbound thread, which stands here with its own statements. The arguments for the
access log are read in any order. -/
inductive ThreadStep [Malloc] (x : UDPServer) : Threads → ThreadAction → Threads → Prop
  | others {s : Threads} {a : DispatchAction} {d : Dispatcher} :
      (∀ p, a ≠ .outbound p) → DispatchStep s.dispatcher a d →
      ThreadStep x s (.others a) { s with dispatcher := d }
  | dispatch {s : Threads} {p : ℕ} {m : Msg} {server : Bytes} {todo : List LogField} :
      s.connection = .idle → s.dispatcher.outbound.current = none → p ∈ s.dispatcher.heldMsgs →
      s.dispatcher.pool.objects p = some m → (∀ f, f ∈ todo) →
      ThreadStep x s (.dispatch p) { s.release p (m.dispatchMsg server) with
        connection := .logging p (m.dispatchMsg server) todo {} }
  | lookField {s : Threads} {p : ℕ} {m n : Msg} {f g : LogField} {todo : List LogField}
      {e : LogEntry} :
      s.connection = .logging p n (f :: g :: todo) e → s.dispatcher.pool.objects p = some m →
      ThreadStep x s (.lookField f) { s with connection := .logging p n (g :: todo) (e.read m f) }
  | addEntry {s : Threads} {p : ℕ} {m n : Msg} {f : LogField} {e : LogEntry} :
      s.connection = .logging p n [f] e → s.dispatcher.pool.objects p = some m →
      ThreadStep x s (.addEntry f) { s with
        connection := .idle
        entries := (e.read m f, n.logEntry) :: s.entries }
  | top {s : Threads} {p : ℕ} (hp : p ∈ s.dispatcher.outbound.queue) :
      s.connection = .idle → s.dispatcher.outbound.current = none →
      ThreadStep x s (.top p) (s.setOutbound (s.dispatcher.outbound.top hp))
  | transmit {s : Threads} {p : ℕ} {m : Msg} {env : OutboundEnv} {sends : List SendResult}
      {r : OutboundState} :
      s.connection = .idle → s.dispatcher.outbound.current = some (p, false) →
      s.dispatcher.pool.objects p = some m →
      OutboundState.handleConnection s.outHandler env m sends = .ok r →
      ThreadStep x s (.transmit p)
        { (s.setOutbound (s.dispatcher.outbound.handedOver p)).put p r.pMsg with
          connection := .transmitted p r.actions
          outHandler := r.handler }
  | thrown {s : Threads} {p : ℕ} {m : Msg} {env : OutboundEnv} {sends : List SendResult} :
      s.connection = .idle → s.dispatcher.outbound.current = some (p, false) →
      s.dispatcher.pool.objects p = some m →
      OutboundState.handleConnection s.outHandler env m sends = .error .cException →
      ThreadStep x s (.thrown p) (s.setOutbound
        { s.dispatcher.outbound with current := none, current_mem := nofun })
  | keepConnection {s : Threads} {p : ℕ} {m : Msg} {actions : List NetAction} :
      s.connection = .transmitted p actions → s.dispatcher.pool.objects p = some m →
      ¬ (m.msgConnectionType = .obTcp ∧ s.outHandler.bCloseConnection = true) →
      ThreadStep x s .keepConnection
        { s.setOutbound (s.dispatcher.outbound.pop p true) with connection := .idle }
  | doCloseConnection {s : Threads} {p : ℕ} {m : Msg} {actions : List NetAction} :
      s.connection = .transmitted p actions → s.dispatcher.pool.objects p = some m →
      m.msgConnectionType = .obTcp → s.outHandler.bCloseConnection = true →
      ThreadStep x s .doCloseConnection { s with connection := .closing p actions }
  | freeConnection {s : Threads} {p : ℕ} {m : Msg} {actions : List NetAction} :
      s.connection = .closing p actions → s.dispatcher.pool.objects p = some m →
      ThreadStep x s .freeConnection { s.setOutbound (s.dispatcher.outbound.pop p true) with
        connection := .idle
        freed := (m.tcpSocketHandle, actions) :: s.freed }
  | udpDispatch {s : Threads} {p : ℕ} {m : Msg} {server : Bytes} {client : ClientAddr} :
      s.udp = .idle → p ∈ s.dispatcher.heldMsgs → s.dispatcher.pool.objects p = some m →
      ThreadStep x s (.udpDispatch p)
        { s.release p (m.dispatchMsg server) with udp := .dispatched p client }
  | notePort {s : Threads} {p : ℕ} {m : Msg} {client : ClientAddr} :
      s.udp = .dispatched p client → s.dispatcher.pool.objects p = some m →
      m.msgReplyActionType = .wait →
      ThreadStep x s .udpNote
        { s.put p (m.setSourcePort client.sinPort) with udp := .portStored p client }
  | noteNothing {s : Threads} {p : ℕ} {m : Msg} {client : ClientAddr} :
      s.udp = .dispatched p client → s.dispatcher.pool.objects p = some m →
      m.msgReplyActionType ≠ .wait → ThreadStep x s .udpNote { s with udp := .idle }
  | noteSocket {s : Threads} {p : ℕ} {m : Msg} {client : ClientAddr} :
      s.udp = .portStored p client → s.dispatcher.pool.objects p = some m →
      ThreadStep x s .udpNote
        { s.put p (m.setUDPSocketHandle x.serverSocketfd) with udp := .idle }

/-! ### When nobody comes between -/

/-- The two messages read the same to the threads that look back. -/
structure SameLook (m m' : Msg) : Prop where
  logEntry : m'.logEntry = m.logEntry
  tcpSocketHandle : m'.tcpSocketHandle = m.tcpSocketHandle
  obTcp : m'.msgConnectionType = .obTcp ↔ m.msgConnectionType = .obTcp

/-- While the connection queue looks back at a message, the pool does not give that out again, the
queue thread does not make it an `MC.ERROR`, and no one else changes what is read. -/
def ThreadAction.InTime (s t : Threads) : ThreadAction → Prop
  | .others (.producer p) => s.connection.looking ≠ some p
  | .others .priority => ∀ p m m', s.connection.looking = some p →
      s.dispatcher.pool.objects p = some m → t.dispatcher.pool.objects p = some m' →
      m'.msgCommand = m.msgCommand
  | .others (.anyone p) => s.connection.looking = some p → ∀ m m',
      s.dispatcher.pool.objects p = some m → t.dispatcher.pool.objects p = some m' → SameLook m m'
  | .others (.handler _ _) | .others (.outbound _) | .others .pending | .others .flush
  | .dispatch _ | .lookField _ | .addEntry _ | .top _ | .transmit _ | .thrown _ | .keepConnection
  | .doCloseConnection | .freeConnection | .udpDispatch _ | .udpNote => True

namespace SameLook

variable {m m' n : Msg}

theorem refl (m : Msg) : SameLook m m := ⟨rfl, rfl, Iff.rfl⟩

theorem setMsgState (m : Msg) (state : MsgState) : SameLook m (m.setMsgState state) :=
  ⟨rfl, rfl, Iff.rfl⟩

theorem failedDelivery (m : Msg) (curtime now : ℤ) : SameLook m (m.failedDelivery curtime now) := by
  unfold Msg.failedDelivery
  split_ifs <;> exact ⟨rfl, rfl, Iff.rfl⟩

theorem switch (m : Msg) (msgState : MsgState) : SameLook m (m.switch msgState) := by
  cases msgState <;> exact ⟨rfl, rfl, Iff.rfl⟩

theorem dispatchMsg (m : Msg) (server : Bytes) : SameLook m (m.dispatchMsg server) := by
  unfold Msg.dispatchMsg
  split_ifs with hnot hudp
  · refine ⟨rfl, rfl, iff_of_false nofun fun h => ?_⟩
    rw [hnot] at h
    cases h
  · exact ⟨rfl, rfl, Iff.rfl⟩
  · exact ⟨rfl, rfl, Iff.rfl⟩

theorem handedOver (h : m.HandedOver m') : SameLook m m' := by
  cases h with
  | dispatchMsg server => exact dispatchMsg m server
  | putBack => exact setMsgState m _
  | markProcessed => exact setMsgState m _
  | dropped => exact setMsgState m _

/-- A message of which only a field that nobody reads back and the command may differ. -/
theorem of_command (hprotocol : n.msgProtocolType = m.msgProtocolType)
    (hpriority : n.msgPriority = m.msgPriority) (hip : n.sourceIP = m.sourceIP)
    (hfd : n.tcpSocketHandle = m.tcpSocketHandle)
    (hct : n.msgConnectionType = m.msgConnectionType) (hcommand : n.msgCommand = m.msgCommand) :
    SameLook m n := by
  refine ⟨?_, hfd, by rw [hct]⟩
  rw [Msg.logEntry, Msg.logEntry, hprotocol, hpriority, hip, hcommand]

theorem sentToMC_eq {r : Router} {d : Destination} (h : n.sentToMC r = .ok (d, m')) : m' = n := by
  unfold Msg.sentToMC at h
  split at h
  · exact (Prod.mk.inj (Except.ok.inj h)).2.symm
  · cases h

/-- Routing keeps what is read unless it changes the command. -/
theorem route {r : Router} {d : Destination} (h : m.route r = .ok (d, m'))
    (hcommand : m'.msgCommand = m.msgCommand) : SameLook m m' := by
  have hinbound (h : m.processInboundMessage r = .ok (d, m')) : SameLook m m' := by
    unfold Msg.processInboundMessage at h
    dsimp only at h
    split_ifs at h with hreply
    · obtain rfl := sentToMC_eq h
      exact of_command rfl rfl rfl rfl rfl rfl
    · split at h
      · obtain ⟨-, rfl⟩ := Prod.mk.inj (Except.ok.inj h)
        exact ⟨rfl, rfl, Iff.rfl⟩
      · split at h
        · obtain rfl := sentToMC_eq h
          exact of_command rfl rfl rfl rfl rfl rfl
        · obtain rfl := sentToMC_eq h
          exact of_command rfl rfl rfl rfl rfl hcommand
  have houtbound (h : m.processOutboundMessage = (d, m')) : SameLook m m' := by
    unfold Msg.processOutboundMessage at h
    split_ifs at h
    · exact (Prod.mk.inj h).2 ▸ refl m
    · exact (Prod.mk.inj h).2 ▸ setMsgState m _
  unfold Msg.route at h
  split at h
  · have hint := Except.ok.inj h
    unfold Msg.processInternalMessage at hint
    split at hint
    · exact (Prod.mk.inj hint).2 ▸ refl m
    · exact (Prod.mk.inj hint).2 ▸ setMsgState m _
  · exact houtbound (Except.ok.inj h)
  · exact houtbound (Except.ok.inj h)
  · exact hinbound h
  · exact hinbound h
  · cases h

end SameLook

/-- What stands at the address afterwards reads like what stood there. -/
def KeepsLook (p : ℕ) (x y : MsgPool) : Prop :=
  ∀ m', y.objects p = some m' → ∃ m, x.objects p = some m ∧ SameLook m m'

namespace KeepsLook

variable {x y : MsgPool} {p q : ℕ}

theorem of_objects (h : y.objects = x.objects) : KeepsLook p x y := by
  intro m' hm'
  exact ⟨m', h ▸ hm', SameLook.refl m'⟩

theorem put {m m' : Msg} (hm : x.objects q = some m) (h : p = q → SameLook m m') :
    KeepsLook p x (x.put q m') := by
  intro n hn
  by_cases hpq : p = q
  · subst hpq
    rw [MsgPool.put_objects_self, Option.some.injEq] at hn
    exact ⟨m, hm, hn ▸ h rfl⟩
  · rw [MsgPool.put_objects_of_ne _ hpq] at hn
    exact ⟨n, hn, SameLook.refl n⟩

theorem getHead {next : Option ℕ} (h : x.getHead = (next, y)) : KeepsLook p x y := by
  apply of_objects
  unfold MsgPool.getHead at h
  split_ifs at h
  · rw [← (Prod.mk.inj h).2]
  · rw [← (Prod.mk.inj h).2]
    rfl

theorem getNext {next : Option ℕ} (h : x.getNext = .ok (next, y)) : KeepsLook p x y := by
  apply of_objects
  unfold MsgPool.getNext at h
  split_ifs at h
  · rw [← (Prod.mk.inj (Except.ok.inj h)).2]
  · obtain ⟨z, hz, h⟩ := bind_eq_ok.mp h
    unfold MsgPool.advance at hz
    split_ifs at hz
    rw [← (Prod.mk.inj (Except.ok.inj h)).2, ← Except.ok.inj hz]
    rfl

theorem free (h : x.objects = y.objects) : KeepsLook p x (y.free q) := by
  intro m' hm'
  by_cases hpq : p = q
  · subst hpq
    have hnone : (y.free p).objects p = none := Function.update_self _ _ _
    rw [hnone] at hm'
    cases hm'
  · have hsame : (y.free q).objects p = x.objects p :=
      (Function.update_of_ne hpq _ _).trans (congrFun h.symm p)
    exact ⟨m', hsame ▸ hm', SameLook.refl m'⟩

end KeepsLook

theorem KeepsLook.advanced {d : Dispatcher} {next : Option ℕ} {pool : MsgPool} {look : ℕ → QueuePc}
    {p : ℕ} (h : KeepsLook p d.pool pool) :
    KeepsLook p d.pool (d.advanced next pool look).pool := by
  intro m' hm'
  rw [Dispatcher.advanced_objects] at hm'
  exact h m' hm'

/-- The sweeps, the handlers and the router leave what is read as it is. -/
theorem DispatchStep.keepsLook {d d' : Dispatcher} {a : DispatchAction} {p : ℕ}
    (hstep : DispatchStep d a d') (hproducer : a ≠ .producer p)
    (hpriority : a = .priority → ∀ m m', d.pool.objects p = some m →
      d'.pool.objects p = some m' → m'.msgCommand = m.msgCommand)
    (hanyone : a = .anyone p → ∀ m m', d.pool.objects p = some m →
      d'.pool.objects p = some m' → SameLook m m') : KeepsLook p d.pool d'.pool := by
  have hrouted {q : ℕ} {m m' : Msg} {r : Router} {dest : Destination}
      (hm : d.pool.objects q = some m) (hroute : m.route r = .ok (dest, m'))
      (ha : a = .priority) (hpool : d'.pool = d.pool.put q m') :
      KeepsLook p d.pool (d.pool.put q m') := by
    apply KeepsLook.put hm
    rintro rfl
    apply SameLook.route hroute
    exact hpriority ha m m' hm (hpool ▸ MsgPool.put_objects_self _ _ _)
  cases hstep with
  | getMessage _ _ hget =>
    intro m' hm'
    have hne := fun h => hproducer (congrArg DispatchAction.producer h)
    obtain ⟨_, hothers⟩ := MsgPool.getReusableMessage_objects hget
    exact ⟨m', (hothers p (Ne.symm hne)).symm.trans hm', SameLook.refl m'⟩
  | handOver _ hm hover => exact KeepsLook.put hm fun _ => SameLook.handedOver hover
  | change hm _ =>
    apply KeepsLook.put hm
    rintro rfl
    exact hanyone rfl _ _ hm (MsgPool.put_objects_self _ _ _)
  | jobHandOver _ hm hover => exact KeepsLook.put hm fun _ => SameLook.handedOver hover
  | keptHandOver _ hm hover => exact KeepsLook.put hm fun _ => SameLook.handedOver hover
  | transmitted _ hm => exact KeepsLook.put hm fun _ => SameLook.setMsgState _ _
  | pendingHead _ hhead =>
    exact KeepsLook.advanced fun m' hm' => KeepsLook.getHead hhead m' hm'
  | pendingInuse _ hm => exact KeepsLook.put hm fun _ => SameLook.setMsgState _ _
  | pendingFailed _ hm => exact KeepsLook.put hm fun _ => SameLook.failedDelivery _ _ _
  | pendingNext _ hnext => exact KeepsLook.advanced (KeepsLook.getNext hnext)
  | toHandler _ hm hroute _ => exact hrouted hm hroute rfl rfl
  | toConnectionQueue _ hm hroute _ => exact hrouted hm hroute rfl rfl
  | toNowhere _ hm hroute => exact hrouted hm hroute rfl rfl
  | flushHead _ hhead =>
    exact KeepsLook.advanced fun m' hm' => KeepsLook.getHead hhead m' hm'
  | flushSwitch _ hm => exact KeepsLook.put hm fun _ => SameLook.switch _ _
  | flushDelete _ _ _ hdelete =>
    apply KeepsLook.free
    rw [MsgPool.deleteCurrent_ok hdelete]
  | flushReturn _ hm _ _ hreturn =>
    obtain ⟨n, hn, hpool⟩ := bind_eq_ok.mp hreturn
    rw [← Except.ok.inj hpool]
    have hput := KeepsLook.put (p := p) (MsgPool.deref_eq_ok hn)
      fun _ => SameLook.setMsgState n .inactive
    exact fun m' hm' => hput m' hm'
  | flushNext _ hnext => exact KeepsLook.advanced (KeepsLook.getNext hnext)
  | jobTop | jobPop | outboundTop | outboundPop | pendingLook | pendingPush | pendingAssert
  | pendingSkip | priorityTop | flushLook | flushLeave => exact KeepsLook.of_objects rfl

/-! ### The descriptor of a transmission -/

namespace OutboundState

/-- Only `fd` was sent to, and it was sent to when the connection is to be closed. -/
structure SentOn (s : OutboundState) (fd : ℤ) : Prop where
  only : ∀ fd' offered accepted, .tcpSend fd' offered accepted ∈ s.actions → fd' = fd
  used : s.handler.bCloseConnection = true →
    ∃ offered accepted, .tcpSend fd offered accepted ∈ s.actions

namespace SentOn

variable {s : OutboundState} {env : OutboundEnv} {fd : ℤ}

theorem of_eq (h : s.SentOn fd) {t : OutboundState} (hactions : t.actions = s.actions)
    (hclose : t.handler.bCloseConnection = s.handler.bCloseConnection) : t.SentOn fd := by
  refine ⟨?_, ?_⟩
  · rw [hactions]
    exact h.only
  · rw [hactions, hclose]
    exact h.used

theorem act (h : s.SentOn fd) {a : NetAction} (ha : ∀ fd' o c, a ≠ .tcpSend fd' o c) :
    (s.act a).SentOn fd := by
  refine ⟨fun fd' o c hmem => ?_, fun hclose => ?_⟩
  · rcases List.mem_append.mp hmem with hmem | hmem
    · exact h.only fd' o c hmem
    · exact absurd (List.mem_singleton.mp hmem).symm (ha fd' o c)
  · obtain ⟨o, c, hmem⟩ := h.used hclose
    exact ⟨o, c, List.mem_append_left _ hmem⟩

/-- A whole `TCPSend` uses its descriptor. -/
theorem afterSend (h : s.SentOn fd) (r : SendRun) : (s.afterSend fd r).SentOn fd := by
  rw [afterSend_eq]
  refine ⟨fun fd' o c hmem => ?_, fun _ => ⟨r.offered, r.accepted, by simp⟩⟩
  rcases List.mem_append.mp hmem with hmem | hmem
  · rcases List.mem_append.mp hmem with hmem | hmem
    · exact h.only fd' o c hmem
    · exact (NetAction.tcpSend.inj (List.mem_singleton.mp hmem)).1
  · split_ifs at hmem
    · cases List.mem_singleton.mp hmem
    · cases hmem

theorem finish (h : s.SentOn fd) (bRet : Bool) : (s.finish bRet).2.SentOn fd := by
  cases bRet <;> exact h.of_eq rfl rfl

theorem openTCP (h : s.SentOn fd) {r : ℤ × OutboundState} (hr : s.openTCP env = .ok r) :
    r.2.SentOn fd := by
  obtain ⟨⟨p, serverAddr⟩, -, hr⟩ := bind_eq_ok.mp hr
  cases p with
  | none => cases hr
  | some mem =>
    have hset : (s.setHandler (s.handler.setServerAddr serverAddr)).SentOn fd := h.of_eq rfl rfl
    have hopened : ((s.setHandler (s.handler.setServerAddr serverAddr)).act
        (.openTCP (cstr mem) s.handler.serverPort)).SentOn fd :=
      hset.act fun _ _ _ h => nomatch h
    cases hconnect : env.connect with
    | none =>
      simp only [hconnect] at hr
      exact Except.ok.inj hr ▸ hopened
    | some socketfd =>
      simp only [hconnect] at hr
      exact Except.ok.inj hr ▸ hopened.of_eq rfl rfl

theorem findSocket (h : s.SentOn fd) {r : ℤ × OutboundState} (hr : s.findSocket env = .ok r) :
    r.2.SentOn fd := by
  unfold OutboundState.findSocket at hr
  split_ifs at hr
  · obtain ⟨⟨socketfd, t⟩, hopen, hr⟩ := bind_eq_ok.mp hr
    have ht := h.openTCP hopen
    dsimp only at hr
    split_ifs at hr
    · exact Except.ok.inj hr ▸ ht.of_eq rfl rfl
    · exact Except.ok.inj hr ▸ ht
  · exact Except.ok.inj hr ▸ h

theorem udpSend (h : s.SentOn fd) {r : Bool × OutboundState} (hr : s.udpSend env = .ok r) :
    r.2.SentOn fd := by
  unfold OutboundState.udpSend at hr
  split_ifs at hr
  · split at hr
    · exact Except.ok.inj hr ▸ h
    · obtain ⟨⟨p, serverAddr⟩, -, hr⟩ := bind_eq_ok.mp hr
      cases p with
      | none => cases hr
      | some mem =>
        obtain ⟨data, -, hr⟩ := bind_eq_ok.mp hr
        rw [← Except.ok.inj hr]
        have hset : (s.setHandler (s.handler.setServerAddr serverAddr)).SentOn fd :=
          h.of_eq rfl rfl
        apply SentOn.act
        · apply SentOn.act hset
          exact fun _ _ _ h => nomatch h
        · exact fun _ _ _ h => nomatch h
  · obtain ⟨data, -, hr⟩ := bind_eq_ok.mp hr
    rw [← Except.ok.inj hr]
    apply h.act
    exact fun _ _ _ h => nomatch h

/-- Two texts of a page go to the same descriptor. -/
theorem sendPage [Malloc] (h : s.SentOn s.pMsg.tcpSocketHandle) {p : Bytes} {r : ℤ × OutboundState}
    (hr : s.sendPage env p = .ok r) : r.2.SentOn r.2.pMsg.tcpSocketHandle := by
  obtain ⟨_, -, hr⟩ := bind_eq_ok.mp hr
  obtain ⟨t, hheader, hr⟩ := bind_eq_ok.mp hr
  have ht : t.pMsg = s.pMsg ∧ t.SentOn s.pMsg.tcpSocketHandle := by
    unfold OutboundState.sendHeader at hheader
    split_ifs at hheader
    · obtain ⟨response, -, hheader⟩ := bind_eq_ok.mp hheader
      obtain ⟨data, -, hheader⟩ := bind_eq_ok.mp hheader
      obtain ⟨q, hsend, hheader⟩ := bind_eq_ok.mp hheader
      obtain ⟨buf, -, rfl⟩ := tcpSend_eq_ok.mp hsend
      rw [← Except.ok.inj hheader]
      have hset : (s.setHandler (s.handler.setResponse response)).SentOn s.pMsg.tcpSocketHandle :=
        h.of_eq rfl rfl
      exact ⟨by rw [afterSend_pMsg]; rfl, hset.afterSend _⟩
    · exact Except.ok.inj hheader ▸ ⟨rfl, h⟩
  obtain ⟨q, hsend, hr⟩ := bind_eq_ok.mp hr
  obtain ⟨buf, -, rfl⟩ := tcpSend_eq_ok.mp hsend
  rw [← Except.ok.inj hr]
  have hhandle (bRet : Bool) (u : OutboundState) :
      (u.finish bRet).2.pMsg.tcpSocketHandle = u.pMsg.tcpSocketHandle := by cases bRet <;> rfl
  rw [hhandle, afterSend_pMsg, ht.1]
  exact (ht.2.afterSend _).finish _

end SentOn

theorem setServer_keeps [Malloc] {h h' : ConnectionHandlerOutbound} {m : Msg}
    (hok : h.setServer m = .ok h') :
    h'.response = h.response ∧ h'.bCloseConnection = h.bCloseConnection := by
  unfold ConnectionHandlerOutbound.setServer at hok
  split_ifs at hok
  · obtain ⟨r, -, hok⟩ := bind_eq_ok.mp hok
    obtain ⟨⟨p, temp⟩, -, hok⟩ := bind_eq_ok.mp hok
    cases p with
    | none => cases hok
    | some mem =>
      obtain ⟨a, -, hok⟩ := bind_eq_ok.mp hok
      rw [← Except.ok.inj hok]
      exact ⟨rfl, rfl⟩
  · rw [Except.ok.inj hok]
    exact ⟨rfl, rfl⟩

/-- Everything a message is sent on is the descriptor it has afterwards. -/
theorem transmitMsg_sentOn [Malloc] {s : OutboundState} {env : OutboundEnv} {r : ℤ × OutboundState}
    (h : ∀ fd, s.SentOn fd) (hr : s.transmitMsg env = .ok r) :
    r.2.SentOn r.2.pMsg.tcpSocketHandle := by
  by_cases hpage : s.pMsg.msgProtocolType = .httpGet ∨ s.pMsg.msgProtocolType = .httpPost
  · unfold transmitMsg at hr
    rw [if_pos hpage] at hr
    split at hr
    · rw [← Except.ok.inj hr]
      exact (h _).finish false
    · exact (h _).sendPage hr
  · obtain ⟨response, handler, q, -, hserver, hq, rfl⟩ := transmitMsg_inv hpage hr
    have hclose : handler.bCloseConnection = s.handler.bCloseConnection :=
      (setServer_keeps hserver).2.trans rfl
    have hset (fd : ℤ) : (s.setHandler handler).SentOn fd := (h fd).of_eq rfl hclose
    have hsent : q.2.SentOn q.2.pMsg.tcpSocketHandle := by
      rcases sendByType_inv hq with ⟨-, hudp⟩ | ⟨-, htcp⟩
      · exact (hset _).udpSend hudp
      · obtain ⟨⟨socketfd, t⟩, hfind, htcp⟩ := bind_eq_ok.mp htcp
        have ht := (hset t.pMsg.tcpSocketHandle).findSocket hfind
        dsimp only at htcp
        split_ifs at htcp
        · obtain ⟨data, -, htcp⟩ := bind_eq_ok.mp htcp
          obtain ⟨u, hsend, htcp⟩ := bind_eq_ok.mp htcp
          obtain ⟨buf, -, rfl⟩ := tcpSend_eq_ok.mp hsend
          rw [← Except.ok.inj htcp, afterSend_pMsg]
          exact ht.afterSend _
        · exact Except.ok.inj htcp ▸ ht
    cases hb : q.1 <;> exact hsent.of_eq rfl rfl

theorem handleConnection_sentOn [Malloc] {handler : ConnectionHandlerOutbound} {env : OutboundEnv}
    {pMsg : Msg} {sends : List SendResult} {r : OutboundState}
    (hr : handleConnection handler env pMsg sends = .ok r) :
    r.SentOn r.pMsg.tcpSocketHandle := by
  obtain ⟨q, hq, hr⟩ := bind_eq_ok.mp hr
  rw [← Except.ok.inj hr]
  refine transmitMsg_sentOn (fun fd => ⟨?_, ?_⟩) hq
  · intro fd' offered accepted hmem
    cases hmem
  · intro hclose
    cases hclose

end OutboundState

/-! ### Runs -/

/-- The descriptor is the one every `TCPSend` of the transmission used. -/
def UsedOnly (actions : List NetAction) (fd : ℤ) : Prop :=
  (∃ offered accepted, .tcpSend fd offered accepted ∈ actions) ∧
    ∀ fd' offered accepted, .tcpSend fd' offered accepted ∈ actions → fd' = fd

/-- What a run in which nobody comes between keeps. -/
structure LookInv (s : Threads) : Prop where
  logging : ∀ p n todo e, s.connection = .logging p n todo e →
    (∀ f, f ∉ todo → e.AgreeOn n.logEntry f) ∧
      ∀ m, s.dispatcher.pool.objects p = some m → m.logEntry = n.logEntry
  transmitted : ∀ p actions, s.connection = .transmitted p actions →
    s.outHandler.bCloseConnection = true → ∀ m, s.dispatcher.pool.objects p = some m →
      UsedOnly actions m.tcpSocketHandle
  closing : ∀ p actions, s.connection = .closing p actions →
    ∀ m, s.dispatcher.pool.objects p = some m → UsedOnly actions m.tcpSocketHandle
  entries : ∀ r ∈ s.entries, r.1 = r.2
  freed : ∀ r ∈ s.freed, UsedOnly r.2 r.1

namespace LookInv

variable {s t : Threads}

theorem initial : LookInv {} where
  logging _ _ _ _ h := by cases h
  transmitted _ _ h := by cases h
  closing _ _ h := by cases h
  entries _ h := by cases h
  freed _ h := by cases h

/-- A step of another thread. -/
theorem keep (hi : LookInv s) (hconnection : t.connection = s.connection)
    (hhandler : t.outHandler = s.outHandler) (hentries : t.entries = s.entries)
    (hfreed : t.freed = s.freed)
    (hlook : ∀ p, s.connection.looking = some p →
      KeepsLook p s.dispatcher.pool t.dispatcher.pool) : LookInv t where
  logging p n todo e hpc := by
    rw [hconnection] at hpc
    obtain ⟨hagree, hsame⟩ := hi.logging p n todo e hpc
    refine ⟨hagree, fun m' hm' => ?_⟩
    obtain ⟨m, hm, hlook⟩ := hlook p (by rw [hpc]; rfl) m' hm'
    exact hlook.logEntry.trans (hsame m hm)
  transmitted p actions hpc hclose m' hm' := by
    rw [hconnection] at hpc
    obtain ⟨m, hm, hlook⟩ := hlook p (by rw [hpc]; rfl) m' hm'
    rw [hlook.tcpSocketHandle]
    exact hi.transmitted p actions hpc (hhandler ▸ hclose) m hm
  closing p actions hpc m' hm' := by
    rw [hconnection] at hpc
    obtain ⟨m, hm, hlook⟩ := hlook p (by rw [hpc]; rfl) m' hm'
    rw [hlook.tcpSocketHandle]
    exact hi.closing p actions hpc m hm
  entries := hentries ▸ hi.entries
  freed := hfreed ▸ hi.freed

/-- The connection queue is done with a message. -/
theorem idle (hconnection : t.connection = .idle)
    (hentries : ∀ r ∈ t.entries, r.1 = r.2) (hfreed : ∀ r ∈ t.freed, UsedOnly r.2 r.1) :
    LookInv t where
  logging p n todo e hpc := by
    rw [hconnection] at hpc
    cases hpc
  transmitted p actions hpc := by
    rw [hconnection] at hpc
    cases hpc
  closing p actions hpc := by
    rw [hconnection] at hpc
    cases hpc
  entries := hentries
  freed := hfreed

theorem logs (hi : LookInv s) {p : ℕ} {n : Msg} {todo : List LogField} {e : LogEntry}
    (hconnection : t.connection = .logging p n todo e) (hentries : t.entries = s.entries)
    (hfreed : t.freed = s.freed) (hagree : ∀ f, f ∉ todo → e.AgreeOn n.logEntry f)
    (hsame : ∀ m, t.dispatcher.pool.objects p = some m → m.logEntry = n.logEntry) :
    LookInv t where
  logging p' n' todo' e' hpc := by
    rw [hconnection] at hpc
    obtain ⟨rfl, rfl, rfl, rfl⟩ := ConnectionPc.logging.inj hpc
    exact ⟨hagree, hsame⟩
  transmitted p' actions hpc := by
    rw [hconnection] at hpc
    cases hpc
  closing p' actions hpc := by
    rw [hconnection] at hpc
    cases hpc
  entries := hentries ▸ hi.entries
  freed := hfreed ▸ hi.freed

theorem lookField (hi : LookInv s) {p : ℕ} {m n : Msg} {f g : LogField} {todo : List LogField}
    {e : LogEntry} (hpc : s.connection = .logging p n (f :: g :: todo) e)
    (hm : s.dispatcher.pool.objects p = some m) :
    LookInv { s with connection := .logging p n (g :: todo) (e.read m f) } := by
  obtain ⟨hagree, hsame⟩ := hi.logging p n _ e hpc
  refine hi.logs rfl rfl rfl (fun h hh => ?_) hsame
  by_cases hhf : h = f
  · rw [hhf, ← hsame m hm]
    exact LogEntry.agreeOn_read e m f
  · apply LogEntry.agreeOn_read_of_ne hhf
    apply hagree
    intro hmem
    rcases List.mem_cons.mp hmem with hmem | hmem
    · exact hhf hmem
    · exact hh hmem

theorem addEntry (hi : LookInv s) {p : ℕ} {m n : Msg} {f : LogField} {e : LogEntry}
    (hpc : s.connection = .logging p n [f] e) (hm : s.dispatcher.pool.objects p = some m) :
    e.read m f = n.logEntry := by
  obtain ⟨hagree, hsame⟩ := hi.logging p n _ e hpc
  apply LogEntry.eq_of_agreeOn
  intro h
  by_cases hhf : h = f
  · rw [hhf, ← hsame m hm]
    exact LogEntry.agreeOn_read e m f
  · apply LogEntry.agreeOn_read_of_ne hhf
    apply hagree
    intro hmem
    exact hhf (List.mem_singleton.mp hmem)

theorem transmit [Malloc] (hi : LookInv s) {p : ℕ} {m : Msg} {env : OutboundEnv}
    {sends : List SendResult}
    {r : OutboundState} (hr : OutboundState.handleConnection s.outHandler env m sends = .ok r)
    (hconnection : t.connection = .transmitted p r.actions) (hhandler : t.outHandler = r.handler)
    (hm : t.dispatcher.pool.objects p = some r.pMsg) (hentries : t.entries = s.entries)
    (hfreed : t.freed = s.freed) : LookInv t where
  logging p' n todo e hpc := by
    rw [hconnection] at hpc
    cases hpc
  transmitted p' actions hpc hclose m' hm' := by
    rw [hconnection] at hpc
    obtain ⟨rfl, rfl⟩ := ConnectionPc.transmitted.inj hpc
    rw [hm, Option.some.injEq] at hm'
    have hsent := OutboundState.handleConnection_sentOn hr
    rw [hhandler] at hclose
    exact hm' ▸ ⟨hsent.used hclose, hsent.only⟩
  closing p' actions hpc := by
    rw [hconnection] at hpc
    cases hpc
  entries := hentries ▸ hi.entries
  freed := hfreed ▸ hi.freed

theorem doCloseConnection (hi : LookInv s) {p : ℕ} {actions : List NetAction}
    (hpc : s.connection = .transmitted p actions)
    (hclose : s.outHandler.bCloseConnection = true) :
    LookInv { s with connection := .closing p actions } where
  logging p' n todo e h := by cases h
  transmitted p' actions' h := by cases h
  closing p' actions' h := by
    obtain ⟨rfl, rfl⟩ := ConnectionPc.closing.inj h
    exact hi.transmitted p actions hpc hclose
  entries := hi.entries
  freed := hi.freed

theorem step [Malloc] {x : UDPServer} (hi : LookInv s) {a : ThreadAction}
    (hstep : ThreadStep x s a t) (htime : a.InTime s t) : LookInv t := by
  -- the stores of the UDP server are to fields that nobody reads back here
  have hudp {q : ℕ} {m m' : Msg} {pc : UdpPc} (hm : s.dispatcher.pool.objects q = some m)
      (hsame : SameLook m m') : LookInv { s.put q m' with udp := pc } :=
    hi.keep rfl rfl rfl rfl fun p _ => KeepsLook.put hm fun _ => hsame
  cases hstep with
  | others _ hstep =>
    refine hi.keep rfl rfl rfl rfl fun p hp => hstep.keepsLook ?_ ?_ ?_
    · rintro rfl
      exact htime hp
    · rintro rfl m m' hm hm'
      exact htime p m m' hp hm hm'
    · rintro rfl
      exact htime hp
  | dispatch _ _ _ _ hall =>
    refine hi.logs rfl rfl rfl (fun f hf => absurd (hall f) hf) fun n hn => ?_
    rw [Option.some.inj ((MsgPool.put_objects_self _ _ _).symm.trans hn)]
  | lookField hpc hm => exact hi.lookField hpc hm
  | addEntry hpc hm =>
    have hentry := hi.addEntry hpc hm
    refine idle rfl (fun r hr => ?_) hi.freed
    rcases List.mem_cons.mp hr with hr | hr
    · rw [hr]
      exact hentry
    · exact hi.entries r hr
  | top hp hpc _ => exact idle hpc hi.entries hi.freed
  | transmit _ _ _ hr =>
    exact hi.transmit hr rfl rfl (MsgPool.put_objects_self _ _ _) rfl rfl
  | thrown hpc _ _ _ => exact idle hpc hi.entries hi.freed
  | keepConnection _ _ _ => exact idle rfl hi.entries hi.freed
  | doCloseConnection hpc hm _ hclose =>
    exact hi.doCloseConnection hpc hclose
  | freeConnection hpc hm =>
    have hused := hi.closing _ _ hpc _ hm
    refine idle rfl hi.entries fun r hr => ?_
    rcases List.mem_cons.mp hr with hr | hr
    · rw [hr]
      exact hused
    · exact hi.freed r hr
  | udpDispatch _ _ hm =>
    exact hi.keep rfl rfl rfl rfl fun p _ => KeepsLook.put hm fun _ => SameLook.dispatchMsg _ _
  | notePort _ hm _ => exact hudp hm ⟨rfl, rfl, Iff.rfl⟩
  | noteNothing _ hm _ => exact hi.keep rfl rfl rfl rfl fun p _ => KeepsLook.of_objects rfl
  | noteSocket _ hm => exact hudp hm ⟨rfl, rfl, Iff.rfl⟩

end LookInv

namespace ThreadStep

variable {x : UDPServer} {s t : Threads} {a : ThreadAction}

/-- Behind every hand-over the same thread has a statement that uses the message. -/
theorem looksBack [Malloc] (hstep : ThreadStep x s a t) (ha : a.HandsOver) :
    ∃ p, t.LooksBack p := by
  cases hstep with
  | dispatch => exact ⟨_, Or.inl rfl⟩
  | transmit => exact ⟨_, Or.inl rfl⟩
  | udpDispatch => exact ⟨_, Or.inr rfl⟩
  | others | lookField | addEntry | top | thrown | keepConnection | doCloseConnection
  | freeConnection | notePort | noteNothing | noteSocket => exact ha.elim

/-- No other step brings a thread there. -/
theorem looked [Malloc] (hstep : ThreadStep x s a t) (ha : ¬ a.HandsOver) {p : ℕ}
    (ht : t.LooksBack p) : ∃ q, s.LooksBack q := by
  have hconnection (h : t.connection = .idle) (hudp : t.udp = s.udp) : ∃ q, s.LooksBack q := by
    rcases ht with ht | ht
    · rw [h] at ht
      cases ht
    · exact ⟨p, Or.inr (hudp ▸ ht)⟩
  cases hstep with
  | dispatch => exact (ha trivial).elim
  | transmit => exact (ha trivial).elim
  | udpDispatch => exact (ha trivial).elim
  | others _ _ => exact ⟨p, ht⟩
  | top hp _ _ => exact ⟨p, ht⟩
  | thrown _ _ _ _ => exact ⟨p, ht⟩
  | lookField hpc _ => exact ⟨_, Or.inl (by rw [hpc]; rfl)⟩
  | addEntry _ _ => exact hconnection rfl rfl
  | keepConnection _ _ _ => exact hconnection rfl rfl
  | doCloseConnection hpc _ _ _ => exact ⟨_, Or.inl (by rw [hpc]; rfl)⟩
  | freeConnection _ _ => exact hconnection rfl rfl
  | notePort hpc _ _ => exact ⟨_, Or.inr (by rw [hpc]; rfl)⟩
  | noteNothing hpc _ _ => exact ⟨_, Or.inr (by rw [hpc]; rfl)⟩
  | noteSocket hpc _ => exact ⟨_, Or.inr (by rw [hpc]; rfl)⟩

end ThreadStep

/-- The states of a run in which a thread looks back are there exactly if the run hands a message
over. -/
theorem looksBack_iff_handsOver [Malloc] {x : UDPServer} {as : List ThreadAction} {s : Threads}
    (hrun : Run (ThreadStep x) {} as s) :
    (∃ bs cs t p, as = bs ++ cs ∧ Run (ThreadStep x) {} bs t ∧ Run (ThreadStep x) t cs s ∧
      t.LooksBack p) ↔ ∃ a ∈ as, a.HandsOver := by
  constructor
  · rintro ⟨bs, cs, t, p, rfl, hbs, -, ht⟩
    have hsome : ∃ a ∈ bs, a.HandsOver := by
      clear hrun
      induction hbs generalizing p with
      | nil => rcases ht with ht | ht <;> cases ht
      | @snoc bs u t a _ hlast ih =>
        by_cases ha : a.HandsOver
        · exact ⟨a, by simp, ha⟩
        · obtain ⟨q, hq⟩ := hlast.looked ha ht
          obtain ⟨b, hb, hover⟩ := ih q hq
          exact ⟨b, List.mem_append_left _ hb, hover⟩
    obtain ⟨a, ha, hover⟩ := hsome
    exact ⟨a, List.mem_append_left _ ha, hover⟩
  · rintro ⟨a, ha, hover⟩
    obtain ⟨bs, cs, rfl⟩ := List.append_of_mem ha
    rw [← List.singleton_append, ← List.append_assoc] at hrun ⊢
    obtain ⟨t, hfirst, hrest⟩ := hrun.append_inv
    obtain ⟨u, -, hlast⟩ := hfirst.append_inv
    obtain ⟨p, hp⟩ := hlast.singleton_inv.looksBack hover
    exact ⟨bs ++ [a], cs, t, p, rfl, hfirst, hrest, hp⟩

/-- In every run a thread looks back at a message it handed over exactly if it hands one over. In a
run in which nobody comes between, it still frees the descriptor of the transmission and logs the
message it dispatched. -/
theorem handed_over_messages [Malloc] (x : UDPServer) :
    (∀ as s, Run (ThreadStep x) {} as s →
      ((∃ bs cs t p, as = bs ++ cs ∧ Run (ThreadStep x) {} bs t ∧ Run (ThreadStep x) t cs s ∧
        t.LooksBack p) ↔ ∃ a ∈ as, a.HandsOver)) ∧
    ∀ as s, Run (fun s a t => ThreadStep x s a t ∧ a.InTime s t) {} as s →
      (∀ r ∈ s.freed, UsedOnly r.2 r.1) ∧ ∀ r ∈ s.entries, r.1 = r.2 := by
  refine ⟨fun as s hrun => looksBack_iff_handsOver hrun, fun as s hrun => ?_⟩
  have hi : LookInv s :=
    hrun.invariant (fun _ _ _ hi hstep => hi.step hstep.1 hstep.2) LookInv.initial
  exact ⟨hi.freed, hi.entries⟩

/-! ### Two runs -/

/-- A reply on a descriptor whose connection is closed behind it. -/
def closingReply (fd : ℤ) : Msg :=
  { takenMsg with
    msgFormat := .res, msgProtocolType := .mcp, msgConnectionType := .obTcp, tcpSocketHandle := fd
    keepAlive := false, msgReplyActionType := .wait }

def queuedReply (fd : ℤ) : Msg := ((closingReply fd).dispatchMsg []).setMsgState .inuse

/-- The pool while the reply is filled, dispatched and found, and when it waits for the handler. -/
def filledPool : MsgPool := takenPool.put 1 (closingReply 5)
def waitingPool : MsgPool := filledPool.put 1 ((closingReply 5).dispatchMsg [])
def lockedPool : MsgPool := waitingPool.lock.put 1 (queuedReply 5)
def queuedPool : MsgPool := (lockedPool.moveTo 1).unlock.put 1 (queuedReply 5)

def handedQueue : WorkQueue where
  queue := [1]
  current := some (1, true)

def queuedThreads : Threads where
  dispatcher := { pool := queuedPool, outbound := ({} : WorkQueue).push 1 }

def toppedThreads : Threads :=
  queuedThreads.setOutbound ((({} : WorkQueue).push 1).top List.mem_cons_self)

/-- The threads behind `TransmitMsg`. -/
def sentThreads (r : OutboundState) : Threads where
  dispatcher := { pool := queuedPool.put 1 r.pMsg, outbound := handedQueue }
  connection := .transmitted 1 r.actions
  outHandler := r.handler

def silentRouter : Router where
  getCommandHandler _ := none
  search _ := []
  queryServiceFirst _ := none

/-- The message goes from the pool over the queues to the outbound thread. -/
theorem queued_run : ∃ as, Run DispatchStep {} as
    { pool := queuedPool, outbound := ({} : WorkQueue).push 1 } ∧
      ∀ a ∈ as, ∀ p, a ≠ .outbound p := by
  have hok : ({} : MsgPool).getReusableMessage 1 (bytes "id") 0 = .ok (1, takenPool) := rfl
  have hget : DispatchStep {} (.producer 1) { pool := takenPool, heldMsgs := [1] } :=
    .getMessage rfl rfl hok
  have hfill : DispatchStep { pool := takenPool, heldMsgs := [1] } (.anyone 1)
      { pool := filledPool, heldMsgs := [1] } := .change rfl rfl
  have hdispatch : DispatchStep { pool := filledPool, heldMsgs := [1] } (.producer 1)
      { pool := waitingPool } := .handOver List.mem_cons_self rfl (.dispatchMsg [])
  have hhead : DispatchStep { pool := waitingPool } .pending
      { pool := waitingPool.lock, pc := .pendingLook 1 } := .pendingHead rfl rfl
  have hm : waitingPool.lock.objects 1 = some ((closingReply 5).dispatchMsg []) := rfl
  have hlook : DispatchStep { pool := waitingPool.lock, pc := .pendingLook 1 } .pending
      { pool := waitingPool.lock, pc := .pendingAct 1 ((closingReply 5).dispatchMsg []).msgState } :=
    .pendingLook rfl hm
  have hinuse : DispatchStep { pool := waitingPool.lock, pc := .pendingAct 1 .pending } .pending
      { pool := lockedPool, pc := .pendingPush 1 } := .pendingInuse rfl hm
  have hpush : DispatchStep { pool := lockedPool, pc := .pendingPush 1 } .pending
      { pool := lockedPool, pc := .pendingNext, priorityQueue := [1] } :=
    .pendingPush rfl rfl nofun
  have hend : lockedPool.getNext = .ok (none, lockedPool.moveTo 1) := rfl
  have hnext : DispatchStep { pool := lockedPool, pc := .pendingNext, priorityQueue := [1] }
      .pending { pool := (lockedPool.moveTo 1).unlock, priorityQueue := [1] } :=
    DispatchStep.pendingNext
      (s := { pool := lockedPool, pc := .pendingNext, priorityQueue := [1] }) rfl hend
  have htop : DispatchStep { pool := (lockedPool.moveTo 1).unlock, priorityQueue := [1] }
      .priority { pool := (lockedPool.moveTo 1).unlock, pc := .routing 1 } :=
    .priorityTop rfl List.mem_cons_self
  have hroute : DispatchStep { pool := (lockedPool.moveTo 1).unlock, pc := .routing 1 }
      .priority { pool := queuedPool, outbound := ({} : WorkQueue).push 1 } :=
    .toConnectionQueue (r := silentRouter) rfl rfl rfl rfl
  refine ⟨_, (((((((((Run.nil.snoc hget).snoc hfill).snoc hdispatch).snoc hhead).snoc hlook).snoc
    hinuse).snoc hpush).snoc hnext).snoc htop).snoc hroute, ?_⟩
  simp

/-- While the connection queue is idle nobody can come between. -/
theorem run_threads [Malloc] {x : UDPServer} {as : List DispatchAction} {d : Dispatcher}
    (hrun : Run DispatchStep {} as d) (hout : ∀ a ∈ as, ∀ p, a ≠ .outbound p) :
    Run (fun s a t => ThreadStep x s a t ∧ a.InTime s t) {} (as.map .others)
      { dispatcher := d } := by
  induction hrun with
  | nil => exact Run.nil
  | @snoc as d d' a _ hlast ih =>
    rw [List.map_append]
    refine (ih fun a ha => hout a (List.mem_append_left _ ha)).snoc
      ⟨.others (hout a (by simp)) hlast, ?_⟩
    cases a with
    | producer p => exact nofun
    | anyone p => exact nofun
    | priority => exact fun p m m' h => nomatch h
    | handler | outbound | pending | flush => trivial

set_option maxRecDepth 8000 in
/-- The reply is sent and its connection is to be closed. -/
theorem sent_run : ∃ as r, Run (fun s a t => ThreadStep udpServer s a t ∧ a.InTime s t) {} as
    (sentThreads r) ∧ .transmit 1 ∈ as ∧ r.pMsg.msgState = .delivered ∧
      r.pMsg.msgConnectionType = .obTcp ∧ r.handler.bCloseConnection = true ∧
      ∃ offered accepted, .tcpSend 5 offered accepted ∈ r.actions := by
  have hr : ∃ r, OutboundState.handleConnection {} quietEnv (queuedReply 5) [.sent 100] = .ok r ∧
      r.pMsg.msgState = .delivered ∧ r.pMsg.msgConnectionType = .obTcp ∧
      r.handler.bCloseConnection = true ∧
      ∃ offered accepted, .tcpSend 5 offered accepted ∈ r.actions :=
    ⟨_, rfl, rfl, rfl, rfl, _, _, List.mem_singleton.mpr rfl⟩
  obtain ⟨r, hr, hstate, hct, hclose, hsent⟩ := hr
  obtain ⟨as, hqueued, hout⟩ := queued_run
  have htop : ThreadStep udpServer queuedThreads (.top 1) toppedThreads :=
    .top List.mem_cons_self rfl rfl
  have htransmit : ThreadStep udpServer toppedThreads (.transmit 1) (sentThreads r) :=
    .transmit rfl rfl rfl hr
  exact ⟨_, r, ((run_threads hqueued hout).snoc ⟨htop, trivial⟩).snoc ⟨htransmit, trivial⟩,
    List.mem_append_right _ List.mem_cons_self, hstate, hct, hclose, hsent⟩

theorem handed_over_messages_sent : ∃ as s, Run (ThreadStep udpServer) {} as s ∧
    (∃ bs cs t p, as = bs ++ cs ∧ Run (ThreadStep udpServer) {} bs t ∧
      Run (ThreadStep udpServer) t cs s ∧ t.LooksBack p) ∧
    ∃ actions, s.freed = [(5, actions)] ∧ UsedOnly actions 5 := by
  obtain ⟨as, r, hrun, hmem, -, hct, hclose, offered, accepted, hsent⟩ := sent_run
  have hm : (sentThreads r).dispatcher.pool.objects 1 = some r.pMsg :=
    MsgPool.put_objects_self _ _ _
  have hdo : ThreadStep udpServer (sentThreads r) .doCloseConnection
      { sentThreads r with connection := .closing 1 r.actions } :=
    .doCloseConnection rfl hm hct hclose
  have hfree := ThreadStep.freeConnection (x := udpServer)
    (s := { sentThreads r with connection := .closing 1 r.actions }) rfl hm
  have hfull := (hrun.snoc ⟨hdo, trivial⟩).snoc ⟨hfree, trivial⟩
  have hused := ((handed_over_messages udpServer).2 _ _ hfull).1 _ List.mem_cons_self
  have hfd : r.pMsg.tcpSocketHandle = 5 := (hused.2 5 offered accepted hsent).symm
  have hall := hfull.mono fun _ _ _ h => h.1
  refine ⟨_, _, hall, ((handed_over_messages udpServer).1 _ _ hall).mpr ?_, r.actions, ?_, ?_⟩
  · exact ⟨.transmit 1, List.mem_append_left _ (List.mem_append_left _ hmem), trivial⟩
  · change [(r.pMsg.tcpSocketHandle, r.actions)] = _
    rw [hfd]
  · exact hfd ▸ hused

/-- The pool in the sweep behind the transmission: at the message, and with the message marked and
given back. -/
def sweptPool (m : Msg) : MsgPool := (queuedPool.put 1 m).lock.flushFreeStack.moveTo 0
def markedPool (m : Msg) : MsgPool := (sweptPool m).put 1 (m.switch m.msgState)
def returnedPool (m : Msg) : MsgPool :=
  { (markedPool m).put 1 ((m.switch m.msgState).setMsgState .inactive) with freeMsgStack := [1] }
def sweptBehind (m : Msg) : MsgPool := ((returnedPool m).moveTo 1).unlock

/-- The message given out again, and filled for another client. -/
def takenAgain (m : Msg) : Msg := ((m.switch m.msgState).setMsgState .inactive).reuse [] 0
def nextReply (m : Msg) : Msg :=
  { takenAgain m with msgConnectionType := .obTcp, tcpSocketHandle := 8 }
def takenAgainPool (m : Msg) : MsgPool :=
  { (sweptBehind m).put 1 (takenAgain m) with freeMsgStack := [] }

/-- The other threads take the message of the outbound thread back and fill it again. -/
theorem refilled_run {m : Msg} (hm : m.msgState = .delivered) : ∃ as,
    Run DispatchStep { pool := queuedPool.put 1 m, outbound := handedQueue } as
      { pool := (takenAgainPool m).put 1 (nextReply m)
        outbound := handedQueue
        heldMsgs := [1] } ∧ ∀ a ∈ as, ∀ p, a ≠ .outbound p := by
  have hswept : (sweptPool m).objects 1 = some m :=
    MsgPool.put_objects_self queuedPool 1 m
  have htaken : (takenAgainPool m).objects 1 = some (takenAgain m) :=
    MsgPool.put_objects_self (sweptBehind m) 1 (takenAgain m)
  have hhead : DispatchStep { pool := queuedPool.put 1 m, outbound := handedQueue } .flush
      { pool := sweptPool m, pc := .flushLook 1, outbound := handedQueue } :=
    DispatchStep.flushHead (s := { pool := queuedPool.put 1 m, outbound := handedQueue })
      rfl rfl
  have hlook : DispatchStep { pool := sweptPool m, pc := .flushLook 1, outbound := handedQueue }
      .flush { pool := sweptPool m, pc := .flushSwitch 1 m.msgState, outbound := handedQueue } :=
    .flushLook rfl hswept
  have hswitch : DispatchStep
      { pool := sweptPool m, pc := .flushSwitch 1 m.msgState, outbound := handedQueue } .flush
      { pool := markedPool m, pc := .flushRelease 1 m.msgState, outbound := handedQueue } :=
    .flushSwitch rfl hswept
  have hmarked : (m.switch m.msgState).msgState = .markForReuse := by rw [hm]; rfl
  have hdelivered : ¬ (m.msgState = .inactive ∧
      int32 (0-(m.switch m.msgState).msgInUseTS) > 60) := by rw [hm]; exact fun h => nomatch h.1
  have hret : (markedPool m).returnToPool 1 = .ok (returnedPool m) := rfl
  have hreturn : DispatchStep
      { pool := markedPool m, pc := .flushRelease 1 m.msgState, outbound := handedQueue } .flush
      { pool := returnedPool m, pc := .flushNext, outbound := handedQueue } :=
    .flushReturn rfl (MsgPool.put_objects_self _ _ _) hdelivered hmarked hret
  have hend : (returnedPool m).getNext = .ok (none, (returnedPool m).moveTo 1) := rfl
  have hnext : DispatchStep
      { pool := returnedPool m, pc := .flushNext, outbound := handedQueue } .flush
      { pool := sweptBehind m, outbound := handedQueue } :=
    DispatchStep.flushNext
      (s := { pool := returnedPool m, pc := .flushNext, outbound := handedQueue }) rfl hend
  have hok : (sweptBehind m).getReusableMessage 2 [] 0 = .ok (1, takenAgainPool m) := rfl
  have hget : DispatchStep { pool := sweptBehind m, outbound := handedQueue } (.producer 1)
      { pool := takenAgainPool m, outbound := handedQueue, heldMsgs := [1] } :=
    .getMessage rfl rfl hok
  have hfill : DispatchStep
      { pool := takenAgainPool m, outbound := handedQueue, heldMsgs := [1] } (.anyone 1)
      { pool := (takenAgainPool m).put 1 (nextReply m)
        outbound := handedQueue
        heldMsgs := [1] } := .change htaken rfl
  refine ⟨_, ((((((Run.nil.snoc hhead).snoc hlook).snoc hswitch).snoc hreturn).snoc hnext).snoc
    hget).snoc hfill, ?_⟩
  simp

/-- The threads beside the outbound one go on. -/
theorem run_others [Malloc] {x : UDPServer} {as : List DispatchAction} {d d' : Dispatcher}
    (s : Threads) (hrun : Run DispatchStep d as d') (hout : ∀ a ∈ as, ∀ p, a ≠ .outbound p) :
    Run (ThreadStep x) { s with dispatcher := d } (as.map .others) { s with dispatcher := d' } := by
  induction hrun with
  | nil => exact Run.nil
  | @snoc as d' d'' a _ hlast ih =>
    rw [List.map_append]
    exact (ih fun a ha => hout a (List.mem_append_left _ ha)).snoc
      (.others (hout a (by simp)) hlast)

/-- After the reply is sent a sweep takes the message back and it is filled for descriptor 8 before
the connection queue reads the descriptor it frees. -/
theorem freed_descriptor_of_another : ∃ as s, Run (ThreadStep udpServer) {} as s ∧
    (∃ bs cs t p, as = bs ++ cs ∧ Run (ThreadStep udpServer) {} bs t ∧
      Run (ThreadStep udpServer) t cs s ∧ t.LooksBack p) ∧
    ∃ r ∈ s.freed, r.1 = 8 ∧ ¬ UsedOnly r.2 r.1 := by
  obtain ⟨as, r, hsent, hmem, hstate, -, hclose, offered, accepted, hused⟩ := sent_run
  obtain ⟨bs, hrefill, hout⟩ := refilled_run hstate
  have hrun : Run (ThreadStep udpServer) {} as (sentThreads r) := hsent.mono fun _ _ _ h => h.1
  have hothers := hrun.trans (run_others (sentThreads r) hrefill hout)
  let s : Threads := { sentThreads r with
    dispatcher := { pool := (takenAgainPool r.pMsg).put 1 (nextReply r.pMsg)
                    outbound := handedQueue, heldMsgs := [1] } }
  have hm : s.dispatcher.pool.objects 1 = some (nextReply r.pMsg) := MsgPool.put_objects_self _ _ _
  have hdo : ThreadStep udpServer s .doCloseConnection
      { s with connection := .closing 1 r.actions } := .doCloseConnection rfl hm rfl hclose
  have hfree := ThreadStep.freeConnection (x := udpServer)
    (s := { s with connection := .closing 1 r.actions }) rfl hm
  have hall := (hothers.snoc hdo).snoc hfree
  refine ⟨_, _, hall, (looksBack_iff_handsOver hall).mpr ⟨.transmit 1, ?_, trivial⟩,
    (8, r.actions), List.mem_cons_self, rfl, fun h => ?_⟩
  · exact List.mem_append_left _ (List.mem_append_left _ (List.mem_append_left _ hmem))
  · have hne : (5 : ℤ) = 8 := h.2 5 offered accepted hused
    cases hne

end MsgCourier
