import MsgCourier.HandOver
import MsgCourier.CacheRun

/-! `ProcessOutboundTasks`: the descriptors that `OpenTCP` gets for the messages of the outbound
queue, and what is left of them when the messages have been handled. -/
namespace MsgCourier
open ListSearch CText NodeLists Runs ZeroFill

/-! ### A message -/

/-- A message of the outbound queue and what the sockets do for it. `refused` is the descriptor that
`socket` returns when `connect` fails behind it. -/
structure OutboundTask where
  pMsg : Msg
  env : OutboundEnv
  refused : Option ℕ
  sends : List SendResult

/-- The descriptor that `OpenTCP` gets from `socket`. -/
def OutboundTask.obtained (t : OutboundTask) : Option ℕ :=
  match t.env.connect with
  | some fd => some fd
  | none => t.refused

/-- `OpenTCP` is called for the message. -/
def OutboundTask.Opens (t : OutboundTask) : Prop :=
  t.pMsg.msgConnectionType = .obTcp ∧ t.pMsg.tcpSocketHandle = -1 ∧
    ¬ (t.pMsg.msgProtocolType = .httpGet ∨ t.pMsg.msgProtocolType = .httpPost)

namespace OutboundState

/-- The descriptors the handler closes itself. -/
def closes (s : OutboundState) : List ℤ :=
  s.actions.filterMap fun
    | .close fd => some fd
    | .tcpSend _ _ _ | .openTCP _ _ | .sendto _ _ _ _ => none

def opened (s : OutboundState) : Bool :=
  s.actions.any fun
    | .openTCP _ _ => true
    | .tcpSend _ _ _ | .sendto _ _ _ _ | .close _ => false

end OutboundState

/-! ### The queue -/

/-- `lost` has the descriptors that were neither closed once nor registered when their messages had
been handled. -/
structure ConnectionQueue where
  handler : ConnectionHandlerOutbound := {}
  cache : ConnectionCache := {}
  lost : List ℤ := []

/-- A connection that is read from and timed out. -/
def ConnectionCache.Registered (x : ConnectionCache) (fd : ℤ) : Prop :=
  (x.record fd).state = .waiting ∧ fd ∈ x.activeConnectionList.nodes.map Prod.snd

instance (x : ConnectionCache) (fd : ℤ) : Decidable (x.Registered fd) :=
  inferInstanceAs (Decidable (_ ∧ _))

/-- With the closes since, a descriptor is closed once, or still open and registered. -/
def ConnectionCache.Accounted (x : ConnectionCache) (closes : List ℤ) (fd : ℤ) : Prop :=
  closes.count fd = 1 ∨ fd ∉ closes ∧ x.Registered fd

instance (x : ConnectionCache) (closes : List ℤ) (fd : ℤ) : Decidable (x.Accounted closes fd) :=
  inferInstanceAs (Decidable (_ ∨ _))

namespace ConnectionQueue

/-- The record of the message. -/
def findRecord (q : ConnectionQueue) (pMsg : Msg) : Cxx ConnectionCache :=
  if pMsg.msgConnectionType = .obTcp then do
    let (_, cache) ← q.cache.getConnectionRecord pMsg.tcpSocketHandle
    pure cache
  else pure q.cache

def closeAll (x : ConnectionCache) (fds : List ℤ) : ConnectionCache :=
  { x with closed := x.closed ++ fds }

/-- The message is sent; the cache has the descriptors closed on the way. -/
def handleConnection [Malloc] (q : ConnectionQueue) (t : OutboundTask) :
    Cxx (OutboundState × ConnectionCache) := do
  let cache ← q.findRecord t.pMsg
  let s ← OutboundState.handleConnection q.handler t.env t.pMsg t.sends
  pure (s, closeAll cache s.closes)

/-- What follows on `DoCloseConnection`. -/
def freeSent (s : OutboundState) (x : ConnectionCache) : Cxx ConnectionCache :=
  if s.pMsg.msgConnectionType = .obTcp ∧ s.handler.bCloseConnection = true then
    x.freeConnection s.pMsg.tcpSocketHandle
  else pure x

end ConnectionQueue

/-- The descriptor that `OpenTCP` got while the message was sent. -/
def OutboundTask.gained (t : OutboundTask) (s : OutboundState) : List ℤ :=
  if s.opened then t.obtained.toList.map fun fd => (fd : ℤ) else []

/-- The part of it that is lost when the cache is `x`, after these closes. -/
def OutboundTask.lost (t : OutboundTask) (s : OutboundState) (x : ConnectionCache)
    (closes : List ℤ) : List ℤ :=
  (t.gained s).filter fun fd => ¬ x.Accounted closes fd

inductive QueueAction
  | outbound (t : OutboundTask)
  | other (op : CacheOp)

/-- A message is handled, or stays on the queue because the assertion on its descriptor throws.
Where `FreeConnection` uses an iterator that denotes no node, nothing more can be said of the
message's descriptor. Between the messages the queue calls the cache for the inbound connections. -/
inductive QueueStep [Malloc] : ConnectionQueue → QueueAction → ConnectionQueue → Prop
  | handled {q : ConnectionQueue} {t : OutboundTask} {s : OutboundState} {x y : ConnectionCache} :
      q.handleConnection t = .ok (s, x) → ConnectionQueue.freeSent s x = .ok y →
      QueueStep q (.outbound t)
        { handler := s.handler
          cache := y
          lost := q.lost ++ t.lost s y (y.closed.drop q.cache.closed.length) }
  | undefined {q : ConnectionQueue} {t : OutboundTask} {s : OutboundState} {x : ConnectionCache} :
      q.handleConnection t = .ok (s, x) → ConnectionQueue.freeSent s x = .error .undefined →
      QueueStep q (.outbound t)
        { handler := s.handler
          cache := x
          lost := q.lost ++ t.gained s }
  | throws {q : ConnectionQueue} {t : OutboundTask} :
      q.findRecord t.pMsg = .error .charPtr → QueueStep q (.outbound t) q
  | other {q : ConnectionQueue} {op : CacheOp} {cache : ConnectionCache} :
      op.call q.cache = .ok cache → QueueStep q (.other op) { q with cache }

/-! ### When none is lost -/

/-- The text of a message that is no web page. -/
def OutboundTask.text [Malloc] (t : OutboundTask) (h : ConnectionHandlerOutbound) : Cxx Bytes := do
  let response ← h.formatResponse t.env t.pMsg
  fetch (response.pBuffer.getD []) 0 response.tail

/-- `TCPSend` puts the whole text out. -/
def OutboundTask.sentWhole [Malloc] (t : OutboundTask) (h : ConnectionHandlerOutbound) : Bool :=
  match t.text h with
  | .ok data => (sendLoop data t.sends).bRet
  | .error _ => false

/-- The iterator of the record may be used to take it off the list. -/
def ConnectionCache.Freeable (x : ConnectionCache) (fd : ℤ) : Prop :=
  ∀ r, x.connectionMap fd = some r → x.activeConnectionList.Valid r.it

/-- A new connection is closed when its text was sent and the connection is not kept, or could not
be sent and is kept. Any other socket is accounted for only by a record that the cache
has already. -/
def OutboundTask.Fine [Malloc] (t : OutboundTask) (q : ConnectionQueue) : Prop :=
  t.Opens → ∀ fd, t.obtained = some fd →
    if t.env.connect = none ∨ fd = 0 then q.cache.Registered fd
    else if t.sentWhole q.handler then
      if t.pMsg.keepAlive then q.cache.Registered fd else q.cache.Freeable fd
    else t.pMsg.keepAlive = true

def QueueAction.Fine [Malloc] (q : ConnectionQueue) : QueueAction → Prop
  | .outbound t => t.Fine q
  | .other _ => True

/-! ### What sending a message leaves -/

namespace OutboundState

variable {s : OutboundState} {env : OutboundEnv}

theorem afterSend_closes (s : OutboundState) (fd : ℤ) (r : SendRun) :
    (s.afterSend fd r).closes =
      s.closes ++ if !r.bRet && s.handler.bSocketCreated then [fd] else [] := by
  unfold closes
  rw [afterSend_eq]
  dsimp only
  rw [List.filterMap_append, List.filterMap_append]
  cases r.bRet <;> cases s.handler.bSocketCreated <;> simp

theorem afterSend_opened (s : OutboundState) (fd : ℤ) (r : SendRun) :
    (s.afterSend fd r).opened = s.opened := by
  unfold opened
  rw [afterSend_eq]
  dsimp only
  rw [List.any_append, List.any_append]
  cases r.bRet <;> cases s.handler.bSocketCreated <;> simp

theorem afterSend_bCloseConnection (s : OutboundState) (fd : ℤ) (r : SendRun) :
    (s.afterSend fd r).handler.bCloseConnection =
      (s.handler.bCloseConnection || !r.bRet && !s.handler.bSocketCreated || !s.pMsg.keepAlive) := by
  rw [afterSend_eq]

theorem finish_opened (s : OutboundState) (bRet : Bool) :
    (s.finish bRet).2.opened = s.opened := by
  cases bRet <;> rfl

/-- A page goes out on the descriptor of its message. -/
theorem sendPage_opened [Malloc] {p : Bytes} {r : ℤ × OutboundState}
    (hr : s.sendPage env p = .ok r) : r.2.opened = s.opened := by
  obtain ⟨_, -, hr⟩ := bind_eq_ok.mp hr
  obtain ⟨t, hheader, hr⟩ := bind_eq_ok.mp hr
  obtain ⟨q, hsend, hr⟩ := bind_eq_ok.mp hr
  obtain ⟨buf, -, rfl⟩ := tcpSend_eq_ok.mp hsend
  have ht : t.opened = s.opened := by
    unfold sendHeader at hheader
    split_ifs at hheader
    · obtain ⟨response, -, hheader⟩ := bind_eq_ok.mp hheader
      obtain ⟨data, -, hheader⟩ := bind_eq_ok.mp hheader
      obtain ⟨q, hsend, hheader⟩ := bind_eq_ok.mp hheader
      obtain ⟨buf, -, rfl⟩ := tcpSend_eq_ok.mp hsend
      rw [← Except.ok.inj hheader, afterSend_opened]
      rfl
    · rw [Except.ok.inj hheader]
  rw [← Except.ok.inj hr, finish_opened, afterSend_opened, ht]

theorem udpSend_opened {r : Bool × OutboundState} (hr : s.udpSend env = .ok r) :
    r.2.opened = s.opened := by
  unfold udpSend at hr
  split_ifs at hr
  · split at hr
    · rw [← Except.ok.inj hr]
    · obtain ⟨⟨p, serverAddr⟩, -, hr⟩ := bind_eq_ok.mp hr
      cases p with
      | none => cases hr
      | some mem =>
        obtain ⟨data, -, hr⟩ := bind_eq_ok.mp hr
        rw [← Except.ok.inj hr]
        simp [opened, act, setHandler]
  · obtain ⟨data, -, hr⟩ := bind_eq_ok.mp hr
    rw [← Except.ok.inj hr]
    simp [opened, act]

/-- A text that has a descriptor already goes out on that. -/
theorem sendResponse_opened {r : Bool × OutboundState} (hfd : s.pMsg.tcpSocketHandle ≠ -1)
    (hr : s.sendResponse env = .ok r) : r.2.opened = s.opened := by
  unfold sendResponse findSocket at hr
  rw [if_neg hfd, pure_eq_ok, ok_bind] at hr
  dsimp only at hr
  rw [if_pos hfd] at hr
  obtain ⟨data, -, hr⟩ := bind_eq_ok.mp hr
  obtain ⟨u, hsend, hr⟩ := bind_eq_ok.mp hr
  obtain ⟨buf, -, rfl⟩ := tcpSend_eq_ok.mp hsend
  rw [← Except.ok.inj hr, afterSend_opened]

end OutboundState

/-- For a message that asks for no connection none is opened. -/
theorem OutboundTask.unopened [Malloc] {t : OutboundTask} {h : ConnectionHandlerOutbound}
    {s : OutboundState} (hopens : ¬ t.Opens)
    (hs : OutboundState.handleConnection h t.env t.pMsg t.sends = .ok s) : s.opened = false := by
  obtain ⟨r, hr, hs⟩ := bind_eq_ok.mp hs
  rw [← Except.ok.inj hs]
  by_cases hpage : t.pMsg.msgProtocolType = .httpGet ∨ t.pMsg.msgProtocolType = .httpPost
  · unfold OutboundState.transmitMsg at hr
    rw [if_pos hpage] at hr
    split at hr
    · rw [← Except.ok.inj hr, OutboundState.finish_opened]
      rfl
    · rw [OutboundState.sendPage_opened hr]
      rfl
  · obtain ⟨response, handler, q, -, -, hq, rfl⟩ := OutboundState.transmitMsg_inv hpage hr
    rw [OutboundState.finish_opened]
    rcases OutboundState.sendByType_inv hq with ⟨-, hudp⟩ | ⟨htcp, hq⟩
    · rw [OutboundState.udpSend_opened hudp]
      rfl
    · have hfd : t.pMsg.tcpSocketHandle ≠ -1 := fun hfd => hopens ⟨htcp, hfd, hpage⟩
      rw [OutboundState.sendResponse_opened hfd hq]
      rfl

namespace OutboundState

variable {s : OutboundState} {env : OutboundEnv}

/-- After `OpenTCP` the handler has the address, and knows whether it ever had a connection. -/
theorem openTCP_shape {r : ℤ × OutboundState} (hr : s.openTCP env = .ok r) :
    ∃ server handler, handler.response = s.handler.response ∧
      handler.bCloseConnection = s.handler.bCloseConnection ∧
      (env.connect.isSome → handler.bSocketCreated = true) ∧
      r = (env.connect.elim (-1) fun fd => (fd : ℤ),
        (s.setHandler handler).act (.openTCP server s.handler.serverPort)) := by
  obtain ⟨⟨p, serverAddr⟩, -, hr⟩ := bind_eq_ok.mp hr
  cases p with
  | none => cases hr
  | some mem =>
    cases hconnect : env.connect with
    | none =>
      simp only [hconnect] at hr
      refine ⟨cstr mem, s.handler.setServerAddr serverAddr, rfl, rfl, ?_, (Except.ok.inj hr).symm⟩
      exact fun h => absurd h Bool.false_ne_true
    | some fd =>
      simp only [hconnect] at hr
      exact ⟨cstr mem, (s.handler.setServerAddr serverAddr).socketCreated, rfl, rfl, fun _ => rfl,
        (Except.ok.inj hr).symm⟩

/-- On a new connection a failed `TCPSend` closes the descriptor itself. -/
theorem afterSend_new {fd : ℤ} (hfd : 0 ≤ fd) (hcloses : s.closes = [])
    (hcreated : s.handler.bSocketCreated = true) (hclose : s.handler.bCloseConnection = false)
    (data : Bytes) :
    (s.afterSend fd (sendLoop data (s.schedule fd))).closes =
        (if (sendLoop data s.sends).bRet then [] else [fd]) ∧
      (s.afterSend fd (sendLoop data (s.schedule fd))).handler.bCloseConnection =
        !s.pMsg.keepAlive := by
  have hschedule : s.schedule fd = s.sends := if_neg (not_lt.mpr hfd)
  rw [afterSend_closes, afterSend_bCloseConnection, hschedule, hcloses, hcreated, hclose]
  cases (sendLoop data s.sends).bRet <;> simp

/-- `TCPSend` puts the whole response out. -/
def sendsAll (s : OutboundState) : Bool :=
  match s.responseBytes with
  | .ok data => (sendLoop data s.sends).bRet
  | .error _ => false

/-- What is left in `t` of a message of `s` for which a connection was opened. -/
structure Opening (s : OutboundState) (env : OutboundEnv) (t : OutboundState) : Prop where
  opened : t.opened = true
  msgConnectionType : t.pMsg.msgConnectionType = s.pMsg.msgConnectionType
  unconnected : env.connect = none → t.closes = [] ∧ t.handler.bCloseConnection = false
  zero : env.connect = some 0 → t.closes = [-1] ∧ t.pMsg.tcpSocketHandle = -1
  connected : ∀ n, env.connect = some (n+1) →
    t.closes = (if s.sendsAll then [] else [((n+1 : ℕ) : ℤ)]) ∧
      t.pMsg.tcpSocketHandle = (n+1 : ℕ) ∧ t.handler.bCloseConnection = !s.pMsg.keepAlive

theorem Opening.finish {t : OutboundState} (h : s.Opening env t) (bRet : Bool) :
    s.Opening env (t.finish bRet).2 := by
  cases bRet <;>
    exact ⟨h.opened, h.msgConnectionType, h.unconnected, h.zero, h.connected⟩

theorem sendResponse_opening {r : Bool × OutboundState} (hfd : s.pMsg.tcpSocketHandle = -1)
    (hactions : s.actions = []) (hclose : s.handler.bCloseConnection = false)
    (hr : s.sendResponse env = .ok r) : s.Opening env r.2 := by
  obtain ⟨⟨socketfd, u⟩, hfind, hr⟩ := bind_eq_ok.mp hr
  unfold findSocket at hfind
  rw [if_pos hfd] at hfind
  obtain ⟨v, hopen, hfind⟩ := bind_eq_ok.mp hfind
  obtain ⟨server, handler, hresponse, hkept, hcreated, rfl⟩ := openTCP_shape hopen
  have hcloses :
      ((s.setHandler handler).act (.openTCP server s.handler.serverPort)).closes = [] := by
    simp [closes, act, setHandler, hactions]
  have hopened :
      ((s.setHandler handler).act (.openTCP server s.handler.serverPort)).opened = true := by
    simp [opened, act, setHandler]
  have hbytes : OutboundState.responseBytes
      ((s.setHandler handler).act (.openTCP server s.handler.serverPort)) = s.responseBytes := by
    unfold responseBytes
    rw [← hresponse]
    rfl
  generalize hw : (s.setHandler handler).act (.openTCP server s.handler.serverPort) = w at *
  have hhandler : w.handler = handler := by rw [← hw]; rfl
  have hmsg : w.pMsg = s.pMsg := by rw [← hw]; rfl
  have htype : w.pMsg.msgConnectionType = s.pMsg.msgConnectionType := congrArg _ hmsg
  have hsends : w.sends = s.sends := by rw [← hw]; rfl
  have hopen' : w.handler.bCloseConnection = false := by rw [hhandler, hkept, hclose]
  dsimp only at hr hfind
  cases hconnect : env.connect with
  | none =>
    rw [hconnect, Option.elim_none, if_pos (by decide)] at hfind
    obtain ⟨rfl, rfl⟩ := Prod.mk.inj (Except.ok.inj hfind)
    rw [if_neg (not_not.mpr rfl)] at hr
    rw [← Except.ok.inj hr]
    exact {
      opened := hopened
      msgConnectionType := htype
      unconnected := fun _ => ⟨hcloses, hopen'⟩
      zero := fun h => by cases hconnect.symm.trans h
      connected := fun _ h => by cases hconnect.symm.trans h }
  | some n =>
    have hcreated : w.handler.bSocketCreated = true := by
      rw [hhandler]
      exact hcreated (hconnect ▸ rfl)
    cases n with
    | zero =>
      -- the descriptor of the message stays -1, so nothing can be sent
      rw [hconnect, Option.elim_some, if_neg (by simp)] at hfind
      obtain ⟨rfl, rfl⟩ := Prod.mk.inj (Except.ok.inj hfind)
      rw [if_pos (by decide)] at hr
      obtain ⟨data, -, hr⟩ := bind_eq_ok.mp hr
      obtain ⟨x, hsend, hr⟩ := bind_eq_ok.mp hr
      obtain ⟨buf, -, rfl⟩ := tcpSend_eq_ok.mp hsend
      have hminus : w.pMsg.tcpSocketHandle = -1 := by rw [hmsg, hfd]
      have hfails : (sendLoop buf (w.schedule (-1))).bRet = false := rfl
      rw [← Except.ok.inj hr, hminus]
      exact {
        opened := by rw [afterSend_opened, hopened]
        msgConnectionType := by rw [afterSend_pMsg, hmsg]
        unconnected := fun h => by cases hconnect.symm.trans h
        zero := fun _ => by
          rw [afterSend_closes, afterSend_pMsg, hcloses, hfails, hcreated]
          exact ⟨rfl, hminus⟩
        connected := fun _ h => by cases hconnect.symm.trans h }
    | succ n =>
      rw [hconnect, Option.elim_some, if_pos (by omega)] at hfind
      obtain ⟨rfl, rfl⟩ := Prod.mk.inj (Except.ok.inj hfind)
      rw [if_pos (by omega)] at hr
      obtain ⟨data, hdata, hr⟩ := bind_eq_ok.mp hr
      obtain ⟨x, hsend, hr⟩ := bind_eq_ok.mp hr
      rw [tcpSend_all, Except.ok.injEq] at hsend
      rw [← Except.ok.inj hr, ← hsend]
      have hdata : w.responseBytes = .ok data := hdata
      have hsent : s.sendsAll = (sendLoop data w.sends).bRet := by
        unfold sendsAll
        rw [← hbytes, hdata, hsends]
      obtain ⟨hnew, hflag⟩ := afterSend_new
        (s := { w with pMsg := w.pMsg.setTCPSocketHandle (n+1 : ℕ) })
        (show (0 : ℤ) ≤ (n+1 : ℕ) by omega)
        hcloses hcreated hopen' data
      exact {
        opened := by rw [afterSend_opened]; exact hopened
        msgConnectionType := by rw [afterSend_pMsg]; exact htype
        unconnected := fun h => by cases hconnect.symm.trans h
        zero := fun h => by cases hconnect.symm.trans h
        connected := fun m h => by
          cases hconnect.symm.trans h
          refine ⟨hsent ▸ hnew, by rw [afterSend_pMsg]; rfl, ?_⟩
          rw [← hmsg]
          exact hflag }

end OutboundState

theorem OutboundTask.opening [Malloc] {t : OutboundTask} {h : ConnectionHandlerOutbound}
    {s : OutboundState}
    (hopens : t.Opens) (hs : OutboundState.handleConnection h t.env t.pMsg t.sends = .ok s) :
    ∃ start : OutboundState, start.pMsg = t.pMsg ∧ start.sendsAll = t.sentWhole h ∧
      start.Opening t.env s := by
  obtain ⟨r, hr, hs⟩ := bind_eq_ok.mp hs
  obtain ⟨htcp, hfd, hpage⟩ := hopens
  obtain ⟨response, handler, q, hformat, hserver, hq, rfl⟩ :=
    OutboundState.transmitMsg_inv hpage hr
  obtain ⟨hresponse, hclose⟩ := OutboundState.setServer_keeps hserver
  generalize hstart : OutboundState.setHandler _ handler = start at hq
  have hmsg : start.pMsg = t.pMsg := by rw [← hstart]; rfl
  have hhandler : start.handler = handler := by rw [← hstart]; rfl
  have hsends : start.sends = t.sends := by rw [← hstart]; rfl
  have hq : start.sendResponse t.env = .ok q := by
    rcases OutboundState.sendByType_inv hq with ⟨hudp, -⟩ | ⟨-, hq⟩
    · rw [hmsg, htcp] at hudp
      cases hudp
    · exact hq
  have htext : t.text h = start.responseBytes := by
    have hformat : h.formatResponse t.env t.pMsg = .ok response := hformat
    have hbuffer : handler.response = response := hresponse
    unfold OutboundTask.text OutboundState.responseBytes
    rw [hformat, ok_bind, hhandler, hbuffer]
  refine ⟨start, hmsg, ?_, ?_⟩
  · unfold OutboundState.sendsAll OutboundTask.sentWhole
    rw [htext, hsends]
  · rw [← Except.ok.inj hs]
    apply OutboundState.Opening.finish
    apply OutboundState.sendResponse_opening _ _ _ hq
    · rw [hmsg, hfd]
    · rw [← hstart]; rfl
    · rw [hhandler, hclose]; rfl

/-! ### What becomes of a descriptor -/

namespace ConnectionCache

variable {x y : ConnectionCache} {fd : ℤ}

theorem unlink_ok_iff {r : CacheRecord} :
    (∃ l, x.unlink r = .ok l) ↔ x.activeConnectionList.Valid r.it := by
  unfold unlink NodeList.Valid
  cases r.it with
  | singular => simp
  | stop => simp [pure_eq_ok]
  | node n =>
    dsimp only
    split_ifs with hn
    · obtain ⟨p, hp, rfl⟩ := List.mem_map.mp hn
      exact iff_of_true ⟨_, rfl⟩ (Or.inr ⟨p, hp, rfl⟩)
    · apply iff_of_false
      · rintro ⟨l, hl⟩
        cases hl
      · rintro (h | ⟨p, hp, h⟩)
        · cases h
        · exact hn (List.mem_map.mpr ⟨p, hp, (It.node.inj h).symm⟩)

theorem freeConnection_ok_iff (hfd : fd ≠ -1) :
    (∃ y, x.freeConnection fd = .ok y) ↔ x.Freeable fd := by
  unfold freeConnection Freeable
  rw [if_neg hfd]
  cases hr : x.connectionMap fd with
  | none => simp [pure_eq_ok]
  | some r =>
    simp only [Option.some.injEq, forall_eq']
    rw [← unlink_ok_iff]
    constructor
    · rintro ⟨y, hy⟩
      obtain ⟨l, hl, -⟩ := bind_eq_ok.mp hy
      exact ⟨l, hl⟩
    · rintro ⟨l, hl⟩
      rw [hl, ok_bind]
      exact ⟨_, rfl⟩

/-- A freed descriptor is closed once. -/
theorem freeConnection_closed (hfd : fd ≠ -1) (hy : x.freeConnection fd = .ok y) :
    y.closed = x.closed ++ [fd] := by
  unfold freeConnection at hy
  rw [if_neg hfd] at hy
  split at hy
  · rw [← Except.ok.inj hy]
    rfl
  · obtain ⟨l, -, hy⟩ := bind_eq_ok.mp hy
    rw [← Except.ok.inj hy]
    rfl

theorem accounted_of_notMem {closes : List ℤ} (h : fd ∉ closes) :
    x.Accounted closes fd ↔ x.Registered fd := by
  unfold Accounted
  rw [List.count_eq_zero_of_not_mem h]
  simp [h]

theorem accounted_once (x : ConnectionCache) (fd : ℤ) : x.Accounted [fd] fd :=
  Or.inl (by simp)

theorem not_accounted_twice (x : ConnectionCache) (fd : ℤ) : ¬ x.Accounted [fd, fd] fd := by
  unfold Accounted
  simp

end ConnectionCache

theorem OutboundTask.gained_eq {t : OutboundTask} {s : OutboundState} {fd : ℕ}
    (hs : s.opened = true) (hfd : t.obtained = some fd) : t.gained s = [(fd : ℤ)] := by
  unfold OutboundTask.gained
  rw [if_pos hs, hfd]
  rfl

theorem OutboundTask.lost_eq_nil_iff {t : OutboundTask} {s : OutboundState} {fd : ℕ}
    (hs : s.opened = true) (hfd : t.obtained = some fd) (y : ConnectionCache) (closes : List ℤ) :
    t.lost s y closes = [] ↔ y.Accounted closes fd := by
  unfold OutboundTask.lost
  rw [OutboundTask.gained_eq hs hfd, List.filter_eq_nil_iff]
  simp

/-- Nothing is lost for a message that opens no connection. -/
theorem OutboundTask.gained_of_not_opens [Malloc] {t : OutboundTask} {q : ConnectionQueue}
    {s : OutboundState} {x : ConnectionCache} (hopens : ¬ t.Opens)
    (hs : q.handleConnection t = .ok (s, x)) : t.gained s = [] := by
  obtain ⟨cache, -, hs⟩ := bind_eq_ok.mp hs
  obtain ⟨s', hs', hs⟩ := bind_eq_ok.mp hs
  obtain ⟨rfl, -⟩ := Prod.mk.inj (Except.ok.inj hs)
  unfold OutboundTask.gained
  rw [OutboundTask.unopened hopens hs']
  rfl

/-- The record of a message that opens a connection is none, so the cache is as it was. -/
theorem ConnectionQueue.handleConnection_opening [Malloc] {t : OutboundTask} {q : ConnectionQueue}
    {s : OutboundState} {x : ConnectionCache} (hopens : t.Opens)
    (hs : q.handleConnection t = .ok (s, x)) : x = closeAll q.cache s.closes ∧
      ∃ start : OutboundState, start.pMsg = t.pMsg ∧ start.sendsAll = t.sentWhole q.handler ∧
        start.Opening t.env s := by
  obtain ⟨cache, hcache, hs⟩ := bind_eq_ok.mp hs
  obtain ⟨s', hs', hs⟩ := bind_eq_ok.mp hs
  obtain ⟨rfl, rfl⟩ := Prod.mk.inj (Except.ok.inj hs)
  have hnone : q.findRecord t.pMsg = .ok q.cache := by
    unfold findRecord ConnectionCache.getConnectionRecord
    rw [if_pos hopens.1, if_pos (Or.inl hopens.2.1)]
    rfl
  rw [hnone] at hcache
  exact ⟨by rw [Except.ok.inj hcache], OutboundTask.opening hopens hs'⟩

namespace OutboundTask

variable {t : OutboundTask} {q : ConnectionQueue} {s : OutboundState} {x y : ConnectionCache}

theorem obtained_of_connect {n : ℕ} (h : t.env.connect = some n) : t.obtained = some n := by
  unfold obtained
  rw [h]

/-- `Fine` for a message that opens a connection, by the descriptor it gets. -/
theorem fine_iff [Malloc] {fd : ℕ} (hopens : t.Opens) (hfd : t.obtained = some fd) : t.Fine q ↔
    if t.env.connect = none ∨ fd = 0 then q.cache.Registered fd else if t.sentWhole q.handler then
      if t.pMsg.keepAlive then q.cache.Registered fd else q.cache.Freeable fd
    else t.pMsg.keepAlive = true := by
  constructor
  · intro h
    exact h hopens fd hfd
  · intro h _ fd' hfd'
    obtain rfl := Option.some.inj (hfd.symm.trans hfd')
    exact h

/-- The connection of the message is left as it is. -/
theorem freeSent_keepAlive (hclose : s.handler.bCloseConnection = false)
    (hy : ConnectionQueue.freeSent s x = .ok y) : y = x := by
  unfold ConnectionQueue.freeSent at hy
  rw [if_neg fun h => Bool.false_ne_true (hclose.symm.trans h.2)] at hy
  exact (Except.ok.inj hy).symm

theorem freeSent_close {fd : ℤ} (htype : s.pMsg.msgConnectionType = .obTcp)
    (hfd : s.pMsg.tcpSocketHandle = fd) (hclose : s.handler.bCloseConnection = true) :
    ConnectionQueue.freeSent s x = x.freeConnection fd := by
  unfold ConnectionQueue.freeSent
  rw [if_pos ⟨htype, hclose⟩, hfd]

/-- No descriptor is given to `FreeConnection`. -/
theorem freeSent_minus (hfd : s.pMsg.tcpSocketHandle = -1) :
    ConnectionQueue.freeSent s x = .ok x := by
  unfold ConnectionQueue.freeSent ConnectionCache.freeConnection
  rw [hfd, if_pos rfl]
  split_ifs <;> rfl

/-- What is lost of a new connection, by what was sent on it and whether it is kept. -/
theorem accounted_iff_of_connected {fd : ℤ} (hfd : fd ≠ -1)
    (htype : s.pMsg.msgConnectionType = .obTcp) (hsocket : s.pMsg.tcpSocketHandle = fd)
    {keep sent : Bool} (hclose : s.handler.bCloseConnection = !keep)
    (hcloses : s.closes = if sent then [] else [fd])
    (hy : ConnectionQueue.freeSent s (ConnectionQueue.closeAll x s.closes) = .ok y) :
    y.Accounted (y.closed.drop x.closed.length) fd ↔
      if sent then if keep then x.Registered fd else x.Freeable fd else keep = true := by
  cases keep with
  | true =>
    obtain rfl := freeSent_keepAlive hclose hy
    have hdrop : (ConnectionQueue.closeAll x s.closes).closed.drop x.closed.length = s.closes :=
      List.drop_left
    rw [hdrop, hcloses]
    cases sent with
    | true => exact ConnectionCache.accounted_of_notMem List.not_mem_nil
    | false => exact iff_of_true (ConnectionCache.accounted_once _ _) rfl
  | false =>
    rw [freeSent_close htype hsocket hclose] at hy
    have hdrop : y.closed.drop x.closed.length = s.closes ++ [fd] := by
      rw [ConnectionCache.freeConnection_closed hfd hy, ConnectionQueue.closeAll,
        List.append_assoc]
      exact List.drop_left
    rw [hdrop, hcloses]
    cases sent with
    | true =>
      have hfree : (ConnectionQueue.closeAll x s.closes).Freeable fd :=
        (ConnectionCache.freeConnection_ok_iff hfd).mp ⟨y, hy⟩
      exact iff_of_true (ConnectionCache.accounted_once _ _) hfree
    | false => exact iff_of_false (ConnectionCache.not_accounted_twice _ _) Bool.false_ne_true

theorem lost_eq_nil_iff_fine [Malloc] (hs : q.handleConnection t = .ok (s, x))
    (hy : ConnectionQueue.freeSent s x = .ok y) :
    t.lost s y (y.closed.drop q.cache.closed.length) = [] ↔ t.Fine q := by
  by_cases hopens : t.Opens
  · obtain ⟨rfl, start, hmsg, hsends, hopening⟩ := q.handleConnection_opening hopens hs
    have hdrop : (ConnectionQueue.closeAll q.cache s.closes).closed.drop q.cache.closed.length =
        s.closes := List.drop_left
    cases hfd : t.obtained with
    | none =>
      refine iff_of_true ?_ fun _ fd h => ?_
      · simp [lost, gained, hfd]
      · cases hfd.symm.trans h
    | some fd =>
      rw [lost_eq_nil_iff hopening.opened hfd, fine_iff hopens hfd]
      cases hconnect : t.env.connect with
      | none =>
        -- the socket of a connect that failed is never closed
        obtain ⟨hcloses, hclose⟩ := hopening.unconnected hconnect
        obtain rfl := freeSent_keepAlive hclose hy
        rw [if_pos (Or.inl rfl), hdrop, hcloses]
        exact ConnectionCache.accounted_of_notMem List.not_mem_nil
      | some n =>
        obtain rfl := Option.some.inj ((obtained_of_connect hconnect).symm.trans hfd)
        cases n with
        | zero =>
          obtain ⟨hcloses, hminus⟩ := hopening.zero hconnect
          obtain rfl := Except.ok.inj ((freeSent_minus hminus).symm.trans hy)
          rw [if_pos (Or.inr rfl), hdrop, hcloses]
          exact ConnectionCache.accounted_of_notMem (by simp)
        | succ n =>
          obtain ⟨hcloses, hsocket, hclose⟩ := hopening.connected n hconnect
          have htype : s.pMsg.msgConnectionType = .obTcp := by
            rw [hopening.msgConnectionType, hmsg, hopens.1]
          rw [if_neg (by simp)]
          rw [hsends] at hcloses
          rw [hmsg] at hclose
          exact accounted_iff_of_connected (by omega) htype hsocket hclose hcloses hy
  · refine iff_of_true ?_ fun h => absurd h hopens
    unfold lost
    rw [gained_of_not_opens hopens hs]
    rfl

/-- Where `FreeConnection` goes wrong the connection was new, and its record cannot be freed. -/
theorem gained_eq_nil_iff_fine [Malloc] {e : Exn} (hs : q.handleConnection t = .ok (s, x))
    (hy : ConnectionQueue.freeSent s x = .error e) : t.gained s = [] ↔ t.Fine q := by
  by_cases hopens : t.Opens
  · obtain ⟨rfl, start, hmsg, hsends, hopening⟩ := q.handleConnection_opening hopens hs
    have hclose : s.handler.bCloseConnection = true := by
      by_contra h
      unfold ConnectionQueue.freeSent at hy
      rw [if_neg fun hc => h hc.2] at hy
      cases hy
    have htype : s.pMsg.msgConnectionType = .obTcp := by
      rw [hopening.msgConnectionType, hmsg, hopens.1]
    cases hconnect : t.env.connect with
    | none => exact absurd (hclose.symm.trans (hopening.unconnected hconnect).2) nofun
    | some n =>
      cases n with
      | zero => cases (freeSent_minus (hopening.zero hconnect).2).symm.trans hy
      | succ n =>
        obtain ⟨-, hsocket, hkeep⟩ := hopening.connected n hconnect
        have hobtained := obtained_of_connect hconnect
        have hkeep : t.pMsg.keepAlive = false := by
          rw [hclose, hmsg] at hkeep
          simpa using hkeep.symm
        rw [freeSent_close htype hsocket hclose] at hy
        have hfree : ¬ q.cache.Freeable (n+1 : ℕ) := by
          intro h
          obtain ⟨y, hy'⟩ := (ConnectionCache.freeConnection_ok_iff
            (x := ConnectionQueue.closeAll q.cache s.closes) (by omega)).mpr h
          cases hy'.symm.trans hy
        rw [gained_eq hopening.opened hobtained, fine_iff hopens hobtained,
          if_neg (by simp [hconnect]),
          hkeep]
        apply iff_of_false (List.cons_ne_nil _ _)
        rw [if_neg Bool.false_ne_true]
        cases t.sentWhole q.handler with
        | true => exact hfree
        | false => exact Bool.false_ne_true
  · exact iff_of_true (gained_of_not_opens hopens hs) fun h => absurd h hopens

end OutboundTask

/-! ### Runs -/

namespace QueueStep

variable {q r : ConnectionQueue} {a : QueueAction}

/-- A step loses nothing exactly when its message is fine. -/
theorem lost_eq_nil_iff [Malloc] (hstep : QueueStep q a r) : r.lost = [] ↔ q.lost =
    [] ∧ a.Fine q := by
  cases hstep with
  | handled hs hy =>
    change _ ++ _ = [] ↔ _
    rw [List.append_eq_nil_iff, OutboundTask.lost_eq_nil_iff_fine hs hy]
    rfl
  | undefined hs hy =>
    change _ ++ _ = [] ↔ _
    rw [List.append_eq_nil_iff, OutboundTask.gained_eq_nil_iff_fine hs hy]
    rfl
  | @throws t hthrows =>
    have hopens : ¬ t.Opens := by
      intro hopens
      unfold ConnectionQueue.findRecord ConnectionCache.getConnectionRecord at hthrows
      rw [if_pos hopens.1, if_pos (Or.inl hopens.2.1)] at hthrows
      cases hthrows
    exact ⟨fun h => ⟨h, fun ho => absurd ho hopens⟩, fun h => h.1⟩
  | other _ => exact ⟨fun h => ⟨h, trivial⟩, fun h => h.1⟩

end QueueStep

/-- In a run from any handler and any cache no descriptor is lost, exactly when every message is
fine in the state in which it is handled. -/
theorem outbound_sockets_accounted [Malloc] (handler : ConnectionHandlerOutbound)
    (cache : ConnectionCache) (as : List QueueAction) (r : ConnectionQueue)
    (hrun : Run QueueStep { handler, cache } as r) :
    r.lost = [] ↔ Run (fun q a r => QueueStep q a r ∧ a.Fine q) { handler, cache } as r := by
  constructor
  · induction hrun with
    | nil => exact fun _ => Run.nil
    | snoc _ hlast ih =>
      intro hlost
      obtain ⟨hbefore, hfine⟩ := hlast.lost_eq_nil_iff.mp hlost
      exact (ih hbefore).snoc ⟨hlast, hfine⟩
  · intro hfine
    have hkeep : ∀ q a r, q.lost = [] → QueueStep q a r ∧ a.Fine q → r.lost = [] :=
      fun q a r hlost hstep => hstep.1.lost_eq_nil_iff.mpr ⟨hlost, hstep.2⟩
    exact hfine.invariant hkeep rfl

/-- A request for another server, on a connection that gets descriptor 5. -/
def newRequest (keepAlive : Bool) : OutboundTask where
  pMsg := {
    msgFormat := .req
    msgProtocolType := .mcp
    msgConnectionType := .obTcp
    msgCommand := bytes "echo"
    msgTo := bytes "b@10.0.0.2:3400"
    keepAlive }
  env := { quietEnv with connect := some 5 }
  refused := none
  sends := [.sent 1000]

set_option maxRecDepth 40000 in
theorem newRequest_sent (keepAlive : Bool) : ∃ s, ({} : ConnectionQueue).handleConnection
    (newRequest keepAlive) = .ok (s, {}) ∧ s.opened = true ∧ s.pMsg.tcpSocketHandle = 5 ∧
      s.pMsg.msgConnectionType = .obTcp ∧ s.handler.bCloseConnection = !keepAlive := by
  cases keepAlive <;> exact ⟨_, rfl, rfl, rfl, rfl, rfl⟩

/-- A kept connection stays open and no record is made for it. -/
theorem kept_connection_lost : ∃ as q, Run QueueStep {} as q ∧ q.lost = [5] := by
  obtain ⟨s, hs, hopened, -, -, hclose⟩ := newRequest_sent true
  have hfree : ConnectionQueue.freeSent s {} = .ok {} := by
    unfold ConnectionQueue.freeSent
    rw [if_neg fun h => Bool.false_ne_true (hclose.symm.trans h.2)]
    rfl
  refine ⟨_, _, Run.nil.snoc (.handled hs hfree), ?_⟩
  have hgained := OutboundTask.gained_eq hopened (show (newRequest true).obtained = some 5 from rfl)
  change [] ++ (OutboundTask.gained _ s).filter _ = _
  rw [hgained]
  rfl

theorem outbound_sockets_accounted_closed : ∃ as q, Run QueueStep {} as q ∧
    (q.lost = [] ↔ Run (fun q a r => QueueStep q a r ∧ a.Fine q) {} as q) ∧
      q.cache.closed = [5] := by
  obtain ⟨s, hs, hopened, hfd, htype, hclose⟩ := newRequest_sent false
  have hfree : ConnectionQueue.freeSent s {} =
    .ok { ({} : ConnectionCache) with closed := [5] } := by
    rw [OutboundTask.freeSent_close htype hfd hclose]
    rfl
  have hrun := Run.nil.snoc (QueueStep.handled hs hfree)
  exact ⟨_, _, hrun, outbound_sockets_accounted {} {} _ _ hrun, rfl⟩

end MsgCourier
