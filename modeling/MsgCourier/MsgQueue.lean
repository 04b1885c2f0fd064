import MsgCourier.MsgPool

/-! `cMsgQueue`: the sweeps over the message pool. The counts a sweep keeps for the log are the
list of the messages it looked at. -/
namespace MsgCourier
open ListSearch CText

namespace MsgState

/-- The states of a message that someone still works on. -/
def held : MsgState → Bool
  | .inuse | .pending | .undelivered => true
  | .inactive | .delivered | .processed | .markForReuse => false

end MsgState

namespace Msg

/-- `FlushMessages` deletes an inactive message after a minute without use. -/
def expired (m : Msg) (currentTime : ℤ) : Bool :=
  decide (m.msgState = .inactive ∧ int32 (currentTime-m.msgInUseTS) > 60)

/-- The switch of `FlushMessages`. -/
def markForReuse (m : Msg) : Msg :=
  match m.msgState with
  | .inactive | .delivered | .processed => m.setMsgState .markForReuse
  | .undelivered | .pending | .inuse | .markForReuse => m

theorem markForReuse_msgInUseTS (m : Msg) : m.markForReuse.msgInUseTS = m.msgInUseTS := by
  unfold markForReuse
  split <;> rfl

theorem markForReuse_of_held {m : Msg} (h : m.msgState.held = true) : m.markForReuse = m := by
  unfold markForReuse
  cases hs : m.msgState <;> simp_all [MsgState.held]

theorem markForReuse_of_free {m : Msg} (h : m.msgState.held = false) :
    m.markForReuse = m.setMsgState .markForReuse := by
  unfold markForReuse
  cases hs : m.msgState <;> simp_all [MsgState.held]
  rw [← hs]
  rfl

def maxMsgRetry : ℤ := 10

/-- A message that was not delivered is dropped if it has a socket. Otherwise it waits for its delay
and is put in line again, up to ten times. The clock is read twice: to compare and to store. -/
def failedDelivery (m : Msg) (curtime now : ℤ) : Msg :=
  if m.tcpSocketHandle ≠ -1 then m.setMsgState .markForReuse
  else if m.msgSendRetryCount ≠ 0 ∧ curtime < int32 (m.msgLastRetryTS+m.msgSendRetryDelay) then m
  else if m.msgLastRetryTS = 0 then
    { m with msgLastRetryTS := now, msgSendRetryCount := 1, msgState := .pending }
  else if maxMsgRetry-1 < m.msgSendRetryCount then m.setMsgState .markForReuse
  else
    { m with
      msgLastRetryTS := now
      msgSendRetryCount := int32 (m.msgSendRetryCount+1)
      msgSendRetryDelay := int32 (m.msgSendRetryDelay+m.msgSendRetryDelay)
      msgState := .pending }

/-- The body of the loop of `ProcessPendingMessages`, and whether the message goes to the priority
queue. -/
def processPending (m : Msg) (curtime now : ℤ) : Cxx (Msg × Bool) :=
  match m.msgState with
  | .pending =>
    if m.msgConnectionType ≠ .notSet then pure (m.setMsgState .inuse, true) else .error .charPtr
  | .undelivered => pure (m.failedDelivery curtime now, false)
  | .inactive | .inuse | .delivered | .processed | .markForReuse => pure (m, false)

end Msg

/-! ### CreateMessageReply -/

namespace Msg

/-- What `CreateMessageReply` copies into a message of the pool. -/
def replyTo (pNewMsg pToThisMsg : Msg) : Msg :=
  let m : Msg := { pNewMsg with
    tcpSocketHandle := pToThisMsg.tcpSocketHandle
    keepAlive := pToThisMsg.keepAlive }
  let m : Msg :=
    match pToThisMsg.msgConnectionType with
    | .internal => m.setConnectionType .internal
    | .ibUdp => m.setConnectionType .obUdp
    | .ibTcp => m.setConnectionType .obTcp
    | .notSet | .obUdp | .obTcp => m
  let m : Msg := { m with
    msgCommand := if pToThisMsg.msgConnectionType = .internal then cstr pToThisMsg.msgFrom
      else m.msgCommand
    msgID := cstr pToThisMsg.msgID
    msgFormat := .res
    msgTo := cstr pToThisMsg.msgFrom
    msgPriority := pToThisMsg.msgPriority }
  let m : Msg :=
    if pToThisMsg.msgConnectionType = .internal then
      { m with
        msgReplyActionType := .none
        msgNotifyActionType := .no }
    else
      { m with
        msgReplyActionType := pToThisMsg.msgReplyActionType
        msgNotifyActionType := pToThisMsg.msgNotifyActionType
        udpSocketHandle := pToThisMsg.udpSocketHandle
        sourceIP := cstr pToThisMsg.sourceIP
        sourcePort := pToThisMsg.sourcePort }
  { m with
    msgProtocolType := pToThisMsg.msgProtocolType
    msgArrivalPort := pToThisMsg.msgArrivalPort }

def setCloned (m : Msg) : Msg := { m with msgCloned := true }

end Msg

namespace MsgPool

/-- The reply and the pool; the message it answers, if any, is marked as cloned. -/
def createMessageReply (x : MsgPool) (pToThisMsg : Option ℕ) (pNew : ℕ) (newID : Bytes) (now : ℤ) :
    Cxx (ℕ × MsgPool) := do
  let (pNewMsg, x) ← x.getReusableMessage pNew newID now
  match pToThisMsg with
  | none => pure (pNewMsg, x)
  | some p => do
    let m ← x.deref p
    let x := x.put p m.setCloned
    let n ← x.deref pNewMsg
    pure (pNewMsg, x.put pNewMsg (n.replyTo m.setCloned))

/-! ### ProcessPendingMessages -/

/-- The list is what goes to the priority queue, in order; `clock` has the two readings for each
message. -/
def pendingLoop (clock : ℕ → ℤ × ℤ) : ℕ → MsgPool → ℕ → Cxx (MsgPool × List ℕ)
  | 0, _, _ => .error .undefined
  | fuel+1, x, pMsg => do
    let old ← x.deref pMsg
    let (m, queued) ← old.processPending (clock pMsg).1 (clock pMsg).2
    let (next, x) ← (x.put pMsg m).getNext
    match next with
    | none => pure (x, if queued then [pMsg] else [])
    | some p =>
      let (x, rest) ← pendingLoop clock fuel x p
      pure (x, if queued then pMsg :: rest else rest)

def processPendingMessages (x : MsgPool) (clock : ℕ → ℤ × ℤ) : Cxx (MsgPool × List ℕ) := do
  let (pMsg, x) := x.lock.getHead
  match pMsg with
  | none => pure (x.unlock, [])
  | some p =>
    let (x, queue) ← pendingLoop clock x.messages.length x p
    pure (x.unlock, queue)

/-! ### FlushMessages -/

/-- The body of the loop. -/
def flushOne (x : MsgPool) (currentTime : ℤ) (pMsg : ℕ) : Cxx MsgPool := do
  let old ← x.deref pMsg
  let m := old.markForReuse
  let x := x.put pMsg m
  if old.msgState = .inactive ∧ int32 (currentTime-m.msgInUseTS) > 60 then
    let x ← x.deleteCurrent
    pure (x.free pMsg)
  else if m.msgState = .markForReuse then x.returnToPool pMsg
  else pure x

/-- Every pass advances the iterator, so `fuel` for the length of the list is enough. -/
def flushLoop (currentTime : ℤ) : ℕ → MsgPool → ℕ → Cxx (MsgPool × List ℕ)
  | 0, _, _ => .error .undefined
  | fuel+1, x, pMsg => do
    let x ← x.flushOne currentTime pMsg
    let (next, x) ← x.getNext
    match next with
    | none => pure (x, [pMsg])
    | some p =>
      let (x, examined) ← flushLoop currentTime fuel x p
      pure (x, pMsg :: examined)

def flushMessages (x : MsgPool) (currentTime : ℤ) : Cxx (MsgPool × List ℕ) := do
  let x := x.lock.flushFreeStack
  let (pMsg, x) := x.getHead
  match pMsg with
  | none => pure (x.unlock, [])
  | some p =>
    let (x, examined) ← flushLoop currentTime x.messages.length x p
    pure (x.unlock, examined)

end MsgPool
end MsgCourier
