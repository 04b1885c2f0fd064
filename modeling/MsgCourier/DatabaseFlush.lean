import MsgCourier.PoolSweep

/-! `FlushMessagesToDB`, and which messages it and `FlushMessages` make available for reuse. -/
namespace MsgCourier
open ListSearch CText CursorSweep

/-- What is bound to the statement for a message. -/
structure MsgRow where
  fldMsgID : Bytes
  fldMsgConnectionType : MsgConnectionType
  fldMsgFormat : MsgFormat
  fldMsgResponseCode : ℤ
  fldMsgState : MsgState
  fldCommand : Bytes
  fldTo : Bytes
  fldFrom : Bytes
  fldCRC32 : ℤ
  fldContentType : Bytes
  fldContentLength : ℤ
  fldPayload : Option Bytes

namespace Msg

def row (m : Msg) : MsgRow where
  fldMsgID := cstr m.msgID
  fldMsgConnectionType := m.msgConnectionType
  fldMsgFormat := m.msgFormat
  fldMsgResponseCode := m.msgResponseCode
  fldMsgState := m.msgState
  fldCommand := cstr m.msgCommand
  fldTo := cstr m.msgTo
  fldFrom := cstr m.msgFrom
  fldCRC32 := atoi m.msgCRC32
  fldContentType := cstr m.msgContentType
  fldContentLength := m.msgContentLength
  fldPayload := m.payloadMem

/-- The states that are written to the database. -/
def isFinal (m : Msg) : Bool :=
  match m.msgState with
  | .undelivered | .delivered | .processed => true
  | .inactive | .inuse | .pending | .markForReuse => false

/-- What a pass does to a message when `sqlite3_step` returns `SQLITE_DONE` for the rows of
`step`. -/
def stored (step : MsgRow → Bool) (m : Msg) : Msg :=
  if m.isFinal && step m.row then m.setMsgState .markForReuse else m

def storedRows (step : MsgRow → Bool) (m : Msg) : List MsgRow :=
  if m.isFinal && step m.row then [m.row] else []

end Msg

namespace MsgPool

/-- The pool and the rows that were inserted. -/
def flushToDBLoop (step : MsgRow → Bool) : ℕ → MsgPool → ℕ → Cxx (MsgPool × List MsgRow)
  | 0, _, _ => .error .undefined
  | fuel+1, x, pMsg => do
    let m ← x.deref pMsg
    let (next, x) ← (x.put pMsg (m.stored step)).getNext
    match next with
    | none => pure (x, m.storedRows step)
    | some p =>
      let (x, rows) ← flushToDBLoop step fuel x p
      pure (x, m.storedRows step ++ rows)

/-- `prepared` is false when `sqlite3_prepare` yields no statement. -/
def flushMessagesToDB (x : MsgPool) (prepared : Bool) (step : MsgRow → Bool) :
    Cxx (MsgPool × List MsgRow) :=
  if !prepared then pure (x, [])
  else do
    let (pMsg, x) := x.lock.getHead
    match pMsg with
    | none => pure (x.unlock, [])
    | some p =>
      let (x, rows) ← flushToDBLoop step x.messages.length x p
      pure (x.unlock, rows)

/-! ### What the flush leaves -/

variable {x : MsgPool} {step : MsgRow → Bool}

/-- What the sweep has made of the pool behind the messages `ps`. -/
structure Stored (step : MsgRow → Bool) (ps : List ℕ) (x y : MsgPool) : Prop where
  messages : y.messages = x.messages
  freeMsgStack : y.freeMsgStack = x.freeMsgStack
  objects : ∀ q, y.objects q =
    if q ∈ ps then (x.objects q).map (Msg.stored step) else x.objects q

/-- One message is stored, and the cursor moves on. -/
theorem Stored.cons {p : ℕ} {ps : List ℕ} {m : Msg} {n : ℕ} {y : MsgPool}
    (hm : x.objects p = some m) (hp : p ∉ ps)
    (h : Stored step ps ((x.put p (m.stored step)).moveTo n) y) : Stored step (p :: ps) x y where
  messages := h.messages
  freeMsgStack := h.freeMsgStack
  objects q := by
    rw [h.objects q]
    change (if q ∈ ps then (Function.update x.objects p _ q).map _
      else Function.update x.objects p _ q) = _
    by_cases hq : q = p
    · subst hq
      rw [if_neg hp, if_pos List.mem_cons_self, Function.update_self, hm]
      rfl
    · rw [Function.update_of_ne hq]
      exact if_congr (by rw [List.mem_cons, or_iff_right hq]) rfl rfl

theorem getNext_put {p : ℕ} {m : Msg} (hl : x.bLocked = true) (h : x.it < x.messages.length) :
    (x.put p m).getNext = .ok (x.messages[x.it+1]?, (x.put p m).moveTo (x.it+1)) :=
  getNext_of_lt (x := x.put p m) hl h

/-- From the cursor on every message is looked at once. -/
theorem flushToDBLoop_eq {rest done : List ℕ} {p fuel : ℕ} (hl : x.bLocked = true)
    (hmsgs : x.messages = done ++ p :: rest) (hit : x.it = done.length)
    (hfuel : rest.length < fuel) (hn : (p :: rest).Nodup)
    (hall : ∀ q ∈ p :: rest, (x.objects q).isSome) :
    ∃ y rows, flushToDBLoop step fuel x p = .ok (y, rows) ∧ Stored step (p :: rest) x y := by
  induction rest generalizing fuel done p x with
  | nil =>
    obtain ⟨fuel, rfl⟩ := Nat.exists_eq_succ_of_ne_zero (Nat.ne_of_gt hfuel)
    obtain ⟨m, hm⟩ := Option.isSome_iff_exists.mp (hall p List.mem_cons_self)
    have hnext : (x.put p (m.stored step)).getNext =
        .ok (none, (x.put p (m.stored step)).moveTo (x.it+1)) := by
      have hend : x.messages[x.it+1]? = none := by
        rw [hit, hmsgs]
        simp
      rw [getNext_put hl (by rw [hit, hmsgs]; simp), hend]
    have hstored : Stored step [] ((x.put p (m.stored step)).moveTo (x.it+1)) _ :=
      ⟨rfl, rfl, fun _ => rfl⟩
    refine ⟨_, m.storedRows step, ?_, hstored.cons hm List.not_mem_nil⟩
    rw [flushToDBLoop, deref_some hm, ok_bind]
    dsimp only
    rw [hnext]
    rfl
  | cons p' rest ih =>
    obtain ⟨fuel, rfl⟩ := Nat.exists_eq_succ_of_ne_zero (show fuel ≠ 0 by omega)
    obtain ⟨m, hm⟩ := Option.isSome_iff_exists.mp (hall p List.mem_cons_self)
    obtain ⟨hp, hn'⟩ := List.nodup_cons.mp hn
    have hnext : (x.put p (m.stored step)).getNext =
        .ok (some p', (x.put p (m.stored step)).moveTo (x.it+1)) := by
      have hsome : x.messages[x.it+1]? = some p' := by
        rw [hit, hmsgs]
        simp
      rw [getNext_put hl (by rw [hit, hmsgs]; simp), hsome]
    obtain ⟨y, rows, hloop, hstored⟩ := ih (x := (x.put p (m.stored step)).moveTo (x.it+1)) hl
      (show x.messages = (done ++ [p]) ++ p' :: rest by simp [hmsgs]) (by simp [hit])
      (show rest.length < fuel by simpa using hfuel) hn' fun q hq => by
        have hne : q ≠ p := fun h => hp (h ▸ hq)
        simpa [put, hne] using hall q (List.mem_cons_of_mem _ hq)
    refine ⟨y, m.storedRows step ++ rows, ?_, hstored.cons hm hp⟩
    rw [flushToDBLoop, deref_some hm, ok_bind]
    dsimp only
    rw [hnext, ok_bind]
    dsimp only
    rw [hloop]
    rfl

theorem flushMessagesToDB_ok (hw : x.WellFormed) :
    ∃ y rows, x.flushMessagesToDB true step = .ok (y, rows) ∧ Stored step x.messages x y := by
  have hhead : x.lock.getHead = (x.messages[0]?, x.lock.moveTo 0) := rfl
  unfold flushMessagesToDB
  rw [if_neg (by decide), hhead]
  dsimp only
  cases hmsgs : x.messages with
  | nil => exact ⟨_, _, rfl, rfl, rfl, fun _ => (if_neg List.not_mem_nil).symm⟩
  | cons p rest =>
    have hfuel : rest.length < x.messages.length := by
      rw [hmsgs]
      exact Nat.lt_succ_self _
    have hfirst : (x.lock.moveTo 0).messages = [] ++ p :: rest := hmsgs
    obtain ⟨y, rows, hloop, hstored⟩ : ∃ y rows,
        flushToDBLoop step x.messages.length (x.lock.moveTo 0) p = .ok (y, rows) ∧
          Stored step (p :: rest) (x.lock.moveTo 0) y :=
      flushToDBLoop_eq rfl hfirst rfl hfuel (hmsgs ▸ hw.nodup) (hmsgs ▸ hw.allocated)
    refine ⟨y.unlock, rows, ?_, hstored.messages, hstored.freeMsgStack, hstored.objects⟩
    rw [List.getElem?_cons_zero]
    dsimp only
    rw [moveTo_messages, show x.lock.messages = x.messages from rfl, hloop]
    rfl

/-! ### What is available -/

/-- A later `GetMessage` can return the message. -/
def Available (x : MsgPool) (p : ℕ) : Prop :=
  p ∈ x.freeMsgStack ∧ ∃ m, x.objects p = some m ∧ m.msgState = .inactive

/-- The message is given up: it is inactive, or marked to be recycled. -/
def Released (x : MsgPool) (p : ℕ) : Prop :=
  ∃ m, x.objects p = some m ∧ (m.msgState = .inactive ∨ m.msgState = .markForReuse)

end MsgPool

/-- An undelivered message that the queue thread would still put in line again. -/
def Msg.RetriesLeft (m : Msg) : Prop :=
  m.msgState = .undelivered ∧ m.tcpSocketHandle = -1 ∧
    (m.msgLastRetryTS = 0 ∨ m.msgSendRetryCount ≤ maxMsgRetry-1)

/-- Such a message is what `ProcessPendingMessages` makes pending when its delay is over. -/
theorem Msg.retriesLeft_iff {m : Msg} (hstate : m.msgState = .undelivered) {curtime now : ℤ}
    (hdue : ¬ (m.msgSendRetryCount ≠ 0 ∧ curtime < int32 (m.msgLastRetryTS+m.msgSendRetryDelay))) :
    m.RetriesLeft ↔ (m.failedDelivery curtime now).msgState = .pending := by
  unfold RetriesLeft failedDelivery
  by_cases hsocket : m.tcpSocketHandle = -1
  · rw [if_neg (not_not_intro hsocket), if_neg hdue, and_iff_right hstate, and_iff_right hsocket]
    split_ifs with hfirst hcount
    · exact iff_of_true (Or.inl hfirst) rfl
    · refine iff_of_false ?_ (by simp)
      rintro (h | h)
      · exact hfirst h
      · exact not_lt.mpr h hcount
    · exact iff_of_true (Or.inr (not_lt.mp hcount)) rfl
  · rw [if_pos hsocket]
    exact iff_of_false (fun h => hsocket h.2.1) (by simp)

namespace MsgPool

variable {x y z : MsgPool} {currentTime : ℤ} {step : MsgRow → Bool}

/-- The stack that the database path leaves has what was available before. -/
theorem Stored.available_iff {ps : List ℕ} (h : Stored step ps x z) (p : ℕ) :
    z.Available p ↔ x.Available p := by
  unfold Available
  rw [h.freeMsgStack, h.objects p]
  apply and_congr_right
  intro _
  split_ifs
  · constructor
    · rintro ⟨m', hm', hstate⟩
      obtain ⟨m, hm, rfl⟩ := Option.map_eq_some_iff.mp hm'
      unfold Msg.stored at hstate
      split_ifs at hstate
      · cases hstate
      · exact ⟨m, hm, hstate⟩
    · rintro ⟨m, hm, hstate⟩
      refine ⟨m, ?_, hstate⟩
      have hkept : m.isFinal = false := by
        unfold Msg.isFinal
        rw [hstate]
      rw [hm, Option.map_some]
      unfold Msg.stored
      rw [hkept, Bool.false_and, if_neg (by decide)]
  · exact Iff.rfl

/-- The other path makes available what it looked at and could return. -/
theorem Swept.available_iff {examined : List ℕ} (h : x.Swept currentTime y examined) (p : ℕ) :
    y.Available p ↔ p ∈ examined ∧ x.reusable currentTime p = true := by
  unfold Available
  rw [h.freeMsgStack, List.mem_reverse, List.mem_filter, h.objects p]
  constructor
  · exact fun hav => hav.1
  · rintro ⟨hin, hre⟩
    refine ⟨⟨hin, hre⟩, ?_⟩
    rw [if_pos hin]
    unfold reusable at hre
    obtain ⟨m, hm, hfree⟩ := (Option.any_eq_true _ _).mp hre
    rw [Bool.and_eq_true, Bool.not_eq_true', Bool.not_eq_true'] at hfree
    rw [hm, sweptObject, Option.bind_some, if_neg (by rw [hfree.1]; decide),
      if_neg (by rw [hfree.2]; decide)]
    exact ⟨_, rfl, rfl⟩

/-- `FlushMessages` leaves a message with retries as it is. -/
theorem Swept.not_released {examined : List ℕ} (h : x.Swept currentTime y examined) {p : ℕ}
    {m : Msg} (hm : x.objects p = some m) (hretries : m.RetriesLeft) : ¬ y.Released p := by
  have hstate := hretries.1
  have hsame : y.objects p = some m := by
    have hexpired : m.expired currentTime = false := by
      unfold Msg.expired
      rw [hstate]
      rfl
    rw [h.objects p, hm, sweptObject, Option.bind_some, hexpired, hstate]
    exact ite_self _
  rintro ⟨m', hm', hor⟩
  obtain rfl := Option.some_inj.mp (hsame.symm.trans hm')
  rw [hstate] at hor
  rcases hor with h | h
  · exact absurd h (by decide)
  · exact absurd h (by decide)

/-- The database path marks it. -/
theorem Stored.released {ps : List ℕ} (h : Stored step ps x z) (hstep : ∀ row, step row = true)
    {p : ℕ} (hp : p ∈ ps) {m : Msg} (hm : x.objects p = some m) (hretries : m.RetriesLeft) :
    z.Released p := by
  refine ⟨m.setMsgState .markForReuse, ?_, Or.inr rfl⟩
  have hfinal : m.isFinal = true := by
    unfold Msg.isFinal
    rw [hretries.1]
  rw [h.objects p, if_pos hp, hm, Option.map_some, Msg.stored, hfinal, hstep,
    if_pos (Bool.and_self true)]

/-- Both paths return, make the same messages available, and release no message with retries. -/
structure FlushesAgree (x : MsgPool) (currentTime : ℤ) (step : MsgRow → Bool) (y z : MsgPool)
    (examined : List ℕ) (rows : List MsgRow) : Prop where
  flushMessages : x.flushMessages currentTime = .ok (y, examined)
  flushMessagesToDB : x.flushMessagesToDB true step = .ok (z, rows)
  available : ∀ p, z.Available p ↔ y.Available p
  retries : ∀ p ∈ x.messages, ∀ m, x.objects p = some m → m.RetriesLeft →
    ¬ y.Released p ∧ ¬ z.Released p

/-- A pool in which nothing is left for either path: `FlushMessages` gets to the end, what it can
return is what is available already, and no message has retries left. -/
structure Settled (x : MsgPool) (currentTime : ℤ) (examined : List ℕ) : Prop where
  visited : visited (x.gone currentTime) x.messages = some examined
  available : ∀ p, x.Available p ↔ p ∈ examined ∧ x.reusable currentTime p = true
  retries : ∀ p ∈ x.messages, ∀ m, x.objects p = some m → ¬ m.RetriesLeft

/-- When every INSERT succeeds, the two paths agree only on a pool that is settled. -/
theorem flushesAgree_iff (hw : x.WellFormed) (hstep : ∀ row, step row = true) :
    (∃ y z examined rows, x.FlushesAgree currentTime step y z examined rows) ↔
      ∃ examined, x.Settled currentTime examined := by
  obtain ⟨z, rows, hdb, hstored⟩ : ∃ z rows,
      x.flushMessagesToDB true step = .ok (z, rows) ∧ Stored step x.messages x z :=
    flushMessagesToDB_ok hw
  constructor
  · rintro ⟨y, z', examined, rows', hagree⟩
    obtain ⟨rfl, rfl⟩ := Prod.mk.inj (Except.ok.inj (hdb.symm.trans hagree.flushMessagesToDB))
    have hswept := swept_of_flushMessages hw hagree.flushMessages
    refine ⟨examined, hswept.visited, fun p => ?_, fun p hp m hm hretries => ?_⟩
    · rw [← hstored.available_iff p, hagree.available p, hswept.available_iff p]
    · exact (hagree.retries p hp m hm hretries).2 (hstored.released hstep hp hm hretries)
  · rintro ⟨examined, hsettled⟩
    have hok : x.flushMessages currentTime = _ := flushMessages_eq hw
    rw [hsettled.visited] at hok
    dsimp only at hok
    have hswept := swept_of_flushMessages hw hok
    refine ⟨_, z, examined, rows, hok, hdb, fun p => ?_, fun p hp m hm hretries => ?_⟩
    · rw [hstored.available_iff p, hsettled.available p, hswept.available_iff p]
    · exact absurd hretries (hsettled.retries p hp m hm)

/-- A free message and one that waits for its delivery. -/
def quietPool : MsgPool where
  messages := [1, 2]
  freeMsgStack := [1]
  objects p := if p = 1 then some {} else some { msgState := .pending }

theorem flushesAgree_iff_quiet :
    (∃ y z examined rows, quietPool.FlushesAgree 5 (fun _ => true) y z examined rows) ↔
      ∃ examined, quietPool.Settled 5 examined :=
  flushesAgree_iff ⟨by decide, by decide⟩ fun _ => rfl

/-- One message whose reply was delivered. -/
def deliveredPool : MsgPool where
  messages := [1]
  objects _ := some { msgState := .delivered }

theorem delivered_not_returned : ∃ y z examined rows,
    deliveredPool.flushMessages 5 = .ok (y, examined) ∧ y.Available 1 ∧
    deliveredPool.flushMessagesToDB true (fun _ => true) = .ok (z, rows) ∧ ¬ z.Available 1 :=
  ⟨_, _, _, _, rfl, ⟨by decide, _, rfl, rfl⟩, rfl, fun h => absurd h.1 (by decide)⟩

end MsgPool

end MsgCourier
