import MsgCourier.Msg

/-! `cMsgPool`: the list of all messages, the cursor into it and the stack of free messages.
Messages are objects at addresses; a sweep works on the list while it holds the lock. -/
namespace MsgCourier
open ListSearch CText

/-- `it` is the index the iterator stands at, the length of the list for `end()`. -/
structure MsgPool where
  bLocked : Bool := false
  messages : List ℕ := []
  it : ℕ := 0
  freeMsgStack : List ℕ := []
  /-- The messages `new` has allocated and `delete` has not freed. -/
  objects : ℕ → Option Msg := fun _ => none

namespace MsgPool

def deref (x : MsgPool) (pMsg : ℕ) : Cxx Msg :=
  match x.objects pMsg with
  | some m => pure m
  | none => .error .undefined

theorem deref_some {x : MsgPool} {p : ℕ} {m : Msg} (hm : x.objects p = some m) :
    x.deref p = .ok m := by
  rw [deref, hm]
  rfl

theorem deref_eq_ok {x : MsgPool} {p : ℕ} {m : Msg} (h : x.deref p = .ok m) :
    x.objects p = some m := by
  unfold deref at h
  cases hm : x.objects p with
  | none =>
    rw [hm] at h
    cases h
  | some m' =>
    rw [hm] at h
    rw [Except.ok.inj h]

def put (x : MsgPool) (pMsg : ℕ) (m : Msg) : MsgPool :=
  { x with objects := Function.update x.objects pMsg (some m) }

def free (x : MsgPool) (pMsg : ℕ) : MsgPool :=
  { x with objects := Function.update x.objects pMsg none }

/-- Assigns the iterator. -/
def moveTo (x : MsgPool) (it : ℕ) : MsgPool := { x with it }

@[simp] theorem moveTo_bLocked (x : MsgPool) (n : ℕ) : (x.moveTo n).bLocked = x.bLocked := rfl
@[simp] theorem moveTo_messages (x : MsgPool) (n : ℕ) : (x.moveTo n).messages = x.messages := rfl
@[simp] theorem moveTo_it (x : MsgPool) (n : ℕ) : (x.moveTo n).it = n := rfl
@[simp] theorem moveTo_objects (x : MsgPool) (n : ℕ) : (x.moveTo n).objects = x.objects := rfl

@[simp] theorem moveTo_freeMsgStack (x : MsgPool) (n : ℕ) :
    (x.moveTo n).freeMsgStack = x.freeMsgStack := rfl

@[simp] theorem moveTo_moveTo (x : MsgPool) (n k : ℕ) : (x.moveTo n).moveTo k = x.moveTo k := rfl

def lock (x : MsgPool) : MsgPool := { x with bLocked := true }

def unlock (x : MsgPool) : MsgPool := { x with bLocked := false }

/-- `pNew` is the address `new` returns when the stack is empty. -/
def getReusableMessage (x : MsgPool) (pNew : ℕ) (newID : Bytes) (now : ℤ) :
    Cxx (ℕ × MsgPool) := do
  let (pNewMsg, x) :=
    match x.freeMsgStack with
    | top :: rest => (top, { x with freeMsgStack := rest })
    | [] => (pNew, { x.put pNew {} with messages := x.messages ++ [pNew] })
  let m ← x.deref pNewMsg
  pure (pNewMsg, x.put pNewMsg (m.reuse newID now))

def returnToPool (x : MsgPool) (pMsg : ℕ) : Cxx MsgPool := do
  let m ← x.deref pMsg
  let x := x.put pMsg (m.setMsgState .inactive)
  pure { x with freeMsgStack := pMsg :: x.freeMsgStack }

def getHead (x : MsgPool) : Option ℕ × MsgPool :=
  if !x.bLocked then (none, x)
  else
    let x := x.moveTo 0
    (x.messages[0]?, x)

/-- `m_it++` is undefined at `end()`. -/
def advance (x : MsgPool) : Cxx MsgPool :=
  if x.it < x.messages.length then pure (x.moveTo (x.it+1)) else .error .undefined

def getNext (x : MsgPool) : Cxx (Option ℕ × MsgPool) :=
  if !x.bLocked then pure (none, x)
  else do
    let x ← x.advance
    pure (x.messages[x.it]?, x)

/-- `erase` already moves the iterator to the next element. -/
def deleteCurrent (x : MsgPool) : Cxx MsgPool :=
  if x.it < x.messages.length then { x with messages := x.messages.eraseIdx x.it }.advance
  else .error .undefined

def flushFreeStack (x : MsgPool) : MsgPool := { x with freeMsgStack := [] }

end MsgPool
end MsgCourier
