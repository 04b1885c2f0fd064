import MsgCourier.ServiceRegistry

/-! `cService` with the calls of `Lock` and `Unlock` that its methods make. -/
namespace MsgCourier
open ListSearch CText

/-- What a mutex does when the thread that holds it asks for it again: block it, or count. -/
inductive MutexKind
  | normal
  | recursive
  deriving DecidableEq, Repr

/-- `held` is how often the calling thread holds the lock. -/
structure ThreadSync where
  kind : MutexKind
  held : ℕ := 0
  deriving DecidableEq, Repr

/-- Why a call does not return. -/
inductive Halt
  | deadlock
  | exn (e : Exn)
  deriving DecidableEq, Repr

abbrev Locked (α : Type) := StateT ThreadSync (Except Halt) α

namespace ThreadSync

/-- The attributes are initialised and their kind is not set; `setkind` is commented out. -/
def threadSync : ThreadSync := { kind := .normal }

/-- The critical section of the Windows constructor. -/
def criticalSection : ThreadSync := { kind := .recursive }

def lock : Locked Unit := fun m =>
  match m.kind, m.held with
  | .normal, _+1 => .error .deadlock
  | _, held => .ok ((), { m with held := held+1 })

def unlock : Locked Unit := fun m => .ok ((), { m with held := m.held-1 })

/-- The destructor unlocks, whatever way the block is left. -/
def autoThreadSync {α : Type} (block : Locked α) : Locked α := do
  lock
  let a ← block
  unlock
  pure a

/-- A step without a lock. -/
def lift {α : Type} (c : Cxx α) : Locked α := fun m =>
  match c with
  | .ok a => .ok (a, m)
  | .error e => .error (.exn e)

end ThreadSync

namespace ServiceLock
open ThreadSync

def queryServiceFirst (x : ServiceTable) (pServiceName : Option Bytes) :
    Locked (Option ℕ × ServiceTable) :=
  autoThreadSync (pure (x.queryServiceFirst pServiceName))

def queryServiceNext (x : ServiceTable) : Locked (Option ℕ × ServiceTable) :=
  autoThreadSync (lift x.queryServiceNext)

def findNode (pNodeKey : Bytes) : ℕ → ServiceTable → Option ℕ → Locked (Option ℕ × ServiceTable)
  | 0, _, _ => lift (.error .undefined)
  | fuel+1, x, pServiceEntry => do
    let bFound ← match pServiceEntry with
      | none => pure false
      | some a => lift (x.isOf pNodeKey a)
    if bFound then pure (pServiceEntry, x)
    else
      let (next, x) ← queryServiceNext x
      match next with
      | none => pure (none, x)
      | some a => findNode pNodeKey fuel x (some a)

def search (x : ServiceTable) (pNodeKey pServiceName : Bytes) :
    Locked (Option ℕ × ServiceTable) := do
  let (pServiceEntry, x) ← queryServiceFirst x (some pServiceName)
  findNode pNodeKey x.service.serviceMap.length x pServiceEntry

def registerRemoteService (x : ServiceTable) (nodes : Nodes) (pNodeKey pServiceName : Bytes)
    (tcpSocketHandle : ℤ) (pNew : ℕ) : Locked (Bool × ServiceTable × Nodes) :=
  autoThreadSync do
    let (found, x) ← search x pNodeKey pServiceName
    if found.isSome then pure (false, x, nodes)
    else
      match nodes pNodeKey with
      | none => lift (.error .undefined)
      | some _ =>
        pure (true, { x with service := x.service.insert pNew ⟨cstr pServiceName, some pNodeKey⟩ },
          Function.update nodes pNodeKey (some tcpSocketHandle))

def unregisterRemoteService (x : ServiceTable) (pNodeKey pServiceName : Bytes) :
    Locked ServiceTable :=
  autoThreadSync do
    let (found, x) ← search x pNodeKey pServiceName
    match found with
    | none => pure x
    | some a =>
      match x.service.position x.it with
      | none => lift (.error .undefined)
      | some j =>
        pure { x with service :=
          ⟨x.service.serviceMap.eraseIdx j, Function.update x.service.entries a none⟩ }

def registerLocalService (x : ServiceTable) (serviceName : Bytes) (pNew : ℕ) :
    Locked ServiceTable :=
  autoThreadSync (pure (x.registerLocalService serviceName pNew))

end ServiceLock

/-- An operation of the registry, with the lock. -/
def ServiceOp.locked (s : ServiceState) : ServiceOp → Locked (ServiceResult × ServiceState)
  | .updateNode key garbage =>
    pure (.done, { s with nodes := MsgCourier.updateNode s.nodes key garbage })
  | .registerLocal serviceName pNew => do
    let table ← ServiceLock.registerLocalService s.table (cstr serviceName) pNew
    pure (.done, { s with table })
  | .registerRemote k name fd pNew => do
    let (b, table, nodes) ←
      ServiceLock.registerRemoteService s.table s.nodes k name fd pNew
    pure (.registered b, ⟨table, nodes⟩)
  | .unregisterRemote k name => do
    let table ← ServiceLock.unregisterRemoteService s.table k name
    pure (.done, { s with table })
  | .queryFirst name => do
    let (p, table) ← ServiceLock.queryServiceFirst s.table name
    pure (.entry p, { s with table })
  | .queryNext => do
    let (p, table) ← ServiceLock.queryServiceNext s.table
    pure (.entry p, { s with table })

/-- A block that takes no lock returns, whoever asks for the lock first. -/
theorem ThreadSync.autoThreadSync_lift {α : Type} (d : Cxx α) :
    autoThreadSync (lift d) threadSync = lift d threadSync := by
  cases d with
  | ok a => rfl
  | error e => rfl

namespace ServiceOp
open ThreadSync

/-- The operations whose bodies call no other operation of the registry. -/
def Leaf : ServiceOp → Prop
  | .registerRemote _ _ _ _ | .unregisterRemote _ _ => False
  | .updateNode _ _ | .registerLocal _ _ | .queryFirst _ | .queryNext => True

/-- In any registry, exactly the leaves never ask for a lock that their thread holds. -/
theorem no_deadlock_iff (s : ServiceState) (op : ServiceOp) :
    op.locked s threadSync ≠ .error .deadlock ↔ op.Leaf := by
  cases op with
  | updateNode key garbage => exact iff_of_true (fun h => nomatch h) trivial
  | registerLocal name pNew => exact iff_of_true (fun h => nomatch h) trivial
  | registerRemote k name fd pNew => exact iff_of_false (fun h => h rfl) id
  | unregisterRemote k name => exact iff_of_false (fun h => h rfl) id
  | queryFirst name => exact iff_of_true (fun h => nomatch h) trivial
  | queryNext =>
    refine iff_of_true (fun h => ?_) trivial
    have hnext : ServiceLock.queryServiceNext s.table threadSync =
        lift s.table.queryServiceNext threadSync := autoThreadSync_lift _
    change (ServiceLock.queryServiceNext s.table threadSync >>= _) = _ at h
    rw [hnext] at h
    cases hok : s.table.queryServiceNext with
    | ok q =>
      rw [hok] at h
      cases h
    | error e =>
      rw [hok] at h
      cases h

/-- A registration on the empty registry waits for itself. -/
theorem registerRemote_deadlock :
    (registerRemote [75] [65] 7 0).locked {} threadSync = .error .deadlock := rfl

end ServiceOp

end MsgCourier
