import MsgCourier.NodeList
import MsgCourier.Inbound
import MsgCourier.Runs

/-! `cConnectionCache`: the map from descriptors to connection records, and the list of the active
ones, with the iterators that the records and the cache keep. -/
namespace MsgCourier
open ListSearch CText NodeLists Runs

inductive RecordState
  | free
  | waiting
  deriving DecidableEq, Repr

/-- What the cache uses of a record; the default values are those of a record that indexing the map
creates. A record is a value of the map, and a pointer to it is its key. -/
structure CacheRecord where
  socketfd : ℤ := 0
  timestamp : ℤ := 0
  state : RecordState := .free
  pendingwrite : Bool := false
  bufferCount : ℤ := 0
  pActiveHandler : Bool := false
  it : It := .singular

/-- `FD_SETSIZE`: an `fd_set` has bits for the descriptors below. -/
def fdSetSize : ℕ := 1024

/-- An `fd_set`, as the descriptors that were set, in this order. -/
structure FdSet where
  fds : List ℤ
  inRange : ∀ fd ∈ fds, 0 ≤ fd ∧ fd < fdSetSize

namespace FdSet

/-- `FD_ZERO` -/
def zero : FdSet := ⟨[], fun _ h => absurd h List.not_mem_nil⟩

theorem inRange_concat {s : FdSet} {fd : ℤ} (h : 0 ≤ fd ∧ fd < fdSetSize) :
    ∀ fd' ∈ s.fds ++ [fd], 0 ≤ fd' ∧ fd' < fdSetSize := by
  intro fd' hmem
  rcases List.mem_append.mp hmem with hold | hnew
  · exact s.inRange fd' hold
  · rwa [List.mem_singleton.mp hnew]

/-- `FD_SET`: the macro does not check that the descriptor has a bit. -/
def set (s : FdSet) (fd : ℤ) : Cxx FdSet :=
  if h : 0 ≤ fd ∧ fd < fdSetSize then .ok ⟨s.fds ++ [fd], inRange_concat h⟩ else .error .undefined

end FdSet

structure ConnectionCache where
  activeConnectionList : NodeList ℤ := NodeList.empty
  connectionMap : ℤ → Option CacheRecord := fun _ => none
  it : It := .singular
  itIncompleteMarker : It := .stop
  /-- The descriptors that were passed to `close`. -/
  closed : List ℤ := []

namespace ConnectionCache

def setRecord (x : ConnectionCache) (fd : ℤ) (r : CacheRecord) : ConnectionCache :=
  { x with connectionMap := Function.update x.connectionMap fd (some r) }

/-- The record that indexing the map yields. -/
def record (x : ConnectionCache) (fd : ℤ) : CacheRecord := (x.connectionMap fd).getD {}

def addConnection (x : ConnectionCache) (socketfd now : ℤ) : Cxx ConnectionCache :=
  if 0 < socketfd ∧ socketfd < 65536 then
    pure ({ x with activeConnectionList := x.activeConnectionList.pushBack socketfd }.setRecord
      socketfd
      { socketfd
        timestamp := now
        state := .waiting
        it := .node x.activeConnectionList.next })
  else .error .charPtr

/-- The list without the node of a record that is not at the end. -/
def unlink (x : ConnectionCache) (r : CacheRecord) : Cxx (NodeList ℤ) :=
  match r.it with
  | .singular => .error .undefined
  | .stop => pure x.activeConnectionList
  | .node n =>
    if n ∈ x.activeConnectionList.nodes.map Prod.fst then pure (x.activeConnectionList.erase n)
    else .error .undefined

def closeSocket (x : ConnectionCache) (socketfd : ℤ) : ConnectionCache :=
  { x with closed := x.closed ++ [socketfd] }

def freeConnection (x : ConnectionCache) (socketfd : ℤ) : Cxx ConnectionCache :=
  if socketfd = -1 then pure x
  else
    match x.connectionMap socketfd with
    | none => pure (x.closeSocket socketfd)
    | some r => do
      let activeConnectionList ← x.unlink r
      pure (({ x with activeConnectionList }.closeSocket socketfd).setRecord socketfd
        { r with
          state := .free
          pActiveHandler := false
          socketfd := -1
          pendingwrite := false
          it := .stop })

/-- The record, created if there is none. -/
def getConnectionRecord (x : ConnectionCache) (socketfd : ℤ) :
    Cxx (Option ℤ × ConnectionCache) :=
  if socketfd = -1 ∨ socketfd = 0 then pure (none, x)
  else if 0 < socketfd ∧ socketfd < 65536 then
    pure (some socketfd, x.setRecord socketfd (x.record socketfd))
  else .error .charPtr

def markPendingWrite (x : ConnectionCache) (socketfd : ℤ) : Cxx ConnectionCache := do
  let (rec, x) ← x.getConnectionRecord socketfd
  match rec with
  | none => pure x
  | some fd => pure (x.setRecord fd { x.record fd with pendingwrite := true })

/-- The loop of `SetActiveConnections` over the nodes from `m_it` on: the descriptors that it passes
to `FD_SET`, the largest of them and the two iterators. -/
def selectConnections (x : ConnectionCache) (size : ℤ) :
    List (ℕ × ℤ) → ℤ → List ℤ → ℤ → Cxx (List ℤ × ℤ × It × It)
  | [], _, fds, maxsocketfd => pure (fds, maxsocketfd, .stop, .stop)
  | p :: rest, count, fds, maxsocketfd =>
    let r := x.record p.2
    if r.state = .waiting then
      if 0 < r.socketfd ∧ r.socketfd < 65536 then
        let fds := fds ++ [r.socketfd]
        let maxsocketfd := max maxsocketfd r.socketfd
        if count+1 = size then pure (fds, maxsocketfd, .node p.1, NodeList.itOf rest)
        else selectConnections x size rest (count+1) fds maxsocketfd
      else .error .charPtr
    else selectConnections x size rest count fds maxsocketfd

/-- Where `SetActiveConnections` begins: at the marker, or at the first node when it is at
the end. -/
def firstToLoad (x : ConnectionCache) : Option (List (ℕ × ℤ)) :=
  if x.itIncompleteMarker = .stop then some x.activeConnectionList.nodes
  else x.activeConnectionList.since x.itIncompleteMarker

/-- The descriptors that a call passes to `FD_SET`, the largest of them and the cache. The macro
changes nothing of the cache, so that this is all of a call but its set. -/
def selectActive (x : ConnectionCache) (size : ℤ) :
    Cxx (List ℤ × ℤ × ConnectionCache) :=
  if x.activeConnectionList.nodes = [] then pure ([], 0, x)
  else
    match x.firstToLoad with
    | none => .error .undefined
    | some nodes => do
      let (fds, maxsocketfd, it, itIncompleteMarker) ← x.selectConnections size nodes 0 [] 0
      pure (fds, maxsocketfd, { x with it, itIncompleteMarker })

/-- The loop with its set. -/
def loadConnections (x : ConnectionCache) (size : ℤ) :
    List (ℕ × ℤ) → ℤ → FdSet → ℤ → Cxx (FdSet × ℤ × It × It)
  | [], _, fds, maxsocketfd => pure (fds, maxsocketfd, .stop, .stop)
  | p :: rest, count, fds, maxsocketfd =>
    let r := x.record p.2
    if r.state = .waiting then
      if 0 < r.socketfd ∧ r.socketfd < 65536 then do
        let fds ← fds.set r.socketfd
        let maxsocketfd := max maxsocketfd r.socketfd
        if count+1 = size then pure (fds, maxsocketfd, .node p.1, NodeList.itOf rest)
        else loadConnections x size rest (count+1) fds maxsocketfd
      else .error .charPtr
    else loadConnections x size rest count fds maxsocketfd

def setActiveConnections (x : ConnectionCache) (fds : FdSet) (size : ℤ) :
    Cxx (FdSet × ℤ × ConnectionCache) :=
  if x.activeConnectionList.nodes = [] then pure (fds, 0, x)
  else
    match x.firstToLoad with
    | none => .error .undefined
    | some nodes => do
      let (fds, maxsocketfd, it, itIncompleteMarker) ← x.loadConnections size nodes 0 fds 0
      pure (fds, maxsocketfd, { x with it, itIncompleteMarker })

/-- A record that `TimeoutConnections` frees. -/
def expired (x : ConnectionCache) (iTimeout curTime fd : ℤ) : Bool :=
  let r := x.record fd
  !r.pendingwrite && r.state = .waiting && int32 (r.timestamp+iTimeout) < curTime

/-- The walk goes to the first record to free and then begins again. Every free takes a node away,
so `fuel` for the length of the list is enough. -/
def timeoutLoop (iTimeout curTime : ℤ) : ℕ → ConnectionCache → Cxx ConnectionCache
  | 0, _ => .error .undefined
  | fuel+1, x =>
    match x.activeConnectionList.nodes.find? fun p => x.expired iTimeout curTime p.2 with
    | none => pure { x with it := .stop }
    | some p => do
      let x ← x.freeConnection (x.record p.2).socketfd
      timeoutLoop iTimeout curTime fuel x

def timeoutConnections (x : ConnectionCache) (iTimeout curTime : ℤ) : Cxx ConnectionCache :=
  if x.activeConnectionList.nodes = [] then pure x
  else timeoutLoop iTimeout curTime (x.activeConnectionList.nodes.length+1) x

def resetEnumerator (x : ConnectionCache) : ConnectionCache :=
  { x with it := NodeList.itOf x.activeConnectionList.nodes }

/-- A record to offer to the handler. -/
def ready (x : ConnectionCache) (isSet : ℤ → Bool) (fd : ℤ) : Bool :=
  let r := x.record fd
  r.state = .waiting && !r.pActiveHandler && (isSet r.socketfd || 0 < r.bufferCount)

/-- The loop of `GetNextSetRecord` over the nodes from `m_it` on. -/
def nextSetRecord (x : ConnectionCache) (isSet : ℤ → Bool) : List (ℕ × ℤ) → Option ℤ × It
  | [] => (none, .stop)
  | p :: rest =>
    if x.ready isSet p.2 then (some p.2, NodeList.itOf rest) else nextSetRecord x isSet rest

def getNextSetRecord (x : ConnectionCache) (isSet : ℤ → Bool) :
    Cxx (Option ℤ × ConnectionCache) :=
  match x.activeConnectionList.since x.it with
  | none => .error .undefined
  | some nodes =>
    let (pConnectionRecord, it) := x.nextSetRecord isSet nodes
    pure (pConnectionRecord, { x with it })

end ConnectionCache

end MsgCourier
