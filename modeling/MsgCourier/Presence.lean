import MsgCourier.Log
import MsgCourier.ServiceRegistry

/-! `cPresence`: the nodes that have announced themselves. -/
namespace MsgCourier
open ListSearch CText Runs

inductive PresenceStatus
  | notSet
  | away
  | active
  | busy
  deriving DecidableEq, Repr

structure NodeEntry where
  ipAddress : Bytes
  machineName : Bytes
  macAddress : Bytes
  key : Bytes
  services : Bytes
  tcpSocketHandle : ℤ
  status : PresenceStatus
  deriving DecidableEq, Repr

/-- `m_PresenceMap`. A node is never deleted. -/
abbrev Presence := Bytes → Option NodeEntry

/-- The loop of `cBuffer::HashKey`: the bytes are signed, the sum is unsigned. -/
def hashKey (b : Bytes) : UInt32 :=
  b.foldl (fun iHash c => (iHash <<< 5) + iHash + c.toInt8.toInt32.toUInt32) 0

/-- `%X`. -/
def formatHex (n : ℕ) : Bytes := (Nat.toDigits 16 n).map fun c => UInt8.ofNat c.toUpper.toNat

def buildKey (ipAddress machineName macAddress : Bytes) : Bytes :=
  formatHex (hashKey (cstr ipAddress ++ cstr machineName ++ cstr macAddress)).toNat

/-- The line about a new node, which `LOG` takes for a format. -/
def newNodeLine (pIPAddress pMachineName pMacAddress pServices : Bytes) : Bytes :=
  bytes "Presence adding new: " ++ cstr pIPAddress ++ bytes " " ++ cstr pMachineName ++ bytes " " ++
    cstr pMacAddress ++ bytes " " ++ cstr pServices

/-- The arguments of `UpdateNode`, and what is in the memory of a new entry. -/
structure NodeUpdate where
  ipAddress : Bytes
  machineName : Bytes
  macAddress : Bytes
  services : Bytes
  status : PresenceStatus
  garbage : ℤ

namespace NodeUpdate

variable (u : NodeUpdate)

def key : Bytes := buildKey u.ipAddress u.machineName u.macAddress

def newEntry : NodeEntry where
  ipAddress := cstr u.ipAddress
  machineName := cstr u.machineName
  macAddress := cstr u.macAddress
  key := u.key
  services := cstr u.services
  tcpSocketHandle := u.garbage
  status := u.status

def logLine : Bytes := newNodeLine u.ipAddress u.machineName u.macAddress u.services

end NodeUpdate

namespace Presence

/-- The sockets of the nodes. -/
def sockets (p : Presence) : Nodes := fun key => (p key).map NodeEntry.tcpSocketHandle

theorem sockets_isSome (p : Presence) (key : Bytes) :
    (p.sockets key).isSome = (p key).isSome := Option.isSome_map

/-- The nodes with other sockets. -/
def withSockets (p : Presence) (nodes : Nodes) : Presence := fun key =>
  (p key).map fun n => { n with tcpSocketHandle := (nodes key).getD n.tcpSocketHandle }

/-- A node that is known gets a new status only; a new one is logged, and has for a socket what was
in its memory. -/
def updateNode (p : Presence) (log : Log) (u : NodeUpdate) : Cxx (Bytes × Presence) :=
  match p u.key with
  | some n => pure (u.key, Function.update p u.key (some { n with status := u.status }))
  | none => do
    log.log u.logLine
    pure (u.key, Function.update p u.key (some u.newEntry))

/-- The nodes as a call that returns leaves them. -/
def updated (p : Presence) (u : NodeUpdate) : Presence :=
  Function.update p u.key (some
    (match p u.key with
    | some n => { n with status := u.status }
    | none => u.newEntry))

/-- `UpdateNode` returns exactly if the log takes the line about a node that is new. -/
theorem updateNode_eq_ok_iff (p : Presence) (log : Log) (u : NodeUpdate) {r : Bytes × Presence} :
    p.updateNode log u = .ok r ↔
      (p u.key = none → log.Takes u.logLine) ∧ r = (u.key, p.updated u) := by
  unfold updateNode updated
  cases p u.key with
  | some n =>
    dsimp only
    rw [pure_eq_ok, Except.ok.injEq]
    exact ⟨fun h => ⟨nofun, h.symm⟩, fun h => h.2.symm⟩
  | none =>
    dsimp only
    rw [bind_eq_ok, ← log.log_eq_ok_iff]
    constructor
    · rintro ⟨_, hlog, hret⟩
      exact ⟨fun _ => hlog, (Except.ok.inj hret).symm⟩
    · rintro ⟨hlog, rfl⟩
      exact ⟨(), hlog rfl, rfl⟩

theorem updated_self (p : Presence) (u : NodeUpdate) : ((p.updated u) u.key).isSome := by
  unfold updated
  rw [Function.update_self]
  rfl

theorem updated_of_ne (p : Presence) (u : NodeUpdate) {key : Bytes} (h : key ≠ u.key) :
    p.updated u key = p key := Function.update_of_ne h _ _

end Presence

/-- The registry and the nodes that its entries point to, as any operations leave them. -/
structure PeerRegistry where
  table : ServiceTable
  presence : Presence
  inv : ServiceState.Inv ⟨table, presence.sockets⟩

namespace PeerRegistry

def state (s : PeerRegistry) : ServiceState := ⟨s.table, s.presence.sockets⟩

def service (s : PeerRegistry) : Service := s.table.service

/-- The registries that runs of the operations reach are of this kind. -/
def ofRun {nodes : Nodes} {ops : List ServiceOp} {s : ServiceState}
    (hrun : Run ServiceCall { nodes } ops s) (presence : Presence)
    (h : presence.sockets = s.nodes) : PeerRegistry where
  table := s.table
  presence
  inv := h ▸ ServiceState.Inv.run hrun

end PeerRegistry

end MsgCourier
