import MsgCourier.CText
import Mathlib.Data.List.AList

/-! `cPeerRoutingMap`: the socket on which a peer was last heard, by routing tag. -/
namespace MsgCourier
open CText

structure PeerRoutingRecord where
  key : Bytes
  ipAddress : Bytes
  iPort : ℤ
  iSocketfd : ℤ
  deriving DecidableEq, Repr

structure PeerRoutingMap where
  peerMap : AList fun _ : Bytes => PeerRoutingRecord := ∅

namespace PeerRoutingMap

/-- Inserting covers both branches: an existing record is overwritten in every field. -/
def addRecord (x : PeerRoutingMap) (pKey pIPAddress : Bytes) (iPort iSocketfd : ℤ) :
    PeerRoutingMap :=
  let rec_ : PeerRoutingRecord :=
    { key := cstr pKey, ipAddress := cstr pIPAddress, iPort, iSocketfd }
  { x with peerMap := x.peerMap.insert (cstr pKey) rec_ }

def hasKey (x : PeerRoutingMap) (pKey : Bytes) : Bool := (x.peerMap.lookup (cstr pKey)).isSome

def getSocket (x : PeerRoutingMap) (pKey : Bytes) : ℤ :=
  match x.peerMap.lookup (cstr pKey) with
  | some pRec => pRec.iSocketfd
  | none => -1

def getRecord (x : PeerRoutingMap) (pKey : Bytes) : Option PeerRoutingRecord :=
  x.peerMap.lookup (cstr pKey)

@[simp] theorem getSocket_addRecord (x : PeerRoutingMap) (pKey pIPAddress : Bytes)
    (iPort iSocketfd : ℤ) : (x.addRecord pKey pIPAddress iPort iSocketfd).getSocket pKey =
      iSocketfd := by
  simp [getSocket, addRecord]

theorem getSocket_addRecord_ne (x : PeerRoutingMap) {pKey other : Bytes}
    (h : cstr other ≠ cstr pKey)
    (pIPAddress : Bytes) (iPort iSocketfd : ℤ) :
    (x.addRecord pKey pIPAddress iPort iSocketfd).getSocket other = x.getSocket other := by
  simp [getSocket, addRecord, AList.lookup_insert_ne h]

/-- A socket the map answers with was recorded under that tag. -/
theorem getSocket_eq_iff (x : PeerRoutingMap) (pKey : Bytes) (fd : ℤ) (hfd : fd ≠ -1) :
    x.getSocket pKey = fd ↔ ∃ r, x.getRecord pKey = some r ∧ r.iSocketfd = fd := by
  unfold getSocket getRecord
  cases x.peerMap.lookup (cstr pKey) with
  | none => simpa using hfd.symm
  | some r => simp

end PeerRoutingMap
end MsgCourier
