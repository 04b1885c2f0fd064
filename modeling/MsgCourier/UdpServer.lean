import MsgCourier.MsgContent

/-! `cUDPServer`: one pass of the receive loop. -/
namespace MsgCourier
open ListSearch CText

def maxDgramSize : ℤ := 512

/-- The result of `recvfrom`: an error or the bytes of a datagram. -/
inductive RecvFrom
  | failed
  | bytes (d : Bytes)
  deriving DecidableEq, Repr

structure UDPServer where
  iPort : ℤ
  serverSocketfd : ℤ

/-- The sender of a datagram, and whether the access list lets it in. -/
structure ClientAddr where
  sinAddr : Bytes
  sinPort : ℤ
  allowed : Bool

namespace UDPServer

/-- The bytes of the datagram go straight into the block of the new message; nothing terminates
them and the bytes behind them are those of an earlier use. -/
def receive [Malloc] (x : UDPServer) (pNewMessage : Msg) (rc : RecvFrom) (client : ClientAddr)
    (newID server : Bytes) : Cxx Msg := do
  let msgBuffer ← pNewMessage.msgBuffer.setBufferSize maxDgramSize
  let m := { pNewMessage with msgBuffer }
  match rc with
  | .failed => pure { m with msgState := .markForReuse }
  | .bytes d =>
    let d := d.take maxDgramSize.toNat
    if d = [] then pure m
    else
      let mem ← store (m.msgBuffer.pBuffer.getD []) 0 d
      let m := { m with msgBuffer := { m.msgBuffer with pBuffer := some mem } }
      if !client.allowed then pure { m with msgState := .markForReuse }
      else
        let msgBuffer ← m.msgBuffer.setBufferLength d.length
        let m := { m with msgBuffer, sourceIP := cstr client.sinAddr }
        let (rc, m) ← m.parse .ibUdp .req newID
        let m :=
          if rc = 0 then
            { m.setConnectionType .ibUdp with
              msgProtocolType := .mcp
              msgArrivalPort := x.iPort }.dispatchMsg server
          else { m with msgState := .markForReuse }
        if m.msgReplyActionType = .wait then
          pure { m with sourcePort := client.sinPort, udpSocketHandle := x.serverSocketfd }
        else pure m

/-! ### The parts of a pass -/

/-- A datagram that is let in, up to `Parse`. -/
def readDatagram [Malloc] (pNewMessage : Msg) (d : Bytes) (client : ClientAddr) (newID : Bytes) :
    Cxx (ℤ × Msg) := do
  let msgBuffer ← pNewMessage.msgBuffer.setBufferSize maxDgramSize
  let d := d.take maxDgramSize.toNat
  let mem ← store (msgBuffer.pBuffer.getD []) 0 d
  let msgBuffer ← { msgBuffer with pBuffer := some mem : Buffer }.setBufferLength d.length
  { pNewMessage with msgBuffer, sourceIP := cstr client.sinAddr }.parse .ibUdp .req newID

/-- Right behind `Parse` the queue gets the message. -/
def handOver (x : UDPServer) (server : Bytes) (r : ℤ × Msg) : Msg :=
  if r.1 = 0 then
    { r.2.setConnectionType .ibUdp with
      msgProtocolType := .mcp
      msgArrivalPort := x.iPort }.dispatchMsg server
  else { r.2 with msgState := .markForReuse }

/-- The end of the loop body, which looks at the message again. -/
def noteSender (x : UDPServer) (client : ClientAddr) (m : Msg) : Msg :=
  if m.msgReplyActionType = .wait then
    (m.setSourcePort client.sinPort).setUDPSocketHandle x.serverSocketfd
  else m

theorem receive_eq_readDatagram [Malloc] (x : UDPServer) (m : Msg) {d : Bytes} (hd : d ≠ [])
    {client : ClientAddr} (ha : client.allowed = true) (newID server : Bytes) :
    x.receive m (.bytes d) client newID server =
      readDatagram m d client newID >>= fun r =>
        .ok (x.noteSender client (x.handOver server r)) := by
  have hne : d.take 512 ≠ [] := by
    rw [ne_eq, List.take_eq_nil_iff]
    exact fun h => h.elim (by decide) hd
  unfold receive readDatagram
  rw [bind_assoc]
  refine congrArg _ (funext fun b => ?_)
  simp only [show maxDgramSize.toNat = 512 from rfl, if_neg hne, ha, Bool.not_true,
    Bool.false_eq_true, if_false, bind_assoc]
  refine congrArg _ (funext fun mem => ?_)
  refine congrArg _ (funext fun b' => ?_)
  refine congrArg _ (funext fun r => ?_)
  unfold noteSender handOver Msg.setSourcePort Msg.setUDPSocketHandle
  split_ifs <;> rfl

end UDPServer
end MsgCourier
