import MsgCourier.DatagramRun
import MsgCourier.HandlerHistory

/-! Replies to UDP requests, when the queue and the handlers run between any two statements of the
receive loop. -/
namespace MsgCourier
open ListSearch CText Runs ZeroFill

/-! ### The threads -/

/-- Where the receive loop stands: at the next datagram, behind `DispatchMsg`, or between the two
statements that store the sender. -/
inductive UdpPc
  | idle
  | dispatched (p : ℕ) (client : ClientAddr)
  | portStored (p : ℕ) (client : ClientAddr)

/-- The message the loop is going to look at once more. -/
def UdpPc.noting : UdpPc → Option ℕ
  | .idle => none
  | .dispatched p _ | .portStored p _ => some p

/-- `requests` has the sender of each message that is a UDP request, `replies` the sender of the
request that a message is a reply to, for requests that wait for one. -/
structure UdpTraffic where
  pool : MsgPool := {}
  pc : UdpPc := .idle
  requests : ℕ → Option ClientAddr := fun _ => none
  replies : ℕ → Option ClientAddr := fun _ => none

inductive UdpAction
  | receive (a : Arrival)
  | notePort
  | noteSocket
  | noteNothing
  | getMessage (pNew : ℕ) (newID : Bytes) (now : ℤ)
  | reply (p pNew : ℕ) (newID : Bytes) (now : ℤ)
  | change (p : ℕ) (m : Msg)
  | flush (currentTime : ℤ)

/-- No handler changes the fields that lead a reply back. -/
structure SameSender (m m' : Msg) : Prop where
  connectionType : m'.msgConnectionType = m.msgConnectionType
  protocolType : m'.msgProtocolType = m.msgProtocolType
  replyAction : m'.msgReplyActionType = m.msgReplyActionType
  sourceIP : m'.sourceIP = m.sourceIP
  sourcePort : m'.sourcePort = m.sourcePort
  udpSocketHandle : m'.udpSocketHandle = m.udpSocketHandle

/-- The steps of the loop, and those of the other threads: to take a message, to reply to a request
someone still holds, to change a message, and to sweep the pool. -/
inductive UdpStep [Malloc] (x : UDPServer) : UdpTraffic → UdpAction → UdpTraffic → Prop
  | receive {s : UdpTraffic} {a : Arrival} {d : Bytes} {p : ℕ} {pool : MsgPool} {m : Msg}
      {r : ℤ × Msg} :
      s.pc = .idle → a.rc = .bytes d → d ≠ [] → a.client.allowed = true →
      s.pool.objects a.pNew = none →
      s.pool.getReusableMessage a.pNew a.newID a.now = .ok (p, pool) → pool.objects p = some m →
      UDPServer.readDatagram m d a.client a.parseID = .ok r →
      UdpStep x s (.receive a) ⟨pool.put p (x.handOver a.server r), .dispatched p a.client,
        Function.update s.requests p (some a.client), Function.update s.replies p none⟩
  | notePort {s : UdpTraffic} {p : ℕ} {client : ClientAddr} {m : Msg} :
      s.pc = .dispatched p client → s.pool.objects p = some m → m.msgReplyActionType = .wait →
      UdpStep x s .notePort
        { s with pool := s.pool.put p (m.setSourcePort client.sinPort), pc := .portStored p client }
  | noteNothing {s : UdpTraffic} {p : ℕ} {client : ClientAddr} {m : Msg} :
      s.pc = .dispatched p client → s.pool.objects p = some m → m.msgReplyActionType ≠ .wait →
      UdpStep x s .noteNothing { s with pc := .idle }
  | noteSocket {s : UdpTraffic} {p : ℕ} {client : ClientAddr} {m : Msg} :
      s.pc = .portStored p client → s.pool.objects p = some m →
      UdpStep x s .noteSocket
        { s with pool := s.pool.put p (m.setUDPSocketHandle x.serverSocketfd), pc := .idle }
  | getMessage {s : UdpTraffic} {pNew p : ℕ} {newID : Bytes} {now : ℤ} {pool : MsgPool} :
      s.pool.objects pNew = none → s.pool.getReusableMessage pNew newID now = .ok (p, pool) →
      UdpStep x s (.getMessage pNew newID now)
        ⟨pool, s.pc, Function.update s.requests p none, Function.update s.replies p none⟩
  | reply {s : UdpTraffic} {p q pNew : ℕ} {newID : Bytes} {now : ℤ} {pool : MsgPool} {m : Msg}
      {client : ClientAddr} :
      s.requests p = some client → s.pool.objects p = some m → s.pool.objects pNew = none →
      s.pool.createMessageReply (some p) pNew newID now = .ok (q, pool) → q ≠ p →
      UdpStep x s (.reply p pNew newID now) ⟨pool, s.pc, Function.update s.requests q none,
        Function.update s.replies q (if m.msgReplyActionType = .wait then some client else none)⟩
  | change {s : UdpTraffic} {p : ℕ} {m m' : Msg} :
      s.pool.objects p = some m → SameSender m m' →
      UdpStep x s (.change p m') { s with pool := s.pool.put p m' }
  | flush {s : UdpTraffic} {currentTime : ℤ} {pool : MsgPool} {examined : List ℕ} :
      s.pool.flushMessages currentTime = .ok (pool, examined) →
      UdpStep x s (.flush currentTime) { s with pool }

/-- The loop is done with a message before another thread replies to it, and before it is handed
out again. -/
def UdpAction.InTime (s : UdpTraffic) : UdpAction → Prop
  | .getMessage pNew newID now => ∀ q pool,
      s.pool.getReusableMessage pNew newID now = .ok (q, pool) → s.pc.noting ≠ some q
  | .reply p pNew newID now => s.pc.noting ≠ some p ∧ ∀ q pool,
      s.pool.getReusableMessage pNew newID now = .ok (q, pool) → s.pc.noting ≠ some q
  | .receive _ | .notePort | .noteSocket | .noteNothing | .change _ _ | .flush _ => True

/-! ### Where the sender is known -/

/-- The parts of the sender a request has from the start, in a message of type `ct`. -/
structure HasAddress (ct : MsgConnectionType) (client : ClientAddr) (m : Msg) : Prop where
  connectionType : m.msgConnectionType = ct
  protocolType : m.msgProtocolType = .mcp
  sourceIP : m.sourceIP = cstr client.sinAddr

/-- The parts the loop stores last. -/
structure HasPort (x : UDPServer) (client : ClientAddr) (m : Msg) : Prop where
  sourcePort : m.sourcePort = client.sinPort
  udpSocketHandle : m.udpSocketHandle = x.serverSocketfd

structure UdpInv (x : UDPServer) (s : UdpTraffic) : Prop where
  wellFormed : s.pool.WellFormed
  address : ∀ p client m, s.requests p = some client → s.pool.objects p = some m →
    HasAddress .ibUdp client m
  port : ∀ p client m, s.requests p = some client → s.pool.objects p = some m →
    s.pc.noting ≠ some p → m.msgReplyActionType = .wait → HasPort x client m
  noting : ∀ p client, s.pc = .dispatched p client ∨ s.pc = .portStored p client →
    s.requests p = some client ∧ s.replies p = none
  stored : ∀ p client m, s.pc = .portStored p client → s.pool.objects p = some m →
    m.sourcePort = client.sinPort
  reply : ∀ q client m, s.replies q = some client → s.pool.objects q = some m →
    HasAddress .obUdp client m ∧ HasPort x client m

namespace SameSender

variable {m m' : Msg} {ct : MsgConnectionType} {client : ClientAddr}

theorem refl (m : Msg) : SameSender m m := ⟨rfl, rfl, rfl, rfl, rfl, rfl⟩

theorem hasAddress (h : SameSender m m') (hm : HasAddress ct client m) :
    HasAddress ct client m' :=
  ⟨h.connectionType.trans hm.connectionType, h.protocolType.trans hm.protocolType,
    h.sourceIP.trans hm.sourceIP⟩

theorem hasPort {x : UDPServer} (h : SameSender m m') (hm : HasPort x client m) :
    HasPort x client m' :=
  ⟨h.sourcePort.trans hm.sourcePort, h.udpSocketHandle.trans hm.udpSocketHandle⟩

end SameSender

namespace UdpInv

variable {x : UDPServer} {s t : UdpTraffic}

theorem initial : UdpInv x {} where
  wellFormed := ⟨List.nodup_nil, by simp⟩
  address _ _ _ h := by cases h
  port _ _ _ h := by cases h
  noting _ _ h := by rcases h with h | h <;> cases h
  stored _ _ _ h := by cases h
  reply _ _ _ h := by cases h

/-- What a step may do besides the loop: forget what a message was, or keep the fields of its
sender. -/
def Keeps (s t : UdpTraffic) (q : ℕ) (m' : Msg) : Prop :=
  (t.requests q = none ∧ t.replies q = none) ∨
  (t.requests q = s.requests q ∧ t.replies q = s.replies q ∧
    ∃ m, s.pool.objects q = some m ∧ SameSender m m')

theorem keep (hi : UdpInv x s) (hw : t.pool.WellFormed) (hpc : t.pc = s.pc)
    (hnoting : ∀ q, s.pc.noting = some q → t.requests q = s.requests q ∧ t.replies q = s.replies q)
    (hkeep : ∀ q m', t.pool.objects q = some m' → Keeps s t q m') : UdpInv x t where
  wellFormed := hw
  address := by
    intro q client m' hq hm'
    rcases hkeep q m' hm' with ⟨hnone, _⟩ | ⟨hsame, _, m, hm, hsender⟩
    · rw [hnone] at hq
      cases hq
    · exact hsender.hasAddress (hi.address q client m (hsame ▸ hq) hm)
  port := by
    intro q client m' hq hm' hne hwait
    rcases hkeep q m' hm' with ⟨hnone, _⟩ | ⟨hsame, _, m, hm, hsender⟩
    · rw [hnone] at hq
      cases hq
    · exact hsender.hasPort (hi.port q client m (hsame ▸ hq) hm (hpc ▸ hne)
        (hsender.replyAction ▸ hwait))
  noting := by
    intro p client hp
    rw [hpc] at hp
    have hnote : s.pc.noting = some p := by rcases hp with hp | hp <;> rw [hp] <;> rfl
    obtain ⟨hreq, hrep⟩ := hnoting p hnote
    rw [hreq, hrep]
    exact hi.noting p client hp
  stored := by
    intro p client m' hp hm'
    rw [hpc] at hp
    have hnote : s.pc.noting = some p := by rw [hp]; rfl
    rcases hkeep p m' hm' with ⟨hnone, _⟩ | ⟨_, _, m, hm, hsender⟩
    · rw [(hnoting p hnote).1, (hi.noting p client (Or.inr hp)).1] at hnone
      cases hnone
    · exact hsender.sourcePort.trans (hi.stored p client m hp hm)
  reply := by
    intro q client m' hq hm'
    rcases hkeep q m' hm' with ⟨_, hnone⟩ | ⟨_, hsame, m, hm, hsender⟩
    · rw [hnone] at hq
      cases hq
    · obtain ⟨haddr, hport⟩ := hi.reply q client m (hsame ▸ hq) hm
      exact ⟨hsender.hasAddress haddr, hsender.hasPort hport⟩

end UdpInv

namespace MsgPool

/-- A reply takes a message of the pool and marks the one it answers. -/
theorem createMessageReply_objects {x y : MsgPool} {p q pNew : ℕ} {newID : Bytes} {now : ℤ}
    {m : Msg} (hm : x.objects p = some m) (hqp : q ≠ p)
    (hok : x.createMessageReply (some p) pNew newID now = .ok (q, y)) :
    ∃ pool old, x.getReusableMessage pNew newID now = .ok (q, pool) ∧
      y = (pool.put p m.setCloned).put q ((Msg.reuse old newID now).replyTo m.setCloned) := by
  unfold createMessageReply at hok
  obtain ⟨⟨q', pool⟩, hget, hok⟩ := bind_eq_ok.mp hok
  dsimp only at hok
  obtain ⟨⟨old, hnew⟩, hothers⟩ := getReusableMessage_objects hget
  by_cases hpq : q' = p
  · -- the message in front of the free ones is the one to be answered
    obtain ⟨m', _, hok⟩ := bind_eq_ok.mp hok
    obtain ⟨n, _, hok⟩ := bind_eq_ok.mp hok
    have hq := (Prod.mk.inj (Except.ok.inj hok)).1
    exact absurd (hq.symm.trans hpq) hqp
  · have hp : pool.objects p = some m := (hothers p (Ne.symm hpq)).trans hm
    have hq' : (pool.put p m.setCloned).objects q' = some (old.reuse newID now) :=
      (put_objects_of_ne _ hpq _).trans hnew
    rw [deref_some hp, ok_bind, deref_some hq', ok_bind, pure_eq_ok] at hok
    obtain ⟨rfl, rfl⟩ := Prod.mk.inj (Except.ok.inj hok)
    exact ⟨pool, old, hget, rfl⟩

end MsgPool

theorem SameSender.setMsgState (m : Msg) (state : MsgState) : SameSender m (m.setMsgState state) :=
  ⟨rfl, rfl, rfl, rfl, rfl, rfl⟩

/-- A reply has the sender of its request. -/
theorem replyTo_sender {x : UDPServer} {client : ClientAddr} (n : Msg) {m : Msg}
    (hm : HasAddress .ibUdp client m) : HasAddress .obUdp client (n.replyTo m.setCloned) ∧
      (HasPort x client m → HasPort x client (n.replyTo m.setCloned)) := by
  have hct : m.setCloned.msgConnectionType = .ibUdp := hm.connectionType
  have hne : ¬ MsgConnectionType.ibUdp = .internal := by decide
  unfold Msg.replyTo
  simp only [hct, if_neg hne]
  refine ⟨⟨rfl, hm.protocolType, ?_⟩, fun h => ⟨h.sourcePort, h.udpSocketHandle⟩⟩
  have hip : m.setCloned.sourceIP = cstr client.sinAddr := hm.sourceIP
  rw [hip]
  exact cstr_eq_self (zero_notMem_cstr _)

namespace UDPServer

/-- What the queue gets from the loop. -/
theorem handOver_address [Malloc] (x : UDPServer) {m : Msg} {d : Bytes} {client : ClientAddr}
    {newID : Bytes} (server : Bytes) {r : ℤ × Msg} (hr : readDatagram m d client newID = .ok r) :
    HasAddress .ibUdp client (x.handOver server r) := by
  unfold readDatagram at hr
  obtain ⟨b, _, hr⟩ := bind_eq_ok.mp hr
  obtain ⟨mem, _, hr⟩ := bind_eq_ok.mp hr
  obtain ⟨b', _, hr⟩ := bind_eq_ok.mp hr
  obtain ⟨status, command, h, b'', raw, i, rc, _, rfl⟩ := Msg.parse_inv hr
  exact ⟨rfl, rfl, rfl⟩

end UDPServer

namespace UdpInv

variable {x : UDPServer} {s t : UdpTraffic}

theorem receive [Malloc] (hi : UdpInv x s) {a : Arrival} {d : Bytes} {p : ℕ} {pool : MsgPool}
    {m : Msg} {r : ℤ × Msg} (hpc : s.pc = .idle) (hnew : s.pool.objects a.pNew = none)
    (hget : s.pool.getReusableMessage a.pNew a.newID a.now = .ok (p, pool))
    (hr : UDPServer.readDatagram m d a.client a.parseID = .ok r) :
    UdpInv x ⟨pool.put p (x.handOver a.server r), .dispatched p a.client,
      Function.update s.requests p (some a.client), Function.update s.replies p none⟩ := by
  obtain ⟨_, hothers⟩ := MsgPool.getReusableMessage_objects hget
  have hother (q : ℕ) (hq : q ≠ p) :
      (pool.put p (x.handOver a.server r)).objects q = s.pool.objects q :=
    (MsgPool.put_objects_of_ne _ hq _).trans (hothers q hq)
  have hidle (q : ℕ) : s.pc.noting ≠ some q := by
    rw [hpc]
    exact nofun
  refine ⟨(hi.wellFormed.getReusableMessage hnew hget).put p _, ?_, ?_, ?_, ?_, ?_⟩
  · intro q client m' hq hm'
    dsimp only at hq hm'
    by_cases hqp : q = p
    · subst hqp
      rw [Function.update_self, Option.some.injEq] at hq
      rw [MsgPool.put_objects_self, Option.some.injEq] at hm'
      rw [← hq, ← hm']
      exact x.handOver_address a.server hr
    · rw [Function.update_of_ne hqp] at hq
      rw [hother q hqp] at hm'
      exact hi.address q client m' hq hm'
  · intro q client m' hq hm' hne
    dsimp only at hq hm'
    have hqp : q ≠ p := fun h => hne (congrArg some h.symm)
    rw [Function.update_of_ne hqp] at hq
    rw [hother q hqp] at hm'
    exact hi.port q client m' hq hm' (hidle q)
  · intro q client hq
    rcases hq with hq | hq
    · obtain ⟨rfl, rfl⟩ := UdpPc.dispatched.inj hq
      exact ⟨Function.update_self _ _ _, Function.update_self _ _ _⟩
    · cases hq
  · intro q client m' hq
    cases hq
  · intro q client m' hq hm'
    dsimp only at hq hm'
    by_cases hqp : q = p
    · rw [hqp, Function.update_self] at hq
      cases hq
    · rw [Function.update_of_ne hqp] at hq
      rw [hother q hqp] at hm'
      exact hi.reply q client m' hq hm'

/-- The loop writes to a request it noted, which nobody takes for a reply. -/
theorem note (hi : UdpInv x s) {p : ℕ} {client : ClientAddr} {m m' : Msg} {pc : UdpPc}
    (hpc : s.pc = .dispatched p client ∨ s.pc = .portStored p client)
    (hm : s.pool.objects p = some m) (hpc' : pc = .portStored p client ∨ pc = .idle)
    (haddr : HasAddress .ibUdp client m → HasAddress .ibUdp client m')
    (hport : pc.noting ≠ some p → m'.msgReplyActionType = .wait → HasPort x client m')
    (hstored : pc = .portStored p client → m'.sourcePort = client.sinPort) :
    UdpInv x { s with pool := s.pool.put p m', pc } := by
  obtain ⟨hreq, hrep⟩ := hi.noting p client hpc
  have hnote : s.pc.noting = some p := by rcases hpc with hpc | hpc <;> rw [hpc] <;> rfl
  refine ⟨hi.wellFormed.put p m', ?_, ?_, ?_, ?_, ?_⟩
  · intro q c n hq hn
    dsimp only at hq hn
    by_cases hqp : q = p
    · subst hqp
      rw [MsgPool.put_objects_self, Option.some.injEq] at hn
      rw [hreq, Option.some.injEq] at hq
      rw [← hn, ← hq]
      exact haddr (hi.address q client m hreq hm)
    · rw [MsgPool.put_objects_of_ne _ hqp] at hn
      exact hi.address q c n hq hn
  · intro q c n hq hn hne hwait
    dsimp only at hq hn hne
    by_cases hqp : q = p
    · subst hqp
      rw [MsgPool.put_objects_self, Option.some.injEq] at hn
      rw [hreq, Option.some.injEq] at hq
      rw [← hn, ← hq]
      exact hport hne (hn ▸ hwait)
    · rw [MsgPool.put_objects_of_ne _ hqp] at hn
      refine hi.port q c n hq hn ?_ hwait
      rw [hnote, ne_eq, Option.some.injEq]
      exact fun h => hqp h.symm
  · intro q c hq
    rcases hpc' with rfl | rfl
    · rcases hq with hq | hq
      · cases hq
      · obtain ⟨rfl, rfl⟩ := UdpPc.portStored.inj hq
        exact ⟨hreq, hrep⟩
    · rcases hq with hq | hq <;> cases hq
  · intro q c n hq hn
    dsimp only at hq hn
    rcases hpc' with rfl | rfl
    · obtain ⟨rfl, rfl⟩ := UdpPc.portStored.inj hq
      rw [MsgPool.put_objects_self, Option.some.injEq] at hn
      exact hn ▸ hstored rfl
    · cases hq
  · intro q c n hq hn
    dsimp only at hq hn
    have hqp : q ≠ p := by
      rintro rfl
      rw [hrep] at hq
      cases hq
    rw [MsgPool.put_objects_of_ne _ hqp] at hn
    exact hi.reply q c n hq hn

theorem noteNothing (hi : UdpInv x s) {p : ℕ} {client : ClientAddr} {m : Msg}
    (hpc : s.pc = .dispatched p client) (hm : s.pool.objects p = some m)
    (hwait : m.msgReplyActionType ≠ .wait) : UdpInv x { s with pc := .idle } := by
  refine ⟨hi.wellFormed, hi.address, ?_, ?_, ?_, hi.reply⟩
  · intro q c n hq hn _ hw
    refine hi.port q c n hq hn ?_ hw
    rw [hpc]
    intro h
    have hqp : p = q := Option.some.inj h
    subst hqp
    rw [hm, Option.some.injEq] at hn
    exact hwait (hn ▸ hw)
  · intro q c hq
    rcases hq with hq | hq <;> cases hq
  · intro q c n hq
    cases hq

theorem getMessage (hi : UdpInv x s) {pNew p : ℕ} {newID : Bytes} {now : ℤ} {pool : MsgPool}
    (hnew : s.pool.objects pNew = none)
    (hget : s.pool.getReusableMessage pNew newID now = .ok (p, pool))
    (hnote : s.pc.noting ≠ some p) :
    UdpInv x ⟨pool, s.pc, Function.update s.requests p none, Function.update s.replies p none⟩ := by
  obtain ⟨_, hothers⟩ := MsgPool.getReusableMessage_objects hget
  refine hi.keep (hi.wellFormed.getReusableMessage hnew hget) rfl ?_ ?_
  · intro q hq
    have hqp : q ≠ p := fun h => hnote (h ▸ hq)
    exact ⟨Function.update_of_ne hqp _ _, Function.update_of_ne hqp _ _⟩
  · intro q m' hm'
    by_cases hqp : q = p
    · subst hqp
      exact Or.inl ⟨Function.update_self _ _ _, Function.update_self _ _ _⟩
    · refine Or.inr ⟨Function.update_of_ne hqp _ _, Function.update_of_ne hqp _ _, m', ?_,
        SameSender.refl m'⟩
      exact (hothers q hqp).symm.trans hm'

theorem change (hi : UdpInv x s) {p : ℕ} {m m' : Msg} (hm : s.pool.objects p = some m)
    (hsame : SameSender m m') : UdpInv x { s with pool := s.pool.put p m' } := by
  refine hi.keep (hi.wellFormed.put p m') rfl (fun q _ => ⟨rfl, rfl⟩) ?_
  intro q n hn
  refine Or.inr ⟨rfl, rfl, ?_⟩
  by_cases hqp : q = p
  · subst hqp
    rw [MsgPool.put_objects_self, Option.some.injEq] at hn
    exact ⟨m, hm, hn ▸ hsame⟩
  · rw [MsgPool.put_objects_of_ne _ hqp] at hn
    exact ⟨n, hn, SameSender.refl n⟩

theorem flush (hi : UdpInv x s) {currentTime : ℤ} {pool : MsgPool} {examined : List ℕ}
    (hok : s.pool.flushMessages currentTime = .ok (pool, examined)) :
    UdpInv x { s with pool } := by
  have hswept := MsgPool.swept_of_flushMessages hi.wellFormed hok
  refine hi.keep (hi.wellFormed.flushMessages hok) rfl (fun q _ => ⟨rfl, rfl⟩) ?_
  intro q n hn
  refine Or.inr ⟨rfl, rfl, ?_⟩
  dsimp only at hn
  rw [hswept.objects] at hn
  split_ifs at hn
  · obtain ⟨m, hm, hsw⟩ := Option.bind_eq_some_iff.mp hn
    refine ⟨m, hm, ?_⟩
    split_ifs at hsw
    · exact Option.some.inj hsw ▸ SameSender.refl m
    · exact Option.some.inj hsw ▸ SameSender.setMsgState m .inactive
  · exact ⟨n, hn, SameSender.refl n⟩

/-- A message nobody knows about becomes a reply. -/
theorem becomeReply (hi : UdpInv x s) {q : ℕ} (m' : Msg) (o : Option ClientAddr)
    (hreq : s.requests q = none) (hnote : s.pc.noting ≠ some q)
    (ho : ∀ client, o = some client → HasAddress .obUdp client m' ∧ HasPort x client m') :
    UdpInv x ⟨s.pool.put q m', s.pc, s.requests, Function.update s.replies q o⟩ := by
  have hne {p : ℕ} {client : ClientAddr} (hp : s.requests p = some client) : p ≠ q := by
    rintro rfl
    rw [hreq] at hp
    cases hp
  refine ⟨hi.wellFormed.put q m', ?_, ?_, ?_, ?_, ?_⟩
  · intro p client n hp hn
    dsimp only at hp hn
    rw [MsgPool.put_objects_of_ne _ (hne hp)] at hn
    exact hi.address p client n hp hn
  · intro p client n hp hn
    dsimp only at hp hn
    rw [MsgPool.put_objects_of_ne _ (hne hp)] at hn
    exact hi.port p client n hp hn
  · intro p client hp
    obtain ⟨hpreq, hprep⟩ := hi.noting p client hp
    exact ⟨hpreq, (Function.update_of_ne (hne hpreq) _ _).trans hprep⟩
  · intro p client n hp hn
    dsimp only at hp hn
    rw [MsgPool.put_objects_of_ne _ (hne (hi.noting p client (Or.inr hp)).1)] at hn
    exact hi.stored p client n hp hn
  · intro p client n hp hn
    dsimp only at hp hn
    by_cases hpq : p = q
    · subst hpq
      rw [Function.update_self] at hp
      rw [MsgPool.put_objects_self, Option.some.injEq] at hn
      exact hn ▸ ho client hp
    · rw [Function.update_of_ne hpq] at hp
      rw [MsgPool.put_objects_of_ne _ hpq] at hn
      exact hi.reply p client n hp hn

theorem reply_step (hi : UdpInv x s) {p q pNew : ℕ} {newID : Bytes} {now : ℤ} {pool : MsgPool}
    {m : Msg} {client : ClientAddr} (hreq : s.requests p = some client)
    (hm : s.pool.objects p = some m) (hnew : s.pool.objects pNew = none)
    (hok : s.pool.createMessageReply (some p) pNew newID now = .ok (q, pool)) (hqp : q ≠ p)
    (hp : s.pc.noting ≠ some p)
    (hq : ∀ q pool, s.pool.getReusableMessage pNew newID now = .ok (q, pool) →
      s.pc.noting ≠ some q) :
    UdpInv x ⟨pool, s.pc, Function.update s.requests q none,
      Function.update s.replies q (if m.msgReplyActionType = .wait then some client else none)⟩ := by
  obtain ⟨pool', old, hget, rfl⟩ := MsgPool.createMessageReply_objects hm hqp hok
  obtain ⟨_, hothers⟩ := MsgPool.getReusableMessage_objects hget
  have hp' : pool'.objects p = some m := (hothers p (Ne.symm hqp)).trans hm
  -- first a message is taken, then the request is marked, then the copy is written
  have htaken := hi.getMessage hnew hget (hq q pool' hget)
  have hcloned : SameSender m m.setCloned := ⟨rfl, rfl, rfl, rfl, rfl, rfl⟩
  have hmarked := htaken.change hp' hcloned
  have hwritten := hmarked.becomeReply ((Msg.reuse old newID now).replyTo m.setCloned)
    (if m.msgReplyActionType = .wait then some client else none) (Function.update_self _ _ _)
    (hq q pool' hget) ?_
  · dsimp only at hwritten
    rwa [Function.update_idem] at hwritten
  · intro c hc
    split_ifs at hc with hwait
    obtain rfl := Option.some.inj hc
    have haddr := hi.address p client m hreq hm
    obtain ⟨haddr', hport'⟩ := replyTo_sender (x := x) (Msg.reuse old newID now) haddr
    exact ⟨haddr', hport' (hi.port p client m hreq hm hp hwait)⟩

theorem step [Malloc] (hi : UdpInv x s) {a : UdpAction} (hstep : UdpStep x s a t)
    (htime : a.InTime s) : UdpInv x t := by
  cases hstep with
  | receive hpc _ _ _ hnew hget _ hr => exact hi.receive hpc hnew hget hr
  | notePort hpc hm _ =>
    refine hi.note (Or.inl hpc) hm (Or.inl rfl) (fun h => ⟨h.1, h.2, h.3⟩) ?_ (fun _ => rfl)
    exact fun h => absurd rfl h
  | noteNothing hpc hm hwait => exact hi.noteNothing hpc hm hwait
  | noteSocket hpc hm =>
    have hstored := hi.stored _ _ _ hpc hm
    exact hi.note (Or.inr hpc) hm (Or.inr rfl) (fun h => ⟨h.1, h.2, h.3⟩)
      (fun _ _ => ⟨hstored, rfl⟩) nofun
  | getMessage hnew hget => exact hi.getMessage hnew hget (htime _ _ hget)
  | reply hreq hm hnew hok hqp =>
    exact hi.reply_step hreq hm hnew hok hqp htime.1 htime.2
  | change hm hsame => exact hi.change hm hsame
  | flush hok => exact hi.flush hok

end UdpInv

/-! ### Where a reply goes -/

/-- A datagram of a message that has its sender goes to that sender, from the server's socket. -/
theorem transmitMsg_to_sender [Malloc] {x : UDPServer} (hx : x.serverSocketfd ≠ -1)
    {client : ClientAddr}
    {s : OutboundState} {env : OutboundEnv} (haddr : HasAddress .obUdp client s.pMsg)
    (hport : HasPort x client s.pMsg) {r : ℤ × OutboundState} (hr : s.transmitMsg env = .ok r) :
    ∃ data, r.2.actions =
      s.actions ++ [.sendto x.serverSocketfd (cstr client.sinAddr) client.sinPort data] := by
  have hpage : ¬ (s.pMsg.msgProtocolType = .httpGet ∨ s.pMsg.msgProtocolType = .httpPost) := by
    rw [haddr.protocolType]
    decide
  obtain ⟨response, handler, q, _, _, hsend, rfl⟩ := OutboundState.transmitMsg_inv hpage hr
  rcases OutboundState.sendByType_inv hsend with ⟨_, hudp⟩ | ⟨htcp, _⟩
  · have hfd : (s.setHandler handler).pMsg.udpSocketHandle ≠ -1 := hport.udpSocketHandle ▸ hx
    unfold OutboundState.udpSend at hudp
    rw [if_neg hfd] at hudp
    obtain ⟨data, _, hq⟩ := bind_eq_ok.mp hudp
    refine ⟨data, ?_⟩
    rw [OutboundState.finish_actions, ← Except.ok.inj hq]
    change s.actions ++ [.sendto s.pMsg.udpSocketHandle (cstr s.pMsg.sourceIP) s.pMsg.sourcePort
      data] = _
    rw [hport.udpSocketHandle, haddr.sourceIP, hport.sourcePort,
      cstr_eq_self (zero_notMem_cstr client.sinAddr)]
  · have hct : s.pMsg.msgConnectionType = .obTcp := htcp
    rw [haddr.connectionType] at hct
    cases hct

/-- In a run in which the loop is done with each message in time, every reply to a waiting request
has the port of its datagram and the socket of the server, and is sent to where the datagram came
from. -/
theorem udp_replies_reach_sender [Malloc] {x : UDPServer} (hx : x.serverSocketfd ≠ -1)
    {as : List UdpAction} {s : UdpTraffic}
    (hrun : Run (fun s a t => UdpStep x s a t ∧ a.InTime s) {} as s) {q : ℕ}
    {client : ClientAddr} {m : Msg} (hq : s.replies q = some client)
    (hm : s.pool.objects q = some m) :
    m.sourcePort = client.sinPort ∧ m.udpSocketHandle = x.serverSocketfd ∧
      ∀ (handler : ConnectionHandlerOutbound) (env : OutboundEnv) (sends : List SendResult)
        (t : OutboundState), OutboundState.handleConnection handler env m sends = .ok t →
        ∃ data, t.actions =
          [.sendto x.serverSocketfd (cstr client.sinAddr) client.sinPort data] := by
  have hi : UdpInv x s := hrun.invariant (fun _ _ _ hi hstep => hi.step hstep.1 hstep.2)
    UdpInv.initial
  obtain ⟨haddr, hport⟩ := hi.reply q client m hq hm
  refine ⟨hport.sourcePort, hport.udpSocketHandle, ?_⟩
  intro handler env sends t ht
  obtain ⟨r, hr, hrt⟩ := bind_eq_ok.mp ht
  obtain ⟨data, hdata⟩ := transmitMsg_to_sender hx haddr hport hr
  exact ⟨data, Except.ok.inj hrt ▸ hdata⟩

/-! ### Two runs -/

def waitingDatagram : Arrival :=
  arrivalOf (bytes "a b\r\nOptions: reply-wait\r\n\r\n")

theorem UdpStep.first [Malloc] {x : UDPServer} {s : UdpTraffic} (a : Arrival) {d : Bytes} {p : ℕ}
    {pool : MsgPool} {m : Msg} {r : ℤ × Msg} (hpc : s.pc = .idle) (hrc : a.rc = .bytes d)
    (hd : d ≠ []) (ha : a.client.allowed = true) (hnew : s.pool.objects a.pNew = none)
    (hget : s.pool.getReusableMessage a.pNew a.newID a.now = .ok (p, pool))
    (hm : pool.objects p = some m)
    (hr : UDPServer.readDatagram m d a.client a.parseID = .ok r) :
    UdpStep x s (.receive a) ⟨pool.put p (x.handOver a.server r), .dispatched p a.client,
      Function.update s.requests p (some a.client), Function.update s.replies p none⟩ :=
  UdpStep.receive hpc hrc hd ha hnew hget hm hr

theorem UdpStep.replyTo [Malloc] {x : UDPServer} {s : UdpTraffic} (p pNew : ℕ) {q : ℕ}
    {pool : MsgPool} {m : Msg} {client : ClientAddr} (hreq : s.requests p = some client)
    (hm : s.pool.objects p = some m) (hnew : s.pool.objects pNew = none)
    (hok : s.pool.createMessageReply (some p) pNew [] 0 = .ok (q, pool)) (hqp : q ≠ p) :
    UdpStep x s (.reply p pNew [] 0) ⟨pool, s.pc, Function.update s.requests q none,
      Function.update s.replies q (if m.msgReplyActionType = .wait then some client else none)⟩ :=
  UdpStep.reply hreq hm hnew hok hqp

def udpServer : UDPServer := ⟨3400, 4⟩

set_option maxRecDepth 20000 in
theorem udp_replies_reach_sender_waiting : ∃ as s m,
    Run (fun s a t => UdpStep udpServer s a t ∧ a.InTime s) {} as s ∧
      m.sourcePort = plainClient.sinPort ∧ m.udpSocketHandle = 4 ∧
      ∀ (handler : ConnectionHandlerOutbound) (env : OutboundEnv) (sends : List SendResult)
        (t : OutboundState), OutboundState.handleConnection handler env m sends = .ok t →
        ∃ data, t.actions = [.sendto 4 (cstr plainClient.sinAddr) plainClient.sinPort data] := by
  have hrun : ∃ as s m, Run (fun s a t => UdpStep udpServer s a t ∧ a.InTime s) {} as s ∧
      s.replies 2 = some plainClient ∧ s.pool.objects 2 = some m :=
    ⟨_, _, _, (((Run.nil.snoc ⟨UdpStep.first waitingDatagram rfl rfl (by decide) rfl rfl rfl rfl rfl,
      trivial⟩).snoc ⟨UdpStep.notePort rfl rfl rfl, trivial⟩).snoc
      ⟨UdpStep.noteSocket rfl rfl, trivial⟩).snoc
      ⟨UdpStep.replyTo 1 2 rfl rfl rfl rfl (by decide), nofun, fun _ _ _ => nofun⟩, rfl, rfl⟩
  obtain ⟨as, s, m, hrun, hq, hm⟩ := hrun
  exact ⟨as, s, m, hrun, udp_replies_reach_sender (by decide) hrun hq hm⟩

set_option maxRecDepth 20000 in
/-- The reply is created before the loop has stored the port and the socket. -/
theorem early_reply_without_sender : ∃ as s m,
    Run (UdpStep udpServer) {} as s ∧ s.replies 2 = some plainClient ∧
      s.pool.objects 2 = some m ∧ m.sourcePort = -1 ∧ m.udpSocketHandle = -1 ∧
      ¬ (m.sourcePort = plainClient.sinPort ∧ m.udpSocketHandle = udpServer.serverSocketfd) := by
  have hrun : ∃ as s m, Run (UdpStep udpServer) {} as s ∧ s.replies 2 = some plainClient ∧
      s.pool.objects 2 = some m ∧ m.sourcePort = -1 ∧ m.udpSocketHandle = -1 :=
    ⟨_, _, _, (Run.nil.snoc (UdpStep.first waitingDatagram rfl rfl (by decide) rfl rfl rfl rfl rfl)).snoc
      (UdpStep.replyTo 1 2 rfl rfl rfl rfl (by decide)), rfl, rfl, rfl, rfl⟩
  obtain ⟨as, s, m, hrun, hq, hm, hport, hfd⟩ := hrun
  refine ⟨as, s, m, hrun, hq, hm, hport, hfd, fun h => ?_⟩
  exact absurd (hport.symm.trans h.1) (by decide)

end MsgCourier
