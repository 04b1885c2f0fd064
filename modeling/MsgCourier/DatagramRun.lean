import MsgCourier.PayloadWindow
import MsgCourier.PoolRun

/-! The receive loop of `cUDPServer` over whole sequences of datagrams. -/
namespace MsgCourier
open ListSearch CText Runs ZeroFill

/-! ### Parsing a datagram -/

/-- The header of `d` ends inside it: its four end bytes start there, and the stale bytes behind `d`
may complete them. -/
def HeaderEnds [Malloc] (b : Buffer) (d : Bytes) : Prop :=
  ∃ k < d.length, firstOcc crlfcrlf (d ++ (dgramBlock b).drop d.length) = some k

/-- A `Parse` that returns found a header end that starts in the content. -/
theorem header_of_parse [Malloc] {m : Msg} {ct : MsgConnectionType} {ms : MsgFormat}
    {newID c mem : Bytes}
    (hm : m.msgBuffer.Holds c) (hblock : m.msgBuffer.pBuffer = some mem) {r : ℤ × Msg}
    (hok : m.parse ct ms newID = .ok r) : ∃ k < c.length, firstOcc crlfcrlf mem = some k := by
  rw [Msg.parse, Msg.logAll_eq_ok, bind_eq_ok] at hok
  obtain ⟨raw, _, hok⟩ := hok
  rw [hblock] at hok
  dsimp only at hok
  rw [bind_eq_ok] at hok
  obtain ⟨line, _, hok⟩ := hok
  split_ifs at hok with hend
  obtain ⟨k, hk, _, hlt⟩ := hm.firstOcc_of_binaryFind hblock hend
  exact ⟨k, hlt, hk⟩

/-- `Parse` returns for an unterminated content exactly if a header end starts in it. -/
theorem parse_unterminated_iff [Malloc] {m : Msg} (ct : MsgConnectionType) (ms : MsgFormat)
    (newID : Bytes) {c junk : Bytes} (hm : m.msgBuffer.Holds c) (hc : c ≠ [])
    (hblock : m.msgBuffer.pBuffer = some (c ++ junk)) (h4 : 4 ≤ (c ++ junk).length)
    (hraw : ∃ r, m.msgRawBuffer.Holds r) (hfit : m.msgRawBuffer.reset.Fits c.length) :
    (∃ r, m.parse ct ms newID = .ok r) ↔
      ∃ k < c.length, firstOcc crlfcrlf (c ++ junk) = some k := by
  constructor
  · intro ⟨r, hok⟩
    exact header_of_parse hm hblock hok
  · intro ⟨k, hlt, hk⟩
    obtain ⟨raw, hraw⟩ := hraw
    obtain ⟨r', hr', _⟩ := hraw.replaceWith (c ++ junk) (n := c.length) (by simp) hfit
    obtain ⟨l, hle, hl⟩ := Msg.firstOcc_crlf_le hk
    have hline := hm.binaryFind_block hblock hl (by omega)
    have hend := hm.binaryFind_block hblock hk hlt
    have hstatus : ∃ s, m.readStatusLine (c ++ junk) l = .ok s := by
      unfold Msg.readStatusLine
      split_ifs
      · exact ⟨_, Msg.assign_take junk (by omega)⟩
      · exact ⟨_, rfl⟩
    obtain ⟨status, hstatus⟩ := hstatus
    obtain ⟨b', hs, hblock', hfind⟩ := hm.find_block hc hblock [32]
    have hlen : 4 ≤ (c ++ 0 :: junk.tail).length := by
      have hj := List.length_pos_iff.mpr (hm.junk_ne_nil hc hblock)
      simp only [List.length_append, List.length_cons, List.length_tail] at h4 ⊢
      omega
    obtain ⟨b'', x, _, hx, _⟩ := m.headerExtract.parse_block hs.holds hc hblock' hlen
    have hcommand : ∃ s, m.readCommand (c ++ 0 :: junk.tail)
        ((strstr (c ++ 0 :: junk.tail) [32]).elim (-1) fun k => (k : ℤ)) = .ok s := by
      cases hspace : strstr (c ++ 0 :: junk.tail) [32] with
      | none => exact ⟨_, rfl⟩
      | some i =>
        have hi := strstr_le hspace
        rw [Option.elim_some, Msg.readCommand, if_pos (by omega)]
        have hassign := Msg.assign_take [] (show i ≤ (c ++ 0 :: junk.tail).length by omega)
        rw [List.append_nil] at hassign
        exact ⟨_, hassign⟩
    obtain ⟨command, hcommand⟩ := hcommand
    have hk1 : ¬ (k : ℤ) = -1 := by omega
    unfold Msg.parse
    simp only [hblock, hm.tail_eq, hr', ok_bind, hline, hstatus, hend, if_neg hk1, hfind, hblock',
      Option.getD_some, hcommand, hx, pure_eq_ok, Msg.logAll]
    exact ⟨_, rfl⟩

/-- `Parse` leaves the content where it is and a copy of it in the raw buffer. -/
theorem parse_content [Malloc] {m : Msg} {ct : MsgConnectionType} {ms : MsgFormat} {newID c : Bytes}
    (hm : m.msgBuffer.Holds c) (hraw : ∃ r, m.msgRawBuffer.Holds r) {r : ℤ × Msg}
    (hok : m.parse ct ms newID = .ok r) :
    r.1 = 0 ∧ c ≠ [] ∧ r.2.msgBuffer.Holds c ∧ r.2.msgRawBuffer.Holds c := by
  have hne : c ≠ [] := by
    rintro rfl
    exact Msg.parse_of_empty m ct ms newID hm.tail_eq r hok
  obtain ⟨junk, hblock⟩ := hm.pBuffer_eq hne
  obtain ⟨k, _, hk⟩ := header_of_parse hm hblock hok
  have hlen := firstOcc_le _ hk
  simp only [crlfcrlf, List.length_cons, List.length_nil] at hlen
  obtain ⟨hrc, hs, _⟩ := parse_unterminated hm hne hblock (by omega) hok
  refine ⟨hrc, hne, hs.holds, ?_⟩
  obtain ⟨raw, hraw⟩ := hraw
  obtain ⟨status, command, x, b, copy, i, rc, hcopy, rfl⟩ := Msg.parse_inv hok
  rw [hblock, hm.tail_eq] at hcopy
  obtain ⟨n, hn, _, hcontent⟩ :=
    hraw.replaceWith_inv (Buffer.lengthArg_natCast (c ++ junk) c.length) hcopy
  rw [← Nat.cast_inj.mp hn, List.take_left] at hcontent
  cases ct <;> exact hcontent

/-! ### One datagram -/

namespace UDPServer

theorem handOver_msgState (x : UDPServer) (server : Bytes) (r : ℤ × Msg) :
    (x.handOver server r).msgState = if r.1 = 0 then .pending else .markForReuse := by
  unfold handOver
  split_ifs <;> rfl

@[simp] theorem noteSender_msgState (x : UDPServer) (client : ClientAddr) (m : Msg) :
    (x.noteSender client m).msgState = m.msgState := by
  unfold noteSender
  split_ifs <;> rfl

theorem handOver_sound (x : UDPServer) (server : Bytes) {r : ℤ × Msg} (hr : r.2.Sound) :
    (x.handOver server r).Sound := by
  unfold handOver
  split_ifs
  · exact ⟨by simpa [Msg.setConnectionType] using hr.msgBuffer,
      by simpa [Msg.setConnectionType] using hr.msgRawBuffer⟩
  · exact ⟨hr.msgBuffer, hr.msgRawBuffer⟩

theorem noteSender_sound (x : UDPServer) (client : ClientAddr) {m : Msg} (hm : m.Sound) :
    (x.noteSender client m).Sound := by
  unfold noteSender
  split_ifs
  · exact ⟨hm.msgBuffer, hm.msgRawBuffer⟩
  · exact hm

/-- A datagram is parsed where it was received, in front of the stale bytes. -/
theorem readDatagram_eq [Malloc] {m : Msg} (hm : m.msgBuffer.Holds []) (d : Bytes)
    (client : ClientAddr) (newID : Bytes) : ∃ b : Buffer, b.Holds (d.take 512) ∧
      b.pBuffer = some (d.take 512 ++ (dgramBlock m.msgBuffer).drop (d.take 512).length) ∧
      512 < (d.take 512 ++ (dgramBlock m.msgBuffer).drop (d.take 512).length).length ∧
      readDatagram m d client newID =
        { m with msgBuffer := b, sourceIP := cstr client.sinAddr }.parse .ibUdp .req newID := by
  obtain ⟨block, hset, hroom, hs, _⟩ := hm.setBufferSize (n := maxDgramSize) (by decide)
    (Or.inr (by decide))
  rw [List.nil_append] at hset hroom hs
  have hblock : dgramBlock m.msgBuffer = block := by
    rw [dgramBlock, hset]
    rfl
  have hle : (d.take 512).length ≤ 512 := List.length_take_le _ _
  unfold maxDgramSize at hroom
  have hst := store_ok (show 0+(d.take 512).length ≤ block.length by omega)
  rw [Nat.cast_zero, List.take_zero, List.nil_append, zero_add] at hst
  have hmem : (d.take 512 ++ block.drop (d.take 512).length).length = block.length := by
    simp only [List.length_append, List.length_drop]
    omega
  have hsmall : ¬ (block.length : ℤ) ≤ (d.take 512).length := by omega
  have hholds := Buffer.Holds.block (d.take 512) (block.drop (d.take 512).length)
    (by rw [ne_eq, List.drop_eq_nil_iff]; omega) (by rw [hmem]; exact hs)
  rw [hmem] at hholds
  refine ⟨_, hholds, by rw [hblock], by rw [hblock, hmem]; omega, ?_⟩
  unfold readDatagram
  rw [hset, ok_bind]
  simp only [Option.getD_some, show maxDgramSize.toNat = 512 from rfl, hst, ok_bind,
    Buffer.setBufferLength, Buffer.setBufferSize, if_neg hsmall, pure_eq_ok]

/-- A datagram comes through exactly if its header ends inside it. -/
theorem readDatagram_iff [Malloc] {m : Msg} (hm : m.Sound) (h0 : m.msgBuffer.Holds []) (d : Bytes)
    (client : ClientAddr) (newID : Bytes) :
    (∃ r, readDatagram m d client newID = .ok r) ↔ HeaderEnds m.msgBuffer (d.take 512) := by
  obtain ⟨b, hholds, hblock, hlen, hread⟩ := readDatagram_eq h0 d client newID
  have hle : (d.take 512).length ≤ 512 := List.length_take_le _ _
  rw [hread, HeaderEnds]
  rcases eq_or_ne (d.take 512) [] with hnil | hne
  · rw [hnil] at hholds ⊢
    constructor
    · intro ⟨r, hr⟩
      exact absurd hr (Msg.parse_of_empty _ _ _ _ hholds.tail_eq r)
    · intro ⟨k, hk, _⟩
      cases hk
  · exact parse_unterminated_iff .ibUdp .req newID hholds hne hblock (by omega)
      hm.msgRawBuffer (Buffer.Holds.fits_reset (by unfold intMax; omega))

theorem readDatagram_sound [Malloc] {m : Msg} (hm : m.Sound) (h0 : m.msgBuffer.Holds []) {d : Bytes}
    {client : ClientAddr} {newID : Bytes} {r : ℤ × Msg}
    (hr : readDatagram m d client newID = .ok r) : r.1 = 0 ∧ r.2.Sound := by
  obtain ⟨b, hholds, _, _, hread⟩ := readDatagram_eq h0 d client newID
  rw [hread] at hr
  obtain ⟨hrc, _, hbuffer, hraw⟩ := parse_content (by exact hholds) (by exact hm.msgRawBuffer) hr
  exact ⟨hrc, ⟨_, hbuffer⟩, ⟨_, hraw⟩⟩

/-- What a pass leaves of a message that was just reset. -/
def Settles (m' : Msg) : Prop :=
  m'.Sound ∧ (m'.msgState = .pending ∨ m'.msgState = .markForReuse)

theorem receive_failed [Malloc] (x : UDPServer) {m : Msg} (hm : m.Sound) (h0 : m.msgBuffer.Holds [])
    (client : ClientAddr) (newID server : Bytes) :
    ∃ m', x.receive m .failed client newID server = .ok m' ∧ Settles m' := by
  obtain ⟨block, hset, _, hs, hne⟩ := h0.setBufferSize (n := maxDgramSize) (by decide)
    (Or.inr (by decide))
  rw [receive, hset, ok_bind]
  exact ⟨_, rfl, ⟨⟨[], Buffer.Holds.block [] block hne hs⟩, hm.msgRawBuffer⟩, Or.inr rfl⟩

/-- An empty datagram leaves the message as it was handed out. -/
theorem receive_empty [Malloc] (x : UDPServer) {m : Msg} (hm : m.Sound) (h0 : m.msgBuffer.Holds [])
    (client : ClientAddr) (newID server : Bytes) :
    ∃ m', x.receive m (.bytes []) client newID server = .ok m' ∧ m'.Sound ∧
      m'.msgState = m.msgState := by
  obtain ⟨block, hset, _, hs, hne⟩ := h0.setBufferSize (n := maxDgramSize) (by decide)
    (Or.inr (by decide))
  rw [receive, hset, ok_bind]
  exact ⟨_, rfl, ⟨⟨[], Buffer.Holds.block [] block hne hs⟩, hm.msgRawBuffer⟩, rfl⟩

theorem receive_denied [Malloc] (x : UDPServer) {m : Msg} (hm : m.Sound) (h0 : m.msgBuffer.Holds [])
    {d : Bytes} (hd : d ≠ []) {client : ClientAddr} (ha : client.allowed = false)
    (newID server : Bytes) :
    ∃ m', x.receive m (.bytes d) client newID server = .ok m' ∧ Settles m' := by
  obtain ⟨block, hset, hroom, hs, hne⟩ := h0.setBufferSize (n := maxDgramSize) (by decide)
    (Or.inr (by decide))
  rw [List.nil_append] at hset hroom hs
  unfold maxDgramSize at hroom
  have hd' : d.take 512 ≠ [] := by
    rw [ne_eq, List.take_eq_nil_iff]
    exact fun h => h.elim (by decide) hd
  have hle : (d.take 512).length ≤ 512 := List.length_take_le _ _
  have hst := store_ok (show 0+(d.take 512).length ≤ block.length by omega)
  rw [Nat.cast_zero, List.take_zero, List.nil_append, zero_add] at hst
  have hmem : (d.take 512 ++ block.drop (d.take 512).length).length = block.length := by
    simp only [List.length_append, List.length_drop]
    omega
  have hholds := Buffer.Holds.block [] (d.take 512 ++ block.drop (d.take 512).length)
    (by simp [hd']) (by rw [List.nil_append, hmem]; exact hs)
  rw [List.nil_append, hmem] at hholds
  rw [receive, hset, ok_bind]
  simp only [Option.getD_some, show maxDgramSize.toNat = 512 from rfl, if_neg hd', hst, ok_bind, ha,
    Bool.not_false, if_true, pure_eq_ok]
  exact ⟨_, rfl, ⟨⟨[], hholds⟩, hm.msgRawBuffer⟩, Or.inr rfl⟩

theorem receive_allowed_iff [Malloc] (x : UDPServer) {m : Msg} (hm : m.Sound)
    (h0 : m.msgBuffer.Holds []) {d : Bytes} (hd : d ≠ []) {client : ClientAddr}
    (ha : client.allowed = true) (newID server : Bytes) :
    (∃ m', x.receive m (.bytes d) client newID server = .ok m') ↔
      HeaderEnds m.msgBuffer (d.take 512) := by
  rw [← readDatagram_iff hm h0 d client newID, x.receive_eq_readDatagram m hd ha newID server]
  constructor
  · intro ⟨m', hok⟩
    obtain ⟨r, hr, _⟩ := bind_eq_ok.mp hok
    exact ⟨r, hr⟩
  · intro ⟨r, hr⟩
    rw [hr, ok_bind]
    exact ⟨_, rfl⟩

theorem receive_allowed_settles [Malloc] (x : UDPServer) {m : Msg} (hm : m.Sound)
    (h0 : m.msgBuffer.Holds []) {d : Bytes} (hd : d ≠ []) {client : ClientAddr}
    (ha : client.allowed = true) {newID server : Bytes} {m' : Msg}
    (hok : x.receive m (.bytes d) client newID server = .ok m') : Settles m' := by
  rw [x.receive_eq_readDatagram m hd ha newID server] at hok
  obtain ⟨r, hr, hm'⟩ := bind_eq_ok.mp hok
  obtain ⟨hrc, hsound⟩ := readDatagram_sound hm h0 hr
  rw [← Except.ok.inj hm']
  refine ⟨x.noteSender_sound client (x.handOver_sound server hsound), Or.inl ?_⟩
  rw [noteSender_msgState, handOver_msgState, if_pos hrc]

end UDPServer

/-! ### The loop -/

/-- What `recvfrom` finds, from whom, and what a pass takes from other components: the address of
a new message, the ids of the message, the clock and the text `name@address` of the server. -/
structure Arrival where
  rc : RecvFrom
  client : ClientAddr
  pNew : ℕ
  newID : Bytes
  parseID : Bytes
  now : ℤ
  server : Bytes

/-- The loop, with the states in which it left the messages it created. -/
structure DatagramLoop where
  pool : MsgPool := {}
  running : Bool := true
  escaped : Option Exn := none
  left : List MsgState := []

/-- One pass behind a `select` that found the socket readable. An empty datagram ends the loop, and
an exception leaves it: nothing in `Run` catches one. -/
def UDPServer.pass [Malloc] (x : UDPServer) (s : DatagramLoop) (a : Arrival) :
    Cxx DatagramLoop := do
  let (p, pool) ← s.pool.getReusableMessage a.pNew a.newID a.now
  let m ← pool.deref p
  match x.receive m a.rc a.client a.parseID a.server with
  | .ok m' => pure { s with
      pool := pool.put p m'
      running := decide (a.rc ≠ .bytes [])
      left := m'.msgState :: s.left }
  | .error e => pure { s with
      pool
      running := false
      escaped := some e
      left := m.msgState :: s.left }

/-- Every message of the pool has usable buffers. -/
def MsgPool.Healthy (x : MsgPool) : Prop := ∀ p m, x.objects p = some m → m.Sound

/-- A pass, or anything the other threads do with the pool in between. -/
inductive DatagramStep [Malloc] (x : UDPServer) :
    DatagramLoop → Option Arrival → DatagramLoop → Prop
  | pass {s t : DatagramLoop} {a : Arrival} :
      s.running = true → x.pass s a = .ok t → DatagramStep x s (some a) t
  | others {s : DatagramLoop} {pool : MsgPool} :
      pool.Healthy → DatagramStep x s none { s with pool }

namespace DatagramLoop

/-- The loop runs, no exception left it, and every message it created went to the queue or is
marked for reuse. -/
structure Survives (s : DatagramLoop) : Prop where
  running : s.running = true
  escaped : s.escaped = none
  left : ∀ state ∈ s.left, state = .pending ∨ state = .markForReuse

/-- The buffer of the message the pool hands out next. -/
def nextBuffer (s : DatagramLoop) : Buffer :=
  match s.pool.freeMsgStack with
  | top :: _ => (s.pool.objects top).elim {} fun m => m.msgBuffer.reset
  | [] => {}

/-- The datagram is not empty and, unless its sender is turned away, its header ends inside it. -/
def Welcome [Malloc] (s : DatagramLoop) (a : Arrival) : Prop :=
  ∀ d, a.rc = .bytes d →
    d ≠ [] ∧ (a.client.allowed = true → HeaderEnds s.nextBuffer (d.take 512))

end DatagramLoop

namespace MsgPool

theorem Healthy.put {x : MsgPool} (hx : x.Healthy) (p : ℕ) {m : Msg} (hm : m.Sound) :
    (x.put p m).Healthy := by
  intro q m' hq
  by_cases hqp : q = p
  · simp only [MsgPool.put, hqp, Function.update_self, Option.some.injEq] at hq
    exact hq ▸ hm
  · simp only [MsgPool.put, Function.update_of_ne hqp] at hq
    exact hx q m' hq

/-- The message handed out is a reset one. -/
theorem Healthy.getReusableMessage {x y : MsgPool} (hx : x.Healthy) {pNew p : ℕ} {newID : Bytes}
    {now : ℤ} (hok : x.getReusableMessage pNew newID now = .ok (p, y)) :
    y.Healthy ∧ ∃ m : Msg, y.objects p = some m ∧ m.Sound ∧ m.msgBuffer.Holds [] ∧
      m.msgState = .inuse ∧ m.msgBuffer = DatagramLoop.nextBuffer { pool := x } := by
  rcases getReusableMessage_cases hok with ⟨rest, m, hs, hm, rfl⟩ | ⟨hs, rfl, rfl⟩
  · obtain ⟨hsound, h0⟩ := (hx p m hm).reuse newID now
    refine ⟨hx.put p hsound, _, Function.update_self _ _ _, hsound, h0, rfl, ?_⟩
    simp only [DatagramLoop.nextBuffer, hs, hm, Option.elim_some]
    rfl
  · obtain ⟨hsound, h0⟩ := Msg.sound_default.reuse newID now
    refine ⟨hx.put p hsound, _, Function.update_self _ _ _, hsound, h0, rfl, ?_⟩
    simp only [DatagramLoop.nextBuffer, hs]
    rfl

end MsgPool

namespace DatagramStep

variable {x : UDPServer} {s t : DatagramLoop} {a : Arrival}

/-- A pass whose datagram comes through. -/
theorem pass_ok [Malloc] (hs : s.Survives) {p : ℕ} {pool : MsgPool} {m m' : Msg}
    (hget : s.pool.getReusableMessage a.pNew a.newID a.now = .ok (p, pool))
    (hm : pool.objects p = some m)
    (hreceive : x.receive m a.rc a.client a.parseID a.server = .ok m') (hok : x.pass s a = .ok t) :
    t.pool = pool.put p m' ∧ (t.Survives ↔
      a.rc ≠ .bytes [] ∧ (m'.msgState = .pending ∨ m'.msgState = .markForReuse)) := by
  have hderef := MsgPool.deref_some hm
  rw [UDPServer.pass, hget, ok_bind] at hok
  dsimp only at hok
  rw [hderef, ok_bind, hreceive] at hok
  rw [← Except.ok.inj hok]
  refine ⟨rfl, ?_⟩
  constructor
  · intro ⟨hrun, _, hleft⟩
    exact ⟨of_decide_eq_true hrun, hleft _ List.mem_cons_self⟩
  · intro ⟨hne, hstate⟩
    refine ⟨decide_eq_true hne, hs.escaped, ?_⟩
    intro state hmem
    rcases List.mem_cons.mp hmem with rfl | hmem
    · exact hstate
    · exact hs.left state hmem

theorem pass_error [Malloc] {p : ℕ} {pool : MsgPool} {m : Msg} {e : Exn}
    (hget : s.pool.getReusableMessage a.pNew a.newID a.now = .ok (p, pool))
    (hm : pool.objects p = some m)
    (hreceive : x.receive m a.rc a.client a.parseID a.server = .error e)
    (hok : x.pass s a = .ok t) : t.pool = pool ∧ ¬ t.Survives := by
  have hderef := MsgPool.deref_some hm
  rw [UDPServer.pass, hget, ok_bind] at hok
  dsimp only at hok
  rw [hderef, ok_bind, hreceive] at hok
  rw [← Except.ok.inj hok]
  exact ⟨rfl, fun h => Bool.false_ne_true h.running⟩

/-- One pass of a loop that has survived so far. -/
theorem pass_survives_iff [Malloc] (hs : s.Survives) (hpool : s.pool.Healthy)
    (hok : x.pass s a = .ok t) : t.pool.Healthy ∧ (t.Survives ↔ s.Welcome a) := by
  have hget := hok
  rw [UDPServer.pass] at hget
  obtain ⟨⟨p, pool⟩, hget, _⟩ := bind_eq_ok.mp hget
  obtain ⟨hhealthy, m, hm, hsound, h0, hstate, hbuffer⟩ := hpool.getReusableMessage hget
  have hnext : m.msgBuffer = s.nextBuffer := hbuffer
  have hsettled (m' : Msg) (hm' : UDPServer.Settles m')
      (hreceive : x.receive m a.rc a.client a.parseID a.server = .ok m')
      (hwelcome : s.Welcome a) (hne : a.rc ≠ .bytes []) :
      t.pool.Healthy ∧ (t.Survives ↔ s.Welcome a) := by
    obtain ⟨hput, hiff⟩ := pass_ok hs hget hm hreceive hok
    refine ⟨hput ▸ hhealthy.put p hm'.1, hiff.trans ?_⟩
    exact ⟨fun _ => hwelcome, fun _ => ⟨hne, hm'.2⟩⟩
  cases hrc : a.rc with
  | failed =>
    obtain ⟨m', hreceive, hm'⟩ := x.receive_failed hsound h0 a.client a.parseID a.server
    rw [← hrc] at hreceive
    refine hsettled m' hm' hreceive ?_ (by rw [hrc]; exact nofun)
    intro d hd
    rw [hrc] at hd
    cases hd
  | bytes d =>
    have hwelcome : s.Welcome a ↔
        d ≠ [] ∧ (a.client.allowed = true → HeaderEnds s.nextBuffer (d.take 512)) := by
      unfold DatagramLoop.Welcome
      rw [hrc]
      simp
    rcases eq_or_ne d [] with rfl | hd
    · -- the empty datagram ends the loop
      obtain ⟨m', hreceive, hm', _⟩ := x.receive_empty hsound h0 a.client a.parseID a.server
      rw [← hrc] at hreceive
      obtain ⟨hput, hiff⟩ := pass_ok hs hget hm hreceive hok
      refine ⟨hput ▸ hhealthy.put p hm', hiff.trans ?_⟩
      rw [hwelcome]
      exact ⟨fun h => absurd hrc h.1, fun h => absurd rfl h.1⟩
    · have hne : a.rc ≠ .bytes [] := by
        rw [hrc]
        exact fun h => hd (RecvFrom.bytes.inj h)
      by_cases ha : a.client.allowed = true
      · have hcomes := x.receive_allowed_iff hsound h0 hd ha a.parseID a.server
        rw [hnext] at hcomes
        cases hreceive : x.receive m (.bytes d) a.client a.parseID a.server with
        | ok m' =>
          have hm' := x.receive_allowed_settles hsound h0 hd ha hreceive
          rw [← hrc] at hreceive
          exact hsettled m' hm' hreceive (hwelcome.mpr ⟨hd, fun _ => hcomes.mp ⟨m', hrc ▸ hreceive⟩⟩)
            hne
        | error e =>
          have hnot : ¬ s.Welcome a := by
            intro h
            obtain ⟨m', hm'⟩ := hcomes.mpr ((hwelcome.mp h).2 ha)
            rw [hreceive] at hm'
            cases hm'
          rw [← hrc] at hreceive
          obtain ⟨hput, hdead⟩ := pass_error hget hm hreceive hok
          exact ⟨hput ▸ hhealthy, ⟨fun h => absurd h hdead, fun h => absurd h hnot⟩⟩
      · obtain ⟨m', hreceive, hm'⟩ := x.receive_denied hsound h0 hd (Bool.eq_false_iff.mpr ha)
          a.parseID a.server
        rw [← hrc] at hreceive
        exact hsettled m' hm' hreceive (hwelcome.mpr ⟨hd, fun h => absurd h ha⟩) hne

/-- A step does not bring a dead loop back. -/
theorem survives_of_survives [Malloc] {a : Option Arrival} (hstep : DatagramStep x s a t)
    (ht : t.Survives) : s.Survives := by
  cases hstep with
  | pass hrun hok =>
    unfold UDPServer.pass at hok
    obtain ⟨⟨p, pool⟩, _, hok⟩ := bind_eq_ok.mp hok
    obtain ⟨m, _, hok⟩ := bind_eq_ok.mp hok
    split at hok
    · rw [← Except.ok.inj hok] at ht
      exact ⟨hrun, ht.escaped, fun state h => ht.left state (List.mem_cons_of_mem _ h)⟩
    · rw [← Except.ok.inj hok] at ht
      exact absurd ht.running Bool.false_ne_true
  | others _ => exact ⟨ht.running, ht.escaped, ht.left⟩

theorem healthy_of_survives [Malloc] {as : List (Option Arrival)} (hpool : s.pool.Healthy)
    (hrun : Run (DatagramStep x) s as t) (ht : t.Survives) : t.pool.Healthy := by
  induction hrun with
  | nil => exact hpool
  | snoc _ hlast ih =>
    have hbefore := hlast.survives_of_survives ht
    cases hlast with
    | pass _ hok => exact (pass_survives_iff hbefore (ih hbefore) hok).1
    | others h => exact h

end DatagramStep

/-- In a loop whose datagrams are all welcome every step keeps it alive. -/
theorem DatagramLoop.survives_step [Malloc] {x : UDPServer} {s t : DatagramLoop}
    {a : Option Arrival} (hs : s.Survives ∧ s.pool.Healthy) (hstep : DatagramStep x s a t)
    (hwelcome : ∀ b, a = some b → s.Welcome b) : t.Survives ∧ t.pool.Healthy := by
  cases hstep with
  | pass _ hok =>
    obtain ⟨hpool, hiff⟩ := DatagramStep.pass_survives_iff hs.1 hs.2 hok
    exact ⟨hiff.mpr (hwelcome _ rfl), hpool⟩
  | others h => exact ⟨⟨hs.1.running, hs.1.escaped, hs.1.left⟩, h⟩

/-- A loop survives exactly the datagrams that are not empty and, unless their sender is turned
away, have the end of their header inside them. -/
theorem datagrams_survived_iff [Malloc] {x : UDPServer} {s t : DatagramLoop}
    {as : List (Option Arrival)}
    (hs : s.Survives) (hpool : s.pool.Healthy) (hrun : Run (DatagramStep x) s as t) :
    t.Survives ↔ Run (fun s a t => DatagramStep x s a t ∧ ∀ b, a = some b → s.Welcome b) s as t := by
  constructor
  · intro ht
    induction hrun with
    | nil => exact Run.nil
    | @snoc as t u a hbefore hlast ih =>
      have hsurvived := hlast.survives_of_survives ht
      refine (ih hsurvived).snoc ⟨hlast, fun b hb => ?_⟩
      subst hb
      cases hlast with
      | pass _ hok =>
        have hhealthy := DatagramStep.healthy_of_survives hpool hbefore hsurvived
        exact (DatagramStep.pass_survives_iff hsurvived hhealthy hok).2.mp ht
  · intro h
    have hkeep : ∀ u a v, u.Survives ∧ u.pool.Healthy →
        (DatagramStep x u a v ∧ ∀ b, a = some b → u.Welcome b) → v.Survives ∧ v.pool.Healthy :=
      fun u a v hu hstep => DatagramLoop.survives_step hu hstep.1 hstep.2
    exact (h.invariant hkeep ⟨hs, hpool⟩).1

/-! ### Two datagrams -/

def arrivalOf (d : Bytes) : Arrival :=
  ⟨.bytes d, plainClient, 1, bytes "id1", bytes "id2", 0, bytes "mc@10.0.0.1"⟩

theorem MsgPool.healthy_empty : ({} : MsgPool).Healthy := by
  intro p m hm
  have hnone : ({} : MsgPool).objects p = none := rfl
  rw [hnone] at hm
  cases hm

set_option maxRecDepth 8000 in
theorem headerDatagram_pass : ∃ t, DatagramStep ⟨3400, 4⟩ {} (some (arrivalOf headerDatagram)) t :=
  ⟨_, DatagramStep.pass rfl rfl⟩

theorem datagrams_survived_iff_header : ∃ t,
    (t.Survives ↔ Run (fun s a t => DatagramStep ⟨3400, 4⟩ s a t ∧ ∀ b, a = some b → s.Welcome b)
      {} [some (arrivalOf headerDatagram)] t) := by
  obtain ⟨t, hstep⟩ := headerDatagram_pass
  exact ⟨t, datagrams_survived_iff ⟨rfl, rfl, nofun⟩ MsgPool.healthy_empty (Run.nil.snoc hstep)⟩

set_option maxRecDepth 8000 in
/-- A datagram without the end of a header: the assertion of `Parse` throws a `char*`. -/
theorem headless_datagram_escapes : ∃ t,
    Run (DatagramStep ⟨3400, 4⟩) {} [some (arrivalOf (bytes "a\r\nb"))] t ∧
      t.escaped = some .charPtr ∧ t.left = [.inuse] ∧ ¬ t.Survives := by
  have hpass : ∃ t, DatagramStep ⟨3400, 4⟩ {} (some (arrivalOf (bytes "a\r\nb"))) t ∧
      t.running = false ∧ t.escaped = some .charPtr ∧ t.left = [.inuse] :=
    ⟨_, DatagramStep.pass rfl rfl, rfl, rfl, rfl⟩
  obtain ⟨t, hstep, hrun, hescaped, hleft⟩ := hpass
  refine ⟨t, Run.nil.snoc hstep, hescaped, hleft, fun h => ?_⟩
  exact Bool.false_ne_true (hrun.symm.trans h.running)

end MsgCourier
