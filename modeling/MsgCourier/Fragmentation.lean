import MsgCourier.InboundContent
import MsgCourier.WireMessage

/-! The messages of a stream are dispatched one by one, however the stream is cut. -/
namespace MsgCourier
open ListSearch CText ZeroFill

namespace InboundState

variable {s : InboundState} {c : Bytes}

/-! ### One call of the handler -/

/-- The bytes received fit in the buffer of the connection. -/
def RoomForBytes (s : InboundState) (nread : Recv) : Prop :=
  nread.bytes ≠ [] → s.record.buffer.Fits nread.bytes.length

/-- A frame that is complete with the bytes received fits in the buffers of a new message. -/
def RoomForFrame (s : InboundState) (env : InboundEnv) (nread : Recv) : Prop :=
  ∀ (c : Bytes) (p n : ℕ), s.record.buffer.Holds c →
    strstr (c ++ nread.bytes) crlfcrlf = some p →
    (frameAt (c ++ nread.bytes) p).protocol.Framed →
    (frameAt (c ++ nread.bytes) p).msgSize = n → env.pMessage.FitsFrame n

theorem receiveInto_ok [Malloc] (hb : s.record.buffer.Holds c) (now : ℤ) {nread : Recv}
    (hroom : s.RoomForBytes nread) : ∃ b t, receiveInto s.record now nread =
      .ok { s.record with buffer := b, timestamp := t } ∧ b.Holds (c ++ nread.bytes) := by
  match nread with
  | .data (a :: d) =>
    obtain ⟨b, happ, hb', _⟩ := hb.append (a :: d) le_rfl (hroom (List.cons_ne_nil _ _))
    rw [List.take_length] at hb'
    refine ⟨b, now, ?_, hb'⟩
    rw [receiveInto, happ]
    rfl
  | .data [] | .wouldBlock | .failed =>
    refine ⟨s.record.buffer, s.record.timestamp, rfl, ?_⟩
    rwa [Recv.bytes, List.append_nil]

theorem roomForBytes_of_ok [Malloc] (hb : s.record.buffer.Holds c) {now : ℤ} {nread : Recv}
    {r : ConnectionRecord} (hlen : nread.bytes.length ≤ cliMaxBufSize)
    (hok : receiveInto s.record now nread = .ok r) : s.RoomForBytes nread := by
  intro hne
  match nread with
  | .data (a :: d) =>
    rw [receiveInto, bind_eq_ok] at hok
    obtain ⟨⟨rc, b⟩, happ, _⟩ := hok
    have hmax : (((a :: d).length : ℕ) : ℤ) ≤ intMax := by
      have hd : (a :: d).length ≤ 16384 := hlen
      unfold intMax
      omega
    exact hb.fits_of_append (Nat.succ_pos _) le_rfl hmax happ
  | .data [] | .wouldBlock | .failed => exact absurd rfl hne

theorem find_header {b : Buffer} (hb : b.Holds c) : ∃ b', b'.Holds c ∧
    b.find crlfcrlf 0 = .ok ((strstr c crlfcrlf).elim (-1) (fun k => (k : ℤ)), b') := by
  by_cases hc : c = []
  · subst hc
    exact ⟨b, hb, hb.find_empty _ _⟩
  · obtain ⟨b', hs, hfind⟩ := hb.find hc crlfcrlf (Nat.zero_le _)
    refine ⟨b', hs.holds, ?_⟩
    simpa using hfind

/-- What a call leaves when it dispatches nothing. -/
def Waiting (s t : InboundState) (c : Bytes) : Prop :=
  t.record.buffer.Holds c ∧ t.dispatched = s.dispatched ∧ t.handler.bCloseConnection = false

/-- What a call leaves when it dispatches a frame of `n` bytes. -/
def Took (s t : InboundState) (c : Bytes) (n : ℕ) : Prop :=
  t.record.buffer.Holds (c.drop n) ∧ t.handler.bCloseConnection = false ∧
    ∃ m, t.dispatched = s.dispatched ++ [m] ∧ m.msgBuffer.Sealed (c.take n) ∧
      m.msgRawBuffer.Sealed (c.take n)

/-- A call that fits the bytes it receives comes to the search for the end of the header. -/
theorem handleConnection_eq [Malloc] (hb : s.record.buffer.Holds c) (env : InboundEnv)
    {nread : Recv} (hroom : s.RoomForBytes nread) (hn : nread ≠ .failed) :
    ∃ b t, b.Holds (c ++ nread.bytes) ∧
      s.handleConnection env nread =
        if strstr (c ++ nread.bytes) crlfcrlf = none then
          .ok (handlerOk, { s with
            handler := { s.handler with bCloseConnection := false }
            record := { s.record with timestamp := t, buffer := b } })
        else { s with record := { s.record with timestamp := t, buffer := b } }.runTask env false := by
  obtain ⟨b, t, hrecv, hb₁⟩ := receiveInto_ok hb env.now hroom
  obtain ⟨b₁, hb₂, hfind⟩ := find_header hb₁
  refine ⟨b₁, t, hb₂, ?_⟩
  rw [handleConnection, hrecv, ok_bind]
  dsimp only
  rw [hfind, ok_bind, decide_eq_false hn]
  cases strstr (c ++ nread.bytes) crlfcrlf with
  | none => rfl
  | some p =>
    exact (if_neg (show ¬ (p : ℤ) = -1 by omega)).trans (if_neg (by simp)).symm

theorem runTask_waiting [Malloc] (hb : s.record.buffer.Holds c) (env : InboundEnv) {p : ℕ}
    (hp : strstr c crlfcrlf = some p) (hf : (frameAt c p).protocol = .insufficientData) :
    ∃ rc t, s.runTask env false = .ok (rc, t) ∧ s.Waiting t c := by
  obtain ⟨b', h', ha, hs, _⟩ := analyzeProtocol_some s.handler hb hp
  have hproc : s.process env = .ok (handlerParseNotReady, s.framedState h' b') := by
    rw [process, ha, ok_bind, hf]
    rfl
  rw [runTask, hproc, ok_bind]
  exact ⟨_, _, rfl, hs.holds, rfl, rfl⟩

theorem runTask_took [Malloc] (hb : s.record.buffer.Holds c) (env : InboundEnv) {p n : ℕ}
    (hp : strstr c crlfcrlf = some p) (hf : (frameAt c p).protocol.Framed)
    (hn : (frameAt c p).msgSize = n) (hpn : p+4 ≤ n) (hm : env.pMessage.Sound)
    (hfit : env.pMessage.FitsFrame n) :
    ∃ rc t, s.runTask env false = .ok (rc, t) ∧ s.Took t c n := by
  have hcases : ((frameAt c p).protocol = .httpGet ∨ (frameAt c p).protocol = .httpPost) ∨
      (frameAt c p).protocol = .mcp := by
    rcases hf with h | h | h
    · exact Or.inl (Or.inl h)
    · exact Or.inl (Or.inr h)
    · exact Or.inr h
  rcases hcases with hf | hf
  · obtain ⟨h', m, b, hproc, hparsed, hb', _⟩ := s.process_http env hb hp hf hn hpn hm hfit
    rw [runTask, hproc, ok_bind]
    refine ⟨_, _, rfl, hb', rfl, _, rfl, ?_, ?_⟩
    · rw [httpReply, Msg.dispatchMsg_msgBuffer]
      exact hparsed.msgBuffer
    · rw [httpReply, Msg.dispatchMsg_msgRawBuffer]
      exact hparsed.msgRawBuffer
  · obtain ⟨h', m, b, hproc, hparsed, hb', _⟩ := s.process_mcp env hb hp hf hn hpn hm hfit
    rw [runTask, hproc, ok_bind]
    refine ⟨_, _, rfl, hb', rfl, _, rfl, ?_, ?_⟩
    · rw [Msg.dispatchMsg_msgBuffer]
      exact hparsed.msgBuffer
    · rw [Msg.dispatchMsg_msgRawBuffer]
      exact hparsed.msgRawBuffer

/-- A call that returns had room for what it received and took. -/
theorem room_of_ok [Malloc] (hb : s.record.buffer.Holds c) {env : InboundEnv} {nread : Recv}
    (hm : env.pMessage.Sound) (hn : nread ≠ .failed) (hlen : nread.bytes.length ≤ cliMaxBufSize)
    {r : ℤ × InboundState} (hok : s.handleConnection env nread = .ok r) :
    s.RoomForBytes nread ∧ s.RoomForFrame env nread := by
  have hbytes : s.RoomForBytes nread := by
    rw [handleConnection, bind_eq_ok] at hok
    obtain ⟨rec, hrecv, _⟩ := hok
    exact roomForBytes_of_ok hb hlen hrecv
  refine ⟨hbytes, ?_⟩
  intro c' p n hc' hp hf hsize
  obtain rfl := hb.unique hc'
  obtain ⟨b, t, hb', heq⟩ := handleConnection_eq hb env hbytes hn
  rw [heq, if_neg (by rw [hp]; simp), runTask, bind_eq_ok] at hok
  obtain ⟨⟨rc, s₂⟩, hproc, _⟩ := hok
  obtain ⟨s₁, request, m, m', b₁, h⟩ := tookFrame_of_process _ env hb' hp hf hm hproc
  exact h.fitsFrame hp hf hsize

/-! ### A turn, for a stream of well-formed messages -/

/-- `recv` gives bytes of a readable descriptor, at most a block of them, or would block. -/
structure InboundEvent.Ok (e : InboundEvent) : Prop where
  sound : e.env.pMessage.Sound
  nread : e.nread ≠ .failed
  fdIsSet : e.nread.bytes ≠ [] → e.fdIsSet = true
  length : e.nread.bytes.length ≤ cliMaxBufSize

/-- Room for what an offered record receives and for the frame it then holds. -/
def Room (s : InboundState) (e : InboundEvent) : Prop :=
  s.offered e.fdIsSet = true → s.RoomForBytes e.nread ∧ s.RoomForFrame e.env e.nread

/-- The bytes of the messages on the stream. -/
def wire (ws : List WireMsg) : Bytes := (ws.map WireMsg.frame).flatten

/-- A turn takes the first message when all of it has arrived, and nothing otherwise. -/
inductive Turn (s t : InboundState) (c future : Bytes) : List WireMsg → List WireMsg → Prop
  | took {w : WireMsg} {ws : List WireMsg} {rest : Bytes} {m : Msg} :
      t.record.buffer.Holds rest → rest ++ future = wire ws →
      t.dispatched = s.dispatched ++ [m] → m.msgBuffer.Sealed w.frame →
      m.msgRawBuffer.Sealed w.frame → Turn s t c future (w :: ws) ws
  | waits {ws : List WireMsg} :
      t.record.buffer.Holds c → t.dispatched = s.dispatched →
      (∀ w ∈ ws.head?, c.length < w.frame.length) → Turn s t c future ws ws

theorem handleConnection_turn [Malloc] (hb : s.record.buffer.Holds c) {e : InboundEvent} (he : e.Ok)
    {ws : List WireMsg} {future : Bytes} (hws : c ++ e.nread.bytes ++ future = wire ws)
    (hroom : s.RoomForBytes e.nread ∧ s.RoomForFrame e.env e.nread) :
    ∃ rc t ws', s.handleConnection e.env e.nread = .ok (rc, t) ∧
      t.handler.bCloseConnection = false ∧ Turn s t (c ++ e.nread.bytes) future ws ws' := by
  obtain ⟨b, ts, hb', heq⟩ := handleConnection_eq hb e.env hroom.1 he.nread
  have hwait (h : strstr (c ++ e.nread.bytes) crlfcrlf = none)
      (hw : ∀ w ∈ ws.head?, (c ++ e.nread.bytes).length < w.frame.length) :
      ∃ rc t ws', s.handleConnection e.env e.nread = .ok (rc, t) ∧
        t.handler.bCloseConnection = false ∧ Turn s t (c ++ e.nread.bytes) future ws ws' := by
    rw [heq, if_pos h]
    exact ⟨_, _, ws, rfl, rfl, Turn.waits hb' rfl hw⟩
  cases ws with
  | nil =>
    -- nothing is left on the stream
    have hnil : c ++ e.nread.bytes = [] := (List.append_eq_nil_iff.mp hws).1
    exact hwait (by rw [hnil]; rfl) (by simp)
  | cons w ws =>
    have hstream : c ++ e.nread.bytes ++ future = w.frame ++ wire ws := hws
    rcases Nat.lt_or_ge (c ++ e.nread.bytes).length w.frame.length with hlt | hge
    · -- the first message is still incomplete
      have htake : c ++ e.nread.bytes = w.frame.take (c ++ e.nread.bytes).length := by
        have h := congrArg (List.take (c ++ e.nread.bytes).length) hstream
        rwa [List.take_left, List.take_append_of_le_length hlt.le] at h
      have hw : ∀ w' ∈ (w :: ws).head?, (c ++ e.nread.bytes).length < w'.frame.length := by
        intro w' hw'
        obtain rfl := Option.some.inj hw'
        exact hlt
      rcases w.frameAt_take hlt with hnone | ⟨hp, hins⟩
      · exact hwait (by rw [htake]; exact hnone) hw
      · rw [← htake] at hp hins
        rw [heq, if_neg (by rw [hp]; simp)]
        obtain ⟨rc, t, hrun, ht⟩ := runTask_waiting
          (s := { s with record := { s.record with timestamp := ts, buffer := b } }) hb' e.env hp hins
        exact ⟨rc, t, w :: ws, hrun, ht.2.2, Turn.waits ht.1 ht.2.1 hw⟩
    · -- the first message is complete
      obtain ⟨rest, hrest⟩ : ∃ rest, c ++ e.nread.bytes = w.frame ++ rest := by
        have hpre : w.frame <+: c ++ e.nread.bytes ++ future := by
          rw [hstream]
          exact List.prefix_append _ _
        obtain ⟨rest, hrest⟩ :=
          List.prefix_of_prefix_length_le hpre (List.prefix_append _ _) hge
        exact ⟨rest, hrest.symm⟩
      have hp := w.strstr_frame rest
      obtain ⟨hproto, hsize⟩ := w.frameAt_frame rest
      rw [← hrest] at hp hproto hsize
      have hf : (frameAt (c ++ e.nread.bytes) w.header.length).protocol.Framed := by
        rw [hproto]
        cases w.kind
        · exact Or.inl rfl
        · exact Or.inr (Or.inl rfl)
        · exact Or.inr (Or.inr rfl)
      have hlen := w.length_frame
      rw [heq, if_neg (by rw [hp]; simp)]
      obtain ⟨rc, t, hrun, hdrop, hclose, m, hdisp, hmb, hmr⟩ := runTask_took
        (s := { s with record := { s.record with timestamp := ts, buffer := b } }) hb' e.env hp hf
        hsize (by omega) he.sound (hroom.2 c _ _ hb hp hf hsize)
      rw [hrest, List.take_left] at hmb hmr
      rw [hrest, List.drop_left] at hdrop
      refine ⟨rc, t, ws, hrun, hclose, Turn.took hdrop ?_ hdisp hmb hmr⟩
      rw [hrest, List.append_assoc, List.append_cancel_left_eq] at hstream
      exact hstream

theorem inboundTask_turn [Malloc] (hb : s.record.buffer.Holds c) {e : InboundEvent} (he : e.Ok)
    {ws : List WireMsg} {future : Bytes} (hws : c ++ e.nread.bytes ++ future = wire ws)
    (hroom : s.Room e) : ∃ t ws', s.inboundTask e = .ok (t, false) ∧
      Turn s t (c ++ e.nread.bytes) future ws ws' := by
  cases hoff : s.offered e.fdIsSet with
  | true =>
    obtain ⟨rc, t, ws', hok, hclose, hturn⟩ :=
      handleConnection_turn (s := { s with handler := e.handler }) hb he hws (hroom hoff)
    refine ⟨t, ws', ?_, ?_⟩
    · rw [inboundTask, if_pos hoff, hok, ok_bind]
      dsimp only
      rw [hclose]
      rfl
    · cases hturn with
      | took h₁ h₂ h₃ h₄ h₅ => exact Turn.took h₁ h₂ h₃ h₄ h₅
      | waits h₁ h₂ h₃ => exact Turn.waits h₁ h₂ h₃
  | false =>
    -- a record is passed over only when its buffer is empty
    obtain ⟨hset, htail⟩ := Bool.or_eq_false_iff.mp hoff
    have hc : c = [] := by
      have hle := of_decide_eq_false htail
      rw [hb.tail_eq] at hle
      exact List.eq_nil_of_length_eq_zero (by omega)
    have hn : e.nread.bytes = [] := by
      by_contra hne
      rw [he.fdIsSet hne] at hset
      cases hset
    refine ⟨s, ws, by rw [inboundTask, if_neg (by rw [hoff]; decide)]; rfl, Turn.waits ?_ rfl ?_⟩
    · rw [hn, List.append_nil]
      exact hb
    · intro w _
      rw [hn, List.append_nil, hc]
      exact List.length_pos_iff.mpr w.frame_ne_nil

theorem room_of_inboundTask [Malloc] (hb : s.record.buffer.Holds c) {e : InboundEvent} (he : e.Ok)
    {r : InboundState × Bool} (hok : s.inboundTask e = .ok r) : s.Room e := by
  intro hoff
  rw [inboundTask, if_pos hoff, bind_eq_ok] at hok
  obtain ⟨r', hcall, _⟩ := hok
  exact room_of_ok (s := { s with handler := e.handler }) hb he.sound he.nread he.length hcall

/-! ### All turns -/

/-- At every turn there is room for the bytes received and for the frame they complete. -/
def RoomThroughout [Malloc] (s : InboundState) : List InboundEvent → Prop
  | [] => True
  | e :: es => s.Room e ∧ ∀ t, s.inboundTask e = .ok (t, false) → t.RoomThroughout es

/-- The turns end without a close request and with an empty buffer, and they dispatched these
messages in this order, each with exactly its own bytes. -/
def Delivers [Malloc] (s : InboundState) (es : List InboundEvent) (ws : List WireMsg) : Prop :=
  ∃ t ms, s.inboundTasks es = .ok (t, false) ∧ t.record.buffer.Holds [] ∧
    t.dispatched = s.dispatched ++ ms ∧
    List.Forall₂ (fun m w => m.msgBuffer.Sealed w.frame ∧ m.msgRawBuffer.Sealed w.frame) ms ws

def received (es : List InboundEvent) : Bytes := (es.map fun e => e.nread.bytes).flatten

theorem inboundTasks_cons [Malloc] {t : InboundState} {e : InboundEvent} (es : List InboundEvent)
    (h : s.inboundTask e = .ok (t, false)) : s.inboundTasks (e :: es) = t.inboundTasks es := by
  rw [inboundTasks, h, ok_bind]
  rfl

/-- `k` turns bring the bytes; after them a turn for each message is enough. -/
theorem delivers_of_room [Malloc] (es : List InboundEvent) (s : InboundState) (c : Bytes)
    (ws : List WireMsg) (k : ℕ) (hb : s.record.buffer.Holds c) (he : ∀ e ∈ es, e.Ok)
    (hws : c ++ received es = wire ws) (hidle : received (es.drop k) = [])
    (hk : ws.length ≤ (es.drop k).length) (hroom : s.RoomThroughout es) : s.Delivers es ws := by
  induction es generalizing s c ws k with
  | nil =>
    rw [List.drop_nil, List.length_nil, Nat.le_zero, List.length_eq_zero_iff] at hk
    subst hk
    have hc : c = [] := by simpa [received, wire] using hws
    subst hc
    exact ⟨s, [], rfl, hb, (List.append_nil _).symm, List.Forall₂.nil⟩
  | cons e es ih =>
    have hstream : c ++ e.nread.bytes ++ received es = wire ws := by
      rw [← hws, List.append_assoc]
      rfl
    obtain ⟨t, ws', hok, hturn⟩ :=
      inboundTask_turn hb (he e List.mem_cons_self) hstream hroom.1
    have hnext : t.RoomThroughout es := hroom.2 t hok
    have he' : ∀ e ∈ es, e.Ok := fun e' h => he e' (List.mem_cons_of_mem _ h)
    -- what is known of the turns behind this one
    have hidle' : received (es.drop (k-1)) = [] := by
      cases k with
      | zero =>
        have h : e.nread.bytes ++ received es = [] := hidle
        exact (List.append_eq_nil_iff.mp h).2
      | succ k => exact hidle
    rw [Delivers, inboundTasks_cons es hok]
    cases hturn with
    | @took w _ rest m hrest hws' hdisp hmb hmr =>
      have hk' : ws'.length ≤ (es.drop (k-1)).length := by
        simp only [List.length_drop, List.length_cons] at hk ⊢
        omega
      obtain ⟨t', ms, hrun, hempty, hms, hall⟩ :=
        ih t rest ws' (k-1) hrest he' hws' hidle' hk' hnext
      exact ⟨t', m :: ms, hrun, hempty, by rw [hms, hdisp]; simp, List.Forall₂.cons ⟨hmb, hmr⟩ hall⟩
    | waits hrest hdisp hshort =>
      have hk' : ws.length ≤ (es.drop (k-1)).length := by
        cases k with
        | zero =>
          -- all bytes are there, so the first message would be complete
          have hnil : e.nread.bytes ++ received es = [] := hidle
          have hall : c ++ e.nread.bytes = wire ws := by
            rw [← hstream, (List.append_eq_nil_iff.mp hnil).2, List.append_nil]
          cases ws with
          | nil => exact Nat.zero_le _
          | cons w ws =>
            have hlt := hshort w rfl
            rw [hall, wire, List.map_cons, List.flatten_cons, List.length_append] at hlt
            omega
        | succ k =>
          simp only [List.drop_succ_cons] at hk
          exact hk
      obtain ⟨t', ms, hrun, hempty, hms, hall⟩ :=
        ih t _ ws (k-1) hrest he' hstream hidle' hk' hnext
      exact ⟨t', ms, hrun, hempty, by rw [hms, hdisp], hall⟩

/-- Turns that return had room throughout. -/
theorem room_of_inboundTasks [Malloc] (es : List InboundEvent) (s : InboundState) (c : Bytes)
    (ws : List WireMsg) (hb : s.record.buffer.Holds c) (he : ∀ e ∈ es, e.Ok)
    (hws : c ++ received es = wire ws) {r : InboundState × Bool}
    (hok : s.inboundTasks es = .ok r) : s.RoomThroughout es := by
  induction es generalizing s c ws with
  | nil => trivial
  | cons e es ih =>
    have hstream : c ++ e.nread.bytes ++ received es = wire ws := by
      rw [← hws, List.append_assoc]
      rfl
    have hcopy := hok
    rw [inboundTasks, bind_eq_ok] at hcopy
    obtain ⟨r', htask, _⟩ := hcopy
    have hroom := room_of_inboundTask hb (he e List.mem_cons_self) htask
    obtain ⟨t, ws', hok', hturn⟩ := inboundTask_turn hb (he e List.mem_cons_self) hstream hroom
    refine ⟨hroom, fun t' ht' => ?_⟩
    obtain rfl : t = t' := by
      rw [hok', Except.ok.injEq, Prod.mk.injEq] at ht'
      exact ht'.1
    rw [inboundTasks_cons es hok'] at hok
    have he' : ∀ e ∈ es, e.Ok := fun e' h => he e' (List.mem_cons_of_mem _ h)
    cases hturn with
    | took hrest hws' _ _ _ => exact ih t _ _ hrest he' hws' hok
    | waits hrest _ _ => exact ih t _ _ hrest he' hstream hok

/-- A stream that ends below `INT_MAX - 8` has room throughout. -/
theorem room_of_length [Malloc] (es : List InboundEvent) (s : InboundState) (c : Bytes)
    (ws : List WireMsg)
    (hb : s.record.buffer.Holds c) (he : ∀ e ∈ es, e.Ok) (hws : c ++ received es = wire ws)
    (hlen : (c.length : ℤ)+(received es).length+8 ≤ intMax) : s.RoomThroughout es := by
  induction es generalizing s c ws with
  | nil => trivial
  | cons e es ih =>
    have hrec : received (e :: es) = e.nread.bytes ++ received es := rfl
    rw [hrec, List.length_append, Nat.cast_add] at hlen
    have hstream : c ++ e.nread.bytes ++ received es = wire ws := by
      rw [← hws, List.append_assoc]
      rfl
    have hroom : s.Room e := by
      intro _
      refine ⟨fun _ => Or.inr (by rw [hb.tail_eq]; omega), ?_⟩
      intro c' p n hc' hp hf hn
      obtain rfl := hb.unique hc'
      have hle := strstr_le hp
      simp only [crlfcrlf, List.length_cons, List.length_nil] at hle
      have hsize := (frameAt_size_le (p := p) (by omega) (by omega) hf).1
      rw [hn, List.length_append, Nat.cast_add] at hsize
      exact Msg.Sound.fitsFrame (by omega)
    refine ⟨hroom, fun t ht => ?_⟩
    obtain ⟨t', ws', hok, hturn⟩ := inboundTask_turn hb (he e List.mem_cons_self) hstream hroom
    obtain rfl : t' = t := by
      rw [hok, Except.ok.injEq, Prod.mk.injEq] at ht
      exact ht.1
    have he' : ∀ e ∈ es, e.Ok := fun e' h => he e' (List.mem_cons_of_mem _ h)
    cases hturn with
    | @took w _ rest _ hrest hws' _ _ _ =>
      refine ih t' rest ws' hrest he' hws' ?_
      have htot := congrArg List.length (hstream.trans (congrArg (w.frame ++ ·) hws'.symm))
      simp only [List.length_append] at htot
      omega
    | waits hrest _ _ =>
      refine ih t' _ ws hrest he' hstream ?_
      rw [List.length_append, Nat.cast_add]
      omega

/-- A stream of well-formed messages on a new connection, cut in any way and followed by a turn for
each message: the messages are dispatched exactly if there is room at every turn. -/
theorem delivers_iff_room [Malloc] (ws : List WireMsg) (s : InboundState)
    (es idle : List InboundEvent) (hb : s.record.buffer.Holds []) (he : ∀ e ∈ es ++ idle, e.Ok)
    (hws : received es = wire ws)
    (hidle : received idle = []) (hlen : ws.length ≤ idle.length) :
    s.Delivers (es ++ idle) ws ↔ s.RoomThroughout (es ++ idle) := by
  have hall : [] ++ received (es ++ idle) = wire ws := by
    have happ : received (es ++ idle) =
        received es ++ received idle := by
      simp [received]
    rw [happ, hidle, hws, List.append_nil, List.nil_append]
  constructor
  · rintro ⟨t, ms, hok, _⟩
    exact room_of_inboundTasks _ s [] ws hb he hall hok
  · intro hroom
    exact delivers_of_room _ s [] ws es.length hb he hall
      (by rw [List.drop_left]; exact hidle) (by rw [List.drop_left]; exact hlen) hroom

/-! ### Two streams -/

/-- The bytes one by one, each in a turn of its own. -/
def byteEvents (bs : Bytes) : List InboundEvent :=
  bs.map fun b => ⟨plainEnv, {}, true, .data [b]⟩

def idleEvent : InboundEvent := ⟨plainEnv, {}, false, .wouldBlock⟩

theorem received_byteEvents (bs : Bytes) : received (byteEvents bs) = bs := by
  induction bs with
  | nil => rfl
  | cons b bs ih =>
    change b :: received (byteEvents bs) = b :: bs
    rw [ih]

theorem ok_byteEvents (bs : Bytes) : ∀ e ∈ byteEvents bs ++ [idleEvent], e.Ok := by
  intro e he
  rcases List.mem_append.mp he with he | he
  · obtain ⟨b, _, rfl⟩ := List.mem_map.mp he
    exact ⟨Msg.sound_default, by simp, fun _ => rfl, show 1 ≤ 16384 by decide⟩
  · rw [List.mem_singleton.mp he]
    exact ⟨Msg.sound_default, by decide, fun h => absurd rfl h, by decide⟩

/-- `GET / HTTP/1.0` with no other line. -/
def getMessage : WireMsg where
  kind := .get
  lines := [bytes "GET / HTTP/1.0"]
  payload := []
  plain := by decide
  header_end := by decide
  header_length := by decide
  marked := by
    change _ ∧ _
    decide
  sized := rfl
  fits_int := by decide

theorem delivers_iff_room_get :
    (connectionWith []).Delivers (byteEvents getMessage.frame ++ [idleEvent]) [getMessage] := by
  have hb : (connectionWith []).record.buffer.Holds [] := holds_connectionWith (by decide)
  have hws : received (byteEvents getMessage.frame) = wire [getMessage] := by
    rw [received_byteEvents]
    exact (List.append_nil _).symm
  have hroom : (connectionWith []).RoomThroughout (byteEvents getMessage.frame ++ [idleEvent]) :=
    room_of_length _ _ [] [getMessage] hb (ok_byteEvents _)
      (by rw [← hws]; simp [received, idleEvent, Recv.bytes])
      (by decide)
  exact (delivers_iff_room [getMessage] _ _ [idleEvent] hb (ok_byteEvents _) hws rfl le_rfl).mpr hroom

/-- A request of exactly `INT_MAX` bytes. -/
def bigPost : WireMsg where
  kind := .post
  lines := [bytes "POST / HTTP/1.0", bytes "Content-Length: 2147483600"]
  payload := List.replicate 2147483600 0
  plain := by decide
  header_end := by decide
  header_length := by decide
  marked := by
    change _ ∧ _
    decide
  sized := Or.inl ⟨[bytes "POST / HTTP/1.0"], _, [], bytes "2147483600", rfl, by decide, by decide,
    by rw [List.length_replicate]; decide, fun l hl =>
      noLength_of_noColon (by rw [List.mem_singleton.mp hl]; decide)⟩
  fits_int := by rw [List.length_replicate]; decide

/-- Its bytes fit an `int`, but no buffer holds them and a terminator. -/
theorem bigPost_not_delivered :
    ¬ (connectionWith []).Delivers (byteEvents bigPost.frame ++ [idleEvent]) [bigPost] := by
  intro ⟨t, ms, _, _, _, hall⟩
  cases hall with
  | cons hm _ =>
    have hlt := hm.1.holds.length_lt
    rw [bigPost.length_frame] at hlt
    have hlen : bigPost.payload.length = 2147483600 := List.length_replicate
    have hhead : bigPost.header.length = 43 := by decide
    rw [hlen, hhead] at hlt
    exact absurd hlt (by decide)

end InboundState
end MsgCourier
