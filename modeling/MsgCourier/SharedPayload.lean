import MsgCourier.OutboundContent
import MsgCourier.PoolRun

/-! Payload pointers as references: what a deep copy sends while its source is used again. -/
namespace MsgCourier
open ListSearch CText Runs ZeroFill

/-! ### The heap -/

/-- A payload pointer is null or points into the block that the buffer of `owner` has had since its
reallocation number `gen`. -/
inductive PayloadRef
  | null
  | into (owner gen offset : ℕ)
  deriving DecidableEq

def PayloadRef.owner : PayloadRef → Option ℕ
  | .null => none
  | .into owner _ _ => some owner

/-- The pointers are kept beside the messages. `copied` has the payload each copy was made of, until
the copy is sent. -/
structure SharedHeap where
  pool : MsgPool := {}
  gen : ℕ → ℕ := fun _ => 0
  payload : ℕ → PayloadRef := fun _ => .null
  copied : ℕ → Option Bytes := fun _ => none

/-- The message with its pointer at the memory `mem`. -/
def Msg.pointAt (m : Msg) (mem : Option Bytes) : Msg :=
    { m with pPayload := mem.elim .null .foreign }

def blockLength (o : Option Msg) : Option ℕ :=
  o.bind fun m => m.msgBuffer.pBuffer.map List.length

namespace SharedHeap

/-- The memory from a pointer on. A block that was freed must not be read. -/
def read (s : SharedHeap) : PayloadRef → Cxx (Option Bytes)
  | .null => pure none
  | .into p g offset => do
    let m ← s.pool.deref p
    match m.msgBuffer.pBuffer with
    | none => .error .undefined
    | some mem => if s.gen p = g then pure (some (mem.drop offset)) else .error .undefined

/-- The message as the thread that transmits it sees it. -/
def view (s : SharedHeap) (p : ℕ) : Cxx Msg := do
  let m ← s.pool.deref p
  let mem ← s.read (s.payload p)
  pure (m.pointAt mem)

/-- A buffer that grows moves to a new block. -/
def regen (s : SharedHeap) (p : ℕ) (m : Msg) : ℕ → ℕ :=
  if blockLength (s.pool.objects p) = blockLength (some m) then s.gen
  else Function.update s.gen p (s.gen p + 1)

end SharedHeap

inductive HeapAction
  | getMessage (pNew : ℕ) (newID : Bytes) (now : ℤ)
  | change (p : ℕ) (m : Msg)
  | fill (p : ℕ) (m : Msg) (offset : Option ℕ)
  | copy (p pNew : ℕ) (newID : Bytes) (now : ℤ)
  | sent (p : ℕ)
  | flush (currentTime : ℤ)

/-- A message is taken and reset, changed without its payload (`MarkProcessed`, `DispatchMsg` and
the other setters), or filled in any way with its pointer set to its own buffer; a copy of a message
that is still held is made; a copy is sent; the pool is swept. -/
inductive HeapStep [Malloc] : SharedHeap → HeapAction → SharedHeap → Prop
  | getMessage {s : SharedHeap} {pNew p : ℕ} {newID : Bytes} {now : ℤ} {pool : MsgPool} :
      s.pool.objects pNew = none → s.pool.getReusableMessage pNew newID now = .ok (p, pool) →
      HeapStep s (.getMessage pNew newID now)
        ⟨pool, s.gen, Function.update s.payload p .null, Function.update s.copied p none⟩
  | change {s : SharedHeap} {p : ℕ} {m m' : Msg} :
      s.pool.objects p = some m → m'.msgBuffer = m.msgBuffer →
      m'.msgContentLength = m.msgContentLength →
      HeapStep s (.change p m') { s with pool := s.pool.put p m' }
  | fill {s : SharedHeap} {p : ℕ} {m m' : Msg} {offset : Option ℕ} :
      s.pool.objects p = some m →
      HeapStep s (.fill p m' offset) ⟨s.pool.put p m', s.regen p m',
        Function.update s.payload p (offset.elim .null (.into p (s.regen p m' p))),
        Function.update s.copied p none⟩
  | copy {s : SharedHeap} {p q pNew : ℕ} {newID : Bytes} {now : ℤ} {pool : MsgPool}
      {v n n' : Msg} :
      s.view p = .ok v → s.pool.objects pNew = none →
      s.pool.getReusableMessage pNew newID now = .ok (q, pool) → q ≠ p →
      pool.objects q = some n → v.deepCopy n = .ok n' →
      HeapStep s (.copy p pNew newID now) ⟨pool.put q n', s.regen q n',
        Function.update s.payload q (s.payload p), Function.update s.copied q (some v.payloadText)⟩
  | sent {s : SharedHeap} {q : ℕ} :
      HeapStep s (.sent q) { s with copied := Function.update s.copied q none }
  | flush {s : SharedHeap} {currentTime : ℤ} {pool : MsgPool} {examined : List ℕ} :
      s.pool.flushMessages currentTime = .ok (pool, examined) →
      HeapStep s (.flush currentTime) { s with pool }

/-- No copy that is still to be sent points into the buffer of `p`. -/
def SharedHeap.Unshared (s : SharedHeap) (p : ℕ) : Prop :=
  ∀ q, s.copied q ≠ none → q ≠ p → (s.payload q).owner ≠ some p

/-- Until a copy is sent, the buffer it points into is neither written nor freed. -/
def HeapAction.Safe (s : SharedHeap) : HeapAction → Prop
  | .fill p _ _ => s.Unshared p
  | .copy p pNew newID now => ∀ q pool, s.pool.getReusableMessage pNew newID now = .ok (q, pool) →
      s.Unshared q ∧ (s.payload p).owner ≠ some q
  | .flush currentTime => ∀ pool examined, s.pool.flushMessages currentTime = .ok (pool, examined) →
      ∀ q p, s.copied q ≠ none → (s.payload q).owner = some p → pool.objects p ≠ none
  | .getMessage _ _ _ | .change _ _ | .sent _ => True

/-! ### Reading through a pointer -/

namespace Msg

theorem payloadText_pointAt {m m' : Msg} (h : m'.msgContentLength = m.msgContentLength)
    (mem : Option Bytes) : (m'.pointAt mem).payloadText = (m.pointAt mem).payloadText := by
  unfold payloadText pointAt payloadMem
  cases mem <;> simp [h]

theorem deepCopy_contentLength [Malloc] {m n n' : Msg} (h : m.deepCopy n = .ok n') :
    n'.msgContentLength = m.msgContentLength := by
  unfold deepCopy at h
  obtain ⟨n₁, hset, h⟩ := bind_eq_ok.mp h
  unfold setContentPayload at hset
  obtain ⟨r, _, hset⟩ := bind_eq_ok.mp hset
  rw [← Except.ok.inj h, ← Except.ok.inj hset]

end Msg

namespace SharedHeap

variable {s t : SharedHeap}

/-- A pointer reads the same as long as the block of its owner is left alone. -/
theorem read_kept {ref : PayloadRef} {mem : Option Bytes} (h : s.read ref = .ok mem)
    (hkept : ∀ p m, ref.owner = some p → s.pool.objects p = some m → t.gen p = s.gen p ∧
      ∃ m', t.pool.objects p = some m' ∧ m'.msgBuffer.pBuffer = m.msgBuffer.pBuffer) :
    t.read ref = .ok mem := by
  cases ref with
  | null => exact h
  | into p g offset =>
    unfold read at h ⊢
    obtain ⟨m, hm, h⟩ := bind_eq_ok.mp h
    obtain ⟨hgen, m', hm', hblock⟩ := hkept p m rfl (MsgPool.deref_eq_ok hm)
    dsimp only at h ⊢
    rw [MsgPool.deref_some hm', ok_bind, hblock, hgen]
    exact h

theorem view_eq {p : ℕ} {m : Msg} {mem : Option Bytes} (hm : s.pool.objects p = some m)
    (hmem : s.read (s.payload p) = .ok mem) : s.view p = .ok (m.pointAt mem) := by
  rw [view, MsgPool.deref_some hm, ok_bind, hmem, ok_bind, pure_eq_ok]

theorem view_inv {p : ℕ} {v : Msg} (h : s.view p = .ok v) : ∃ m mem, s.pool.objects p = some m ∧
    s.read (s.payload p) = .ok mem ∧ v = m.pointAt mem := by
  unfold view at h
  obtain ⟨m, hm, h⟩ := bind_eq_ok.mp h
  obtain ⟨mem, hmem, h⟩ := bind_eq_ok.mp h
  exact ⟨m, mem, MsgPool.deref_eq_ok hm, hmem, (Except.ok.inj h).symm⟩

theorem regen_of_ne {p q : ℕ} (hq : q ≠ p) (m : Msg) : s.regen p m q = s.gen q := by
  unfold regen
  split_ifs
  · rfl
  · exact Function.update_of_ne hq _ _

end SharedHeap

/-! ### What the steps keep -/

/-- Every copy that is still to be sent reads the payload it was made of. -/
structure HeapInv (s : SharedHeap) : Prop where
  wellFormed : s.pool.WellFormed
  copies : ∀ q bytes m, s.copied q = some bytes → s.pool.objects q = some m →
    ∃ mem, s.read (s.payload q) = .ok mem ∧ (m.pointAt mem).payloadText = bytes

/-- The message at `p` still has the block it had. -/
def SameBlock (s t : SharedHeap) (p : ℕ) : Prop :=
  ∀ m, s.pool.objects p = some m → t.gen p = s.gen p ∧
    ∃ m', t.pool.objects p = some m' ∧ m'.msgBuffer.pBuffer = m.msgBuffer.pBuffer

/-- Nothing has happened to the copy at `q` and to the block it points into. -/
structure CopyKept (s t : SharedHeap) (q : ℕ) (m' : Msg) : Prop where
  copied : t.copied q = s.copied q
  payload : t.payload q = s.payload q
  object : ∃ m, s.pool.objects q = some m ∧ m'.msgContentLength = m.msgContentLength
  block : ∀ p, (s.payload q).owner = some p → SameBlock s t p

namespace HeapInv

variable {s t : SharedHeap}

theorem initial : HeapInv {} where
  wellFormed := ⟨List.nodup_nil, by simp⟩
  copies _ _ _ h := by cases h

theorem copy_kept (hi : HeapInv s) {q : ℕ} {bytes : Bytes} {m' : Msg} (hkept : CopyKept s t q m')
    (hq : t.copied q = some bytes) :
    ∃ mem, t.read (t.payload q) = .ok mem ∧ (m'.pointAt mem).payloadText = bytes := by
  obtain ⟨m, hm, hlen⟩ := hkept.object
  obtain ⟨mem, hmem, htext⟩ := hi.copies q bytes m (hkept.copied ▸ hq) hm
  refine ⟨mem, ?_, (Msg.payloadText_pointAt hlen mem).trans htext⟩
  rw [hkept.payload]
  exact SharedHeap.read_kept hmem fun p m hp hm => hkept.block p hp m hm

theorem keep (hi : HeapInv s) (hw : t.pool.WellFormed)
    (hkeep : ∀ q m', t.copied q ≠ none → t.pool.objects q = some m' → CopyKept s t q m') :
    HeapInv t := by
  refine ⟨hw, fun q bytes m' hq hm' => ?_⟩
  have hne : t.copied q ≠ none := by
    rw [hq]
    exact nofun
  exact hi.copy_kept (hkeep q m' hne hm') hq

/-- Taking a message resets one, which leaves its memory alone, or makes a new one. -/
theorem sameBlock_getMessage {pNew p : ℕ} {newID : Bytes} {now : ℤ} {pool : MsgPool}
    (hnew : s.pool.objects pNew = none)
    (hget : s.pool.getReusableMessage pNew newID now = .ok (p, pool)) (q : ℕ) (m : Msg)
    (hm : s.pool.objects q = some m) :
    ∃ m', pool.objects q = some m' ∧ m'.msgBuffer.pBuffer = m.msgBuffer.pBuffer := by
  rcases MsgPool.getReusableMessage_cases hget with ⟨rest, old, _, hold, rfl⟩ | ⟨_, rfl, rfl⟩
  · by_cases hqp : q = p
    · subst hqp
      rw [hold, Option.some.injEq] at hm
      exact ⟨_, Function.update_self _ _ _, by rw [← hm]; rfl⟩
    · exact ⟨m, (Function.update_of_ne hqp _ _).trans hm, rfl⟩
  · have hqp : q ≠ p := by
      rintro rfl
      rw [hnew] at hm
      cases hm
    exact ⟨m, (Function.update_of_ne hqp _ _).trans hm, rfl⟩

theorem getMessage (hi : HeapInv s) {pNew p : ℕ} {newID : Bytes} {now : ℤ} {pool : MsgPool}
    (hnew : s.pool.objects pNew = none)
    (hget : s.pool.getReusableMessage pNew newID now = .ok (p, pool)) :
    HeapInv ⟨pool, s.gen, Function.update s.payload p .null, Function.update s.copied p none⟩ := by
  obtain ⟨_, hothers⟩ := MsgPool.getReusableMessage_objects hget
  refine hi.keep (hi.wellFormed.getReusableMessage hnew hget) fun q m' hq hm' => ?_
  have hqp : q ≠ p := by
    rintro rfl
    exact hq (Function.update_self _ _ _)
  refine ⟨Function.update_of_ne hqp _ _, Function.update_of_ne hqp _ _, ?_, ?_⟩
  · exact ⟨m', (hothers q hqp).symm.trans hm', rfl⟩
  · exact fun p' _ m hm => ⟨rfl, sameBlock_getMessage hnew hget p' m hm⟩

theorem change (hi : HeapInv s) {p : ℕ} {m m' : Msg} (hm : s.pool.objects p = some m)
    (hbuffer : m'.msgBuffer = m.msgBuffer) (hlen : m'.msgContentLength = m.msgContentLength) :
    HeapInv { s with pool := s.pool.put p m' } := by
  refine hi.keep (hi.wellFormed.put p m') fun q n _ hn => ⟨rfl, rfl, ?_, ?_⟩
  · by_cases hqp : q = p
    · subst hqp
      rw [MsgPool.put_objects_self, Option.some.injEq] at hn
      exact ⟨m, hm, hn ▸ hlen⟩
    · exact ⟨n, (MsgPool.put_objects_of_ne _ hqp m').symm.trans hn, rfl⟩
  · intro p' _ k hk
    refine ⟨rfl, ?_⟩
    by_cases hpp : p' = p
    · subst hpp
      rw [hm, Option.some.injEq] at hk
      exact ⟨m', MsgPool.put_objects_self _ _ _, by rw [hbuffer, hk]⟩
    · exact ⟨k, (MsgPool.put_objects_of_ne _ hpp m').trans hk, rfl⟩

/-- Writing a message to which no other copy points. -/
theorem fill (hi : HeapInv s) {p : ℕ} (m' : Msg) (ref : PayloadRef) (hun : s.Unshared p) :
    HeapInv ⟨s.pool.put p m', s.regen p m', Function.update s.payload p ref,
      Function.update s.copied p none⟩ := by
  refine hi.keep (hi.wellFormed.put p m') fun q n hq hn => ?_
  have hqp : q ≠ p := by
    rintro rfl
    exact hq (Function.update_self _ _ _)
  dsimp only at hq
  rw [Function.update_of_ne hqp] at hq
  refine ⟨Function.update_of_ne hqp _ _, Function.update_of_ne hqp _ _, ?_, ?_⟩
  · exact ⟨n, (MsgPool.put_objects_of_ne _ hqp m').symm.trans hn, rfl⟩
  · intro p' hp' k hk
    have hpp : p' ≠ p := fun h => hun q hq hqp (h ▸ hp')
    exact ⟨SharedHeap.regen_of_ne hpp m', k, (MsgPool.put_objects_of_ne _ hpp m').trans hk, rfl⟩

theorem flush (hi : HeapInv s) {currentTime : ℤ} {pool : MsgPool} {examined : List ℕ}
    (hok : s.pool.flushMessages currentTime = .ok (pool, examined))
    (hsafe : ∀ q p, s.copied q ≠ none → (s.payload q).owner = some p → pool.objects p ≠ none) :
    HeapInv { s with pool } := by
  have hswept := MsgPool.swept_of_flushMessages hi.wellFormed hok
  have hobject (p : ℕ) (m' : Msg) (hm' : pool.objects p = some m') : ∃ m,
      s.pool.objects p = some m ∧ m'.msgBuffer = m.msgBuffer ∧
        m'.msgContentLength = m.msgContentLength := by
    rw [hswept.objects] at hm'
    split_ifs at hm'
    · obtain ⟨m, hm, hsw⟩ := Option.bind_eq_some_iff.mp hm'
      refine ⟨m, hm, ?_⟩
      split_ifs at hsw
      · exact Option.some.inj hsw ▸ ⟨rfl, rfl⟩
      · exact Option.some.inj hsw ▸ ⟨rfl, rfl⟩
    · exact ⟨m', hm', rfl, rfl⟩
  refine hi.keep (hi.wellFormed.flushMessages hok) fun q n hq hn => ⟨rfl, rfl, ?_, ?_⟩
  · obtain ⟨m, hm, _, hlen⟩ := hobject q n hn
    exact ⟨m, hm, hlen⟩
  · intro p hp m hm
    obtain ⟨m', hm'⟩ := Option.ne_none_iff_exists'.mp (hsafe q p hq hp)
    obtain ⟨k, hk, hbuffer, _⟩ := hobject p m' hm'
    rw [hm, Option.some.injEq] at hk
    exact ⟨rfl, m', hm', by rw [hbuffer, hk]⟩

theorem copy [Malloc] (hi : HeapInv s) {p q pNew : ℕ} {newID : Bytes} {now : ℤ} {pool : MsgPool}
    {v n n' : Msg} (hview : s.view p = .ok v) (hnew : s.pool.objects pNew = none)
    (hget : s.pool.getReusableMessage pNew newID now = .ok (q, pool))
    (hcopy : v.deepCopy n = .ok n') (hun : s.Unshared q) (howner : (s.payload p).owner ≠ some q) :
    HeapInv ⟨pool.put q n', s.regen q n', Function.update s.payload q (s.payload p),
      Function.update s.copied q (some v.payloadText)⟩ := by
  obtain ⟨m, mem, hm, hmem, rfl⟩ := SharedHeap.view_inv hview
  have hblock (p' : ℕ) (hp' : p' ≠ q) : SameBlock s ⟨pool.put q n', s.regen q n',
      Function.update s.payload q (s.payload p),
      Function.update s.copied q (some (m.pointAt mem).payloadText)⟩ p' := by
    intro k hk
    obtain ⟨k', hk', hbuffer⟩ := sameBlock_getMessage hnew hget p' k hk
    exact ⟨SharedHeap.regen_of_ne hp' n', k',
      (MsgPool.put_objects_of_ne _ hp' n').trans hk', hbuffer⟩
  refine ⟨(hi.wellFormed.getReusableMessage hnew hget).put q n', fun q' bytes k hq' hk => ?_⟩
  by_cases hqq : q' = q
  · -- the copy itself points where its source does
    subst hqq
    dsimp only at hq' hk ⊢
    rw [Function.update_self, Option.some.injEq] at hq'
    rw [MsgPool.put_objects_self, Option.some.injEq] at hk
    rw [Function.update_self]
    refine ⟨mem, SharedHeap.read_kept hmem fun p' m' hp' hm' => hblock p' ?_ m' hm', ?_⟩
    · rintro rfl
      exact howner hp'
    · have hlen : k.msgContentLength = m.msgContentLength :=
        hk ▸ (Msg.deepCopy_contentLength hcopy).trans rfl
      exact (Msg.payloadText_pointAt hlen mem).trans hq'
  · refine hi.copy_kept (t := ⟨pool.put q n', s.regen q n',
      Function.update s.payload q (s.payload p),
      Function.update s.copied q (some (m.pointAt mem).payloadText)⟩) ?_ hq'
    have hcopied : s.copied q' ≠ none := by
      dsimp only at hq'
      rw [Function.update_of_ne hqq] at hq'
      rw [hq']
      exact nofun
    refine ⟨Function.update_of_ne hqq _ _, Function.update_of_ne hqq _ _, ⟨k, ?_, rfl⟩, ?_⟩
    · obtain ⟨_, hothers⟩ := MsgPool.getReusableMessage_objects hget
      exact (hothers q' hqq).symm.trans ((MsgPool.put_objects_of_ne _ hqq n').symm.trans hk)
    · exact fun p' hp' => hblock p' fun h => hun q' hcopied hqq (h ▸ hp')

theorem sent (hi : HeapInv s) (q : ℕ) :
    HeapInv { s with copied := Function.update s.copied q none } := by
  refine hi.keep hi.wellFormed fun q' m' hq' hm' => ?_
  have hqq : q' ≠ q := by
    rintro rfl
    exact hq' (Function.update_self _ _ _)
  exact ⟨Function.update_of_ne hqq _ _, rfl, ⟨m', hm', rfl⟩, fun p _ m hm => ⟨rfl, m, hm, rfl⟩⟩

theorem step [Malloc] (hi : HeapInv s) {a : HeapAction} (hstep : HeapStep s a t)
    (hsafe : a.Safe s) : HeapInv t := by
  cases hstep with
  | getMessage hnew hget => exact hi.getMessage hnew hget
  | change hm hbuffer hlen => exact hi.change hm hbuffer hlen
  | fill hm => exact hi.fill _ _ hsafe
  | copy hview hnew hget _ _ hcopy =>
    obtain ⟨hun, howner⟩ := hsafe _ _ hget
    exact hi.copy hview hnew hget hcopy hun howner
  | sent => exact hi.sent _
  | flush hok => exact hi.flush hok (hsafe _ _ hok)

end HeapInv

/-! ### What a copy sends -/

theorem formatResponse_payload [Malloc] {h : ConnectionHandlerOutbound} {env : OutboundEnv}
    {m : Msg} {c : Bytes} {b : Buffer} (hr : h.response.Holds c) (hlen : 0 < m.msgContentLength)
    (hmcp : m.msgProtocolType = .mcp) (hb : h.formatResponse env m = .ok b) :
    ∃ header, b.Holds (header ++ m.payloadText) := by
  have hne : m.msgContentLength ≠ 0 := by omega
  by_cases hformat : m.msgFormat = .res ∨ m.msgFormat = .notify
  · refine ⟨m.replyHeader, ConnectionHandlerOutbound.formatResponse_inv hr ?_ hb⟩
    rw [Msg.ownText, if_pos hformat, if_pos hmcp, if_neg hne]
  · refine ⟨m.requestHeader m.contentFields, ConnectionHandlerOutbound.formatResponse_inv hr ?_ hb⟩
    rw [Msg.ownText, if_neg hformat, if_pos hlen]

/-- In a run in which no buffer is written or freed that a copy still points into, every copy is
sent with the payload its source had. -/
theorem copy_keeps_payload [Malloc] {as : List HeapAction} {s : SharedHeap}
    (hrun : Run (fun s a t => HeapStep s a t ∧ a.Safe s) {} as s) {q : ℕ} {bytes : Bytes} {m : Msg}
    (hq : s.copied q = some bytes) (hm : s.pool.objects q = some m) :
    ∃ v, s.view q = .ok v ∧ v.payloadText = bytes ∧
      (∀ mem, v.payloadMem = some mem → 0 ≤ v.msgContentLength →
        mem.take v.msgContentLength.toNat = bytes) ∧
      ∀ (h : ConnectionHandlerOutbound) (env : OutboundEnv) (c : Bytes) (b : Buffer),
        h.response.Holds c → 0 < v.msgContentLength → v.msgProtocolType = .mcp →
        h.formatResponse env v = .ok b → ∃ header, b.Holds (header ++ bytes) := by
  have hi : HeapInv s := hrun.invariant (fun _ _ _ hi hstep => hi.step hstep.1 hstep.2)
    HeapInv.initial
  obtain ⟨mem, hmem, htext⟩ := hi.copies q bytes m hq hm
  refine ⟨m.pointAt mem, SharedHeap.view_eq hm hmem, htext, ?_, ?_⟩
  · intro p hp hlen
    have hne : (m.pointAt mem).msgContentLength ≠ -1 := by omega
    rw [← htext, Msg.payloadText, hp]
    dsimp only
    rw [if_neg hne]
  intro h env c b hr hlen hmcp hb
  obtain ⟨header, hholds⟩ := formatResponse_payload hr hlen hmcp hb
  exact ⟨header, htext ▸ hholds⟩

/-! ### Two runs -/

/-- `SetContentPayload` is a way to fill a message. -/
theorem HeapStep.refill [Malloc] {s : SharedHeap} (p : ℕ) (data : Bytes) {m m' : Msg}
    (hm : s.pool.objects p = some m) (_hset : m.setContentPayload (some data) data.length = .ok m') :
    HeapStep s (.fill p m' (some 0)) ⟨s.pool.put p m', s.regen p m',
      Function.update s.payload p (.into p (s.regen p m' p) 0), Function.update s.copied p none⟩ :=
  HeapStep.fill hm

theorem HeapStep.take [Malloc] {s : SharedHeap} (pNew : ℕ) {p : ℕ} {pool : MsgPool}
    (hnew : s.pool.objects pNew = none) (hget : s.pool.getReusableMessage pNew [] 0 = .ok (p, pool)) :
    HeapStep s (.getMessage pNew [] 0)
      ⟨pool, s.gen, Function.update s.payload p .null, Function.update s.copied p none⟩ :=
  HeapStep.getMessage hnew hget

theorem HeapStep.processed [Malloc] {s : SharedHeap} (p : ℕ) {m : Msg}
    (hm : s.pool.objects p = some m) :
    HeapStep s (.change p m.markProcessed) { s with pool := s.pool.put p m.markProcessed } :=
  HeapStep.change hm rfl rfl

theorem HeapStep.sweep [Malloc] {s : SharedHeap} (currentTime : ℤ) {pool : MsgPool}
    {examined : List ℕ} (hok : s.pool.flushMessages currentTime = .ok (pool, examined)) :
    HeapStep s (.flush currentTime) { s with pool } :=
  HeapStep.flush hok

theorem HeapStep.copyOf [Malloc] {s : SharedHeap} (p pNew : ℕ) {q : ℕ} {pool : MsgPool}
    {v n n' : Msg} (hview : s.view p = .ok v) (hnew : s.pool.objects pNew = none)
    (hget : s.pool.getReusableMessage pNew [] 0 = .ok (q, pool)) (hqp : q ≠ p)
    (hn : pool.objects q = some n) (hcopy : v.deepCopy n = .ok n') :
    HeapStep s (.copy p pNew [] 0) ⟨pool.put q n', s.regen q n',
      Function.update s.payload q (s.payload p), Function.update s.copied q (some v.payloadText)⟩ :=
  HeapStep.copy hview hnew hget hqp hn hcopy

/-- While there are no copies, every buffer may be written. -/
theorem SharedHeap.unshared_of_no_copies {s : SharedHeap} (h : ∀ q, s.copied q = none) (p : ℕ) :
    s.Unshared p := fun q hq => absurd (h q) hq

set_option maxRecDepth 8000 in
theorem copy_keeps_payload_first : ∃ as s v,
    Run (fun s a t => HeapStep s a t ∧ a.Safe s) {} as s ∧ s.view 2 = .ok v ∧
      v.payloadText = bytes "abc" := by
  have hnone (p : ℕ) (f : ℕ → Option Bytes) (hf : ∀ q, f q = none) (q : ℕ) :
      Function.update f p none q = none := by
    rw [Function.update_apply, hf, ite_self]
  have hrun : ∃ as s m, Run (fun s a t => HeapStep s a t ∧ a.Safe s) {} as s ∧
      s.copied 2 = some (bytes "abc") ∧ s.pool.objects 2 = some m := by
    refine ⟨_, _, _, ((Run.nil.snoc ⟨HeapStep.take 1 rfl rfl, trivial⟩).snoc
      ⟨HeapStep.refill 1 (bytes "abc") rfl rfl,
        SharedHeap.unshared_of_no_copies (hnone 1 _ fun _ => rfl) 1⟩).snoc
      ⟨HeapStep.copyOf 1 2 rfl rfl rfl (by decide) rfl rfl, fun q pool hget => ⟨?_, ?_⟩⟩, rfl, rfl⟩
    · exact SharedHeap.unshared_of_no_copies (hnone 1 _ (hnone 1 _ fun _ => rfl)) q
    · -- the copy is a new message, so it cannot own the buffer it is given
      have hq : (2 : ℕ) = q := congrArg Prod.fst (Except.ok.inj hget)
      subst hq
      intro howner
      cases howner
  obtain ⟨as, s, m, hrun, hq, hm⟩ := hrun
  obtain ⟨v, hv, htext, _⟩ := copy_keeps_payload hrun hq hm
  exact ⟨as, s, v, hrun, hv, htext⟩

set_option maxRecDepth 8000 in
/-- The source is marked as processed, swept, taken again and filled before the copy is sent. -/
theorem copy_sends_other_payload : ∃ as s v, Run HeapStep {} as s ∧
    s.copied 2 = some (bytes "abc") ∧ s.view 2 = .ok v ∧ v.payloadText = bytes "xyz" ∧
      v.payloadText ≠ bytes "abc" := by
  have hrun : ∃ as s v, Run HeapStep {} as s ∧
      s.copied 2 = some (bytes "abc") ∧ s.view 2 = .ok v ∧ v.payloadText = bytes "xyz" :=
    ⟨_, _, _, ((((((Run.nil.snoc (HeapStep.take 1 rfl rfl)).snoc
      (HeapStep.refill 1 (bytes "abc") rfl rfl)).snoc
      (HeapStep.copyOf 1 2 rfl rfl rfl (by decide) rfl rfl)).snoc
      (HeapStep.processed 1 rfl)).snoc (HeapStep.sweep 5 rfl)).snoc (HeapStep.take 3 rfl rfl)).snoc
      (HeapStep.refill 1 (bytes "xyz") rfl rfl), rfl, rfl, rfl⟩
  obtain ⟨as, s, v, hrun, hq, hv, htext⟩ := hrun
  refine ⟨as, s, v, hrun, hq, hv, htext, ?_⟩
  rw [htext]
  decide

end MsgCourier
