import MsgCourier.Dispatch
import MsgCourier.Placement
import MsgCourier.PoolRun

/-! A dispatched message is processed once: it waits at one place at a time, and a sweep releases no
message that waits. -/
namespace MsgCourier
open ListSearch CText Runs Placement

/-! ### Spots -/

/-- Where a message is. Beyond the places there are the hands of a producer and of the queue thread,
and a released message is in nobody's hands. -/
inductive Spot
  | released
  | held
  | hand
  | at (place : Place)
  deriving DecidableEq, Repr

namespace Spot

/-- All but the pending and the released messages are in a list. -/
def Listed (spot : Spot) : Prop := spot ≠ .released ∧ spot ≠ .at .pending

/-- What the spot of a message says about its object. -/
def Fits (o : Option Msg) : Spot → Prop
  | .released => ∀ m, o = some m → m.msgState ≠ .pending
  | .at .pending => ∃ m, o = some m ∧ m.msgState = .pending
  | .held | .hand | .at .priority | .at (.job _) | .at .outbound =>
    ∃ m, o = some m ∧ m.msgState = .inuse

theorem fits_of_state {spot : Spot} {m m' : Msg} (h : spot.Fits (some m))
    (hs : m'.msgState = m.msgState) : spot.Fits (some m') := by
  have hex {st : MsgState} (h : ∃ n, some m = some n ∧ n.msgState = st) :
      ∃ n, some m' = some n ∧ n.msgState = st := by
    obtain ⟨n, hn, hst⟩ := h
    rw [Option.some.injEq] at hn
    exact ⟨m', rfl, by rw [hs, hn, hst]⟩
  match spot with
  | .released =>
    intro n hn
    rw [← Option.some.inj hn, hs]
    exact h m rfl
  | .held | .hand | .at .pending | .at .priority | .at (.job _) | .at .outbound => exact hex h

/-- A message that is not released is an object, pending or in use. -/
theorem Fits.exists_of_ne {spot : Spot} {o : Option Msg} (h : spot.Fits o)
    (hne : spot ≠ .released) :
    ∃ m, o = some m ∧ (m.msgState = .pending ∨ m.msgState = .inuse) := by
  match spot with
  | .released => exact absurd rfl hne
  | .at .pending =>
    obtain ⟨m, hm, hs⟩ := h
    exact ⟨m, hm, Or.inl hs⟩
  | .held | .hand | .at .priority | .at (.job _) | .at .outbound =>
    obtain ⟨m, hm, hs⟩ := h
    exact ⟨m, hm, Or.inr hs⟩

theorem Fits.eq_released {spot : Spot} {m : Msg} (h : spot.Fits (some m))
    (hp : m.msgState ≠ .pending) (hi : m.msgState ≠ .inuse) : spot = .released := by
  by_contra hne
  obtain ⟨n, hn, hs⟩ := h.exists_of_ne hne
  rw [Option.some.injEq] at hn
  subst hn
  exact hs.elim hp hi

theorem Fits.eq_pending {spot : Spot} {m : Msg} (h : spot.Fits (some m))
    (hp : m.msgState = .pending) : spot = .at .pending := by
  have hinuse (h : ∃ n, some m = some n ∧ n.msgState = .inuse) : False := by
    obtain ⟨n, hn, hs⟩ := h
    rw [← Option.some.inj hn, hp] at hs
    cases hs
  match spot with
  | .at .pending => rfl
  | .released => exact absurd hp (h m rfl)
  | .held | .hand | .at .priority | .at (.job _) | .at .outbound => exact (hinuse h).elim

end Spot

/-- A message that was handed over is pending or released. -/
theorem Msg.HandedOver.fits {m m' : Msg} (h : m.HandedOver m') :
    ∃ spot : Spot, ¬ spot.Listed ∧ spot.Fits (some m') := by
  have hreleased {n : Msg} (hs : n.msgState ≠ .pending) :
      ∃ spot : Spot, ¬ spot.Listed ∧ spot.Fits (some n) :=
    ⟨.released, fun hl => hl.1 rfl, fun k hk => Option.some.inj hk ▸ hs⟩
  cases h with
  | dispatchMsg server =>
    refine ⟨.at .pending, fun hl => hl.2 rfl, _, rfl, ?_⟩
    rw [Msg.dispatchMsg]
  | putBack => exact ⟨.at .pending, fun hl => hl.2 rfl, _, rfl, rfl⟩
  | markProcessed => exact hreleased nofun
  | dropped => exact hreleased nofun

theorem reuse_fits (m : Msg) (newID : Bytes) (now : ℤ) :
    Spot.held.Fits (some (m.reuse newID now)) := ⟨_, rfl, rfl⟩

/-! ### The pool -/

/-- The objects of the pool fit the spots of the messages, and the stack has released ones. -/
structure PoolAgrees (x : MsgPool) (spot : ℕ → Spot) : Prop where
  wellFormed : x.WellFormed
  nodup : x.freeMsgStack.Nodup
  stack : ∀ p ∈ x.freeMsgStack, ∃ m, x.objects p = some m ∧ m.msgState = .inactive
  fits : ∀ p, (spot p).Fits (x.objects p)

namespace PoolAgrees

variable {x : MsgPool} {spot : ℕ → Spot} {p : ℕ} {m : Msg}

theorem released_of_stack (h : PoolAgrees x spot) (hp : p ∈ x.freeMsgStack) :
    spot p = .released := by
  obtain ⟨m, hm, hs⟩ := h.stack p hp
  have hf := h.fits p
  rw [hm] at hf
  exact hf.eq_released (by rw [hs]; decide) (by rw [hs]; decide)

/-- A message that is not on the stack is changed and gets another spot. -/
theorem put (h : PoolAgrees x spot) (hp : p ∉ x.freeMsgStack) (b : Spot)
    (hfits : b.Fits (some m)) : PoolAgrees (x.put p m) (Function.update spot p b) where
  wellFormed := h.wellFormed.put p m
  nodup := h.nodup
  stack q hq := by
    have hqp : q ≠ p := fun he => hp (he ▸ hq)
    rw [MsgPool.put_objects_of_ne x hqp]
    exact h.stack q hq
  fits q := by
    by_cases hqp : q = p
    · rw [hqp, Function.update_self, MsgPool.put_objects_self]
      exact hfits
    · rw [Function.update_of_ne hqp, MsgPool.put_objects_of_ne x hqp]
      exact h.fits q

/-- A message that keeps its state keeps its spot, on the stack too. -/
theorem change (h : PoolAgrees x spot) (hm : x.objects p = some m) {m' : Msg}
    (hs : m'.msgState = m.msgState) : PoolAgrees (x.put p m') spot where
  wellFormed := h.wellFormed.put p m'
  nodup := h.nodup
  stack q hq := by
    obtain ⟨n, hn, hstate⟩ := h.stack q hq
    by_cases hqp : q = p
    · subst hqp
      rw [hm, Option.some.injEq] at hn
      rw [MsgPool.put_objects_self]
      exact ⟨m', rfl, by rw [hs, hn, hstate]⟩
    · rw [MsgPool.put_objects_of_ne x hqp]
      exact ⟨n, hn, hstate⟩
  fits q := by
    by_cases hqp : q = p
    · subst hqp
      have hf := h.fits q
      rw [hm] at hf
      rw [MsgPool.put_objects_self]
      exact Spot.fits_of_state hf hs
    · rw [MsgPool.put_objects_of_ne x hqp]
      exact h.fits q

/-- Messages may leave the stack. -/
theorem withStack (h : PoolAgrees x spot) {rest : List ℕ} (hsub : rest.Sublist x.freeMsgStack) :
    PoolAgrees { x with freeMsgStack := rest } spot where
  wellFormed := ⟨h.wellFormed.nodup, h.wellFormed.allocated⟩
  nodup := h.nodup.sublist hsub
  stack p hp := h.stack p (hsub.subset hp)
  fits := h.fits

/-- What the pool gives out was released before. -/
theorem getReusableMessage (h : PoolAgrees x spot) {y : MsgPool} {pNew : ℕ} {newID : Bytes}
    {now : ℤ} (hnew : x.objects pNew = none)
    (hok : x.getReusableMessage pNew newID now = .ok (p, y)) :
    spot p = .released ∧ PoolAgrees y (Function.update spot p .held) := by
  have hw := h.wellFormed.getReusableMessage hnew hok
  rcases MsgPool.getReusableMessage_cases hok with ⟨rest, m, hs, hm, rfl⟩ | ⟨hs, rfl, rfl⟩
  · have hrel : spot p = .released :=
      h.released_of_stack (by rw [hs]; exact List.mem_cons_self)
    obtain ⟨htop, _⟩ := List.nodup_cons.mp (hs ▸ h.nodup)
    have hrest := h.withStack (hs ▸ List.sublist_cons_self p rest)
    have hput := hrest.put htop .held (reuse_fits m newID now)
    exact ⟨hrel, hw, hput.nodup, hput.stack, hput.fits⟩
  · have hrel : spot p = .released := by
      by_contra hne
      obtain ⟨n, hn, _⟩ := (h.fits p).exists_of_ne hne
      rw [hnew] at hn
      cases hn
    have htop : p ∉ x.freeMsgStack := by
      rw [hs]
      exact List.not_mem_nil
    have hput := h.put htop .held (reuse_fits {} newID now)
    exact ⟨hrel, hw, hput.nodup, hput.stack, hput.fits⟩

/-- The lock and the cursor are of no account. -/
theorem of_eq (h : PoolAgrees x spot) {y : MsgPool} (hmsgs : y.messages = x.messages)
    (hstack : y.freeMsgStack = x.freeMsgStack) (hobj : y.objects = x.objects) :
    PoolAgrees y spot where
  wellFormed := ⟨hmsgs ▸ h.wellFormed.nodup, by
    rw [hmsgs, hobj]
    exact h.wellFormed.allocated⟩
  nodup := hstack ▸ h.nodup
  stack := by
    rw [hstack, hobj]
    exact h.stack
  fits := by
    rw [hobj]
    exact h.fits

/-- A message that nobody has goes to the stack. -/
theorem returnToPool (h : PoolAgrees x spot) {y : MsgPool} (hp : p ∉ x.freeMsgStack)
    (hspot : spot p = .released) (hok : x.returnToPool p = .ok y) :
    PoolAgrees y spot ∧ y.bLocked = x.bLocked ∧ y.messages = x.messages ∧ y.it = x.it ∧
      y.freeMsgStack = p :: x.freeMsgStack := by
  obtain ⟨m, hm, hy⟩ := bind_eq_ok.mp hok
  obtain rfl := Except.ok.inj hy
  have hfits : Spot.released.Fits (some (m.setMsgState .inactive)) := by
    intro n hn
    rw [← Option.some.inj hn]
    nofun
  have hput := h.put hp .released hfits
  rw [← hspot, Function.update_eq_self] at hput
  refine ⟨⟨⟨hput.wellFormed.nodup, hput.wellFormed.allocated⟩, ?_, ?_, hput.fits⟩,
    rfl, rfl, rfl, rfl⟩
  · exact List.nodup_cons.mpr ⟨hp, h.nodup⟩
  · intro q hq
    rcases List.mem_cons.mp hq with rfl | hq
    · exact ⟨_, MsgPool.put_objects_self x q _, rfl⟩
    · exact hput.stack q hq

end PoolAgrees

namespace MsgPool

variable {x y : MsgPool}

theorem getNext_ok {next : Option ℕ} (hl : x.bLocked = true) (hok : x.getNext = .ok (next, y)) :
    next = x.messages[x.it+1]? ∧ y = x.moveTo (x.it+1) := by
  rcases Nat.lt_or_ge x.it x.messages.length with hlt | hge
  · rw [getNext_of_lt hl hlt] at hok
    obtain ⟨rfl, rfl⟩ := Prod.mk.inj (Except.ok.inj hok)
    exact ⟨rfl, rfl⟩
  · rw [getNext_of_end hl hge] at hok
    cases hok

theorem deleteCurrent_ok (hok : x.deleteCurrent = .ok y) :
    y = { x with messages := x.messages.eraseIdx x.it, it := x.it+1 } := by
  unfold deleteCurrent advance at hok
  split_ifs at hok
  exact (Except.ok.inj hok).symm

end MsgPool

/-! ### The cursor of a sweep -/

/-- The cursor is at the message, and the stack has only messages before it. -/
structure AtCursor (x : MsgPool) (p : ℕ) : Prop where
  current : x.messages[x.it]? = some p
  before : ∀ q ∈ x.freeMsgStack, q ∈ x.messages.take x.it

namespace AtCursor

variable {x : MsgPool} {p : ℕ}

theorem lt (h : AtCursor x p) : x.it < x.messages.length :=
  (List.getElem?_eq_some_iff.mp h.current).1

theorem notMem_take (h : AtCursor x p) (hw : x.WellFormed) : p ∉ x.messages.take x.it := by
  intro hp
  obtain ⟨i, hi, hget⟩ := List.mem_take_iff_getElem.mp hp
  obtain ⟨hlt, hcur⟩ := List.getElem?_eq_some_iff.mp h.current
  have hinj := (List.Nodup.getElem_inj_iff hw.nodup).mp (hget.trans hcur.symm)
  omega

theorem notMem_stack (h : AtCursor x p) (hw : x.WellFormed) : p ∉ x.freeMsgStack :=
  fun hp => h.notMem_take hw (h.before p hp)

/-- The list around the cursor. -/
theorem split (h : AtCursor x p) :
    x.messages = x.messages.take x.it ++ p :: x.messages.drop (x.it+1) := by
  obtain ⟨hlt, hcur⟩ := List.getElem?_eq_some_iff.mp h.current
  have hdrop := List.drop_eq_getElem_cons hlt
  rw [hcur] at hdrop
  rw [← hdrop, List.take_append_drop]

end AtCursor

/-- A message that nobody has is deleted at the cursor. -/
theorem PoolAgrees.delete {x : MsgPool} {spot : ℕ → Spot} {p : ℕ} (h : PoolAgrees x spot)
    (hcur : AtCursor x p) (hspot : spot p = .released) :
    PoolAgrees ({ x with messages := x.messages.eraseIdx x.it, it := x.it+1 }.free p) spot := by
  have hsplit := hcur.split
  have herase := List.eraseIdx_eq_take_drop_succ x.messages x.it
  have hnodup := h.wellFormed.nodup
  rw [hsplit, List.nodup_middle, List.nodup_cons, ← herase] at hnodup
  have hobj {q : ℕ} (hq : q ≠ p) :
      ({ x with messages := x.messages.eraseIdx x.it, it := x.it+1 }.free p).objects q =
        x.objects q := Function.update_of_ne hq _ _
  refine ⟨⟨hnodup.2, fun q hq => ?_⟩, h.nodup, fun q hq => ?_, fun q => ?_⟩
  · have hne : q ≠ p := fun he => hnodup.1 (he ▸ hq)
    rw [hobj hne]
    exact h.wellFormed.allocated q (List.mem_of_mem_eraseIdx hq)
  · have hne : q ≠ p := fun he => hcur.notMem_stack h.wellFormed (he ▸ hq)
    rw [hobj hne]
    exact h.stack q hq
  · by_cases hq : q = p
    · rw [hq, hspot]
      intro m hm
      have hnone : ({ x with messages := x.messages.eraseIdx x.it, it := x.it+1 }.free p).objects
          p = none := Function.update_self _ _ _
      rw [hnone] at hm
      cases hm
    · rw [hobj hq]
      exact h.fits q

/-- What the queue thread knows at a point of its loops. A message that nobody has while the pool is
locked stays nobody's, and only this thread takes up the pending ones. -/
def QueuePc.Agrees (x : MsgPool) (spot : ℕ → Spot) : QueuePc → Prop
  | .idle | .routing _ | .stopped => True
  | .pendingLook _ | .pendingPush _ | .pendingNext => x.bLocked = true
  | .pendingAct p msgState => x.bLocked = true ∧
    (msgState = .pending → spot p = .at .pending) ∧
    (msgState = .undelivered → ∃ m, x.objects p = some m ∧ m.msgState = .undelivered)
  | .flushLook p => x.bLocked = true ∧ AtCursor x p
  | .flushSwitch p msgState => x.bLocked = true ∧ AtCursor x p ∧
    (msgState ≠ .pending → msgState ≠ .inuse → spot p = .released)
  | .flushRelease p msgState => x.bLocked = true ∧ AtCursor x p ∧
    (msgState ≠ .pending → msgState ≠ .inuse → spot p = .released)
  | .flushNext => x.bLocked = true ∧
    ∀ q ∈ x.freeMsgStack, q ∈ x.messages.take (x.it+1)

/-! ### The invariant -/

/-- The message in the hands of the queue thread. -/
def QueuePc.inHand : QueuePc → List ℕ
  | .pendingPush p | .routing p => [p]
  | .idle | .pendingLook _ | .pendingAct _ _ | .pendingNext | .flushLook _ | .flushSwitch _ _
  | .flushRelease _ _ | .flushNext | .stopped => []

namespace Dispatcher

/-- The messages of the lists. -/
def listOf (s : Dispatcher) : Spot → List ℕ
  | .released | .at .pending => []
  | .held => s.heldMsgs
  | .hand => s.pc.inHand
  | .at .priority => s.priorityQueue
  | .at (.job h) => (s.jobs h).waiting
  | .at .outbound => s.outbound.waiting

theorem advanced_objects (s : Dispatcher) (next : Option ℕ) (pool : MsgPool) (look : ℕ → QueuePc) :
    (s.advanced next pool look).pool.objects = pool.objects := by
  cases next <;> rfl

theorem advanced_freeMsgStack (s : Dispatcher) (next : Option ℕ) (pool : MsgPool)
    (look : ℕ → QueuePc) : (s.advanced next pool look).pool.freeMsgStack = pool.freeMsgStack := by
  cases next <;> rfl

/-- `spot` tells for each message where it is. -/
structure Inv (s : Dispatcher) (spot : ℕ → Spot) : Prop where
  pool : PoolAgrees s.pool spot
  placed : Placed Spot.Listed spot s.listOf
  thread : s.pc.Agrees s.pool spot

theorem Inv.initial : Inv {} fun _ => .released where
  pool := ⟨⟨List.nodup_nil, by simp⟩, List.nodup_nil, by simp, fun p m hm => nomatch hm⟩
  placed b hb := by
    have hnil : listOf {} b = [] := by
      match b with
      | .released | .held | .hand | .at .pending | .at .priority | .at (.job _)
      | .at .outbound => rfl
    rw [hnil]
    exact ⟨List.nodup_nil, fun p => iff_of_false List.not_mem_nil (Ne.symm hb.1).symm.symm⟩
  thread := trivial

variable {s t : Dispatcher} {spot : ℕ → Spot} {p : ℕ} {m m' : Msg}

theorem listOf_setJob (s : Dispatcher) (h : ℕ) (w : WorkQueue) (b : Spot) :
    (s.setJob h w).listOf b = if b = .at (.job h) then w.waiting else s.listOf b := by
  match b with
  | .released | .held | .hand | .at .pending | .at .priority | .at .outbound => rfl
  | .at (.job k) =>
    by_cases hk : k = h
    · subst hk
      rw [if_pos rfl, listOf, setJob]
      dsimp only
      rw [Function.update_self]
    · have hne : Spot.at (.job k) ≠ .at (.job h) := by simpa using hk
      rw [if_neg hne, listOf, setJob]
      dsimp only
      rw [Function.update_of_ne hk, listOf]

namespace Inv

/-- A listed message is in use. -/
theorem inuse (hi : s.Inv spot) (hl : (spot p).Listed) (hm : s.pool.objects p = some m) :
    m.msgState = .inuse := by
  have hf := hi.pool.fits p
  rw [hm] at hf
  obtain ⟨n, hn, hs⟩ := hf.exists_of_ne hl.1
  rw [Option.some.injEq] at hn
  subst hn
  refine hs.resolve_left fun hp => ?_
  exact hl.2 (hf.eq_pending hp)

theorem notMem_stack (hi : s.Inv spot) (hp : spot p ≠ .released) : p ∉ s.pool.freeMsgStack :=
  fun h => hp (hi.pool.released_of_stack h)

end Inv

end Dispatcher

/-- What another thread does to a message it has leaves the queue thread what it knows. -/
theorem QueuePc.Agrees.put {pc : QueuePc} {x : MsgPool} {spot : ℕ → Spot} {p : ℕ} {m : Msg}
    (h : pc.Agrees x spot) (hl : (spot p).Listed)
    (hm : x.objects p = some m) (hinuse : m.msgState = .inuse) (m' : Msg) (b : Spot) :
    pc.Agrees (x.put p m') (Function.update spot p b) := by
  have hspot {q : ℕ} {c : Spot} (hc : ¬ c.Listed) (hq : spot q = c) :
      Function.update spot p b q = c := by
    have hne : q ≠ p := fun he => hc (hq ▸ he ▸ hl)
    rw [Function.update_of_ne hne, hq]
  have hpending : ¬ (Spot.at .pending).Listed := fun h => h.2 rfl
  have hreleased : ¬ Spot.released.Listed := fun h => h.1 rfl
  match pc with
  | .idle | .routing _ | .stopped => trivial
  | .pendingLook _ | .pendingPush _ | .pendingNext => exact h
  | .pendingAct q msgState =>
    refine ⟨h.1, fun hs => hspot hpending (h.2.1 hs), fun hs => ?_⟩
    obtain ⟨n, hn, hstate⟩ := h.2.2 hs
    have hne : q ≠ p := by
      rintro rfl
      rw [hm, Option.some.injEq] at hn
      rw [← hn, hinuse] at hstate
      cases hstate
    exact ⟨n, by rw [MsgPool.put_objects_of_ne x hne, hn], hstate⟩
  | .flushLook q => exact ⟨h.1, h.2.1, h.2.2⟩
  | .flushSwitch q msgState =>
    exact ⟨h.1, ⟨h.2.1.1, h.2.1.2⟩, fun h₁ h₂ => hspot hreleased (h.2.2 h₁ h₂)⟩
  | .flushRelease q msgState =>
    exact ⟨h.1, ⟨h.2.1.1, h.2.1.2⟩, fun h₁ h₂ => hspot hreleased (h.2.2 h₁ h₂)⟩
  | .flushNext => exact h

theorem QueuePc.Agrees.change {pc : QueuePc} {x : MsgPool} {spot : ℕ → Spot} {p : ℕ} {m m' : Msg}
    (h : pc.Agrees x spot) (hm : x.objects p = some m) (hs : m'.msgState = m.msgState) :
    pc.Agrees (x.put p m') spot := by
  match pc with
  | .idle | .routing _ | .stopped => trivial
  | .pendingLook _ | .pendingPush _ | .pendingNext => exact h
  | .pendingAct q msgState =>
    refine ⟨h.1, h.2.1, fun hq => ?_⟩
    obtain ⟨n, hn, hstate⟩ := h.2.2 hq
    by_cases hqp : q = p
    · subst hqp
      rw [hm, Option.some.injEq] at hn
      exact ⟨m', MsgPool.put_objects_self x q m', by rw [hs, hn, hstate]⟩
    · exact ⟨n, by rw [MsgPool.put_objects_of_ne x hqp, hn], hstate⟩
  | .flushLook q => exact ⟨h.1, ⟨h.2.1, h.2.2⟩⟩
  | .flushSwitch q msgState => exact ⟨h.1, ⟨h.2.1.1, h.2.1.2⟩, h.2.2⟩
  | .flushRelease q msgState => exact ⟨h.1, ⟨h.2.1.1, h.2.1.2⟩, h.2.2⟩
  | .flushNext => exact h

namespace Dispatcher.Inv

variable {s t : Dispatcher} {spot : ℕ → Spot} {p : ℕ} {m m' : Msg}

/-! ### The steps of the other threads -/

/-- A thread hands over a message of its list. -/
theorem leave (hi : s.Inv spot) (hl : (spot p).Listed) (hm : s.pool.objects p = some m)
    {b : Spot} (hb : ¬ b.Listed) (hfits : b.Fits (some m')) (hpool : t.pool = s.pool.put p m')
    (hpc : t.pc = s.pc) (hleave : (p :: t.listOf (spot p)).Perm (s.listOf (spot p)))
    (hother : ∀ c, c ≠ spot p → (t.listOf c).Perm (s.listOf c)) :
    t.Inv (Function.update spot p b) where
  pool := by
    rw [hpool]
    exact hi.pool.put (hi.notMem_stack hl.1) b hfits
  placed := by
    refine hi.placed.move rfl ?_ (fun _ => hleave) (fun hlb => absurd hlb hb) ?_
    · rintro rfl
      exact hb hl
    · intro c _ hc _
      exact hother c hc
  thread := by
    rw [hpool, hpc]
    exact hi.thread.put hl hm (hi.inuse hl hm) m' b

theorem handOver (hi : s.Inv spot) (hp : p ∈ s.heldMsgs) (hm : s.pool.objects p = some m)
    (ho : m.HandedOver m') :
    ∃ spot', Inv { s with pool := s.pool.put p m', heldMsgs := s.heldMsgs.erase p } spot' := by
  obtain ⟨b, hb, hfits⟩ := ho.fits
  have hheld : Spot.held.Listed := ⟨nofun, nofun⟩
  have hspot : spot p = .held := hi.placed.spot_of_mem hheld hp
  refine ⟨_, hi.leave (hspot ▸ hheld) hm hb hfits rfl rfl ?_ ?_⟩
  · rw [hspot]
    exact (List.perm_cons_erase hp).symm
  · rw [hspot]
    intro c hc
    match c with
    | .held => exact absurd rfl hc
    | .released | .hand | .at .pending | .at .priority | .at (.job _) | .at .outbound => rfl

/-- The thread of a handler hands over a message of its queue, or one that it has kept. -/
theorem jobLeave (hi : s.Inv spot) {h : ℕ} {w : WorkQueue}
    (hw : (p :: w.waiting).Perm (s.jobs h).waiting) (hm : s.pool.objects p = some m)
    (ho : m.HandedOver m') :
    ∃ spot', Inv { s.setJob h w with pool := s.pool.put p m' } spot' := by
  obtain ⟨b, hb, hfits⟩ := ho.fits
  have hjob : (Spot.at (.job h)).Listed := ⟨nofun, nofun⟩
  have hin : p ∈ (s.jobs h).waiting := hw.subset List.mem_cons_self
  have hspot : spot p = .at (.job h) := hi.placed.spot_of_mem hjob hin
  refine ⟨_, hi.leave (hspot ▸ hjob) hm hb hfits rfl rfl ?_ ?_⟩
  · rw [hspot]
    change (p :: (s.setJob h w).listOf (.at (.job h))).Perm (s.listOf (.at (.job h)))
    rw [listOf_setJob, if_pos rfl]
    exact hw
  · rw [hspot]
    intro c hc
    change ((s.setJob h w).listOf c).Perm _
    rw [listOf_setJob, if_neg hc]

theorem transmitted (hi : s.Inv spot) {bRet : Bool}
    (hcur : s.outbound.current = some (p, false)) (hm : s.pool.objects p = some m) :
    ∃ spot', Inv { s with
      outbound := s.outbound.handedOver p
      pool := s.pool.put p (m.setMsgState (if bRet then .delivered else .undelivered)) } spot' := by
  have houtbound : (Spot.at .outbound).Listed := ⟨nofun, nofun⟩
  have hw := WorkQueue.waiting_handedOver hcur
  have hspot : spot p = .at .outbound :=
    hi.placed.spot_of_mem houtbound (hw.subset List.mem_cons_self)
  have hfits : Spot.released.Fits
      (some (m.setMsgState (if bRet then .delivered else .undelivered))) := by
    intro n hn
    rw [← Option.some.inj hn]
    cases bRet <;> nofun
  refine ⟨_, hi.leave (hspot ▸ houtbound) hm (fun h => h.1 rfl) hfits rfl rfl ?_ ?_⟩
  · rw [hspot]
    exact hw
  · rw [hspot]
    intro c hc
    match c with
    | .at .outbound => exact absurd rfl hc
    | .released | .held | .hand | .at .pending | .at .priority | .at (.job _) => rfl

theorem getMessage (hi : s.Inv spot) {pNew : ℕ} {newID : Bytes} {now : ℤ} {pool : MsgPool}
    (hlock : s.pool.bLocked = false) (hnew : s.pool.objects pNew = none)
    (hok : s.pool.getReusableMessage pNew newID now = .ok (p, pool)) :
    ∃ spot', Inv { s with pool, heldMsgs := p :: s.heldMsgs } spot' := by
  obtain ⟨hspot, hpool⟩ := hi.pool.getReusableMessage hnew hok
  refine ⟨_, hpool, ?_, ?_⟩
  · refine hi.placed.move hspot nofun (fun hl => absurd rfl hl.1) (fun _ => List.Perm.refl _) ?_
    intro c _ _ hc
    match c with
    | .held => exact absurd rfl hc
    | .released | .hand | .at .pending | .at .priority | .at (.job _) | .at .outbound => rfl
  · -- no loop over the pool is running while it is not locked
    have hthread := hi.thread
    have hfalse (h : s.pool.bLocked = true) : False := by
      rw [hlock] at h
      cases h
    change s.pc.Agrees pool _
    match hpc : s.pc with
    | .idle | .routing _ | .stopped => trivial
    | .pendingLook _ | .pendingPush _ | .pendingNext =>
      rw [hpc] at hthread
      exact (hfalse hthread).elim
    | .pendingAct _ _ | .flushLook _ | .flushSwitch _ _ | .flushRelease _ _ | .flushNext =>
      rw [hpc] at hthread
      exact (hfalse hthread.1).elim

/-- A step that changes only the order of the lists, or lists that are not those of a spot. -/
theorem relist (hi : s.Inv spot) (hpool : t.pool = s.pool) (hpc : t.pc = s.pc)
    (hperm : ∀ c, (t.listOf c).Perm (s.listOf c)) : t.Inv spot where
  pool := by
    rw [hpool]
    exact hi.pool
  placed := hi.placed.perm fun c _ => hperm c
  thread := by
    rw [hpool, hpc]
    exact hi.thread

theorem jobRelist (hi : s.Inv spot) {h : ℕ} {w : WorkQueue}
    (hw : w.waiting.Perm (s.jobs h).waiting) : (s.setJob h w).Inv spot := by
  refine hi.relist rfl rfl fun c => ?_
  rw [listOf_setJob]
  split_ifs with hc
  · rw [hc]
    exact hw
  · exact List.Perm.refl _

theorem outboundRelist (hi : s.Inv spot) {w : WorkQueue}
    (hw : w.waiting.Perm s.outbound.waiting) : Inv { s with outbound := w } spot := by
  refine hi.relist rfl rfl fun c => ?_
  match c with
  | .at .outbound => exact hw
  | .released | .held | .hand | .at .pending | .at .priority | .at (.job _) => rfl

/-! ### The steps of the queue thread -/

/-- The queue thread has no message in its hands, before and after. -/
theorem atPc (hi : s.Inv spot) {pool : MsgPool} {pc : QueuePc} (hhand : s.pc.inHand = [])
    (hpc : pc.inHand = []) (hpool : PoolAgrees pool spot) (hthread : pc.Agrees pool spot) :
    Inv { s with pool, pc } spot where
  pool := hpool
  placed := by
    refine hi.placed.perm fun c _ => ?_
    match c with
    | .hand =>
      change pc.inHand.Perm s.pc.inHand
      rw [hhand, hpc]
    | .released | .held | .at .pending | .at .priority | .at (.job _) | .at .outbound => rfl
  thread := hthread

/-- A loop stands at the next message, or ends. -/
theorem advanced (hi : s.Inv spot) {next : Option ℕ} {pool : MsgPool} {look : ℕ → QueuePc}
    (hhand : s.pc.inHand = []) (hlook : ∀ q, (look q).inHand = [])
    (hpool : PoolAgrees pool spot) (hthread : ∀ q, next = some q → (look q).Agrees pool spot) :
    (s.advanced next pool look).Inv spot := by
  cases next with
  | none => exact hi.atPc hhand rfl (hpool.of_eq rfl rfl rfl) trivial
  | some q => exact hi.atPc hhand (hlook q) hpool (hthread q rfl)

/-- The queue thread takes a message in its hands. -/
theorem intoHand (hi : s.Inv spot) {a : Spot} (hspot : spot p = a) (ha : a ≠ .hand)
    (hhand : s.pc.inHand = []) (hpc : t.pc.inHand = [p])
    (hpool : PoolAgrees t.pool (Function.update spot p .hand))
    (hleave : a.Listed → (p :: t.listOf a).Perm (s.listOf a))
    (hother : ∀ c, c ≠ a → c ≠ .hand → t.listOf c = s.listOf c)
    (hthread : t.pc.Agrees t.pool (Function.update spot p .hand)) :
    t.Inv (Function.update spot p .hand) where
  pool := hpool
  placed := by
    refine hi.placed.move hspot ha hleave (fun _ => ?_) fun c _ hc hc' => ?_
    · change t.pc.inHand.Perm (p :: s.pc.inHand)
      rw [hpc, hhand]
    · rw [hother c hc hc']
  thread := hthread

/-- The queue thread lets the message in its hands go. -/
theorem outOfHand (hi : s.Inv spot) {b : Spot} (hb : b ≠ .hand)
    (hhand : s.pc.inHand = [p]) (hpc : t.pc.inHand = [])
    (hpool : PoolAgrees t.pool (Function.update spot p b))
    (hjoin : b.Listed → t.listOf b = p :: s.listOf b)
    (hother : ∀ c, c ≠ .hand → c ≠ b → t.listOf c = s.listOf c)
    (hthread : t.pc.Agrees t.pool (Function.update spot p b)) :
    t.Inv (Function.update spot p b) where
  pool := hpool
  placed := by
    have hin : p ∈ s.listOf .hand := by
      change p ∈ s.pc.inHand
      rw [hhand]
      exact List.mem_cons_self
    have hlisted : Spot.hand.Listed := ⟨nofun, nofun⟩
    have hspot : spot p = .hand := hi.placed.spot_of_mem hlisted hin
    refine hi.placed.move hspot (Ne.symm hb) (fun _ => ?_) (fun hl => ?_) fun c _ hc hc' => ?_
    · change (p :: t.pc.inHand).Perm s.pc.inHand
      rw [hpc, hhand]
    · rw [hjoin hl]
    · rw [hother c hc hc']
  thread := hthread

theorem spot_inHand (hi : s.Inv spot) (hhand : s.pc.inHand = [p]) : spot p = .hand := by
  have hin : p ∈ s.listOf .hand := by
    change p ∈ s.pc.inHand
    rw [hhand]
    exact List.mem_cons_self
  have hlisted : Spot.hand.Listed := ⟨nofun, nofun⟩
  exact hi.placed.spot_of_mem hlisted hin

theorem at_pc (hi : s.Inv spot) {pc : QueuePc} (hpc : s.pc = pc) : pc.Agrees s.pool spot :=
  hpc ▸ hi.thread

theorem hand_nil (hpc : s.pc = .idle) : s.pc.inHand = [] := by
  rw [hpc]
  rfl

theorem pendingHead (hi : s.Inv spot) {next : Option ℕ} {pool : MsgPool} (hpc : s.pc = .idle)
    (hhead : s.pool.lock.getHead = (next, pool)) :
    (s.advanced next pool .pendingLook).Inv spot := by
  obtain ⟨rfl, rfl⟩ := Prod.mk.inj hhead
  exact hi.advanced (hand_nil hpc) (fun _ => rfl) (hi.pool.of_eq rfl rfl rfl) fun _ _ => rfl

theorem pendingLook (hi : s.Inv spot) (hpc : s.pc = .pendingLook p)
    (hm : s.pool.objects p = some m) :
    Inv { s with pc := .pendingAct p m.msgState } spot := by
  have hf := hi.pool.fits p
  rw [hm] at hf
  refine hi.atPc (by rw [hpc]; rfl) rfl hi.pool ⟨hi.at_pc hpc, hf.eq_pending, fun hs => ?_⟩
  exact ⟨m, hm, hs⟩

theorem pendingInuse (hi : s.Inv spot) (hpc : s.pc = .pendingAct p .pending) :
    Inv { s with pool := s.pool.put p (m.setMsgState .inuse), pc := .pendingPush p }
      (Function.update spot p .hand) := by
  obtain ⟨hlock, hspot, _⟩ := hi.at_pc hpc
  have hp : spot p = .at .pending := hspot rfl
  have hstack : p ∉ s.pool.freeMsgStack := hi.notMem_stack (by rw [hp]; nofun)
  refine hi.intoHand hp nofun (by rw [hpc]; rfl) rfl ?_ (fun hl => absurd rfl hl.2) ?_ hlock
  · exact hi.pool.put hstack .hand ⟨_, rfl, rfl⟩
  · intro c _ hc
    match c with
    | .hand => exact absurd rfl hc
    | .released | .held | .at .pending | .at .priority | .at (.job _) | .at .outbound => rfl

theorem pendingPush (hi : s.Inv spot) (hpc : s.pc = .pendingPush p)
    (hm : s.pool.objects p = some m) :
    Inv { s with priorityQueue := p :: s.priorityQueue, pc := .pendingNext }
      (Function.update spot p (.at .priority)) := by
  have hhand : s.pc.inHand = [p] := by rw [hpc]; rfl
  have hspot := hi.spot_inHand hhand
  have hinuse := hi.inuse (by rw [hspot]; exact ⟨nofun, nofun⟩) hm
  have hpool := hi.pool.put (m := m) (hi.notMem_stack (by rw [hspot]; nofun)) (.at .priority)
    ⟨m, rfl, hinuse⟩
  rw [MsgPool.put_self hm] at hpool
  refine hi.outOfHand nofun hhand rfl hpool (fun _ => rfl) ?_ (hi.at_pc hpc)
  intro c hc hc'
  match c with
  | .hand => exact absurd rfl hc
  | .at .priority => exact absurd rfl hc'
  | .released | .held | .at .pending | .at (.job _) | .at .outbound => rfl

theorem pendingAssert (hi : s.Inv spot) (hpc : s.pc = .pendingPush p)
    (hm : s.pool.objects p = some m) :
    Inv { s with pc := .stopped } (Function.update spot p .released) := by
  have hhand : s.pc.inHand = [p] := by rw [hpc]; rfl
  have hspot := hi.spot_inHand hhand
  have hinuse := hi.inuse (by rw [hspot]; exact ⟨nofun, nofun⟩) hm
  have hfits : Spot.released.Fits (some m) := by
    intro n hn
    rw [← Option.some.inj hn, hinuse]
    nofun
  have hpool := hi.pool.put (hi.notMem_stack (by rw [hspot]; nofun)) .released hfits
  rw [MsgPool.put_self hm] at hpool
  refine hi.outOfHand nofun hhand rfl hpool (fun hl => absurd rfl hl.1) ?_ trivial
  intro c hc _
  match c with
  | .hand => exact absurd rfl hc
  | .released | .held | .at .pending | .at .priority | .at (.job _) | .at .outbound => rfl

/-- A retried message is pending again; otherwise nobody has it. -/
theorem pendingFailed (hi : s.Inv spot) {curtime now : ℤ}
    (hpc : s.pc = .pendingAct p .undelivered) (hm : s.pool.objects p = some m) :
    ∃ spot', Inv { s with
      pool := s.pool.put p (m.failedDelivery curtime now), pc := .pendingNext } spot' := by
  obtain ⟨hlock, _, hundelivered⟩ := hi.at_pc hpc
  obtain ⟨n, hn, hs⟩ := hundelivered rfl
  rw [hm, Option.some.injEq] at hn
  subst hn
  have hf := hi.pool.fits p
  rw [hm] at hf
  have hspot : spot p = .released := hf.eq_released (by rw [hs]; nofun) (by rw [hs]; nofun)
  have hstack : p ∉ s.pool.freeMsgStack := by
    intro hin
    obtain ⟨n, hn, hinactive⟩ := hi.pool.stack p hin
    rw [hm, Option.some.injEq] at hn
    rw [← hn, hs] at hinactive
    cases hinactive
  obtain ⟨b, hb, hfits⟩ : ∃ b : Spot, ¬ b.Listed ∧
    b.Fits (some (m.failedDelivery curtime now)) := by
    by_cases hp : (m.failedDelivery curtime now).msgState = .pending
    · exact ⟨.at .pending, fun hl => hl.2 rfl, _, rfl, hp⟩
    · exact ⟨.released, fun hl => hl.1 rfl, fun k hk => Option.some.inj hk ▸ hp⟩
  refine ⟨Function.update spot p b, hi.pool.put hstack b hfits, ?_, hlock⟩
  have hplaced := hi.placed.unlisted (by rw [hspot]; exact fun hl => hl.1 rfl) hb
  refine hplaced.perm fun c _ => ?_
  match c with
  | .hand =>
    change List.Perm [] s.pc.inHand
    rw [hpc]
    rfl
  | .released | .held | .at .pending | .at .priority | .at (.job _) | .at .outbound => rfl

theorem pendingNext (hi : s.Inv spot) {next : Option ℕ} {pool : MsgPool}
    (hpc : s.pc = .pendingNext) (hok : s.pool.getNext = .ok (next, pool)) :
    (s.advanced next pool .pendingLook).Inv spot := by
  have hlock : s.pool.bLocked = true := hi.at_pc hpc
  obtain ⟨_, rfl⟩ := MsgPool.getNext_ok hlock hok
  exact hi.advanced (by rw [hpc]; rfl) (fun _ => rfl) (hi.pool.of_eq rfl rfl rfl) fun _ _ => hlock

theorem priorityTop (hi : s.Inv spot) (hpc : s.pc = .idle) (hp : p ∈ s.priorityQueue) :
    Inv { s with priorityQueue := s.priorityQueue.erase p, pc := .routing p }
      (Function.update spot p .hand) := by
  have hlisted : (Spot.at .priority).Listed := ⟨nofun, nofun⟩
  have hspot : spot p = .at .priority := hi.placed.spot_of_mem hlisted hp
  obtain ⟨m, hm, _⟩ := (hi.pool.fits p).exists_of_ne (by rw [hspot]; nofun)
  have hinuse := hi.inuse (by rw [hspot]; exact hlisted) hm
  have hpool := hi.pool.put (m := m) (hi.notMem_stack (by rw [hspot]; nofun)) .hand
    ⟨m, rfl, hinuse⟩
  rw [MsgPool.put_self hm] at hpool
  refine hi.intoHand hspot nofun (hand_nil hpc) rfl hpool (fun _ => ?_) ?_ trivial
  · exact (List.perm_cons_erase hp).symm
  · intro c hc hc'
    match c with
    | .hand => exact absurd rfl hc'
    | .at .priority => exact absurd rfl hc
    | .released | .held | .at .pending | .at (.job _) | .at .outbound => rfl

/-- The message in the hands of the queue thread gets another spot and goes to its list. -/
theorem routed (hi : s.Inv spot) (hpc : s.pc = .routing p) (b : Spot) (hb : b ≠ .hand)
    (hfits : b.Fits (some m')) (htpool : t.pool = s.pool.put p m') (htpc : t.pc = .idle)
    (hjoin : b.Listed → t.listOf b = p :: s.listOf b)
    (hother : ∀ c, c ≠ .hand → c ≠ b → t.listOf c = s.listOf c) :
    t.Inv (Function.update spot p b) := by
  have hhand : s.pc.inHand = [p] := by rw [hpc]; rfl
  have hstack := hi.notMem_stack (by rw [hi.spot_inHand hhand]; nofun)
  refine hi.outOfHand hb hhand (by rw [htpc]; rfl) ?_ hjoin hother ?_
  · rw [htpool]
    exact hi.pool.put hstack b hfits
  · rw [htpc]
    trivial

theorem inuse_routed (hi : s.Inv spot) (hpc : s.pc = .routing p)
    (hm : s.pool.objects p = some m) {r : Router} {d : Destination}
    (hroute : m.route r = .ok (d, m')) (hd : d ≠ .nowhere) : m'.msgState = .inuse := by
  have hhand : s.pc.inHand = [p] := by rw [hpc]; rfl
  have hinuse := hi.inuse (by rw [hi.spot_inHand hhand]; exact ⟨nofun, nofun⟩) hm
  rcases Msg.route_ok hroute with ⟨_, hs⟩ | ⟨hn, _⟩
  · rw [hs, hinuse]
  · exact absurd hn hd

theorem toHandler (hi : s.Inv spot) {h : ℕ} {r : Router} (hpc : s.pc = .routing p)
    (hm : s.pool.objects p = some m) (hroute : m.route r = .ok (.handler h, m'))
    (hcur : (s.jobs h).current = none) :
    Inv { s.setJob h ((s.jobs h).push p) with pool := s.pool.put p m', pc := .idle }
      (Function.update spot p (.at (.job h))) := by
  have hinuse := hi.inuse_routed hpc hm hroute nofun
  refine hi.routed hpc (.at (.job h)) nofun ⟨m', rfl, hinuse⟩ rfl rfl (fun _ => ?_) ?_
  · change (s.setJob h ((s.jobs h).push p)).listOf (.at (.job h)) = p :: (s.jobs h).waiting
    rw [listOf_setJob, if_pos rfl, WorkQueue.waiting_push hcur]
  · intro c hc hc'
    have hset := listOf_setJob s h ((s.jobs h).push p) c
    rw [if_neg hc'] at hset
    match c with
    | .hand => exact absurd rfl hc
    | .at (.job k) => exact hset
    | .released | .held | .at .pending | .at .priority | .at .outbound => rfl

theorem toConnectionQueue (hi : s.Inv spot) {r : Router} (hpc : s.pc = .routing p)
    (hm : s.pool.objects p = some m) (hroute : m.route r = .ok (.connectionQueue, m'))
    (hcur : s.outbound.current = none) :
    Inv { s with outbound := s.outbound.push p, pool := s.pool.put p m', pc := .idle }
      (Function.update spot p (.at .outbound)) := by
  have hinuse := hi.inuse_routed hpc hm hroute nofun
  refine hi.routed hpc (.at .outbound) nofun ⟨m', rfl, hinuse⟩ rfl rfl (fun _ => ?_) ?_
  · exact WorkQueue.waiting_push hcur
  · intro c hc hc'
    match c with
    | .hand => exact absurd rfl hc
    | .at .outbound => exact absurd rfl hc'
    | .released | .held | .at .pending | .at .priority | .at (.job _) => rfl

theorem toNowhere (hi : s.Inv spot) {r : Router} (hpc : s.pc = .routing p)
    (hroute : m.route r = .ok (.nowhere, m')) :
    Inv { s with pool := s.pool.put p m', pc := .idle } (Function.update spot p .released) := by
  have hstate : m'.msgState ≠ .pending := by
    rcases Msg.route_ok hroute with ⟨hn, _⟩ | ⟨_, hs, _⟩
    · exact absurd rfl hn
    · exact hs
  have hfits : Spot.released.Fits (some m') := fun n hn => Option.some.inj hn ▸ hstate
  refine hi.routed hpc .released nofun hfits rfl rfl (fun hl => absurd rfl hl.1) ?_
  intro c hc _
  match c with
  | .hand => exact absurd rfl hc
  | .released | .held | .at .pending | .at .priority | .at (.job _) | .at .outbound => rfl

/-! #### FlushMessages -/

theorem flushHead (hi : s.Inv spot) {next : Option ℕ} {pool : MsgPool} (hpc : s.pc = .idle)
    (hhead : s.pool.lock.flushFreeStack.getHead = (next, pool)) :
    (s.advanced next pool .flushLook).Inv spot := by
  obtain ⟨rfl, rfl⟩ := Prod.mk.inj hhead
  have hpool := (hi.pool.withStack (List.nil_sublist _)).of_eq (y := s.pool.opened) rfl rfl rfl
  refine hi.advanced (hand_nil hpc) (fun _ => rfl) hpool fun q hq => ⟨rfl, hq, ?_⟩
  intro r hr
  cases hr

theorem flushLook (hi : s.Inv spot) (hpc : s.pc = .flushLook p)
    (hm : s.pool.objects p = some m) :
    Inv { s with pc := .flushSwitch p m.msgState } spot := by
  have hf := hi.pool.fits p
  rw [hm] at hf
  have hthread := hi.at_pc hpc
  exact hi.atPc (by rw [hpc]; rfl) rfl hi.pool ⟨hthread.1, hthread.2, hf.eq_released⟩

theorem flushSwitch (hi : s.Inv spot) {msgState : MsgState}
    (hpc : s.pc = .flushSwitch p msgState) (hm : s.pool.objects p = some m) :
    Inv { s with pool := s.pool.put p (m.switch msgState), pc := .flushRelease p msgState }
      spot := by
  have hthread := hi.at_pc hpc
  have hhand : s.pc.inHand = [] := by rw [hpc]; rfl
  have hmark {n : Msg} (hn : n.msgState = .markForReuse) (hspot : spot p = .released) :
      PoolAgrees (s.pool.put p n) spot := by
    have hfits : Spot.released.Fits (some n) := by
      intro k hk
      rw [← Option.some.inj hk, hn]
      nofun
    have hput := hi.pool.put (hthread.2.1.notMem_stack hi.pool.wellFormed) .released hfits
    rwa [← hspot, Function.update_eq_self] at hput
  have hpool : PoolAgrees (s.pool.put p (m.switch msgState)) spot := by
    cases msgState with
    | inactive | delivered | processed => exact hmark rfl (hthread.2.2 nofun nofun)
    | undelivered | pending | inuse | markForReuse => exact hi.pool.change hm rfl
  exact hi.atPc hhand rfl hpool ⟨hthread.1, ⟨hthread.2.1.1, hthread.2.1.2⟩, hthread.2.2⟩

theorem flushDelete (hi : s.Inv spot) {pool : MsgPool} (hpc : s.pc = .flushRelease p .inactive)
    (hok : s.pool.deleteCurrent = .ok pool) :
    Inv { s with pool := pool.free p, pc := .flushNext } spot := by
  obtain ⟨hlock, hcur, hspot⟩ := hi.at_pc hpc
  obtain rfl := MsgPool.deleteCurrent_ok hok
  refine hi.atPc (by rw [hpc]; rfl) rfl ?_ ⟨hlock, fun q hq => ?_⟩
  · exact hi.pool.delete hcur (hspot nofun nofun)
  · -- the part before the cursor is that of the old list
    have htake : (s.pool.messages.eraseIdx s.pool.it).take s.pool.it =
        s.pool.messages.take s.pool.it := by
      rw [List.eraseIdx_eq_take_drop_succ, List.take_append_of_le_length, List.take_take, min_self]
      rw [List.length_take]
      exact le_min le_rfl hcur.lt.le
    have hin : q ∈ (s.pool.messages.eraseIdx s.pool.it).take s.pool.it := by
      rw [htake]
      exact hcur.before q hq
    have hle : s.pool.it ≤ s.pool.it+1+1 := by omega
    exact (List.take_sublist_take_left hle).subset hin

theorem flushReturn (hi : s.Inv spot) {msgState : MsgState} {pool : MsgPool}
    (hpc : s.pc = .flushRelease p msgState) (hm : s.pool.objects p = some m)
    (hmark : m.msgState = .markForReuse) (hok : s.pool.returnToPool p = .ok pool) :
    Inv { s with pool, pc := .flushNext } spot := by
  obtain ⟨hlock, hcur, _⟩ := hi.at_pc hpc
  have hf := hi.pool.fits p
  rw [hm] at hf
  have hspot := hf.eq_released (by rw [hmark]; nofun) (by rw [hmark]; nofun)
  obtain ⟨hpool, hlocked, hmsgs, hit, hstack⟩ :=
    hi.pool.returnToPool (hcur.notMem_stack hi.pool.wellFormed) hspot hok
  refine hi.atPc (by rw [hpc]; rfl) rfl hpool ⟨hlocked.trans hlock, fun q hq => ?_⟩
  rw [hmsgs, hit, List.take_add_one, List.mem_append]
  rw [hstack] at hq
  rcases List.mem_cons.mp hq with rfl | hq
  · right
    rw [hcur.current]
    exact List.mem_singleton_self q
  · exact Or.inl (hcur.before q hq)

theorem flushLeave (hi : s.Inv spot) {msgState : MsgState}
    (hpc : s.pc = .flushRelease p msgState) : Inv { s with pc := .flushNext } spot := by
  obtain ⟨hlock, hcur, _⟩ := hi.at_pc hpc
  refine hi.atPc (by rw [hpc]; rfl) rfl hi.pool ⟨hlock, fun q hq => ?_⟩
  exact (List.take_sublist_take_left (by omega)).subset (hcur.before q hq)

theorem flushNext (hi : s.Inv spot) {next : Option ℕ} {pool : MsgPool}
    (hpc : s.pc = .flushNext) (hok : s.pool.getNext = .ok (next, pool)) :
    (s.advanced next pool .flushLook).Inv spot := by
  obtain ⟨hlock, hbefore⟩ := hi.at_pc hpc
  obtain ⟨rfl, rfl⟩ := MsgPool.getNext_ok hlock hok
  refine hi.advanced (by rw [hpc]; rfl) (fun _ => rfl) (hi.pool.of_eq rfl rfl rfl) ?_
  intro q hq
  exact ⟨hlock, hq, hbefore⟩

/-! ### Every step -/

theorem step {a : DispatchAction} (hi : s.Inv spot) (hstep : DispatchStep s a t) :
    ∃ spot', t.Inv spot' := by
  cases hstep with
  | getMessage hlock hnew hok => exact hi.getMessage hlock hnew hok
  | handOver hp hm ho => exact hi.handOver hp hm ho
  | change hm hs => exact ⟨spot, hi.pool.change hm hs, hi.placed.perm fun c _ => by
      match c with
      | .released | .held | .hand | .at .pending | .at .priority | .at (.job _)
      | .at .outbound => rfl, hi.thread.change hm hs⟩
  | jobTop hp hcur =>
    exact ⟨spot, hi.jobRelist (by rw [WorkQueue.waiting_top hcur hp])⟩
  | jobHandOver hcur hm ho => exact hi.jobLeave (WorkQueue.waiting_handedOver hcur) hm ho
  | jobPop hcur => exact ⟨spot, hi.jobRelist (WorkQueue.waiting_pop hcur)⟩
  | keptHandOver hp hm ho => exact hi.jobLeave (WorkQueue.waiting_dropKept hp) hm ho
  | outboundTop hp hcur =>
    exact ⟨spot, hi.outboundRelist (by rw [WorkQueue.waiting_top hcur hp])⟩
  | transmitted hcur hm => exact hi.transmitted hcur hm
  | outboundPop hcur => exact ⟨spot, hi.outboundRelist (WorkQueue.waiting_pop hcur)⟩
  | pendingHead hpc hhead => exact ⟨spot, hi.pendingHead hpc hhead⟩
  | pendingLook hpc hm => exact ⟨spot, hi.pendingLook hpc hm⟩
  | pendingInuse hpc hm => exact ⟨_, hi.pendingInuse hpc⟩
  | pendingPush hpc hm hct => exact ⟨_, hi.pendingPush hpc hm⟩
  | pendingAssert hpc hm hct => exact ⟨_, hi.pendingAssert hpc hm⟩
  | pendingFailed hpc hm => exact hi.pendingFailed hpc hm
  | pendingSkip hpc hp hu => exact ⟨spot, hi.atPc (by rw [hpc]; rfl) rfl hi.pool (hi.at_pc hpc).1⟩
  | pendingNext hpc hok => exact ⟨spot, hi.pendingNext hpc hok⟩
  | priorityTop hpc hp => exact ⟨_, hi.priorityTop hpc hp⟩
  | toHandler hpc hm hroute hcur => exact ⟨_, hi.toHandler hpc hm hroute hcur⟩
  | toConnectionQueue hpc hm hroute hcur => exact ⟨_, hi.toConnectionQueue hpc hm hroute hcur⟩
  | toNowhere hpc hm hroute => exact ⟨_, hi.toNowhere hpc hroute⟩
  | flushHead hpc hhead => exact ⟨spot, hi.flushHead hpc hhead⟩
  | flushLook hpc hm => exact ⟨spot, hi.flushLook hpc hm⟩
  | flushSwitch hpc hm => exact ⟨spot, hi.flushSwitch hpc hm⟩
  | flushDelete hpc hm hexp hok => exact ⟨spot, hi.flushDelete hpc hok⟩
  | flushReturn hpc hm hexp hmark hok => exact ⟨spot, hi.flushReturn hpc hm hmark hok⟩
  | flushLeave hpc hm hexp hmark => exact ⟨spot, hi.flushLeave hpc⟩
  | flushNext hpc hok => exact ⟨spot, hi.flushNext hpc hok⟩

/-! ### What the invariant says -/

theorem at_iff (hi : s.Inv spot) {place : Place} : s.At p place ↔ spot p = .at place := by
  have hlisted {b : Spot} (hb : b.Listed) : p ∈ s.listOf b ↔ spot p = b := (hi.placed b hb).2 p
  match place with
  | .priority => exact hlisted (b := .at .priority) ⟨nofun, nofun⟩
  | .job h => exact hlisted (b := .at (.job h)) ⟨nofun, nofun⟩
  | .outbound => exact hlisted (b := .at .outbound) ⟨nofun, nofun⟩
  | .pending =>
    constructor
    · intro ⟨m, hm, hs⟩
      have hf := hi.pool.fits p
      rw [hm] at hf
      exact hf.eq_pending hs
    · intro hspot
      have hf := hi.pool.fits p
      rw [hspot] at hf
      exact hf

/-- `FlushMessages` leaves a message that is not released as it is. -/
theorem flush_leaves (hi : s.Inv spot) (hstep : DispatchStep s .flush t)
    (hspot : spot p ≠ .released) :
    t.pool.objects p = s.pool.objects p ∧ p ∉ t.pool.freeMsgStack := by
  have hstack := hi.notMem_stack hspot
  have hne {q : ℕ} (hq : spot q = .released) : p ≠ q := fun he => hspot (he ▸ hq)
  cases hstep with
  | flushHead hpc hhead =>
    obtain ⟨rfl, rfl⟩ := Prod.mk.inj hhead
    rw [advanced_objects, advanced_freeMsgStack]
    exact ⟨rfl, List.not_mem_nil⟩
  | flushLook hpc hm => exact ⟨rfl, hstack⟩
  | @flushSwitch q m msgState hpc hm =>
    refine ⟨?_, hstack⟩
    change (s.pool.put q (m.switch msgState)).objects p = _
    by_cases hpq : p = q
    · -- the state that was read was one of a message that somebody has
      subst hpq
      have hread := (hi.at_pc hpc).2.2
      have hsame : m.switch msgState = m := by
        cases msgState with
        | inactive | delivered | processed => exact absurd (hread nofun nofun) hspot
        | undelivered | pending | inuse | markForReuse => rfl
      rw [hsame, MsgPool.put_self hm]
    · rw [MsgPool.put_objects_of_ne s.pool hpq]
  | @flushDelete q m currentTime pool hpc hm hexp hok =>
    obtain ⟨_, _, hread⟩ := hi.at_pc hpc
    obtain rfl := MsgPool.deleteCurrent_ok hok
    exact ⟨Function.update_of_ne (hne (hread nofun nofun)) _ _, hstack⟩
  | @flushReturn q m msgState currentTime pool hpc hm hexp hmark hok =>
    have hf := hi.pool.fits q
    rw [hm] at hf
    have hpq := hne (hf.eq_released (by rw [hmark]; nofun) (by rw [hmark]; nofun))
    obtain ⟨m', _, hpool⟩ := bind_eq_ok.mp hok
    obtain rfl := Except.ok.inj hpool
    refine ⟨MsgPool.put_objects_of_ne s.pool hpq _, fun hin => ?_⟩
    rcases List.mem_cons.mp hin with rfl | hin
    · exact hpq rfl
    · exact hstack hin
  | flushLeave hpc hm hexp hmark => exact ⟨rfl, hstack⟩
  | flushNext hpc hok =>
    obtain ⟨rfl, rfl⟩ := MsgPool.getNext_ok (hi.at_pc hpc).1 hok
    rw [advanced_objects, advanced_freeMsgStack]
    exact ⟨rfl, hstack⟩

end Dispatcher.Inv

/-- In every run a message waits at one place at most, the priority queue has each message once and
only messages in use, and a step of `FlushMessages` neither changes a waiting message nor puts it on
the stack. -/
theorem dispatched_once : ∀ (as : List DispatchAction) (s : Dispatcher), Run DispatchStep {} as s →
    (∀ p place place', s.At p place → s.At p place' → place = place') ∧
    s.priorityQueue.Nodup ∧
    (∀ p ∈ s.priorityQueue, ∃ m, s.pool.objects p = some m ∧ m.msgState = .inuse) ∧
    ∀ t, DispatchStep s .flush t → ∀ p place, s.At p place →
      t.pool.objects p = s.pool.objects p ∧ p ∉ t.pool.freeMsgStack := by
  intro as s hrun
  have hstep : ∀ (t : Dispatcher) (a : DispatchAction) (u : Dispatcher),
      (∃ spot, t.Inv spot) → DispatchStep t a u → ∃ spot, u.Inv spot :=
    fun t a u ⟨spot, hi⟩ hstep => hi.step hstep
  obtain ⟨spot, hi⟩ := hrun.invariant hstep ⟨_, Dispatcher.Inv.initial⟩
  have hpriority : (Spot.at .priority).Listed := ⟨nofun, nofun⟩
  refine ⟨?_, (hi.placed _ hpriority).1, ?_, ?_⟩
  · intro p place place' hp hp'
    have hspot := hi.at_iff.mp hp
    rw [hi.at_iff.mp hp'] at hspot
    exact (Spot.at.inj hspot).symm
  · intro p hp
    have hspot : spot p = .at .priority := hi.placed.spot_of_mem hpriority hp
    have hf := hi.pool.fits p
    rw [hspot] at hf
    exact hf
  · intro t hflush p place hp
    exact hi.flush_leaves hflush (by rw [hi.at_iff.mp hp]; nofun)

/-- A message is taken, dispatched and found by the pass over the pending messages. -/
def dispatchRun : List DispatchAction :=
  [.producer 1, .producer 1, .pending, .pending, .pending, .pending]

def takenMsg : Msg := ({} : Msg).reuse (bytes "id") 0

def takenPool : MsgPool := ({ messages := [1] } : MsgPool).put 1 {} |>.put 1 takenMsg

def dispatchedPool : MsgPool := takenPool.put 1 (takenMsg.dispatchMsg [])

def foundPool : MsgPool :=
  dispatchedPool.lock.put 1 ((takenMsg.dispatchMsg []).setMsgState .inuse)

theorem dispatchRun_run : Run DispatchStep {} dispatchRun
    { pool := foundPool, pc := .pendingNext, priorityQueue := [1] } := by
  have hok : ({} : MsgPool).getReusableMessage 1 (bytes "id") 0 = .ok (1, takenPool) := rfl
  have hget : DispatchStep {} (.producer 1) { pool := takenPool, heldMsgs := [1] } :=
    .getMessage rfl rfl hok
  have hdispatch : DispatchStep { pool := takenPool, heldMsgs := [1] } (.producer 1)
      { pool := dispatchedPool } :=
    .handOver List.mem_cons_self rfl (.dispatchMsg [])
  have hhead : DispatchStep { pool := dispatchedPool } .pending
      { pool := dispatchedPool.lock, pc := .pendingLook 1 } := .pendingHead rfl rfl
  have hm : dispatchedPool.lock.objects 1 = some (takenMsg.dispatchMsg []) := rfl
  have hlook : DispatchStep { pool := dispatchedPool.lock, pc := .pendingLook 1 } .pending
      { pool := dispatchedPool.lock, pc := .pendingAct 1 (takenMsg.dispatchMsg []).msgState } :=
    .pendingLook rfl hm
  have hinuse : DispatchStep { pool := dispatchedPool.lock, pc := .pendingAct 1 .pending } .pending
      { pool := foundPool, pc := .pendingPush 1 } := .pendingInuse rfl hm
  have hpush : DispatchStep { pool := foundPool, pc := .pendingPush 1 } .pending
      { pool := foundPool, pc := .pendingNext, priorityQueue := [1] } :=
    .pendingPush rfl rfl nofun
  exact (((((Run.nil.snoc hget).snoc hdispatch).snoc hhead).snoc hlook).snoc hinuse).snoc hpush

theorem dispatched_once_queued :
    Dispatcher.At { pool := foundPool, pc := .pendingNext, priorityQueue := [1] } 1 .priority ∧
    ¬ Dispatcher.At { pool := foundPool, pc := .pendingNext, priorityQueue := [1] } 1 .pending := by
  have hpriority : Dispatcher.At
      { pool := foundPool, pc := .pendingNext, priorityQueue := [1] } 1 .priority :=
    List.mem_cons_self
  refine ⟨hpriority, fun hpending => ?_⟩
  cases (dispatched_once _ _ dispatchRun_run).1 1 _ _ hpriority hpending

end MsgCourier
