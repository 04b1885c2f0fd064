import MsgCourier.PoolSweep

/-! When the sweep is exact, and that no message of the pool ever has two holders. -/
namespace MsgCourier
open ListSearch CText CursorSweep Runs

namespace MsgPool

variable {currentTime : ℤ} {x y : MsgPool}

/-- What a sweep of `x` that leaves `y` is for: it looks at every message once, and the stack then
has the messages nobody holds, each once. -/
structure SweepExact (x y : MsgPool) (examined : List ℕ) : Prop where
  once : ∀ p ∈ x.messages, examined.count p = 1
  nodup : y.freeMsgStack.Nodup
  mem_iff : ∀ p, p ∈ y.freeMsgStack ↔
    p ∈ y.messages ∧ ∃ m, y.objects p = some m ∧ m.msgState.held = false

/-- `FlushMessages` keeps its cursor inside the list and sweeps exactly. -/
def FlushExact (x : MsgPool) (currentTime : ℤ) : Prop :=
  ∃ y examined, x.flushMessages currentTime = .ok (y, examined) ∧ SweepExact x y examined

theorem reusable_iff {p : ℕ} : x.reusable currentTime p = true ↔
    ∃ m, x.objects p = some m ∧ m.expired currentTime = false ∧ m.msgState.held = false := by
  rw [reusable, Option.any_eq_true]
  simp only [Bool.and_eq_true, Bool.not_eq_true']

theorem sweptObject_of_reusable {p : ℕ} (h : x.reusable currentTime p = true) :
    ∃ m, sweptObject currentTime (x.objects p) = some m ∧ m.msgState.held = false := by
  obtain ⟨m, hm, he, hh⟩ := reusable_iff.mp h
  refine ⟨m.setMsgState .inactive, ?_, rfl⟩
  rw [hm, sweptObject, Option.bind_some, if_neg (by rw [he]; decide), if_neg (by rw [hh]; decide)]

theorem reusable_of_sweptObject {p : ℕ} {m : Msg}
    (h : sweptObject currentTime (x.objects p) = some m) (hh : m.msgState.held = false) :
    x.reusable currentTime p = true := by
  obtain ⟨old, hold, hm⟩ := Option.bind_eq_some_iff.mp h
  rw [reusable_iff]
  refine ⟨old, hold, ?_⟩
  split_ifs at hm with he hheld
  · rw [← Option.some.inj hm, hheld] at hh
    cases hh
  · exact ⟨Bool.eq_false_iff.mpr he, Bool.eq_false_iff.mpr hheld⟩

/-- A message that someone holds is neither deleted nor changed. -/
theorem sweptObject_of_held {m : Msg} (h : m.msgState.held = true) :
    sweptObject currentTime (some m) = some m := by
  have he : m.expired currentTime = false := by
    apply decide_eq_false
    intro hexp
    rw [hexp.1] at h
    cases h
  rw [sweptObject, Option.bind_some, if_neg (by rw [he]; decide), if_pos h]

theorem gone_of_held {p : ℕ} {m : Msg} (hm : x.objects p = some m) (h : m.msgState.held = true) :
    x.gone currentTime p = false := by
  rw [gone, hm, Option.any_some]
  apply decide_eq_false
  intro hexp
  rw [hexp.1] at h
  cases h

theorem Swept.exact (hw : x.WellFormed) {examined : List ℕ}
    (h : x.Swept currentTime y examined) (hg : ∀ p ∈ x.messages, x.gone currentTime p = false) :
    SweepExact x y examined := by
  have hall : examined = x.messages := by
    have hv := h.visited
    rw [visited_of_none_gone hg, Option.some.injEq] at hv
    exact hv.symm
  have hmsgs : y.messages = x.messages := by
    rw [h.messages, List.filter_eq_self]
    intro p hp
    rw [hg p hp, Bool.and_false, Bool.not_false]
  refine ⟨?_, ?_, ?_⟩
  · intro p hp
    rw [hall]
    exact List.count_eq_one_of_mem hw.nodup hp
  · rw [h.freeMsgStack, List.nodup_reverse, hall]
    exact hw.nodup.filter _
  · intro p
    rw [h.freeMsgStack, List.mem_reverse, List.mem_filter, hmsgs, h.objects, hall]
    constructor
    · intro ⟨hp, hr⟩
      rw [if_pos hp]
      exact ⟨hp, sweptObject_of_reusable hr⟩
    · intro ⟨hp, m, hm, hh⟩
      rw [if_pos hp] at hm
      exact ⟨hp, reusable_of_sweptObject hm hh⟩

theorem flushExact_iff (hw : x.WellFormed) :
    x.FlushExact currentTime ↔ ∀ p ∈ x.messages, x.gone currentTime p = false := by
  constructor
  · intro ⟨y, examined, hok, hex⟩ p hp
    by_contra hg
    obtain ⟨q, hq, hnot⟩ := visited_misses hw.nodup ⟨p, hp, Bool.eq_true_of_not_eq_false hg⟩
      (swept_of_flushMessages hw hok).visited
    have hone := hex.once q hq
    rw [List.count_eq_zero_of_not_mem hnot] at hone
    cases hone
  · intro hg
    have hok : x.flushMessages currentTime = _ := flushMessages_eq hw
    rw [visited_of_none_gone hg] at hok
    exact ⟨_, _, hok, (swept_of_flushMessages hw hok).exact hw hg⟩

end MsgPool

/-! ### Runs -/

/-- The pool and the messages its callers hold: those it handed out and that were not released
since. -/
structure PoolRun where
  pool : MsgPool := {}
  heldMsgs : List ℕ := []

/-- A caller takes a message, a holder changes one in any way, or the queue sweeps. -/
inductive PoolAction
  | getMessage (pNew : ℕ) (newID : Bytes) (now : ℤ)
  | change (pMsg : ℕ) (m : Msg)
  | flush (currentTime : ℤ)

/-- `new` returns an address without an object. A holder releases its message by the state it
leaves it in. -/
inductive PoolStep : PoolRun → PoolAction → PoolRun → Prop
  | getMessage {s : PoolRun} {pNew p : ℕ} {newID : Bytes} {now : ℤ} {pool : MsgPool} :
      s.pool.objects pNew = none → s.pool.getReusableMessage pNew newID now = .ok (p, pool) →
      PoolStep s (.getMessage pNew newID now) ⟨pool, p :: s.heldMsgs⟩
  | change {s : PoolRun} {p : ℕ} {m : Msg} :
      p ∈ s.heldMsgs →
      PoolStep s (.change p m)
        ⟨s.pool.put p m, if m.msgState.held then s.heldMsgs else s.heldMsgs.filter (· ≠ p)⟩
  | flush {s : PoolRun} {currentTime : ℤ} {pool : MsgPool} {examined : List ℕ} :
      s.pool.flushMessages currentTime = .ok (pool, examined) →
      PoolStep s (.flush currentTime) ⟨pool, s.heldMsgs⟩

/-- Held messages and messages on the stack are messages of the pool in the states that go with
it. -/
structure PoolInv (s : PoolRun) : Prop where
  wellFormed : s.pool.WellFormed
  nodup : s.pool.freeMsgStack.Nodup
  stack : ∀ p ∈ s.pool.freeMsgStack, p ∈ s.pool.messages ∧
    ∃ m, s.pool.objects p = some m ∧ m.msgState.held = false
  held : ∀ p ∈ s.heldMsgs, p ∈ s.pool.messages ∧
    ∃ m, s.pool.objects p = some m ∧ m.msgState.held = true

theorem PoolInv.initial : PoolInv {} :=
  ⟨⟨List.nodup_nil, by simp⟩, List.nodup_nil, by simp, by simp⟩

namespace MsgPool

/-- The message comes from the top of the stack, or is new. -/
theorem getReusableMessage_cases {x y : MsgPool} {pNew p : ℕ} {newID : Bytes} {now : ℤ}
    (hok : x.getReusableMessage pNew newID now = .ok (p, y)) :
    (∃ rest m, x.freeMsgStack = p :: rest ∧ x.objects p = some m ∧
      y = { x.put p (m.reuse newID now) with freeMsgStack := rest }) ∨
    x.freeMsgStack = [] ∧ p = pNew ∧
      y = { x.put p (({} : Msg).reuse newID now) with messages := x.messages ++ [p] } := by
  unfold getReusableMessage at hok
  cases hs : x.freeMsgStack with
  | cons top rest =>
    simp only [hs, deref] at hok
    cases hm : x.objects top with
    | none =>
      rw [hm] at hok
      cases hok
    | some m =>
      rw [hm] at hok
      obtain ⟨rfl, rfl⟩ := Prod.mk.inj (Except.ok.inj hok)
      exact Or.inl ⟨rest, m, rfl, hm, rfl⟩
  | nil =>
    simp only [hs, deref, put, Function.update_self] at hok
    obtain ⟨rfl, rfl⟩ := Prod.mk.inj (Except.ok.inj hok)
    exact Or.inr ⟨rfl, rfl, by simp [put, hs]⟩

theorem getReusableMessage_objects {x y : MsgPool} {pNew p : ℕ} {newID : Bytes} {now : ℤ}
    (hok : x.getReusableMessage pNew newID now = .ok (p, y)) :
    (∃ old : Msg, y.objects p = some (old.reuse newID now)) ∧
      ∀ q, q ≠ p → y.objects q = x.objects q := by
  rcases getReusableMessage_cases hok with ⟨rest, m, _, _, rfl⟩ | ⟨_, rfl, rfl⟩
  · exact ⟨⟨m, Function.update_self _ _ _⟩, fun q hq => Function.update_of_ne hq _ _⟩
  · exact ⟨⟨{}, Function.update_self _ _ _⟩, fun q hq => Function.update_of_ne hq _ _⟩

theorem put_objects_self (x : MsgPool) (p : ℕ) (m : Msg) : (x.put p m).objects p = some m :=
  Function.update_self _ _ _

theorem put_objects_of_ne (x : MsgPool) {p q : ℕ} (hq : q ≠ p) (m : Msg) :
    (x.put p m).objects q = x.objects q := Function.update_of_ne hq _ _

variable {currentTime : ℤ} {x y : MsgPool}

theorem WellFormed.put (hw : x.WellFormed) (p : ℕ) (m : Msg) : (x.put p m).WellFormed := by
  refine ⟨hw.nodup, fun q hq => ?_⟩
  by_cases hqp : q = p
  · simp [MsgPool.put, hqp]
  · have hq' := hw.allocated q hq
    simpa [MsgPool.put, hqp] using hq'

theorem WellFormed.fresh (hw : x.WellFormed) {p q : ℕ} (hp : x.objects p = none)
    (hq : q ∈ x.messages) : q ≠ p := by
  rintro rfl
  have ha := hw.allocated q hq
  rw [hp] at ha
  cases ha

theorem WellFormed.getReusableMessage (hw : x.WellFormed) {pNew p : ℕ} {newID : Bytes} {now : ℤ}
    (hnew : x.objects pNew = none) (hok : x.getReusableMessage pNew newID now = .ok (p, y)) :
    y.WellFormed := by
  rcases getReusableMessage_cases hok with ⟨rest, m, hs, hm, rfl⟩ | ⟨hs, rfl, rfl⟩
  · have hput := hw.put p (m.reuse newID now)
    exact ⟨hput.nodup, hput.allocated⟩
  · have hput := hw.put p (({} : Msg).reuse newID now)
    refine ⟨?_, fun q hq => ?_⟩
    · refine hw.nodup.append (List.nodup_singleton p) ?_
      intro q hq hq'
      exact hw.fresh hnew hq (List.mem_singleton.mp hq')
    · rcases List.mem_append.mp hq with hq | hq
      · exact hput.allocated q hq
      · rw [List.mem_singleton.mp hq]
        simp [MsgPool.put]

theorem WellFormed.flushMessages (hw : x.WellFormed) {examined : List ℕ}
    (hok : x.flushMessages currentTime = .ok (y, examined)) : y.WellFormed := by
  have h := swept_of_flushMessages hw hok
  refine ⟨?_, ?_⟩
  · rw [h.messages]
    exact hw.nodup.filter _
  · intro p hp
    rw [h.messages, List.mem_filter] at hp
    obtain ⟨m, hm⟩ := Option.isSome_iff_exists.mp (hw.allocated p hp.1)
    rw [h.objects, hm]
    split_ifs with hex
    · have hg : m.expired currentTime = false := by
        simpa [hex, gone, hm] using hp.2
      rw [sweptObject, Option.bind_some, if_neg (by rw [hg]; decide)]
      split_ifs <;> rfl
    · rfl

end MsgPool

namespace PoolInv

variable {s : PoolRun}

/-- A message of the stack has no holder. -/
theorem not_held (hi : PoolInv s) {p : ℕ} {m : Msg} (hm : s.pool.objects p = some m)
    (hh : m.msgState.held = false) : p ∉ s.heldMsgs := by
  intro hp
  obtain ⟨_, m', hm', hh'⟩ := hi.held p hp
  rw [hm, Option.some.injEq] at hm'
  rw [hm', hh'] at hh
  cases hh

theorem getMessage (hi : PoolInv s) {pNew p : ℕ} {newID : Bytes} {now : ℤ} {pool : MsgPool}
    (hnew : s.pool.objects pNew = none)
    (hok : s.pool.getReusableMessage pNew newID now = .ok (p, pool)) :
    PoolInv ⟨pool, p :: s.heldMsgs⟩ := by
  have hw := hi.wellFormed.getReusableMessage hnew hok
  rcases MsgPool.getReusableMessage_cases hok with ⟨rest, m, hs, hm, rfl⟩ | ⟨hs, rfl, rfl⟩
  · -- the top of the stack goes to the caller
    obtain ⟨hp, m', hm', hh⟩ := hi.stack p (by rw [hs]; exact List.mem_cons_self)
    obtain ⟨htop, hrest⟩ := List.nodup_cons.mp (hs ▸ hi.nodup)
    have hput (q : ℕ) (hq : q ≠ p) :
        (s.pool.put p (m.reuse newID now)).objects q = s.pool.objects q :=
      Function.update_of_ne hq _ _
    refine ⟨hw, hrest, ?_, ?_⟩
    · intro q hq
      have hqp : q ≠ p := fun h => htop (h ▸ hq)
      change q ∈ s.pool.messages ∧ ∃ m', (s.pool.put p _).objects q = some m' ∧ _
      rw [hput q hqp]
      exact hi.stack q (by rw [hs]; exact List.mem_cons_of_mem _ hq)
    · intro q hq
      change q ∈ s.pool.messages ∧ ∃ m', (s.pool.put p _).objects q = some m' ∧ _
      rcases List.mem_cons.mp hq with rfl | hq
      · exact ⟨hp, _, Function.update_self _ _ _, rfl⟩
      · rw [hput q fun h => hi.not_held hm' hh (h ▸ hq)]
        exact hi.held q hq
  · -- a new message goes to the end of the list
    have hput (q : ℕ) (hq : q ≠ p) :
        (s.pool.put p (({} : Msg).reuse newID now)).objects q = s.pool.objects q :=
      Function.update_of_ne hq _ _
    refine ⟨hw, hi.nodup, ?_, ?_⟩
    · intro q hq
      change q ∈ s.pool.freeMsgStack at hq
      rw [hs] at hq
      cases hq
    · intro q hq
      change q ∈ s.pool.messages ++ [p] ∧ ∃ m', (s.pool.put p _).objects q = some m' ∧ _
      rcases List.mem_cons.mp hq with rfl | hq
      · exact ⟨by simp, _, Function.update_self _ _ _, rfl⟩
      · obtain ⟨hmem, hm⟩ := hi.held q hq
        rw [hput q (hi.wellFormed.fresh hnew hmem)]
        exact ⟨List.mem_append_left _ hmem, hm⟩

theorem change (hi : PoolInv s) {p : ℕ} (m : Msg) (hp : p ∈ s.heldMsgs) :
    PoolInv ⟨s.pool.put p m,
      if m.msgState.held then s.heldMsgs else s.heldMsgs.filter (· ≠ p)⟩ := by
  have hput (q : ℕ) (hq : q ≠ p) : (s.pool.put p m).objects q = s.pool.objects q :=
    Function.update_of_ne hq _ _
  refine ⟨hi.wellFormed.put p m, hi.nodup, ?_, ?_⟩
  · intro q hq
    obtain ⟨hmem, m', hm', hh⟩ := hi.stack q hq
    rw [hput q fun h => hi.not_held hm' hh (h ▸ hp)]
    exact ⟨hmem, m', hm', hh⟩
  · intro q hq
    dsimp only at hq
    by_cases hqp : q = p
    · -- the changed message stays in the list of held ones only in a held state
      subst hqp
      refine ⟨(hi.held q hp).1, m, Function.update_self _ _ _, ?_⟩
      split_ifs at hq with hh
      · exact hh
      · simp at hq
    · have hq' : q ∈ s.heldMsgs := by
        split_ifs at hq
        · exact hq
        · exact (List.mem_filter.mp hq).1
      rw [hput q hqp]
      exact hi.held q hq'

theorem flush (hi : PoolInv s) {currentTime : ℤ} {pool : MsgPool} {examined : List ℕ}
    (hok : s.pool.flushMessages currentTime = .ok (pool, examined)) :
    PoolInv ⟨pool, s.heldMsgs⟩ := by
  have h := MsgPool.swept_of_flushMessages hi.wellFormed hok
  have hsub := visited_sublist _ h.visited
  have hstack : ∀ p ∈ pool.freeMsgStack, p ∈ pool.messages ∧
      ∃ m, pool.objects p = some m ∧ m.msgState.held = false := by
    intro p hp
    rw [h.freeMsgStack, List.mem_reverse, List.mem_filter] at hp
    obtain ⟨m, hm, he, _⟩ := MsgPool.reusable_iff.mp hp.2
    rw [h.messages, List.mem_filter, h.objects, if_pos hp.1]
    refine ⟨⟨hsub.subset hp.1, ?_⟩, MsgPool.sweptObject_of_reusable hp.2⟩
    simp [MsgPool.gone, hm, he]
  refine ⟨hi.wellFormed.flushMessages hok, ?_, hstack, ?_⟩
  · change pool.freeMsgStack.Nodup
    rw [h.freeMsgStack, List.nodup_reverse]
    exact (hi.wellFormed.nodup.sublist hsub).filter _
  · intro p hp
    obtain ⟨hmem, m, hm, hh⟩ := hi.held p hp
    rw [h.messages, List.mem_filter, h.objects, hm, MsgPool.sweptObject_of_held hh, ite_self,
      MsgPool.gone_of_held hm hh, Bool.and_false, Bool.not_false]
    exact ⟨⟨hmem, rfl⟩, m, rfl, hh⟩

theorem step {a : PoolAction} {t : PoolRun} (hi : PoolInv s) (hstep : PoolStep s a t) :
    PoolInv t := by
  cases hstep with
  | getMessage hnew hok => exact hi.getMessage hnew hok
  | change hp => exact hi.change _ hp
  | flush hok => exact hi.flush hok

/-- The message a caller gets is nobody's. -/
theorem getMessage_free (hi : PoolInv s) {pNew p : ℕ} {newID : Bytes} {now : ℤ} {pool : MsgPool}
    (hnew : s.pool.objects pNew = none)
    (hok : s.pool.getReusableMessage pNew newID now = .ok (p, pool)) :
    p ∉ s.heldMsgs ∧ ∀ m, s.pool.objects p = some m → m.msgState.held = false := by
  rcases MsgPool.getReusableMessage_cases hok with ⟨rest, _, hs, _⟩ | ⟨_, rfl, _⟩
  · obtain ⟨_, m, hm, hh⟩ := hi.stack p (by rw [hs]; exact List.mem_cons_self)
    refine ⟨hi.not_held hm hh, fun m' hm' => ?_⟩
    rw [hm, Option.some.injEq] at hm'
    rw [← hm', hh]
  · constructor
    · intro hp
      obtain ⟨_, m, hm, _⟩ := hi.held p hp
      rw [hnew] at hm
      cases hm
    · intro m hm
      rw [hnew] at hm
      cases hm

end PoolInv

/-- One sweep is exact exactly if no message is deleted in it. In every run whose sweeps return,
no caller gets a message that another one holds. -/
theorem flushMessages_exact_iff (x : MsgPool) (currentTime : ℤ) :
    (x.WellFormed →
      (x.FlushExact currentTime ↔ ∀ p ∈ x.messages, x.gone currentTime p = false)) ∧
    ∀ (as : List PoolAction) (s : PoolRun), Run PoolStep {} as s →
      ∀ (pNew p : ℕ) (newID : Bytes) (now : ℤ) (pool : MsgPool), s.pool.objects pNew = none →
        s.pool.getReusableMessage pNew newID now = .ok (p, pool) →
        p ∉ s.heldMsgs ∧ ∀ m, s.pool.objects p = some m → m.msgState.held = false := by
  constructor
  · intro hw
    exact MsgPool.flushExact_iff hw
  · intro as s hrun pNew p newID now pool hnew hok
    have hi : PoolInv s := hrun.invariant (fun _ _ _ hi hstep => hi.step hstep) PoolInv.initial
    exact hi.getMessage_free hnew hok

/-! ### Two pools -/

/-- A caller takes a message and delivers it, and the queue sweeps. -/
def deliveredRun : List PoolAction :=
  [.getMessage 1 (bytes "id1") 0, .change 1 { msgState := .delivered }, .flush 5]

theorem deliveredRun_run : ∃ s, Run PoolStep {} deliveredRun s ∧ s.pool.objects 2 = none ∧
    s.pool.WellFormed ∧ ∃ pool, s.pool.getReusableMessage 2 (bytes "id2") 6 = .ok (1, pool) := by
  refine ⟨_, ((Run.nil.snoc (PoolStep.getMessage rfl rfl)).snoc
    (PoolStep.change List.mem_cons_self)).snoc (PoolStep.flush rfl), rfl, ?_, _, rfl⟩
  exact ⟨by decide, by decide⟩

theorem flushMessages_exact_iff_delivered : ∃ s, Run PoolStep {} deliveredRun s ∧
    (s.pool.FlushExact 6 ↔ ∀ p ∈ s.pool.messages, s.pool.gone 6 p = false) ∧ 1 ∉ s.heldMsgs := by
  obtain ⟨s, hrun, hnew, hw, pool, hok⟩ := deliveredRun_run
  exact ⟨s, hrun, (flushMessages_exact_iff _ _).1 hw,
    ((flushMessages_exact_iff s.pool 6).2 _ _ hrun _ _ _ _ _ hnew hok).1⟩

/-- The first message was returned over a minute ago, the two others are delivered. -/
def expiredPool : MsgPool :=
  { messages := [1, 2, 3]
    objects := fun p => if p = 1 then some {} else some { msgState := .delivered } }

/-- The sweep deletes the first message and looks at no other. -/
theorem expired_sweep_misses : ¬ expiredPool.FlushExact 61 := by
  intro ⟨y, examined, hok, hex⟩
  have hsnd : (expiredPool.flushMessages 61).map Prod.snd = .ok [1] := rfl
  rw [hok] at hsnd
  have hone := hex.once 2 (by decide)
  rw [show examined = [1] from Except.ok.inj hsnd] at hone
  cases hone

end MsgCourier
