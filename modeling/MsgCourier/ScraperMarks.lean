import MsgCourier.DatagramReply

/-! The thread of the `TeamStreamZ` scraper, which marks each request as processed twice, beside the
flush of the queue thread and the threads that take messages from the pool. -/
namespace MsgCourier
open ListSearch CText Runs

/-- Where the handler's thread is: before the job queue, in `OnProcess` with a request, behind its
reply, or between the marks of `HandleMessage` and `OnProcess`. The number says how often the pool
had given the message away when the handler got it. -/
inductive ScraperPc
  | waiting
  | processing (pMessage grant : ℕ)
  | replied (pMessage grant : ℕ)
  | marked (pMessage grant : ℕ)
  deriving DecidableEq, Repr

/-- `grants` counts how often the pool has given each message away. `strays` has the messages that
were marked after they had been given to another holder. -/
structure ScraperRun where
  run : PoolRun := {}
  grants : ℕ → ℕ := fun _ => 0
  jobQueue : List (ℕ × ℕ) := []
  pc : ScraperPc := .waiting
  strays : List ℕ := []

namespace ScraperRun

/-- A message goes to a holder. -/
def give (s : ScraperRun) (run : PoolRun) (p : ℕ) : ScraperRun :=
  { s with run, grants := Function.update s.grants p (s.grants p+1) }

/-- `MarkProcessed` releases the message. -/
def mark (s : ScraperRun) (p grant : ℕ) (m : Msg) (pc : ScraperPc) : ScraperRun :=
  { s with
    run := ⟨s.run.pool.put p m.markProcessed, s.run.heldMsgs.filter (· ≠ p)⟩
    pc
    strays := if s.grants p = grant then s.strays else p :: s.strays }

/-- The request that the handler is working on, until it marks it. -/
def current (s : ScraperRun) : List ℕ :=
  match s.pc with
  | .processing p _ | .replied p _ => [p]
  | .waiting | .marked _ _ => []

/-- The requests that are the handler's. -/
def requests (s : ScraperRun) : List ℕ := s.current ++ s.jobQueue.map Prod.fst

end ScraperRun

inductive ScraperAction
  | getMessage (pNew : ℕ) (newID : Bytes) (now : ℤ)
  | change (pMsg : ℕ) (m : Msg)
  | flush (currentTime : ℤ)
  | dispatch (pMsg : ℕ)
  | take (pMsg : ℕ)
  | reply (pNew : ℕ) (newID : Bytes) (now : ℤ)
  | firstMark
  | secondMark

/-- Threads get messages, change the ones they hold in any way and hand them to the scraper's
queue. Its thread takes any of them, gets a reply, which is then a message like any other, and marks
the request twice. -/
inductive ScraperStep : ScraperRun → ScraperAction → ScraperRun → Prop
  | getMessage {s : ScraperRun} {pNew p : ℕ} {newID : Bytes} {now : ℤ} {pool : MsgPool} :
      s.run.pool.objects pNew = none →
      s.run.pool.getReusableMessage pNew newID now = .ok (p, pool) →
      ScraperStep s (.getMessage pNew newID now) (s.give ⟨pool, p :: s.run.heldMsgs⟩ p)
  | change {s : ScraperRun} {p : ℕ} {m : Msg} :
      p ∈ s.run.heldMsgs → p ∉ s.requests →
      ScraperStep s (.change p m)
        { s with run := ⟨s.run.pool.put p m,
            if m.msgState.held then s.run.heldMsgs else s.run.heldMsgs.filter (· ≠ p)⟩ }
  | flush {s : ScraperRun} {currentTime : ℤ} {pool : MsgPool} {examined : List ℕ} :
      s.run.pool.flushMessages currentTime = .ok (pool, examined) →
      ScraperStep s (.flush currentTime) { s with run := ⟨pool, s.run.heldMsgs⟩ }
  | dispatch {s : ScraperRun} {p : ℕ} :
      p ∈ s.run.heldMsgs → p ∉ s.requests →
      ScraperStep s (.dispatch p) { s with jobQueue := (p, s.grants p) :: s.jobQueue }
  | take {s : ScraperRun} {p grant : ℕ} :
      s.pc = .waiting → (p, grant) ∈ s.jobQueue →
      ScraperStep s (.take p)
        { s with jobQueue := s.jobQueue.erase (p, grant), pc := .processing p grant }
  | reply {s : ScraperRun} {p grant pNew q : ℕ} {newID : Bytes} {now : ℤ} {pool : MsgPool} :
      s.pc = .processing p grant → s.run.pool.objects pNew = none →
      s.run.pool.createMessageReply (some p) pNew newID now = .ok (q, pool) →
      ScraperStep s (.reply pNew newID now)
        { s.give ⟨pool, q :: s.run.heldMsgs⟩ q with pc := .replied p grant }
  | firstMark {s : ScraperRun} {p grant : ℕ} {m : Msg} :
      s.pc = .replied p grant → s.run.pool.objects p = some m →
      ScraperStep s .firstMark (s.mark p grant m (.marked p grant))
  | secondMark {s : ScraperRun} {p grant : ℕ} {m : Msg} :
      s.pc = .marked p grant → s.run.pool.objects p = some m →
      ScraperStep s .secondMark (s.mark p grant m .waiting)

/-- A request between its two marks is not what the pool gives away next: the top of the stack, or
without one the address that `new` returns. -/
def ScraperAction.Apart (s : ScraperRun) : ScraperAction → Prop
  | .getMessage pNew _ _ =>
    ∀ p grant, s.pc = .marked p grant → s.run.pool.freeMsgStack.head?.getD pNew ≠ p
  | .change _ _ | .flush _ | .dispatch _ | .take _ | .reply _ _ _ | .firstMark | .secondMark => True

abbrev ApartStep (s : ScraperRun) (a : ScraperAction) (t : ScraperRun) : Prop :=
  ScraperStep s a t ∧ a.Apart s

namespace ScraperRun

variable {s t : ScraperRun}

/-- What the handler has of its requests: their messages are held, and as they were given. -/
structure Owned (s : ScraperRun) : Prop where
  pool : PoolInv s.run
  nodup : s.requests.Nodup
  held : ∀ p ∈ s.requests, p ∈ s.run.heldMsgs
  queued : ∀ j ∈ s.jobQueue, s.grants j.1 = j.2
  atWork : ∀ p grant, s.pc = .processing p grant ∨ s.pc = .replied p grant → s.grants p = grant
  between : ∀ p grant, s.pc = .marked p grant → s.grants p = grant ∧ p ∉ s.run.heldMsgs
  clean : s.strays = []

theorem Owned.initial : Owned {} where
  pool := .initial
  nodup := List.nodup_nil
  held _ h := absurd h List.not_mem_nil
  queued _ h := absurd h List.not_mem_nil
  atWork _ _ h := h.elim nofun nofun
  between _ _ h := nomatch h
  clean := rfl

theorem getReusableMessage_fst {x y : MsgPool} {pNew p : ℕ} {newID : Bytes} {now : ℤ}
    (hok : x.getReusableMessage pNew newID now = .ok (p, y)) :
    p = x.freeMsgStack.head?.getD pNew := by
  rcases MsgPool.getReusableMessage_cases hok with ⟨rest, _, hstack, -, -⟩ | ⟨hstack, hp, -⟩
  · rw [hstack]
    rfl
  · rw [hstack]
    exact hp

/-- A message that is nobody's goes to a holder. -/
theorem Owned.give (h : s.Owned) {run : PoolRun} {p : ℕ} (hpool : PoolInv run)
    (hheld : run.heldMsgs = p :: s.run.heldMsgs) (hfree : p ∉ s.run.heldMsgs)
    (hapart : ∀ q grant, s.pc = .marked q grant → p ≠ q) : (s.give run p).Owned := by
  have hother {q : ℕ} (hq : q ∈ s.requests) : q ≠ p := fun heq => hfree (heq ▸ h.held q hq)
  have hgrants {q : ℕ} (hne : q ≠ p) : (s.give run p).grants q = s.grants q :=
    Function.update_of_ne hne _ _
  refine ⟨hpool, h.nodup, fun q hq => ?_, fun j hj => ?_, fun q grant hpc => ?_,
    fun q grant hpc => ?_, h.clean⟩
  · change q ∈ run.heldMsgs
    rw [hheld]
    exact List.mem_cons_of_mem _ (h.held q hq)
  · have hj' : j.1 ∈ s.requests := List.mem_append_right _ (List.mem_map_of_mem hj)
    rw [hgrants (hother hj')]
    exact h.queued j hj
  · have hq : q ∈ s.requests := by
      apply List.mem_append_left
      unfold current
      rcases hpc with hpc | hpc
      · rw [show s.pc = .processing q grant from hpc]
        exact List.mem_singleton_self q
      · rw [show s.pc = .replied q grant from hpc]
        exact List.mem_singleton_self q
    rw [hgrants (hother hq)]
    exact h.atWork q grant hpc
  · obtain ⟨hgrant, hnot⟩ := h.between q grant hpc
    have hne : q ≠ p := (hapart q grant hpc).symm
    rw [hgrants hne]
    refine ⟨hgrant, ?_⟩
    change q ∉ run.heldMsgs
    rw [hheld, List.mem_cons]
    exact fun hor => hor.elim hne hnot

theorem Owned.getMessage (h : s.Owned) {pNew p : ℕ} {newID : Bytes} {now : ℤ} {pool : MsgPool}
    (hnew : s.run.pool.objects pNew = none)
    (hok : s.run.pool.getReusableMessage pNew newID now = .ok (p, pool))
    (hapart : (ScraperAction.getMessage pNew newID now).Apart s) :
    (s.give ⟨pool, p :: s.run.heldMsgs⟩ p).Owned := by
  refine h.give (h.pool.getMessage hnew hok) rfl (h.pool.getMessage_free hnew hok).1 ?_
  intro q grant hpc
  rw [getReusableMessage_fst hok]
  exact hapart q grant hpc

/-- What is done to messages that are not the handler's. -/
theorem Owned.others (h : s.Owned) {run : PoolRun} (hpool : PoolInv run)
    (hsub : ∀ q ∈ run.heldMsgs, q ∈ s.run.heldMsgs)
    (hkeep : ∀ q ∈ s.requests, q ∈ run.heldMsgs) : Owned { s with run } where
  pool := hpool
  nodup := h.nodup
  held := hkeep
  queued := h.queued
  atWork := h.atWork
  between q grant hpc := ⟨(h.between q grant hpc).1, fun hin =>
    (h.between q grant hpc).2 (hsub q hin)⟩
  clean := h.clean

theorem Owned.change (h : s.Owned) {p : ℕ} (m : Msg) (hp : p ∈ s.run.heldMsgs)
    (hnot : p ∉ s.requests) : Owned { s with run := ⟨s.run.pool.put p m,
      if m.msgState.held then s.run.heldMsgs else s.run.heldMsgs.filter (· ≠ p)⟩ } := by
  refine h.others (h.pool.change m hp) (fun q hq => ?_) (fun q hq => ?_)
  · dsimp only at hq
    split_ifs at hq
    · exact hq
    · exact (List.mem_filter.mp hq).1
  · have hne : q ≠ p := fun heq => hnot (heq ▸ hq)
    dsimp only
    split_ifs
    · exact h.held q hq
    · exact List.mem_filter.mpr ⟨h.held q hq, decide_eq_true hne⟩

theorem Owned.dispatch (h : s.Owned) {p : ℕ} (hp : p ∈ s.run.heldMsgs) (hnot : p ∉ s.requests) :
    Owned { s with jobQueue := (p, s.grants p) :: s.jobQueue } where
  pool := h.pool
  nodup := List.nodup_middle.mpr (List.nodup_cons.mpr ⟨hnot, h.nodup⟩)
  held q hq := by
    rcases List.mem_cons.mp (List.perm_middle.subset hq) with rfl | hq
    · exact hp
    · exact h.held q hq
  queued j hj := by
    rcases List.mem_cons.mp hj with rfl | hj
    · rfl
    · exact h.queued j hj
  atWork := h.atWork
  between := h.between
  clean := h.clean

theorem Owned.take (h : s.Owned) {p grant : ℕ} (hpc : s.pc = .waiting)
    (hin : (p, grant) ∈ s.jobQueue) :
    Owned { s with jobQueue := s.jobQueue.erase (p, grant), pc := .processing p grant } := by
  have hperm : s.requests.Perm (p :: (s.jobQueue.erase (p, grant)).map Prod.fst) := by
    unfold requests current
    rw [hpc]
    exact (List.perm_cons_erase hin).map Prod.fst
  refine ⟨h.pool, hperm.nodup_iff.mp h.nodup, fun q hq => h.held q (hperm.symm.subset hq),
    fun j hj => h.queued j (List.mem_of_mem_erase hj), ?_, nofun, h.clean⟩
  intro q grant' hwork
  obtain ⟨rfl, rfl⟩ : p = q ∧ grant = grant' := by simpa using hwork
  exact h.queued _ hin

/-- A reply is as much in use as the message that it is made of. -/
theorem replyTo_msgState (n m : Msg) : (n.replyTo m).msgState = n.msgState := by
  unfold Msg.replyTo
  cases m.msgConnectionType <;> rfl

theorem Owned.reply (h : s.Owned) {p grant pNew q : ℕ} {newID : Bytes} {now : ℤ} {pool : MsgPool}
    (hpc : s.pc = .processing p grant) (hnew : s.run.pool.objects pNew = none)
    (hok : s.run.pool.createMessageReply (some p) pNew newID now = .ok (q, pool)) :
    Owned { s.give ⟨pool, q :: s.run.heldMsgs⟩ q with pc := .replied p grant } := by
  have hp : p ∈ s.run.heldMsgs := by
    apply h.held
    apply List.mem_append_left
    unfold current
    rw [hpc]
    exact List.mem_singleton_self p
  obtain ⟨-, m, hm, hstate⟩ := h.pool.held p hp
  have hget : ∃ y, s.run.pool.getReusableMessage pNew newID now = .ok (q, y) := by
    obtain ⟨⟨q', y⟩, hget, hrest⟩ := bind_eq_ok.mp hok
    obtain ⟨_, -, hrest⟩ := bind_eq_ok.mp hrest
    obtain ⟨_, -, hrest⟩ := bind_eq_ok.mp hrest
    obtain ⟨rfl, -⟩ := Prod.mk.inj (Except.ok.inj hrest)
    exact ⟨y, hget⟩
  obtain ⟨y, hget⟩ := hget
  have hfree := (h.pool.getMessage_free hnew hget).1
  have hne : q ≠ p := fun heq => hfree (heq ▸ hp)
  obtain ⟨y', old, hget', rfl⟩ := MsgPool.createMessageReply_objects hm hne hok
  have hgot := h.pool.getMessage hnew hget'
  -- The request is marked as cloned, and the reply written; both stay held.
  have hcloned : m.setCloned.msgState.held = true := hstate
  have hmarked := hgot.change m.setCloned (List.mem_cons_of_mem q hp)
  rw [if_pos hcloned] at hmarked
  have hreply : ((old.reuse newID now).replyTo m.setCloned).msgState.held = true := by
    rw [replyTo_msgState]
    rfl
  have hwritten := hmarked.change ((old.reuse newID now).replyTo m.setCloned) List.mem_cons_self
  rw [if_pos hreply] at hwritten
  have hgiven := h.give hwritten rfl hfree fun q' grant' hpc' => by
    rw [hpc] at hpc'
    cases hpc'
  have hrequests : ScraperRun.requests { s.give ⟨(y'.put p m.setCloned).put q
      ((old.reuse newID now).replyTo m.setCloned), q :: s.run.heldMsgs⟩ q with
      pc := .replied p grant } = s.requests := by
    unfold requests current
    rw [hpc]
    rfl
  refine ⟨hgiven.pool, hrequests ▸ h.nodup, fun q' hq' => hgiven.held q' (hrequests ▸ hq'),
    hgiven.queued, ?_, nofun, hgiven.clean⟩
  intro q' grant' hwork
  obtain ⟨rfl, rfl⟩ : p = q' ∧ grant = grant' := by simpa using hwork
  exact hgiven.atWork p grant (Or.inl hpc)

/-- The first mark releases a message that was the handler's all the time. -/
theorem Owned.firstMark (h : s.Owned) {p grant : ℕ} {m : Msg} (hpc : s.pc = .replied p grant) :
    (s.mark p grant m (.marked p grant)).Owned := by
  have hrequests : s.requests = p :: s.jobQueue.map Prod.fst := by
    unfold requests current
    rw [hpc]
    rfl
  have hp : p ∈ s.run.heldMsgs := h.held p (hrequests ▸ List.mem_cons_self)
  have hgrant := h.atWork p grant (Or.inr hpc)
  obtain ⟨hnot, hnodup⟩ := List.nodup_cons.mp (hrequests ▸ h.nodup)
  refine ⟨h.pool.change m.markProcessed hp, hnodup, fun q hq => ?_, h.queued,
    fun _ _ hwork => hwork.elim nofun nofun, fun q grant' hmarked => ?_, ?_⟩
  · have hne : q ≠ p := fun heq => hnot (heq ▸ hq)
    exact List.mem_filter.mpr ⟨h.held q (hrequests ▸ List.mem_cons_of_mem p hq), decide_eq_true hne⟩
  · obtain ⟨rfl, rfl⟩ := ScraperPc.marked.inj hmarked
    refine ⟨hgrant, fun hin => ?_⟩
    exact of_decide_eq_true (List.mem_filter.mp hin).2 rfl
  · exact (if_pos hgrant).trans h.clean

/-- So does the second one, while the message is nobody else's. -/
theorem Owned.secondMark (h : s.Owned) {p grant : ℕ} {m : Msg} (hpc : s.pc = .marked p grant) :
    (s.mark p grant m .waiting).Owned := by
  obtain ⟨hgrant, hnot⟩ := h.between p grant hpc
  have hfilter : s.run.heldMsgs.filter (· ≠ p) = s.run.heldMsgs := by
    rw [List.filter_eq_self]
    exact fun q hq => decide_eq_true fun heq => hnot (heq ▸ hq)
  have hput (q : ℕ) (hne : q ≠ p) :
      (s.run.pool.put p m.markProcessed).objects q = s.run.pool.objects q :=
    MsgPool.put_objects_of_ne _ hne _
  have hpool : PoolInv ⟨s.run.pool.put p m.markProcessed, s.run.heldMsgs⟩ := by
    refine ⟨h.pool.wellFormed.put p _, h.pool.nodup, fun q hq => ?_, fun q hq => ?_⟩
    · refine ⟨(h.pool.stack q hq).1, ?_⟩
      by_cases heq : q = p
      · rw [heq]
        exact ⟨_, MsgPool.put_objects_self _ _ _, rfl⟩
      · rw [hput q heq]
        exact (h.pool.stack q hq).2
    · have hne : q ≠ p := fun heq => hnot (heq ▸ hq)
      rw [hput q hne]
      exact h.pool.held q hq
  have hrequests : (s.mark p grant m .waiting).requests = s.requests := by
    unfold requests current
    rw [hpc]
    rfl
  have hrun : (s.mark p grant m .waiting).run =
      ⟨s.run.pool.put p m.markProcessed, s.run.heldMsgs⟩ := congrArg (PoolRun.mk _) hfilter
  refine ⟨hrun ▸ hpool, hrequests ▸ h.nodup, fun q hq => ?_, h.queued,
    fun _ _ hwork => hwork.elim nofun nofun, nofun, ?_⟩
  · rw [hrun]
    exact h.held q (hrequests ▸ hq)
  · exact (if_pos hgrant).trans h.clean

theorem Owned.step (h : s.Owned) {a : ScraperAction} (hstep : ApartStep s a t) : t.Owned := by
  obtain ⟨hstep, hapart⟩ := hstep
  cases hstep with
  | getMessage hnew hok => exact h.getMessage hnew hok hapart
  | change hp hnot => exact h.change _ hp hnot
  | flush hok =>
    refine h.others (h.pool.flush hok) (fun q hq => hq) h.held
  | dispatch hp hnot => exact h.dispatch hp hnot
  | take hpc hin => exact h.take hpc hin
  | reply hpc hnew hok => exact h.reply hpc hnew hok
  | firstMark hpc _ => exact h.firstMark hpc
  | secondMark hpc _ => exact h.secondMark hpc

/-- `MarkProcessed` is only applied to the handler's own message as long as the pool does not give
away a request between its marks. When it is about to, the second mark can go astray. -/
theorem strays_nil {as : List ScraperAction} (hrun : Run ApartStep {} as s) :
    s.strays = [] ∧ ∀ pNew newID now, s.run.pool.objects pNew = none →
      ¬ (ScraperAction.getMessage pNew newID now).Apart s →
      ∃ t, Run ScraperStep s [.getMessage pNew newID now, .secondMark] t ∧ t.strays ≠ [] := by
  have h : s.Owned := hrun.invariant (fun _ _ _ h hstep => h.step hstep) .initial
  refine ⟨h.clean, fun pNew newID now hnew hnot => ?_⟩
  obtain ⟨p, grant, hpc, hfst⟩ : ∃ p grant, s.pc = .marked p grant ∧
      s.run.pool.freeMsgStack.head?.getD pNew = p := by
    by_contra hno
    exact hnot fun p grant hpc hfst => hno ⟨p, grant, hpc, hfst⟩
  have hget : ∃ q pool, s.run.pool.getReusableMessage pNew newID now = .ok (q, pool) := by
    unfold MsgPool.getReusableMessage
    cases hstack : s.run.pool.freeMsgStack with
    | nil =>
      exact ⟨_, _, bind_eq_ok.mpr
        ⟨_, MsgPool.deref_some (MsgPool.put_objects_self s.run.pool pNew {}), rfl⟩⟩
    | cons top rest =>
      obtain ⟨-, m, hm, -⟩ := h.pool.stack top (hstack ▸ List.mem_cons_self)
      exact ⟨_, _, bind_eq_ok.mpr ⟨m, MsgPool.deref_some hm, rfl⟩⟩
  obtain ⟨q, pool, hok⟩ := hget
  obtain rfl : q = p := (getReusableMessage_fst hok).trans hfst
  obtain ⟨⟨old, hm⟩, -⟩ := MsgPool.getReusableMessage_objects hok
  have hgrant := (h.between q grant hpc).1
  have hmark : ScraperStep (s.give ⟨pool, q :: s.run.heldMsgs⟩ q) .secondMark _ :=
    .secondMark hpc hm
  refine ⟨_, (Run.nil.snoc (.getMessage hnew hok)).snoc hmark, ?_⟩
  have hne : (s.give ⟨pool, q :: s.run.heldMsgs⟩ q).grants q ≠ grant := by
    change Function.update s.grants q (s.grants q+1) q ≠ grant
    rw [Function.update_self]
    omega
  change (if (s.give ⟨pool, q :: s.run.heldMsgs⟩ q).grants q = grant then s.strays
    else q :: s.strays) ≠ []
  rw [if_neg hne]
  exact List.cons_ne_nil _ _

/-! ### A request that is marked around a flush -/

/-- A request is answered and marked once, and the queue sweeps. -/
def markedActions : List ScraperAction :=
  [.getMessage 1 (bytes "id1") 0, .dispatch 1, .take 1, .reply 2 (bytes "id2") 0, .firstMark,
    .flush 5]

set_option maxRecDepth 20000 in
theorem markedActions_run : ∃ s, Run ApartStep {} markedActions s ∧ s.pc = .marked 1 1 ∧
    s.run.pool.objects 3 = none ∧ s.run.pool.freeMsgStack = [1] ∧
    ∃ m, s.run.pool.objects 1 = some m :=
  ⟨_, ((((((Run.nil.snoc ⟨.getMessage rfl rfl, nofun⟩).snoc
    ⟨.dispatch List.mem_cons_self List.not_mem_nil, trivial⟩).snoc
    ⟨.take rfl List.mem_cons_self, trivial⟩).snoc ⟨.reply rfl rfl rfl, trivial⟩).snoc
    ⟨.firstMark rfl rfl, trivial⟩).snoc ⟨.flush rfl, trivial⟩), rfl, rfl, rfl, _, rfl⟩

theorem strays_nil_flushed : ∃ s, Run ApartStep {} (markedActions ++ [.secondMark]) s ∧
    s.strays = [] := by
  obtain ⟨s, hrun, hpc, -, -, m, hm⟩ := markedActions_run
  have hmark : ApartStep s .secondMark (s.mark 1 1 m .waiting) := ⟨.secondMark hpc hm, trivial⟩
  have hlast := hrun.snoc hmark
  exact ⟨_, hlast, (strays_nil hlast).1⟩

/-- The pool gives the message away between the two marks. -/
theorem second_mark_astray : ∃ as s, Run ScraperStep {} as s ∧ s.strays = [1] := by
  obtain ⟨s, hrun, hpc, hnew, hstack, m, hm⟩ := markedActions_run
  have h : s.Owned := hrun.invariant (fun _ _ _ h hstep => h.step hstep) .initial
  have hget : ∃ pool, s.run.pool.getReusableMessage 3 (bytes "id3") 6 = .ok (1, pool) := by
    unfold MsgPool.getReusableMessage
    rw [hstack]
    exact ⟨_, bind_eq_ok.mpr ⟨m, MsgPool.deref_some hm, rfl⟩⟩
  obtain ⟨pool, hget⟩ := hget
  have hgiven := (hrun.mono fun _ _ _ hstep => hstep.1).snoc (.getMessage hnew hget)
  obtain ⟨⟨old, hold⟩, -⟩ := MsgPool.getReusableMessage_objects hget
  have hmark := ScraperStep.secondMark (s := s.give ⟨pool, 1 :: s.run.heldMsgs⟩ 1) hpc hold
  refine ⟨_, _, hgiven.snoc hmark, ?_⟩
  have hne : (s.give ⟨pool, 1 :: s.run.heldMsgs⟩ 1).grants 1 ≠ 1 := by
    change Function.update s.grants 1 (s.grants 1+1) 1 ≠ 1
    rw [Function.update_self, (h.between 1 1 hpc).1]
    decide
  exact (if_neg hne).trans (congrArg _ h.clean)

end ScraperRun

end MsgCourier
