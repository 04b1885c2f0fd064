import MsgCourier.PendingSweep
import MsgCourier.PoolRun

/-! Retries of undelivered messages over whole runs of the queue. -/
namespace MsgCourier
open ListSearch CText Runs

/-! ### Runs with retries -/

/-- The pool, the times of the retries of each message since its last reset, the latest first, and
the last reading of the clock. -/
structure RetryRun where
  pool : MsgPool := {}
  retries : ℕ → List ℤ := fun _ => []
  clock : ℤ

/-- A caller takes a message, any thread changes one but for its retry fields, the queue sweeps, or
looks for pending messages with two readings of the clock for each, none behind `upto`. -/
inductive RetryAction
  | getMessage (pNew : ℕ) (newID : Bytes) (now : ℤ)
  | change (pMsg : ℕ) (m : Msg)
  | flush (currentTime : ℤ)
  | pending (clock : ℕ → ℤ × ℤ) (upto : ℤ)

/-- Only the queue changes the three fields of a retry. -/
def SameRetry (m m' : Msg) : Prop :=
  m'.msgSendRetryCount = m.msgSendRetryCount ∧ m'.msgSendRetryDelay = m.msgSendRetryDelay ∧
    m'.msgLastRetryTS = m.msgLastRetryTS

/-- A move from UNDELIVERED to PENDING is a retry. -/
def moved (o o' : Option Msg) : Bool :=
  o.any (fun m => decide (m.msgState = .undelivered)) &&
    o'.any (fun m => decide (m.msgState = .pending))

inductive RetryStep : RetryRun → RetryAction → RetryRun → Prop
  | getMessage {s : RetryRun} {pNew p : ℕ} {newID : Bytes} {now : ℤ} {pool : MsgPool} :
      s.pool.objects pNew = none → s.pool.getReusableMessage pNew newID now = .ok (p, pool) →
      RetryStep s (.getMessage pNew newID now) ⟨pool, Function.update s.retries p [], s.clock⟩
  | change {s : RetryRun} {p : ℕ} {m m' : Msg} :
      s.pool.objects p = some m → SameRetry m m' →
      RetryStep s (.change p m') ⟨s.pool.put p m', s.retries, s.clock⟩
  | flush {s : RetryRun} {currentTime : ℤ} {pool : MsgPool} {examined : List ℕ} :
      s.pool.flushMessages currentTime = .ok (pool, examined) →
      RetryStep s (.flush currentTime) ⟨pool, s.retries, s.clock⟩
  | pending {s : RetryRun} {clock : ℕ → ℤ × ℤ} {upto : ℤ} {pool : MsgPool} {queue : List ℕ} :
      (∀ p, s.clock ≤ (clock p).1 ∧ (clock p).1 ≤ (clock p).2 ∧ (clock p).2 ≤ upto) →
      s.pool.processPendingMessages clock = .ok (pool, queue) →
      RetryStep s (.pending clock upto) ⟨pool, fun p =>
        if moved (s.pool.objects p) (pool.objects p) then (clock p).2 :: s.retries p
        else s.retries p, upto⟩

/-! ### The back-off -/

/-- The `k`-th retry is at least `2^(k-2)` seconds after the one before it. -/
def Spaced : List ℤ → Prop
  | t :: t' :: ts => t'+2^ts.length ≤ t ∧ Spaced (t' :: ts)
  | _ => True

/-- What a message remembers of its retries. -/
structure BackedOff (m : Msg) (times : List ℤ) : Prop where
  count : m.msgSendRetryCount = times.length
  atMost : times.length ≤ 10
  delay : m.msgSendRetryDelay = 2^(times.length-1)
  delay_le : m.msgSendRetryDelay ≤ 512
  last : m.msgLastRetryTS = times.headD 0
  spaced : Spaced times

/-- A pass does not overflow: for every message it may retry again, the end of the waiting time is
an `int`. -/
def RetryAction.InRange (s : RetryRun) : RetryAction → Prop
  | .pending _ _ => ∀ p ∈ s.pool.messages, ∀ m, s.pool.objects p = some m →
      m.msgState = .undelivered → m.tcpSocketHandle = -1 → m.msgSendRetryCount ≠ 0 →
      m.msgLastRetryTS+m.msgSendRetryDelay ≤ intMax
  | .getMessage _ _ _ | .change _ _ | .flush _ => True

/-- A pass over the pool of `s` that retries no message with a socket and drops a message that is
due after ten retries. -/
def PassBounded (s : RetryRun) (p : ℕ) (m : Msg) : Prop :=
  ∀ clock upto t, RetryStep s (.pending clock upto) t →
    (RetryAction.pending clock upto).InRange s →
    (m.tcpSocketHandle ≠ -1 → t.retries p = s.retries p) ∧
    (m.msgState = .undelivered → m.tcpSocketHandle = -1 → (s.retries p).length = 10 →
      m.msgLastRetryTS+m.msgSendRetryDelay ≤ (clock p).1 →
      ∃ m', t.pool.objects p = some m' ∧ m'.msgState = .markForReuse)

theorem BackedOff.of_sameRetry {m m' : Msg} {times : List ℤ} (h : BackedOff m times)
    (hs : SameRetry m m') : BackedOff m' times where
  count := hs.1.trans h.count
  atMost := h.atMost
  delay := hs.2.1.trans h.delay
  delay_le := hs.2.1 ▸ h.delay_le
  last := hs.2.2.trans h.last
  spaced := h.spaced

theorem backedOff_reuse (m : Msg) (newID : Bytes) (now : ℤ) : BackedOff (m.reuse newID now) [] where
  count := rfl
  atMost := by simp
  delay := rfl
  delay_le := by
    change (1 : ℤ) ≤ 512
    decide
  last := rfl
  spaced := trivial

/-- The three things that can happen to an undelivered message without a socket: it waits, it is
dropped after ten retries, or it is retried. -/
theorem failedDelivery_cases {m : Msg} {times : List ℤ} (h : BackedOff m times)
    (hpos : ∀ t ∈ times, 0 < t) (hfd : m.tcpSocketHandle = -1) {curtime now : ℤ}
    (hnow : curtime ≤ now)
    (hrange : m.msgSendRetryCount ≠ 0 → m.msgLastRetryTS+m.msgSendRetryDelay ≤ intMax) :
    (curtime < m.msgLastRetryTS+m.msgSendRetryDelay ∧ m.failedDelivery curtime now = m) ∨
    m.failedDelivery curtime now = m.setMsgState .markForReuse ∨
    (times.length < 10 ∧ (m.failedDelivery curtime now).msgState = .pending ∧
      BackedOff (m.failedDelivery curtime now) (now :: times)) := by
  have hcount := h.count
  have hdelay := h.delay
  have hle := h.delay_le
  have hlast := h.last
  unfold Msg.failedDelivery
  rw [if_neg (not_not.mpr hfd)]
  cases times with
  | nil =>
    -- the first retry is not delayed and leaves the delay as it is
    rw [List.length_nil] at hcount hdelay
    rw [if_neg (by rw [hcount]; simp), if_pos (by rw [hlast]; rfl)]
    exact Or.inr (Or.inr ⟨by simp, rfl, rfl, by simp, hdelay, hle, rfl, trivial⟩)
  | cons t ts =>
    rw [List.length_cons] at hcount hdelay
    rw [List.headD_cons] at hlast
    have hle10 : ts.length+1 ≤ 10 := h.atMost
    have ht : 0 < t := hpos t List.mem_cons_self
    have hpow : (0 : ℤ) < 2^ts.length := by positivity
    rw [Nat.add_sub_cancel] at hdelay
    have hne : m.msgSendRetryCount ≠ 0 := by omega
    have hsum : int32 (m.msgLastRetryTS+m.msgSendRetryDelay) =
        m.msgLastRetryTS+m.msgSendRetryDelay :=
      int32_eq (by omega) (hrange hne)
    rw [hsum]
    by_cases hwait : curtime < m.msgLastRetryTS+m.msgSendRetryDelay
    · rw [if_pos ⟨hne, hwait⟩]
      exact Or.inl ⟨hwait, rfl⟩
    rw [if_neg (fun hw => hwait hw.2), if_neg (by omega)]
    unfold Msg.maxMsgRetry
    by_cases hmax : (10 : ℤ)-1 < m.msgSendRetryCount
    · rw [if_pos hmax]
      exact Or.inr (Or.inl rfl)
    rw [if_neg hmax]
    have hlt : ts.length+1 < 10 := by omega
    have hsmall : (2 : ℤ)^ts.length ≤ 2^8 := pow_le_pow_right₀ (by decide) (by omega)
    have hcount' : int32 (m.msgSendRetryCount+1) = m.msgSendRetryCount+1 :=
      int32_eq (by omega) (by unfold intMax; omega)
    have hdelay' : int32 (m.msgSendRetryDelay+m.msgSendRetryDelay) =
        m.msgSendRetryDelay+m.msgSendRetryDelay :=
      int32_eq (by omega) (by unfold intMax; omega)
    rw [hcount', hdelay']
    refine Or.inr (Or.inr ⟨hlt, rfl, ?_, ?_, ?_, ?_, rfl, ?_, h.spaced⟩)
    · simp only [List.length_cons, Nat.cast_add, Nat.cast_one]
      omega
    · simp only [List.length_cons]
      omega
    · simp only [List.length_cons, Nat.add_sub_cancel, pow_succ]
      omega
    · dsimp only
      omega
    · omega

/-! ### Steps -/

/-- The pool is in order and every message of it remembers its retries, all of them in the past. -/
structure RetryInv (s : RetryRun) : Prop where
  wellFormed : s.pool.WellFormed
  positive : 0 < s.clock
  backedOff : ∀ p ∈ s.pool.messages, ∀ m, s.pool.objects p = some m →
    BackedOff m (s.retries p) ∧ ∀ t ∈ s.retries p, 0 < t

/-- What a pass does to one message. -/
theorem RetryInv.pass {s t : RetryRun} (hi : RetryInv s) {clock : ℕ → ℤ × ℤ} {upto : ℤ}
    (hstep : RetryStep s (.pending clock upto) t)
    (hrange : (RetryAction.pending clock upto).InRange s) {p : ℕ} (hp : p ∈ s.pool.messages)
    {m : Msg} (hm : s.pool.objects p = some m) :
    ∃ m', t.pool.objects p = some m' ∧
      ((t.retries p = s.retries p ∧ BackedOff m' (s.retries p)) ∨
        (m.tcpSocketHandle = -1 ∧ t.retries p = (clock p).2 :: s.retries p ∧
          BackedOff m' ((clock p).2 :: s.retries p) ∧ s.clock ≤ (clock p).2)) ∧
      (m.msgState = .undelivered → m.tcpSocketHandle = -1 → (s.retries p).length = 10 →
        m.msgLastRetryTS+m.msgSendRetryDelay ≤ (clock p).1 → m'.msgState = .markForReuse) := by
  obtain ⟨hback, hpos⟩ := hi.backedOff p hp m hm
  cases hstep with
  | @pending _ _ pool queue hclock hrun =>
  obtain ⟨-, hpassed, hok⟩ := MsgPool.passed_of_processPendingMessages hi.wellFormed hrun
  obtain ⟨n, r, hn, hr⟩ := hok p hp
  rw [hm, Option.some.injEq] at hn
  subst hn
  have hobj := hpassed.processed p hp m r hm hr
  obtain ⟨hclock₁, hclock₂, -⟩ := hclock p
  refine ⟨r.1, hobj, ?_⟩
  have hkept : moved (s.pool.objects p) (pool.objects p) = false →
      BackedOff r.1 (s.retries p) →
      (if moved (s.pool.objects p) (pool.objects p) then (clock p).2 :: s.retries p
        else s.retries p) = s.retries p ∧ BackedOff r.1 (s.retries p) := by
    intro hmoved hb
    rw [hmoved]
    exact ⟨rfl, hb⟩
  rw [hm, hobj] at hkept
  dsimp only
  rw [hm, hobj]
  by_cases hstate : m.msgState = .undelivered
  · have hfailed : r.1 = m.failedDelivery (clock p).1 (clock p).2 := by
      unfold Msg.processPending at hr
      rw [hstate] at hr
      rw [← Except.ok.inj hr]
    by_cases hfd : m.tcpSocketHandle = -1
    · rcases failedDelivery_cases hback hpos hfd hclock₂
        (hrange p hp m hm hstate hfd) with ⟨hwait, heq⟩ | heq | ⟨hlt, hpending, hnext⟩
      · rw [← hfailed] at heq
        refine ⟨Or.inl (hkept ?_ (by rw [heq]; exact hback)), fun _ _ _ hdue => ?_⟩
        · rw [heq, moved, Option.any_some, Option.any_some, hstate]
          rfl
        · omega
      · rw [← hfailed] at heq
        refine ⟨Or.inl (hkept ?_ ?_), fun _ _ _ _ => by rw [heq]; rfl⟩
        · rw [heq]
          exact Bool.and_false _
        · rw [heq]
          exact hback.of_sameRetry ⟨rfl, rfl, rfl⟩
      · rw [← hfailed] at hpending hnext
        have hmoved : moved (some m) (some r.1) = true := by
          rw [moved, Option.any_some, Option.any_some, hstate, hpending]
          rfl
        rw [hmoved]
        exact ⟨Or.inr ⟨hfd, rfl, hnext, hclock₁.trans hclock₂⟩, fun _ _ hten _ => by omega⟩
    · -- with a socket the message is dropped
      have hdrop : r.1 = m.setMsgState .markForReuse := by
        rw [hfailed, Msg.failedDelivery, if_pos hfd]
      refine ⟨Or.inl (hkept ?_ ?_), fun _ hfd' => absurd hfd' hfd⟩
      · rw [hdrop]
        exact Bool.and_false _
      · rw [hdrop]
        exact hback.of_sameRetry ⟨rfl, rfl, rfl⟩
  · -- a message in any other state keeps its retries
    have hsame : SameRetry m r.1 := by
      unfold Msg.processPending at hr
      cases hst : m.msgState with
      | undelivered => exact absurd hst hstate
      | pending =>
        rw [hst] at hr
        dsimp only at hr
        split_ifs at hr
        rw [← Except.ok.inj hr]
        exact ⟨rfl, rfl, rfl⟩
      | _ =>
        rw [hst] at hr
        rw [← Except.ok.inj hr]
        exact ⟨rfl, rfl, rfl⟩
    refine ⟨Or.inl (hkept ?_ (hback.of_sameRetry hsame)), fun h => absurd h hstate⟩
    rw [moved, Option.any_some, decide_eq_false hstate, Bool.false_and]

theorem RetryInv.step {s t : RetryRun} {a : RetryAction} (hi : RetryInv s)
    (hstep : RetryStep s a t) (hrange : a.InRange s) : RetryInv t := by
  have hw := hi.wellFormed
  cases hstep with
  | @getMessage pNew p newID now pool hnew hok =>
    refine ⟨hw.getReusableMessage hnew hok, hi.positive, fun q hq m hm => ?_⟩
    dsimp only at hq hm ⊢
    by_cases hqp : q = p
    · -- the message has just been reset
      rw [hqp, Function.update_self]
      have hreuse : ∃ old, m = Msg.reuse old newID now := by
        rw [hqp] at hm
        rcases MsgPool.getReusableMessage_cases hok with ⟨rest, old, -, -, rfl⟩ | ⟨-, -, rfl⟩
        · exact ⟨old, (by simpa [MsgPool.put] using hm.symm)⟩
        · exact ⟨{}, (by simpa [MsgPool.put] using hm.symm)⟩
      obtain ⟨old, rfl⟩ := hreuse
      exact ⟨backedOff_reuse old newID now, by simp⟩
    · rw [Function.update_of_ne hqp]
      rcases MsgPool.getReusableMessage_cases hok with ⟨rest, old, -, -, rfl⟩ | ⟨-, -, rfl⟩
      · exact hi.backedOff q hq m (by simpa [MsgPool.put, hqp] using hm)
      · have hq' : q ∈ s.pool.messages := by simpa [hqp] using hq
        exact hi.backedOff q hq' m (by simpa [MsgPool.put, hqp] using hm)
  | @change p m m' hm hs =>
    refine ⟨hw.put p m', hi.positive, fun q hq n hn => ?_⟩
    dsimp only at hq hn ⊢
    by_cases hqp : q = p
    · have hn' : m' = n := by simpa [MsgPool.put, hqp] using hn
      rw [hqp] at hq ⊢
      obtain ⟨hback, hpos⟩ := hi.backedOff p hq m hm
      exact ⟨hn' ▸ hback.of_sameRetry hs, hpos⟩
    · exact hi.backedOff q hq n (by simpa [MsgPool.put, hqp] using hn)
  | @flush currentTime pool examined hok =>
    refine ⟨hw.flushMessages hok, hi.positive, fun q hq m hm => ?_⟩
    have hswept := MsgPool.swept_of_flushMessages hw hok
    dsimp only at hq hm ⊢
    rw [hswept.messages, List.mem_filter] at hq
    obtain ⟨old, hold⟩ := Option.isSome_iff_exists.mp (hw.allocated q hq.1)
    obtain ⟨hback, hpos⟩ := hi.backedOff q hq.1 old hold
    rw [hswept.objects, hold] at hm
    refine ⟨hback.of_sameRetry ?_, hpos⟩
    unfold MsgPool.sweptObject at hm
    rw [Option.bind_some] at hm
    split_ifs at hm
    · rw [← Option.some.inj hm]
      exact ⟨rfl, rfl, rfl⟩
    · rw [← Option.some.inj hm]
      exact ⟨rfl, rfl, rfl⟩
    · rw [← Option.some.inj hm]
      exact ⟨rfl, rfl, rfl⟩
  | @pending clock upto pool queue hclock hrun =>
    obtain ⟨-, hpassed, hok⟩ := MsgPool.passed_of_processPendingMessages hw hrun
    have hupto : s.clock ≤ upto := by
      obtain ⟨h₁, h₂, h₃⟩ := hclock 0
      omega
    refine ⟨hpassed.wellFormed hw hok, lt_of_lt_of_le hi.positive hupto, fun q hq m hm => ?_⟩
    have hq' : q ∈ s.pool.messages := hpassed.messages ▸ hq
    obtain ⟨old, hold⟩ := Option.isSome_iff_exists.mp (hw.allocated q hq')
    obtain ⟨m', hm', hcases, -⟩ := hi.pass (RetryStep.pending hclock hrun) hrange hq' hold
    have heq : m' = m := Option.some.inj (hm'.symm.trans hm)
    subst heq
    obtain ⟨-, hpos⟩ := hi.backedOff q hq' old hold
    rcases hcases with ⟨hretries, hback⟩ | ⟨-, hretries, hback, hlate⟩
    · rw [hretries]
      exact ⟨hback, hpos⟩
    · rw [hretries]
      refine ⟨hback, fun u hu => ?_⟩
      rcases List.mem_cons.mp hu with rfl | hu
      · exact lt_of_lt_of_le hi.positive hlate
      · exact hpos u hu

/-- In every run from an empty pool whose passes stay in the range of `int`, every message of the
pool has backed off as it should, and the next pass retries none with a socket and drops one that is
due after the tenth retry. -/
theorem retry_backs_off {clock : ℤ} (hclock : 0 < clock) {as : List RetryAction} {t : RetryRun}
    (hrun : Run (fun s a u => RetryStep s a u ∧ a.InRange s) { clock } as t) {p : ℕ} {m : Msg}
    (hp : p ∈ t.pool.messages) (hm : t.pool.objects p = some m) :
    BackedOff m (t.retries p) ∧ PassBounded t p m := by
  have hinit : RetryInv { clock } :=
    ⟨⟨List.nodup_nil, by simp⟩, hclock, fun q hq => absurd hq (by simp)⟩
  have hi : RetryInv t := hrun.invariant (fun _ _ _ hi h => hi.step h.1 h.2) hinit
  refine ⟨(hi.backedOff p hp m hm).1, fun c upto u hstep hrange => ?_⟩
  obtain ⟨m', hm', hcases, hdrop⟩ := hi.pass hstep hrange hp hm
  refine ⟨fun hfd => ?_, fun hstate hfd hten hdue => ⟨m', hm', hdrop hstate hfd hten hdue⟩⟩
  rcases hcases with ⟨hretries, -⟩ | ⟨hfd', -⟩
  · exact hretries
  · exact absurd hfd' hfd

/-! ### Two runs -/

/-- A message of the pool as a failed delivery leaves it. -/
theorem RetryStep.fail {s : RetryRun} (p : ℕ) {m : Msg} (hm : s.pool.objects p = some m) :
    RetryStep s (.change p (m.setMsgState .undelivered))
      ⟨s.pool.put p (m.setMsgState .undelivered), s.retries, s.clock⟩ :=
  RetryStep.change hm ⟨rfl, rfl, rfl⟩

/-- The first message of an empty pool. -/
theorem RetryStep.first {s : RetryRun} (now : ℤ) {p : ℕ} {pool : MsgPool}
    (hnew : s.pool.objects 1 = none) (hok : s.pool.getReusableMessage 1 [] now = .ok (p, pool)) :
    RetryStep s (.getMessage 1 [] now) ⟨pool, Function.update s.retries p [], s.clock⟩ :=
  RetryStep.getMessage hnew hok

/-- Every clock reading is `t`. -/
def still (t : ℤ) : ℕ → ℤ × ℤ := fun _ => (t, t)

theorem RetryStep.passAt {s : RetryRun} (t : ℤ) {pool : MsgPool} {queue : List ℕ}
    (ht : s.clock ≤ t) (hrun : s.pool.processPendingMessages (still t) = .ok (pool, queue)) :
    RetryStep s (.pending (still t) t) ⟨pool, fun p =>
        if moved (s.pool.objects p) (pool.objects p) then t :: s.retries p else s.retries p, t⟩ :=
  RetryStep.pending (fun _ => ⟨ht, le_rfl, le_rfl⟩) hrun

theorem retry_backs_off_first : ∃ as t m,
    Run (fun s a u => RetryStep s a u ∧ a.InRange s) { clock := 5 } as t ∧
      t.pool.objects 1 = some m ∧ t.retries 1 = [7] ∧ BackedOff m (t.retries 1) ∧
      PassBounded t 1 m := by
  have hrun : ∃ as t m, Run (fun s a u => RetryStep s a u ∧ a.InRange s) { clock := 5 } as t ∧
      1 ∈ t.pool.messages ∧ t.pool.objects 1 = some m ∧ t.retries 1 = [7] := by
    refine ⟨_, _, _, ((Run.nil.snoc ⟨RetryStep.first 5 rfl rfl, trivial⟩).snoc
      ⟨RetryStep.fail 1 rfl, trivial⟩).snoc
      ⟨RetryStep.passAt 7 (by decide) rfl, ?_⟩, List.mem_cons_self, rfl, rfl⟩
    intro p hp m hm _ _ hne
    rw [List.mem_singleton.mp hp] at hm
    rw [← Option.some.inj hm] at hne
    exact absurd rfl hne
  obtain ⟨as, t, m, hrun, hp, hm, hretries⟩ := hrun
  exact ⟨as, t, m, hrun, hm, hretries, retry_backs_off (by decide) hrun hp hm⟩

/-- With the clock at the end of its range the second waiting time overflows, and the third retry
comes in the same second as the second. -/
theorem retry_not_spaced : ∃ as t m, Run RetryStep { clock := 2147483646 } as t ∧
    t.pool.objects 1 = some m ∧ m.msgState = .pending ∧
      t.retries 1 = [2147483647, 2147483647, 2147483646] ∧ ¬ BackedOff m (t.retries 1) := by
  have hrun : ∃ as t m, Run RetryStep { clock := 2147483646 } as t ∧
      t.pool.objects 1 = some m ∧ m.msgState = .pending ∧
      t.retries 1 = [2147483647, 2147483647, 2147483646] :=
    ⟨_, _, _, ((((((Run.nil.snoc
      (RetryStep.first 2147483646 rfl rfl)).snoc
      (RetryStep.fail 1 rfl)).snoc (RetryStep.passAt 2147483646 (by decide) rfl)).snoc
      (RetryStep.fail 1 rfl)).snoc (RetryStep.passAt 2147483647 (by decide) rfl)).snoc
      (RetryStep.fail 1 rfl)).snoc (RetryStep.passAt 2147483647 (by decide) rfl),
      rfl, rfl, rfl⟩
  obtain ⟨as, t, m, hrun, hm, hstate, hretries⟩ := hrun
  refine ⟨as, t, m, hrun, hm, hstate, hretries, fun hback => ?_⟩
  have hspaced := hback.spaced
  rw [hretries] at hspaced
  exact absurd hspaced.1 (by decide)

end MsgCourier
