import MsgCourier.PoolSweep

/-! `ProcessPendingMessages` does to every message of the pool what it does to one. -/
namespace MsgCourier
open ListSearch CText

namespace MsgPool

/-- A pool `ProcessPendingMessages` gets through: no message waits without a connection type. -/
structure Sweepable (x : MsgPool) : Prop where
  wellFormed : x.WellFormed
  typed : ∀ p ∈ x.messages, ∀ m, x.objects p = some m → m.msgState = .pending →
    m.msgConnectionType ≠ .notSet

theorem processPending_ok {m : Msg} (h : m.msgState = .pending → m.msgConnectionType ≠ .notSet)
    (curtime now : ℤ) : ∃ r, m.processPending curtime now = .ok r := by
  unfold Msg.processPending
  cases hs : m.msgState with
  | pending =>
    dsimp only
    rw [if_pos (h hs)]
    exact ⟨_, rfl⟩
  | _ => exact ⟨_, rfl⟩

/-- The pool after the sweep looked at the message `p` and made it `m`. -/
def stepped (x : MsgPool) (p : ℕ) (m : Msg) : MsgPool := (x.put p m).moveTo (x.it+1)

theorem pendingLoop_succ (clock : ℕ → ℤ × ℤ) (fuel : ℕ) {x : MsgPool} {p : ℕ} {m m' : Msg}
    {queued : Bool}
    (hlock : x.bLocked = true) (hit : x.it < x.messages.length) (hm : x.objects p = some m)
    (hr : m.processPending (clock p).1 (clock p).2 = .ok (m', queued)) :
    pendingLoop clock (fuel+1) x p =
      match x.messages[x.it+1]? with
      | none => .ok (x.stepped p m', if queued then [p] else [])
      | some next =>
        (pendingLoop clock fuel (x.stepped p m') next >>= fun r =>
          .ok (r.1, if queued then p :: r.2 else r.2)) := by
  have hderef : x.deref p = .ok m := by
    rw [deref, hm]
    rfl
  have hnext := getNext_of_lt (x := x.put p m') hlock hit
  rw [pendingLoop, hderef, ok_bind, hr, ok_bind]
  dsimp only
  rw [hnext, ok_bind]
  rfl

/-- Whether the sweep puts the message in the priority queue. -/
def waiting (x : MsgPool) (p : ℕ) : Bool :=
    (x.objects p).any fun m => decide (m.msgState = .pending)

theorem waiting_of_processPending {x : MsgPool} {p : ℕ} {m m' : Msg} {queued : Bool}
    {curtime now : ℤ} (hm : x.objects p = some m)
    (hr : m.processPending curtime now = .ok (m', queued)) : x.waiting p = queued := by
  rw [waiting, hm, Option.any_some]
  unfold Msg.processPending at hr
  cases hs : m.msgState with
  | pending =>
    rw [hs] at hr
    dsimp only at hr
    split_ifs at hr
    rw [← (Prod.mk.inj (Except.ok.inj hr)).2]
    rfl
  | _ =>
    rw [hs] at hr
    rw [← (Prod.mk.inj (Except.ok.inj hr)).2]
    rfl

/-- What a pass over the messages `ps` has made of the pool. -/
structure Passed (clock : ℕ → ℤ × ℤ) (ps : List ℕ) (x x' : MsgPool) : Prop where
  messages : x'.messages = x.messages
  freeMsgStack : x'.freeMsgStack = x.freeMsgStack
  processed : ∀ q ∈ ps, ∀ m r, x.objects q = some m →
    m.processPending (clock q).1 (clock q).2 = .ok r → x'.objects q = some r.1
  others : ∀ q ∉ ps, x'.objects q = x.objects q

/-- From the cursor on every message is looked at once; the others stay as they are. -/
theorem pendingLoop_spec (clock : ℕ → ℤ × ℤ) {fuel : ℕ} {rest : List ℕ} (done : List ℕ) {p : ℕ}
    (x : MsgPool)
    (hlock : x.bLocked = true) (hmsgs : x.messages = done ++ p :: rest) (hit : x.it = done.length)
    (hfuel : rest.length < fuel) (hnodup : (p :: rest).Nodup)
    (hok : ∀ q ∈ p :: rest, ∃ m r, x.objects q = some m ∧
      m.processPending (clock q).1 (clock q).2 = .ok r) :
    ∃ x', pendingLoop clock fuel x p = .ok (x', (p :: rest).filter x.waiting) ∧
      Passed clock (p :: rest) x x' := by
  induction rest generalizing fuel done p x with
  | nil =>
    obtain ⟨fuel, rfl⟩ := Nat.exists_eq_succ_of_ne_zero (Nat.ne_of_gt hfuel)
    obtain ⟨m, ⟨m', queued⟩, hm, hr⟩ := hok p List.mem_cons_self
    have hloop := pendingLoop_succ clock fuel hlock (by rw [hit, hmsgs]; simp) hm hr
    have hend : x.messages[x.it+1]? = none := by
      rw [hit, hmsgs]
      simp
    rw [hend, ← waiting_of_processPending hm hr] at hloop
    refine ⟨x.stepped p m', ?_, rfl, rfl, ?_, ?_⟩
    · rw [hloop]
      cases hw : x.waiting p <;> simp [hw]
    · intro q hq n r hn hr'
      rw [List.mem_singleton.mp hq] at hn hr' ⊢
      rw [hm, Option.some.injEq] at hn
      rw [← hn, hr, Except.ok.injEq] at hr'
      rw [← hr']
      simp [stepped, put]
    · intro q hq
      have hne : q ≠ p := fun h => hq (h ▸ List.mem_cons_self)
      simp [stepped, put, hne]
  | cons p' rest ih =>
    obtain ⟨fuel, rfl⟩ := Nat.exists_eq_succ_of_ne_zero (show fuel ≠ 0 by omega)
    obtain ⟨m, ⟨m', queued⟩, hm, hr⟩ := hok p List.mem_cons_self
    obtain ⟨hp, hnodup'⟩ := List.nodup_cons.mp hnodup
    have hstep : ∀ q, q ≠ p → (x.stepped p m').objects q = x.objects q := by
      intro q hq
      simp [stepped, put, hq]
    obtain ⟨x', hrun, hpassed⟩ := ih (done ++ [p])
      (x.stepped p m') hlock (by rw [stepped, put]; simpa using hmsgs)
      (by rw [stepped]; simp [hit]) (by simpa using hfuel) hnodup' (fun q hq => by
        rw [hstep q fun h => hp (h ▸ hq)]
        exact hok q (List.mem_cons_of_mem _ hq))
    have hloop := pendingLoop_succ clock fuel hlock (by rw [hit, hmsgs]; simp) hm hr
    have hnext : x.messages[x.it+1]? = some p' := by
      rw [hit, hmsgs]
      simp
    have hqueue : (p' :: rest).filter (x.stepped p m').waiting = (p' :: rest).filter x.waiting := by
      apply List.filter_congr
      intro q hq
      rw [waiting, hstep q fun h => hp (h ▸ hq), waiting]
    rw [hnext] at hloop
    dsimp only at hloop
    rw [hrun, ok_bind, hqueue, ← waiting_of_processPending hm hr] at hloop
    refine ⟨x', ?_, hpassed.messages, hpassed.freeMsgStack, ?_, ?_⟩
    · rw [hloop]
      cases hw : x.waiting p <;> simp only [List.filter_cons, hw]
    · intro q hq n r hn hr'
      rcases List.mem_cons.mp hq with rfl | hq
      · rw [hm, Option.some.injEq] at hn
        rw [← hn, hr, Except.ok.injEq] at hr'
        rw [← hr', hpassed.others q hp]
        simp [stepped, put]
      · have hne : q ≠ p := fun h => hp (h ▸ hq)
        exact hpassed.processed q hq n r (by rw [hstep q hne]; exact hn) hr'
    · intro q hq
      obtain ⟨hne, hq'⟩ := not_or.mp (mt List.mem_cons.mpr hq)
      rw [hpassed.others q hq', hstep q hne]

/-- The whole sweep, when it meets nothing it refuses. -/
theorem processPendingMessages_eq {x : MsgPool} (clock : ℕ → ℤ × ℤ) (hnodup : x.messages.Nodup)
    (hok : ∀ q ∈ x.messages, ∃ m r, x.objects q = some m ∧
      m.processPending (clock q).1 (clock q).2 = .ok r) :
    ∃ x', x.processPendingMessages clock = .ok (x', x.messages.filter x.waiting) ∧
      Passed clock x.messages x x' := by
  cases hmsgs : x.messages with
  | nil =>
    have hhead : x.lock.getHead = (none, x.lock.moveTo 0) := by
      have h0 : x.messages[0]? = none := by rw [hmsgs]; rfl
      rw [← h0]
      rfl
    refine ⟨(x.lock.moveTo 0).unlock, ?_, rfl, rfl, fun q hq => absurd hq (by simp), fun _ _ => rfl⟩
    rw [processPendingMessages, hhead]
    rfl
  | cons p rest =>
    have hhead : x.lock.getHead = (some p, x.lock.moveTo 0) := by
      have h0 : x.messages[0]? = some p := by rw [hmsgs]; rfl
      rw [← h0]
      rfl
    obtain ⟨x', hrun, hpassed⟩ := pendingLoop_spec clock [] (x.lock.moveTo 0) rfl hmsgs rfl
      (show rest.length < (p :: rest).length by simp) (hmsgs ▸ hnodup)
      (fun q hq => hok q (hmsgs ▸ hq))
    refine ⟨x'.unlock, ?_, hpassed.messages, hpassed.freeMsgStack, hpassed.processed,
      hpassed.others⟩
    have hlen : (x.lock.moveTo 0).messages.length = (p :: rest).length := congrArg _ hmsgs
    rw [processPendingMessages, hhead]
    dsimp only
    rw [hlen, hrun]
    rfl

/-- The sweep does to every message of the pool what it does to one. -/
theorem processPendingMessages_spec {x : MsgPool} (hx : x.Sweepable) (clock : ℕ → ℤ × ℤ) :
    ∃ x', x.processPendingMessages clock = .ok (x', x.messages.filter x.waiting) ∧
      Passed clock x.messages x x' := by
  refine processPendingMessages_eq clock hx.wellFormed.nodup fun q hq => ?_
  obtain ⟨m, hm⟩ := Option.isSome_iff_exists.mp (hx.wellFormed.allocated q hq)
  obtain ⟨r, hr⟩ := processPending_ok (hx.typed q hq m hm) (clock q).1 (clock q).2
  exact ⟨m, r, hm, hr⟩

/-- A pass that ends met no pending message without a connection type. -/
theorem pendingLoop_typed (clock : ℕ → ℤ × ℤ) {fuel : ℕ} {rest : List ℕ} (done : List ℕ) {p : ℕ}
    (x : MsgPool)
    (hlock : x.bLocked = true) (hmsgs : x.messages = done ++ p :: rest) (hit : x.it = done.length)
    (hnodup : (p :: rest).Nodup) {r : MsgPool × List ℕ}
    (hrun : pendingLoop clock fuel x p = .ok r) :
    ∀ q ∈ p :: rest, ∃ m s, x.objects q = some m ∧
      m.processPending (clock q).1 (clock q).2 = .ok s := by
  induction rest generalizing fuel done p x r with
  | nil =>
    cases fuel with
    | zero => cases hrun
    | succ fuel =>
      obtain ⟨m, hm, hrun⟩ := bind_eq_ok.mp hrun
      obtain ⟨s, hs, -⟩ := bind_eq_ok.mp hrun
      intro q hq
      rw [List.mem_singleton.mp hq]
      exact ⟨m, s, deref_eq_ok hm, hs⟩
  | cons p' rest ih =>
    cases fuel with
    | zero => cases hrun
    | succ fuel =>
      have hfirst := hrun
      obtain ⟨m, hm, hfirst⟩ := bind_eq_ok.mp hfirst
      obtain ⟨⟨m', queued⟩, hs, -⟩ := bind_eq_ok.mp hfirst
      obtain ⟨hp, hnodup'⟩ := List.nodup_cons.mp hnodup
      rw [pendingLoop_succ clock fuel hlock (by rw [hit, hmsgs]; simp) (deref_eq_ok hm) hs] at hrun
      have hnext : x.messages[x.it+1]? = some p' := by
        rw [hit, hmsgs]
        simp
      rw [hnext] at hrun
      obtain ⟨r', hr', -⟩ := bind_eq_ok.mp hrun
      have hrest := ih (done ++ [p]) (x.stepped p m') hlock
        (by rw [stepped, put]; simpa using hmsgs) (by rw [stepped]; simp [hit]) hnodup' hr'
      intro q hq
      rcases List.mem_cons.mp hq with rfl | hq
      · exact ⟨m, _, deref_eq_ok hm, hs⟩
      · have hne : q ≠ p := fun h => hp (h ▸ hq)
        obtain ⟨n, s, hn, hsn⟩ := hrest q hq
        rw [stepped, put, moveTo_objects] at hn
        exact ⟨n, s, by simpa [hne] using hn, hsn⟩

/-- What a sweep that ends has done. -/
theorem passed_of_processPendingMessages {x x' : MsgPool} {clock : ℕ → ℤ × ℤ} {queue : List ℕ}
    (hx : x.WellFormed) (hrun : x.processPendingMessages clock = .ok (x', queue)) :
    queue = x.messages.filter x.waiting ∧ Passed clock x.messages x x' ∧
      ∀ q ∈ x.messages, ∃ m r, x.objects q = some m ∧
        m.processPending (clock q).1 (clock q).2 = .ok r := by
  have hok : ∀ q ∈ x.messages, ∃ m r, x.objects q = some m ∧
      m.processPending (clock q).1 (clock q).2 = .ok r := by
    cases hmsgs : x.messages with
    | nil => exact fun q hq => absurd hq (by simp)
    | cons p rest =>
      have hhead : x.lock.getHead = (some p, x.lock.moveTo 0) := by
        have h0 : x.messages[0]? = some p := by rw [hmsgs]; rfl
        rw [← h0]
        rfl
      have hsweep := hrun
      rw [processPendingMessages, hhead] at hsweep
      obtain ⟨r, hr, -⟩ := bind_eq_ok.mp hsweep
      exact pendingLoop_typed clock [] (x.lock.moveTo 0) rfl hmsgs rfl
        (hmsgs ▸ hx.nodup) hr
  obtain ⟨y, hy, hpassed⟩ := processPendingMessages_eq clock hx.nodup hok
  rw [hy, Except.ok.injEq] at hrun
  obtain ⟨rfl, rfl⟩ := Prod.mk.inj hrun
  exact ⟨rfl, hpassed, hok⟩

theorem Passed.wellFormed {x x' : MsgPool} {clock : ℕ → ℤ × ℤ} {ps : List ℕ}
    (h : Passed clock ps x x') (hx : x.WellFormed)
    (hok : ∀ q ∈ ps, ∃ m r, x.objects q = some m ∧
      m.processPending (clock q).1 (clock q).2 = .ok r) : x'.WellFormed := by
  refine ⟨by rw [h.messages]; exact hx.nodup, fun q hq => ?_⟩
  rw [h.messages] at hq
  by_cases hps : q ∈ ps
  · obtain ⟨m, r, hm, hr⟩ := hok q hps
    rw [h.processed q hps m r hm hr]
    rfl
  · rw [h.others q hps]
    exact hx.allocated q hq

end MsgPool

end MsgCourier
