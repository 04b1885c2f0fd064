import MsgCourier.ConnectionCache

/-! The pre-queue of `cConnectionQueue`: the accept threads put connections into it, and `Run` hands
them to the cache. -/
namespace MsgCourier
open ListSearch CText Runs

/-- What is kept of an accepted connection; the default values stand for those of a record that was
only declared. -/
structure NewConnection where
  socketfd : ℤ := 0
  socketAddr : Bytes := []
  arrivalPort : ℤ := 0
  deriving DecidableEq, Repr

/-- The statements of `AddConnection`. -/
inductive AcceptPc
  | room
  | write
  | count
  deriving DecidableEq, Repr

/-- The owner of `m_AddConnectionThreadSync`. -/
inductive IntakeLock
  | free
  | accepting (thread : ℕ) (c : NewConnection) (pc : AcceptPc)
  | draining
  deriving DecidableEq, Repr

/-- Where `Run` is: before its test of the index, before the lock, at a slot, or in the rest of its
iteration. -/
inductive IntakePc
  | test
  | locking
  | draining (i : ℕ)
  | rest
  deriving DecidableEq, Repr

/-- `accepted` has the connections for which `AddConnection` has returned, and `added` those that
the cache was called for, in order. -/
structure ConnectionIntake where
  preQueue : List NewConnection := []
  preQueueIndex : ℕ := 0
  cache : ConnectionCache := {}
  lock : IntakeLock := .free
  pc : IntakePc := .rest
  accepted : List NewConnection := []
  added : List NewConnection := []

namespace ConnectionIntake

def makeRoom (x : ConnectionIntake) : ConnectionIntake :=
  if x.preQueue.length ≤ x.preQueueIndex then { x with preQueue := x.preQueue ++ [{}] } else x

def writeSlot (x : ConnectionIntake) (c : NewConnection) : Cxx ConnectionIntake :=
  if x.preQueueIndex < x.preQueue.length then
    pure { x with preQueue := x.preQueue.set x.preQueueIndex c }
  else .error .undefined

/-- The index is an `int`. -/
def countUp (x : ConnectionIntake) : Cxx ConnectionIntake :=
  if x.preQueueIndex < intMax then pure { x with preQueueIndex := x.preQueueIndex+1 }
  else .error .undefined

/-- The call of `cConnectionCache::AddConnection` for a slot. -/
def addSlot (x : ConnectionIntake) (i : ℕ) (now : ℤ) : Cxx ConnectionIntake :=
  match x.preQueue[i]? with
  | none => .error .undefined
  | some c => do
    let cache ← x.cache.addConnection c.socketfd now
    pure { x with cache, added := x.added ++ [c] }

end ConnectionIntake

inductive IntakeAction
  | accept (thread : ℕ) (c : NewConnection)
  | test
  | drain
  | drained
  | rest

/-- `AddConnection` runs in any number of threads. `Run` tests the index without the lock; the rest
of its iteration may do anything to the cache. -/
inductive IntakeStep : ConnectionIntake → IntakeAction → ConnectionIntake → Prop
  | enter {x : ConnectionIntake} (thread : ℕ) (c : NewConnection) :
      x.lock = .free → 0 < c.socketfd ∧ c.socketfd < 65536 →
      IntakeStep x (.accept thread c) { x with lock := .accepting thread c .room }
  | room {x : ConnectionIntake} {thread : ℕ} {c : NewConnection} :
      x.lock = .accepting thread c .room →
      IntakeStep x (.accept thread c) { x.makeRoom with lock := .accepting thread c .write }
  | write {x y : ConnectionIntake} {thread : ℕ} {c : NewConnection} :
      x.lock = .accepting thread c .write → x.writeSlot c = .ok y →
      IntakeStep x (.accept thread c) { y with lock := .accepting thread c .count }
  | count {x y : ConnectionIntake} {thread : ℕ} {c : NewConnection} :
      x.lock = .accepting thread c .count → x.countUp = .ok y →
      IntakeStep x (.accept thread c) { y with lock := .free, accepted := y.accepted ++ [c] }
  | test {x : ConnectionIntake} :
      x.pc = .test →
      IntakeStep x .test { x with pc := if x.preQueueIndex ≠ 0 then .locking else .rest }
  | lock {x : ConnectionIntake} :
      x.pc = .locking → x.lock = .free →
      IntakeStep x .drain { x with pc := .draining 0, lock := .draining }
  | add {x y : ConnectionIntake} {i : ℕ} (now : ℤ) :
      x.pc = .draining i → i < x.preQueueIndex → x.addSlot i now = .ok y →
      IntakeStep x .drain { y with pc := .draining (i+1) }
  | drained {x : ConnectionIntake} {i : ℕ} :
      x.pc = .draining i → ¬ i < x.preQueueIndex →
      IntakeStep x .drained { x with preQueueIndex := 0, pc := .rest, lock := .free }
  | rest {x : ConnectionIntake} (cache : ConnectionCache) :
      x.pc = .rest → IntakeStep x .rest { x with cache, pc := .test }

namespace ConnectionIntake

/-! ### The slots and the two sequences -/

/-- How many slots `Run` has handed over already. -/
def handed (x : ConnectionIntake) : ℕ :=
  match x.pc with
  | .draining i => i
  | .test | .locking | .rest => 0

/-- The connections that `Run` has still to hand over. -/
def waiting (x : ConnectionIntake) : List NewConnection :=
    (x.preQueue.take x.preQueueIndex).drop x.handed

/-- What the thread in `AddConnection` has done to the slot at the index. -/
def SlotOf (x : ConnectionIntake) : Prop :=
  match x.lock with
  | .accepting _ _ .write => x.preQueueIndex < x.preQueue.length
  | .accepting _ c .count => x.preQueue[x.preQueueIndex]? = some c
  | .accepting _ _ .room | .free | .draining => True

/-- The slots below the index are the accepted connections that the cache does not have yet. -/
structure Kept (x : ConnectionIntake) : Prop where
  fits : x.preQueueIndex ≤ x.preQueue.length
  handed_le : x.handed ≤ x.preQueueIndex
  sequence : x.accepted = x.added ++ x.waiting
  slot : x.SlotOf
  owner : x.lock = .draining ↔ ∃ i, x.pc = .draining i
  descriptor : ∀ c ∈ x.preQueue.take x.preQueueIndex, 0 < c.socketfd ∧ c.socketfd < 65536
  entering : ∀ thread c pc, x.lock = .accepting thread c pc → 0 < c.socketfd ∧ c.socketfd < 65536

variable {x y : ConnectionIntake}

theorem handed_of_not_draining (h : ¬ ∃ i, x.pc = .draining i) : x.handed = 0 := by
  unfold handed
  cases hpc : x.pc with
  | draining i => exact absurd ⟨i, hpc⟩ h
  | test => rfl
  | locking => rfl
  | rest => rfl

theorem handed_of_draining {i : ℕ} (h : x.pc = .draining i) : x.handed = i := by
  unfold handed
  rw [h]

/-- While a connection is put in, `Run` is not at the slots. -/
theorem Kept.handed_accepting (h : x.Kept) {thread : ℕ} {c : NewConnection} {pc : AcceptPc}
    (hlock : x.lock = .accepting thread c pc) : x.handed = 0 := by
  apply handed_of_not_draining
  intro hdrain
  have hown := h.owner.mpr hdrain
  rw [hlock] at hown
  cases hown

theorem Kept.not_draining (h : x.Kept) {thread : ℕ} {c : NewConnection} {pc : AcceptPc}
    (hlock : x.lock = .accepting thread c pc) : ¬ ∃ i, x.pc = .draining i := by
  intro hdrain
  have hown := h.owner.mpr hdrain
  rw [hlock] at hown
  cases hown

theorem take_set (l : List NewConnection) (i : ℕ) (c : NewConnection) :
    (l.set i c).take i = l.take i := by
  rw [List.take_set, List.set_eq_of_length_le (by simp)]

theorem Kept.initial : Kept {} where
  fits := le_rfl
  handed_le := le_rfl
  sequence := rfl
  slot := trivial
  owner := ⟨fun h => (nomatch h), fun ⟨_, h⟩ => (nomatch h)⟩
  descriptor _ h := absurd h List.not_mem_nil
  entering _ _ _ h := nomatch h

/-! ### AddConnection -/

section
variable {thread : ℕ} {c : NewConnection}

theorem Kept.enter (h : x.Kept) (hlock : x.lock = .free)
    (hc : 0 < c.socketfd ∧ c.socketfd < 65536) :
    Kept { x with lock := .accepting thread c .room } where
  fits := h.fits
  handed_le := h.handed_le
  sequence := h.sequence
  slot := trivial
  owner := by
    rw [← h.owner, hlock]
    exact ⟨fun h => (nomatch h), fun h => (nomatch h)⟩
  descriptor := h.descriptor
  entering _ c' _ heq := by
    cases heq
    exact hc

theorem Kept.room (h : x.Kept) (hlock : x.lock = .accepting thread c .room) :
    Kept { x.makeRoom with lock := .accepting thread c .write } := by
  have hnot := h.not_draining hlock
  have hc := h.entering _ _ _ hlock
  have howner (y : ConnectionIntake) (hy : y.pc = x.pc) :
      IntakeLock.accepting thread c .write = .draining ↔ ∃ i, y.pc = .draining i :=
    ⟨fun h => (nomatch h), fun hd => absurd (hy ▸ hd) hnot⟩
  unfold makeRoom
  by_cases hfull : x.preQueue.length ≤ x.preQueueIndex
  · have hsame : (x.preQueue ++ [({} : NewConnection)]).take x.preQueueIndex =
        x.preQueue.take x.preQueueIndex :=
      List.take_append_of_le_length h.fits
    rw [if_pos hfull]
    refine ⟨h.fits.trans ?_, h.handed_le, ?_, ?_, howner _ rfl, ?_, ?_⟩
    · exact (Nat.le_add_right _ _).trans_eq List.length_append.symm
    · unfold waiting
      dsimp only
      rw [hsame]
      exact h.sequence
    · change x.preQueueIndex < (x.preQueue ++ [({} : NewConnection)]).length
      rw [List.length_append, List.length_singleton]
      exact Nat.lt_succ_of_le h.fits
    · dsimp only
      rw [hsame]
      exact h.descriptor
    · rintro _ _ _ ⟨⟩
      exact hc
  · rw [if_neg hfull]
    refine ⟨h.fits, h.handed_le, h.sequence, not_le.mp hfull, howner _ rfl, h.descriptor, ?_⟩
    rintro _ _ _ ⟨⟩
    exact hc

theorem Kept.write (h : x.Kept) (hlock : x.lock = .accepting thread c .write)
    (hok : x.writeSlot c = .ok y) : Kept { y with lock := .accepting thread c .count } := by
  have hnot := h.not_draining hlock
  have hc := h.entering _ _ _ hlock
  unfold writeSlot at hok
  split_ifs at hok with hlt
  obtain rfl := Except.ok.inj hok
  have hsame := take_set x.preQueue x.preQueueIndex c
  refine ⟨h.fits.trans_eq (List.length_set ..).symm, h.handed_le, ?_, ?_,
    ⟨fun h => (nomatch h), fun hd => absurd hd hnot⟩, ?_, ?_⟩
  · unfold waiting
    dsimp only
    rw [hsame]
    exact h.sequence
  · change (x.preQueue.set x.preQueueIndex c)[x.preQueueIndex]? = some c
    rw [List.getElem?_set_self hlt]
  · dsimp only
    rw [hsame]
    exact h.descriptor
  · rintro _ _ _ ⟨⟩
    exact hc

/-- The slot written is counted, and the connection accepted. -/
theorem Kept.count (h : x.Kept) (hlock : x.lock = .accepting thread c .count)
    (hok : x.countUp = .ok y) :
    Kept { y with lock := .free, accepted := y.accepted ++ [c] } := by
  have hnot := h.not_draining hlock
  have hc := h.entering _ _ _ hlock
  have hslot := h.slot
  unfold SlotOf at hslot
  rw [hlock] at hslot
  obtain ⟨hlt, hget⟩ := List.getElem?_eq_some_iff.mp hslot
  have htake : x.preQueue.take (x.preQueueIndex+1) = x.preQueue.take x.preQueueIndex ++ [c] := by
    rw [List.take_succ_eq_append_getElem hlt, hget]
  have hzero := h.handed_accepting hlock
  have hsequence := h.sequence
  unfold waiting at hsequence
  rw [hzero, List.drop_zero] at hsequence
  unfold countUp at hok
  split_ifs at hok
  obtain rfl := Except.ok.inj hok
  refine ⟨hlt, ?_, ?_, trivial, ⟨fun h => (nomatch h), fun hd => absurd hd hnot⟩, ?_, ?_⟩
  · exact h.handed_le.trans (Nat.le_succ _)
  · change x.accepted ++ [c] = x.added ++ (x.preQueue.take (x.preQueueIndex+1)).drop x.handed
    rw [hzero, List.drop_zero, htake, hsequence, List.append_assoc]
  · dsimp only
    rw [htake]
    intro c' hin
    rcases List.mem_append.mp hin with hold | hnew
    · exact h.descriptor c' hold
    · rw [List.mem_singleton.mp hnew]
      exact hc
  · intro _ _ _ heq
    cases heq

end

/-! ### Run -/

theorem Kept.test (h : x.Kept) (hpc : x.pc = .test) :
    Kept { x with pc := if x.preQueueIndex ≠ 0 then .locking else .rest } := by
  have hnot (pc : IntakePc) (hne : ∀ i, pc ≠ .draining i) :
      Kept { x with pc := pc } := by
    have hfree : ¬ ∃ i, x.pc = .draining i := by
      rintro ⟨i, hi⟩
      cases hpc.symm.trans hi
    have hold := handed_of_not_draining hfree
    have hnew : ({ x with pc := pc } : ConnectionIntake).handed = 0 :=
      handed_of_not_draining fun ⟨i, hi⟩ => hne i hi
    refine ⟨h.fits, hnew.trans_le (Nat.zero_le _), ?_, h.slot, ?_, h.descriptor, h.entering⟩
    · have hsequence := h.sequence
      unfold waiting at hsequence ⊢
      rw [hold] at hsequence
      rw [hnew]
      exact hsequence
    · exact ⟨fun hd => absurd (h.owner.mp hd) hfree, fun ⟨i, hi⟩ => absurd hi (hne i)⟩
  split_ifs
  · exact hnot _ fun _ h => (nomatch h)
  · exact hnot _ fun _ h => (nomatch h)

theorem Kept.lock (h : x.Kept) (hpc : x.pc = .locking) :
    Kept { x with pc := .draining 0, lock := .draining } := by
  have hzero : x.handed = 0 := by
    unfold handed
    rw [hpc]
  have hsequence := h.sequence
  unfold waiting at hsequence
  rw [hzero] at hsequence
  exact ⟨h.fits, Nat.zero_le _, hsequence, trivial, ⟨fun _ => ⟨0, rfl⟩, fun _ => rfl⟩,
    h.descriptor, fun _ _ _ h => (nomatch h)⟩

/-- The next connection goes from its slot to the cache. -/
theorem Kept.add (h : x.Kept) {i : ℕ} {now : ℤ} (hpc : x.pc = .draining i)
    (hlt : i < x.preQueueIndex) (hok : x.addSlot i now = .ok y) :
    Kept { y with pc := .draining (i+1) } := by
  unfold addSlot at hok
  cases hget : x.preQueue[i]? with
  | none =>
    rw [hget] at hok
    cases hok
  | some c =>
    rw [hget] at hok
    obtain ⟨cache, -, hok⟩ := bind_eq_ok.mp hok
    obtain rfl := Except.ok.inj hok
    obtain ⟨hi, hget⟩ := List.getElem?_eq_some_iff.mp hget
    have hlen : i < (x.preQueue.take x.preQueueIndex).length := by
      rw [List.length_take]
      omega
    have hnext : (x.preQueue.take x.preQueueIndex).drop i =
        c :: (x.preQueue.take x.preQueueIndex).drop (i+1) := by
      rw [List.drop_eq_getElem_cons hlen, List.getElem_take, hget]
    have hsequence := h.sequence
    unfold waiting at hsequence
    rw [handed_of_draining hpc, hnext] at hsequence
    have hlock : x.lock = .draining := h.owner.mpr ⟨i, hpc⟩
    refine ⟨h.fits, hlt, ?_, ?_, ⟨fun _ => ⟨i+1, rfl⟩, fun _ => hlock⟩, h.descriptor, h.entering⟩
    · change x.accepted = x.added ++ [c] ++ (x.preQueue.take x.preQueueIndex).drop (i+1)
      rw [hsequence, List.append_assoc]
      rfl
    · change x.SlotOf
      unfold SlotOf
      rw [hlock]
      trivial

/-- Behind the last slot the cache has been called for every connection. -/
theorem Kept.all_added (h : x.Kept) {i : ℕ} (hpc : x.pc = .draining i)
    (hge : ¬ i < x.preQueueIndex) : x.added = x.accepted := by
  have hnil : x.waiting = [] := by
    unfold waiting
    rw [handed_of_draining hpc, List.drop_eq_nil_of_le]
    rw [List.length_take]
    omega
  rw [h.sequence, hnil, List.append_nil]

theorem Kept.drained (h : x.Kept) {i : ℕ} (hpc : x.pc = .draining i)
    (hge : ¬ i < x.preQueueIndex) :
    Kept { x with preQueueIndex := 0, pc := .rest, lock := .free } where
  fits := Nat.zero_le _
  handed_le := le_rfl
  sequence := (h.all_added hpc hge).symm.trans (List.append_nil _).symm
  slot := trivial
  owner := ⟨fun h => (nomatch h), fun ⟨_, h⟩ => (nomatch h)⟩
  descriptor _ h := absurd h List.not_mem_nil
  entering _ _ _ h := nomatch h

theorem Kept.rest (h : x.Kept) (hpc : x.pc = .rest) (cache : ConnectionCache) :
    Kept { x with cache, pc := .test } := by
  have hzero : x.handed = 0 := by
    unfold handed
    rw [hpc]
  have hsequence := h.sequence
  unfold waiting at hsequence
  rw [hzero] at hsequence
  have hfree : ¬ ∃ i, x.pc = .draining i := by
    rintro ⟨i, hi⟩
    cases hpc.symm.trans hi
  exact ⟨h.fits, Nat.zero_le _, hsequence, h.slot,
    ⟨fun hd => absurd (h.owner.mp hd) hfree, fun ⟨_, hi⟩ => (nomatch hi)⟩, h.descriptor, h.entering⟩

theorem Kept.step (h : x.Kept) {a : IntakeAction} (hstep : IntakeStep x a y) : y.Kept := by
  cases hstep with
  | enter _ _ hlock hc => exact h.enter hlock hc
  | room hlock => exact h.room hlock
  | write hlock hok => exact h.write hlock hok
  | count hlock hok => exact h.count hlock hok
  | test hpc => exact h.test hpc
  | lock hpc _ => exact h.lock hpc
  | add _ hpc hlt hok => exact h.add hpc hlt hok
  | drained hpc hge => exact h.drained hpc hge
  | rest cache hpc => exact h.rest hpc cache

theorem Kept.run {as : List IntakeAction} (hrun : Run IntakeStep {} as x) : x.Kept :=
  hrun.invariant (fun _ _ _ h hstep => h.step hstep) Kept.initial

/-- No call for a slot throws, and no slot lies outside the vector. -/
theorem Kept.addSlot_ok (h : x.Kept) {i : ℕ} (hlt : i < x.preQueueIndex) (now : ℤ) :
    ∃ y, x.addSlot i now = .ok y := by
  have hi : i < x.preQueue.length := hlt.trans_le h.fits
  have hmem : x.preQueue[i] ∈ x.preQueue.take x.preQueueIndex :=
    List.mem_take_iff_getElem.mpr ⟨i, lt_min hlt hi, rfl⟩
  unfold addSlot
  rw [List.getElem?_eq_getElem hi]
  dsimp only
  unfold ConnectionCache.addConnection
  rw [if_pos (h.descriptor _ hmem)]
  exact ⟨_, rfl⟩

theorem countUp_eq {n : ℕ} (hn : x.preQueueIndex = n) (hint : (n : ℤ) < intMax) :
    x.countUp = .ok { x with preQueueIndex := n+1 } := by
  rw [← hn] at hint
  unfold countUp
  rw [if_pos hint, hn]
  rfl

theorem addSlot_eq {i : ℕ} {c : NewConnection} {cache : ConnectionCache} {now : ℤ}
    (hget : x.preQueue[i]? = some c)
    (hadd : x.cache.addConnection c.socketfd now = .ok cache) :
    x.addSlot i now = .ok { x with cache, added := x.added ++ [c] } := by
  unfold addSlot
  rw [hget]
  dsimp only
  rw [hadd]
  rfl

def sampleConnection (socketfd : ℤ) : NewConnection := { socketfd, arrivalPort := 3400 }

end ConnectionIntake

end MsgCourier
