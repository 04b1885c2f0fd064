import MsgCourier.CacheRun
import MsgCourier.BufferRefinement

/-! The sweep of `TimeoutConnections`: it begins again behind every record that it frees. -/
namespace MsgCourier
open ListSearch CText NodeLists

/-- The values of an `int`. -/
def IsInt (z : ℤ) : Prop := -2147483648 ≤ z ∧ z ≤ intMax

/-- A sum of two `int` values is compared as it is, or its wrapped value is on the same side. -/
def SumCompares (sum curTime : ℤ) : Prop :=
  (sum < -2147483648 → sum+4294967296 < curTime) ∧ (intMax < sum → curTime ≤ sum-4294967296)

theorem sumCompares_iff {a b curTime : ℤ} (ha : IsInt a) (hb : IsInt b) (hcur : IsInt curTime) :
    (int32 (a+b) < curTime ↔ a+b < curTime) ↔ SumCompares (a+b) curTime := by
  unfold IsInt intMax at ha hb hcur
  unfold SumCompares
  rcases lt_or_ge (a+b) (-2147483648) with hlow | hlow
  · have hwrap : int32 (a+b) = a+b+4294967296 := Buffer.int32_wrap_low (by omega) hlow
    rw [hwrap]
    unfold intMax
    omega
  · rcases lt_or_ge intMax (a+b) with hhigh | hhigh
    · have hwrap : int32 (a+b) = a+b-4294967296 := int32_of_gt hhigh (by omega)
      rw [hwrap]
      unfold intMax at hhigh ⊢
      omega
    · rw [int32_eq hlow hhigh]
      unfold intMax at hhigh ⊢
      omega

namespace ConnectionCache

variable {x y : ConnectionCache} {fd : ℤ}

/-- A represented cache whose waiting records have the descriptor that they are found under. -/
structure Listed (x : ConnectionCache) : Prop extends x.Represented where
  socket : ∀ fd r, x.connectionMap fd = some r → r.state = .waiting → r.socketfd = fd ∧ fd ≠ -1

theorem Consistent.listed_of (h : x.Consistent) : x.Listed where
  toRepresented := h.toRepresented
  socket fd r hr hwait := by
    obtain ⟨hsocket, hpos, -⟩ := h.socket fd r hr hwait
    refine ⟨hsocket, ?_⟩
    omega

/-- What `FreeConnection` leaves of a record. -/
def freedRecord (r : CacheRecord) : CacheRecord :=
  { r with
    state := .free
    pActiveHandler := false
    socketfd := -1
    pendingwrite := false
    it := .stop }

/-- A record without pending write has waited longer than the timeout. -/
def due (x : ConnectionCache) (iTimeout curTime fd : ℤ) : Bool :=
  let r := x.record fd
  !r.pendingwrite && r.state = .waiting && r.timestamp+iTimeout < curTime

/-- The records of `gone` were closed, in the order of the list, and are not in it any more. All
others are as they were, and so is the order of the list. -/
structure Swept (x y : ConnectionCache) (gone : ℤ → Bool) : Prop where
  list : y.activeConnectionList.nodes = x.activeConnectionList.nodes.filter fun p => !gone p.2
  closed : y.closed =
    x.closed ++ (x.activeConnectionList.nodes.filter fun p => gone p.2).map Prod.snd
  freed : ∀ fd, gone fd = true → y.connectionMap fd = some (freedRecord (x.record fd))
  kept : ∀ fd, gone fd = false → y.connectionMap fd = x.connectionMap fd

/-- What the sweep is for. -/
def SweepsExactly (x : ConnectionCache) (iTimeout curTime : ℤ) : Prop :=
  ∃ y, x.timeoutConnections iTimeout curTime = .ok y ∧ Swept x y (x.due iTimeout curTime)

/-! ### One free -/

theorem Listed.record_of_mem (h : x.Listed) {n : ℕ}
    (hn : (n, fd) ∈ x.activeConnectionList.nodes) : ∃ r, x.connectionMap fd = some r ∧
      r.state = .waiting ∧ r.it = .node n ∧ r.socketfd = fd ∧ fd ≠ -1 := by
  obtain ⟨r, hr, hwait, hit⟩ := h.listed n fd hn
  exact ⟨r, hr, hwait, hit, h.socket fd r hr hwait⟩

/-- The cache without a record of the list. -/
def without (x : ConnectionCache) (n : ℕ) (fd : ℤ) : ConnectionCache :=
  ({ x with activeConnectionList := x.activeConnectionList.erase n }.closeSocket fd).setRecord fd
    (freedRecord (x.record fd))

theorem without_self (x : ConnectionCache) (n : ℕ) (fd : ℤ) :
    (x.without n fd).connectionMap fd = some (freedRecord (x.record fd)) := setRecord_self _ _ _

theorem without_of_ne (x : ConnectionCache) (n : ℕ) {fd fd' : ℤ} (h : fd' ≠ fd) :
    (x.without n fd).connectionMap fd' = x.connectionMap fd' := setRecord_of_ne _ h _

theorem Listed.freeConnection (h : x.Listed) {n : ℕ}
    (hn : (n, fd) ∈ x.activeConnectionList.nodes) :
    x.freeConnection fd = .ok (x.without n fd) := by
  obtain ⟨r, hr, -, hit, -, hne⟩ := h.record_of_mem hn
  have hunlink : x.unlink r = .ok (x.activeConnectionList.erase n) := by
    unfold unlink
    rw [hit]
    exact if_pos (List.mem_map_of_mem hn)
  rw [freeConnection_record hne hr hunlink, without, record_of_some hr]
  rfl

/-- The record that is freed was the only one of its node. -/
theorem Listed.without (h : x.Listed) {n : ℕ} (hn : (n, fd) ∈ x.activeConnectionList.nodes) :
    (x.without n fd).Listed := by
  have hlisted : ∀ m fd', (m, fd') ∈ (x.without n fd).activeConnectionList.nodes → ∃ q,
      (x.without n fd).connectionMap fd' = some q ∧ q.state = .waiting ∧ q.it = .node m := by
    intro m fd' hm
    obtain ⟨hm, hne⟩ := x.activeConnectionList.mem_erase.mp hm
    obtain ⟨q, hq, hwait, hit⟩ := h.listed m fd' hm
    refine ⟨q, (x.without_of_ne n ?_).trans hq, hwait, hit⟩
    intro heq
    obtain ⟨q', hq', -, hit'⟩ := h.listed n fd hn
    rw [heq] at hq
    obtain rfl := Option.some.inj (hq.symm.trans hq')
    exact hne (It.node.inj (hit.symm.trans hit'))
  have hback : ∀ fd' q, (x.without n fd).connectionMap fd' = some q → q.state = .waiting →
      fd' ≠ fd ∧ x.connectionMap fd' = some q := by
    intro fd' q hq hwait
    by_cases heq : fd' = fd
    · rw [heq, x.without_self] at hq
      obtain rfl := Option.some.inj hq
      cases hwait
    · exact ⟨heq, (x.without_of_ne n heq).symm.trans hq⟩
  refine ⟨⟨Consistent.once_of_listed hlisted, hlisted, ?_, ?_⟩, ?_⟩
  · intro fd' q hq hwait
    obtain ⟨hne, hq⟩ := hback fd' q hq hwait
    obtain ⟨m, hm⟩ := h.waiting fd' q hq hwait
    refine ⟨m, x.activeConnectionList.mem_erase.mpr ⟨hm, ?_⟩⟩
    intro heq
    exact hne (congrArg Prod.snd (NodeList.eq_of_mem hm hn heq))
  · intro fd' q hq hfree
    by_cases heq : fd' = fd
    · rw [heq, x.without_self] at hq
      obtain rfl := Option.some.inj hq
      rfl
    · exact h.free fd' q ((x.without_of_ne n heq).symm.trans hq) hfree
  · intro fd' q hq hwait
    exact h.socket fd' q (hback fd' q hq hwait).2 hwait

/-- A record whose time is over in the arithmetic of the code is one of the list. -/
theorem expired_without (x : ConnectionCache) (n : ℕ) (iTimeout curTime fd fd' : ℤ) :
    (x.without n fd).expired iTimeout curTime fd' =
      (decide (fd' ≠ fd) && x.expired iTimeout curTime fd') := by
  by_cases heq : fd' = fd
  · rw [heq, decide_eq_false fun h => h rfl, Bool.false_and]
    unfold expired
    rw [record_of_some (x.without_self n fd)]
    unfold freedRecord
    rfl
  · have hrecord : (x.without n fd).record fd' = x.record fd' := by
      unfold record
      rw [x.without_of_ne n heq]
    rw [decide_eq_true heq, Bool.true_and]
    unfold expired
    rw [hrecord]

/-! ### The sweep -/

/-- The first record that is freed, with those in front of it and behind it. -/
theorem Swept.cons {iTimeout curTime : ℤ} {n : ℕ} {front rest : List (ℕ × ℤ)}
    (hsplit : x.activeConnectionList.nodes = front ++ (n, fd) :: rest)
    (hfront : ∀ p ∈ front, x.expired iTimeout curTime p.2 = false)
    (hgone : x.expired iTimeout curTime fd = true) (honce : ∀ p ∈ front ++ rest, p.2 ≠ fd)
    (hnodes : (x.without n fd).activeConnectionList.nodes = front ++ rest)
    (h : Swept (x.without n fd) y ((x.without n fd).expired iTimeout curTime)) :
    Swept x y (x.expired iTimeout curTime) := by
  have hsame : ∀ p ∈ front ++ rest, (x.without n fd).expired iTimeout curTime p.2 =
      x.expired iTimeout curTime p.2 := by
    intro p hp
    rw [expired_without, decide_eq_true (honce p hp), Bool.true_and]
  refine ⟨?_, ?_, ?_, ?_⟩
  · rw [h.list, hnodes, List.filter_congr fun p hp => by rw [hsame p hp], hsplit,
      List.filter_append, List.filter_append, List.filter_cons_of_neg]
    rw [hgone]
    exact Bool.false_ne_true
  · have hnone : front.filter (fun p => x.expired iTimeout curTime p.2) = [] := by
      rw [List.filter_eq_nil_iff]
      intro p hp
      rw [hfront p hp]
      exact Bool.false_ne_true
    have hfirst : ((n, fd) :: rest).filter (fun p => x.expired iTimeout curTime p.2) =
        (n, fd) :: rest.filter fun p => x.expired iTimeout curTime p.2 :=
      List.filter_cons_of_pos hgone
    rw [h.closed, hnodes, List.filter_congr fun p hp => hsame p hp, hsplit, List.filter_append,
      List.filter_append, hnone, hfirst]
    exact List.append_assoc x.closed [fd] _
  · intro fd' hfd'
    by_cases heq : fd' = fd
    · have hnot : (x.without n fd).expired iTimeout curTime fd' = false := by
        rw [expired_without, decide_eq_false fun hne => hne heq, Bool.false_and]
      rw [h.kept fd' hnot, heq]
      exact x.without_self n fd
    · have hstill : (x.without n fd).expired iTimeout curTime fd' = true := by
        rw [expired_without, decide_eq_true heq, Bool.true_and, hfd']
      rw [h.freed fd' hstill]
      unfold record
      rw [x.without_of_ne n heq]
  · intro fd' hfd'
    have hne : fd' ≠ fd := by
      intro heq
      rw [heq, hgone] at hfd'
      cases hfd'
    have hnot : (x.without n fd).expired iTimeout curTime fd' = false := by
      rw [expired_without, hfd', Bool.and_false]
    rw [h.kept fd' hnot, x.without_of_ne n hne]

/-- Erasing the node of the split takes out this element alone. -/
theorem erase_of_split {l : NodeList ℤ} {n : ℕ} {a : ℤ} {front rest : List (ℕ × ℤ)}
    (h : l.nodes = front ++ (n, a) :: rest) : (l.erase n).nodes = front ++ rest := by
  have hnodup := l.nodup
  rw [h, List.map_append, List.map_cons, List.nodup_append, List.nodup_cons] at hnodup
  obtain ⟨-, ⟨hrest, -⟩, hfront⟩ := hnodup
  have hkeep : ∀ p ∈ front, decide (p.1 ≠ n) = true := by
    intro p hp
    exact decide_eq_true (hfront p.1 (List.mem_map_of_mem hp) n List.mem_cons_self)
  have hkeep' : ∀ p ∈ rest, decide (p.1 ≠ n) = true := by
    intro p hp
    refine decide_eq_true ?_
    intro heq
    exact hrest (List.mem_map.mpr ⟨p, hp, heq⟩)
  unfold NodeList.erase
  dsimp only
  rw [h, List.filter_append, List.filter_eq_self.mpr hkeep, List.filter_cons_of_neg,
    List.filter_eq_self.mpr hkeep']
  simp

/-- The sweep ends, since every round but the last takes a node from the list, and it frees what is
over in the arithmetic of the code. -/
theorem Listed.timeoutLoop (h : x.Listed) (iTimeout curTime : ℤ) {fuel : ℕ}
    (hfuel : x.activeConnectionList.nodes.length < fuel) : ∃ y,
    ConnectionCache.timeoutLoop iTimeout curTime fuel x = .ok y ∧
      Swept x y (x.expired iTimeout curTime) := by
  induction fuel generalizing x with
  | zero => exact absurd hfuel (Nat.not_lt_zero _)
  | succ fuel ih =>
    unfold ConnectionCache.timeoutLoop
    cases hfind : x.activeConnectionList.nodes.find? fun p => x.expired iTimeout curTime p.2 with
    | none =>
      rw [List.find?_eq_none] at hfind
      have hnone : ∀ p ∈ x.activeConnectionList.nodes, x.expired iTimeout curTime p.2 = false := by
        intro p hp
        exact Bool.eq_false_iff.mpr (hfind p hp)
      refine ⟨_, rfl, ?_, ?_, ?_, fun _ _ => rfl⟩
      · refine (List.filter_eq_self.mpr ?_).symm
        intro p hp
        rw [hnone p hp]
        rfl
      · rw [List.filter_eq_nil_iff.mpr hfind]
        exact (List.append_nil _).symm
      · -- a record that is over is waiting, and then it is in the list
        intro fd hgone
        have hstate : (x.record fd).state = .waiting := by
          simp only [expired, Bool.and_eq_true, decide_eq_true_eq] at hgone
          exact hgone.1.2
        obtain ⟨r, hr, hwait⟩ := exists_of_waiting hstate
        obtain ⟨n, hn⟩ := h.waiting fd r hr hwait
        rw [hnone (n, fd) hn] at hgone
        cases hgone
    | some p =>
      obtain ⟨n, fd⟩ := p
      obtain ⟨hgone, front, rest, hsplit, hfront⟩ := List.find?_eq_some_iff_append.mp hfind
      have hmem : (n, fd) ∈ x.activeConnectionList.nodes := by
        rw [hsplit]
        exact List.mem_append_right _ List.mem_cons_self
      have hnodes : (x.without n fd).activeConnectionList.nodes = front ++ rest :=
        erase_of_split hsplit
      have honce : ∀ q ∈ front ++ rest, q.2 ≠ fd := by
        intro q hq heq
        have hnodup := h.once
        rw [hsplit, List.map_append, List.map_cons, List.nodup_middle, List.nodup_cons,
          ← List.map_append] at hnodup
        exact hnodup.1 (List.mem_map.mpr ⟨q, hq, heq⟩)
      have hlength : (x.without n fd).activeConnectionList.nodes.length < fuel := by
        rw [hnodes, List.length_append]
        rw [hsplit, List.length_append, List.length_cons] at hfuel
        omega
      obtain ⟨y, hy, hswept⟩ := ih (h.without hmem) hlength
      refine ⟨y, ?_, hswept.cons hsplit ?_ hgone honce hnodes⟩
      · obtain ⟨r, hr, -, -, hsocket, -⟩ := h.record_of_mem hmem
        dsimp only
        rw [record_of_some hr, hsocket, h.freeConnection hmem]
        exact hy
      · intro q hq
        have hnot := hfront q hq
        rwa [Bool.not_eq_true'] at hnot

theorem Listed.timeoutConnections (h : x.Listed) (iTimeout curTime : ℤ) : ∃ y,
    x.timeoutConnections iTimeout curTime = .ok y ∧ Swept x y (x.expired iTimeout curTime) := by
  by_cases hnil : x.activeConnectionList.nodes = []
  · obtain ⟨y, hy, hswept⟩ := h.timeoutLoop iTimeout curTime
      (lt_add_one x.activeConnectionList.nodes.length)
    unfold ConnectionCache.timeoutLoop at hy
    rw [hnil] at hy
    obtain rfl := Except.ok.inj hy
    exact ⟨x, if_pos hnil, hswept.list, hswept.closed, hswept.freed, hswept.kept⟩
  · unfold ConnectionCache.timeoutConnections
    rw [if_neg hnil]
    exact h.timeoutLoop iTimeout curTime (lt_add_one _)

/-- The sum of the time stamp and the timeout of a record that may be freed is compared as it is. -/
def SumsCompare (x : ConnectionCache) (iTimeout curTime : ℤ) : Prop :=
  ∀ fd r, x.connectionMap fd = some r → r.state = .waiting → r.pendingwrite = false →
    SumCompares (r.timestamp+iTimeout) curTime

/-- For a record that the sweep may free, both arithmetics agree or the sum has wrapped. -/
theorem expired_eq_due_iff {r : CacheRecord} {iTimeout curTime : ℤ}
    (hr : x.connectionMap fd = some r)
    (hwait : r.state = .waiting) (hpending : r.pendingwrite = false) (htime : IsInt r.timestamp)
    (hout : IsInt iTimeout) (hcur : IsInt curTime) :
    x.expired iTimeout curTime fd = x.due iTimeout curTime fd ↔
      SumCompares (r.timestamp+iTimeout) curTime := by
  rw [← sumCompares_iff htime hout hcur]
  unfold expired due
  rw [record_of_some hr, Bool.eq_iff_iff]
  simp [hwait, hpending]

/-- No other record is free to go in either arithmetic. -/
theorem expired_eq_due_of_not {iTimeout curTime : ℤ}
    (h : (x.record fd).state ≠ .waiting ∨ (x.record fd).pendingwrite = true) :
    x.expired iTimeout curTime fd = x.due iTimeout curTime fd := by
  unfold expired due
  dsimp only
  rcases h with hstate | hpending
  · rw [decide_eq_false hstate, Bool.and_false, Bool.false_and, Bool.false_and]
  · rw [hpending]
    rfl

/-- The sweep is exact unless a sum of a time stamp and the timeout leaves the range of `int` and
its wrapped value is on the other side of the current time. -/
theorem sweepsExactly_iff (h : x.Listed) {iTimeout curTime : ℤ} (hout : IsInt iTimeout)
    (hcur : IsInt curTime) (htime : ∀ fd r, x.connectionMap fd = some r → IsInt r.timestamp) :
    x.SweepsExactly iTimeout curTime ↔ x.SumsCompare iTimeout curTime := by
  obtain ⟨y, hy, hswept⟩ := h.timeoutConnections iTimeout curTime
  constructor
  · intro hexact fd r hr hwait hpending
    obtain ⟨z, hz, hdue⟩ := hexact
    obtain rfl := Except.ok.inj (hz.symm.trans hy)
    obtain ⟨n, hn⟩ := h.waiting fd r hr hwait
    rw [← expired_eq_due_iff hr hwait hpending (htime fd r hr) hout hcur]
    -- what the record is afterwards tells whether it was freed
    have hmem := congrArg (fun l => (n, fd) ∈ l) (hswept.list.symm.trans hdue.list)
    simp only [List.mem_filter, hn, true_and, Bool.not_eq_true', eq_iff_iff] at hmem
    cases hexpired : x.expired iTimeout curTime fd with
    | false => exact (hmem.mp hexpired).symm
    | true =>
      cases hlate : x.due iTimeout curTime fd with
      | true => rfl
      | false => exact hexpired.symm.trans (hmem.mpr hlate)
  · intro hsums
    have hsame : x.expired iTimeout curTime = x.due iTimeout curTime := by
      funext fd
      by_cases hstate : (x.record fd).state = .waiting
      · obtain ⟨r, hr, hwait⟩ := exists_of_waiting hstate
        cases hpending : r.pendingwrite with
        | true => exact expired_eq_due_of_not (Or.inr (record_of_some hr ▸ hpending))
        | false =>
          rw [expired_eq_due_iff hr hwait hpending (htime fd r hr) hout hcur]
          exact hsums fd r hr hwait hpending
      · exact expired_eq_due_of_not (Or.inl hstate)
    exact ⟨y, hy, hsame ▸ hswept⟩

/-- A cache with one connection, accepted at a time. -/
def acceptedAt (now : ℤ) : ConnectionCache :=
  { activeConnectionList := NodeList.empty.pushBack 5
    connectionMap := Function.update (fun _ => none) 5
      (some { socketfd := 5, timestamp := now, state := .waiting, it := .node 0 }) }

theorem acceptedAt_listed (now : ℤ) : (acceptedAt now).Listed := by
  have hadd : ConnectionCache.addConnection {} 5 now = .ok (acceptedAt now) := rfl
  exact (Consistent.initial.addConnection (by decide) hadd).listed_of

theorem acceptedAt_inv {now : ℤ} {r : CacheRecord}
    (h : (acceptedAt now).connectionMap fd = some r) :
    r.timestamp = now := by
  unfold acceptedAt at h
  dsimp only at h
  by_cases heq : fd = 5
  · rw [heq, Function.update_self] at h
    exact (Option.some.inj h) ▸ rfl
  · rw [Function.update_of_ne heq] at h
    cases h

/-- Accepted at second 100, with ten seconds to go, at second 200. -/
theorem sweepsExactly_accepted : (acceptedAt 100).SweepsExactly 10 200 := by
  have htime : ∀ fd r, (acceptedAt 100).connectionMap fd = some r → IsInt r.timestamp := by
    intro fd r hr
    rw [acceptedAt_inv hr]
    unfold IsInt
    decide
  refine (sweepsExactly_iff (acceptedAt_listed 100) ?_ ?_ htime).mpr ?_
  · unfold IsInt
    decide
  · unfold IsInt
    decide
  · intro fd r hr _ _
    rw [acceptedAt_inv hr]
    unfold SumCompares
    decide

/-- Ten minutes before the end of the range, with an hour to go. -/
theorem sweep_wraps : ¬ ∀ (x : ConnectionCache) (iTimeout curTime : ℤ), x.Listed →
    IsInt iTimeout → IsInt curTime →
    (∀ fd r, x.connectionMap fd = some r → IsInt r.timestamp) →
    x.SweepsExactly iTimeout curTime := by
  intro h
  have htime : ∀ fd r, (acceptedAt 2147483000).connectionMap fd = some r → IsInt r.timestamp := by
    intro fd r hr
    rw [acceptedAt_inv hr]
    unfold IsInt
    decide
  obtain ⟨y, hy, hswept⟩ := h (acceptedAt 2147483000) 3600 2147483100 (acceptedAt_listed _)
    (by unfold IsInt; decide) (by unfold IsInt; decide) htime
  have hclosed := hswept.closed
  obtain rfl := Except.ok.inj hy
  exact absurd hclosed (by decide)

end ConnectionCache
end MsgCourier
