import MsgCourier.SysMetrics

/-! The index of the hourly tables over whole runs of `cSysMetrics`. The second timer counts it up
and the hour timer sets it back; the table is left when the 3600th tick comes first. -/
namespace MsgCourier
open CText

/-! ### Reading a table -/

namespace NumericalCounter

theorem mapM_hourlyEntry {c : NumericalCounter} {l : List ℕ}
    (h : ∀ i ∈ l, i < c.hourlyCount.length) :
    l.mapM c.hourlyEntry = .ok (l.map fun i => c.hourlyCount.getD i 0) := by
  induction l with
  | nil => rfl
  | cons i l ih =>
    have hi : c.hourlyEntry i = .ok (c.hourlyCount.getD i 0) := by
      unfold hourlyEntry
      rw [List.getD_eq_getElem?_getD, List.getElem?_eq_getElem (h i List.mem_cons_self)]
      rfl
    rw [List.mapM_cons, hi, ok_bind, ih fun j hj => h j (List.mem_cons_of_mem i hj), ok_bind]
    rfl

theorem map_getD_range' (l : List ℤ) {a n : ℕ} (h : a+n ≤ l.length) :
    (List.range' a n).map (fun i => l.getD i 0) = (l.drop a).take n := by
  apply List.ext_getElem
  · rw [List.length_map, List.length_range', List.length_take, List.length_drop]
    omega
  · intro i hi hi'
    rw [List.length_map, List.length_range'] at hi
    have hin : a+i < l.length := by omega
    rw [List.getElem_map, List.getElem_range', List.getElem_take, List.getElem_drop, one_mul,
      List.getD_eq_getElem?_getD, List.getElem?_eq_getElem hin, Option.getD_some]

/-- The whole table, from the last entry written backwards and around. -/
theorem getHourData_ok {c : NumericalCounter} (hlen : c.hourlyCount.length = 3600)
    (hindex : c.index < 3600) : c.getHourData = .ok ((c.hourlyCount.take (c.index+1)).reverse ++
      (c.hourlyCount.drop (c.index+1)).reverse) := by
  have hdown := map_getD_range' c.hourlyCount (a := 0) (n := c.index+1) (by omega)
  have hrest := map_getD_range' c.hourlyCount (a := c.index+1) (n := 3599-c.index) (by omega)
  have hall : (c.hourlyCount.drop (c.index+1)).take (3599-c.index) =
      c.hourlyCount.drop (c.index+1) := by
    apply List.take_of_length_le
    rw [List.length_drop]
    omega
  unfold getHourData
  rw [mapM_hourlyEntry, ok_bind, mapM_hourlyEntry, ok_bind, pure_eq_ok, List.map_reverse,
    List.map_reverse, List.range_eq_range', hdown, hrest, hall, List.drop_zero]
  · intro i hi
    rw [List.mem_reverse, List.mem_range'_1] at hi
    omega
  · intro i hi
    rw [List.mem_reverse, List.mem_range] at hi
    omega

end NumericalCounter

namespace SysMetrics

variable {s t : SysMetrics}

/-! ### What a step does to the count and the tables -/

/-- The tables have their 3600 entries, and an index among them. -/
def Tables (s : SysMetrics) : Prop :=
  ∀ metric, (s.counter metric).hourlyCount.length = 3600 ∧ (s.counter metric).index < 3600

theorem tables_constructed (now : ℤ) : (constructed now).Tables := by
  intro metric
  exact ⟨List.length_replicate, show 0 < 3600 by decide⟩

theorem inc_ok (htables : s.Tables) (hcount : s.m_SecondCount < 3600) (metric : Metric) :
    ∃ t, s.inc metric = .ok t ∧ t.Tables ∧ t.m_SecondCount = s.m_SecondCount ∧
      t.m_SecondTimer = s.m_SecondTimer ∧ t.m_HourTimer = s.m_HourTimer := by
  have hlen : (s.counter metric).inc.hourlyCount.length = 3600 := (htables metric).1
  unfold inc NumericalCounter.setHourlyEntry
  dsimp only
  rw [if_pos (by omega), ok_bind]
  refine ⟨_, rfl, ?_, rfl, rfl, rfl⟩
  intro metric'
  by_cases hsame : metric' = metric
  · rw [hsame]
    simp only [Function.update_self, List.length_set]
    exact ⟨hlen, hcount⟩
  · simp only [Function.update_of_ne hsame]
    exact htables metric'

theorem inc_undefined (htables : s.Tables) (hcount : 3600 ≤ s.m_SecondCount) (metric : Metric) :
    s.inc metric = .error .undefined := by
  have hlen : (s.counter metric).inc.hourlyCount.length = 3600 := (htables metric).1
  unfold inc NumericalCounter.setHourlyEntry
  dsimp only
  rw [if_neg (by omega), error_bind]

/-- The 3600th tick since the count was last set back, with the hour timer not ready yet. -/
def LateHour (s : SysMetrics) (r : Readings) : Prop :=
  s.m_SecondCount = 3599 ∧ s.m_SecondTimer.isReady r.second = true ∧
    s.m_HourTimer.isReady r.hour = false

/-- The hour timer is looked at behind the tick, which leaves it alone. -/
theorem turn_m_SecondCount (s : SysMetrics) (r : Readings) : (s.turn r).m_SecondCount =
    if s.m_HourTimer.isReady r.hour then 0
    else if s.m_SecondTimer.isReady r.second then s.m_SecondCount+1 else s.m_SecondCount := by
  unfold turn
  dsimp only
  by_cases hsecond : s.m_SecondTimer.isReady r.second = true
  · rw [if_pos hsecond, if_pos hsecond]
    change (if s.m_HourTimer.isReady r.hour = true then (s.secondTick r).hourTick r
      else s.secondTick r).m_SecondCount = _
    split_ifs <;> rfl
  · rw [if_neg hsecond, if_neg hsecond]
    split_ifs <;> rfl

theorem turn_tables (h : s.Tables) (r : Readings) : (s.turn r).Tables := by
  have hsecond : (s.secondTick r).Tables := h
  unfold turn
  dsimp only
  split_ifs
  · exact hsecond
  · exact hsecond
  · exact h
  · exact h

theorem turn_lt_iff (hcount : s.m_SecondCount < 3600) (r : Readings) :
    (s.turn r).m_SecondCount < 3600 ↔ ¬ s.LateHour r := by
  rw [turn_m_SecondCount, LateHour]
  cases s.m_HourTimer.isReady r.hour with
  | true => simp
  | false =>
    cases s.m_SecondTimer.isReady r.second with
    | true =>
      simp only [Bool.false_eq_true, if_false, if_true, and_true]
      omega
    | false => simp [hcount]

/-! ### Runs -/

/-- In this state any `IncX` writes an entry of its table, and the data of the last hour can be
read, all of it, with the newest entry first. -/
structure HourKept (s : SysMetrics) : Prop where
  inRange : s.m_SecondCount < 3600
  writes : ∀ metric, ∃ t, s.inc metric = .ok t
  data : ∀ metric, s.getData metric =
    .ok (((s.counter metric).hourlyCount.take ((s.counter metric).index+1)).reverse ++
      ((s.counter metric).hourlyCount.drop ((s.counter metric).index+1)).reverse)
  complete : ∀ metric, (s.counter metric).hourlyCount.length = 3600

/-- At every moment of the run. -/
def AlwaysKept (now : ℤ) (events : List Event) : Prop :=
  ∀ past, past <+: events → ∃ s, run (constructed now) past = .ok s ∧ s.HourKept

/-- No turn of the loop comes to a full hour before the hour timer is ready. -/
def NeverLate (now : ℤ) (events : List Event) : Prop :=
  ∀ past r s, past ++ [.turn r] <+: events → run (constructed now) past = .ok s → ¬ s.LateHour r

theorem hourKept_of_tables (htables : s.Tables) (hcount : s.m_SecondCount < 3600) :
    s.HourKept := by
  refine ⟨hcount, fun metric => ?_, fun metric => ?_, fun metric => (htables metric).1⟩
  · obtain ⟨t, ht, -⟩ := inc_ok htables hcount metric
    exact ⟨t, ht⟩
  · exact NumericalCounter.getHourData_ok (htables metric).1 (htables metric).2

theorem run_append_singleton (s : SysMetrics) (past : List Event) (e : Event) :
    run s (past ++ [e]) = run s past >>= fun t => t.handle e := by
  unfold run
  rw [List.foldlM_append]
  congr 1
  funext t
  rw [List.foldlM_cons]
  cases t.handle e with
  | error _ => rfl
  | ok _ => rfl

/-- One step keeps the tables, and the index in them unless the hour is late. -/
theorem handle_kept (htables : s.Tables) (hcount : s.m_SecondCount < 3600) {e : Event}
    (hlate : ∀ r, e = .turn r → ¬ s.LateHour r) :
    ∃ t, s.handle e = .ok t ∧ t.Tables ∧ t.m_SecondCount < 3600 := by
  cases e with
  | start second hour => exact ⟨_, rfl, htables, hcount⟩
  | turn r => exact ⟨_, rfl, turn_tables htables r, (turn_lt_iff hcount r).mpr (hlate r rfl)⟩
  | inc metric =>
    obtain ⟨t, ht, htables', hcount', -⟩ := inc_ok htables hcount metric
    exact ⟨t, ht, htables', hcount' ▸ hcount⟩
  | responseTime => exact ⟨_, rfl, htables, hcount⟩

theorem run_kept {now : ℤ} {events : List Event} (hlate : NeverLate now events) {past : List Event}
    (hpast : past <+: events) : ∃ s, run (constructed now) past = .ok s ∧ s.Tables ∧
      s.m_SecondCount < 3600 := by
  induction past using List.reverseRecOn with
  | nil => exact ⟨_, rfl, tables_constructed now, show 0 < 3600 by decide⟩
  | append_singleton past e ih =>
    obtain ⟨s, hs, htables, hcount⟩ := ih ((List.prefix_append past [e]).trans hpast)
    obtain ⟨t, ht, htables', hcount'⟩ := handle_kept htables hcount (e := e) (by
      intro r he
      rw [he] at hpast
      exact hlate past r s hpast hs)
    refine ⟨t, ?_, htables', hcount'⟩
    rw [run_append_singleton, hs, ok_bind, ht]

/-- The index stays in the tables in every run in which no turn is late, and in no other. -/
theorem alwaysKept_iff (now : ℤ) (events : List Event) :
    AlwaysKept now events ↔ NeverLate now events := by
  constructor
  · intro hkept past r s hturn hs
    obtain ⟨t, ht, hafter⟩ := hkept _ hturn
    obtain ⟨s', hs', hbefore⟩ := hkept past ((List.prefix_append past _).trans hturn)
    rw [hs] at hs'
    cases hs'
    rw [run_append_singleton, hs, ok_bind] at ht
    cases ht
    exact (turn_lt_iff hbefore.inRange r).mp hafter.inRange
  · intro hlate past hpast
    obtain ⟨s, hs, htables, hcount⟩ := run_kept hlate hpast
    exact ⟨s, hs, hourKept_of_tables htables hcount⟩

/-! ### Timers in phase -/

theorem turn_m_SecondTimer (s : SysMetrics) (r : Readings) : (s.turn r).m_SecondTimer =
    if s.m_SecondTimer.isReady r.second then s.m_SecondTimer.reset r.secondReset
    else s.m_SecondTimer := by
  unfold turn
  dsimp only
  split_ifs <;> rfl

theorem turn_m_HourTimer (s : SysMetrics) (r : Readings) : (s.turn r).m_HourTimer =
    if s.m_HourTimer.isReady r.hour then s.m_HourTimer.reset r.hourReset else s.m_HourTimer := by
  unfold turn
  dsimp only
  by_cases hsecond : s.m_SecondTimer.isReady r.second = true
  · rw [if_pos hsecond]
    change (if s.m_HourTimer.isReady r.hour = true then (s.secondTick r).hourTick r
      else s.secondTick r).m_HourTimer = _
    split_ifs <;> rfl
  · rw [if_neg hsecond]
    split_ifs <;> rfl

/-- A reading after which an hour still fits an `int`. -/
def InRange (now : ℤ) : Prop := -2147483648 ≤ now ∧ now+3600 ≤ intMax

/-- The clock does not go back, and the hour timer is set at the reading at which the second timer
was set last. -/
def InPhase (s : SysMetrics) : Event → Prop
  | .start second hour => s.m_SecondTimer.m_bStopped = true ∧ second = hour ∧ InRange second
  | .turn r => InRange r.secondReset ∧ InRange r.hourReset ∧ r.second ≤ r.secondReset ∧
    r.second ≤ r.hour ∧ (s.m_HourTimer.isReady r.hour = true →
      r.hourReset+1 = (s.turn r).m_SecondTimer.m_timestamp)
  | .inc _ => True
  | .responseTime => True

/-- Between two full hours there are at most as many ticks as the clock has gone through seconds. -/
inductive Phase (s : SysMetrics) : Prop
  | waiting (second : s.m_SecondTimer.m_bStopped = true) (hour : s.m_HourTimer.m_bStopped = true)
    (count : s.m_SecondCount = 0)
  | running (second : s.m_SecondTimer.m_bStopped = false) (seconds : s.m_SecondTimer.m_seconds = 1)
    (hour : s.m_HourTimer.m_bStopped = false) (hourSeconds : s.m_HourTimer.m_seconds = 3600)
    (count : s.m_SecondCount+s.m_HourTimer.m_timestamp ≤ s.m_SecondTimer.m_timestamp+3599)

theorem isReady_iff (x : Timer) (now : ℤ) :
    x.isReady now = true ↔ x.m_bStopped = false ∧ x.m_timestamp ≤ now := by
  unfold Timer.isReady
  simp

theorem Phase.not_late (h : s.Phase) {r : Readings} (hclock : r.second ≤ r.hour) :
    ¬ s.LateHour r := by
  intro ⟨hcount, hsecond, hhour⟩
  rw [isReady_iff] at hsecond
  cases h with
  | waiting second _ _ =>
    rw [second] at hsecond
    cases hsecond.1
  | running _ _ hour _ count =>
    have hready : s.m_HourTimer.isReady r.hour = true := by
      rw [isReady_iff]
      exact ⟨hour, by omega⟩
    rw [hready] at hhour
    cases hhour

theorem Phase.turn (h : s.Phase) {r : Readings} (hphase : s.InPhase (.turn r)) :
    (s.turn r).Phase := by
  obtain ⟨hreset, hhourReset, hclock, -, hset⟩ := hphase
  have hint : int32 (r.secondReset+1) = r.secondReset+1 := by
    unfold InRange at hreset
    exact int32_eq (by omega) (by omega)
  have hhourInt : int32 (r.hourReset+3600) = r.hourReset+3600 := by
    unfold InRange at hhourReset
    exact int32_eq (by omega) (by omega)
  cases h with
  | waiting second hour count =>
    have hnot (x : Timer) (now : ℤ) (hx : x.m_bStopped = true) : x.isReady now = false := by
      unfold Timer.isReady
      rw [hx]
      rfl
    apply Phase.waiting
    · rw [turn_m_SecondTimer, hnot _ _ second]
      exact second
    · rw [turn_m_HourTimer, hnot _ _ hour]
      exact hour
    · rw [turn_m_SecondCount, hnot _ _ second, hnot _ _ hour]
      exact count
  | running second seconds hour hourSeconds count =>
    by_cases hready : s.m_HourTimer.isReady r.hour = true
    · have hnext := hset hready
      apply Phase.running
      · rw [turn_m_SecondTimer]
        split_ifs
        · rfl
        · exact second
      · rw [turn_m_SecondTimer]
        split_ifs
        · exact seconds
        · exact seconds
      · rw [turn_m_HourTimer, if_pos hready]
        rfl
      · rw [turn_m_HourTimer, if_pos hready]
        exact hourSeconds
      · rw [turn_m_SecondCount, turn_m_HourTimer, if_pos hready, if_pos hready, Timer.reset,
          hourSeconds, hhourInt]
        push_cast
        omega
    · by_cases htick : s.m_SecondTimer.isReady r.second = true
      · have hdue := ((isReady_iff _ _).mp htick).2
        apply Phase.running
        · rw [turn_m_SecondTimer, if_pos htick]
          rfl
        · rw [turn_m_SecondTimer, if_pos htick]
          exact seconds
        · rw [turn_m_HourTimer, if_neg hready]
          exact hour
        · rw [turn_m_HourTimer, if_neg hready]
          exact hourSeconds
        · rw [turn_m_SecondCount, turn_m_HourTimer, turn_m_SecondTimer, if_neg hready,
            if_neg hready, if_pos htick, if_pos htick, Timer.reset, seconds, hint]
          push_cast
          omega
      · apply Phase.running
        · rw [turn_m_SecondTimer, if_neg htick]
          exact second
        · rw [turn_m_SecondTimer, if_neg htick]
          exact seconds
        · rw [turn_m_HourTimer, if_neg hready]
          exact hour
        · rw [turn_m_HourTimer, if_neg hready]
          exact hourSeconds
        · rw [turn_m_SecondCount, turn_m_HourTimer, turn_m_SecondTimer, if_neg hready,
            if_neg hready, if_neg htick, if_neg htick]
          exact count

theorem Phase.handle (h : s.Phase) {e : Event} (hphase : s.InPhase e)
    (hstep : s.handle e = .ok t) : t.Phase := by
  cases e with
  | start second hour =>
    obtain ⟨hstopped, hsame, hrange⟩ := hphase
    have hcount : s.m_SecondCount = 0 := by
      cases h with
      | waiting _ _ count => exact count
      | running second _ _ _ _ =>
        rw [second] at hstopped
        cases hstopped
    unfold InRange at hrange
    cases hstep
    refine Phase.running rfl rfl rfl rfl ?_
    change (s.m_SecondCount : ℤ)+int32 (hour+3600) ≤ int32 (second+1)+3599
    rw [hcount, int32_eq (by omega) (by omega), int32_eq (by omega) (by omega), hsame]
    push_cast
    omega
  | turn r =>
    cases hstep
    exact h.turn hphase
  | inc metric =>
    obtain ⟨c, -, hc⟩ := bind_eq_ok.mp hstep
    cases hc
    cases h with
    | waiting second hour count => exact .waiting second hour count
    | running second seconds hour hourSeconds count =>
      exact .running second seconds hour hourSeconds count
  | responseTime =>
    cases hstep
    cases h with
    | waiting second hour count => exact .waiting second hour count
    | running second seconds hour hourSeconds count =>
      exact .running second seconds hour hourSeconds count

/-- Timers that are set together never leave the tables. -/
theorem neverLate_of_inPhase {now : ℤ} {events : List Event}
    (hphase : ∀ past e s, past ++ [e] <+: events → run (constructed now) past = .ok s →
      s.InPhase e) : NeverLate now events := by
  have hrun {past : List Event} (hpast : past <+: events) {s : SysMetrics}
      (hs : run (constructed now) past = .ok s) : s.Phase := by
    induction past using List.reverseRecOn generalizing s with
    | nil =>
      cases hs
      exact .waiting rfl rfl rfl
    | append_singleton past e ih =>
      rw [run_append_singleton] at hs
      obtain ⟨t, ht, hstep⟩ := bind_eq_ok.mp hs
      exact (ih ((List.prefix_append past [e]).trans hpast) ht).handle
        (hphase past e t hpast ht) hstep
  intro past r s hturn hs
  have hpast := (List.prefix_append past [Event.turn r]).trans hturn
  exact (hrun hpast hs).not_late (hphase past _ s hturn hs).2.2.2.1

/-! ### An hour timer that is started a second later -/

/-- The readings of the clock, in their order. -/
def Event.clock : Event → List ℤ
  | .start second hour => [second, hour]
  | .turn r => [r.second, r.upTime, r.secondReset, r.hour, r.hourReset]
  | .inc _ => []
  | .responseTime => []

def turnAt (now : ℤ) : Event := .turn ⟨now, now, now, now, now⟩

/-- One turn of the loop in each second. -/
def lateStart (n : ℕ) : List Event :=
  .start 0 1 :: (List.range n).map fun k : ℕ => turnAt (k+1)

theorem lateStart_succ (n : ℕ) : lateStart (n+1) = lateStart n ++ [turnAt (n+1)] := by
  unfold lateStart
  rw [List.range_succ, List.map_append]
  rfl

theorem run_lateStart {n : ℕ} (hn : n ≤ 3600) : ∃ s, run (constructed 0) (lateStart n) = .ok s ∧
    s.Tables ∧ s.m_SecondCount = n ∧ s.m_SecondTimer = ⟨false, 1, n+1⟩ ∧
    s.m_HourTimer = ⟨false, 3600, 3601⟩ := by
  induction n with
  | zero => exact ⟨_, rfl, tables_constructed 0, rfl, rfl, rfl⟩
  | succ n ih =>
    obtain ⟨s, hs, htables, hcount, hsecond, hhour⟩ := ih (by omega)
    have hready : s.m_SecondTimer.isReady (n+1) = true := by
      rw [isReady_iff, hsecond]
      exact ⟨rfl, le_rfl⟩
    have hnot : ¬ s.m_HourTimer.isReady (n+1) = true := by
      rw [isReady_iff, hhour]
      intro h
      have hdue : (3601 : ℤ) ≤ n+1 := h.2
      omega
    refine ⟨s.turn ⟨n+1, n+1, n+1, n+1, n+1⟩, ?_, turn_tables htables _, ?_, ?_, ?_⟩
    · rw [lateStart_succ, run_append_singleton, hs, ok_bind]
      rfl
    · rw [turn_m_SecondCount, if_neg hnot, if_pos hready, hcount]
    · rw [turn_m_SecondTimer, if_pos hready, hsecond, Timer.reset, int32_eq]
      · push_cast
        rfl
      · dsimp only
        omega
      · unfold intMax
        dsimp only
        omega
    · rw [turn_m_HourTimer, if_neg hnot, hhour]

theorem clock_lateStart (n : ℕ) : ((lateStart n).flatMap Event.clock).Pairwise (· ≤ ·) ∧
    ∀ x ∈ (lateStart n).flatMap Event.clock, x ≤ max 1 (n : ℤ) := by
  induction n with
  | zero => exact ⟨by decide, by decide⟩
  | succ n ih =>
    obtain ⟨hsorted, hle⟩ := ih
    have hturn : [turnAt (n+1)].flatMap Event.clock = List.replicate 5 ((n : ℤ)+1) := rfl
    rw [lateStart_succ, List.flatMap_append, hturn]
    refine ⟨List.pairwise_append.mpr ⟨hsorted, List.pairwise_replicate.mpr (.inr le_rfl), ?_⟩, ?_⟩
    · intro x hx y hy
      have hxle := hle x hx
      have hyeq := List.eq_of_mem_replicate hy
      omega
    · intro x hx
      push_cast
      rcases List.mem_append.mp hx with hx | hx
      · have hxle := hle x hx
        omega
      · have hxeq := List.eq_of_mem_replicate hx
        omega

/-- Its last tick comes before the hour is over: the next delivered message is counted behind the
table. -/
theorem lateStart_leaves_table : ((lateStart 3600).flatMap Event.clock).Pairwise (· ≤ ·) ∧
    (∃ s, run (constructed 0) (lateStart 3600) = .ok s ∧ s.m_SecondCount = 3600 ∧
      s.incMsgDelivered = .error .undefined) ∧ ¬ AlwaysKept 0 (lateStart 3600) := by
  obtain ⟨s, hs, htables, hcount, -⟩ := run_lateStart (le_refl 3600)
  refine ⟨(clock_lateStart 3600).1, ⟨s, hs, hcount, inc_undefined htables (by omega) _⟩, ?_⟩
  intro hkept
  obtain ⟨t, ht, hafter⟩ := hkept _ (List.prefix_refl _)
  rw [hs] at ht
  cases ht
  have hlt := hafter.inRange
  omega

end SysMetrics
end MsgCourier
