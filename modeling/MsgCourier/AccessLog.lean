import MsgCourier.Msg

/-! `cAccessLog`: a vector that turns into a ring when it is full, and the order it is read in. -/
namespace MsgCourier
open CText

def accessLogMaxEntries : ℕ := 256

/-- The texts are C strings. -/
structure AccessRecord where
  eventTimestamp : ℤ := 0
  protocol : MsgProtocol := .unknown
  priority : ℤ := 0
  command : Bytes := []
  activity : Bytes := []
  ipAddress : Bytes := []
  deriving DecidableEq, Repr

structure AccessLog where
  recIndex : ℤ := 0
  records : List AccessRecord := []
  recycle : Bool := false
  deriving DecidableEq, Repr

/-- `Init` sets every field. -/
def AccessRecord.init (_ : AccessRecord) (timestamp : ℤ) (protocol : MsgProtocol) (priority : ℤ)
    (command activity ipAddress : Bytes) : AccessRecord :=
  ⟨timestamp, protocol, priority, command, activity, ipAddress⟩

namespace AccessLog

/-- `m_records[i]`. -/
def recordAt (x : AccessLog) (i : ℤ) : Cxx AccessRecord :=
  match i with
  | .ofNat i =>
    match x.records[i]? with
    | some r => pure r
    | none => .error .undefined
  | .negSucc _ => .error .undefined

/-- `time` is what `time(0)` returns in the call. -/
def addEntry (x : AccessLog) (time : ℤ) (protocol : MsgProtocol) (priority : ℤ)
    (command activity ipAddress : Bytes) : Cxx AccessLog := do
  let x ←
    if !x.recycle && x.records.length < accessLogMaxEntries then
      let r := AccessRecord.init {} time protocol priority command activity ipAddress
      let records := x.records ++ [r]
      pure { x with records, recycle := x.recycle || accessLogMaxEntries ≤ records.length }
    else do
      let r ← x.recordAt x.recIndex
      let r := r.init time protocol priority command activity ipAddress
      pure { x with records := x.records.set x.recIndex.toNat r }
  let recIndex : ℤ := x.recIndex+1
  pure { x with recIndex := if recIndex = (accessLogMaxEntries : ℤ) then 0 else recIndex }

/-- `for (i = first; i < m_recIndex; i++)` -/
def upward (x : AccessLog) (first : ℤ) : Cxx (List AccessRecord) :=
  (List.range (x.recIndex-first).toNat).mapM fun k : ℕ => x.recordAt (first+k)

/-- The rounds of `downward` from an index that is not negative. -/
def roundsDown (x : AccessLog) : ℕ → Cxx (List AccessRecord)
  | 0 => pure []
  | i+1 => do
    let r ← x.recordAt (i+1 : ℕ)
    let rest ← roundsDown x i
    pure (r :: rest)

/-- `for (i = first; i != 0; i--)`. A negative index is not a place of the vector, so that the loop
that would not end is over with its first round. -/
def downward (x : AccessLog) (first : ℤ) : Cxx (List AccessRecord) :=
  match first with
  | .ofNat i => x.roundsDown i
  | .negSucc i => do
    let r ← x.recordAt (.negSucc i)
    pure [r]

def getEntries (x : AccessLog) : Cxx (List AccessRecord) :=
  if x.recycle then do
    let behind ← x.upward (x.recIndex+1)
    let front ← x.upward 0
    pure (behind ++ front)
  else x.downward (x.recIndex-1)

/-- One call of `AddEntry` for each record of the list, with the arguments and the time that the
record has. -/
def logged : List AccessRecord → AccessLog → Cxx AccessLog
  | [], x => pure x
  | r :: calls, x => do
    let x ← x.addEntry r.eventTimestamp r.protocol r.priority r.command r.activity r.ipAddress
    logged calls x

/-- What the log is for. -/
def newestFirst (calls : List AccessRecord) : List AccessRecord :=
  calls.reverse.take accessLogMaxEntries

/-! ### The vector after some calls -/

/-- Call `j` wrote to slot `j % 256`, and it is overwritten when 256 more have come. -/
structure Records (x : AccessLog) (calls : List AccessRecord) : Prop where
  size : x.records.length = min calls.length accessLogMaxEntries
  index : x.recIndex = (calls.length % accessLogMaxEntries : ℕ)
  recycle : x.recycle = decide (accessLogMaxEntries ≤ calls.length)
  slots : ∀ j < calls.length, calls.length ≤ j+accessLogMaxEntries →
    x.records[j % accessLogMaxEntries]? = calls[j]?

variable {x y : AccessLog} {calls : List AccessRecord}

theorem records_nil : Records {} [] := by
  refine ⟨rfl, rfl, rfl, ?_⟩
  intro j hj
  exact absurd hj (Nat.not_lt_zero j)

theorem recordAt_ofNat {i : ℕ} (hi : i < x.records.length) :
    x.recordAt i = .ok (x.records.get ⟨i, hi⟩) := by
  unfold recordAt
  dsimp only [Int.ofNat_eq_natCast]
  rw [List.getElem?_eq_getElem hi]
  rfl

/-- The index behind a call. -/
theorem next_index (n : ℕ) :
    (if ((n % accessLogMaxEntries : ℕ) : ℤ)+1 = accessLogMaxEntries then 0
      else ((n % accessLogMaxEntries : ℕ) : ℤ)+1) = ((n+1) % accessLogMaxEntries : ℕ) := by
  unfold accessLogMaxEntries
  split_ifs <;> omega

theorem getElem?_concat_lt {α : Type} {l : List α} {j : ℕ} (hj : j < l.length) (a : α) :
    (l ++ [a])[j]? = l[j]? := List.getElem?_append_left hj

/-- While the vector grows, the place of a call is its number. -/
theorem Records.grow (h : Records x calls) (hlt : calls.length < accessLogMaxEntries)
    (r : AccessRecord) :
    Records ⟨(calls.length+1) % accessLogMaxEntries, x.records ++ [r],
      x.recycle || accessLogMaxEntries ≤ (x.records ++ [r]).length⟩ (calls ++ [r]) := by
  have hsize : x.records.length = calls.length := by
    rw [h.size]
    exact min_eq_left hlt.le
  have hnext : (calls ++ [r]).length = calls.length+1 := by
    rw [List.length_append, List.length_singleton]
  refine ⟨?_, ?_, ?_, ?_⟩
  · rw [List.length_append, hsize, hnext, min_eq_left hlt]
    rfl
  · rw [hnext]
    norm_cast
  · dsimp only
    rw [h.recycle, decide_eq_false (not_le.mpr hlt), Bool.false_or, List.length_append, hsize,
      hnext]
    rfl
  · intro j hj _
    rw [hnext] at hj
    have hmod : j % accessLogMaxEntries = j := Nat.mod_eq_of_lt (by omega)
    dsimp only
    rw [hmod]
    rcases Nat.lt_succ_iff_lt_or_eq.mp hj with hold | rfl
    · have hslot := h.slots j hold (by omega)
      rw [hmod] at hslot
      rw [getElem?_concat_lt (by omega), getElem?_concat_lt hold, hslot]
    · rw [List.getElem?_concat_length, ← hsize, List.getElem?_concat_length]

/-- A call on the ring overwrites the oldest entry, which is the one 256 calls ago. -/
theorem Records.overwrite (h : Records x calls) (hge : accessLogMaxEntries ≤ calls.length)
    (r : AccessRecord) :
    Records ⟨(calls.length+1) % accessLogMaxEntries,
      x.records.set (calls.length % accessLogMaxEntries) r, x.recycle⟩ (calls ++ [r]) := by
  have hsize : x.records.length = accessLogMaxEntries := by
    rw [h.size]
    exact min_eq_right hge
  have hnext : (calls ++ [r]).length = calls.length+1 := by
    rw [List.length_append, List.length_singleton]
  have hplace : calls.length % accessLogMaxEntries < x.records.length := by
    rw [hsize]
    exact Nat.mod_lt _ (by decide)
  refine ⟨?_, ?_, ?_, ?_⟩
  · rw [List.length_set, hsize, hnext, min_eq_right (by omega)]
  · rw [hnext]
    norm_cast
  · dsimp only
    rw [h.recycle, hnext, decide_eq_true hge, decide_eq_true (by omega)]
  · intro j hj hlate
    rw [hnext] at hj hlate
    dsimp only
    rcases Nat.lt_succ_iff_lt_or_eq.mp hj with hold | rfl
    · -- fewer than 256 calls apart, two calls have different slots
      have hne : calls.length % accessLogMaxEntries ≠ j % accessLogMaxEntries := by
        unfold accessLogMaxEntries at hlate ⊢
        omega
      rw [List.getElem?_set_ne hne, getElem?_concat_lt hold]
      exact h.slots j hold (by omega)
    · rw [List.getElem?_concat_length, List.getElem?_set_self hplace]

theorem Records.addEntry (h : Records x calls) (r : AccessRecord) : ∃ y,
    x.addEntry r.eventTimestamp r.protocol r.priority r.command r.activity r.ipAddress = .ok y ∧
      Records y (calls ++ [r]) := by
  unfold AccessLog.addEntry
  by_cases hlt : calls.length < accessLogMaxEntries
  · have hsize : x.records.length = calls.length := h.size.trans (min_eq_left hlt.le)
    have hgrows : (!x.recycle && decide (x.records.length < accessLogMaxEntries)) = true := by
      rw [h.recycle, hsize, decide_eq_false (not_le.mpr hlt), decide_eq_true hlt]
      rfl
    rw [if_pos hgrows]
    refine ⟨_, rfl, ?_⟩
    dsimp only
    rw [h.index, next_index]
    exact h.grow hlt r
  · have hge : accessLogMaxEntries ≤ calls.length := not_lt.mp hlt
    have hring : ¬ (!x.recycle && decide (x.records.length < accessLogMaxEntries)) = true := by
      rw [h.recycle, decide_eq_true hge]
      exact Bool.false_ne_true
    have hplace : calls.length % accessLogMaxEntries < x.records.length := by
      rw [h.size, min_eq_right hge]
      exact Nat.mod_lt _ (by decide)
    rw [if_neg hring, h.index, recordAt_ofNat hplace]
    refine ⟨_, rfl, ?_⟩
    dsimp only
    rw [next_index, Int.toNat_natCast]
    exact h.overwrite hge r

theorem Records.logged (h : Records x calls) (rest : List AccessRecord) : ∃ y,
    AccessLog.logged rest x = .ok y ∧ Records y (calls ++ rest) := by
  induction rest generalizing x calls with
  | nil =>
    refine ⟨x, rfl, ?_⟩
    rwa [List.append_nil]
  | cons r rest ih =>
    obtain ⟨y, hy, hrecords⟩ := h.addEntry r
    obtain ⟨z, hz, hlast⟩ := ih hrecords
    refine ⟨z, ?_, ?_⟩
    · unfold AccessLog.logged
      rw [hy]
      exact hz
    · rwa [List.append_assoc] at hlast

/-! ### What is read -/

/-- The loops return places of the vector. -/
theorem mapM_recordAt (indices : List ℕ) (hin : ∀ i ∈ indices, i < x.records.length) :
    (indices.mapM fun i : ℕ => x.recordAt i) =
      .ok (indices.map fun i => x.records.getD i {}) := by
  induction indices with
  | nil => rfl
  | cons i indices ih =>
    have hi : i < x.records.length := hin i List.mem_cons_self
    have hget : x.recordAt i = .ok (x.records.getD i {}) := by
      rw [recordAt_ofNat hi, List.getD_eq_getElem?_getD, List.getElem?_eq_getElem hi]
      rfl
    rw [List.mapM_cons, hget, ok_bind, ih fun j hj => hin j (List.mem_cons_of_mem _ hj)]
    rfl

/-- Downwards from a place of the vector, place 0 is left out. -/
theorem roundsDown_eq {i : ℕ} (hi : i < x.records.length) :
    x.roundsDown i = .ok ((x.records.take (i+1)).drop 1).reverse := by
  induction i with
  | zero =>
    have hfirst : (x.records.take (0+1)).drop 1 = [] := by
      rw [List.drop_eq_nil_iff]
      exact List.length_take_le _ _
    rw [hfirst]
    rfl
  | succ i ih =>
    have hlast : (x.records.take (i+2)).drop 1 =
        (x.records.take (i+1)).drop 1 ++ [x.records.get ⟨i+1, hi⟩] := by
      rw [List.take_succ_eq_append_getElem hi, List.drop_append_of_le_length]
      · rfl
      · rw [List.length_take]
        omega
    unfold roundsDown
    rw [recordAt_ofNat hi, ok_bind, ih (by omega), hlast, List.reverse_append]
    rfl

/-- Upwards from the start, the places below the index. -/
theorem upward_zero {n : ℕ} (hindex : x.recIndex = n) (hn : n ≤ x.records.length) :
    x.upward 0 = .ok (x.records.take n) := by
  have hrange : ∀ i ∈ List.range n, i < x.records.length := by
    intro i hi
    exact lt_of_lt_of_le (List.mem_range.mp hi) hn
  unfold upward
  rw [hindex, sub_zero, Int.toNat_natCast]
  simp only [zero_add]
  rw [mapM_recordAt _ hrange]
  apply congrArg
  apply List.ext_getElem
  · rw [List.length_map, List.length_range, List.length_take, min_eq_left hn]
  · intro i h₁ h₂
    rw [List.length_take, lt_min_iff] at h₂
    rw [List.getElem_map, List.getElem_range, List.getElem_take, List.getD_eq_getElem?_getD,
      List.getElem?_eq_getElem h₂.2]
    rfl

/-- No place is both above the index and below it. -/
theorem upward_behind : x.upward (x.recIndex+1) = .ok [] := by
  have hnone : (x.recIndex-(x.recIndex+1)).toNat = 0 := by omega
  unfold upward
  rw [hnone]
  rfl

/-- From an empty log the first read is outside of the vector. -/
theorem getEntries_empty (h : Records x []) : x.getEntries = .error .undefined := by
  have hindex : x.recIndex-1 = .negSucc 0 := by
    rw [h.index]
    rfl
  unfold getEntries
  rw [h.recycle, hindex]
  rfl

/-- While the vector grows, the first entry is left out. -/
theorem Records.getEntries_growing (h : Records x calls) (h0 : calls ≠ [])
    (hlt : calls.length < accessLogMaxEntries) :
    x.getEntries = .ok (x.records.drop 1).reverse := by
  have hsize : x.records.length = calls.length := h.size.trans (min_eq_left hlt.le)
  have hpos : 0 < calls.length := List.length_pos_iff.mpr h0
  have hindex : x.recIndex-1 = (calls.length-1 : ℕ) := by
    rw [h.index, Nat.mod_eq_of_lt hlt]
    omega
  unfold getEntries
  rw [h.recycle, decide_eq_false (not_le.mpr hlt), hindex]
  refine (roundsDown_eq (by omega)).trans ?_
  rw [Nat.sub_add_cancel hpos, ← hsize, List.take_length]

/-- From the ring only the places below the index are read, from the oldest entry to the newest. -/
theorem Records.getEntries_ring (h : Records x calls) (hge : accessLogMaxEntries ≤ calls.length) :
    x.getEntries = .ok (x.records.take (calls.length % accessLogMaxEntries)) := by
  have hplace : calls.length % accessLogMaxEntries ≤ x.records.length := by
    rw [h.size, min_eq_right hge]
    exact (Nat.mod_lt _ (by decide)).le
  unfold getEntries
  rw [h.recycle, decide_eq_true hge, if_pos rfl, upward_behind, upward_zero h.index hplace]
  rfl

theorem length_newestFirst (calls : List AccessRecord) :
    (newestFirst calls).length = min accessLogMaxEntries calls.length := by
  rw [newestFirst, List.length_take, List.length_reverse]

/-- The log never returns what it is for: after no call it reads outside of the vector, and after
any others it returns too few entries. -/
theorem getEntries_ne_newestFirst (calls : List AccessRecord) :
    ∃ x, logged calls {} = .ok x ∧ x.getEntries ≠ .ok (newestFirst calls) := by
  obtain ⟨x, hx, hrecords⟩ := records_nil.logged calls
  rw [List.nil_append] at hrecords
  refine ⟨x, hx, ?_⟩
  intro hread
  by_cases h0 : calls = []
  · rw [h0] at hrecords
    cases (getEntries_empty hrecords).symm.trans hread
  have hpos : 0 < calls.length := List.length_pos_iff.mpr h0
  by_cases hlt : calls.length < accessLogMaxEntries
  · have hresult := (hrecords.getEntries_growing h0 hlt).symm.trans hread
    have hlength := congrArg List.length (Except.ok.inj hresult)
    rw [length_newestFirst, List.length_reverse, List.length_drop, hrecords.size] at hlength
    omega
  · have hge : accessLogMaxEntries ≤ calls.length := not_lt.mp hlt
    have hresult := (hrecords.getEntries_ring hge).symm.trans hread
    have hlength := congrArg List.length (Except.ok.inj hresult)
    have hmod : calls.length % accessLogMaxEntries < accessLogMaxEntries :=
      Nat.mod_lt _ (by decide)
    rw [length_newestFirst, List.length_take, hrecords.size] at hlength
    omega

/-- A log with one entry returns none. -/
theorem getEntries_of_one : ¬ ∀ calls : List AccessRecord, ∃ x, logged calls {} = .ok x ∧
    x.getEntries = .ok (newestFirst calls) := by
  intro h
  obtain ⟨x, hx, hread⟩ := h [{ eventTimestamp := 1, command := bytes "GET" }]
  obtain rfl := Except.ok.inj hx
  exact absurd hread (by decide)

end AccessLog
end MsgCourier
