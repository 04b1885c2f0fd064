import MsgCourier.Buffer
import MsgCourier.Runs

/-! `cUniqueIDProvider`: the pool of identifiers, filled by its own thread and emptied
by `GetID`. -/
namespace MsgCourier
open CText Runs

def maxUniqueIds : ℕ := 256

/-- Who is in the critical section, and at which slot: `Run`, or a caller of `GetID`. -/
inductive ProviderPc
  | outside
  | run (i : ℕ)
  | getID (thread i : ℕ)
  deriving DecidableEq, Repr

/-- `created` is how often `CreateNewID` was called, and `issued` what `GetID` has returned. -/
structure UniqueIDProvider where
  vector : List Bytes := []
  created : ℕ := 0
  pc : ProviderPc := .outside
  issued : List Bytes := []

namespace UniqueIDProvider

/-- `CreateNewID` returns the next element of a given sequence. -/
def createNewID (newID : ℕ → Bytes) (x : UniqueIDProvider) : Bytes × UniqueIDProvider :=
  (newID x.created, { x with created := x.created+1 })

/-- The loop of the constructor, `n` rounds of it. -/
def fill (newID : ℕ → Bytes) : ℕ → UniqueIDProvider
  | 0 => {}
  | n+1 =>
    let (sGUID, x) := (fill newID n).createNewID newID
    { x with vector := x.vector ++ [sGUID] }

def constructed (newID : ℕ → Bytes) : UniqueIDProvider := fill newID maxUniqueIds

def readSlot (x : UniqueIDProvider) (i : ℕ) : Cxx Bytes :=
  match x.vector[i]? with
  | some s => pure s
  | none => .error .undefined

/-- A round of the loop in `Run`: only an empty slot is filled. -/
def refill (newID : ℕ → Bytes) (x : UniqueIDProvider) (i : ℕ) : Cxx UniqueIDProvider := do
  let s ← x.readSlot i
  if s.length = 0 then
    let (sGUID, x) := x.createNewID newID
    pure { x with vector := x.vector.set i sGUID, pc := .run (i+1) }
  else pure { x with pc := .run (i+1) }

/-- A round of the loop in `GetID`: an identifier is taken out of its slot. -/
def search (x : UniqueIDProvider) (thread i : ℕ) : Cxx UniqueIDProvider := do
  let s ← x.readSlot i
  if s.length ≠ 0 then
    pure { x with vector := x.vector.set i [], pc := .outside, issued := x.issued ++ [s] }
  else pure { x with pc := .getID thread (i+1) }

/-- No slot had an identifier. -/
def createForCaller (newID : ℕ → Bytes) (x : UniqueIDProvider) : UniqueIDProvider :=
  let (sGUID, x) := x.createNewID newID
  { x with pc := .outside, issued := x.issued ++ [sGUID] }

end UniqueIDProvider

inductive ProviderAction
  | run
  | getID (thread : ℕ)

/-- The mutex lets one thread into the critical section. Inside, every step is one round of a
loop. -/
inductive ProviderStep (newID : ℕ → Bytes) :
    UniqueIDProvider → ProviderAction → UniqueIDProvider → Prop
  | lockRun {x : UniqueIDProvider} :
      x.pc = .outside → ProviderStep newID x .run { x with pc := .run 0 }
  | refill {x y : UniqueIDProvider} {i : ℕ} :
      x.pc = .run i → i < maxUniqueIds → x.refill newID i = .ok y → ProviderStep newID x .run y
  | unlockRun {x : UniqueIDProvider} {i : ℕ} :
      x.pc = .run i → ¬ i < maxUniqueIds → ProviderStep newID x .run { x with pc := .outside }
  | lockGetID {x : UniqueIDProvider} {thread : ℕ} :
      x.pc = .outside → ProviderStep newID x (.getID thread) { x with pc := .getID thread 0 }
  | search {x y : UniqueIDProvider} {thread i : ℕ} :
      x.pc = .getID thread i → i < maxUniqueIds → x.search thread i = .ok y →
      ProviderStep newID x (.getID thread) y
  | create {x : UniqueIDProvider} {thread i : ℕ} :
      x.pc = .getID thread i → ¬ i < maxUniqueIds →
      ProviderStep newID x (.getID thread) (x.createForCaller newID)

namespace UniqueIDProvider

/-! ### Where the identifiers are -/

/-- The identifiers among some texts. -/
def ids (l : List Bytes) : List Bytes := l.filter (· ≠ [])

/-- The identifiers in the slots, and those that were given away. -/
def live (x : UniqueIDProvider) : List Bytes := ids (x.vector ++ x.issued)

/-- The identifiers that were created. -/
def drawn (newID : ℕ → Bytes) (n : ℕ) : List Bytes := ids ((List.range n).map newID)

/-- Every identifier created is in one place, and no slot is given away empty. -/
structure Kept (newID : ℕ → Bytes) (x : UniqueIDProvider) : Prop where
  slots : x.vector.length = maxUniqueIds
  live : x.live.Perm (drawn newID x.created)
  given : ∀ s ∈ x.issued, s ≠ [] ∨ ∃ i, newID i = s

variable {newID : ℕ → Bytes} {x y : UniqueIDProvider}

theorem ids_append (u v : List Bytes) : ids (u ++ v) = ids u ++ ids v := List.filter_append u v

theorem drawn_succ (newID : ℕ → Bytes) (n : ℕ) :
    drawn newID (n+1) = drawn newID n ++ ids [newID n] := by
  unfold drawn
  rw [List.range_succ, List.map_append, ids_append]
  rfl

/-- A slot divides the texts into what is before it, in it and behind it. -/
theorem readSlot_inv {i : ℕ} {s : Bytes} (h : x.readSlot i = .ok s) : ∃ u v,
    x.vector = u ++ s :: v ∧ ∀ b, x.vector.set i b = u ++ b :: v := by
  unfold readSlot at h
  cases hs : x.vector[i]? with
  | none =>
    rw [hs] at h
    cases h
  | some a =>
    rw [hs] at h
    obtain rfl := Except.ok.inj h
    obtain ⟨hi, ha⟩ := List.getElem?_eq_some_iff.mp hs
    refine ⟨x.vector.take i, x.vector.drop (i+1), ?_, fun b => ?_⟩
    · rw [← ha, ← List.drop_eq_getElem_cons hi, List.take_append_drop]
    · rw [List.set_eq_take_append_cons_drop, if_pos hi]

theorem live_of_split {u v : List Bytes} {s : Bytes} (h : x.vector = u ++ s :: v) :
    x.live.Perm (ids [s] ++ ids (u ++ v ++ x.issued)) := by
  have hsplit : (x.vector ++ x.issued).Perm ([s] ++ (u ++ v ++ x.issued)) := by
    rw [h, List.append_assoc, List.append_assoc]
    exact List.perm_middle
  rw [← ids_append]
  exact hsplit.filter _

/-- The search ends at a slot that is not empty. -/
theorem search_of_full {thread i : ℕ} {s : Bytes} (h : x.vector[i]? = some s) (hs : s ≠ []) :
    x.search thread i =
      .ok { x with vector := x.vector.set i [], pc := .outside, issued := x.issued ++ [s] } := by
  have hread : x.readSlot i = .ok s := by
    unfold readSlot
    rw [h]
    rfl
  unfold search
  rw [hread, ok_bind, if_pos fun hlen => hs (List.length_eq_zero_iff.mp hlen)]
  rfl

/-- A new identifier goes to an empty slot. -/
theorem Kept.refill (h : x.Kept newID) {i : ℕ} (hok : x.refill newID i = .ok y) :
    y.Kept newID := by
  obtain ⟨s, hs, hok⟩ := bind_eq_ok.mp hok
  by_cases hempty : s.length = 0
  · rw [if_pos hempty] at hok
    obtain rfl := Except.ok.inj hok
    obtain rfl := List.length_eq_zero_iff.mp hempty
    obtain ⟨u, v, hsplit, hset⟩ := readSlot_inv hs
    refine ⟨(List.length_set ..).trans h.slots, ?_, h.given⟩
    have hbefore := live_of_split hsplit
    have hafter := live_of_split (x := { x with
      vector := x.vector.set i (newID x.created), pc := .run (i+1), created := x.created+1 })
      (hset (newID x.created))
    have hold : (ids (u ++ v ++ x.issued)).Perm (drawn newID x.created) := hbefore.symm.trans h.live
    apply hafter.trans
    dsimp only
    rw [drawn_succ]
    exact (hold.append_left _).trans List.perm_append_comm
  · rw [if_neg hempty] at hok
    obtain rfl := Except.ok.inj hok
    exact ⟨h.slots, h.live, h.given⟩

/-- An identifier goes from its slot to the caller. -/
theorem Kept.search (h : x.Kept newID) {thread i : ℕ} (hok : x.search thread i = .ok y) :
    y.Kept newID := by
  obtain ⟨s, hs, hok⟩ := bind_eq_ok.mp hok
  by_cases hfull : s.length ≠ 0
  · rw [if_pos hfull] at hok
    obtain rfl := Except.ok.inj hok
    obtain ⟨u, v, hsplit, hset⟩ := readSlot_inv hs
    have hgiven : ∀ s' ∈ x.issued ++ [s], s' ≠ [] ∨ ∃ i, newID i = s' := by
      intro s' hs'
      rcases List.mem_append.mp hs' with hold | hnew
      · exact h.given s' hold
      · rw [List.mem_singleton.mp hnew]
        exact Or.inl fun hnil => hfull (congrArg List.length hnil)
    refine ⟨(List.length_set ..).trans h.slots, ?_, hgiven⟩
    have hbefore := live_of_split hsplit
    have hafter := live_of_split (x := { x with
      vector := x.vector.set i [], pc := .outside, issued := x.issued ++ [s] }) (hset [])
    apply hafter.trans
    apply List.Perm.trans _ (hbefore.symm.trans h.live)
    dsimp only
    rw [show ids [[]] = [] from rfl, List.nil_append, ← List.append_assoc, ids_append]
    exact List.perm_append_comm
  · rw [if_neg hfull] at hok
    obtain rfl := Except.ok.inj hok
    exact ⟨h.slots, h.live, h.given⟩

theorem Kept.createForCaller (h : x.Kept newID) : (x.createForCaller newID).Kept newID := by
  refine ⟨h.slots, ?_, fun s hs => ?_⟩
  · change (ids (x.vector ++ (x.issued ++ [newID x.created]))).Perm (drawn newID (x.created+1))
    rw [drawn_succ, ← List.append_assoc, ids_append]
    exact h.live.append_right _
  · rcases List.mem_append.mp hs with hold | hlast
    · exact h.given s hold
    · exact Or.inr ⟨x.created, (List.mem_singleton.mp hlast).symm⟩

/-- The slots of a new pool have the first identifiers. -/
theorem fill_eq (newID : ℕ → Bytes) (n : ℕ) :
    fill newID n = { vector := (List.range n).map newID, created := n } := by
  induction n with
  | zero => rfl
  | succ n ih =>
    unfold fill
    rw [ih, List.range_succ, List.map_append]
    rfl

theorem kept_constructed (newID : ℕ → Bytes) : (constructed newID).Kept newID := by
  unfold constructed
  rw [fill_eq]
  refine ⟨?_, ?_, fun s hs => absurd hs List.not_mem_nil⟩
  · exact List.length_map .. |>.trans List.length_range
  · unfold live drawn
    rw [List.append_nil]

theorem Kept.step (h : x.Kept newID) {a : ProviderAction} (hstep : ProviderStep newID x a y) :
    y.Kept newID := by
  cases hstep with
  | lockRun => exact ⟨h.slots, h.live, h.given⟩
  | refill _ _ hok => exact h.refill hok
  | unlockRun => exact ⟨h.slots, h.live, h.given⟩
  | lockGetID => exact ⟨h.slots, h.live, h.given⟩
  | search _ _ hok => exact h.search hok
  | create => exact h.createForCaller

theorem Kept.run {as : List ProviderAction}
    (hrun : Run (ProviderStep newID) (constructed newID) as x) :
    x.Kept newID :=
  hrun.invariant (fun _ _ _ h hstep => h.step hstep) (kept_constructed newID)

/-! ### A whole pass of each loop -/

theorem readSlot_of_getElem? {i : ℕ} {s : Bytes} (h : x.vector[i]? = some s) :
    x.readSlot i = .ok s := by
  unfold readSlot
  rw [h]
  rfl

/-- The search passes the slots that are empty. -/
theorem run_skip (thread : ℕ) (hout : x.pc = .outside) {n : ℕ} (hn : n ≤ maxUniqueIds)
    (hempty : ∀ j < n, x.vector[j]? = some []) :
    Run (ProviderStep newID) x (List.replicate (n+1) (.getID thread))
      { x with pc := .getID thread n } := by
  induction n with
  | zero => exact Run.nil.snoc (.lockGetID hout)
  | succ n ih =>
    rw [List.replicate_succ']
    apply (ih (by omega) fun j hj => hempty j (by omega)).snoc
    apply ProviderStep.search rfl (by omega)
    have hread : { x with pc := .getID thread n }.readSlot n = .ok [] :=
      readSlot_of_getElem? (hempty n (by omega))
    unfold search
    rw [hread, ok_bind]
    rfl

/-- `GetID` with an identifier left in the pool. -/
theorem run_getID (thread : ℕ) (hout : x.pc = .outside) {n : ℕ} (hn : n < maxUniqueIds)
    (hempty : ∀ j < n, x.vector[j]? = some []) {s : Bytes} (hs : x.vector[n]? = some s)
    (hne : s ≠ []) : Run (ProviderStep newID) x (List.replicate (n+2) (.getID thread))
      { x with vector := x.vector.set n [], issued := x.issued ++ [s] } := by
  rw [List.replicate_succ']
  apply (run_skip thread hout hn.le hempty).snoc
  apply ProviderStep.search rfl hn
  have hlast := @search_of_full { x with pc := .getID thread n } thread _ _ hs hne
  rwa [← hout] at hlast

/-- `GetID` with an empty pool. -/
theorem run_getID_exhausted (thread : ℕ) (hout : x.pc = .outside)
    (hempty : ∀ j < maxUniqueIds, x.vector[j]? = some []) :
    Run (ProviderStep newID) x (List.replicate (maxUniqueIds+2) (.getID thread))
      { x with created := x.created+1, issued := x.issued ++ [newID x.created] } := by
  rw [List.replicate_succ']
  have hlast := (@run_skip newID _ thread hout _ le_rfl hempty).snoc
    (.create rfl (lt_irrefl _))
  unfold createForCaller createNewID at hlast
  dsimp only at hlast
  rwa [← hout] at hlast

/-- The pass of `Run` over an empty pool. -/
theorem run_refill (hout : x.pc = .outside) (hempty : x.vector = List.replicate maxUniqueIds [])
    {n : ℕ} (hn : n ≤ maxUniqueIds) : Run (ProviderStep newID) x (List.replicate (n+1) .run)
      { x with
        vector := (List.range n).map (fun i => newID (x.created+i)) ++
          List.replicate (maxUniqueIds-n) []
        created := x.created+n
        pc := .run n } := by
  induction n with
  | zero =>
    rw [List.range_zero, List.map_nil, List.nil_append, Nat.sub_zero, ← hempty]
    exact Run.nil.snoc (.lockRun hout)
  | succ n ih =>
    rw [List.replicate_succ']
    apply (ih (by omega)).snoc
    apply ProviderStep.refill rfl (by omega)
    obtain ⟨m, hm⟩ : ∃ m, maxUniqueIds-n = m+1 := ⟨maxUniqueIds-n-1, by omega⟩
    have hlen : ((List.range n).map fun i => newID (x.created+i)).length = n := by simp
    unfold refill
    rw [readSlot_of_getElem? (s := []), ok_bind, if_pos List.length_nil]
    · -- the first of the slots that are still empty
      unfold createNewID
      dsimp only
      rw [hm, List.replicate_succ, List.set_append_right _ _ hlen.le, hlen, Nat.sub_self,
        List.set_cons_zero, List.range_succ, List.map_append, List.append_assoc,
        show maxUniqueIds-(n+1) = m by omega]
      rfl
    · dsimp only
      rw [hm, List.getElem?_append_right hlen.le, hlen, Nat.sub_self]
      rfl

/-- What a pool holds after `n` calls of `GetID` without a pass of `Run` in between. -/
theorem run_issue (hne : ∀ i, newID i ≠ []) {n : ℕ} (hn : n ≤ maxUniqueIds) :
    ∃ as, Run (ProviderStep newID) (constructed newID) as
      { vector := List.replicate n [] ++ (List.range' n (maxUniqueIds-n)).map newID
        created := maxUniqueIds
        issued := (List.range n).map newID } := by
  induction n with
  | zero =>
    refine ⟨[], ?_⟩
    unfold constructed
    rw [fill_eq, List.range_eq_range']
    exact Run.nil
  | succ n ih =>
    obtain ⟨as, hrun⟩ := ih (by omega)
    obtain ⟨m, hm⟩ : ∃ m, maxUniqueIds-n = m+1 := ⟨maxUniqueIds-n-1, by omega⟩
    have hlen : (List.replicate n ([] : Bytes)).length = n := List.length_replicate
    refine ⟨as ++ List.replicate (n+2) (.getID n), hrun.trans ?_⟩
    · have hget := @run_getID newID
        { vector := List.replicate n [] ++ (List.range' n (maxUniqueIds-n)).map newID
          created := maxUniqueIds
          issued := (List.range n).map newID } n rfl n (by omega) ?_ (newID n) ?_ (hne n)
      · dsimp only at hget
        rw [hm, List.range'_succ, List.map_cons, List.set_append_right _ _ hlen.le, hlen,
          Nat.sub_self, List.set_cons_zero] at hget
        rw [hm, List.range'_succ, List.map_cons, List.range_succ, List.map_append,
          show List.replicate (n+1) ([] : Bytes) = _ from List.replicate_succ', List.append_assoc,
          show maxUniqueIds-(n+1) = m by omega]
        exact hget
      · intro j hj
        dsimp only
        rw [List.getElem?_append_left (by omega), List.getElem?_replicate, if_pos hj]
      · dsimp only
        rw [hm, List.getElem?_append_right hlen.le, hlen, Nat.sub_self]
        rfl

/-- The pool is emptied, `GetID` creates an identifier for its caller, `Run` fills the pool again
and one of the new identifiers is given away. -/
theorem run_refilled (hne : ∀ i, newID i ≠ []) : ∃ as x,
    Run (ProviderStep newID) (constructed newID) as x ∧ x.created = maxUniqueIds+1+maxUniqueIds ∧
      x.issued = (List.range (maxUniqueIds+2)).map newID := by
  obtain ⟨as, hrun⟩ := run_issue hne le_rfl
  rw [Nat.sub_self, List.range'_zero, List.map_nil, List.append_nil] at hrun
  have hexhausted := hrun.trans (run_getID_exhausted 1 rfl fun j hj => by
    rw [List.getElem?_replicate, if_pos hj])
  have hfilled := (hexhausted.trans (run_refill rfl rfl le_rfl)).snoc
    (.unlockRun rfl (lt_irrefl _))
  have hlast := hfilled.trans (run_getID (n := 0) (s := newID (maxUniqueIds+1)) 2 rfl (by decide)
    (fun j hj => absurd hj (Nat.not_lt_zero j)) ?_ (hne _))
  · refine ⟨_, _, hlast, rfl, ?_⟩
    rw [List.range_succ, List.range_succ, List.map_append, List.map_append]
    rfl
  · obtain ⟨k, hk⟩ : ∃ k, maxUniqueIds = k+1 := ⟨255, rfl⟩
    dsimp only
    rw [Nat.sub_self, List.replicate_zero, List.append_nil, List.getElem?_map,
      List.getElem?_range (by omega), Option.map_some, Nat.add_zero]

/-! ### No identifier twice -/

/-- Identifiers that are created once each are drawn once each. -/
theorem nodup_drawn (hnew : ∀ i j, newID i ≠ [] → newID i = newID j → i = j) (n : ℕ) :
    (drawn newID n).Nodup := by
  unfold drawn ids
  rw [List.filter_map]
  apply List.Nodup.map_on
  · intro i hi j _ heq
    rw [List.mem_filter, Function.comp_apply, decide_eq_true_iff] at hi
    exact hnew i j hi.2 heq
  · exact List.nodup_range.filter _

theorem ids_eq_self {l : List Bytes} (h : ∀ s ∈ l, s ≠ []) : ids l = l := by
  apply List.filter_eq_self.mpr
  intro s hs
  exact decide_eq_true (h s hs)

/-- In every interleaving of `Run` and calls of `GetID`, and however many identifiers the pool has
left, `GetID` returns no identifier twice; and an empty text only if `CreateNewID` returns one. -/
theorem getID_unique (newID : ℕ → Bytes)
    (hnew : ∀ i j, newID i ≠ [] → newID i = newID j → i = j) {as : List ProviderAction}
    (hrun : Run (ProviderStep newID) (constructed newID) as x) :
    (ids x.issued).Nodup ∧ ((∀ i, newID i ≠ []) → x.issued.Nodup) := by
  have hkept := Kept.run hrun
  have hlive : x.live.Nodup := hkept.live.nodup_iff.mpr (nodup_drawn hnew x.created)
  unfold live at hlive
  rw [ids_append] at hlive
  have hids : (ids x.issued).Nodup := (List.nodup_append.mp hlive).2.1
  refine ⟨hids, fun hne => ?_⟩
  have hself : ids x.issued = x.issued := by
    apply ids_eq_self
    intro s hs
    rcases hkept.given s hs with h | ⟨i, rfl⟩
    · exact h
    · exact hne i
  rwa [hself] at hids

/-- The run that empties the pool and fills it again. -/
theorem getID_unique_refilled : ∃ as x,
    Run (ProviderStep fun i => List.replicate (i+1) 97)
      (constructed fun i => List.replicate (i+1) 97) as x ∧ x.created = 513 ∧
      x.issued = (List.range 258).map (fun i => List.replicate (i+1) 97) ∧ x.issued.Nodup := by
  have hne (i : ℕ) : List.replicate (i+1) (97 : Byte) ≠ [] := List.cons_ne_nil _ _
  obtain ⟨as, x, hrun, hcreated, hissued⟩ := run_refilled hne
  refine ⟨as, x, hrun, hcreated, hissued, (getID_unique _ (fun i j _ h => ?_) hrun).2 hne⟩
  simpa using congrArg List.length h

end UniqueIDProvider

end MsgCourier
