import MsgCourier.Runs
import Mathlib.Tactic.Common

/-! The hand-shake of the web server with the thread of a `cWebRequestHandler`, in the steps of
`cThread`. -/
namespace MsgCourier
open Runs

/-- Where the handler's thread is: not created, before the test of `m_bSuspended`, between the test
and the wait, blocked in the wait, before `Process`, before `Suspend`, or before it clears
`m_bConnected`. -/
inductive WorkerPc
  | unborn
  | test
  | beforeWait
  | waiting
  | process
  | suspend
  | disconnect
  deriving DecidableEq, Repr

/-- Where the web server is: outside, before and inside `Setup`, before `Start`, and before the two
statements of `Resume`. -/
inductive ServerPc
  | idle
  | setup (pMessage : ℕ)
  | store (pMessage : ℕ)
  | start
  | resume
  | signal
  deriving DecidableEq, Repr

/-- `setups` has the messages of the calls of `Setup`, and `processed` those of the calls of
`Process`, in order. -/
structure HandShake where
  bSuspended : Bool := true
  bConnected : Bool := false
  newThread : Bool := true
  pIMsg : Option ℕ := none
  worker : WorkerPc := .unborn
  server : ServerPc := .idle
  setups : List ℕ := []
  processed : List ℕ := []

inductive HandAction
  | onProcess (pMessage : ℕ)
  | server
  | worker
  | spurious

/-- The two threads in any order. A signal wakes the thread when it is blocked in the wait, and is
lost otherwise; the wait may also end without one. -/
inductive HandStep : HandShake → HandAction → HandShake → Prop
  | onProcess {s : HandShake} {pMessage : ℕ} :
      s.server = .idle → s.newThread = true ∨ s.bConnected = false →
      HandStep s (.onProcess pMessage) { s with server := .setup pMessage }
  | busy {s : HandShake} {pMessage : ℕ} :
      s.server = .idle → s.newThread = false → s.bConnected = true →
      HandStep s (.onProcess pMessage) s
  | setup {s : HandShake} {pMessage : ℕ} :
      s.server = .setup pMessage →
      HandStep s .server { s with bConnected := true, server := .store pMessage }
  | store {s : HandShake} {pMessage : ℕ} :
      s.server = .store pMessage →
      HandStep s .server
        { s with pIMsg := some pMessage, setups := s.setups ++ [pMessage], server := .start }
  | create {s : HandShake} :
      s.server = .start → s.newThread = true →
      HandStep s .server { s with newThread := false, worker := .test, server := .resume }
  | reuse {s : HandShake} :
      s.server = .start → s.newThread = false → HandStep s .server { s with server := .resume }
  | resume {s : HandShake} :
      s.server = .resume → HandStep s .server { s with bSuspended := false, server := .signal }
  | signal {s : HandShake} :
      s.server = .signal →
      HandStep s .server
        { s with
          worker := if s.worker = .waiting then .process else s.worker
          server := .idle }
  | test {s : HandShake} :
      s.worker = .test →
      HandStep s .worker { s with worker := if s.bSuspended then .beforeWait else .process }
  | wait {s : HandShake} :
      s.worker = .beforeWait → HandStep s .worker { s with worker := .waiting }
  | spurious {s : HandShake} :
      s.worker = .waiting → HandStep s .spurious { s with worker := .process }
  | process {s : HandShake} {pMessage : ℕ} :
      s.worker = .process → s.pIMsg = some pMessage →
      HandStep s .worker { s with processed := s.processed ++ [pMessage], worker := .suspend }
  | suspend {s : HandShake} :
      s.worker = .suspend → HandStep s .worker { s with bSuspended := true, worker := .disconnect }
  | disconnect {s : HandShake} :
      s.worker = .disconnect → HandStep s .worker { s with bConnected := false, worker := .test }

/-- The wait does not end while the handler is suspended, and the signal does not fall between the
test and the wait when the flag was cleared there. -/
def HandAction.InTime (s : HandShake) : HandAction → Prop
  | .server => s.server = .signal →
    ¬ (s.worker = .waiting ∧ s.bSuspended = true) ∧
    ¬ (s.worker = .beforeWait ∧ s.bSuspended = false)
  | .spurious => s.bSuspended = false
  | .onProcess _ | .worker => True

abbrev InTimeStep (s : HandShake) (a : HandAction) (t : HandShake) : Prop :=
  HandStep s a t ∧ a.InTime s

namespace HandShake

variable {s t : HandShake}

/-- The thread is not created yet, or on its way into the wait. -/
def Resting (s : HandShake) : Prop :=
  (s.newThread = true ∧ s.worker = .unborn) ∨
    (s.newThread = false ∧ (s.worker = .test ∨ s.worker = .beforeWait ∨ s.worker = .waiting))

/-- The last message that was set up is still to be processed. -/
def Awaiting (s : HandShake) : Prop := ∃ m, s.pIMsg = some m ∧ s.setups = s.processed ++ [m]

/-- What the flags, the thread and the requests are, by where the web server is. -/
inductive Phase (s : HandShake) : Prop
  | free : s.server = .idle ∨ (∃ m, s.server = .setup m) ∨ s.server = .signal →
      s.bSuspended = true → s.bConnected = false → s.Resting → s.processed = s.setups → Phase s
  | connected (m : ℕ) : s.server = .store m →
      s.bSuspended = true → s.bConnected = true → s.Resting → s.processed = s.setups → Phase s
  | ready : s.server = .start ∨ s.server = .resume ∧ s.newThread = false →
      s.bSuspended = true → s.bConnected = true → s.Resting → s.Awaiting → Phase s
  | raised : s.server = .signal → s.newThread = false → s.bSuspended = false →
      s.bConnected = true →
      s.worker = .test ∨ s.worker = .beforeWait ∨ s.worker = .waiting ∨ s.worker = .process →
      s.Awaiting → Phase s
  | taken : s.server = .idle → s.newThread = false → s.bConnected = true →
      s.worker = .test ∧ s.bSuspended = false ∨ s.worker = .process → s.Awaiting → Phase s
  | finishing : s.server = .idle ∨ s.server = .signal → s.newThread = false →
      s.bConnected = true →
      s.worker = .suspend ∨ s.worker = .disconnect ∧ s.bSuspended = true →
      s.processed = s.setups → Phase s

theorem Resting.test (h : s.Resting) (hworker : s.worker = .test) (hs : s.bSuspended = true) :
    Resting { s with worker := if s.bSuspended then .beforeWait else .process } := by
  rcases h with ⟨-, hw⟩ | ⟨hnew, -⟩
  · cases hworker.symm.trans hw
  · exact Or.inr ⟨hnew, Or.inr (Or.inl (if_pos hs))⟩

theorem Resting.wait (h : s.Resting) (hworker : s.worker = .beforeWait) :
    Resting { s with worker := .waiting } := by
  rcases h with ⟨-, hw⟩ | ⟨hnew, -⟩
  · cases hworker.symm.trans hw
  · exact Or.inr ⟨hnew, Or.inr (Or.inr rfl)⟩

/-- What the thread processes is what was set up. -/
theorem Awaiting.processed (h : s.Awaiting) {m : ℕ} (hm : s.pIMsg = some m) :
    s.processed ++ [m] = s.setups := by
  obtain ⟨m', hm', hsetups⟩ := h
  obtain rfl := Option.some_inj.mp (hm.symm.trans hm')
  exact hsetups.symm

theorem Phase.initial : Phase {} := .free (Or.inl rfl) rfl rfl (Or.inl ⟨rfl, rfl⟩) rfl

theorem Phase.step (h : s.Phase) {a : HandAction} (hstep : InTimeStep s a t) : t.Phase := by
  obtain ⟨hstep, htime⟩ := hstep
  cases hstep with
  | onProcess hserver hfree =>
    cases h with
    | free _ hs hc hr hp => exact .free (Or.inr (Or.inl ⟨_, rfl⟩)) hs hc hr hp
    | _ => grind
  | busy => exact h
  | setup hserver =>
    cases h with
    | free _ hs _ hr hp => exact .connected _ rfl hs rfl hr hp
    | _ => grind
  | store hserver =>
    cases h with
    | connected m _ hs hc hr hp => exact .ready (Or.inl rfl) hs hc hr ⟨_, rfl, by rw [hp]⟩
    | _ => grind
  | create hserver hnew =>
    cases h with
    | ready _ hs hc hr ha => exact .ready (Or.inr ⟨rfl, rfl⟩) hs hc (Or.inr ⟨rfl, Or.inl rfl⟩) ha
    | _ => grind
  | reuse hserver hnew =>
    cases h with
    | ready _ hs hc hr ha => exact .ready (Or.inr ⟨rfl, hnew⟩) hs hc hr ha
    | _ => grind
  | resume hserver =>
    cases h with
    | ready hs _ hc hr ha =>
      have hnew : s.newThread = false := by grind
      have hw : s.worker = .test ∨ s.worker = .beforeWait ∨ s.worker = .waiting := by
        grind [Resting]
      exact .raised rfl hnew rfl hc (by grind) ha
    | _ => grind
  | signal hserver =>
    obtain ⟨hwoken, hlost⟩ := htime hserver
    cases h with
    | free _ hs hc hr hp =>
      -- The thread tested the flag before this request was raised, and is not woken again.
      have hsame : (if s.worker = .waiting then WorkerPc.process else s.worker) = s.worker :=
        if_neg fun hw => hwoken ⟨hw, hs⟩
      exact .free (Or.inl rfl) hs hc (hsame.symm ▸ hr) hp
    | raised _ hnew hs hc hw ha =>
      refine .taken rfl hnew hc ?_ ha
      dsimp only
      split_ifs with hwait
      · exact Or.inr rfl
      · grind
    | finishing _ hnew hc hw hp =>
      refine .finishing (Or.inl rfl) hnew hc ?_ hp
      dsimp only
      rwa [if_neg (by grind)]
    | _ => grind
  | test hworker =>
    cases h with
    | free hserver hs hc hr hp => exact .free hserver hs hc (hr.test hworker hs) hp
    | connected m hserver hs hc hr hp => exact .connected m hserver hs hc (hr.test hworker hs) hp
    | ready hserver hs hc hr ha => exact .ready hserver hs hc (hr.test hworker hs) ha
    | raised hserver hnew hs hc _ ha =>
      refine .raised hserver hnew hs hc (Or.inr (Or.inr (Or.inr ?_))) ha
      exact if_neg (by rw [hs]; exact Bool.false_ne_true)
    | taken hserver hnew hc hw ha =>
      have hs : s.bSuspended = false := by grind
      refine .taken hserver hnew hc (Or.inr ?_) ha
      exact if_neg (by rw [hs]; exact Bool.false_ne_true)
    | finishing => grind
  | wait hworker =>
    cases h with
    | free hserver hs hc hr hp => exact .free hserver hs hc (hr.wait hworker) hp
    | connected m hserver hs hc hr hp => exact .connected m hserver hs hc (hr.wait hworker) hp
    | ready hserver hs hc hr ha => exact .ready hserver hs hc (hr.wait hworker) ha
    | raised hserver hnew hs hc _ ha =>
      exact .raised hserver hnew hs hc (Or.inr (Or.inr (Or.inl rfl))) ha
    | _ => grind
  | spurious hworker =>
    have hs : s.bSuspended = false := htime
    cases h with
    | raised hserver hnew _ hc _ ha =>
      exact .raised hserver hnew hs hc (Or.inr (Or.inr (Or.inr rfl))) ha
    | _ => grind
  | process hworker hmsg =>
    cases h with
    | raised hserver hnew _ hc _ ha =>
      exact .finishing (Or.inr hserver) hnew hc (Or.inl rfl) (ha.processed hmsg)
    | taken hserver hnew hc _ ha =>
      exact .finishing (Or.inl hserver) hnew hc (Or.inl rfl) (ha.processed hmsg)
    | _ => grind [Resting]
  | suspend hworker =>
    cases h with
    | finishing hserver hnew hc _ hp => exact .finishing hserver hnew hc (Or.inr ⟨rfl, rfl⟩) hp
    | _ => grind [Resting]
  | disconnect hworker =>
    cases h with
    | finishing hserver hnew _ hw hp =>
      have hs : s.bSuspended = true := by grind
      refine .free ?_ hs rfl (Or.inr ⟨hnew, Or.inl rfl⟩) hp
      exact hserver.imp_right Or.inr
    | _ => grind [Resting]

/-- A worker blocked beside a request although its flag is cleared, with no signal to come. -/
def Stuck (s : HandShake) : Prop :=
  s.worker = .waiting ∧ s.bSuspended = false ∧ s.server ≠ .signal ∧ s.setups ≠ []

/-- Every request but the one under way was processed once, in order, and the one under way by a
thread that is not stuck: its next steps process it. -/
structure Served (s : HandShake) : Prop where
  once : s.processed = s.setups ∨ s.bConnected = true ∧ s.Awaiting
  awake : ¬ s.Stuck
  next : s.server = .idle → ∃ as t, Run HandStep s as t ∧ (∀ a ∈ as, a = .worker) ∧
    t.setups = s.setups ∧ t.processed = t.setups

/-- In every run whose signals and wake-ups are in time, each request is processed exactly once, and
the thread never waits beside a request. -/
theorem served_of_inTime {as : List HandAction} (hrun : Run InTimeStep {} as s) : s.Served := by
  have h : s.Phase := hrun.invariant (fun _ _ _ h hstep => h.step hstep) .initial
  cases h with
  | free _ hs _ _ hp =>
    exact ⟨Or.inl hp, fun hstuck => by grind [Stuck], fun _ => ⟨[], s, .nil, nofun, rfl, hp⟩⟩
  | connected _ _ hs _ _ hp =>
    exact ⟨Or.inl hp, fun hstuck => by grind [Stuck], fun _ => ⟨[], s, .nil, nofun, rfl, hp⟩⟩
  | ready _ hs hc _ ha => exact ⟨Or.inr ⟨hc, ha⟩, fun hstuck => by grind [Stuck], by grind⟩
  | raised _ _ _ hc _ ha => exact ⟨Or.inr ⟨hc, ha⟩, fun hstuck => by grind [Stuck], by grind⟩
  | finishing _ _ _ _ hp =>
    exact ⟨Or.inl hp, fun hstuck => by grind [Stuck], fun _ => ⟨[], s, .nil, nofun, rfl, hp⟩⟩
  | taken _ _ hc hw ha =>
    refine ⟨Or.inr ⟨hc, ha⟩, fun hstuck => by grind [Stuck], fun _ => ?_⟩
    obtain ⟨m, hmsg, hsetups⟩ := ha
    rcases hw with ⟨hw, hs⟩ | hw
    · have htest := Run.nil.snoc (HandStep.test hw)
      have hprocess : (if s.bSuspended then WorkerPc.beforeWait else .process) = .process :=
        if_neg (by rw [hs]; exact Bool.false_ne_true)
      exact ⟨_, _, htest.snoc (.process hprocess hmsg), by simp, rfl, hsetups.symm⟩
    · exact ⟨_, _, Run.nil.snoc (.process hw hmsg), by simp, rfl, hsetups.symm⟩

/-! ### Three orders of the steps -/

/-- The thread is created for a message and blocks before it is resumed. -/
theorem served_of_inTime_first : ∃ as s, Run InTimeStep {} as s ∧ s.setups = [7] ∧
    s.processed = [7] ∧ s.Served := by
  have hcreated : Run InTimeStep {} [.onProcess 7, .server, .server, .server]
      { bConnected := true, newThread := false, pIMsg := some 7, worker := .test,
        server := .resume, setups := [7] } :=
    (((Run.nil.snoc ⟨.onProcess rfl (Or.inl rfl), trivial⟩).snoc ⟨.setup rfl, nofun⟩).snoc
      ⟨.store rfl, nofun⟩).snoc ⟨.create rfl rfl, nofun⟩
  have hwoken := ((((hcreated.snoc ⟨.test rfl, trivial⟩).snoc ⟨.wait rfl, trivial⟩).snoc
    ⟨.resume rfl, nofun⟩).snoc ⟨.signal rfl, fun _ => ⟨by decide, by decide⟩⟩).snoc
    ⟨.process rfl rfl, trivial⟩
  exact ⟨_, _, hwoken, rfl, rfl, served_of_inTime hwoken⟩

/-- The thread has tested the flag when it is cleared, and blocks behind the signal; or it has
processed its message when the signal comes, and processes it again. -/
theorem hand_shake_fails : (∃ as s, Run HandStep {} as s ∧ s.Stuck) ∧
    ∃ as s, Run HandStep {} as s ∧ s.setups = [7] ∧ s.processed = [7, 7] := by
  have hcreated : Run HandStep {} [.onProcess 7, .server, .server, .server]
      { bConnected := true, newThread := false, pIMsg := some 7, worker := .test,
        server := .resume, setups := [7] } :=
    (((Run.nil.snoc (.onProcess rfl (Or.inl rfl))).snoc (.setup rfl)).snoc (.store rfl)).snoc
      (.create rfl rfl)
  constructor
  · have hlost := (((hcreated.snoc (.test rfl)).snoc (.resume rfl)).snoc (.signal rfl)).snoc
      (.wait rfl)
    exact ⟨_, _, hlost, rfl, rfl, nofun, List.cons_ne_nil _ _⟩
  · have hdone := ((((hcreated.snoc (.resume rfl)).snoc (.test rfl)).snoc
      (.process rfl rfl)).snoc (.suspend rfl)).snoc (.disconnect rfl)
    have hlate := (((hdone.snoc (.test rfl)).snoc (.wait rfl)).snoc (.signal rfl)).snoc
      (.process rfl rfl)
    exact ⟨_, _, hlate, rfl, rfl⟩

end HandShake

end MsgCourier
