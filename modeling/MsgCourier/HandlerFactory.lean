import MsgCourier.Dispatch
import MsgCourier.Log
import Mathlib.Data.List.AList

/-! `cCommandHandlerFactory`: which handler a command is for, and where the queue thread sends a
message from outside. -/
namespace MsgCourier
open ListSearch CText

/-- A map of the commands. Handlers are known by their addresses. -/
structure CommandHandlerFactory where
  commandMap : AList fun _ : Bytes => ℕ := ∅

/-- The command without what follows its first dot. -/
def commandName (sName : Bytes) : Bytes :=
  match firstOcc [46] sName with
  | none => sName
  | some idx => sName.take idx

namespace CommandHandlerFactory

def getCommandHandler (x : CommandHandlerFactory) (pCommand : Bytes) : Option ℕ :=
  x.commandMap.lookup (cstr (commandName (cstr pCommand)))

/-- A command whose name has a handler is an error, which `LOGALL` throws. `map::insert` keeps an
entry that is there already. -/
def registerCommandHandler (x : CommandHandlerFactory) (log : Log) (pCommand : Bytes)
    (pHandler : ℕ) : Cxx CommandHandlerFactory :=
  if (x.getCommandHandler pCommand).isSome then
    log.logAll (bytes "Error, a command handler already exists for command: " ++ cstr pCommand)
  else do
    log.write (bytes "Registering command: [" ++ cstr pCommand ++ bytes "]")
    if (x.commandMap.lookup (cstr pCommand)).isSome then pure x
    else pure { commandMap := x.commandMap.insert (cstr pCommand) pHandler }

/-- The factory behind registrations that return. -/
def registered (log : Log) (regs : List (Bytes × ℕ)) : Cxx CommandHandlerFactory :=
  regs.foldlM (fun x reg => x.registerCommandHandler log reg.1 reg.2) {}

end CommandHandlerFactory

/-- The first handler that was registered for a name. -/
def firstHandler (regs : List (Bytes × ℕ)) (name : Bytes) : Option ℕ :=
  (regs.find? fun reg => cstr reg.1 = name).map Prod.snd

/-! ### Names in front of a dot -/

theorem dot_notMem_commandName (s : Bytes) : 46 ∉ commandName s := by
  unfold commandName
  cases h : firstOcc [46] s with
  | none =>
    intro hmem
    obtain ⟨l, r, rfl⟩ := List.append_of_mem hmem
    apply (firstOcc_eq_none_iff (List.cons_ne_nil 46 [])).mp h l.length
    rw [List.drop_left]
    exact ⟨r, rfl⟩
  | some idx => exact notMem_take_of_firstOcc h

theorem commandName_eq_self {s : Bytes} (h : 46 ∉ s) : commandName s = s := by
  rw [commandName, firstOcc_singleton_none h]

theorem cstr_commandName (s : Bytes) : cstr (commandName (cstr s)) = commandName (cstr s) := by
  refine cstr_eq_self fun h0 => zero_notMem_cstr s ?_
  unfold commandName at h0
  cases h : firstOcc [46] (cstr s) with
  | none => rwa [h] at h0
  | some idx =>
    rw [h] at h0
    exact List.mem_of_mem_take h0

theorem firstHandler_append (regs : List (Bytes × ℕ)) (reg : Bytes × ℕ) (name : Bytes) :
    firstHandler (regs ++ [reg]) name =
      (firstHandler regs name).or (if cstr reg.1 = name then some reg.2 else none) := by
  unfold firstHandler
  rw [List.find?_append]
  cases regs.find? fun reg => cstr reg.1 = name with
  | some r => rfl
  | none =>
    by_cases hname : cstr reg.1 = name
    · simp [hname]
    · simp [hname]

namespace CommandHandlerFactory

variable {x y : CommandHandlerFactory} {log : Log} {regs : List (Bytes × ℕ)}

/-- The name is free, and the log takes the line about the command. -/
def Registers (x : CommandHandlerFactory) (log : Log) (pCommand : Bytes) : Prop :=
  x.getCommandHandler pCommand = none ∧
    log.write (bytes "Registering command: [" ++ cstr pCommand ++ bytes "]") = .ok ()

theorem registerCommandHandler_eq_ok_iff {pCommand : Bytes} {pHandler : ℕ} :
    x.registerCommandHandler log pCommand pHandler = .ok y ↔ x.Registers log pCommand ∧
      y = if (x.commandMap.lookup (cstr pCommand)).isSome then x
        else { commandMap := x.commandMap.insert (cstr pCommand) pHandler } := by
  unfold registerCommandHandler Registers
  cases hold : x.getCommandHandler pCommand with
  | some h =>
    rw [if_pos (Option.isSome_some)]
    exact iff_of_false (log.logAll_ne_ok _ _) fun h => absurd h.1.1 (Option.some_ne_none _)
  | none =>
    rw [if_neg (by simp)]
    constructor
    · intro h
      obtain ⟨_, hwrite, h⟩ := bind_eq_ok.mp h
      refine ⟨⟨rfl, hwrite⟩, ?_⟩
      split_ifs at h ⊢ <;> exact (Except.ok.inj h).symm
    · rintro ⟨⟨-, hwrite⟩, rfl⟩
      rw [hwrite, ok_bind]
      split_ifs <;> rfl

theorem registered_append (reg : Bytes × ℕ) : registered log (regs ++ [reg]) = .ok y ↔
    ∃ x, registered log regs = .ok x ∧ x.registerCommandHandler log reg.1 reg.2 = .ok y := by
  unfold registered
  rw [List.foldlM_append, bind_eq_ok]
  simp only [List.foldlM_cons, List.foldlM_nil, bind_pure]

/-- A name without a dot belongs to the handler that asked for it; names with a dot are never looked
up. -/
theorem lookup_registered (h : registered log regs = .ok x) {name : Bytes} (hdot : 46 ∉ name) :
    x.commandMap.lookup name = firstHandler regs name := by
  induction regs using List.reverseRecOn generalizing x with
  | nil =>
    obtain rfl := Except.ok.inj h
    rfl
  | append_singleton regs reg ih =>
    obtain ⟨w, hw, hstep⟩ := (registered_append reg).mp h
    obtain ⟨⟨hfree, -⟩, rfl⟩ := registerCommandHandler_eq_ok_iff.mp hstep
    rw [firstHandler_append, ← ih hw]
    by_cases hname : cstr reg.1 = name
    · -- the name was free, or the call would not have returned
      have hnone : w.commandMap.lookup name = none := by
        rw [getCommandHandler, cstr_commandName, hname, commandName_eq_self hdot] at hfree
        exact hfree
      rw [hname, hnone, if_pos rfl, if_neg (by simp)]
      exact AList.lookup_insert _
    · rw [if_neg hname, Option.or_none]
      split_ifs
      · rfl
      · exact AList.lookup_insert_ne (Ne.symm hname)

/-- In every run of registrations, a command is for the handler of the name in front of its first
dot. -/
theorem getCommandHandler_registered (h : registered log regs = .ok x) (pCommand : Bytes) :
    x.getCommandHandler pCommand = firstHandler regs (commandName (cstr pCommand)) := by
  rw [getCommandHandler, cstr_commandName, lookup_registered h (dot_notMem_commandName _)]

/-- Registrations return if no name in front of a dot has a handler already. -/
theorem registered_iff (log : Log) (regs : List (Bytes × ℕ)) :
    (∃ x, registered log regs = .ok x) ↔ ∀ before reg behind, regs = before ++ reg :: behind →
      firstHandler before (commandName (cstr reg.1)) = none ∧
        log.write (bytes "Registering command: [" ++ cstr reg.1 ++ bytes "]") = .ok () := by
  induction regs using List.reverseRecOn with
  | nil => exact iff_of_true ⟨_, rfl⟩ fun before reg behind h => by simp at h
  | append_singleton regs reg ih =>
    constructor
    · rintro ⟨y, hy⟩ before r behind hsplit
      obtain ⟨x, hx, hstep⟩ := (registered_append reg).mp hy
      rcases List.eq_nil_or_concat' behind with rfl | ⟨behind, last, rfl⟩
      · obtain ⟨rfl, hlast⟩ := List.append_inj' hsplit rfl
        obtain rfl := (List.cons.inj hlast).1
        obtain ⟨⟨hfree, hwrite⟩, -⟩ := registerCommandHandler_eq_ok_iff.mp hstep
        rw [getCommandHandler_registered hx] at hfree
        exact ⟨hfree, hwrite⟩
      · have hinit : regs = before ++ r :: behind := by
          rw [← List.cons_append, ← List.append_assoc] at hsplit
          exact (List.append_inj' hsplit rfl).1
        exact ih.mp ⟨x, hx⟩ before r behind hinit
    · intro h
      obtain ⟨x, hx⟩ := ih.mpr fun before r behind hsplit => h before r (behind ++ [reg]) (by
        rw [hsplit, List.append_assoc, List.cons_append])
      obtain ⟨hfree, hwrite⟩ := h regs reg [] rfl
      rw [← getCommandHandler_registered hx] at hfree
      exact ⟨_, (registered_append reg).mpr
        ⟨x, hx, registerCommandHandler_eq_ok_iff.mpr ⟨⟨hfree, hwrite⟩, rfl⟩⟩⟩

end CommandHandlerFactory

/-! ### Messages from outside -/

/-- The router of a server with this factory. -/
def factoryRouter (x : CommandHandlerFactory) (search : Msg → Bytes)
    (queryServiceFirst : Bytes → Option ℕ) : Router where
  getCommandHandler := x.getCommandHandler
  search
  queryServiceFirst

/-- The handler that a message from outside is for: `MC` for a reply and for what nobody else
handles. -/
def Msg.inboundHandler (m : Msg) (regs : List (Bytes × ℕ)) (r : Router) : Option ℕ :=
  if m.isReply then firstHandler regs (bytes "MC")
  else (firstHandler regs (commandName (m.withoutNotify.handlerName r))).or
    (firstHandler regs (bytes "MC"))

section Routing

variable {log : Log} {regs : List (Bytes × ℕ)} {x : CommandHandlerFactory} {search : Msg → Bytes}
  {queryServiceFirst : Bytes → Option ℕ}

theorem factoryRouter_getCommandHandler (hrun : CommandHandlerFactory.registered log regs = .ok x)
    (pCommand : Bytes) : (factoryRouter x search queryServiceFirst).getCommandHandler pCommand =
      firstHandler regs (commandName (cstr pCommand)) :=
  CommandHandlerFactory.getCommandHandler_registered hrun pCommand

theorem sentToMC_registered (hrun : CommandHandlerFactory.registered log regs = .ok x) (m : Msg) :
    m.sentToMC (factoryRouter x search queryServiceFirst) =
      ((firstHandler regs (bytes "MC")).elim (.error .undefined) fun h => .ok (.handler h, m)) := by
  have hmc : (factoryRouter x search queryServiceFirst).getCommandHandler (bytes "MC") =
      firstHandler regs (bytes "MC") := factoryRouter_getCommandHandler hrun _
  unfold Msg.sentToMC
  rw [hmc]
  cases firstHandler regs (bytes "MC") <;> rfl

/-- A name of a handler is a C string. -/
theorem cstr_handlerName (m : Msg) (r : Router) : cstr (m.handlerName r) = m.handlerName r := by
  have hcstr (s : Bytes) : cstr (cstr s) = cstr s := cstr_eq_self (zero_notMem_cstr s)
  unfold Msg.handlerName
  split_ifs
  · exact hcstr _
  · exact hcstr _

variable (search queryServiceFirst) in
/-- The queue thread hands a message to the handler it is for, or dereferences a null pointer. -/
theorem processInboundMessage_registered
    (hrun : CommandHandlerFactory.registered log regs = .ok x) (m : Msg) :
    (∀ h, m.inboundHandler regs (factoryRouter x search queryServiceFirst) = some h →
      ∃ m', m.processInboundMessage (factoryRouter x search queryServiceFirst) =
        .ok (.handler h, m')) ∧
    (m.inboundHandler regs (factoryRouter x search queryServiceFirst) = none →
      m.processInboundMessage (factoryRouter x search queryServiceFirst) =
        .error .undefined) := by
  have hsent {n : Msg} : (∀ h, firstHandler regs (bytes "MC") = some h → ∃ m',
        n.sentToMC (factoryRouter x search queryServiceFirst) = .ok (.handler h, m')) ∧
      (firstHandler regs (bytes "MC") = none →
        n.sentToMC (factoryRouter x search queryServiceFirst) = .error .undefined) := by
    rw [sentToMC_registered hrun]
    constructor
    · intro h hmc
      rw [hmc]
      exact ⟨n, rfl⟩
    · intro hmc
      rw [hmc]
      rfl
  have hname : (factoryRouter x search queryServiceFirst).getCommandHandler
      (m.withoutNotify.handlerName (factoryRouter x search queryServiceFirst)) =
        firstHandler regs (commandName
          (m.withoutNotify.handlerName (factoryRouter x search queryServiceFirst))) := by
    rw [factoryRouter_getCommandHandler hrun, cstr_handlerName]
  unfold Msg.inboundHandler Msg.processInboundMessage
  dsimp only
  by_cases hreply : m.isReply
  · rw [if_pos hreply, if_pos (show m.withoutNotify.isReply = true from hreply)]
    exact hsent
  · rw [if_neg hreply, if_neg (show ¬ m.withoutNotify.isReply = true from hreply), hname]
    cases hfirst : firstHandler regs (commandName
        (m.withoutNotify.handlerName (factoryRouter x search queryServiceFirst))) with
    | some h' =>
      refine ⟨fun h hh => ?_, fun hh => by cases hh⟩
      cases hh
      exact ⟨_, rfl⟩
    | none =>
      rw [Option.none_or]
      dsimp only
      split
      · exact hsent
      · exact hsent

theorem firstHandler_eq_none_iff {name : Bytes} :
    firstHandler regs name = none ↔ ¬ ∃ reg ∈ regs, cstr reg.1 = name := by
  rw [firstHandler, Option.map_eq_none_iff, List.find?_eq_none]
  simp

theorem processInboundMessage_handler_iff
    (hrun : CommandHandlerFactory.registered log regs = .ok x) (m : Msg) (h : ℕ) :
    (∃ m', m.processInboundMessage (factoryRouter x search queryServiceFirst) =
      .ok (.handler h, m')) ↔
    m.inboundHandler regs (factoryRouter x search queryServiceFirst) = some h := by
  obtain ⟨hsome, hnone⟩ := processInboundMessage_registered search queryServiceFirst hrun m
  refine ⟨?_, hsome h⟩
  rintro ⟨m', hok⟩
  cases htarget : m.inboundHandler regs (factoryRouter x search queryServiceFirst) with
  | none =>
    rw [hnone htarget] at hok
    cases hok
  | some h' =>
    obtain ⟨m'', hok'⟩ := hsome h' htarget
    rw [hok'] at hok
    cases hok
    rfl

/-- With a handler of `MC` there is one for every message. -/
theorem exists_inboundHandler (hmc : ∃ reg ∈ regs, cstr reg.1 = bytes "MC") (m : Msg) (r : Router) :
    ∃ h, m.inboundHandler regs r = some h := by
  have hne : firstHandler regs (bytes "MC") ≠ none :=
    mt firstHandler_eq_none_iff.mp (not_not.mpr hmc)
  obtain ⟨h, hh⟩ := Option.ne_none_iff_exists'.mp hne
  unfold Msg.inboundHandler
  split_ifs
  · exact ⟨h, hh⟩
  · rw [hh]
    cases firstHandler regs (commandName (m.withoutNotify.handlerName r)) with
    | none => exact ⟨h, rfl⟩
    | some h' => exact ⟨h', rfl⟩

theorem processInboundMessage_safe_iff
    (hrun : CommandHandlerFactory.registered log regs = .ok x) :
    (∀ m : Msg, m.processInboundMessage (factoryRouter x search queryServiceFirst) ≠
      .error .undefined) ↔ ∃ reg ∈ regs, cstr reg.1 = bytes "MC" := by
  constructor
  · intro hsafe
    by_contra hmc
    have hreply : ({ msgCommand := bytes "MCP/1.0" } : Msg).isReply = true := by decide
    obtain ⟨-, hnone⟩ := processInboundMessage_registered search queryServiceFirst hrun
      { msgCommand := bytes "MCP/1.0" }
    refine hsafe _ (hnone ?_)
    rw [Msg.inboundHandler, if_pos hreply, firstHandler_eq_none_iff.mpr hmc]
  · intro hmc m herror
    obtain ⟨hsome, -⟩ := processInboundMessage_registered search queryServiceFirst hrun m
    obtain ⟨h, htarget⟩ :=
      exists_inboundHandler hmc m (factoryRouter x search queryServiceFirst)
    obtain ⟨m', hok⟩ := hsome h htarget
    rw [hok] at herror
    cases herror

/-- Registrations return if the names are free. Then a message from outside goes to the handler that
was registered for its name, or else to the one of `MC`, and the queue thread is safe from all
messages exactly if there is one of `MC`. -/
theorem inbound_routed (log : Log) (regs : List (Bytes × ℕ)) (search : Msg → Bytes)
    (queryServiceFirst : Bytes → Option ℕ) :
    ((∃ x, CommandHandlerFactory.registered log regs = .ok x) ↔
      ∀ before reg behind, regs = before ++ reg :: behind →
        firstHandler before (commandName (cstr reg.1)) = none ∧
          log.write (bytes "Registering command: [" ++ cstr reg.1 ++ bytes "]") = .ok ()) ∧
    ∀ x, CommandHandlerFactory.registered log regs = .ok x →
      (∀ (m : Msg) (h : ℕ),
        (∃ m', m.processInboundMessage (factoryRouter x search queryServiceFirst) =
          .ok (.handler h, m')) ↔
        m.inboundHandler regs (factoryRouter x search queryServiceFirst) = some h) ∧
      ((∀ m : Msg, m.processInboundMessage (factoryRouter x search queryServiceFirst) ≠
          .error .undefined) ↔ ∃ reg ∈ regs, cstr reg.1 = bytes "MC") := by
  refine ⟨CommandHandlerFactory.registered_iff log regs, fun x hrun => ⟨?_, ?_⟩⟩
  · exact processInboundMessage_handler_iff hrun
  · exact processInboundMessage_safe_iff hrun

/-- The five commands of a start, with a reply and a message that names a handler in front of its
dot. -/
theorem inbound_routed_startup : ∃ x,
    CommandHandlerFactory.registered {} [(bytes "MC", 1), (bytes "MCWS", 2), (bytes "TSZSCRAPER", 3),
      (bytes "DWNLDM", 4), (bytes "AUTOUPDATE", 5)] = .ok x ∧
    (∃ m', ({ msgCommand := bytes "MCP/1.0" } : Msg).processInboundMessage
      (factoryRouter x (fun _ => []) fun _ => none) = .ok (.handler 1, m')) ∧
    ∃ m', ({ msgCommand := bytes "DWNLDM.GET" } : Msg).processInboundMessage
      (factoryRouter x (fun _ => []) fun _ => none) = .ok (.handler 4, m') := by
  refine ⟨_, rfl, ?_⟩
  have hrouted := ((inbound_routed {} [(bytes "MC", 1), (bytes "MCWS", 2), (bytes "TSZSCRAPER", 3),
    (bytes "DWNLDM", 4), (bytes "AUTOUPDATE", 5)] (fun _ => []) fun _ => none).2 _ rfl).1
  exact ⟨(hrouted _ 1).mpr (by decide), (hrouted _ 4).mpr (by decide)⟩

end Routing

end MsgCourier
