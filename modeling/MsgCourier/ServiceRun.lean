import MsgCourier.Service

/-! The service entry of a routed message between the queue thread, which looks it up, and the
thread of the `MC` handler, which follows it and changes the registry. -/
namespace MsgCourier
open ListSearch CText Runs

/-! ### The two threads -/

/-- A broadcast that comes past the tests `OnProcess` makes before. -/
def Msg.isPresenceBroadcast (m : Msg) : Bool :=
  let command := cstr m.msgCommand
  !occursIn (bytes "POST") command && !occursIn (bytes ".FORWARD") command &&
    !occursIn (bytes "MCP/") command && !occursIn (bytes ".ERROR") command &&
    occursIn (bytes ".PRESENCE") command && occursIn (bytes ".BROADCAST") command

/-- The services a broadcast names. -/
def Msg.services (m : Msg) : List Bytes :=
  tokenizer (· = 32) (cstr (m.headerExtract.getValue (bytes "Services")))

/-- Where the thread of the `MC` handler is in a broadcast of a node: before a service, before it
unregisters one that it could not register, or before it tries again. -/
inductive McPc
  | idle
  | services (nodeKey : Bytes) (tcpSocketHandle : ℤ) (tokens : List Bytes)
  | unregister (nodeKey : Bytes) (tcpSocketHandle : ℤ) (token : Bytes)
  | again (nodeKey : Bytes) (tcpSocketHandle : ℤ) (token : Bytes)

/-- `looked` is the message the queue thread has looked up and not yet put in the job queue. -/
structure ServiceTraffic where
  service : Service := {}
  nodes : Nodes := fun _ => none
  looked : Option Msg := none
  jobs : List Msg := []
  mc : McPc := .idle

inductive ServiceAction
  | registerLocal (serviceName : Bytes)
  | route (m : Msg) (r : Router)
  | enqueue
  | follow (m : Msg)
  | process (m : Msg)
  | broadcast (m : Msg) (nodeKey : Bytes)
  | register
  | unregister (wrap : ℕ)

/-- Messages come to the queue thread without an entry, since a reset clears it. The handler may
take any of its jobs, since their order is by priority. -/
inductive ServiceStep : ServiceTraffic → ServiceAction → ServiceTraffic → Prop
  | registerLocal {s : ServiceTraffic} {serviceName : Bytes} {pNew : ℕ} :
      s.service.entries pNew = none →
      ServiceStep s (.registerLocal serviceName)
        { s with service := s.service.registerLocalService serviceName pNew }
  | route {s : ServiceTraffic} {m m' : Msg} {r : Router} {mc : ℕ} :
      s.looked = none → m.msgService = none → r.getCommandHandler (bytes "MC") = some mc →
      r.queryServiceFirst = s.service.queryServiceFirst →
      m.processInboundMessage r = .ok (.handler mc, m') →
      ServiceStep s (.route m r) { s with looked := some m' }
  | enqueue {s : ServiceTraffic} {m : Msg} :
      s.looked = some m → ServiceStep s .enqueue { s with looked := none, jobs := m :: s.jobs }
  | follow {s : ServiceTraffic} {m : Msg} {pService : ℕ} {before after : List Msg} :
      s.mc = .idle → s.jobs = before ++ m :: after → m.msgService = some pService →
      ServiceStep s (.follow m) { s with jobs := before ++ after }
  | process {s : ServiceTraffic} {m : Msg} {before after : List Msg} :
      s.mc = .idle → s.jobs = before ++ m :: after → m.msgService = none →
      ServiceStep s (.process m) { s with jobs := before ++ after }
  | broadcast {s : ServiceTraffic} {m : Msg} {nodeKey : Bytes} {garbage : ℤ}
      {before after : List Msg} :
      s.mc = .idle → s.jobs = before ++ m :: after → m.msgService = none →
      m.isPresenceBroadcast = true →
      ServiceStep s (.broadcast m nodeKey) { s with
        jobs := before ++ after
        nodes := updateNode s.nodes nodeKey garbage
        mc := .services nodeKey m.tcpSocketHandle m.services }
  | skip {s : ServiceTraffic} {k : Bytes} {fd : ℤ} {ts : List Bytes} :
      s.mc = .services k fd (bytes "MC" :: ts) →
      ServiceStep s .register { s with mc := .services k fd ts }
  | register {s : ServiceTraffic} {k t : Bytes} {fd : ℤ} {ts : List Bytes} {pNew wrap : ℕ}
      {b : Bool} {service : Service} {nodes : Nodes} :
      s.mc = .services k fd (t :: ts) → t ≠ bytes "MC" → s.service.entries pNew = none →
      s.service.registerRemoteService s.nodes k t fd pNew wrap = .ok (b, service, nodes) →
      ServiceStep s .register { s with
        service, nodes, mc := if b then .services k fd ts else .unregister k fd t }
  | unregister {s : ServiceTraffic} {k t : Bytes} {fd : ℤ} {wrap : ℕ} :
      s.mc = .unregister k fd t →
      ServiceStep s (.unregister wrap) { s with
        service := s.service.unregisterRemoteService k t wrap, mc := .again k fd t }
  | again {s : ServiceTraffic} {k t : Bytes} {fd : ℤ} {pNew wrap : ℕ}
      {b : Bool} {service : Service} {nodes : Nodes} :
      s.mc = .again k fd t → s.service.entries pNew = none →
      s.service.registerRemoteService s.nodes k t fd pNew wrap = .ok (b, service, nodes) →
      ServiceStep s .register { s with service, nodes, mc := .idle }
  | finish {s : ServiceTraffic} {k : Bytes} {fd : ℤ} :
      s.mc = .services k fd [] → ServiceStep s .register { s with mc := .idle }

/-! ### When the entry is alive -/

/-- What following the entry needs: it is in the registry, under the name the message asks for, and
its node exists. -/
def ServiceTraffic.Alive (s : ServiceTraffic) (m : Msg) (pService : ℕ) : Prop :=
  ∃ entry key tcpSocketHandle, s.service.entries pService = some entry ∧
    (entry.serviceName, pService) ∈ s.service.serviceMap ∧
    entry.serviceName = cstr m.msgCommand ∧ entry.pNode = some key ∧
    s.nodes key = some tcpSocketHandle

/-- The messages that carry an entry from the lookup to the handler. -/
def ServiceTraffic.carried (s : ServiceTraffic) : List Msg := s.looked.toList ++ s.jobs

/-- A message without a handler asks for no service whose first entry is a local one, and no entry
is unregistered that a message carries. -/
def ServiceAction.KeepsAlive (s : ServiceTraffic) : ServiceAction → Prop
  | .route m r => m.isReply = false →
    r.getCommandHandler (m.withoutNotify.handlerName r) = none →
    ∀ pService entry, s.service.queryServiceFirst (cstr m.msgCommand) = some pService →
      s.service.entries pService = some entry → entry.pNode ≠ none
  | .unregister wrap => ∀ nodeKey fd token, s.mc = .unregister nodeKey fd token →
    ∀ pService, s.service.doomed nodeKey token wrap = some pService →
      ∀ m ∈ s.carried, m.msgService ≠ some pService
  | .registerLocal _ | .enqueue | .follow _ | .process _ | .broadcast _ _ | .register => True

/-- The entries carried are alive, and the node of every remote entry exists. -/
structure ServiceInv (s : ServiceTraffic) : Prop where
  wellFormed : s.service.WellFormed
  nodes : ∀ a entry key, s.service.entries a = some entry → entry.pNode = some key →
    (s.nodes key).isSome
  alive : ∀ m ∈ s.carried, ∀ a, m.msgService = some a → s.Alive m a
  broadcasting : ∀ k fd,
    (∃ ts, s.mc = .services k fd ts) ∨ (∃ t, s.mc = .unregister k fd t ∨ s.mc = .again k fd t) →
    (s.nodes k).isSome

theorem ServiceInv.initial : ServiceInv {} where
  wellFormed := Service.WellFormed.empty
  nodes a entry key h := by cases h
  alive m hm := by cases hm
  broadcasting k fd h := by
    rcases h with ⟨ts, hts⟩ | ⟨t, ht | ht⟩
    · cases hts
    · cases ht
    · cases ht

/-- An entry stays alive as long as it stays in the registry; nodes only appear. -/
theorem ServiceTraffic.Alive.mono {s t : ServiceTraffic} {m : Msg} {a : ℕ} (h : s.Alive m a)
    (hentry : ∀ e, s.service.entries a = some e → t.service.entries a = some e)
    (hmap : ∀ name, (name, a) ∈ s.service.serviceMap → (name, a) ∈ t.service.serviceMap)
    (hnodes : ∀ key, (s.nodes key).isSome → (t.nodes key).isSome) : t.Alive m a := by
  obtain ⟨entry, key, fd, he, hin, hname, hnode, hfd⟩ := h
  obtain ⟨fd', hfd'⟩ := Option.isSome_iff_exists.mp (hnodes key (by rw [hfd]; rfl))
  exact ⟨entry, key, fd', hentry entry he, hmap _ hin, hname, hnode, hfd'⟩

namespace ServiceInv

variable {s t : ServiceTraffic} {m m' : Msg}

/-- A new entry, with the node it belongs to. -/
theorem inserted (hi : ServiceInv s) {pNew : ℕ} (hnew : s.service.entries pNew = none)
    (entry : ServiceEntry) {nodes : Nodes} {mc : McPc}
    (hnodes : ∀ key, (s.nodes key).isSome → (nodes key).isSome)
    (hentry : ∀ key, entry.pNode = some key → (nodes key).isSome)
    (hmc : ∀ k fd, (∃ ts, mc = .services k fd ts) ∨
      (∃ t, mc = .unregister k fd t ∨ mc = .again k fd t) → (s.nodes k).isSome) :
    ServiceInv { s with service := s.service.insert pNew entry, nodes, mc } where
  wellFormed := hi.wellFormed.insert hnew entry
  nodes a e key ha hkey := by
    change (s.service.insert pNew entry).entries a = some e at ha
    by_cases hap : a = pNew
    · rw [hap, Service.insert_entries_self, Option.some.injEq] at ha
      exact hentry key (ha ▸ hkey)
    · rw [Service.insert_entries_of_ne _ hap] at ha
      exact hnodes key (hi.nodes a e key ha hkey)
  alive m hm a ha := by
    refine (hi.alive m hm a ha).mono (fun e he => ?_) (fun n hn => ?_) hnodes
    · have hap : a ≠ pNew := by
        rintro rfl
        rw [hnew] at he
        cases he
      exact (Service.insert_entries_of_ne _ hap entry).trans he
    · exact (Service.mem_insert_iff _ _ _ _).mpr (Or.inr hn)
  broadcasting k fd h := hnodes k (hmc k fd h)

theorem registerLocal (hi : ServiceInv s) {serviceName : Bytes} {pNew : ℕ}
    (hnew : s.service.entries pNew = none) :
    ServiceInv { s with service := s.service.registerLocalService serviceName pNew } := by
  unfold Service.registerLocalService
  split_ifs with hlt
  · exact hi
  · exact hi.inserted hnew _ (fun _ h => h) nofun hi.broadcasting

theorem registered (hi : ServiceInv s) {k name : Bytes} {fd : ℤ} {pNew wrap : ℕ} {b : Bool}
    {service : Service} {nodes : Nodes} (hnew : s.service.entries pNew = none)
    (hok : s.service.registerRemoteService s.nodes k name fd pNew wrap = .ok (b, service, nodes))
    {mc : McPc} (hmc : ∀ k' fd', (∃ ts, mc = .services k' fd' ts) ∨
      (∃ t, mc = .unregister k' fd' t ∨ mc = .again k' fd' t) → (s.nodes k').isSome) :
    ServiceInv { s with service, nodes, mc } := by
  rcases Service.registerRemoteService_cases hok with ⟨_, rfl, rfl⟩ | ⟨_, rfl, rfl⟩
  · exact ⟨hi.wellFormed, hi.nodes, hi.alive, hmc⟩
  · obtain ⟨hself, hmono⟩ := isSome_update s.nodes k fd
    refine hi.inserted hnew _ hmono (fun key hkey => ?_) hmc
    rw [← Option.some.inj hkey]
    exact hself

/-- An unregistration frees no entry that is carried. -/
theorem unregistered (hi : ServiceInv s) {k name : Bytes} {wrap : ℕ} {mc : McPc}
    (hkeep : ∀ a, s.service.doomed k name wrap = some a → ∀ m ∈ s.carried, m.msgService ≠ some a)
    (hmc : ∀ k' fd', (∃ ts, mc = .services k' fd' ts) ∨
      (∃ t, mc = .unregister k' fd' t ∨ mc = .again k' fd' t) → (s.nodes k').isSome) :
    ServiceInv { s with service := s.service.unregisterRemoteService k name wrap, mc } := by
  rcases Service.unregisterRemoteService_cases s.service k name wrap with
    heq | ⟨j, e, hj, hdoomed, heq⟩
  · rw [heq]
    exact ⟨hi.wellFormed, hi.nodes, hi.alive, hmc⟩
  · rw [heq]
    refine ⟨hi.wellFormed.delete hj, fun a entry key ha hkey => ?_, fun m hm a ha => ?_, hmc⟩
    · change Function.update s.service.entries e.2 none a = some entry at ha
      by_cases hae : a = e.2
      · rw [hae, Function.update_self] at ha
        cases ha
      · rw [Function.update_of_ne hae] at ha
        exact hi.nodes a entry key ha hkey
    · have hne : a ≠ e.2 := by
        rintro rfl
        exact hkeep e.2 hdoomed m hm ha
      refine (hi.alive m hm a ha).mono (fun entry he => ?_) (fun n hn => ?_) fun _ h => h
      · exact (Function.update_of_ne hne _ _).trans he
      · exact (hi.wellFormed.mem_eraseIdx hj (n, a)).mpr ⟨hn, hne⟩

/-- A routed message gets the first entry of its service, which the condition makes a remote one. -/
theorem route (hi : ServiceInv s) {r : Router} {mc : ℕ} (hlooked : s.looked = none)
    (hm : m.msgService = none) (hquery : r.queryServiceFirst = s.service.queryServiceFirst)
    (hok : m.processInboundMessage r = .ok (.handler mc, m'))
    (hkeep : ServiceAction.KeepsAlive s (.route m r)) :
    ServiceInv { s with looked := some m' } where
  wellFormed := hi.wellFormed
  nodes := hi.nodes
  alive n hn a ha := by
    have hcarried : s.carried = s.jobs := by rw [ServiceTraffic.carried, hlooked]; rfl
    rcases List.mem_cons.mp hn with rfl | hn
    · obtain ⟨hreply, hhandler, hfirst, hcommand⟩ :=
        Msg.processInboundMessage_service hok hm ha
      rw [hquery] at hfirst
      have hin := Service.of_queryServiceFirst hfirst
      rw [cstr_eq_self (zero_notMem_cstr _)] at hin
      obtain ⟨entry, hentry, hname⟩ := hi.wellFormed.named _ hin
      obtain ⟨key, hkey⟩ := Option.ne_none_iff_exists'.mp
        (hkeep hreply hhandler a entry hfirst hentry)
      obtain ⟨fd, hfd⟩ := Option.isSome_iff_exists.mp (hi.nodes a entry key hentry hkey)
      refine ⟨entry, key, fd, hentry, ?_, ?_, hkey, hfd⟩
      · rw [hname]
        exact hin
      · rw [hname, hcommand]
    · have halive := hi.alive n (by rw [hcarried]; exact hn) a ha
      exact halive.mono (fun _ h => h) (fun _ h => h) fun _ h => h
  broadcasting := hi.broadcasting

/-- Messages may leave the jobs, and a message that carries no entry may join the carried ones. -/
theorem fewer (hi : ServiceInv s) {looked : Option Msg} {jobs : List Msg}
    (hsub : ∀ m ∈ looked.toList ++ jobs, m ∈ s.carried) :
    ServiceInv { s with looked, jobs } where
  wellFormed := hi.wellFormed
  nodes := hi.nodes
  alive m hm a ha :=
    (hi.alive m (hsub m hm) a ha).mono (fun _ h => h) (fun _ h => h) fun _ h => h
  broadcasting := hi.broadcasting

theorem taken {before after : List Msg} (hjobs : s.jobs = before ++ m :: after) :
    ∀ n ∈ s.looked.toList ++ (before ++ after), n ∈ s.carried := by
  intro n hn
  rw [ServiceTraffic.carried, hjobs]
  simp only [List.mem_append, List.mem_cons] at hn ⊢
  tauto

theorem broadcast (hi : ServiceInv s) {nodeKey : Bytes} {garbage fd : ℤ} {ts : List Bytes}
    {before after : List Msg} (hjobs : s.jobs = before ++ m :: after) :
    ServiceInv { s with
      jobs := before ++ after
      nodes := updateNode s.nodes nodeKey garbage
      mc := .services nodeKey fd ts } := by
  obtain ⟨hself, hmono⟩ := isSome_update s.nodes nodeKey ((s.nodes nodeKey).getD garbage)
  refine ⟨hi.wellFormed, fun a entry key ha hkey => hmono key (hi.nodes a entry key ha hkey),
    fun n hn a ha => ?_, fun k fd' h => ?_⟩
  · exact (hi.alive n (taken hjobs n hn) a ha).mono (fun _ h => h) (fun _ h => h) hmono
  · rcases h with ⟨ts', hts⟩ | ⟨t, ht | ht⟩
    · obtain ⟨rfl, _⟩ := McPc.services.inj hts
      exact hself
    · cases ht
    · cases ht

/-- The thread goes on with the same node, or is done. -/
theorem atMc (hi : ServiceInv s) {mc : McPc}
    (hmc : ∀ k fd, (∃ ts, mc = .services k fd ts) ∨
      (∃ t, mc = .unregister k fd t ∨ mc = .again k fd t) → (s.nodes k).isSome) :
    ServiceInv { s with mc } := ⟨hi.wellFormed, hi.nodes, hi.alive, hmc⟩

theorem idle (s : ServiceTraffic) (k : Bytes) (fd : ℤ)
    (h : (∃ ts, McPc.idle = .services k fd ts) ∨
      (∃ t, McPc.idle = .unregister k fd t ∨ McPc.idle = .again k fd t)) :
    (s.nodes k).isSome := by
  rcases h with ⟨_, h⟩ | ⟨_, h | h⟩ <;> cases h

/-- Every point of a broadcast is about the node of that broadcast. -/
theorem sameNode {k : Bytes} {fd : ℤ} (hk : (s.nodes k).isSome) {mc : McPc}
    (hmc : (∃ ts, mc = .services k fd ts) ∨ (∃ t, mc = .unregister k fd t ∨ mc = .again k fd t))
    (k' : Bytes) (fd' : ℤ) (h : (∃ ts, mc = .services k' fd' ts) ∨
      (∃ t, mc = .unregister k' fd' t ∨ mc = .again k' fd' t)) : (s.nodes k').isSome := by
  have hsame : k' = k := by
    rcases hmc with ⟨ts, rfl⟩ | ⟨t, rfl | rfl⟩ <;> rcases h with ⟨_, h⟩ | ⟨_, h | h⟩ <;> cases h <;>
      rfl
  rwa [hsame]

theorem step (hi : ServiceInv s) {a : ServiceAction} (hstep : ServiceStep s a t)
    (hkeep : a.KeepsAlive s) : ServiceInv t := by
  cases hstep with
  | registerLocal hnew => exact hi.registerLocal hnew
  | route hlooked hm _ hquery hok => exact hi.route hlooked hm hquery hok hkeep
  | enqueue hlooked =>
    refine hi.fewer fun n hn => ?_
    rw [ServiceTraffic.carried, hlooked]
    exact hn
  | follow _ hjobs _ => exact hi.fewer (taken hjobs)
  | process _ hjobs _ => exact hi.fewer (taken hjobs)
  | broadcast _ hjobs _ _ => exact hi.broadcast hjobs
  | skip hmc =>
    have hk := hi.broadcasting _ _ (Or.inl ⟨_, hmc⟩)
    exact hi.atMc (sameNode hk (Or.inl ⟨_, rfl⟩))
  | @register k t fd ts pNew wrap b service nodes hmc _ hnew hok =>
    have hk := hi.broadcasting _ _ (Or.inl ⟨_, hmc⟩)
    refine hi.registered hnew hok ?_
    cases b with
    | true => exact sameNode hk (Or.inl ⟨ts, rfl⟩)
    | false => exact sameNode hk (Or.inr ⟨t, Or.inl rfl⟩)
  | unregister hmc =>
    have hk := hi.broadcasting _ _ (Or.inr ⟨_, Or.inl hmc⟩)
    exact hi.unregistered (hkeep _ _ _ hmc) (sameNode hk (Or.inr ⟨_, Or.inr rfl⟩))
  | again hmc hnew hok => exact hi.registered hnew hok (idle s)
  | finish hmc => exact hi.atMc (idle s)

end ServiceInv

/-- In every run in which no message without a handler asks for a service with a local first entry,
and no entry is unregistered that a message carries, every entry the `MC` handler can follow is in
the registry, is the one of the service asked for, and has a node. -/
theorem followed_entries_alive {as : List ServiceAction} {s : ServiceTraffic}
    (hrun : Run (fun s a t => ServiceStep s a t ∧ a.KeepsAlive s) {} as s) {m : Msg} {pService : ℕ}
    (hm : m ∈ s.jobs) (hs : m.msgService = some pService) : s.Alive m pService := by
  have hi : ServiceInv s := hrun.invariant (fun _ _ _ hi hstep => hi.step hstep.1 hstep.2)
    ServiceInv.initial
  exact hi.alive m (List.mem_append_right _ hm) pService hs

/-- The factory of a node that has only the `MC` handler, which gets all commands up to a dot. -/
def mcRouter (service : Service) : Router where
  getCommandHandler c := if c.takeWhile (· ≠ 46) = bytes "MC" then some 0 else none
  search _ := []
  queryServiceFirst := service.queryServiceFirst

/-- A node with a chat service announces itself, and a message asks for that service. -/
def announcement : Msg :=
  { tcpSocketHandle := 5
    msgConnectionType := .ibTcp
    msgCommand := bytes "MC.PRESENCE.BROADCAST"
    headerExtract := { params := AList.insert (bytes "Services") (bytes "CHAT") ∅ } }

def chatRequest : Msg := { msgConnectionType := .ibTcp, msgCommand := bytes "CHAT" }

def localService : Service := ({} : Service).registerLocalService (bytes "MC") 0

def chatService : Service := localService.insert 1 ⟨cstr (bytes "CHAT"), some (bytes "N")⟩

def seenNodes : Nodes := updateNode (fun _ => none) (bytes "N") 0

def chatNodes : Nodes := Function.update seenNodes (bytes "N") (some 5)

set_option maxRecDepth 8000 in
theorem announcement_routed (service : Service) :
    announcement.processInboundMessage (mcRouter service) =
      .ok (.handler 0, announcement.withoutNotify) := rfl

theorem announcement_broadcast : announcement.withoutNotify.isPresenceBroadcast = true := by
  decide

theorem chat_ne_mc : bytes "CHAT" ≠ bytes "MC" := by decide

/-- The request carries the entry of the service. -/
def carriedRequest : Msg := chatRequest.withoutNotify.setRemoteHandler 1

theorem chatRequest_routed :
    chatRequest.processInboundMessage (mcRouter chatService) =
    .ok (.handler 0, carriedRequest) := by
  have hquery : (mcRouter chatService).queryServiceFirst
      (cstr chatRequest.withoutNotify.msgCommand) = some 1 := by decide
  have hhandler : (mcRouter chatService).getCommandHandler
      (chatRequest.withoutNotify.handlerName (mcRouter chatService)) = none := by decide
  rw [Msg.processInboundMessage, if_neg (by decide), hhandler]
  dsimp only
  rw [hquery]
  rfl

/-- The steps of a run that meets the condition. -/
abbrev KeepingStep (s : ServiceTraffic) (a : ServiceAction) (t : ServiceTraffic) : Prop :=
  ServiceStep s a t ∧ a.KeepsAlive s

/-- An announcement is routed, queued and taken by the handler. -/
theorem announced_run (service : Service) (nodes : Nodes) (jobs : List Msg) :
    Run KeepingStep { service, nodes, jobs }
      [.route announcement (mcRouter service), .enqueue,
        .broadcast announcement.withoutNotify (bytes "N")]
      { service, nodes := updateNode nodes (bytes "N") 0, jobs
        mc := .services (bytes "N") 5 [bytes "CHAT"] } := by
  have hroute : ServiceStep { service, nodes, jobs } (.route announcement (mcRouter service))
      { service, nodes, jobs, looked := some announcement.withoutNotify } :=
    .route rfl rfl rfl rfl (announcement_routed service)
  have hhandler : (mcRouter service).getCommandHandler
      (announcement.withoutNotify.handlerName (mcRouter service)) = some 0 := by
    change (if (cstr announcement.msgCommand).takeWhile (· ≠ 46) = bytes "MC" then some 0
      else none) = some 0
    decide
  have henqueue : ServiceStep
      { service, nodes, jobs, looked := some announcement.withoutNotify } .enqueue
      { service, nodes, jobs := announcement.withoutNotify :: jobs } := .enqueue rfl
  have hservices : announcement.withoutNotify.services = [bytes "CHAT"] := by decide
  have hjobs : announcement.withoutNotify :: jobs = [] ++ announcement.withoutNotify :: jobs := rfl
  have hbroadcast := @ServiceStep.broadcast
    { service, nodes, jobs := announcement.withoutNotify :: jobs } announcement.withoutNotify
    (bytes "N") 0 [] jobs rfl hjobs rfl announcement_broadcast
  rw [hservices] at hbroadcast
  refine ((Run.nil.snoc ⟨hroute, ?_⟩).snoc ⟨henqueue, trivial⟩).snoc ⟨hbroadcast, trivial⟩
  intro _ hnone
  rw [hhandler] at hnone
  cases hnone

/-- The node registers its service, and the request is queued. -/
theorem chat_run : ∃ as, Run KeepingStep {} as
    { service := chatService, nodes := chatNodes, jobs := [carriedRequest] } := by
  have hlocal : ServiceStep {} (.registerLocal (bytes "MC")) { service := localService } :=
    .registerLocal rfl
  have hannounced := announced_run localService (fun _ => none) []
  have hsearch : localService.search (bytes "N") (bytes "CHAT") 0 = none := by decide
  have hnode : seenNodes (bytes "N") = some 0 := by decide
  have hnew := Service.registerRemoteService_new hsearch hnode 5 1
  have hregister := ServiceStep.register
    (s := { service := localService, nodes := seenNodes
            mc := .services (bytes "N") 5 [bytes "CHAT"] }) rfl chat_ne_mc rfl hnew
  have hfinish : ServiceStep
      { service := chatService, nodes := chatNodes, mc := .services (bytes "N") 5 [] } .register
      { service := chatService, nodes := chatNodes } := .finish rfl
  have hroute : ServiceStep { service := chatService, nodes := chatNodes }
      (.route chatRequest (mcRouter chatService))
      { service := chatService, nodes := chatNodes, looked := some carriedRequest } :=
    .route rfl rfl rfl rfl chatRequest_routed
  have hremote : ServiceAction.KeepsAlive { service := chatService, nodes := chatNodes }
      (.route chatRequest (mcRouter chatService)) := by
    intro _ _ a entry hfirst hentry
    have hquery : chatService.queryServiceFirst (cstr chatRequest.msgCommand) = some 1 := by
      decide
    obtain rfl := Option.some.inj (hquery.symm.trans hfirst)
    have hchat : chatService.entries 1 = some ⟨cstr (bytes "CHAT"), some (bytes "N")⟩ := rfl
    rw [← Option.some.inj (hchat.symm.trans hentry)]
    nofun
  have henqueue : ServiceStep
      { service := chatService, nodes := chatNodes, looked := some carriedRequest } .enqueue
      { service := chatService, nodes := chatNodes, jobs := [carriedRequest] } := .enqueue rfl
  exact ⟨_, ((((((Run.nil.snoc ⟨hlocal, trivial⟩).trans hannounced).snoc
    ⟨hregister, trivial⟩).snoc ⟨hfinish, trivial⟩).snoc ⟨hroute, hremote⟩).snoc
    ⟨henqueue, trivial⟩)⟩

theorem followed_entries_alive_chat :
    ServiceTraffic.Alive { service := chatService, nodes := chatNodes, jobs := [carriedRequest] }
      carriedRequest 1 := by
  obtain ⟨as, hrun⟩ := chat_run
  exact followed_entries_alive hrun List.mem_cons_self rfl

/-- The registry when the node has announced itself once more: the old entry is deleted and the new
one is elsewhere. -/
def freedService : Service :=
  chatService.unregisterRemoteService (bytes "N") (bytes "CHAT") 0

def renewedService : Service := freedService.insert 2 ⟨cstr (bytes "CHAT"), some (bytes "N")⟩

def renewedNodes : Nodes := updateNode chatNodes (bytes "N") 0

/-- The second announcement is processed before the request, whose entry is then gone. -/
theorem followed_entry_freed : ∃ as s t, Run ServiceStep {} as s ∧
    ServiceStep s (.follow carriedRequest) t ∧ carriedRequest.msgService = some 1 ∧
    s.service.entries 1 = none ∧ ¬ s.Alive carriedRequest 1 := by
  obtain ⟨as, hrun⟩ := chat_run
  have hannounced := hrun.trans (announced_run chatService chatNodes [carriedRequest])
  have hfound : chatService.search (bytes "N") (bytes "CHAT") 0 = some 0 := by decide
  have hrefused : chatService.registerRemoteService renewedNodes (bytes "N") (bytes "CHAT") 5 2 0 =
      .ok (false, chatService, renewedNodes) := by
    rw [Service.registerRemoteService, hfound]
    rfl
  have hregister := ServiceStep.register
    (s := { service := chatService, nodes := renewedNodes, jobs := [carriedRequest]
            mc := .services (bytes "N") 5 [bytes "CHAT"] }) rfl chat_ne_mc rfl hrefused
  have hunregister : ServiceStep
      { service := chatService, nodes := renewedNodes, jobs := [carriedRequest]
        mc := .unregister (bytes "N") 5 (bytes "CHAT") } (.unregister 0)
      { service := freedService, nodes := renewedNodes, jobs := [carriedRequest]
        mc := .again (bytes "N") 5 (bytes "CHAT") } := .unregister rfl
  have hsearch : freedService.search (bytes "N") (bytes "CHAT") 0 = none := by decide
  have hnode : renewedNodes (bytes "N") = some 5 := by decide
  have hfree : freedService.entries 2 = none := by decide
  have hagain : ServiceStep
      { service := freedService, nodes := renewedNodes, jobs := [carriedRequest]
        mc := .again (bytes "N") 5 (bytes "CHAT") } .register
      { service := renewedService, jobs := [carriedRequest]
        nodes := Function.update renewedNodes (bytes "N") (some 5) } :=
    .again rfl hfree (Service.registerRemoteService_new hsearch hnode 5 2)
  have hjobs : [carriedRequest] = [] ++ carriedRequest :: [] := rfl
  have hgone : renewedService.entries 1 = none := by decide
  refine ⟨_, _, _, (((hannounced.mono fun _ _ _ h => h.1).snoc hregister).snoc hunregister).snoc
    hagain, .follow rfl hjobs rfl, rfl, hgone, ?_⟩
  intro halive
  obtain ⟨entry, key, fd, hentry, _⟩ := halive
  rw [hgone] at hentry
  cases hentry

end MsgCourier
