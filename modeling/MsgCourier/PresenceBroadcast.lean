import MsgCourier.PeerList
import MsgCourier.ServiceRun

/-! The answer to `PRESENCE.BROADCAST`: the loop over the services that a node announces. -/
namespace MsgCourier
open ListSearch CText Runs

/-- `new` returns an address at which nothing lives. -/
structure Allocator where
  fresh : List ℕ → ℕ
  fresh_notMem : ∀ live, fresh live ∉ live

/-- The addresses of `cCore`. -/
structure Interfaces where
  serverPrimaryAddr : Bytes
  serverSecondaryAddr : Bytes

namespace ServiceState

def register (s : ServiceState) (new : Allocator) (pNodeKey pServiceName : Bytes)
    (tcpSocketHandle : ℤ) : Cxx (Bool × ServiceState) := do
  let (b, table, nodes) ← s.table.registerRemoteService s.nodes pNodeKey pServiceName
    tcpSocketHandle (new.fresh (s.service.serviceMap.map Prod.snd))
  pure (b, ⟨table, nodes⟩)

def unregister (s : ServiceState) (pNodeKey pServiceName : Bytes) : Cxx ServiceState := do
  let table ← s.table.unregisterRemoteService pNodeKey pServiceName
  pure { s with table }

/-- The loop over the services: `bRegistered`, the response codes of the replies it dispatches and
the registry. It ends at the first service that cannot be registered at once. -/
def registerServices (new : Allocator) (sNodeKey : Bytes) (tcpSocketHandle : ℤ) :
    List Bytes → ServiceState → Bool → Cxx (Bool × List ℤ × ServiceState)
  | [], s, bRegistered => pure (bRegistered, [], s)
  | token :: tokens, s, bRegistered =>
    if token ≠ bytes "MC" then do
      let (bRegistered, s) ← s.register new sNodeKey token tcpSocketHandle
      if bRegistered then registerServices new sNodeKey tcpSocketHandle tokens s bRegistered
      else
        let s ← s.unregister sNodeKey token
        let (bRegistered, s) ← s.register new sNodeKey token tcpSocketHandle
        pure (bRegistered, if bRegistered then [] else [500], s)
    else registerServices new sNodeKey tcpSocketHandle tokens s bRegistered

end ServiceState

/-- The machine name a node gives, and whether it is another machine. -/
def Msg.machineName (m : Msg) : Bytes := (cstr m.msgFrom).takeWhile (· ≠ 64)

def Msg.isRemote (m : Msg) (i : Interfaces) : Bool :=
  !occursIn i.serverPrimaryAddr (cstr m.msgFrom) && !occursIn i.serverSecondaryAddr (cstr m.msgFrom)

/-- What a broadcast says about the node it comes from. -/
def Msg.nodeUpdate (m : Msg) (garbage : ℤ) : NodeUpdate where
  ipAddress := m.sourceIP
  machineName := m.machineName
  macAddress := cstr (m.headerExtract.getValue (bytes "HWAddr"))
  services := cstr (m.headerExtract.getValue (bytes "Services"))
  status := .active
  garbage := garbage

/-- The key of that node. -/
def Msg.nodeKey (m : Msg) : Bytes :=
  buildKey m.sourceIP m.machineName (cstr (m.headerExtract.getValue (bytes "HWAddr")))

/-- The line that is logged if the node is new. -/
def Msg.nodeLine (m : Msg) : Bytes := (m.nodeUpdate 0).logLine

/-- What a broadcast leaves: the response codes of the replies, the registry and the nodes. -/
structure BroadcastOutcome where
  replies : List ℤ
  services : ServiceState
  presence : Presence

/-- The branch of `OnProcess` for a broadcast. -/
def PeerRegistry.presenceBroadcast (s : PeerRegistry) (log : Log) (i : Interfaces) (new : Allocator)
    (m : Msg) (garbage : ℤ) : Cxx BroadcastOutcome :=
  if m.isRemote i then do
    let (sNodeKey, presence) ← s.presence.updateNode log (m.nodeUpdate garbage)
    let (bRegistered, replies, t) ← ServiceState.registerServices new sNodeKey m.tcpSocketHandle
      m.services ⟨s.table, presence.sockets⟩ false
    pure ⟨replies ++ if bRegistered then [200] else [], t, presence.withSockets t.nodes⟩
  else pure ⟨[], ⟨s.table, s.presence.sockets⟩, s.presence⟩

/-! ### What a broadcast is for -/

/-- The services that a broadcast announces. -/
def Msg.announced (m : Msg) : List Bytes := m.services.filter (· ≠ bytes "MC")

/-- Every announced service is registered for the node once, with the socket of the message, and
there is one reply if there was one. -/
structure BroadcastOutcome.Refreshed (o : BroadcastOutcome) (m : Msg) : Prop where
  once : ∀ name ∈ m.announced, o.services.pairs.count (name, some m.nodeKey) = 1
  socket : ∀ name ∈ m.announced,
    (o.presence m.nodeKey).map NodeEntry.tcpSocketHandle = some m.tcpSocketHandle
  reply : m.announced ≠ [] → o.replies = [200] ∨ o.replies = [500]

namespace ServiceState

/-- A service that a node is registered for. -/
def Has (s : ServiceState) (k name : Bytes) : Prop := (name, some k) ∈ s.pairs

/-- Services that can be added one behind the other: keys of the map, each larger than all that the
node has. -/
structure Appends (s : ServiceState) (k : Bytes) (added : List Bytes) : Prop where
  ascending : added.Pairwise (· < ·)
  hasKey : ∀ name ∈ added, s.service.HasKey name
  larger : ∀ name ∈ added, ∀ old, s.Has k old → old < name

/-- A service `name` that takes the place of `old`: the only service that the node has from `name`
on when `added` are added. Either it is `name` itself, which stays a key of the map, or it is not
among the services `kept`. -/
structure Replaces (s : ServiceState) (k : Bytes) (added kept : List Bytes) (name old : Bytes) :
    Prop where
  hasKey : s.service.HasKey name
  only : ∀ other, (s.Has k other ∨ other ∈ added) ∧ ¬ other < name ↔ other = old
  spare : (old = name ∧ ∃ p ∈ s.pairs, p.1 = name ∧ p.2 ≠ some k) ∨ (old ≠ name ∧ old ∉ kept)

/-- After the services `kept`, the services are new ones in order, then at most one that replaces
another, and then only services that the node has by then. -/
def Refreshable (s : ServiceState) (k : Bytes) (kept names : List Bytes) : Prop :=
  ∃ added rest, names = added ++ rest ∧ s.Appends k added ∧
    ∀ name more, rest = name :: more → (∃ old, s.Replaces k added (kept ++ names) name old) ∧
      ∀ other ∈ more, other = name ∨ s.Has k other ∨ other ∈ added

/-! ### One registration -/

variable {s t : ServiceState} {new : Allocator} {k name other : Bytes} {fd : ℤ}

theorem Inv.fresh (hi : s.Inv) (new : Allocator) :
    s.service.entries (new.fresh (s.service.serviceMap.map Prod.snd)) = none := by
  by_contra hlive
  exact new.fresh_notMem _ (hi.owned _ hlive)

theorem register_absent (hkey : ¬ s.service.HasKey (cstr name)) :
    s.register new k name fd = .error .undefined := by
  rw [register, ServiceTable.registerRemoteService_absent hkey, error_bind]

theorem register_found (new : Allocator) (fd : ℤ) (hi : s.Inv) (hkey : s.service.HasKey (cstr name))
    (hnode : (s.nodes k).isSome) (hfound : s.service.Found k (cstr name)) :
    ∃ i, s.register new k name fd = .ok (false, { s with table := s.table.moveTo i }) := by
  rcases ServiceTable.registerRemoteService_cases fd
    (new.fresh (s.service.serviceMap.map Prod.snd)) hi.ordered hkey hnode with
    ⟨-, i, heq⟩ | ⟨hnot, -⟩
  · refine ⟨i, ?_⟩
    rw [register, heq]
    rfl
  · exact absurd hfound hnot

/-- A registration that comes through adds the pair and gives the node the socket. -/
structure Added (s t : ServiceState) (k name : Bytes) (fd : ℤ) : Prop where
  inv : t.Inv
  perm : t.pairs.Perm ((name, some k) :: s.pairs)
  socket : t.nodes k = some fd

theorem register_new (new : Allocator) (fd : ℤ) (hi : s.Inv) (hkey : s.service.HasKey (cstr name))
    (hnode : (s.nodes k).isSome) (hnot : ¬ s.service.Found k (cstr name)) :
    ∃ t, s.register new k name fd = .ok (true, t) ∧ Added s t k (cstr name) fd := by
  have hfresh := hi.fresh new
  rcases ServiceTable.registerRemoteService_cases fd
    (new.fresh (s.service.serviceMap.map Prod.snd)) hi.ordered hkey hnode with
    ⟨hfound, -⟩ | ⟨-, it, heq⟩
  · exact absurd hfound hnot
  · have hok : s.register new k name fd = .ok (true,
        ⟨⟨s.service.insert (new.fresh (s.service.serviceMap.map Prod.snd)) ⟨cstr name, some k⟩, it⟩,
          Function.update s.nodes k (some fd)⟩) := by
      rw [register, heq]
      rfl
    exact ⟨_, hok, hi.change (change_of_registerRemote hi hfresh hnode heq),
      Service.pairs_insert hi.ordered.toWellFormed hfresh _, Function.update_self _ _ _⟩

/-- An unregistration that finds an entry takes it away, and the socket of the node stays. -/
structure Removed (s t : ServiceState) (k old : Bytes) : Prop where
  inv : t.Inv
  perm : s.pairs.Perm ((old, some k) :: t.pairs)
  nodes : t.nodes = s.nodes

theorem unregister_found (hi : s.Inv) (hkey : s.service.HasKey (cstr name))
    (hfound : s.service.Found k (cstr name)) :
    ∃ t old, s.unregister k name = .ok t ∧ Removed s t k old ∧ ¬ old < cstr name ∧
      (s.Has k (cstr name) → old = cstr name) := by
  rcases ServiceTable.unregisterRemoteService_cases (k := k) hi.ordered hkey with
    ⟨hnot, -⟩ | ⟨-, j, e, it, hj, hof, hle, hname, heq⟩
  · exact absurd hfound hnot
  · have hpair : s.pairs[j]? = some (e.1, some k) := Service.pairs_getElem? hj hof
    obtain ⟨hlt, hget⟩ := List.getElem?_eq_some_iff.mp hpair
    have hok : s.unregister k name = .ok { s with table :=
        ⟨⟨s.service.serviceMap.eraseIdx j, Function.update s.service.entries e.2 none⟩, it⟩ } := by
      rw [unregister, heq]
      rfl
    have hcons := List.getElem_cons_eraseIdx_perm hlt
    rw [hget] at hcons
    have hpairs := Service.pairs_delete hi.ordered.toWellFormed hj
    refine ⟨_, e.1, hok, ⟨hi.change (change_of_unregisterRemote hi heq), ?_, rfl⟩, hle, hname⟩
    exact hcons.symm.trans (List.Perm.of_eq (congrArg _ hpairs.symm))

theorem found_iff_has : s.service.Found k name ↔ ∃ old, s.Has k old ∧ ¬ old < name := by
  constructor
  · rintro ⟨⟨old, o⟩, hp, hle, rfl⟩
    exact ⟨old, hp, hle⟩
  · rintro ⟨old, hold, hle⟩
    exact ⟨_, hold, hle, rfl⟩

namespace Added

variable (h : Added s t k name fd)

include h

theorem mem_iff (p : Bytes × Option Bytes) : p ∈ t.pairs ↔ p = (name, some k) ∨ p ∈ s.pairs := by
  rw [h.perm.mem_iff, List.mem_cons]

theorem has_iff (other : Bytes) : t.Has k other ↔ other = name ∨ s.Has k other := by
  rw [Has, h.mem_iff, Prod.mk.injEq]
  simp [Has]

/-- A key that is there already goes on being the only one of its name. -/
theorem hasKey_iff (hkey : s.service.HasKey name) (other : Bytes) :
    t.service.HasKey other ↔ s.service.HasKey other := by
  constructor
  · rintro ⟨p, hp, rfl⟩
    rcases (h.mem_iff p).mp hp with rfl | hold
    · exact hkey
    · exact ⟨p, hold, rfl⟩
  · rintro ⟨p, hp, rfl⟩
    exact ⟨p, (h.mem_iff p).mpr (Or.inr hp), rfl⟩

theorem spare_iff (other : Bytes) :
    (∃ p ∈ t.pairs, p.1 = other ∧ p.2 ≠ some k) ↔ ∃ p ∈ s.pairs, p.1 = other ∧ p.2 ≠ some k := by
  constructor
  · rintro ⟨p, hp, hname, hne⟩
    rcases (h.mem_iff p).mp hp with rfl | hold
    · exact absurd rfl hne
    · exact ⟨p, hold, hname, hne⟩
  · rintro ⟨p, hp, hname, hne⟩
    exact ⟨p, (h.mem_iff p).mpr (Or.inr hp), hname, hne⟩

end Added

namespace Removed

variable {old : Bytes} (h : Removed s t k old)

include h

theorem mem_iff (hi : s.Inv) (p : Bytes × Option Bytes) :
    p ∈ t.pairs ↔ p ∈ s.pairs ∧ p ≠ (old, some k) := by
  obtain ⟨hnot, -⟩ := List.nodup_cons.mp (h.perm.nodup_iff.mp hi.nodup)
  rw [h.perm.mem_iff, List.mem_cons]
  constructor
  · intro hp
    exact ⟨Or.inr hp, fun heq => hnot (heq ▸ hp)⟩
  · rintro ⟨heq | hp, hne⟩
    · exact absurd heq hne
    · exact hp

theorem has_iff (hi : s.Inv) (other : Bytes) : t.Has k other ↔ s.Has k other ∧ other ≠ old := by
  rw [Has, h.mem_iff hi, Ne, Prod.mk.injEq]
  simp [Has]

/-- A key stays one unless its only entry goes. -/
theorem hasKey_iff (hi : s.Inv) (hkey : s.service.HasKey name) :
    t.service.HasKey name ↔ (old = name → ∃ p ∈ s.pairs, p.1 = name ∧ p.2 ≠ some k) := by
  constructor
  · rintro ⟨p, hp, hname⟩ heq
    obtain ⟨hold, hne⟩ := (h.mem_iff hi p).mp hp
    exact ⟨p, hold, hname, fun hk => hne (Prod.ext (hname.trans heq.symm) hk)⟩
  · intro hspare
    by_cases heq : old = name
    · obtain ⟨p, hp, hname, hne⟩ := hspare heq
      refine ⟨p, (h.mem_iff hi p).mpr ⟨hp, ?_⟩, hname⟩
      exact fun h => hne (congrArg Prod.snd h)
    · obtain ⟨p, hp, hname⟩ := hkey
      refine ⟨p, (h.mem_iff hi p).mpr ⟨hp, ?_⟩, hname⟩
      exact fun h => heq ((congrArg Prod.fst h).symm.trans hname)

end Removed

/-! ### The loop -/

/-- What the loop has to leave: the node has all services, and there is one reply to come. -/
structure Outcome (k : Bytes) (fd : ℤ) (names : List Bytes) (r : Bool × List ℤ × ServiceState) :
    Prop where
  inv : r.2.2.Inv
  has : ∀ name ∈ names, r.2.2.Has k name
  reply : names ≠ [] → r.2.2.nodes k = some fd ∧
    (r.1 = true ∧ r.2.1 = [] ∨ r.1 = false ∧ r.2.1 = [500])

/-- The end of the loop: the service is unregistered and registered again. -/
def renew (s : ServiceState) (new : Allocator) (k name : Bytes) (fd : ℤ) :
    Cxx (Bool × List ℤ × ServiceState) := do
  let s ← s.unregister k name
  let (bRegistered, s) ← s.register new k name fd
  pure (bRegistered, if bRegistered then [] else [500], s)

theorem Replaces.old_eq {added kept : List Bytes} {old old' : Bytes}
    (h : s.Replaces k added kept name old) (hold : s.Has k old') (hle : ¬ old' < name) :
    old' = old := (h.only old').mp ⟨Or.inl hold, hle⟩

/-- The end of the loop, by what the node has when it begins. -/
theorem renew_iff (hi : s.Inv) (hplain : cstr name = name) (hnode : (s.nodes k).isSome)
    (hkey : s.service.HasKey name) (hfound : s.service.Found k name) {kept more : List Bytes}
    (hkept : ∀ other ∈ kept, s.Has k other) :
    (∃ r, s.renew new k name fd = .ok r ∧ Outcome k fd (kept ++ name :: more) r) ↔
      (∃ old, s.Replaces k [] (kept ++ name :: more) name old) ∧
        ∀ other ∈ more, other = name ∨ s.Has k other := by
  obtain ⟨t, old, hun, hrem, hle, hname⟩ :=
    unregister_found hi (hplain.symm ▸ hkey) (hplain.symm ▸ hfound)
  rw [hplain] at hle hname
  have hold : s.Has k old := hrem.perm.mem_iff.mpr List.mem_cons_self
  have hhas := hrem.has_iff hi
  by_cases hkey' : t.service.HasKey name
  · have hnode' : (t.nodes k).isSome := hrem.nodes ▸ hnode
    by_cases hfound' : t.service.Found k name
    · -- the node has a second service behind, and the registration fails again
      obtain ⟨i, hreg⟩ := register_found new fd hrem.inv
        (hplain.symm ▸ hkey') hnode' (hplain.symm ▸ hfound')
      obtain ⟨other, hother, hle'⟩ := found_iff_has.mp hfound'
      obtain ⟨hother, hne⟩ := (hhas other).mp hother
      refine iff_of_false ?_ ?_
      · rintro ⟨r, hok, hout⟩
        rw [renew, hun, ok_bind, hreg] at hok
        obtain rfl := Except.ok.inj hok
        have hin : t.Has k name := hout.has name (by simp)
        obtain ⟨hin, hne⟩ := (hhas name).mp hin
        exact hne (hname hin).symm
      · rintro ⟨⟨old', hrep⟩, -⟩
        exact hne ((hrep.old_eq hother hle').trans (hrep.old_eq hold hle).symm)
    · obtain ⟨u, hreg, hadd⟩ := register_new new fd hrem.inv
        (hplain.symm ▸ hkey') hnode' (hplain.symm ▸ hfound')
      rw [hplain] at hadd
      have hrenew : s.renew new k name fd = .ok (true, [], u) := by
        rw [renew, hun, ok_bind, hreg]
        rfl
      have hlast (other : Bytes) : u.Has k other ↔ other = name ∨ s.Has k other ∧ other ≠ old := by
        rw [hadd.has_iff, hhas]
      constructor
      · rintro ⟨r, hok, hout⟩
        obtain rfl := Except.ok.inj (hrenew.symm.trans hok)
        refine ⟨⟨old, hkey, fun other => ⟨fun ⟨hin, hle'⟩ => ?_, ?_⟩, ?_⟩, fun other hin => ?_⟩
        · by_contra hne
          have hin := hin.resolve_right List.not_mem_nil
          exact hfound' (found_iff_has.mpr ⟨other, (hhas other).mpr ⟨hin, hne⟩, hle'⟩)
        · rintro rfl
          exact ⟨Or.inl hold, hle⟩
        · by_cases heq : old = name
          · exact Or.inl ⟨heq, (hrem.hasKey_iff hi hkey).mp hkey' heq⟩
          · refine Or.inr ⟨heq, fun hin => ?_⟩
            exact ((hlast old).mp (hout.has old hin)).elim heq fun h => h.2 rfl
        · have hin : other ∈ kept ++ name :: more := by simp [hin]
          exact ((hlast other).mp (hout.has other hin)).imp_right And.left
      · rintro ⟨⟨old', hrep⟩, hmore⟩
        obtain rfl := hrep.old_eq hold hle
        refine ⟨_, hrenew, hadd.inv, fun other hin => (hlast other).mpr ?_,
          fun _ => ⟨hadd.socket, Or.inl ⟨rfl, rfl⟩⟩⟩
        have hcases : other = name ∨ s.Has k other := by
          rcases List.mem_append.mp hin with hin | hin
          · exact Or.inr (hkept other hin)
          · rcases List.mem_cons.mp hin with heq | hin
            · exact Or.inl heq
            · exact hmore other hin
        -- the service that goes is the one itself, or none of those to keep
        by_cases heq : other = name
        · exact Or.inl heq
        · refine Or.inr ⟨hcases.resolve_left heq, fun hgone => ?_⟩
          rcases hrep.spare with ⟨hself, -⟩ | ⟨-, hnot⟩
          · exact heq (hgone.trans hself)
          · exact hnot (hgone ▸ hin)
  · refine iff_of_false ?_ ?_
    · rintro ⟨r, hok, -⟩
      rw [renew, hun, ok_bind, register_absent (hplain.symm ▸ hkey'), error_bind] at hok
      cases hok
    · rintro ⟨⟨old', hrep⟩, -⟩
      obtain rfl := hrep.old_eq hold hle
      apply hkey'
      rw [hrem.hasKey_iff hi hkey]
      intro heq
      rcases hrep.spare with ⟨-, hspare⟩ | ⟨hne, -⟩
      · exact hspare
      · exact absurd heq hne

section Refreshable

variable {kept names : List Bytes}

/-- The first service is added or replaces another. -/
theorem Refreshable.cases (h : s.Refreshable k kept (name :: names)) :
    (∃ added rest, names = added ++ rest ∧ s.Appends k (name :: added) ∧
      ∀ next more, rest = next :: more →
        (∃ old, s.Replaces k (name :: added) (kept ++ name :: names) next old) ∧
          ∀ other ∈ more, other = next ∨ s.Has k other ∨ other ∈ name :: added) ∨
    ((∃ old, s.Replaces k [] (kept ++ name :: names) name old) ∧
      ∀ other ∈ names, other = name ∨ s.Has k other) := by
  obtain ⟨added, rest, hsplit, happ, htail⟩ := h
  cases added with
  | nil =>
    obtain ⟨hrep, hmore⟩ := htail name names hsplit.symm
    refine Or.inr ⟨hrep, fun other hin => ?_⟩
    exact (hmore other hin).imp_right fun h => h.resolve_right List.not_mem_nil
  | cons first added =>
    obtain ⟨rfl, rfl⟩ := List.cons_eq_cons.mp hsplit
    exact Or.inl ⟨added, rest, rfl, happ, htail⟩

theorem Refreshable.hasKey (h : s.Refreshable k kept (name :: names)) :
    s.service.HasKey name := by
  rcases h.cases with ⟨added, rest, -, happ, -⟩ | ⟨⟨old, hrep⟩, -⟩
  · exact happ.hasKey name List.mem_cons_self
  · exact hrep.hasKey

theorem refreshable_found (hfound : s.service.Found k name) :
    s.Refreshable k kept (name :: names) ↔
      (∃ old, s.Replaces k [] (kept ++ name :: names) name old) ∧
        ∀ other ∈ names, other = name ∨ s.Has k other := by
  constructor
  · intro h
    rcases h.cases with ⟨added, rest, -, happ, -⟩ | h
    · obtain ⟨old, hold, hle⟩ := found_iff_has.mp hfound
      exact absurd (happ.larger name List.mem_cons_self old hold) hle
    · exact h
  · intro ⟨hrep, hmore⟩
    refine ⟨[], name :: names, rfl, ⟨List.Pairwise.nil, by simp, by simp⟩, ?_⟩
    rintro next more heq
    obtain ⟨rfl, rfl⟩ := List.cons_eq_cons.mp heq
    exact ⟨hrep, fun other hin => (hmore other hin).imp_right Or.inl⟩

/-- What replaces a service later does so as well before the first one was added. -/
theorem Added.replaces_iff (h : Added s t k name fd) (hkey : s.service.HasKey name)
    {added : List Bytes} {next old : Bytes} :
    t.Replaces k added (kept ++ [name] ++ names) next old ↔
      s.Replaces k (name :: added) (kept ++ name :: names) next old := by
  have hin (other : Bytes) : (t.Has k other ∨ other ∈ added) ↔
      (s.Has k other ∨ other ∈ name :: added) := by
    rw [h.has_iff, List.mem_cons]
    tauto
  have hlist : kept ++ [name] ++ names = kept ++ name :: names := by simp
  constructor
  · rintro ⟨hk, honly, hspare⟩
    refine ⟨(h.hasKey_iff hkey next).mp hk, fun other => ?_, ?_⟩
    · rw [← hin, honly]
    · rwa [h.spare_iff, hlist] at hspare
  · rintro ⟨hk, honly, hspare⟩
    refine ⟨(h.hasKey_iff hkey next).mpr hk, fun other => ?_, ?_⟩
    · rw [hin, honly]
    · rwa [h.spare_iff, hlist]

theorem Added.appends_iff (h : Added s t k name fd) (hkey : s.service.HasKey name)
    (hnot : ¬ s.service.Found k name) {added : List Bytes} :
    t.Appends k added ↔ s.Appends k (name :: added) := by
  have hlarger (old : Bytes) (hold : s.Has k old) : old < name := by
    by_contra hle
    exact hnot (found_iff_has.mpr ⟨old, hold, hle⟩)
  constructor
  · rintro ⟨hasc, hk, hlt⟩
    refine ⟨List.pairwise_cons.mpr ⟨fun other hin => ?_, hasc⟩, ?_, ?_⟩
    · exact hlt other hin name ((h.has_iff name).mpr (Or.inl rfl))
    · refine List.forall_mem_cons.mpr ⟨hkey, fun other hin => ?_⟩
      exact (h.hasKey_iff hkey other).mp (hk other hin)
    · refine List.forall_mem_cons.mpr ⟨hlarger, fun other hin old hold => ?_⟩
      exact hlt other hin old ((h.has_iff old).mpr (Or.inr hold))
  · rintro ⟨hasc, hk, hlt⟩
    obtain ⟨hfirst, hasc⟩ := List.pairwise_cons.mp hasc
    refine ⟨hasc, fun other hin => ?_, fun other hin old hold => ?_⟩
    · exact (h.hasKey_iff hkey other).mpr (hk other (List.mem_cons_of_mem _ hin))
    · rcases (h.has_iff old).mp hold with rfl | hold
      · exact hfirst other hin
      · exact hlt other (List.mem_cons_of_mem _ hin) old hold

theorem Added.refreshable_iff (h : Added s t k name fd) (hkey : s.service.HasKey name)
    (hnot : ¬ s.service.Found k name) :
    t.Refreshable k (kept ++ [name]) names ↔ s.Refreshable k kept (name :: names) := by
  have hmem (added : List Bytes) (other : Bytes) :
      (t.Has k other ∨ other ∈ added) ↔ (s.Has k other ∨ other ∈ name :: added) := by
    rw [h.has_iff, List.mem_cons]
    tauto
  constructor
  · rintro ⟨added, rest, rfl, happ, htail⟩
    refine ⟨name :: added, rest, rfl, (h.appends_iff hkey hnot).mp happ, ?_⟩
    intro next more hsplit
    obtain ⟨⟨old, hrep⟩, hmore⟩ := htail next more hsplit
    refine ⟨⟨old, (h.replaces_iff hkey).mp hrep⟩, fun other hin => ?_⟩
    rw [← hmem]
    exact hmore other hin
  · intro hs
    rcases hs.cases with ⟨added, rest, rfl, happ, htail⟩ | ⟨⟨old, hrep⟩, -⟩
    · refine ⟨added, rest, rfl, (h.appends_iff hkey hnot).mpr happ, ?_⟩
      intro next more hsplit
      obtain ⟨⟨old, hrep⟩, hmore⟩ := htail next more hsplit
      refine ⟨⟨old, (h.replaces_iff hkey).mpr hrep⟩, fun other hin => ?_⟩
      rw [hmem]
      exact hmore other hin
    · -- the node would have a service from this one on
      obtain ⟨hin, hle⟩ := (hrep.only old).mpr rfl
      have hold : s.Has k old := hin.resolve_right List.not_mem_nil
      exact absurd (found_iff_has.mpr ⟨old, hold, hle⟩) hnot

end Refreshable

/-- The loop over services without the name of the handler itself. -/
theorem registerServices_iff (new : Allocator) (k : Bytes) (fd : ℤ) {names : List Bytes}
    (hnames : ∀ name ∈ names, cstr name = name ∧ name ≠ bytes "MC") (kept : List Bytes)
    (bRegistered : Bool) (hi : s.Inv) (hnode : (s.nodes k).isSome)
    (hkept : ∀ other ∈ kept, s.Has k other)
    (hstart : kept ≠ [] → bRegistered = true ∧ s.nodes k = some fd) :
    (∃ r, registerServices new k fd names s bRegistered = .ok r ∧
        Outcome k fd (kept ++ names) r) ↔ s.Refreshable k kept names := by
  induction names generalizing s kept bRegistered with
  | nil =>
    refine iff_of_true ⟨_, rfl, hi, fun name hin => hkept name (by simpa using hin), ?_⟩ ?_
    · intro hne
      rw [List.append_nil] at hne
      obtain ⟨hreg, hsocket⟩ := hstart hne
      exact ⟨hsocket, Or.inl ⟨hreg, rfl⟩⟩
    · exact ⟨[], [], rfl, ⟨List.Pairwise.nil, by simp, by simp⟩, fun name more h => nomatch h⟩
  | cons name names ih =>
    obtain ⟨⟨hplain, hmc⟩, hrest⟩ := List.forall_mem_cons.mp hnames
    by_cases hkey : s.service.HasKey name
    · by_cases hfound : s.service.Found k name
      · -- the loop ends here; the cursor has moved
        obtain ⟨i, hreg⟩ := register_found new fd hi (hplain.symm ▸ hkey) hnode
          (hplain.symm ▸ hfound)
        have hmoved : Inv { s with table := s.table.moveTo i } := hi.same rfl fun _ => id
        have hloop : registerServices new k fd (name :: names) s bRegistered =
            renew { s with table := s.table.moveTo i } new k name fd := by
          rw [registerServices, if_pos hmc, hreg]
          rfl
        have hsame (old : Bytes) : Replaces { s with table := s.table.moveTo i } k []
            (kept ++ name :: names) name old ↔ s.Replaces k [] (kept ++ name :: names) name old :=
          ⟨fun h => ⟨h.hasKey, h.only, h.spare⟩, fun h => ⟨h.hasKey, h.only, h.spare⟩⟩
        rw [hloop, refreshable_found hfound, ← exists_congr hsame]
        exact renew_iff hmoved hplain hnode hkey hfound hkept
      · obtain ⟨t, hreg, hadd⟩ := register_new new fd hi (hplain.symm ▸ hkey)
          hnode (hplain.symm ▸ hfound)
        rw [hplain] at hadd
        have hloop : registerServices new k fd (name :: names) s bRegistered =
            registerServices new k fd names t true := by
          rw [registerServices, if_pos hmc, hreg]
          rfl
        have hkept' : ∀ other ∈ kept ++ [name], t.Has k other := by
          intro other hin
          rw [hadd.has_iff]
          rcases List.mem_append.mp hin with hin | hin
          · exact Or.inr (hkept other hin)
          · exact Or.inl (List.mem_singleton.mp hin)
        have hlist : kept ++ name :: names = kept ++ [name] ++ names := by simp
        rw [hloop, hlist, ← hadd.refreshable_iff hkey hfound]
        exact ih hrest _ _ hadd.inv (hadd.socket ▸ rfl) hkept' fun _ => ⟨rfl, hadd.socket⟩
    · refine iff_of_false ?_ fun h => hkey h.hasKey
      rintro ⟨r, hok, -⟩
      rw [registerServices, if_pos hmc, register_absent (hplain.symm ▸ hkey), error_bind] at hok
      cases hok

/-- The loop passes over the name of the handler itself. -/
theorem registerServices_filter (new : Allocator) (k : Bytes) (fd : ℤ) (tokens : List Bytes)
    (s : ServiceState) (bRegistered : Bool) :
    registerServices new k fd tokens s bRegistered =
      registerServices new k fd (tokens.filter (· ≠ bytes "MC")) s bRegistered := by
  induction tokens generalizing s bRegistered with
  | nil => rfl
  | cons token tokens ih =>
    by_cases hmc : token = bytes "MC"
    · rw [List.filter_cons_of_neg (by simp [hmc]), registerServices, if_neg (not_not.mpr hmc), ih]
    · rw [List.filter_cons_of_pos (by simp [hmc]), registerServices, registerServices, if_pos hmc,
        if_pos hmc]
      refine bind_congr fun r => ?_
      obtain ⟨b, t⟩ := r
      cases b with
      | true => exact ih t true
      | false => rfl

/-! ### Every way through the loop -/

/-- What the loop keeps. -/
structure Kept (k : Bytes) (t : ServiceState) : Prop where
  inv : t.Inv
  node : (t.nodes k).isSome

theorem Kept.change (h : Kept k s) (hchange : Change s t) : Kept k t := by
  refine ⟨h.inv.change hchange, ?_⟩
  cases hchange with
  | same _ hnodes => exact hnodes k h.node
  | inserted _ _ _ _ _ hnodes => exact hnodes k h.node
  | deleted _ _ hnodes => exact hnodes ▸ h.node

theorem Kept.register (h : Kept k s) {b : Bool} (hok : s.register new k name fd = .ok (b, t)) :
    Kept k t := by
  obtain ⟨⟨b', table, nodes⟩, hreg, hret⟩ := bind_eq_ok.mp hok
  obtain ⟨-, rfl⟩ := Prod.mk.inj (Except.ok.inj hret)
  exact h.change (change_of_registerRemote h.inv (h.inv.fresh new) h.node hreg)

theorem Kept.unregister (h : Kept k s) (hok : s.unregister k name = .ok t) : Kept k t := by
  obtain ⟨table, hun, hret⟩ := bind_eq_ok.mp hok
  obtain rfl := Except.ok.inj hret
  exact h.change (change_of_unregisterRemote h.inv hun)

theorem registerServices_kept {tokens : List Bytes} {bRegistered : Bool}
    {r : Bool × List ℤ × ServiceState} (h : Kept k s)
    (hok : registerServices new k fd tokens s bRegistered = .ok r) :
    Kept k r.2.2 ∧ (r.2.1 = [] ∨ r.1 = false ∧ r.2.1 = [500]) := by
  induction tokens generalizing s bRegistered with
  | nil =>
    obtain rfl := Except.ok.inj hok
    exact ⟨h, Or.inl rfl⟩
  | cons token tokens ih =>
    rw [registerServices] at hok
    split_ifs at hok
    · obtain ⟨⟨b, t⟩, hreg, hok⟩ := bind_eq_ok.mp hok
      cases b with
      | true => exact ih (h.register hreg) hok
      | false =>
        obtain ⟨u, hun, hok⟩ := bind_eq_ok.mp hok
        obtain ⟨⟨b, v⟩, hreg', hok⟩ := bind_eq_ok.mp hok
        obtain rfl := Except.ok.inj hok
        refine ⟨((h.register hreg).unregister hun).register hreg', ?_⟩
        cases b with
        | true => exact Or.inl rfl
        | false => exact Or.inr ⟨rfl, rfl⟩
    · exact ih h hok

/-- Whether the services can be refreshed is a matter of the registry alone. -/
theorem refreshable_nodes (table : ServiceTable) (nodes nodes' : Nodes) (k : Bytes)
    (kept names : List Bytes) :
    Refreshable ⟨table, nodes⟩ k kept names → Refreshable ⟨table, nodes'⟩ k kept names := by
  rintro ⟨added, rest, hsplit, happ, htail⟩
  refine ⟨added, rest, hsplit, ⟨happ.ascending, happ.hasKey, happ.larger⟩, ?_⟩
  intro name more heq
  obtain ⟨⟨old, hrep⟩, hmore⟩ := htail name more heq
  exact ⟨⟨old, hrep.hasKey, hrep.only, hrep.spare⟩, hmore⟩

end ServiceState

/-! ### The broadcast -/

namespace PeerRegistry
open ServiceState

variable (s : PeerRegistry) (m : Msg) (garbage : ℤ)

/-- The nodes as a broadcast updates them before its services are registered. -/
def updated : Presence := s.presence.updated (m.nodeUpdate garbage)

theorem updated_self : ((s.updated m garbage) m.nodeKey).isSome :=
  s.presence.updated_self (m.nodeUpdate garbage)

theorem updated_kept : Kept m.nodeKey ⟨s.table, (s.updated m garbage).sockets⟩ := by
  refine ⟨s.inv.same rfl fun k hk => ?_, ?_⟩
  · change (s.presence.sockets k).isSome at hk
    change ((s.updated m garbage).sockets k).isSome
    rw [Presence.sockets_isSome] at hk ⊢
    by_cases hself : k = m.nodeKey
    · rw [hself]
      exact s.updated_self m garbage
    · unfold updated
      rw [s.presence.updated_of_ne (m.nodeUpdate garbage) hself]
      exact hk
  · change ((s.updated m garbage).sockets m.nodeKey).isSome
    rw [Presence.sockets_isSome]
    exact s.updated_self m garbage

theorem announced_plain {name : Bytes} (h : name ∈ m.announced) :
    cstr name = name ∧ name ≠ bytes "MC" := by
  obtain ⟨hin, hne⟩ := List.mem_filter.mp h
  refine ⟨cstr_eq_self fun h0 => ?_, of_decide_eq_true hne⟩
  exact zero_notMem_cstr _ (of_mem_tokenizer hin 0 h0).1

/-- What a broadcast has to leave, by what its loop does. -/
theorem refreshed_iff {r : Bool × List ℤ × ServiceState} (hkept : Kept m.nodeKey r.2.2)
    (hreply : r.2.1 = [] ∨ r.1 = false ∧ r.2.1 = [500]) :
    (BroadcastOutcome.mk (r.2.1 ++ if r.1 then [200] else []) r.2.2
      ((s.updated m garbage).withSockets r.2.2.nodes)).Refreshed m ↔
      Outcome m.nodeKey m.tcpSocketHandle m.announced r := by
  obtain ⟨b, replies, t⟩ := r
  obtain ⟨node, hnode⟩ := Option.isSome_iff_exists.mp (s.updated_self m garbage)
  obtain ⟨fd, hfd⟩ := Option.isSome_iff_exists.mp hkept.node
  dsimp only at hfd hreply
  have hsocket : ((s.updated m garbage).withSockets t.nodes m.nodeKey).map
      NodeEntry.tcpSocketHandle = some fd := by
    rw [Presence.withSockets, hnode, hfd]
    rfl
  constructor
  · rintro ⟨honce, hsock, hrep⟩
    refine ⟨hkept.inv, fun name hin => ?_, fun hne => ⟨?_, ?_⟩⟩
    · have hpos : 0 < t.pairs.count (name, some m.nodeKey) := by
        rw [show t.pairs.count (name, some m.nodeKey) = 1 from honce name hin]
        exact Nat.one_pos
      exact List.count_pos_iff.mp hpos
    · obtain ⟨name, hin⟩ := List.exists_mem_of_ne_nil _ hne
      have hsame := hsocket.symm.trans (hsock name hin)
      exact hfd.trans hsame
    · have hrep := hrep hne
      dsimp only at hrep ⊢
      cases b with
      | true =>
        rcases hreply with rfl | ⟨hfalse, -⟩
        · exact Or.inl ⟨rfl, rfl⟩
        · cases hfalse
      | false =>
        rcases hreply with rfl | ⟨-, rfl⟩
        · rcases hrep with h | h <;> cases h
        · exact Or.inr ⟨rfl, rfl⟩
  · rintro ⟨hinv, hhas, hrep⟩
    refine ⟨fun name hin => ?_, fun name hin => ?_, fun hne => ?_⟩
    · exact List.count_eq_one_of_mem hinv.nodup (hhas name hin)
    · have hsame := hfd.symm.trans (hrep (List.ne_nil_of_mem hin)).1
      exact hsocket.trans hsame
    · rcases (hrep hne).2 with ⟨rfl, rfl⟩ | ⟨rfl, rfl⟩
      · exact Or.inl rfl
      · exact Or.inr rfl

/-- `new` takes the address behind all that are in use. -/
def behindAll : Allocator where
  fresh live := live.foldr max 0+1
  fresh_notMem live hin := by
    have hle : ∀ l : List ℕ, ∀ a ∈ l, a ≤ l.foldr max 0 := by
      intro l a ha
      induction l with
      | nil => cases ha
      | cons b l ih =>
        rcases List.mem_cons.mp ha with rfl | ha
        · exact le_max_left _ _
        · exact le_max_of_le_right (ih ha)
    exact absurd (hle live _ hin) (by omega)

def twoInterfaces : Interfaces := ⟨bytes "10.0.0.1", bytes "10.0.1.1"⟩

/-- A broadcast of another machine that announces its service "CHAT". -/
def chatBroadcast : Msg where
  headerExtract := { params := AList.insert (bytes "Services") (bytes "CHAT") ∅ }
  msgCommand := bytes "MC.PRESENCE.BROADCAST"
  msgFrom := bytes "N@10.0.0.9:3400"
  sourceIP := bytes "10.0.0.9"
  tcpSocketHandle := 7

theorem chatBroadcast_announced : chatBroadcast.announced = [bytes "CHAT"] := by decide

end PeerRegistry

end MsgCourier
