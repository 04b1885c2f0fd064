import MsgCourier.ServiceCursor
import MsgCourier.Runs

/-! The registry over any sequence of its operations, with a lock that its holder may take again. -/
namespace MsgCourier
open ListSearch CText SortedEntries Runs

structure ServiceState where
  table : ServiceTable := {}
  nodes : Nodes := fun _ => none

namespace ServiceState

def service (s : ServiceState) : Service := s.table.service

def pairs (s : ServiceState) : List (Bytes × Option Bytes) := s.service.pairs

end ServiceState

inductive ServiceOp
  | updateNode (key : Bytes) (garbage : ℤ)
  | registerLocal (serviceName : Bytes) (pNew : ℕ)
  | registerRemote (pNodeKey pServiceName : Bytes) (tcpSocketHandle : ℤ) (pNew : ℕ)
  | unregisterRemote (pNodeKey pServiceName : Bytes)
  | queryFirst (pServiceName : Option Bytes)
  | queryNext

inductive ServiceResult
  | done
  | registered (b : Bool)
  | entry (pServiceEntry : Option ℕ)
  deriving DecidableEq, Repr

namespace ServiceOp

def call (s : ServiceState) : ServiceOp → Cxx (ServiceResult × ServiceState)
  | .updateNode key garbage =>
      pure (.done, { s with nodes := MsgCourier.updateNode s.nodes key garbage })
  | .registerLocal serviceName pNew =>
    pure (.done, { s with table := s.table.registerLocalService (cstr serviceName) pNew })
  | .registerRemote k name fd pNew => do
    let (b, table, nodes) ← s.table.registerRemoteService s.nodes k name fd pNew
    pure (.registered b, ⟨table, nodes⟩)
  | .unregisterRemote k name => do
    let table ← s.table.unregisterRemoteService k name
    pure (.done, { s with table })
  | .queryFirst name =>
    let (p, table) := s.table.queryServiceFirst name
    pure (.entry p, { s with table })
  | .queryNext => do
    let (p, table) ← s.table.queryServiceNext
    pure (.entry p, { s with table })

/-- What holds of every call: `new` returns a fresh address, and the node was updated before. -/
def Ready (s : ServiceState) : ServiceOp → Prop
  | .registerLocal _ pNew => s.service.entries pNew = none
  | .registerRemote k _ _ pNew => s.service.entries pNew = none ∧ (s.nodes k).isSome
  | .updateNode _ _ | .unregisterRemote _ _ | .queryFirst _ | .queryNext => True

end ServiceOp

inductive ServiceCall (s : ServiceState) (op : ServiceOp) : ServiceState → Prop
  | returns {r : ServiceResult} {t : ServiceState} :
      op.Ready s → op.call s = .ok (r, t) → ServiceCall s op t

/-! ### What the registry is for -/

namespace ServiceOp

/-- The call returns, changes the registered pairs as its name says, and answers accordingly. -/
def Correct (s : ServiceState) (op : ServiceOp) : Prop :=
  ∃ r t, op.call s = .ok (r, t) ∧
    match op with
    | .updateNode _ _ | .queryNext => t.pairs = s.pairs
    | .queryFirst name => t.pairs = s.pairs ∧
        ∀ n, name = some n → (r = .entry none ↔ ¬ s.service.HasKey (cstr n))
    | .registerLocal name _ =>
      (s.service.HasKey (cstr name) → t.pairs = s.pairs) ∧
        (¬ s.service.HasKey (cstr name) → t.pairs.Perm ((cstr name, none) :: s.pairs))
    | .registerRemote k name _ _ =>
      (r = .registered false ∧ (cstr name, some k) ∈ s.pairs ∧ t.pairs = s.pairs) ∨
        (r = .registered true ∧ (cstr name, some k) ∉ s.pairs ∧
          t.pairs.Perm ((cstr name, some k) :: s.pairs))
    | .unregisterRemote k name => t.pairs.Perm (s.pairs.erase (cstr name, some k))

/-- The name is a key of the map, and a node that is not registered for it is registered for no
larger one. -/
def Settled (s : ServiceState) (k name : Bytes) : Prop :=
  s.service.HasKey name ∧
    ((name, some k) ∈ s.pairs ∨ ∀ p ∈ s.pairs, name < p.1 → p.2 ≠ some k)

def Fine (s : ServiceState) : ServiceOp → Prop
  | .registerRemote k name _ _ | .unregisterRemote k name => Settled s k (cstr name)
  | .queryNext => ∃ i < s.service.serviceMap.length, s.service.position s.table.it = some i
  | .updateNode _ _ | .registerLocal _ _ | .queryFirst _ => True

end ServiceOp

/-! ### Every reachable registry -/

/-- The map is ordered, no pair is registered twice, the nodes of the entries are known, and no
entry is lost. -/
structure ServiceState.Inv (s : ServiceState) : Prop where
  ordered : s.service.Ordered
  nodup : s.pairs.Nodup
  known : ∀ n k, (n, some k) ∈ s.pairs → (s.nodes k).isSome
  owned : ∀ a, s.service.entries a ≠ none → a ∈ s.service.serviceMap.map Prod.snd

namespace Service

variable {x : Service} {k name : Bytes}

theorem found_of_mem (h : (name, some k) ∈ x.pairs) : x.Found k name :=
  ⟨_, h, irrefl name, rfl⟩

theorem hasKey_of_mem {o : Option Bytes} (h : (name, o) ∈ x.pairs) : x.HasKey name := ⟨_, h, rfl⟩

/-- A loop finds the node exactly if it is registered for the name or for a larger one. -/
theorem found_iff_mem :
    x.Found k name ↔ (name, some k) ∈ x.pairs ∨ ∃ p ∈ x.pairs, name < p.1 ∧ p.2 = some k := by
  constructor
  · rintro ⟨p, hp, hle, hk⟩
    by_cases heq : p.1 = name
    · exact Or.inl (heq ▸ hk ▸ hp)
    · have hlt : name < p.1 := by
        have hcases := trichotomous_of (fun a b : Bytes => a < b) p.1 name
        exact (hcases.resolve_left hle).resolve_left heq
      exact Or.inr ⟨p, hp, hlt, hk⟩
  · rintro (h | ⟨p, hp, hlt, hk⟩)
    · exact found_of_mem h
    · exact ⟨p, hp, fun h => asymm hlt h, hk⟩

/-- The element that is erased, as a pair. -/
theorem pairs_getElem? {j : ℕ} {e : Bytes × ℕ} (hj : x.serviceMap[j]? = some e)
    (hof : x.isOf k e = true) : x.pairs[j]? = some (e.1, some k) := by
  rw [pairs, List.getElem?_map, hj, Option.map_some, isOf_iff.mp hof]

end Service

theorem erase_perm_eraseIdx {α : Type*} [BEq α] [LawfulBEq α] {l : List α} {j : ℕ} {a : α}
    (hj : l[j]? = some a) : (l.eraseIdx j).Perm (l.erase a) := by
  obtain ⟨hlt, hget⟩ := List.getElem?_eq_some_iff.mp hj
  have hcons : (a :: l.eraseIdx j).Perm l := by
    have h := List.getElem_cons_eraseIdx_perm hlt
    rwa [hget] at h
  have h := hcons.erase a
  rwa [List.erase_cons_head] at h

namespace ServiceTable

variable {x : ServiceTable} {k name : Bytes} {nodes : Nodes} {fd : ℤ} {pNew : ℕ}

/-- A registration, by what the loop finds. -/
theorem registerRemoteService_cases (fd : ℤ) (pNew : ℕ) (hx : x.service.Ordered)
    (hkey : x.service.HasKey (cstr name)) (hnode : (nodes k).isSome) :
    (x.service.Found k (cstr name) ∧ ∃ i,
      x.registerRemoteService nodes k name fd pNew = .ok (false, x.moveTo i, nodes)) ∨
    (¬ x.service.Found k (cstr name) ∧ ∃ it,
      x.registerRemoteService nodes k name fd pNew =
        .ok (true, ⟨x.service.insert pNew ⟨cstr name, some k⟩, it⟩,
          Function.update nodes k (some fd))) := by
  by_cases hfound : x.service.Found k (cstr name)
  · obtain ⟨j, e, -, -, -, -, hsearch⟩ := search_found hx hkey hfound
    refine Or.inl ⟨hfound, j, ?_⟩
    rw [registerRemoteService, hsearch]
    rfl
  · obtain ⟨old, hold⟩ := Option.isSome_iff_exists.mp hnode
    refine Or.inr ⟨hfound, x.service.itAt x.service.serviceMap.length, ?_⟩
    rw [registerRemoteService, search_none hx hkey hfound, ok_bind]
    dsimp only
    rw [if_neg (by simp), hold]
    rfl

theorem registerRemoteService_absent (hkey : ¬ x.service.HasKey (cstr name)) :
    x.registerRemoteService nodes k name fd pNew = .error .undefined := by
  rw [registerRemoteService, search_absent hkey, error_bind]

theorem unregisterRemoteService_absent (hkey : ¬ x.service.HasKey (cstr name)) :
    x.unregisterRemoteService k name = .error .undefined := by
  rw [unregisterRemoteService, search_absent hkey, error_bind]

/-- An unregistration, by what the loop finds. -/
theorem unregisterRemoteService_cases (hx : x.service.Ordered)
    (hkey : x.service.HasKey (cstr name)) :
    (¬ x.service.Found k (cstr name) ∧ ∃ i, x.unregisterRemoteService k name = .ok (x.moveTo i)) ∨
    (x.service.Found k (cstr name) ∧ ∃ j e it, x.service.serviceMap[j]? = some e ∧
      x.service.isOf k e = true ∧ ¬ e.1 < cstr name ∧
      ((cstr name, some k) ∈ x.service.pairs → e.1 = cstr name) ∧
      x.unregisterRemoteService k name = .ok
        ⟨⟨x.service.serviceMap.eraseIdx j, Function.update x.service.entries e.2 none⟩, it⟩) := by
  by_cases hfound : x.service.Found k (cstr name)
  · obtain ⟨j, e, hj, hof, hle, hreg, hsearch⟩ := search_found hx hkey hfound
    obtain ⟨hlt, -⟩ := List.getElem?_eq_some_iff.mp hj
    refine Or.inr ⟨hfound, j, e, x.service.itAt j, hj, hof, hle, hreg, ?_⟩
    have hpos : (x.moveTo j).service.position (x.moveTo j).it = some j :=
      hx.toWellFormed.position_itAt (le_of_lt hlt)
    rw [unregisterRemoteService, hsearch, ok_bind]
    dsimp only
    rw [hpos]
    rfl
  · refine Or.inl ⟨hfound, x.service.serviceMap.length, ?_⟩
    rw [unregisterRemoteService, search_none hx hkey hfound]
    rfl

end ServiceTable

namespace Service

variable {x : Service} {name : Bytes} {pNew : ℕ}

theorem registerLocalService_hasKey (h : x.HasKey name) :
    x.registerLocalService name pNew = x := if_pos (hasKey_iff.mp h)

theorem registerLocalService_new (h : ¬ x.HasKey name) :
    x.registerLocalService name pNew = x.insert pNew ⟨name, none⟩ :=
  if_neg fun hlt => h (hasKey_iff.mpr hlt)

end Service

namespace ServiceState

variable {s t : ServiceState}

/-- What an operation can do to the registry. -/
inductive Change (s t : ServiceState) : Prop
  | same : t.service = s.service → (∀ k, (s.nodes k).isSome → (t.nodes k).isSome) → Change s t
  | inserted {pNew : ℕ} {entry : ServiceEntry} :
      s.service.entries pNew = none → 0 ∉ entry.serviceName →
      (entry.serviceName, entry.pNode) ∉ s.pairs →
      (∀ k, entry.pNode = some k → (s.nodes k).isSome) →
      t.service = s.service.insert pNew entry →
      (∀ k, (s.nodes k).isSome → (t.nodes k).isSome) → Change s t
  | deleted {j : ℕ} {e : Bytes × ℕ} :
      s.service.serviceMap[j]? = some e →
      t.service = ⟨s.service.serviceMap.eraseIdx j,
        Function.update s.service.entries e.2 none⟩ → t.nodes = s.nodes → Change s t

theorem change_of_registerLocal {name : Bytes} {pNew : ℕ} (hnew : s.service.entries pNew = none) :
    Change s { s with table := s.table.registerLocalService (cstr name) pNew } := by
  by_cases hkey : s.service.HasKey (cstr name)
  · exact .same (Service.registerLocalService_hasKey hkey) fun _ => id
  · exact .inserted hnew (zero_notMem_cstr name) (fun hmem => hkey (Service.hasKey_of_mem hmem))
      (fun k (hk : none = some k) => nomatch hk) (Service.registerLocalService_new hkey) fun _ => id

theorem change_of_registerRemote (hi : s.Inv) {k name : Bytes} {fd : ℤ} {pNew : ℕ} {b : Bool}
    {table : ServiceTable} {nodes : Nodes} (hnew : s.service.entries pNew = none)
    (hnode : (s.nodes k).isSome)
    (hok : s.table.registerRemoteService s.nodes k name fd pNew = .ok (b, table, nodes)) :
    Change s ⟨table, nodes⟩ := by
  by_cases hkey : s.service.HasKey (cstr name)
  · rcases ServiceTable.registerRemoteService_cases fd pNew hi.ordered hkey hnode with
      ⟨-, i, heq⟩ | ⟨hnot, it, heq⟩
    · obtain ⟨-, hrest⟩ := Prod.mk.inj (Except.ok.inj (hok.symm.trans heq))
      obtain ⟨rfl, rfl⟩ := Prod.mk.inj hrest
      exact .same rfl fun _ => id
    · obtain ⟨-, hrest⟩ := Prod.mk.inj (Except.ok.inj (hok.symm.trans heq))
      obtain ⟨rfl, rfl⟩ := Prod.mk.inj hrest
      refine .inserted hnew (zero_notMem_cstr name)
        (fun hmem => hnot (Service.found_of_mem hmem)) ?_ rfl (isSome_update s.nodes k fd).2
      rintro k' hk'
      obtain rfl := Option.some.inj hk'
      exact hnode
  · rw [ServiceTable.registerRemoteService_absent hkey] at hok
    cases hok

theorem change_of_unregisterRemote (hi : s.Inv) {k name : Bytes} {table : ServiceTable}
    (hok : s.table.unregisterRemoteService k name = .ok table) :
    Change s { s with table } := by
  by_cases hkey : s.service.HasKey (cstr name)
  · rcases ServiceTable.unregisterRemoteService_cases hi.ordered hkey with
      ⟨-, i, heq⟩ | ⟨-, j, e, it, hj, -, -, -, heq⟩
    · obtain rfl := Except.ok.inj (hok.symm.trans heq)
      exact .same rfl fun _ => id
    · obtain rfl := Except.ok.inj (hok.symm.trans heq)
      exact .deleted hj rfl rfl
  · rw [ServiceTable.unregisterRemoteService_absent hkey] at hok
    cases hok

theorem change_of_call (hi : s.Inv) {op : ServiceOp} (hcall : ServiceCall s op t) :
    Change s t := by
  obtain ⟨hready, hok⟩ := hcall
  cases op with
  | updateNode key garbage =>
    obtain ⟨-, rfl⟩ := Prod.mk.inj (Except.ok.inj hok)
    exact .same rfl (isSome_update s.nodes key _).2
  | queryFirst name =>
    obtain ⟨-, rfl⟩ := Prod.mk.inj (Except.ok.inj hok)
    exact .same rfl fun _ => id
  | queryNext =>
    obtain ⟨⟨p, table⟩, hnext, hret⟩ := bind_eq_ok.mp hok
    obtain ⟨-, rfl⟩ := Prod.mk.inj (Except.ok.inj hret)
    refine .same ?_ fun _ => id
    unfold ServiceTable.queryServiceNext at hnext
    split at hnext
    · cases hnext
    · split_ifs at hnext
      obtain ⟨-, rfl⟩ := Prod.mk.inj (Except.ok.inj hnext)
      rfl
  | registerLocal name pNew =>
    obtain ⟨-, rfl⟩ := Prod.mk.inj (Except.ok.inj hok)
    exact change_of_registerLocal hready
  | registerRemote k name fd pNew =>
    obtain ⟨⟨b, table, nodes⟩, hreg, hret⟩ := bind_eq_ok.mp hok
    obtain ⟨-, rfl⟩ := Prod.mk.inj (Except.ok.inj hret)
    exact change_of_registerRemote hi hready.1 hready.2 hreg
  | unregisterRemote k name =>
    obtain ⟨table, hun, hret⟩ := bind_eq_ok.mp hok
    obtain ⟨-, rfl⟩ := Prod.mk.inj (Except.ok.inj hret)
    exact change_of_unregisterRemote hi hun

end ServiceState

namespace ServiceState.Inv

variable {s t : ServiceState}

theorem initial (nodes : Nodes) : Inv { nodes } where
  ordered := Service.Ordered.empty
  nodup := List.nodup_nil
  known _ _ h := nomatch h
  owned _ h := absurd rfl h

/-- Only the iterator and the nodes differ. -/
theorem same (hi : s.Inv) (h : t.service = s.service)
    (hnodes : ∀ k, (s.nodes k).isSome → (t.nodes k).isSome) : t.Inv := by
  have hpairs : t.pairs = s.pairs := congrArg Service.pairs h
  refine ⟨h ▸ hi.ordered, hpairs ▸ hi.nodup, fun n k hmem => ?_, h ▸ hi.owned⟩
  exact hnodes k (hi.known n k (hpairs ▸ hmem))

/-- A pair is added that was not there. -/
theorem inserted (hi : s.Inv) {pNew : ℕ} {entry : ServiceEntry}
    (hnew : s.service.entries pNew = none) (h0 : 0 ∉ entry.serviceName)
    (hpair : (entry.serviceName, entry.pNode) ∉ s.pairs)
    (hnode : ∀ k, entry.pNode = some k → (s.nodes k).isSome)
    (h : t.service = s.service.insert pNew entry)
    (hnodes : ∀ k, (s.nodes k).isSome → (t.nodes k).isSome) : t.Inv := by
  have hperm : t.pairs.Perm ((entry.serviceName, entry.pNode) :: s.pairs) := by
    rw [pairs, h]
    exact Service.pairs_insert hi.ordered.toWellFormed hnew entry
  constructor
  · exact h ▸ hi.ordered.insert hnew h0
  · exact hperm.nodup_iff.mpr (List.nodup_cons.mpr ⟨hpair, hi.nodup⟩)
  · intro n k hmem
    apply hnodes
    rcases List.mem_cons.mp (hperm.subset hmem) with heq | hold
    · exact hnode k (Prod.mk.inj heq).2.symm
    · exact hi.known n k hold
  · intro a ha
    rw [h] at ha ⊢
    by_cases hsame : a = pNew
    · exact List.mem_map.mpr ⟨_, (Service.mem_insert_iff _ _ _ _).mpr (Or.inl rfl), hsame.symm⟩
    · rw [Service.insert_entries_of_ne _ hsame] at ha
      obtain ⟨e, he, rfl⟩ := List.mem_map.mp (hi.owned a ha)
      exact List.mem_map_of_mem ((Service.mem_insert_iff _ _ _ _).mpr (Or.inr he))

/-- An entry is deleted with its node of the map. -/
theorem deleted (hi : s.Inv) {j : ℕ} {e : Bytes × ℕ} (hj : s.service.serviceMap[j]? = some e)
    (h : t.service = ⟨s.service.serviceMap.eraseIdx j,
      Function.update s.service.entries e.2 none⟩) (hnodes : t.nodes = s.nodes) : t.Inv := by
  have hpairs : t.pairs = s.pairs.eraseIdx j :=
    (congrArg Service.pairs h).trans (Service.pairs_delete hi.ordered.toWellFormed hj)
  constructor
  · exact h ▸ hi.ordered.delete hj
  · rw [hpairs]
    exact hi.nodup.sublist (List.eraseIdx_sublist _ _)
  · intro n k hmem
    rw [hpairs] at hmem
    rw [hnodes]
    exact hi.known n k (List.mem_of_mem_eraseIdx hmem)
  · intro a ha
    rw [h] at ha ⊢
    dsimp only at ha ⊢
    have hne : a ≠ e.2 := by
      rintro rfl
      exact ha (Function.update_self _ _ _)
    rw [Function.update_of_ne hne] at ha
    obtain ⟨e', he', rfl⟩ := List.mem_map.mp (hi.owned a ha)
    exact List.mem_map_of_mem
      ((hi.ordered.toWellFormed.mem_eraseIdx hj e').mpr ⟨he', hne⟩)

theorem change (hi : s.Inv) (h : Change s t) : t.Inv := by
  cases h with
  | same hservice hnodes => exact hi.same hservice hnodes
  | inserted hnew h0 hpair hnode hservice hnodes =>
    exact hi.inserted hnew h0 hpair hnode hservice hnodes
  | deleted hj hservice hnodes => exact hi.deleted hj hservice hnodes

/-- Every registry that the operations reach from the empty one is well formed. -/
theorem run {nodes : Nodes} {ops : List ServiceOp} (hrun : Run ServiceCall { nodes } ops s) :
    s.Inv :=
  hrun.invariant (fun _ _ _ hi hcall => hi.change (change_of_call hi hcall)) (initial nodes)

end ServiceState.Inv

namespace ServiceOp

variable {s : ServiceState} {k name : Bytes}

/-- When a loop finds an entry exactly if the node is registered for the name itself. -/
theorem settled_iff (hkey : s.service.HasKey name) :
    Settled s k name ↔ (s.service.Found k name → (name, some k) ∈ s.pairs) := by
  constructor
  · rintro ⟨-, hmem | hnone⟩ hfound
    · exact hmem
    · rcases Service.found_iff_mem.mp hfound with hmem | ⟨p, hp, hlt, hk⟩
      · exact hmem
      · exact absurd hk (hnone p hp hlt)
  · intro h
    refine ⟨hkey, ?_⟩
    by_cases hmem : (name, some k) ∈ s.pairs
    · exact Or.inl hmem
    · refine Or.inr fun p hp hlt hk => hmem (h ?_)
      exact Service.found_iff_mem.mpr (Or.inr ⟨p, hp, hlt, hk⟩)

theorem correct_registerRemote_iff (hi : s.Inv) {fd : ℤ} {pNew : ℕ}
    (hready : (registerRemote k name fd pNew).Ready s) :
    (registerRemote k name fd pNew).Correct s ↔ Settled s k (cstr name) := by
  by_cases hkey : s.service.HasKey (cstr name)
  · rw [settled_iff hkey]
    have hcases := ServiceTable.registerRemoteService_cases fd pNew hi.ordered hkey hready.2
    rcases hcases with ⟨hfound, i, heq⟩ | ⟨hnot, it, heq⟩
    · have hcall : (registerRemote k name fd pNew).call s =
          .ok (.registered false, ⟨s.table.moveTo i, s.nodes⟩) := by
        rw [call, heq, ok_bind]
        rfl
      constructor
      · rintro ⟨r, t, hok, hcorrect⟩ -
        obtain ⟨rfl, rfl⟩ := Prod.mk.inj (Except.ok.inj (hcall.symm.trans hok))
        rcases hcorrect with ⟨-, hmem, -⟩ | ⟨htrue, -⟩
        · exact hmem
        · cases htrue
      · intro h
        exact ⟨_, _, hcall, Or.inl ⟨rfl, h hfound, rfl⟩⟩
    · refine iff_of_true ?_ fun hfound => absurd hfound hnot
      have hcall : (registerRemote k name fd pNew).call s =
          .ok (.registered true, ⟨⟨s.service.insert pNew ⟨cstr name, some k⟩, it⟩,
            Function.update s.nodes k (some fd)⟩) := by
        rw [call, heq, ok_bind]
        rfl
      have hperm := Service.pairs_insert hi.ordered.toWellFormed hready.1 ⟨cstr name, some k⟩
      exact ⟨_, _, hcall,
        Or.inr ⟨rfl, fun hmem => hnot (Service.found_of_mem hmem), hperm⟩⟩
  · refine iff_of_false ?_ fun h => hkey h.1
    rintro ⟨r, t, hok, -⟩
    rw [call, ServiceTable.registerRemoteService_absent hkey, error_bind] at hok
    cases hok

theorem correct_unregisterRemote_iff (hi : s.Inv) :
    (unregisterRemote k name).Correct s ↔ Settled s k (cstr name) := by
  by_cases hkey : s.service.HasKey (cstr name)
  · rw [settled_iff hkey]
    rcases ServiceTable.unregisterRemoteService_cases (k := k) hi.ordered hkey with
      ⟨hnot, i, heq⟩ | ⟨hfound, j, e, it, hj, hof, -, hname, heq⟩
    · refine iff_of_true ?_ fun hfound => absurd hfound hnot
      have hcall : (unregisterRemote k name).call s =
          .ok (.done, ⟨s.table.moveTo i, s.nodes⟩) := by
        rw [call, heq, ok_bind]
        rfl
      refine ⟨_, _, hcall, ?_⟩
      have hmem : (cstr name, some k) ∉ s.pairs := fun hmem => hnot (Service.found_of_mem hmem)
      change s.pairs.Perm (s.pairs.erase (cstr name, some k))
      rw [List.erase_of_not_mem hmem]
    · have hcall : (unregisterRemote k name).call s = .ok (.done,
          ⟨⟨⟨s.service.serviceMap.eraseIdx j, Function.update s.service.entries e.2 none⟩, it⟩,
            s.nodes⟩) := by
        rw [call, heq, ok_bind]
        rfl
      have hpairs : Service.pairs ⟨s.service.serviceMap.eraseIdx j,
          Function.update s.service.entries e.2 none⟩ = s.pairs.eraseIdx j :=
        Service.pairs_delete hi.ordered.toWellFormed hj
      have hpair := Service.pairs_getElem? hj hof
      constructor
      · rintro ⟨r, t, hok, hperm⟩ -
        obtain ⟨rfl, rfl⟩ := Prod.mk.inj (Except.ok.inj (hcall.symm.trans hok))
        by_contra hmem
        -- nothing may go, but one pair went
        have hperm' : (s.pairs.eraseIdx j).Perm (s.pairs.erase (cstr name, some k)) :=
          hpairs ▸ hperm
        have hpos : j < s.pairs.length := (List.getElem?_eq_some_iff.mp hpair).1
        have hlen := hperm'.length_eq
        rw [List.erase_of_not_mem hmem, List.length_eraseIdx_of_lt hpos] at hlen
        omega
      · intro h
        refine ⟨_, _, hcall, ?_⟩
        rw [hname (h hfound)] at hpair
        have hperm : (s.pairs.eraseIdx j).Perm (s.pairs.erase (cstr name, some k)) :=
          erase_perm_eraseIdx hpair
        rw [← hpairs] at hperm
        exact hperm
  · refine iff_of_false ?_ fun h => hkey h.1
    rintro ⟨r, t, hok, -⟩
    rw [call, ServiceTable.unregisterRemoteService_absent hkey, error_bind] at hok
    cases hok

theorem correct_queryFirst (s : ServiceState) (name : Option Bytes) :
    (queryFirst name).Correct s := by
  refine ⟨_, _, rfl, rfl, ?_⟩
  rintro n rfl
  rw [Service.hasKey_iff]
  dsimp only [ServiceTable.queryServiceFirst, Option.elim_some]
  rw [ServiceResult.entry.injEq, Service.entryAt, Option.map_eq_none_iff,
    List.getElem?_eq_none_iff, not_lt]
  rfl

theorem correct_registerLocal (hi : s.Inv) {pNew : ℕ} (hready : s.service.entries pNew = none) :
    (registerLocal name pNew).Correct s := by
  refine ⟨_, _, rfl, fun hkey => ?_, fun hkey => ?_⟩
  · change Service.pairs (s.service.registerLocalService _ _) = _
    rw [Service.registerLocalService_hasKey hkey]
    rfl
  · change (Service.pairs (s.service.registerLocalService _ _)).Perm _
    rw [Service.registerLocalService_new hkey]
    exact Service.pairs_insert hi.ordered.toWellFormed hready _

theorem correct_queryNext_iff : queryNext.Correct s ↔ queryNext.Fine s := by
  constructor
  · rintro ⟨r, t, hok, -⟩
    obtain ⟨q, hnext, -⟩ := bind_eq_ok.mp hok
    unfold ServiceTable.queryServiceNext at hnext
    split at hnext
    · cases hnext
    · rename_i i hpos
      split_ifs at hnext with hlt
      exact ⟨i, hlt, hpos⟩
  · rintro ⟨i, hlt, hpos⟩
    have hnext : s.table.queryServiceNext =
        .ok (s.service.entryAt (i+1), s.table.moveTo (i+1)) := by
      unfold ServiceTable.queryServiceNext
      rw [show s.table.service.position s.table.it = some i from hpos]
      exact if_pos hlt
    refine ⟨.entry (s.service.entryAt (i+1)), { s with table := s.table.moveTo (i+1) }, ?_, rfl⟩
    rw [call, hnext, ok_bind]
    rfl

theorem correct_iff (hi : s.Inv) {op : ServiceOp} (hready : op.Ready s) :
    op.Correct s ↔ op.Fine s := by
  cases op with
  | updateNode key garbage => exact iff_of_true ⟨_, _, rfl, rfl⟩ trivial
  | registerLocal name pNew => exact iff_of_true (correct_registerLocal hi hready) trivial
  | registerRemote k name fd pNew => exact correct_registerRemote_iff hi hready
  | unregisterRemote k name => exact correct_unregisterRemote_iff hi
  | queryFirst name => exact iff_of_true (correct_queryFirst s name) trivial
  | queryNext => exact correct_queryNext_iff

end ServiceOp

/-- After any operations on the empty registry, the next one does what it is for exactly if it is
fine. -/
theorem service_correct_iff {nodes : Nodes} {ops : List ServiceOp} {s : ServiceState}
    (hrun : Run ServiceCall { nodes } ops s) {op : ServiceOp} (hready : op.Ready s) :
    op.Correct s ↔ op.Fine s := by
  exact ServiceOp.correct_iff (ServiceState.Inv.run hrun) hready

/-- A registry with one local service and one node that registers. -/
def oneLocal : ServiceState :=
  { table := { service := Service.registerLocalService {} [65] 0 }
    nodes := updateNode (fun _ => none) [75] 0 }

theorem oneLocal_run : Run ServiceCall { nodes := updateNode (fun _ => none) [75] 0 }
    [.registerLocal [65] 0] oneLocal :=
  .snoc .nil (.returns rfl rfl)

theorem service_correct_local : Run ServiceCall { nodes := updateNode (fun _ => none) [75] 0 }
    [.registerLocal [65] 0] oneLocal ∧
    ServiceOp.Ready oneLocal (.registerRemote [75] [65] 7 1) ∧
    ServiceOp.Correct oneLocal (.registerRemote [75] [65] 7 1) := by
  have hready : ServiceOp.Ready oneLocal (.registerRemote [75] [65] 7 1) := ⟨by decide, by decide⟩
  refine ⟨oneLocal_run, hready, (service_correct_iff oneLocal_run hready).mpr ⟨?_, ?_⟩⟩
  · exact ⟨([65], none), by decide, rfl⟩
  · refine Or.inr fun p hp hlt => ?_
    have hp : p = ([65], none) := List.mem_singleton.mp hp
    rw [hp] at hlt
    exact absurd hlt (by decide)

/-- The registry is ready for the name "B", which is no key of it, and the loop advances `end()`. -/
theorem registration_of_no_key : Run ServiceCall { nodes := updateNode (fun _ => none) [75] 0 }
    [.registerLocal [65] 0] oneLocal ∧
    ServiceOp.Ready oneLocal (.registerRemote [75] [66] 7 1) ∧
    ¬ ServiceOp.Correct oneLocal (.registerRemote [75] [66] 7 1) := by
  refine ⟨oneLocal_run, ⟨by decide, by decide⟩, ?_⟩
  rintro ⟨r, t, hok, -⟩
  have hcall : ServiceOp.call oneLocal (.registerRemote [75] [66] 7 1) = .error .undefined := rfl
  rw [hcall] at hok
  cases hok

end MsgCourier
