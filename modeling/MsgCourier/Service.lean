import MsgCourier.Dispatch
import MsgCourier.Url

/-! `cService`: the registry of the services, with the entries as objects at addresses, and the
nodes of `cPresence` they belong to. Locks are taken as ones their holder may take again. -/
namespace MsgCourier
open ListSearch CText

/-- A local service has no node, a remote one the node of a key. -/
structure ServiceEntry where
  serviceName : Bytes
  pNode : Option Bytes := none
  deriving DecidableEq, Repr

/-- The multimap as a list in the order of its keys. -/
structure Service where
  serviceMap : List (Bytes × ℕ) := []
  /-- The entries `new` has allocated and `delete` has not freed. -/
  entries : ℕ → Option ServiceEntry := fun _ => none

/-- The sockets of the nodes, by key. A node is never deleted. -/
abbrev Nodes := Bytes → Option ℤ

/-- A new node has no socket yet: it has what was in its memory. -/
def updateNode (nodes : Nodes) (key : Bytes) (garbage : ℤ) : Nodes :=
  Function.update nodes key (some ((nodes key).getD garbage))

/-- Nodes that exist go on existing. -/
theorem isSome_update (nodes : Nodes) (k : Bytes) (fd : ℤ) :
    (Function.update nodes k (some fd) k).isSome ∧
      ∀ key, (nodes key).isSome → (Function.update nodes k (some fd) key).isSome := by
  refine ⟨by rw [Function.update_self]; rfl, fun key h => ?_⟩
  by_cases hkey : key = k
  · rw [hkey, Function.update_self]
    rfl
  · rwa [Function.update_of_ne hkey]

namespace Service

/-- The position of the first entry of a name, the length of the list for `end()`. -/
def find (x : Service) (serviceName : Bytes) : ℕ :=
  x.serviceMap.findIdx fun e => e.1 = serviceName

def queryServiceFirst (x : Service) (pServiceName : Bytes) : Option ℕ :=
  (x.serviceMap[x.find (cstr pServiceName)]?).map Prod.snd

/-- Where the loops over `QueryServiceFirst` and `QueryServiceNext` begin. Incrementing `end()`
leads to `wrap`, some position that depends on the tree. -/
def start (x : Service) (pServiceName : Bytes) (wrap : ℕ) : ℕ :=
  if x.find (cstr pServiceName) < x.serviceMap.length then x.find (cstr pServiceName) else wrap

/-- The loops go on to the end of the map, through the entries of all later names. -/
def search (x : Service) (pNodeKey pServiceName : Bytes) (wrap : ℕ) : Option ℕ :=
  let i := x.start pServiceName wrap
  ((x.serviceMap.drop i).findIdx? fun e => (x.entries e.2).any fun entry =>
    entry.pNode = some pNodeKey).map (i + ·)

/-- Inserts behind the entries of the same name. -/
def insert (x : Service) (pNew : ℕ) (entry : ServiceEntry) : Service where
  serviceMap := x.serviceMap.takeWhile (fun e => ¬ entry.serviceName < e.1) ++
    (entry.serviceName, pNew) :: x.serviceMap.dropWhile fun e => ¬ entry.serviceName < e.1
  entries := Function.update x.entries pNew (some entry)

/-- The result, the registry and the nodes: the node gets the socket. -/
def registerRemoteService (x : Service) (nodes : Nodes) (pNodeKey pServiceName : Bytes)
    (tcpSocketHandle : ℤ) (pNew wrap : ℕ) : Cxx (Bool × Service × Nodes) :=
  match x.search pNodeKey pServiceName wrap with
  | some _ => pure (false, x, nodes)
  | none =>
    match nodes pNodeKey with
    | none => .error .undefined
    | some _ => pure (true, x.insert pNew ⟨cstr pServiceName, some pNodeKey⟩,
        Function.update nodes pNodeKey (some tcpSocketHandle))

/-- The address of the entry that `UnregisterRemoteService` deletes. -/
def doomed (x : Service) (pNodeKey pServiceName : Bytes) (wrap : ℕ) : Option ℕ :=
  (x.search pNodeKey pServiceName wrap).bind fun j => (x.serviceMap[j]?).map Prod.snd

def unregisterRemoteService (x : Service) (pNodeKey pServiceName : Bytes) (wrap : ℕ) : Service :=
  match x.search pNodeKey pServiceName wrap with
  | none => x
  | some j =>
    match x.serviceMap[j]? with
    | none => x
    | some e => ⟨x.serviceMap.eraseIdx j, Function.update x.entries e.2 none⟩

def registerLocalService (x : Service) (serviceName : Bytes) (pNew : ℕ) : Service :=
  if x.find serviceName < x.serviceMap.length then x else x.insert pNew ⟨serviceName, none⟩

/-! ### Well-formed registries -/

/-- The map has each entry once, under its name, and only entries that exist. -/
structure WellFormed (x : Service) : Prop where
  nodup : (x.serviceMap.map Prod.snd).Nodup
  named : ∀ e ∈ x.serviceMap, ∃ entry, x.entries e.2 = some entry ∧ entry.serviceName = e.1

variable {x : Service}

theorem WellFormed.empty : WellFormed {} := ⟨List.nodup_nil, by simp⟩

theorem mem_insert_iff (x : Service) (pNew : ℕ) (entry : ServiceEntry) (e : Bytes × ℕ) :
    e ∈ (x.insert pNew entry).serviceMap ↔ e = (entry.serviceName, pNew) ∨ e ∈ x.serviceMap := by
  have hsplit : e ∈ x.serviceMap ↔
      e ∈ x.serviceMap.takeWhile (fun e => ¬ entry.serviceName < e.1) ∨
        e ∈ x.serviceMap.dropWhile fun e => ¬ entry.serviceName < e.1 := by
    rw [← List.mem_append, List.takeWhile_append_dropWhile]
  rw [insert, List.mem_append, List.mem_cons, hsplit]
  tauto

theorem insert_entries_self (x : Service) (pNew : ℕ) (entry : ServiceEntry) :
    (x.insert pNew entry).entries pNew = some entry := Function.update_self _ _ _

theorem insert_entries_of_ne (x : Service) {pNew a : ℕ} (h : a ≠ pNew) (entry : ServiceEntry) :
    (x.insert pNew entry).entries a = x.entries a := Function.update_of_ne h _ _

theorem WellFormed.insert (hw : x.WellFormed) {pNew : ℕ} (hnew : x.entries pNew = none)
    (entry : ServiceEntry) : (x.insert pNew entry).WellFormed := by
  have hfresh : pNew ∉ x.serviceMap.map Prod.snd := by
    intro hin
    obtain ⟨e, he, heq⟩ := List.mem_map.mp hin
    obtain ⟨old, hold, _⟩ := hw.named e he
    rw [heq, hnew] at hold
    cases hold
  constructor
  · have hn := hw.nodup
    rw [← List.takeWhile_append_dropWhile (p := fun e => ¬ entry.serviceName < e.1)
      (l := x.serviceMap), List.map_append] at hn hfresh
    rw [Service.insert, List.map_append, List.map_cons, List.nodup_middle]
    exact List.nodup_cons.mpr ⟨hfresh, hn⟩
  · intro e he
    rcases (mem_insert_iff x pNew entry e).mp he with rfl | he
    · exact ⟨entry, Function.update_self _ _ _, rfl⟩
    · obtain ⟨old, hold, hname⟩ := hw.named e he
      have hne : e.2 ≠ pNew := fun heq => hfresh (heq ▸ List.mem_map_of_mem he)
      exact ⟨old, (insert_entries_of_ne x hne entry).trans hold, hname⟩

/-- What is left without the element at `j`. -/
theorem WellFormed.mem_eraseIdx (hw : x.WellFormed) {j : ℕ} {e : Bytes × ℕ}
    (hj : x.serviceMap[j]? = some e) (e' : Bytes × ℕ) :
    e' ∈ x.serviceMap.eraseIdx j ↔ e' ∈ x.serviceMap ∧ e'.2 ≠ e.2 := by
  obtain ⟨hlt, hget⟩ := List.getElem?_eq_some_iff.mp hj
  have hsplit : x.serviceMap = x.serviceMap.take j ++ e :: x.serviceMap.drop (j+1) := by
    rw [← hget, ← List.drop_eq_getElem_cons hlt, List.take_append_drop]
  have hn := hw.nodup
  rw [hsplit, List.map_append, List.map_cons, List.nodup_middle, ← List.map_append,
    ← List.eraseIdx_eq_take_drop_succ] at hn
  have hne (h : e' ∈ x.serviceMap.eraseIdx j) : e'.2 ≠ e.2 := fun heq =>
    (List.nodup_cons.mp hn).1 (heq ▸ List.mem_map_of_mem h)
  constructor
  · intro h
    exact ⟨List.mem_of_mem_eraseIdx h, hne h⟩
  · intro ⟨h, he⟩
    rw [hsplit, List.mem_append, List.mem_cons] at h
    rw [List.eraseIdx_eq_take_drop_succ, List.mem_append]
    rcases h with h | rfl | h
    · exact Or.inl h
    · exact absurd rfl he
    · exact Or.inr h

theorem WellFormed.delete (hw : x.WellFormed) {j : ℕ} {e : Bytes × ℕ}
    (hj : x.serviceMap[j]? = some e) :
    WellFormed ⟨x.serviceMap.eraseIdx j, Function.update x.entries e.2 none⟩ where
  nodup := hw.nodup.sublist ((List.eraseIdx_sublist _ _).map _)
  named e' he' := by
    obtain ⟨hin, hne⟩ := (hw.mem_eraseIdx hj e').mp he'
    obtain ⟨old, hold, hname⟩ := hw.named e' hin
    exact ⟨old, (Function.update_of_ne hne _ _).trans hold, hname⟩

/-- What a lookup finds is an entry of that name. -/
theorem of_queryServiceFirst {name : Bytes} {a : ℕ} (h : x.queryServiceFirst name = some a) :
    (cstr name, a) ∈ x.serviceMap := by
  obtain ⟨e, he, rfl⟩ := Option.map_eq_some_iff.mp h
  obtain ⟨hlt, hget⟩ := List.getElem?_eq_some_iff.mp he
  have hkey := List.findIdx_getElem (p := fun e : Bytes × ℕ => e.1 = cstr name) (w := hlt)
  have hmem : e ∈ x.serviceMap := hget ▸ List.getElem_mem hlt
  have hname : e.1 = cstr name := by
    rw [← hget]
    exact of_decide_eq_true hkey
  rw [← hname]
  exact hmem

/-- A registration does nothing, or adds an entry of a node that exists. -/
theorem registerRemoteService_cases {nodes nodes' : Nodes} {k name : Bytes} {fd : ℤ} {pNew wrap : ℕ}
    {b : Bool} {y : Service}
    (hok : x.registerRemoteService nodes k name fd pNew wrap = .ok (b, y, nodes')) :
    (b = false ∧ y = x ∧ nodes' = nodes) ∨
      b = true ∧ y = x.insert pNew ⟨cstr name, some k⟩ ∧
        nodes' = Function.update nodes k (some fd) := by
  unfold registerRemoteService at hok
  split at hok
  · obtain ⟨hb, hrest⟩ := Prod.mk.inj (Except.ok.inj hok)
    obtain ⟨hy, hnodes⟩ := Prod.mk.inj hrest
    exact Or.inl ⟨hb.symm, hy.symm, hnodes.symm⟩
  · split at hok
    · cases hok
    · obtain ⟨hb, hrest⟩ := Prod.mk.inj (Except.ok.inj hok)
      obtain ⟨hy, hnodes⟩ := Prod.mk.inj hrest
      exact Or.inr ⟨hb.symm, hy.symm, hnodes.symm⟩

theorem registerRemoteService_new {nodes : Nodes} {k name : Bytes} {wrap : ℕ}
    (hsearch : x.search k name wrap = none) {old : ℤ} (hnode : nodes k = some old) (fd : ℤ)
    (pNew : ℕ) : x.registerRemoteService nodes k name fd pNew wrap =
      .ok (true, x.insert pNew ⟨cstr name, some k⟩, Function.update nodes k (some fd)) := by
  rw [registerRemoteService, hsearch]
  dsimp only
  rw [hnode]
  rfl

/-- Unregistering deletes the doomed entry and leaves the others. -/
theorem unregisterRemoteService_cases (x : Service) (pNodeKey pServiceName : Bytes) (wrap : ℕ) :
    x.unregisterRemoteService pNodeKey pServiceName wrap = x ∨
      ∃ j e, x.serviceMap[j]? = some e ∧ x.doomed pNodeKey pServiceName wrap = some e.2 ∧
        x.unregisterRemoteService pNodeKey pServiceName wrap =
          ⟨x.serviceMap.eraseIdx j, Function.update x.entries e.2 none⟩ := by
  unfold unregisterRemoteService doomed
  cases x.search pNodeKey pServiceName wrap with
  | none => exact Or.inl rfl
  | some j =>
    dsimp only
    cases he : x.serviceMap[j]? with
    | none => exact Or.inl rfl
    | some e => exact Or.inr ⟨j, e, he, by rw [Option.bind_some, he]; rfl, rfl⟩

end Service
end MsgCourier
