import MsgCourier.Service
import MsgCourier.SortedEntries

/-! `cService` with the iterator its methods share: the loops over `QueryServiceFirst` and
`QueryServiceNext` as the source has them. -/
namespace MsgCourier
open ListSearch CText SortedEntries

/-- `m_it`: not set yet, at the node of an entry, or at `end()`. It stays at a node that
is erased. -/
inductive ServiceIt
  | unset
  | node (pServiceEntry : ℕ)
  | stop
  deriving DecidableEq, Repr

namespace Service

/-- The index of an iterator, the length of the map for `end()`. -/
def position (x : Service) : ServiceIt → Option ℕ
  | .unset => none
  | .node a => x.serviceMap.findIdx? fun e => e.2 = a
  | .stop => some x.serviceMap.length

/-- The iterator at an index. -/
def itAt (x : Service) (i : ℕ) : ServiceIt :=
  match x.serviceMap[i]? with
  | some e => .node e.2
  | none => .stop

def entryAt (x : Service) (i : ℕ) : Option ℕ := (x.serviceMap[i]?).map Prod.snd

end Service

structure ServiceTable where
  service : Service := {}
  it : ServiceIt := .unset

namespace ServiceTable

def moveTo (x : ServiceTable) (i : ℕ) : ServiceTable := { x with it := x.service.itAt i }

/-- Without a name the walk begins at the first entry of all. -/
def queryServiceFirst (x : ServiceTable) (pServiceName : Option Bytes) :
    Option ℕ × ServiceTable :=
  let i := pServiceName.elim 0 fun name => x.service.find (cstr name)
  (x.service.entryAt i, x.moveTo i)

/-- `m_it++` is undefined at `end()`, at an erased node and before the first query. -/
def queryServiceNext (x : ServiceTable) : Cxx (Option ℕ × ServiceTable) :=
  match x.service.position x.it with
  | none => .error .undefined
  | some i =>
    if i < x.service.serviceMap.length then
      pure (x.service.entryAt (i+1), x.moveTo (i+1))
    else .error .undefined

/-- Whether an entry is one of a node. -/
def isOf (x : ServiceTable) (pNodeKey : Bytes) (pServiceEntry : ℕ) : Cxx Bool :=
  match x.service.entries pServiceEntry with
  | none => .error .undefined
  | some entry => pure (entry.pNode = some pNodeKey)

/-- The loop that looks for an entry of a node. Every pass advances the iterator, so `fuel` for the
length of the map is enough. -/
def findNode (pNodeKey : Bytes) : ℕ → ServiceTable → Option ℕ → Cxx (Option ℕ × ServiceTable)
  | 0, _, _ => .error .undefined
  | fuel+1, x, pServiceEntry => do
    let bFound ← match pServiceEntry with
      | none => pure false
      | some a => x.isOf pNodeKey a
    if bFound then pure (pServiceEntry, x)
    else
      let (next, x) ← x.queryServiceNext
      match next with
      | none => pure (none, x)
      | some a => findNode pNodeKey fuel x (some a)

/-- The loops that do something for every entry up to the end of the map. -/
def walk {α : Type} (body : ℕ → α → Cxx α) : ℕ → ServiceTable → Option ℕ → α →
    Cxx (α × ServiceTable)
  | 0, _, _, _ => .error .undefined
  | fuel+1, x, pServiceEntry, acc => do
    let acc ← match pServiceEntry with
      | none => pure acc
      | some a => body a acc
    let (next, x) ← x.queryServiceNext
    match next with
    | none => pure (acc, x)
    | some a => walk body fuel x (some a) acc

def search (x : ServiceTable) (pNodeKey pServiceName : Bytes) : Cxx (Option ℕ × ServiceTable) :=
  let (pServiceEntry, x) := x.queryServiceFirst (some pServiceName)
  findNode pNodeKey x.service.serviceMap.length x pServiceEntry

def registerRemoteService (x : ServiceTable) (nodes : Nodes) (pNodeKey pServiceName : Bytes)
    (tcpSocketHandle : ℤ) (pNew : ℕ) : Cxx (Bool × ServiceTable × Nodes) := do
  let (found, x) ← x.search pNodeKey pServiceName
  if found.isSome then pure (false, x, nodes)
  else
    match nodes pNodeKey with
    | none => .error .undefined
    | some _ =>
      pure (true, { x with service := x.service.insert pNew ⟨cstr pServiceName, some pNodeKey⟩ },
        Function.update nodes pNodeKey (some tcpSocketHandle))

/-- The entry is deleted and its node erased at the iterator. -/
def unregisterRemoteService (x : ServiceTable) (pNodeKey pServiceName : Bytes) :
    Cxx ServiceTable := do
  let (found, x) ← x.search pNodeKey pServiceName
  match found with
  | none => pure x
  | some a =>
    match x.service.position x.it with
    | none => .error .undefined
    | some j =>
      pure { x with service :=
        ⟨x.service.serviceMap.eraseIdx j, Function.update x.service.entries a none⟩ }

def registerLocalService (x : ServiceTable) (serviceName : Bytes) (pNew : ℕ) : ServiceTable :=
  { x with service := x.service.registerLocalService serviceName pNew }

end ServiceTable

/-! ### Ordered registries -/

namespace Service

/-- The map is in the order of its keys, which are C strings. -/
structure Ordered (x : Service) : Prop extends x.WellFormed where
  sorted : Sorted (· < ·) x.serviceMap
  plain : ∀ e ∈ x.serviceMap, 0 ∉ e.1

variable {x : Service}

theorem Ordered.empty : Ordered {} where
  toWellFormed := WellFormed.empty
  sorted := List.Pairwise.nil
  plain := nofun

theorem Ordered.insert (hx : x.Ordered) {pNew : ℕ} (hnew : x.entries pNew = none)
    {entry : ServiceEntry} (hname : 0 ∉ entry.serviceName) : (x.insert pNew entry).Ordered where
  toWellFormed := hx.toWellFormed.insert hnew entry
  sorted := hx.sorted.insertBehind (· < ·) entry.serviceName pNew
  plain e he := by
    rcases (mem_insert_iff x pNew entry e).mp he with rfl | he
    · exact hname
    · exact hx.plain e he

theorem Ordered.delete (hx : x.Ordered) {j : ℕ} {e : Bytes × ℕ} (hj : x.serviceMap[j]? = some e) :
    Ordered ⟨x.serviceMap.eraseIdx j, Function.update x.entries e.2 none⟩ where
  toWellFormed := hx.toWellFormed.delete hj
  sorted := hx.sorted.eraseIdx (· < ·) j
  plain e' he' := hx.plain e' (List.mem_of_mem_eraseIdx he')

/-- The iterator at an index stands at that index. -/
theorem WellFormed.position_itAt (hx : x.WellFormed) {i : ℕ} (hi : i ≤ x.serviceMap.length) :
    x.position (x.itAt i) = some i := by
  rcases Nat.lt_or_eq_of_le hi with hlt | rfl
  · have hget : x.serviceMap[i]? = some x.serviceMap[i] := List.getElem?_eq_getElem hlt
    rw [itAt, hget]
    dsimp only [position]
    rw [List.findIdx?_eq_some_iff_getElem]
    refine ⟨hlt, decide_eq_true rfl, fun j hji => ?_⟩
    intro heq
    -- two nodes never hold the same entry
    have hi' : i < (x.serviceMap.map Prod.snd).length := by rwa [List.length_map]
    have hj' : j < (x.serviceMap.map Prod.snd).length := lt_trans hji hi'
    have hsame : (x.serviceMap.map Prod.snd)[j] = (x.serviceMap.map Prod.snd)[i] := by
      rw [List.getElem_map, List.getElem_map]
      exact of_decide_eq_true heq
    exact absurd (hx.nodup.getElem_inj_iff.mp hsame) (Nat.ne_of_lt hji)
  · have hnone : x.serviceMap[x.serviceMap.length]? = none := List.getElem?_eq_none le_rfl
    rw [itAt, hnone]
    rfl

theorem entryAt_of_lt {i : ℕ} (hi : i < x.serviceMap.length) :
    x.entryAt i = some x.serviceMap[i].2 := by
  rw [entryAt, List.getElem?_eq_getElem hi]
  rfl

theorem entryAt_length (x : Service) : x.entryAt x.serviceMap.length = none := by
  rw [entryAt, List.getElem?_eq_none le_rfl]
  rfl

/-- Whether an entry of the map is one of a node. -/
def isOf (x : Service) (pNodeKey : Bytes) (e : Bytes × ℕ) : Bool :=
  (x.entries e.2).any fun entry => entry.pNode = some pNodeKey

end Service

namespace ServiceTable

variable {x : ServiceTable} {k : Bytes}

@[simp] theorem moveTo_service (x : ServiceTable) (i : ℕ) : (x.moveTo i).service = x.service := rfl

theorem isOf_eq (hx : x.service.WellFormed) {e : Bytes × ℕ} (he : e ∈ x.service.serviceMap) :
    x.isOf k e.2 = .ok (x.service.isOf k e) := by
  obtain ⟨entry, hentry, -⟩ := hx.named e he
  rw [isOf, Service.isOf, hentry]
  rfl

/-- The next entry, from an index inside the map. -/
theorem queryServiceNext_moveTo (hx : x.service.WellFormed) {i : ℕ}
    (hi : i < x.service.serviceMap.length) :
    (x.moveTo i).queryServiceNext = .ok (x.service.entryAt (i+1), x.moveTo (i+1)) := by
  have hpos : (x.moveTo i).service.position (x.moveTo i).it = some i :=
    hx.position_itAt (le_of_lt hi)
  unfold queryServiceNext
  rw [hpos]
  dsimp only
  rw [moveTo_service, if_pos hi]
  rfl

/-- The loop finds the first entry of the node from where it begins to the end of the map. -/
theorem findNode_eq (hx : x.service.WellFormed) (k : Bytes) (fuel i : ℕ)
    (hi : i < x.service.serviceMap.length) (hfuel : x.service.serviceMap.length ≤ fuel+i) :
    findNode k fuel (x.moveTo i) (x.service.entryAt i) =
      match (x.service.serviceMap.drop i).findIdx? (x.service.isOf k) with
      | some j => .ok (x.service.entryAt (i+j), x.moveTo (i+j))
      | none => .ok (none, x.moveTo x.service.serviceMap.length) := by
  induction fuel generalizing i with
  | zero => omega
  | succ fuel ih =>
    have hmem : x.service.serviceMap[i] ∈ x.service.serviceMap := List.getElem_mem hi
    have hentry := Service.entryAt_of_lt hi
    rw [List.drop_eq_getElem_cons hi, List.findIdx?_cons]
    unfold findNode
    rw [hentry]
    dsimp only
    rw [show (x.moveTo i).isOf k x.service.serviceMap[i].2 = _ from isOf_eq hx hmem, ok_bind]
    cases hof : x.service.isOf k x.service.serviceMap[i] with
    | true =>
      rw [if_pos rfl, if_pos rfl]
      dsimp only
      rw [Nat.add_zero, hentry]
      rfl
    | false =>
      rw [if_neg Bool.false_ne_true, if_neg Bool.false_ne_true, queryServiceNext_moveTo hx hi,
        ok_bind]
      dsimp only
      rcases Nat.lt_or_ge (i+1) x.service.serviceMap.length with hlt | hge
      · -- the next entry is looked at in turn
        have hnext := ih (i+1) hlt (by omega)
        rw [Service.entryAt_of_lt hlt] at hnext ⊢
        dsimp only
        rw [hnext]
        cases (x.service.serviceMap.drop (i+1)).findIdx? (x.service.isOf k) with
        | none => rfl
        | some j =>
          dsimp only [Option.map_some]
          rw [Nat.add_assoc, Nat.add_comm 1 j]
      · have hlast : i+1 = x.service.serviceMap.length := by omega
        rw [hlast, Service.entryAt_length, List.drop_length]
        rfl

/-- A loop from an entry on does its work for all entries up to the end of the map, in order. -/
theorem walk_eq {α : Type} (body : ℕ → α → Cxx α) (hx : x.service.WellFormed) (fuel i : ℕ)
    (acc : α) (hi : i < x.service.serviceMap.length)
    (hfuel : x.service.serviceMap.length ≤ fuel+i) :
    walk body fuel (x.moveTo i) (x.service.entryAt i) acc =
      ((x.service.serviceMap.drop i).foldlM (fun acc e => body e.2 acc) acc >>= fun acc =>
        .ok (acc, x.moveTo x.service.serviceMap.length)) := by
  induction fuel generalizing i acc with
  | zero => omega
  | succ fuel ih =>
    rw [List.drop_eq_getElem_cons hi, List.foldlM_cons]
    unfold walk
    rw [Service.entryAt_of_lt hi]
    dsimp only
    cases hbody : body x.service.serviceMap[i].2 acc with
    | error e => rfl
    | ok acc' =>
      rw [ok_bind, ok_bind, queryServiceNext_moveTo hx hi, ok_bind]
      dsimp only
      rcases Nat.lt_or_ge (i+1) x.service.serviceMap.length with hlt | hge
      · have hnext := ih (i+1) acc' hlt (by omega)
        rw [Service.entryAt_of_lt hlt] at hnext ⊢
        exact hnext
      · have hlast : i+1 = x.service.serviceMap.length := by omega
        rw [hlast, Service.entryAt_length, List.drop_length]
        rfl

/-- A loop that begins at `end()` advances it. -/
theorem walk_stop {α : Type} (body : ℕ → α → Cxx α) (fuel : ℕ) (acc : α) :
    walk body fuel (x.moveTo x.service.serviceMap.length) none acc = .error .undefined := by
  cases fuel with
  | zero => rfl
  | succ fuel =>
    have hstop : (x.moveTo x.service.serviceMap.length).it = .stop := by
      rw [moveTo, Service.itAt, List.getElem?_eq_none le_rfl]
    have hnext : (x.moveTo x.service.serviceMap.length).queryServiceNext = .error .undefined := by
      unfold queryServiceNext
      rw [hstop]
      dsimp only [Service.position]
      rw [if_neg (lt_irrefl _)]
    unfold walk
    dsimp only
    rw [pure_eq_ok, ok_bind, hnext]
    rfl

end ServiceTable

/-! ### What is registered -/

namespace Service

/-- The names with the nodes they are registered for, none for a local service. -/
def pairs (x : Service) : List (Bytes × Option Bytes) :=
  x.serviceMap.map fun e => (e.1, (x.entries e.2).bind ServiceEntry.pNode)

variable {x : Service} {k name : Bytes}

theorem isOf_iff {e : Bytes × ℕ} :
    x.isOf k e = true ↔ (x.entries e.2).bind ServiceEntry.pNode = some k := by
  rw [isOf]
  cases x.entries e.2 with
  | none => simp
  | some entry => simp

/-- An entry of the node from the name on: the one a loop finds. -/
def Found (x : Service) (k name : Bytes) : Prop := ∃ p ∈ x.pairs, ¬ p.1 < name ∧ p.2 = some k

def HasKey (x : Service) (name : Bytes) : Prop := ∃ p ∈ x.pairs, p.1 = name

theorem hasKey_iff : x.HasKey name ↔ x.find name < x.serviceMap.length := by
  rw [show x.find name = first x.serviceMap name from rfl, first_lt_iff]
  constructor
  · rintro ⟨p, hp, hname⟩
    obtain ⟨e, he, rfl⟩ := List.mem_map.mp hp
    exact ⟨e, he, hname⟩
  · rintro ⟨e, he, hname⟩
    exact ⟨_, List.mem_map_of_mem he, hname⟩

theorem Ordered.found_iff (hx : x.Ordered) (hkey : x.HasKey name) :
    x.Found k name ↔ ∃ e ∈ x.serviceMap.drop (x.find name), x.isOf k e = true := by
  have hlt := hasKey_iff.mp hkey
  have hmem (e : Bytes × ℕ) :
      e ∈ x.serviceMap.drop (x.find name) ↔ e ∈ x.serviceMap ∧ ¬ e.1 < name :=
    hx.sorted.mem_drop_first (· < ·) hlt e
  constructor
  · rintro ⟨p, hp, hle, hk⟩
    obtain ⟨e, he, rfl⟩ := List.mem_map.mp hp
    exact ⟨e, (hmem e).mpr ⟨he, hle⟩, isOf_iff.mpr hk⟩
  · rintro ⟨e, he, hof⟩
    obtain ⟨hin, hle⟩ := (hmem e).mp he
    exact ⟨_, List.mem_map_of_mem hin, hle, isOf_iff.mp hof⟩

theorem pairs_insert (hx : x.WellFormed) {pNew : ℕ} (hnew : x.entries pNew = none)
    (entry : ServiceEntry) :
    (x.insert pNew entry).pairs.Perm ((entry.serviceName, entry.pNode) :: x.pairs) := by
  have hperm := (insertBehind_perm (· < ·) x.serviceMap entry.serviceName pNew).map
    fun e => (e.1, ((x.insert pNew entry).entries e.2).bind ServiceEntry.pNode)
  have hold : x.serviceMap.map (fun e =>
      (e.1, ((x.insert pNew entry).entries e.2).bind ServiceEntry.pNode)) = x.pairs := by
    refine List.map_congr_left fun e he => ?_
    obtain ⟨old, hold, -⟩ := hx.named e he
    have hne : e.2 ≠ pNew := by
      intro h
      rw [h, hnew] at hold
      cases hold
    rw [insert_entries_of_ne x hne]
  rw [List.map_cons, hold, insert_entries_self] at hperm
  exact hperm

theorem pairs_delete (hx : x.WellFormed) {j : ℕ} {e : Bytes × ℕ}
    (hj : x.serviceMap[j]? = some e) :
    pairs ⟨x.serviceMap.eraseIdx j, Function.update x.entries e.2 none⟩ = x.pairs.eraseIdx j := by
  rw [pairs, pairs, List.eraseIdx_map]
  refine List.map_congr_left fun e' he' => ?_
  obtain ⟨-, hne⟩ := (hx.mem_eraseIdx hj e').mp he'
  dsimp only
  rw [Function.update_of_ne hne]

end Service

namespace ServiceTable

variable {x : ServiceTable} {k name : Bytes} {nodes : Nodes} {fd : ℤ} {pNew : ℕ}

/-- A name that is no key leaves the iterator at the end, and the loop advances it. -/
theorem search_absent (hkey : ¬ x.service.HasKey (cstr name)) :
    x.search k name = .error .undefined := by
  have hfind : x.service.find (cstr name) = x.service.serviceMap.length := by
    have hge := mt Service.hasKey_iff.mpr hkey
    have hle : x.service.find (cstr name) ≤ x.service.serviceMap.length := List.findIdx_le_length
    omega
  unfold search queryServiceFirst
  dsimp only [Option.elim_some]
  rw [hfind, Service.entryAt_length, moveTo_service]
  cases hlen : x.service.serviceMap.length with
  | zero => rfl
  | succ n =>
    have hstop : (x.moveTo (n+1)).it = .stop := by
      rw [moveTo, Service.itAt, List.getElem?_eq_none (by omega)]
    have hnext : (x.moveTo (n+1)).queryServiceNext = .error .undefined := by
      unfold queryServiceNext
      rw [hstop]
      dsimp only [Service.position]
      rw [if_neg (lt_irrefl _)]
    unfold findNode
    dsimp only
    rw [pure_eq_ok, ok_bind, if_neg Bool.false_ne_true, hnext]
    rfl

/-- A loop that begins at a key finds the first entry of the node behind it. -/
theorem search_eq (hx : x.service.WellFormed) (hkey : x.service.HasKey (cstr name)) (k : Bytes) :
    x.search k name =
      match (x.service.serviceMap.drop (x.service.find (cstr name))).findIdx?
          (x.service.isOf k) with
      | some j => .ok (x.service.entryAt (x.service.find (cstr name)+j),
          x.moveTo (x.service.find (cstr name)+j))
      | none => .ok (none, x.moveTo x.service.serviceMap.length) := by
  unfold search queryServiceFirst
  dsimp only [Option.elim_some]
  rw [moveTo_service]
  exact findNode_eq hx k _ _ (Service.hasKey_iff.mp hkey) (by omega)

theorem search_none (hx : x.service.Ordered) (hkey : x.service.HasKey (cstr name))
    (hnot : ¬ x.service.Found k (cstr name)) :
    x.search k name = .ok (none, x.moveTo x.service.serviceMap.length) := by
  rw [search_eq hx.toWellFormed hkey]
  have hnone : (x.service.serviceMap.drop (x.service.find (cstr name))).findIdx?
      (x.service.isOf k) = none := by
    rw [List.findIdx?_eq_none_iff]
    intro e he
    rw [Bool.eq_false_iff]
    exact fun hof => hnot ((hx.found_iff hkey).mpr ⟨e, he, hof⟩)
  rw [hnone]

/-- What is found is the entry of the name if the node is registered for that. -/
theorem search_found (hx : x.service.Ordered) (hkey : x.service.HasKey (cstr name))
    (hfound : x.service.Found k (cstr name)) : ∃ j e, x.service.serviceMap[j]? = some e ∧
      x.service.isOf k e = true ∧ ¬ e.1 < cstr name ∧
      ((cstr name, some k) ∈ x.service.pairs → e.1 = cstr name) ∧
      x.search k name = .ok (some e.2, x.moveTo j) := by
  have hlt := Service.hasKey_iff.mp hkey
  have hmem (e : Bytes × ℕ) : e ∈ x.service.serviceMap.drop (x.service.find (cstr name)) ↔
      e ∈ x.service.serviceMap ∧ ¬ e.1 < cstr name := hx.sorted.mem_drop_first (· < ·) hlt e
  obtain ⟨e', he', hof'⟩ := (hx.found_iff hkey).mp hfound
  cases hidx : (x.service.serviceMap.drop (x.service.find (cstr name))).findIdx?
      (x.service.isOf k) with
  | none =>
    rw [List.findIdx?_eq_none_iff] at hidx
    rw [hidx e' he'] at hof'
    cases hof'
  | some j =>
    obtain ⟨hj, hof, hbefore⟩ := List.findIdx?_eq_some_iff_getElem.mp hidx
    rw [List.length_drop] at hj
    have hj' : x.service.find (cstr name)+j < x.service.serviceMap.length := by omega
    have hget : (x.service.serviceMap.drop (x.service.find (cstr name)))[j] =
        x.service.serviceMap[x.service.find (cstr name)+j] := List.getElem_drop
    have hin := (hmem _).mp (List.getElem_mem
      (show j < (x.service.serviceMap.drop (x.service.find (cstr name))).length by
        rw [List.length_drop]; omega))
    rw [hget] at hof hin
    refine ⟨x.service.find (cstr name)+j, _, List.getElem?_eq_getElem hj', hof, hin.2, ?_, ?_⟩
    · intro hreg
      obtain ⟨e, he, heq⟩ := List.mem_map.mp hreg
      have hname : e.1 = cstr name := congrArg Prod.fst heq
      have hofe : x.service.isOf k e = true := Service.isOf_iff.mpr (congrArg Prod.snd heq)
      have hdrop : e ∈ x.service.serviceMap.drop (x.service.find (cstr name)) :=
        (hmem e).mpr ⟨he, by rw [hname]; exact irrefl _⟩
      -- the entry of the name stands at the place that was found or behind it
      obtain ⟨i, hi, rfl⟩ := List.getElem_of_mem hdrop
      have hji : j ≤ i := by
        by_contra hlt'
        have hmiss := hbefore i (by omega)
        rw [hofe] at hmiss
        exact hmiss rfl
      have hle : ¬ (x.service.serviceMap.drop (x.service.find (cstr name)))[i].1 <
          x.service.serviceMap[x.service.find (cstr name)+j].1 := by
        rcases Nat.lt_or_eq_of_le hji with hlt' | rfl
        · have hsorted := List.pairwise_iff_getElem.mp
            (hx.sorted.sublist (· < ·) (List.drop_sublist (x.service.find (cstr name)) _))
          rw [← hget]
          exact hsorted j i _ hi hlt'
        · rw [hget]
          exact irrefl _
      rw [hname] at hle
      exact ((trichotomous_of (· < ·) _ _).resolve_left hin.2).resolve_right hle
    · rw [search_eq hx.toWellFormed hkey, hidx]
      dsimp only
      rw [Service.entryAt_of_lt hj']

end ServiceTable
end MsgCourier
