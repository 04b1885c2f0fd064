import MsgCourier.Presence

/-! The answer to `PEER.LIST`: the loop over the entries of a service. -/
namespace MsgCourier
open ListSearch CText SortedEntries Runs

namespace PeerRegistry

/-- The node of an entry is dereferenced without a check. -/
def appendPeer (s : PeerRegistry) (pEntry : ℕ) (sList : Bytes) : Cxx Bytes :=
  match (s.service.entries pEntry).bind ServiceEntry.pNode with
  | none => .error .undefined
  | some key =>
    match s.presence key with
    | none => .error .undefined
    | some node =>
      pure (if node.status = .active then sList ++ (cstr node.ipAddress ++ bytes ":3400\n")
        else sList)

def peerList (s : PeerRegistry) (subject : Bytes) : Cxx (Bytes × ServiceTable) :=
  let (pEntry, x) := s.table.queryServiceFirst (some subject)
  x.walk s.appendPeer x.service.serviceMap.length pEntry []

end PeerRegistry

/-- The list becomes the payload of the reply. -/
def Msg.peerListReply [Malloc] (reply : Msg) (sList : Bytes) : Cxx Msg := do
  let reply ← { reply with
    msgContentType := bytes "text/s-expression"
    msgContentLength := sList.length }.setContentPayload (some (sList ++ [0])) sList.length
  pure { reply with msgResponseCode := 200 }

namespace PeerRegistry

/-! ### What the list is for -/

def peerLine (s : PeerRegistry) (p : Bytes × Option Bytes) : Bytes :=
  match p.2.bind s.presence with
  | none => []
  | some node => if node.status = .active then cstr node.ipAddress ++ bytes ":3400\n" else []

/-- The addresses of the active nodes that are registered for a service, in registry order. -/
def peers (s : PeerRegistry) (subject : Bytes) : Bytes :=
  (s.service.pairs.filter fun p => p.1 = cstr subject).flatMap s.peerLine

/-- The service is a key of the map, and from it on the map has no local service and no larger
name with an active node. -/
structure Listable (s : PeerRegistry) (subject : Bytes) : Prop where
  hasKey : s.service.HasKey (cstr subject)
  remote : ∀ p ∈ s.service.pairs, ¬ p.1 < cstr subject → p.2 ≠ none
  last : ∀ p ∈ s.service.pairs, cstr subject < p.1 → ∀ node, p.2.bind s.presence = some node →
    node.status ≠ .active

/-! ### One entry after the other -/

variable (s : PeerRegistry)

/-- An entry of the map as a pair of `pairs`. -/
def pairOf (e : Bytes × ℕ) : Bytes × Option Bytes :=
  (e.1, (s.service.entries e.2).bind ServiceEntry.pNode)

theorem pairs_eq : s.service.pairs = s.service.serviceMap.map s.pairOf := rfl

theorem appendPeer_local {e : Bytes × ℕ} (h : (s.pairOf e).2 = none) (sList : Bytes) :
    s.appendPeer e.2 sList = .error .undefined := by
  unfold appendPeer
  rw [show (s.service.entries e.2).bind ServiceEntry.pNode = none from h]

theorem appendPeer_remote {e : Bytes × ℕ} (he : e ∈ s.service.serviceMap)
    (h : (s.pairOf e).2 ≠ none) (sList : Bytes) :
    s.appendPeer e.2 sList = .ok (sList ++ s.peerLine (s.pairOf e)) := by
  obtain ⟨key, hkey⟩ := Option.ne_none_iff_exists'.mp h
  have hmem : (e.1, some key) ∈ s.service.pairs := by
    rw [pairs_eq, ← hkey]
    exact List.mem_map_of_mem he
  obtain ⟨node, hnode⟩ : ∃ node, s.presence key = some node := by
    have hknown := s.inv.known e.1 key hmem
    exact Option.isSome_iff_exists.mp (s.presence.sockets_isSome key ▸ hknown)
  unfold appendPeer peerLine
  rw [show (s.service.entries e.2).bind ServiceEntry.pNode = some key from hkey, hkey]
  dsimp only [Option.bind_some]
  rw [hnode]
  dsimp only
  split_ifs
  · rfl
  · rw [List.append_nil]
    rfl

/-- The loop over remote entries collects their lines. -/
theorem foldl_remote {l : List (Bytes × ℕ)} (hl : ∀ e ∈ l, e ∈ s.service.serviceMap)
    (hremote : ∀ e ∈ l, (s.pairOf e).2 ≠ none) (sList : Bytes) :
    l.foldlM (fun sList e => s.appendPeer e.2 sList) sList =
      .ok (sList ++ (l.map s.pairOf).flatMap s.peerLine) := by
  induction l generalizing sList with
  | nil =>
    rw [List.foldlM_nil, List.map_nil, List.flatMap_nil, List.append_nil]
    rfl
  | cons e l ih =>
    rw [List.foldlM_cons,
      s.appendPeer_remote (hl e List.mem_cons_self) (hremote e List.mem_cons_self), ok_bind,
      ih (fun e he => hl e (List.mem_cons_of_mem _ he))
        fun e he => hremote e (List.mem_cons_of_mem _ he),
      List.map_cons, List.flatMap_cons, List.append_assoc]

/-- The loop dereferences the absent node of the first local entry. -/
theorem foldl_local {l : List (Bytes × ℕ)} (hl : ∀ e ∈ l, e ∈ s.service.serviceMap)
    {e : Bytes × ℕ} (he : e ∈ l) (hlocal : (s.pairOf e).2 = none) (sList : Bytes) :
    l.foldlM (fun sList e => s.appendPeer e.2 sList) sList = .error .undefined := by
  induction l generalizing sList with
  | nil => cases he
  | cons e' l ih =>
    rw [List.foldlM_cons]
    by_cases hfirst : (s.pairOf e').2 = none
    · rw [s.appendPeer_local hfirst, error_bind]
    · rw [s.appendPeer_remote (hl e' List.mem_cons_self) hfirst, ok_bind]
      refine ih (fun e he => hl e (List.mem_cons_of_mem _ he)) ?_ _
      refine (List.mem_cons.mp he).resolve_left ?_
      rintro rfl
      exact hfirst hlocal

end PeerRegistry

/-- Leaving elements out changes the concatenation exactly if one of them is not empty. -/
theorem flatMap_filter_eq_iff {α β : Type*} (l : List α) (p : α → Bool) (f : α → List β) :
    l.flatMap f = (l.filter p).flatMap f ↔ ∀ a ∈ l, p a = false → f a = [] := by
  induction l with
  | nil => simp
  | cons a l ih =>
    rw [List.forall_mem_cons, List.flatMap_cons]
    refine Iff.trans ?_ (and_congr_right' ih)
    cases hp : p a with
    | true =>
      rw [List.filter_cons_of_pos hp, List.flatMap_cons, List.append_cancel_left_eq]
      simp
    | false =>
      rw [List.filter_cons_of_neg (by simp [hp])]
      constructor
      · intro heq
        have hsum := congrArg List.length heq
        rw [List.length_append] at hsum
        have hle : ((l.filter p).flatMap f).length ≤ (l.flatMap f).length :=
          (List.filter_sublist.flatMap f).length_le
        have hnil : f a = [] := List.length_eq_zero_iff.mp (by omega)
        rw [hnil, List.nil_append] at heq
        exact ⟨fun _ => hnil, heq⟩
      · intro ⟨hnil, heq⟩
        rw [hnil rfl, List.nil_append, heq]

namespace PeerRegistry

variable (s : PeerRegistry) {subject : Bytes}

/-! ### The whole list -/

/-- The entries that the loop visits. -/
def visited (subject : Bytes) : List (Bytes × ℕ) :=
  s.service.serviceMap.drop (s.service.find (cstr subject))

theorem peerList_eq (hkey : s.service.HasKey (cstr subject)) :
    s.peerList subject =
      ((s.visited subject).foldlM (fun sList e => s.appendPeer e.2 sList) [] >>= fun sList =>
        .ok (sList, s.table.moveTo s.service.serviceMap.length)) :=
  ServiceTable.walk_eq s.appendPeer s.inv.ordered.toWellFormed _ _ []
    (Service.hasKey_iff.mp hkey) (Nat.le_add_right _ _)

theorem peerList_absent (hkey : ¬ s.service.HasKey (cstr subject)) :
    s.peerList subject = .error .undefined := by
  have hfind : s.service.find (cstr subject) = s.service.serviceMap.length := by
    have hge := mt Service.hasKey_iff.mpr hkey
    have hle : s.service.find (cstr subject) ≤ s.service.serviceMap.length :=
      List.findIdx_le_length
    omega
  have hfirst : s.table.queryServiceFirst (some subject) =
      (none, s.table.moveTo s.service.serviceMap.length) := by
    unfold ServiceTable.queryServiceFirst
    dsimp only [Option.elim_some]
    rw [show s.table.service.find (cstr subject) = s.service.serviceMap.length from hfind]
    exact congrArg (·, _) (Service.entryAt_length s.service)
  unfold peerList
  rw [hfirst]
  exact ServiceTable.walk_stop s.appendPeer _ []

theorem mem_visited (hkey : s.service.HasKey (cstr subject)) (e : Bytes × ℕ) :
    e ∈ s.visited subject ↔ e ∈ s.service.serviceMap ∧ ¬ e.1 < cstr subject :=
  s.inv.ordered.sorted.mem_drop_first (· < ·) (Service.hasKey_iff.mp hkey) e

/-- The list as it should be, from the entries that the loop visits. -/
theorem peers_eq (subject : Bytes) :
    s.peers subject =
      ((s.visited subject).filter fun e => e.1 = cstr subject).flatMap
        fun e => s.peerLine (s.pairOf e) := by
  unfold peers visited
  rw [show s.service.find (cstr subject) = first s.service.serviceMap (cstr subject) from rfl,
    filter_drop_first, pairs_eq, List.filter_map, List.flatMap_map]
  rfl

/-- For every registry and every service, the list is as it should be, and the loop sound, exactly
if the service can be listed. -/
theorem peerList_iff (subject : Bytes) :
    (∃ x, s.peerList subject = .ok (s.peers subject, x)) ↔ s.Listable subject := by
  by_cases hkey : s.service.HasKey (cstr subject)
  · by_cases hremote : ∀ e ∈ s.visited subject, (s.pairOf e).2 ≠ none
    · have hlist : s.peerList subject =
          .ok ((s.visited subject).flatMap fun e => s.peerLine (s.pairOf e),
            s.table.moveTo s.service.serviceMap.length) := by
        rw [s.peerList_eq hkey,
          s.foldl_remote (fun e he => ((s.mem_visited hkey e).mp he).1) hremote, ok_bind,
          List.nil_append, List.flatMap_map]
      -- the list is right exactly if the larger names add nothing
      have hlarger := flatMap_filter_eq_iff (s.visited subject)
        (fun e => e.1 = cstr subject) fun e => s.peerLine (s.pairOf e)
      rw [← s.peers_eq subject] at hlarger
      rw [hlist]
      constructor
      · rintro ⟨x, hok⟩
        have hpeers := hlarger.mp (Prod.mk.inj (Except.ok.inj hok)).1
        refine ⟨hkey, ?_, ?_⟩
        · intro p hp hle
          obtain ⟨e, he, rfl⟩ := List.mem_map.mp hp
          exact hremote e ((s.mem_visited hkey e).mpr ⟨he, hle⟩)
        · intro p hp hlt node hnode hactive
          obtain ⟨e, he, rfl⟩ := List.mem_map.mp hp
          have hin := (s.mem_visited hkey e).mpr ⟨he, fun h => asymm h hlt⟩
          have hnil := hpeers e hin (decide_eq_false fun h => irrefl _ (h ▸ hlt))
          rw [peerLine, show (s.pairOf e).2.bind s.presence = some node from hnode] at hnil
          dsimp only at hnil
          rw [if_pos hactive, List.append_eq_nil_iff] at hnil
          exact absurd hnil.2 (by decide)
      · intro h
        refine ⟨_, congrArg Except.ok (Prod.ext (hlarger.mpr fun e he hne => ?_) rfl)⟩
        obtain ⟨hmem, hle⟩ := (s.mem_visited hkey e).mp he
        have hlt : cstr subject < e.1 := by
          have hcases := trichotomous_of (fun a b : Bytes => a < b) e.1 (cstr subject)
          exact (hcases.resolve_left hle).resolve_left (of_decide_eq_false hne)
        have hlast := h.last (s.pairOf e) (List.mem_map_of_mem hmem) hlt
        unfold peerLine
        cases hnode : (s.pairOf e).2.bind s.presence with
        | none => rfl
        | some node => exact if_neg (hlast node hnode)
    · -- a local entry comes up
      push Not at hremote
      obtain ⟨e, he, hlocal⟩ := hremote
      obtain ⟨hmem, hle⟩ := (s.mem_visited hkey e).mp he
      refine iff_of_false ?_ fun h =>
        h.remote (s.pairOf e) (List.mem_map_of_mem hmem) hle hlocal
      rintro ⟨x, hok⟩
      rw [s.peerList_eq hkey,
        s.foldl_local (fun e he => ((s.mem_visited hkey e).mp he).1) he hlocal,
        error_bind] at hok
      cases hok
  · refine iff_of_false ?_ fun h => hkey h.hasKey
    rintro ⟨x, hok⟩
    rw [s.peerList_absent hkey] at hok
    cases hok

/-- The registry of a server that has one local service and knows no other node. -/
def localRegistry (name : Bytes) : PeerRegistry where
  table := ({} : ServiceTable).registerLocalService (cstr name) 0
  presence _ := none
  inv := by
    have hcall : ServiceCall { nodes := fun _ => none } (.registerLocal name 0)
        { table := ({} : ServiceTable).registerLocalService (cstr name) 0 } :=
      .returns rfl rfl
    exact ServiceState.Inv.run (.snoc .nil hcall)

/-- The peers of the local service "MC" are asked for. -/
theorem peerList_of_local :
    ¬ ∃ x, (localRegistry (bytes "MC")).peerList (bytes "MC") =
      .ok ((localRegistry (bytes "MC")).peers (bytes "MC"), x) := by
  rintro ⟨x, hok⟩
  have hlist : (localRegistry (bytes "MC")).peerList (bytes "MC") = .error .undefined := rfl
  rw [hlist] at hok
  cases hok

end PeerRegistry

/-- A reply from the pool gets the list as its payload. -/
theorem Msg.peerListReply_ok [Malloc] {reply : Msg} {old : Bytes} (hold : reply.msgBuffer.Holds old)
    {sList : Bytes} (hfit : reply.msgBuffer.reset.Fits sList.length) :
    ∃ b, b.Holds sList ∧ reply.peerListReply sList = .ok
      { reply with
        msgContentType := bytes "text/s-expression"
        msgContentLength := sList.length
        msgBuffer := b
        pPayload := if b.pBuffer = none then .null else .own 0
        msgResponseCode := 200 } := by
  have hlen : sList.length ≤ (sList ++ [0]).length := by simp
  obtain ⟨b, hb, hholds, -⟩ := hold.replaceWith (sList ++ [0]) hlen hfit
  rw [List.take_left] at hholds
  refine ⟨b, hholds, ?_⟩
  unfold Msg.peerListReply Msg.setContentPayload
  dsimp only
  rw [hb]
  rfl

end MsgCourier
