import MsgCourier.ConnectionCache

/-! The marker of `SetActiveConnections`: consecutive calls take the active list in turns. -/
namespace MsgCourier
open ListSearch CText NodeLists

/-- An element of a list of lists without duplicates is in one of them. -/
theorem existsUnique_mem_of_flatten {α : Type} {L : List (List α)} (h : L.flatten.Nodup) {a : α}
    (ha : a ∈ L.flatten) : ∃! i : ℕ, ∃ l, (L)[i]? = some l ∧ a ∈ l := by
  obtain ⟨l, hl, hal⟩ := List.mem_flatten.mp ha
  obtain ⟨i, hi⟩ := List.getElem?_of_mem hl
  have hdisjoint := (List.nodup_flatten.mp h).2
  rw [List.pairwise_iff_getElem] at hdisjoint
  refine ⟨i, ⟨l, hi, hal⟩, ?_⟩
  intro j hj
  obtain ⟨l', hl', hal'⟩ := hj
  obtain ⟨hilt, rfl⟩ := List.getElem?_eq_some_iff.mp hi
  obtain ⟨hjlt, rfl⟩ := List.getElem?_eq_some_iff.mp hl'
  rcases lt_trichotomy i j with hlt | heq | hlt
  · exact absurd hal' (hdisjoint i j hilt hjlt hlt hal)
  · exact heq.symm
  · exact absurd hal (hdisjoint j i hjlt hilt hlt hal')

/-- The number of rounds for `w` elements, `size` of them a round. -/
theorem rounds_succ {w size : ℕ} (hsize : 0 < size) (hw : size < w) :
    (w+size-1)/size = (w-size+size-1)/size+1 := by
  have hsum : w+size-1 = (w-size+size-1)+size := by omega
  rw [hsum, Nat.add_div_right _ hsize]

theorem rounds_one {w size : ℕ} (h0 : 0 < w) (hw : w ≤ size) : (w+size-1)/size = 1 := by
  have hlow : size*1 ≤ w+size-1 := by omega
  have hhigh : w+size-1 < size*(1+1) := by omega
  exact Nat.div_eq_of_lt_le (by rwa [Nat.mul_comm]) (by rwa [Nat.mul_comm])

/-- The iterator at a part of the list leads back to it. -/
theorem since_itOf {α : Type} {l : NodeList α} {p : ℕ × α} {rest : List (ℕ × α)}
    (h : p :: rest <:+ l.nodes) : l.since (NodeList.itOf (p :: rest)) = some (p :: rest) := by
  obtain ⟨front, hfront⟩ := h
  have hmem : p.1 ∈ l.nodes.map Prod.fst := by
    apply List.mem_map_of_mem
    rw [← hfront]
    exact List.mem_append_right _ List.mem_cons_self
  have hother : ∀ q ∈ front, decide (q.1 ≠ p.1) = true := by
    intro q hq
    have hnodup := l.nodup
    rw [← hfront, List.map_append, List.nodup_append] at hnodup
    have hne := hnodup.2.2 q.1 (List.mem_map_of_mem hq) p.1 (List.mem_map_of_mem List.mem_cons_self)
    exact decide_eq_true hne
  unfold NodeList.itOf NodeList.since
  dsimp only
  rw [if_pos hmem, ← hfront, List.dropWhile_append_of_pos hother, List.dropWhile_cons_of_neg]
  simp

namespace ConnectionCache

/-- The descriptors of the records in the list. -/
def descriptors (x : ConnectionCache) (nodes : List (ℕ × ℤ)) : List ℤ :=
  nodes.map fun p => (x.record p.2).socketfd

/-- The list has waiting records with descriptors of the range that the assertion checks. -/
def AllWaiting (x : ConnectionCache) (nodes : List (ℕ × ℤ)) : Prop :=
  ∀ p ∈ nodes, (x.record p.2).state = .waiting ∧ 0 < (x.record p.2).socketfd ∧
    (x.record p.2).socketfd < 65536

/-- `n` calls of `SetActiveConnections`, each with a cleared set: the sets, and what the calls store
as the largest descriptor. -/
def polls (x : ConnectionCache) (size : ℤ) : ℕ → Cxx (List (FdSet × ℤ) × ConnectionCache)
  | 0 => pure ([], x)
  | n+1 => do
    let (fds, maxsocketfd, x) ← x.setActiveConnections FdSet.zero size
    let (rest, x) ← polls x size n
    pure ((fds, maxsocketfd) :: rest, x)

/-- The same for what the calls pass to `FD_SET`. -/
def selections (x : ConnectionCache) (size : ℤ) : ℕ → Cxx (List (List ℤ × ℤ) × ConnectionCache)
  | 0 => pure ([], x)
  | n+1 => do
    let (fds, maxsocketfd, x) ← x.selectActive size
    let (rest, x) ← selections x size n
    pure ((fds, maxsocketfd) :: rest, x)

variable {x : ConnectionCache}

/-- The loop looks at nothing but the records. -/
theorem loadConnections_congr {y : ConnectionCache} (h : x.connectionMap = y.connectionMap)
    {size count top : ℤ} {nodes : List (ℕ × ℤ)} {fds : FdSet} :
    x.loadConnections size nodes count fds top = y.loadConnections size nodes count fds top := by
  have hrecord (fd : ℤ) : x.record fd = y.record fd := by
    unfold record
    rw [h]
  induction nodes generalizing count fds top with
  | nil => rfl
  | cons p rest ih =>
    unfold loadConnections
    rw [hrecord]
    dsimp only
    simp only [ih]

/-- The largest descriptor of a call. -/
def IsLargest (fds : List ℤ) (maxsocketfd : ℤ) : Prop :=
  maxsocketfd ∈ fds ∧ ∀ fd ∈ fds, fd ≤ maxsocketfd

/-! ### One call -/

/-- The loop takes records until the count is reached, and the marker is left at the next one. -/
theorem selectConnections_waiting {size : ℕ} {nodes : List (ℕ × ℤ)} (hwait : x.AllWaiting nodes)
    {count : ℕ} (hcount : count < size) (fds : List ℤ) (top : ℤ) : ∃ it,
    x.selectConnections size nodes count fds top =
      .ok (fds ++ x.descriptors (nodes.take (size-count)),
        (x.descriptors (nodes.take (size-count))).foldl max top, it,
        NodeList.itOf (nodes.drop (size-count))) := by
  induction nodes generalizing count fds top with
  | nil =>
    refine ⟨.stop, ?_⟩
    rw [List.take_nil, List.drop_nil]
    unfold selectConnections descriptors
    rw [List.map_nil, List.append_nil]
    rfl
  | cons p rest ih =>
    obtain ⟨hstate, hrange⟩ := hwait p List.mem_cons_self
    have hrest : x.AllWaiting rest := fun q hq => hwait q (List.mem_cons_of_mem _ hq)
    obtain ⟨k, hk⟩ : ∃ k, size-count = k+1 := ⟨size-count-1, by omega⟩
    unfold selectConnections
    dsimp only
    rw [if_pos hstate, if_pos hrange, hk, List.take_succ_cons, List.drop_succ_cons]
    by_cases hlast : count+1 = size
    · have hz : (count : ℤ)+1 = size := by exact_mod_cast hlast
      obtain rfl : k = 0 := by omega
      refine ⟨.node p.1, ?_⟩
      rw [if_pos hz]
      rfl
    · have hz : ¬ (count : ℤ)+1 = size := by exact_mod_cast hlast
      have hnext : count+1 < size := by omega
      obtain ⟨it, hload⟩ := ih hrest hnext
        (fds ++ [(x.record p.2).socketfd]) (max top (x.record p.2).socketfd)
      have hleft : size-(count+1) = k := by omega
      rw [hleft] at hload
      refine ⟨it, ?_⟩
      rw [if_neg hz]
      push_cast at hload
      rw [hload, List.append_assoc]
      rfl

/-- A running maximum over positive descriptors is one of them. -/
theorem isLargest_foldl {fds : List ℤ} (hne : fds ≠ []) (hpos : ∀ fd ∈ fds, 0 < fd) :
    IsLargest fds (fds.foldl max 0) := by
  have hfold : ∀ (l : List ℤ) (top : ℤ), l.foldl max top ∈ top :: l ∧
      ∀ fd ∈ top :: l, fd ≤ l.foldl max top := by
    intro l
    induction l with
    | nil =>
      intro top
      exact ⟨List.mem_cons_self, fun fd hfd => (List.mem_singleton.mp hfd).le⟩
    | cons a l ih =>
      intro top
      obtain ⟨hmem, hle⟩ := ih (max top a)
      rw [List.foldl_cons]
      constructor
      · rcases List.mem_cons.mp hmem with heq | hin
        · rw [heq]
          rcases max_choice top a with h | h
          · rw [h]
            exact List.mem_cons_self
          · rw [h]
            exact List.mem_cons_of_mem _ List.mem_cons_self
        · exact List.mem_cons_of_mem _ (List.mem_cons_of_mem _ hin)
      · intro fd hfd
        rcases List.mem_cons.mp hfd with rfl | hfd
        · exact (le_max_left fd a).trans (hle _ List.mem_cons_self)
        · rcases List.mem_cons.mp hfd with rfl | hfd
          · exact (le_max_right top fd).trans (hle _ List.mem_cons_self)
          · exact hle fd (List.mem_cons_of_mem _ hfd)
  obtain ⟨hmem, hle⟩ := hfold fds 0
  refine ⟨?_, fun fd hfd => hle fd (List.mem_cons_of_mem _ hfd)⟩
  rcases List.mem_cons.mp hmem with hzero | hin
  · obtain ⟨fd, hfd⟩ := List.exists_mem_of_ne_nil fds hne
    have hbelow := hle fd (List.mem_cons_of_mem _ hfd)
    have habove := hpos fd hfd
    omega
  · exact hin

/-- A call from the marker on takes at most `size` records, and the marker moves behind them. -/
theorem selectActive_waiting {size : ℕ} (hsize : 0 < size) {nodes : List (ℕ × ℤ)}
    (hne : nodes ≠ []) (hsuffix : nodes <:+ x.activeConnectionList.nodes)
    (hwait : x.AllWaiting nodes) (hfirst : x.firstToLoad = some nodes) : ∃ top it,
    IsLargest (x.descriptors (nodes.take size)) top ∧
    x.selectActive size = .ok (x.descriptors (nodes.take size), top,
      { x with it, itIncompleteMarker := NodeList.itOf (nodes.drop size) }) := by
  obtain ⟨it, hload⟩ := selectConnections_waiting hwait hsize [] 0
  rw [Nat.sub_zero, List.nil_append] at hload
  have hlist : x.activeConnectionList.nodes ≠ [] := by
    intro hnil
    rw [hnil, List.suffix_nil] at hsuffix
    exact hne hsuffix
  have hsome : x.descriptors (nodes.take size) ≠ [] := by
    unfold descriptors
    rw [Ne, List.map_eq_nil_iff, List.take_eq_nil_iff]
    intro h
    exact h.elim hsize.ne' hne
  have hpos : ∀ fd ∈ x.descriptors (nodes.take size), 0 < fd := by
    intro fd hfd
    obtain ⟨p, hp, rfl⟩ := List.mem_map.mp hfd
    exact (hwait p (List.mem_of_mem_take hp)).2.1
  refine ⟨_, it, isLargest_foldl hsome hpos, ?_⟩
  unfold selectActive
  rw [if_neg hlist, hfirst]
  dsimp only
  rw [Nat.cast_zero] at hload
  rw [hload]
  rfl

/-! ### The calls in turn -/

/-- What the calls put into the set, a list for each call. -/
structure InTurns (fds : List ℤ) (size : ℕ) (rounds : List (List ℤ × ℤ)) : Prop where
  /-- Together they are all the descriptors, in the order of the list. -/
  order : (rounds.map Prod.fst).flatten = fds
  bound : ∀ r ∈ rounds, r.1.length ≤ size
  largest : ∀ r ∈ rounds, IsLargest r.1 r.2

theorem InTurns.cons {fds : List ℤ} {size : ℕ} {rounds : List (List ℤ × ℤ)} {top : ℤ}
    (h : InTurns (fds.drop size) size rounds) (htop : IsLargest (fds.take size) top) :
    InTurns fds size ((fds.take size, top) :: rounds) := by
  refine ⟨?_, ?_, ?_⟩
  · rw [List.map_cons, List.flatten_cons, h.order, List.take_append_drop]
  · intro r hr
    rcases List.mem_cons.mp hr with rfl | hr
    · exact List.length_take_le _ _
    · exact h.bound r hr
  · intro r hr
    rcases List.mem_cons.mp hr with rfl | hr
    · exact htop
    · exact h.largest r hr

/-- From a marker on, the calls for the rest of the list end with the marker at the end. The
induction is on the length of this rest. -/
theorem selections_waiting {size : ℕ} (hsize : 0 < size) {w : ℕ} {nodes : List (ℕ × ℤ)}
    (hw : nodes.length = w) (hne : nodes ≠ []) (hsuffix : nodes <:+ x.activeConnectionList.nodes)
    (hwait : x.AllWaiting nodes) (hfirst : x.firstToLoad = some nodes) : ∃ rounds it,
    x.selections size ((w+size-1)/size) = .ok (rounds, { x with it, itIncompleteMarker := .stop }) ∧
      InTurns (x.descriptors nodes) size rounds := by
  induction w using Nat.strong_induction_on generalizing x nodes with
  | _ w ih =>
    obtain ⟨top, it, htop, hcall⟩ := selectActive_waiting hsize hne hsuffix hwait hfirst
    have htake : x.descriptors (nodes.take size) = (x.descriptors nodes).take size := List.map_take
    have hdrop : x.descriptors (nodes.drop size) = (x.descriptors nodes).drop size := List.map_drop
    rw [htake] at htop hcall
    have hpos : 0 < w := hw ▸ List.length_pos_iff.mpr hne
    by_cases hlast : w ≤ size
    · have hnil : nodes.drop size = [] := List.drop_eq_nil_of_le (hw ▸ hlast)
      rw [hnil] at hcall
      refine ⟨[((x.descriptors nodes).take size, top)], it, ?_, ?_⟩
      · rw [rounds_one hpos hlast]
        unfold selections
        rw [hcall]
        rfl
      · apply InTurns.cons _ htop
        rw [← hdrop, hnil]
        exact ⟨rfl, fun r hr => absurd hr List.not_mem_nil, fun r hr => absurd hr List.not_mem_nil⟩
    · have hmore : size < w := not_le.mp hlast
      have hrest : nodes.drop size ≠ [] := by
        rw [Ne, List.drop_eq_nil_iff, hw]
        exact hlast
      have hsuffix' : nodes.drop size <:+ x.activeConnectionList.nodes :=
        (List.drop_suffix size nodes).trans hsuffix
      obtain ⟨p, rest, hp⟩ := List.exists_cons_of_ne_nil hrest
      -- the marker is at the first of the nodes that are left
      have hmarker : firstToLoad
          { x with it, itIncompleteMarker := NodeList.itOf (nodes.drop size) } =
          some (nodes.drop size) := by
        have hnot : NodeList.itOf (nodes.drop size) ≠ .stop := by
          rw [hp]
          exact fun h => nomatch h
        unfold firstToLoad
        rw [if_neg hnot]
        dsimp only
        rw [hp] at hsuffix' ⊢
        exact since_itOf hsuffix'
      have hshort : w-size < w := by omega
      have hlength : (nodes.drop size).length = w-size := by
        rw [List.length_drop, hw]
      obtain ⟨rounds, it', hrounds, hturns⟩ := ih (w-size) hshort
        (x := { x with it, itIncompleteMarker := NodeList.itOf (nodes.drop size) })
        hlength hrest hsuffix' (fun q hq => hwait q (List.mem_of_mem_drop hq)) hmarker
      refine ⟨((x.descriptors nodes).take size, top) :: rounds, it', ?_, ?_⟩
      · rw [rounds_succ hsize hmore]
        unfold selections
        rw [hcall, ok_bind]
        dsimp only
        rw [hrounds]
        rfl
      · apply InTurns.cons _ htop
        rw [← hdrop]
        exact hturns

/-! ### The sets -/

/-- The loop only adds to what it has passed to `FD_SET`. -/
theorem selectConnections_prefix {size count top : ℤ} {nodes : List (ℕ × ℤ)} {fds : List ℤ}
    {r : List ℤ × ℤ × It × It} (h : x.selectConnections size nodes count fds top = .ok r) :
    fds <+: r.1 := by
  induction nodes generalizing count fds top with
  | nil =>
    obtain rfl := Except.ok.inj h
    exact List.prefix_refl _
  | cons p rest ih =>
    unfold selectConnections at h
    dsimp only at h
    split_ifs at h
    · obtain rfl := Except.ok.inj h
      exact List.prefix_append _ _
    · exact (List.prefix_append _ _).trans (ih h)
    · exact ih h

/-- The loop fills a set exactly if every descriptor that it selects has a bit. -/
theorem loadConnections_eq_ok_iff {size count top top' : ℤ} {nodes : List (ℕ × ℤ)} {s s' : FdSet}
    {it marker : It} : x.loadConnections size nodes count s top = .ok (s', top', it, marker) ↔
      x.selectConnections size nodes count s.fds top = .ok (s'.fds, top', it, marker) := by
  induction nodes generalizing count s top with
  | nil =>
    obtain ⟨fds, hfds⟩ := s
    obtain ⟨fds', hfds'⟩ := s'
    simp [loadConnections, selectConnections]
  | cons p rest ih =>
    unfold loadConnections selectConnections
    dsimp only
    by_cases hwait : (x.record p.2).state = .waiting
    · rw [if_pos hwait, if_pos hwait]
      by_cases hrange : 0 < (x.record p.2).socketfd ∧ (x.record p.2).socketfd < 65536
      · rw [if_pos hrange, if_pos hrange]
        by_cases hbit : 0 ≤ (x.record p.2).socketfd ∧ (x.record p.2).socketfd < fdSetSize
        · unfold FdSet.set
          rw [dif_pos hbit, ok_bind]
          by_cases hlast : count+1 = size
          · rw [if_pos hlast, if_pos hlast]
            obtain ⟨fds', hfds'⟩ := s'
            simp
          · rw [if_neg hlast, if_neg hlast, ih]
        · unfold FdSet.set
          rw [dif_neg hbit, error_bind]
          refine iff_of_false (fun h => nomatch h) fun h => hbit ?_
          -- the descriptor would be in the set
          have hgiven : s.fds ++ [(x.record p.2).socketfd] <+: s'.fds := by
            split_ifs at h
            · rw [(Prod.mk.inj (Except.ok.inj h)).1]
            · exact selectConnections_prefix h
          exact s'.inRange _ (hgiven.subset (List.mem_append_right _ List.mem_cons_self))
      · rw [if_neg hrange, if_neg hrange]
        exact iff_of_false (fun h => nomatch h) fun h => nomatch h
    · rw [if_neg hwait, if_neg hwait, ih]

theorem setActiveConnections_of_select {size top : ℤ} {s : FdSet} {y : ConnectionCache}
    (h : x.selectActive size = .ok (s.fds, top, y)) :
    x.setActiveConnections FdSet.zero size = .ok (s, top, y) := by
  unfold selectActive at h
  unfold setActiveConnections
  split_ifs at h ⊢
  · obtain ⟨fds, hfds⟩ := s
    obtain ⟨rfl, rfl, rfl⟩ := h
    rfl
  · split at h
    · cases h
    · obtain ⟨⟨fds, top', it, marker⟩, hload, h⟩ := bind_eq_ok.mp h
      obtain ⟨rfl, rfl, rfl⟩ := h
      rw [loadConnections_eq_ok_iff.mpr hload]
      rfl

/-- Calls that select only descriptors with a bit fill their sets. -/
theorem polls_of_selections {size : ℤ} {n : ℕ} {rounds : List (List ℤ × ℤ)} {y : ConnectionCache}
    (h : x.selections size n = .ok (rounds, y))
    (hbits : ∀ r ∈ rounds, ∀ fd ∈ r.1, 0 ≤ fd ∧ fd < fdSetSize) : ∃ sets,
    x.polls size n = .ok (sets, y) ∧ sets.map (fun r => (r.1.fds, r.2)) = rounds := by
  induction n generalizing x rounds with
  | zero =>
    obtain ⟨rfl, rfl⟩ := h
    exact ⟨[], rfl, rfl⟩
  | succ n ih =>
    obtain ⟨⟨fds, top, z⟩, hselect, h⟩ := bind_eq_ok.mp h
    obtain ⟨⟨rest, w⟩, hrest, h⟩ := bind_eq_ok.mp h
    obtain ⟨rfl, rfl⟩ := h
    obtain ⟨sets, hsets, hmap⟩ := ih hrest fun r hr => hbits r (List.mem_cons_of_mem _ hr)
    have hset := setActiveConnections_of_select (s := ⟨fds, hbits _ List.mem_cons_self⟩) hselect
    refine ⟨(⟨fds, hbits _ List.mem_cons_self⟩, top) :: sets, ?_, congrArg ((fds, top) :: ·) hmap⟩
    unfold polls
    rw [hset, ok_bind]
    dsimp only
    rw [hsets]
    rfl

/-- As many calls as the list has parts of `size` records put every record into one of the sets, in
the order of the list, and the call behind them is again the first one. -/
def TakesTurns (x : ConnectionCache) (size : ℕ) : Prop :=
  let fds := x.descriptors x.activeConnectionList.nodes
  ∃ rounds y, x.polls size ((fds.length+size-1)/size) = .ok (rounds, y) ∧
    InTurns fds size (rounds.map fun r => (r.1.fds, r.2)) ∧
    (∀ fd ∈ fds, ∃! i : ℕ, ∃ r, (rounds)[i]? = some r ∧ fd ∈ r.1.fds) ∧
    y.setActiveConnections FdSet.zero size = x.setActiveConnections FdSet.zero size

theorem TakesTurns.bits {size : ℕ} (h : x.TakesTurns size) :
    ∀ fd ∈ x.descriptors x.activeConnectionList.nodes, fd < fdSetSize := by
  intro fd hfd
  obtain ⟨rounds, y, -, hturns, -⟩ := h
  rw [← hturns.order, List.mem_flatten] at hfd
  obtain ⟨l, hl, hfd⟩ := hfd
  rw [List.map_map] at hl
  obtain ⟨r, -, rfl⟩ := List.mem_map.mp hl
  exact (r.1.inRange fd hfd).2

/-- The calls take the list in turns exactly if every descriptor has a bit in the set. -/
theorem takesTurns_iff {size : ℕ} (hsize : 1 ≤ size) (hne : x.activeConnectionList.nodes ≠ [])
    (hwait : x.AllWaiting x.activeConnectionList.nodes)
    (hdistinct : (x.descriptors x.activeConnectionList.nodes).Nodup)
    (hmarker : x.itIncompleteMarker = .stop) :
    x.TakesTurns size ↔ ∀ fd ∈ x.descriptors x.activeConnectionList.nodes, fd < fdSetSize := by
  constructor
  · intro h
    exact h.bits
  intro hbits
  have hfirst : x.firstToLoad = some x.activeConnectionList.nodes := if_pos hmarker
  have hlength : (x.descriptors x.activeConnectionList.nodes).length =
      x.activeConnectionList.nodes.length := List.length_map _
  obtain ⟨rounds, it, hrounds, hturns⟩ :=
    selections_waiting hsize rfl hne (List.suffix_refl _) hwait hfirst
  have hin : ∀ r ∈ rounds, ∀ fd ∈ r.1, fd ∈ x.descriptors x.activeConnectionList.nodes := by
    intro r hr fd hfd
    rw [← hturns.order]
    exact List.mem_flatten.mpr ⟨r.1, List.mem_map_of_mem hr, hfd⟩
  have hpos : ∀ fd ∈ x.descriptors x.activeConnectionList.nodes, 0 ≤ fd := by
    intro fd hfd
    obtain ⟨p, hp, rfl⟩ := List.mem_map.mp hfd
    exact (hwait p hp).2.1.le
  obtain ⟨sets, hsets, rfl⟩ := polls_of_selections hrounds fun r hr fd hfd =>
    ⟨hpos fd (hin r hr fd hfd), hbits fd (hin r hr fd hfd)⟩
  rw [← hlength] at hsets
  refine ⟨sets, _, hsets, hturns, ?_, ?_⟩
  · intro fd hfd
    have hnodup : (sets.map fun r => r.1.fds).flatten.Nodup := by
      have horder := hturns.order
      rw [List.map_map] at horder
      exact horder.symm ▸ hdistinct
    have hflat : fd ∈ (sets.map fun r => r.1.fds).flatten := by
      have horder := hturns.order
      rw [List.map_map] at horder
      exact horder.symm ▸ hfd
    obtain ⟨i, ⟨l, hl, hmem⟩, hunique⟩ := existsUnique_mem_of_flatten hnodup hflat
    rw [List.getElem?_map, Option.map_eq_some_iff] at hl
    obtain ⟨r, hr, rfl⟩ := hl
    refine ⟨i, ⟨r, hr, hmem⟩, ?_⟩
    intro j hj
    obtain ⟨r', hr', hmem'⟩ := hj
    apply hunique j
    refine ⟨r'.1.fds, ?_, hmem'⟩
    rw [List.getElem?_map, hr']
    rfl
  · -- behind the last call the marker is at the end, as before the first one
    have hagain : firstToLoad { x with it, itIncompleteMarker := .stop } = x.firstToLoad :=
      hfirst.symm
    unfold setActiveConnections
    dsimp only
    rw [if_neg hne, if_neg hne, hagain, hfirst]
    dsimp only
    rw [loadConnections_congr (x := { x with it, itIncompleteMarker := .stop }) (y := x) rfl]

/-- Three accepted connections, two in a call. -/
theorem takesTurns_three : ∃ x : ConnectionCache,
    x.descriptors x.activeConnectionList.nodes = [7, 5, 9] ∧ x.TakesTurns 2 := by
  let x : ConnectionCache :=
    { activeConnectionList := ((NodeList.empty.pushBack 7).pushBack 5).pushBack 9
      connectionMap := fun fd => some { socketfd := fd, state := .waiting } }
  have hwait : x.AllWaiting x.activeConnectionList.nodes := by
    unfold AllWaiting
    decide
  have hbits : ∀ fd ∈ x.descriptors x.activeConnectionList.nodes, fd < fdSetSize := by decide
  exact ⟨x, rfl, (takesTurns_iff (by decide) (by decide) hwait (by decide) rfl).mpr hbits⟩

/-- The only record waits for descriptor 1024. -/
theorem not_takesTurns_beyond : ¬ ∀ (x : ConnectionCache) (size : ℕ), 1 ≤ size →
    x.activeConnectionList.nodes ≠ [] → x.AllWaiting x.activeConnectionList.nodes →
    (x.descriptors x.activeConnectionList.nodes).Nodup → x.itIncompleteMarker = .stop →
      x.TakesTurns size := by
  intro h
  let x : ConnectionCache :=
    { activeConnectionList := NodeList.empty.pushBack 1024
      connectionMap := fun fd => some { socketfd := fd, state := .waiting } }
  have hwait : x.AllWaiting x.activeConnectionList.nodes := by
    unfold AllWaiting
    decide
  have hturns := h x 1024 (by decide) (by decide) hwait (by decide) rfl
  exact absurd (hturns.bits 1024 List.mem_cons_self) (by decide)

end ConnectionCache
end MsgCourier
