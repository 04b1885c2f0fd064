import Mathlib.Data.List.Basic
import Mathlib.Order.Defs.Unbundled

/-! Maps as lists of entries with strictly increasing keys. -/

structure SortedMap (κ α : Type*) (lt : κ → κ → Prop) where
  entries : List (κ × α) := []
  sorted : entries.Pairwise fun e e' => lt e.1 e'.1 := by exact List.Pairwise.nil

namespace SortedMap

variable {κ α : Type*} {lt : κ → κ → Prop}

theorem ext_entries {m m' : SortedMap κ α lt} (h : m.entries = m'.entries) : m = m' := by
  cases m
  cases m'
  cases h
  rfl

/-- The value of an entry with the same key is replaced. -/
def insertEntry (lt : κ → κ → Prop) [DecidableRel lt] (k : κ) (a : α) :
    List (κ × α) → List (κ × α)
  | [] => [(k, a)]
  | e :: l =>
    if lt e.1 k then e :: insertEntry lt k a l
    else if lt k e.1 then (k, a) :: e :: l
    else (k, a) :: l

section Insert

variable [DecidableRel lt]

theorem mem_insertEntry {k : κ} {a : α} {l : List (κ × α)} {e : κ × α}
    (he : e ∈ insertEntry lt k a l) : e = (k, a) ∨ e ∈ l := by
  induction l with
  | nil => exact .inl (List.mem_singleton.mp he)
  | cons b l ih =>
    unfold insertEntry at he
    split_ifs at he
    · rcases List.mem_cons.mp he with rfl | he
      · exact .inr List.mem_cons_self
      · exact (ih he).imp id (List.mem_cons_of_mem b)
    · exact List.mem_cons.mp he
    · exact (List.mem_cons.mp he).imp id (List.mem_cons_of_mem b)

theorem length_insertEntry_le (k : κ) (a : α) (l : List (κ × α)) :
    (insertEntry lt k a l).length ≤ l.length+1 := by
  induction l with
  | nil => exact Nat.le_refl 1
  | cons b l ih =>
    unfold insertEntry
    split_ifs
    · exact Nat.succ_le_succ ih
    · exact Nat.le_refl _
    · exact Nat.le_succ _

/-- A key above all others comes last. -/
theorem insertEntry_last {k : κ} (a : α) {l : List (κ × α)} (h : ∀ e ∈ l, lt e.1 k) :
    insertEntry lt k a l = l ++ [(k, a)] := by
  induction l with
  | nil => rfl
  | cons b l ih =>
    rw [insertEntry, if_pos (h b List.mem_cons_self),
      ih fun e he => h e (List.mem_cons_of_mem b he),
      List.cons_append]

variable [IsStrictTotalOrder κ lt]

theorem pairwise_insertEntry {l : List (κ × α)} (h : l.Pairwise fun e e' => lt e.1 e'.1) (k : κ)
    (a : α) : (insertEntry lt k a l).Pairwise fun e e' => lt e.1 e'.1 := by
  induction l with
  | nil => exact List.pairwise_singleton _ _
  | cons b l ih =>
    obtain ⟨hb, hl⟩ := List.pairwise_cons.mp h
    unfold insertEntry
    split_ifs with hlt hgt
    · refine List.pairwise_cons.mpr ⟨fun e he => ?_, ih hl⟩
      rcases mem_insertEntry he with rfl | he
      · exact hlt
      · exact hb e he
    · refine List.pairwise_cons.mpr ⟨fun e he => ?_, h⟩
      rcases List.mem_cons.mp he with rfl | he
      · exact hgt
      · exact trans_of lt hgt (hb e he)
    · -- neither key is smaller
      have heq : k = b.1 := ((trichotomous_of lt k b.1).resolve_left hgt).resolve_right hlt
      exact List.pairwise_cons.mpr ⟨fun e he => heq ▸ hb e he, hl⟩

def insert (m : SortedMap κ α lt) (k : κ) (a : α) : SortedMap κ α lt where
  entries := insertEntry lt k a m.entries
  sorted := pairwise_insertEntry m.sorted k a

theorem entries_insert_last {m : SortedMap κ α lt} {k : κ} (h : ∀ e ∈ m.entries, lt e.1 k) (a : α) :
    (m.insert k a).entries = m.entries ++ [(k, a)] := insertEntry_last a h

theorem key_mem_insertEntry (k : κ) (a : α) (l : List (κ × α)) (k' : κ) :
    k' ∈ (insertEntry lt k a l).map Prod.fst ↔ k' = k ∨ k' ∈ l.map Prod.fst := by
  induction l with
  | nil => simp [insertEntry]
  | cons b l ih =>
    unfold insertEntry
    split_ifs with hlt hgt
    · rw [List.map_cons, List.mem_cons, ih, List.map_cons, List.mem_cons, or_left_comm]
    · rw [List.map_cons, List.mem_cons]
    · -- the entry of the key is replaced
      have heq : k = b.1 := ((trichotomous_of lt k b.1).resolve_left hgt).resolve_right hlt
      rw [List.map_cons, List.mem_cons, List.map_cons, List.mem_cons, ← heq, ← or_assoc, or_self]

theorem key_mem_insert (m : SortedMap κ α lt) (k : κ) (a : α) (k' : κ) :
    k' ∈ (m.insert k a).entries.map Prod.fst ↔ k' = k ∨ k' ∈ m.entries.map Prod.fst :=
  key_mem_insertEntry k a m.entries k'

/-- The entries of a map, put one by one into an empty one, make the same map. -/
theorem foldl_insert_entries (m : SortedMap κ α lt) :
    m.entries.foldl (fun m' e => m'.insert e.1 e.2) {} = m := by
  have hfront (l r : List (κ × α)) (h : (l ++ r).Pairwise fun e e' => lt e.1 e'.1)
      (m' : SortedMap κ α lt) (hm' : m'.entries = l) :
      (r.foldl (fun m' e => m'.insert e.1 e.2) m').entries = l ++ r := by
    induction r generalizing l m' with
    | nil => rw [List.append_nil, List.foldl_nil, hm']
    | cons e r ih =>
      have hbefore : ∀ e' ∈ m'.entries, lt e'.1 e.1 := fun e' he' =>
        (List.pairwise_append.mp h).2.2 e' (hm' ▸ he') e List.mem_cons_self
      have hstep := ih (l ++ [e]) (by rwa [List.append_assoc, List.singleton_append])
        (m'.insert e.1 e.2) (by rw [entries_insert_last hbefore, hm'])
      rw [List.foldl_cons, hstep, List.append_assoc, List.singleton_append]
  exact ext_entries (hfront [] m.entries m.sorted {} rfl)

end Insert

section Lookup

variable [DecidableEq κ]

def lookup (m : SortedMap κ α lt) (k : κ) : Option α :=
  (m.entries.find? fun e => e.1 = k).map Prod.snd

theorem find_cons_of_eq {e : κ × α} {k : κ} (h : e.1 = k) (l : List (κ × α)) :
    (e :: l).find? (fun e => e.1 = k) = some e :=
  List.find?_cons_of_pos (p := fun e : κ × α => decide (e.1 = k)) (decide_eq_true h)

theorem find_cons_of_ne {e : κ × α} {k : κ} (h : e.1 ≠ k) (l : List (κ × α)) :
    (e :: l).find? (fun e => e.1 = k) = l.find? fun e => e.1 = k :=
  List.find?_cons_of_neg (p := fun e : κ × α => decide (e.1 = k)) (by simpa using h)

theorem mem_entries_iff [IsStrictTotalOrder κ lt] {m : SortedMap κ α lt} {k : κ} {a : α} :
    (k, a) ∈ m.entries ↔ m.lookup k = some a := by
  obtain ⟨l, hl⟩ := m
  unfold lookup
  dsimp only
  induction l with
  | nil => simp
  | cons e l ih =>
    obtain ⟨hfirst, hrest⟩ := List.pairwise_cons.mp hl
    rw [List.mem_cons]
    by_cases hk : e.1 = k
    · have hnot : (k, a) ∉ l := fun hmem =>
        irrefl_of lt k (hk ▸ hfirst (k, a) hmem)
      rw [find_cons_of_eq hk, Option.map_some, Option.some_inj, or_iff_left hnot]
      constructor
      · exact fun h => (congrArg Prod.snd h).symm
      · exact fun h => Prod.ext hk.symm h.symm
    · rw [find_cons_of_ne hk, ← ih hrest]
      exact or_iff_right fun h => hk (congrArg Prod.fst h).symm

section Insert

variable [DecidableRel lt] [IsStrictTotalOrder κ lt]

theorem lookup_insert_self (m : SortedMap κ α lt) (k : κ) (a : α) :
    (m.insert k a).lookup k = some a := by
  change ((insertEntry lt k a m.entries).find? fun e => e.1 = k).map Prod.snd = some a
  induction m.entries with
  | nil => simp [insertEntry]
  | cons b l ih =>
    unfold insertEntry
    split_ifs with hlt
    · have hne : b.1 ≠ k := fun h => irrefl_of lt k (h ▸ hlt)
      rw [find_cons_of_ne hne, ih]
    · exact congrArg _ (find_cons_of_eq rfl _)
    · exact congrArg _ (find_cons_of_eq rfl _)

theorem lookup_insert_of_ne (m : SortedMap κ α lt) {k k' : κ} (h : k' ≠ k) (a : α) :
    (m.insert k a).lookup k' = m.lookup k' := by
  change ((insertEntry lt k a m.entries).find? fun e => e.1 = k').map Prod.snd = _
  unfold lookup
  have hskip (l : List (κ × α)) :
      ((k, a) :: l).find? (fun e => e.1 = k') = l.find? fun e => e.1 = k' :=
    find_cons_of_ne h.symm l
  induction m.entries with
  | nil => exact congrArg _ (hskip [])
  | cons b l ih =>
    unfold insertEntry
    split_ifs with hlt hgt
    · by_cases hb : b.1 = k'
      · rw [find_cons_of_eq hb, find_cons_of_eq hb]
      · rw [find_cons_of_ne hb, find_cons_of_ne hb, ih]
    · rw [hskip]
    · -- the entry that is replaced has another key
      have heq : k = b.1 := ((trichotomous_of lt k b.1).resolve_left hgt).resolve_right hlt
      rw [hskip, find_cons_of_ne fun hb => h (heq.trans hb).symm]

end Insert

end Lookup

section MapValues

variable {β : Type*}

def mapValues (f : α → β) (m : SortedMap κ α lt) : SortedMap κ β lt where
  entries := m.entries.map fun e => (e.1, f e.2)
  sorted := List.pairwise_map.mpr m.sorted

theorem lookup_mapValues [DecidableEq κ] (f : α → β) (m : SortedMap κ α lt) (k : κ) :
    (m.mapValues f).lookup k = (m.lookup k).map f := by
  change ((m.entries.map fun e => (e.1, f e.2)).find? fun e => e.1 = k).map Prod.snd = _
  rw [List.find?_map, lookup, Option.map_map, Option.map_map]
  rfl

end MapValues

end SortedMap
