import MsgCourier.SortedMap
import MsgCourier.Url

/-! `cTuples`, and the way of its map through a stream. -/
namespace MsgCourier
open ListSearch CText

/-- The map is in the order of its keys. -/
structure Tuples where
  tuplesMap : SortedMap Bytes Bytes (· < ·) := {}

namespace Tuples

def addTuple (x : Tuples) (pKey pValue : Bytes) : Tuples where
  tuplesMap := x.tuplesMap.insert (cstr pKey) (cstr pValue)

/-- Two tokens are a tuple, and a last one without its second is dropped. -/
def addTokens (x : Tuples) : List Bytes → Tuples
  | pToken1 :: pToken2 :: tokens => (x.addTuple pToken1 pToken2).addTokens tokens
  | [] | [_] => x

/-- `STRTOK` gives the non-empty texts between the separators, one with each call. -/
def addTupleStream (x : Tuples) (pstring : Bytes) : Tuples :=
  x.addTokens (tokenizer (· = 124) (cstr pstring))

def getTupleStream (x : Tuples) : Bytes :=
  (x.tuplesMap.entries.map fun it => it.1 ++ (bytes "|" ++ (it.2 ++ bytes "|"))).flatten

end Tuples

/-! ### Tokens of a stream -/

/-- A key or a value that a stream can carry. -/
def StreamField (s : Bytes) : Prop := 124 ∉ s ∧ 0 ∉ s

instance (s : Bytes) : Decidable (StreamField s) := inferInstanceAs (Decidable (_ ∧ _))

def entryTokens (e : Bytes × Bytes) : List Bytes := [e.1, e.2].filter (· ≠ [])

/-- The fields of the entries, without the empty ones. -/
def fieldTokens (l : List (Bytes × Bytes)) : List Bytes := (l.map entryTokens).flatten

theorem fieldTokens_cons (e : Bytes × Bytes) (l : List (Bytes × Bytes)) :
    fieldTokens (e :: l) = entryTokens e ++ fieldTokens l := rfl

theorem entryTokens_of_ne_nil {e : Bytes × Bytes} (hkey : e.1 ≠ []) (hvalue : e.2 ≠ []) :
    entryTokens e = [e.1, e.2] := by simp [entryTokens, hkey, hvalue]

theorem length_entryTokens_le (e : Bytes × Bytes) : (entryTokens e).length ≤ 2 :=
  List.length_filter_le _ [e.1, e.2]

theorem length_entryTokens_lt {e : Bytes × Bytes} (h : e.1 = [] ∨ e.2 = []) :
    (entryTokens e).length < 2 := by
  apply lt_of_not_ge
  intro hge
  have hall := List.length_filter_eq_length_iff.mp
    (Nat.le_antisymm (List.length_filter_le _ _) hge : _ = [e.1, e.2].length)
  rcases h with h | h
  · exact absurd h (by simpa using hall e.1 List.mem_cons_self)
  · exact absurd h (by simpa using hall e.2 (List.mem_cons_of_mem _ List.mem_cons_self))

theorem tokenizer_field {s : Bytes} (hs : 124 ∉ s) (r : Bytes) :
    tokenizer (· = 124) (s ++ 124 :: r) = [s].filter (· ≠ []) ++ tokenizer (· = 124) r := by
  have hnone : ∀ b ∈ s, decide (b = 124) = false := by
    intro b hb
    exact decide_eq_false fun h => hs (h ▸ hb)
  rw [tokenizer_append_cons s r (decide_eq_true rfl), tokenizer, List.splitOnP_eq_singleton hnone]

theorem tokenizer_stream {l : List (Bytes × Bytes)} (h : ∀ e ∈ l, 124 ∉ e.1 ∧ 124 ∉ e.2) :
    tokenizer (· = 124) (l.map fun e => e.1 ++ (bytes "|" ++ (e.2 ++ bytes "|"))).flatten =
      fieldTokens l := by
  induction l with
  | nil => rfl
  | cons e l ih =>
    obtain ⟨hkey, hvalue⟩ := h e List.mem_cons_self
    have hbar (s r : Bytes) : s ++ (bytes "|" ++ r) = s ++ 124 :: r := rfl
    rw [List.map_cons, List.flatten_cons, List.append_assoc, List.append_assoc, List.append_assoc,
      hbar, tokenizer_field hkey, hbar, tokenizer_field hvalue,
      ih fun e' he' => h e' (List.mem_cons_of_mem e he'), ← List.append_assoc, fieldTokens_cons,
      entryTokens, ← List.filter_append, List.singleton_append]

theorem zero_notMem_stream {l : List (Bytes × Bytes)} (h : ∀ e ∈ l, 0 ∉ e.1 ∧ 0 ∉ e.2) :
    0 ∉ (l.map fun e => e.1 ++ (bytes "|" ++ (e.2 ++ bytes "|"))).flatten := by
  intro hmem
  obtain ⟨t, ht, h0⟩ := List.mem_flatten.mp hmem
  obtain ⟨e, he, rfl⟩ := List.mem_map.mp ht
  obtain ⟨hkey, hvalue⟩ := h e he
  simp only [List.mem_append] at h0
  rcases h0 with h0 | h0 | h0 | h0
  · exact hkey h0
  · exact absurd h0 (by decide)
  · exact hvalue h0
  · exact absurd h0 (by decide)

theorem length_fieldTokens_le (l : List (Bytes × Bytes)) :
    (fieldTokens l).length ≤ 2*l.length := by
  induction l with
  | nil => exact Nat.le_refl 0
  | cons e l ih =>
    have hentry := length_entryTokens_le e
    rw [fieldTokens_cons, List.length_append, List.length_cons]
    omega

/-- An empty field is a token less. -/
theorem length_fieldTokens_lt {l : List (Bytes × Bytes)} {e : Bytes × Bytes} (he : e ∈ l)
    (hempty : e.1 = [] ∨ e.2 = []) : (fieldTokens l).length < 2*l.length := by
  obtain ⟨before, after, rfl⟩ := List.append_of_mem he
  have hbefore := length_fieldTokens_le before
  have hafter := length_fieldTokens_le after
  have hentry := length_entryTokens_lt hempty
  have hsplit : fieldTokens (before ++ e :: after) =
      fieldTokens before ++ (entryTokens e ++ fieldTokens after) := by
    simp only [fieldTokens, List.map_append, List.map_cons, List.flatten_append,
      List.flatten_cons]
  rw [hsplit]
  simp only [List.length_append, List.length_cons]
  omega

namespace Tuples

/-- A tuple needs two tokens. -/
theorem length_addTokens_le (x : Tuples) (tokens : List Bytes) :
    2*(x.addTokens tokens).tuplesMap.entries.length ≤
      2*x.tuplesMap.entries.length+tokens.length := by
  fun_induction addTokens x tokens with
  | case1 x pToken1 pToken2 tokens ih =>
    have hinsert : (x.addTuple pToken1 pToken2).tuplesMap.entries.length ≤
        x.tuplesMap.entries.length+1 := SortedMap.length_insertEntry_le _ _ _
    rw [List.length_cons, List.length_cons]
    omega
  | case2 x => exact Nat.le_refl _
  | case3 x => exact Nat.le_succ _

/-- Without empty fields every entry is put in again. -/
theorem addTokens_fieldTokens {l : List (Bytes × Bytes)} (h : ∀ e ∈ l, e.1 ≠ [] ∧ e.2 ≠ [])
    (h0 : ∀ e ∈ l, 0 ∉ e.1 ∧ 0 ∉ e.2) (x : Tuples) :
    (x.addTokens (fieldTokens l)).tuplesMap =
      l.foldl (fun m e => m.insert e.1 e.2) x.tuplesMap := by
  induction l generalizing x with
  | nil => rfl
  | cons e l ih =>
    obtain ⟨hkey, hvalue⟩ := h e List.mem_cons_self
    obtain ⟨h0key, h0value⟩ := h0 e List.mem_cons_self
    have htokens : fieldTokens (e :: l) = e.1 :: e.2 :: fieldTokens l := by
      rw [fieldTokens_cons, entryTokens_of_ne_nil hkey hvalue]
      rfl
    have hadd : (x.addTuple e.1 e.2).tuplesMap = x.tuplesMap.insert e.1 e.2 := by
      rw [addTuple, cstr_eq_self h0key, cstr_eq_self h0value]
    rw [htokens, addTokens, ih (fun e' he' => h e' (List.mem_cons_of_mem e he'))
      (fun e' he' => h0 e' (List.mem_cons_of_mem e he')), hadd, List.foldl_cons]

/-- The map comes back from its stream exactly when it has no empty key and no empty value. -/
theorem addTupleStream_getTupleStream_iff (x : Tuples)
    (h : ∀ e ∈ x.tuplesMap.entries, StreamField e.1 ∧ StreamField e.2) :
    (({} : Tuples).addTupleStream x.getTupleStream = x) ↔
      ∀ e ∈ x.tuplesMap.entries, e.1 ≠ [] ∧ e.2 ≠ [] := by
  have hzero : ∀ e ∈ x.tuplesMap.entries, 0 ∉ e.1 ∧ 0 ∉ e.2 :=
    fun e he => ⟨(h e he).1.2, (h e he).2.2⟩
  have hbar : ∀ e ∈ x.tuplesMap.entries, 124 ∉ e.1 ∧ 124 ∉ e.2 :=
    fun e he => ⟨(h e he).1.1, (h e he).2.1⟩
  have htokens : ({} : Tuples).addTupleStream x.getTupleStream =
      ({} : Tuples).addTokens (fieldTokens x.tuplesMap.entries) := by
    rw [addTupleStream, getTupleStream, cstr_eq_self (zero_notMem_stream hzero),
      tokenizer_stream hbar]
  rw [htokens]
  constructor
  · -- with an empty field there are too few tokens for all entries
    intro heq e he
    by_contra hempty
    rw [not_and_or, not_not, not_not] at hempty
    have hlt := length_fieldTokens_lt he hempty
    have hle := length_addTokens_le {} (fieldTokens x.tuplesMap.entries)
    rw [heq] at hle
    change 2*x.tuplesMap.entries.length ≤ 2*0+_ at hle
    omega
  · intro hne
    have hmap := addTokens_fieldTokens hne hzero {}
    rw [show ({} : Tuples).tuplesMap = {} from rfl, SortedMap.foldl_insert_entries] at hmap
    cases x
    exact congrArg Tuples.mk hmap

/-! ### An empty value -/

def emptyValue : Tuples := (({} : Tuples).addTuple (bytes "a") []).addTuple (bytes "b") (bytes "c")

/-- The next key is taken for the value. -/
theorem addTupleStream_emptyValue :
    (({} : Tuples).addTupleStream emptyValue.getTupleStream).tuplesMap.entries =
      [(bytes "a", bytes "b")] := by decide

theorem emptyValue_not_restored : ¬ ∀ x : Tuples,
    (∀ e ∈ x.tuplesMap.entries, StreamField e.1 ∧ StreamField e.2) →
      ({} : Tuples).addTupleStream x.getTupleStream = x := by
  intro hall
  have hentries := addTupleStream_emptyValue
  rw [hall emptyValue (by decide)] at hentries
  exact absurd hentries (by decide)

def threeTuples : Tuples :=
  (((({} : Tuples).addTuple (bytes "b") (bytes "1")).addTuple (bytes "c") (bytes "2 3")).addTuple
    (bytes "a") (bytes "4")).addTuple (bytes "b") (bytes "5")

theorem threeTuples_restored :
    ({} : Tuples).addTupleStream threeTuples.getTupleStream = threeTuples :=
  (addTupleStream_getTupleStream_iff threeTuples (by decide)).mpr (by decide)

end Tuples
end MsgCourier
