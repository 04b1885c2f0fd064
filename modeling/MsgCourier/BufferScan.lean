import MsgCourier.BufferEdit

/-! The two loops of `BinaryFind`, with the positions of the block that they examine. -/
namespace MsgCourier
open ListSearch CText

namespace Buffer

/-! ### The loops -/

/-- The inner loop: it stops at the first difference or at the end of the pattern. -/
def compareAt (mem : Bytes) : Bytes → ℕ → Cxx (Bool × List ℕ)
  | [], _ => pure (true, [])
  | a :: pPattern, i => do
    let d ← peek mem i
    if a = d then do
      let rest ← compareAt mem pPattern (i+1)
      pure (rest.1, i :: rest.2)
    else pure (false, [i])

/-- The outer loop, with the starts that are left; `k` counts from `index` on. -/
def scanFrom (mem pPattern : Bytes) (index : ℕ) : ℕ → ℕ → Cxx (ℤ × List ℕ)
  | 0, _ => pure (-1, [])
  | n+1, k => do
    let here ← compareAt mem pPattern (index+k)
    if here.1 then pure (((k+index : ℕ) : ℤ), here.2)
    else do
      let rest ← scanFrom mem pPattern index n (k+1)
      pure (rest.1, here.2 ++ rest.2)

/-- `BinaryFind` and what it examines: `m_iTail` starts, from `index` on. -/
def binaryFindScan (b : Buffer) (index : ℕ) (pPattern : Bytes) : Cxx (ℤ × List ℕ) :=
  if b.tail = 0 ∨ b.tail < index then pure (-1, [])
  else
    match b.pBuffer with
    | none => .error .undefined
    | some mem => scanFrom mem pPattern index b.tail.toNat 0

/-- The result is the first place of the pattern in the content from `index` on, and no position
at or behind the tail is examined. -/
def FindsExactly (b : Buffer) (index : ℕ) (pPattern : Bytes) : Prop :=
  ∃ seen : List ℕ, b.binaryFindScan index pPattern =
      .ok ((firstOcc pPattern (b.content.drop index)).elim (-1)
        fun k => ((k+index : ℕ) : ℤ), seen) ∧
    ∀ i ∈ seen, (i : ℤ) < b.tail

/-! ### One comparison -/

variable {c junk pat : Bytes}

theorem peek_content {i : ℕ} (hi : i < c.length) (junk : Bytes) :
    peek (c ++ junk) i = .ok (c)[i] := by
  have hlen : (c.take i).length = i := List.length_take_of_le hi.le
  have hpeek := peek_append (c.take i) (c)[i] (c.drop (i+1) ++ junk)
  have hsplit : c.take i ++ (c)[i] :: (c.drop (i+1) ++ junk) = c ++ junk := by
    rw [← List.cons_append, ← List.drop_eq_getElem_cons hi, ← List.append_assoc,
      List.take_append_drop]
  rwa [hlen, hsplit] at hpeek

/-- A comparison that is decided inside the content looks at nothing else. -/
theorem compareAt_inside (junk : Bytes) {i : ℕ}
    (h : c.drop i <+: pat → pat <+: c.drop i) :
    ∃ seen, compareAt (c ++ junk) pat i = .ok (decide (pat <+: c.drop i), seen) ∧
      ∀ p ∈ seen, p < c.length := by
  induction pat generalizing i with
  | nil => exact ⟨[], by rw [compareAt, decide_eq_true List.nil_prefix]; rfl, by simp⟩
  | cons a pat ih =>
    rcases Nat.lt_or_ge i c.length with hlt | hge
    · have hdrop := List.drop_eq_getElem_cons hlt
      unfold compareAt
      rw [peek_content hlt, ok_bind]
      split_ifs with ha
      · -- the first byte agrees, and the question is that for the rest
        have hrest : c.drop (i+1) <+: pat → pat <+: c.drop (i+1) := by
          intro hle
          have hcons := h (by rw [hdrop, ← ha]; exact List.cons_prefix_cons.mpr ⟨rfl, hle⟩)
          rw [hdrop] at hcons
          exact (List.cons_prefix_cons.mp hcons).2
        obtain ⟨seen, hok, hseen⟩ := ih hrest
        have hiff : (a :: pat <+: c.drop i) ↔ (pat <+: c.drop (i+1)) := by
          rw [hdrop, ← ha, List.cons_prefix_cons, and_iff_right rfl]
        refine ⟨i :: seen, ?_, ?_⟩
        · rw [hok, decide_eq_decide.mpr hiff]
          rfl
        · intro p hp
          rcases List.mem_cons.mp hp with rfl | hp
          · exact hlt
          · exact hseen p hp
      · have hnot : ¬ (a :: pat <+: c.drop i) := by
          rw [hdrop]
          exact fun hp => ha (List.cons_prefix_cons.mp hp).1
        refine ⟨[i], by rw [decide_eq_false hnot]; rfl, ?_⟩
        intro p hp
        exact List.mem_singleton.mp hp ▸ hlt
    · have hnil : c.drop i = [] := List.drop_eq_nil_of_le hge
      rw [hnil] at h
      exact absurd (List.prefix_nil.mp (h List.nil_prefix)) (List.cons_ne_nil a pat)

/-- When the content ends with a proper beginning of the pattern, the byte behind it is read. -/
theorem compareAt_beyond {mem : Bytes} (hmem : mem = c ++ junk) {i : ℕ} (hin : c.drop i <+: pat)
    (hnot : ¬ pat <+: c.drop i) {r : Bool × List ℕ} (hok : compareAt mem pat i = .ok r) :
    ∃ p ∈ r.2, c.length ≤ p := by
  induction pat generalizing i r with
  | nil => exact absurd List.nil_prefix hnot
  | cons a pat ih =>
    unfold compareAt at hok
    obtain ⟨d, hpeek, hok⟩ := bind_eq_ok.mp hok
    rcases Nat.lt_or_ge i c.length with hlt | hge
    · have hdrop := List.drop_eq_getElem_cons hlt
      rw [hdrop] at hin hnot
      obtain ⟨hhead, htail⟩ := List.cons_prefix_cons.mp hin
      have hd : a = d := by
        rw [hmem, peek_content hlt] at hpeek
        exact hhead.symm.trans (Except.ok.inj hpeek)
      rw [if_pos hd] at hok
      obtain ⟨rest, hrest, hok⟩ := bind_eq_ok.mp hok
      have hnot' : ¬ pat <+: c.drop (i+1) := by
        intro hp
        exact hnot (List.cons_prefix_cons.mpr ⟨hhead.symm, hp⟩)
      obtain ⟨p, hp, hle⟩ := ih htail hnot' hrest
      rw [← Except.ok.inj hok]
      exact ⟨p, List.mem_cons_of_mem i hp, hle⟩
    · split_ifs at hok
      · obtain ⟨rest, _, hok⟩ := bind_eq_ok.mp hok
        rw [← Except.ok.inj hok]
        exact ⟨i, List.mem_cons_self, hge⟩
      · rw [← Except.ok.inj hok]
        exact ⟨i, List.mem_cons_self, hge⟩

/-! ### The scan -/

/-- Starts without a match that are decided inside the content are passed over. -/
theorem scanFrom_none (junk : Bytes) {index n k : ℕ} (h : ∀ j < k+n, k ≤ j →
      ¬ pat <+: c.drop (index+j) ∧ ¬ c.drop (index+j) <+: pat) :
    ∃ seen, scanFrom (c ++ junk) pat index n k = .ok (-1, seen) ∧ ∀ p ∈ seen, p < c.length := by
  induction n generalizing k with
  | zero => exact ⟨[], rfl, by simp⟩
  | succ n ih =>
    obtain ⟨hnot, hin⟩ := h k (by omega) le_rfl
    obtain ⟨here, hhere, hseen⟩ := compareAt_inside junk fun hp => absurd hp hin
    obtain ⟨rest, hrest, hseen'⟩ := ih (k := k+1) fun j hj hk => h j (by omega) (by omega)
    refine ⟨here ++ rest, ?_, ?_⟩
    · unfold scanFrom
      rw [hhere, ok_bind, decide_eq_false hnot, hrest]
      rfl
    · intro p hp
      rcases List.mem_append.mp hp with hp | hp
      · exact hseen p hp
      · exact hseen' p hp

/-- The first place of the pattern in the content is found before the tail is reached. -/
theorem scanFrom_found (junk : Bytes) (hpat : pat ≠ []) {index n k place : ℕ}
    (hplace : firstOcc pat (c.drop index) = some place) (hk : k ≤ place) (hn : place < k+n) :
    ∃ seen, scanFrom (c ++ junk) pat index n k = .ok (((place+index : ℕ) : ℤ), seen) ∧
      ∀ p ∈ seen, p < c.length := by
  have hle := firstOcc_le pat hplace
  obtain ⟨hmatch, hmin⟩ := (firstOcc_eq_some_iff hpat).mp hplace
  rw [List.drop_drop] at hmatch
  rw [List.length_drop] at hle
  induction n generalizing k with
  | zero => omega
  | succ n ih =>
    unfold scanFrom
    rcases Nat.eq_or_lt_of_le hk with rfl | hlt
    · obtain ⟨here, hhere, hseen⟩ := compareAt_inside junk fun _ => hmatch
      refine ⟨here, ?_, hseen⟩
      rw [hhere, ok_bind, decide_eq_true hmatch]
      rfl
    · have hnot : ¬ pat <+: c.drop (index+k) := by
        rw [← List.drop_drop]
        exact hmin k hlt
      -- more bytes are left in the content than the pattern has
      have hin : ¬ c.drop (index+k) <+: pat := by
        intro hp
        have hlen := hp.length_le
        rw [List.length_drop] at hlen
        omega
      obtain ⟨here, hhere, hseen⟩ := compareAt_inside junk fun hp => absurd hp hin
      obtain ⟨rest, hrest, hseen'⟩ := ih (k := k+1) hlt (by omega)
      refine ⟨here ++ rest, ?_, ?_⟩
      · rw [hhere, ok_bind, decide_eq_false hnot, hrest]
        rfl
      · intro p hp
        rcases List.mem_append.mp hp with hp | hp
        · exact hseen p hp
        · exact hseen' p hp

/-- A scan that stays inside the content and finds nothing has no start from which the content
ends as a proper beginning of the pattern. -/
theorem scanFrom_inv {mem : Bytes} (hmem : mem = c ++ junk) {index n k : ℕ} {seen : List ℕ}
    (hok : scanFrom mem pat index n k = .ok (-1, seen)) (hseen : ∀ p ∈ seen, p < c.length) {j : ℕ}
    (hk : k ≤ j) (hj : j < k+n) (hnot : ¬ pat <+: c.drop (index+j)) :
    ¬ c.drop (index+j) <+: pat := by
  induction n generalizing k seen with
  | zero => omega
  | succ n ih =>
    unfold scanFrom at hok
    obtain ⟨here, hhere, hok⟩ := bind_eq_ok.mp hok
    split_ifs at hok with hfound
    · have hpos := (Prod.mk.inj (Except.ok.inj hok)).1
      omega
    · obtain ⟨rest, hrest, hok⟩ := bind_eq_ok.mp hok
      obtain ⟨hone, rfl⟩ := Prod.mk.inj (Except.ok.inj hok)
      rcases Nat.eq_or_lt_of_le hk with rfl | hlt
      · intro hin
        obtain ⟨p, hp, hle⟩ := compareAt_beyond hmem hin hnot hhere
        have hless := hseen p (List.mem_append_left _ hp)
        omega
      · have hrest' : scanFrom mem pat index n (k+1) = .ok (-1, rest.2) := by
          rw [hrest, ← hone]
        exact ih hrest' (fun p hp => hseen p (List.mem_append_right _ hp)) hlt (by omega)

/-! ### The result -/

theorem compareAt_found {mem : Bytes} {i : ℕ} {r : Bool × List ℕ}
    (hok : compareAt mem pat i = .ok r) : r.1 = true ↔ pat <+: mem.drop i := by
  induction pat generalizing i r with
  | nil =>
    rw [← Except.ok.inj hok]
    exact iff_of_true rfl List.nil_prefix
  | cons a pat ih =>
    unfold compareAt at hok
    obtain ⟨d, hpeek, hok⟩ := bind_eq_ok.mp hok
    have hdrop : mem.drop i = d :: mem.drop (i+1) := by
      unfold peek at hpeek
      rw [Int.toNat_natCast] at hpeek
      cases hget : mem[i]? with
      | none =>
        rw [hget] at hpeek
        cases hpeek
      | some x =>
        rw [hget] at hpeek
        dsimp only at hpeek
        rw [if_pos (Int.natCast_nonneg i)] at hpeek
        obtain ⟨hlt, hx⟩ := List.getElem?_eq_some_iff.mp hget
        rw [List.drop_eq_getElem_cons hlt, hx, Except.ok.inj hpeek]
    rw [hdrop, List.cons_prefix_cons]
    split_ifs at hok with ha
    · obtain ⟨rest, hrest, hok⟩ := bind_eq_ok.mp hok
      rw [← Except.ok.inj hok]
      exact (ih hrest).trans (and_iff_right ha).symm
    · rw [← Except.ok.inj hok]
      exact iff_of_false Bool.false_ne_true fun hp => ha hp.1

/-- A scan that returns reports the first match in the block whose start is one of its starts. -/
theorem scanFrom_result {mem : Bytes} (hpat : pat ≠ []) {index n k : ℕ} {r : ℤ × List ℕ}
    (hok : scanFrom mem pat index n k = .ok r) :
    r.1 = (firstOcc pat (mem.drop (index+k))).elim (-1)
      fun j => if j < n then ((k+j+index : ℕ) : ℤ) else -1 := by
  induction n generalizing k r with
  | zero =>
    rw [← Except.ok.inj hok]
    cases firstOcc pat (mem.drop (index+k)) <;> rfl
  | succ n ih =>
    unfold scanFrom at hok
    obtain ⟨here, hhere, hok⟩ := bind_eq_ok.mp hok
    have hfound := compareAt_found hhere
    split_ifs at hok with hmatch
    · have hzero : firstOcc pat (mem.drop (index+k)) = some 0 := by
        rw [firstOcc_eq_some_iff hpat]
        exact ⟨hfound.mp hmatch, fun j hj => absurd hj (Nat.not_lt_zero j)⟩
      rw [hzero, ← Except.ok.inj hok, Option.elim_some, if_pos (Nat.succ_pos n), add_zero]
    · obtain ⟨rest, hrest, hok⟩ := bind_eq_ok.mp hok
      have hnot : ¬ pat <+: mem.drop (index+k) := fun hp => hmatch (hfound.mpr hp)
      have hshift : firstOcc pat (mem.drop (index+k)) =
          (firstOcc pat (mem.drop (index+(k+1)))).map (· + 1) := by
        have hnext : mem.drop (index+(k+1)) = (mem.drop (index+k)).drop 1 := by
          rw [List.drop_drop, add_assoc]
        rw [hnext]
        cases hrest : mem.drop (index+k) with
        | nil => rw [List.drop_nil, firstOcc, if_neg hpat, Option.map_none]
        | cons a l => rw [firstOcc, if_neg (hrest ▸ hnot), List.drop_one, List.tail_cons]
      rw [← Except.ok.inj hok, hshift]
      dsimp only
      rw [ih hrest]
      cases firstOcc pat (mem.drop (index+(k+1))) with
      | none => rfl
      | some j =>
        dsimp only [Option.map_some, Option.elim_some]
        split_ifs <;> omega

/-- Where the loops stay inside the block their result is the one of the search in the block. -/
theorem binaryFindScan_result {b : Buffer} (hpat : pat ≠ []) {index : ℕ} {r : ℤ × List ℕ}
    (hok : b.binaryFindScan index pat = .ok r) : b.binaryFind index pat = r.1 := by
  unfold binaryFindScan at hok
  unfold Buffer.binaryFind
  split_ifs at hok ⊢ with hempty
  · rw [← Except.ok.inj hok]
  · cases hmem : b.pBuffer with
    | none =>
      rw [hmem] at hok
      cases hok
    | some mem =>
      rw [hmem] at hok
      have hres := scanFrom_result hpat hok
      rw [hres, add_zero, Int.toNat_natCast, Option.getD_some]
      cases firstOcc pat (mem.drop index) with
      | none => rfl
      | some j =>
        dsimp only [Option.elim_some]
        split_ifs <;> omega

/-! ### The whole search -/

variable {b : Buffer}

theorem binaryFindScan_block {mem : Bytes} (h : b.Keeps c) (hmem : b.pBuffer = some mem)
    (hc : c ≠ []) {index : ℕ} (hi : index ≤ c.length) (pat : Bytes) :
    b.binaryFindScan index pat = scanFrom mem pat index c.length 0 := by
  have htail := h.tail_eq
  have hlen := List.length_pos_iff.mpr hc
  have hcond : ¬ (b.tail = 0 ∨ b.tail < index) := by omega
  unfold binaryFindScan
  rw [if_neg hcond, hmem, htail, Int.toNat_natCast]

/-- `BinaryFind` is exact when there is nothing to search, when the pattern is found, and from the
start of a content that ends with no beginning of the pattern. -/
theorem findsExactly_iff (h : b.Keeps c) (hpat : pat ≠ []) {index : ℕ} (hi : index ≤ c.length) :
    b.FindsExactly index pat ↔ c = [] ∨ occursIn pat (c.drop index) = true ∨
      index = 0 ∧ ∀ s, s ≠ [] → s <:+ c → ¬ s <+: pat := by
  have htail := h.tail_eq
  unfold FindsExactly
  rw [h.content_eq, htail]
  rcases eq_or_ne c [] with rfl | hc
  · -- nothing is searched
    have hnone : (firstOcc pat (([] : Bytes).drop index)).elim (-1)
        (fun k => ((k+index : ℕ) : ℤ)) = -1 := by
      rw [List.drop_nil, firstOcc, if_neg hpat]
      rfl
    have hscan : b.binaryFindScan index pat = .ok (-1, []) := if_pos (Or.inl htail)
    rw [hnone]
    exact ⟨fun _ => Or.inl rfl, fun _ => ⟨[], hscan, by simp⟩⟩
  obtain ⟨mem, junk, hmem, hblock⟩ : ∃ mem junk, b.pBuffer = some mem ∧ mem = c ++ junk := by
    cases h with
    | null => exact absurd rfl hc
    | block c junk size hroom hsize hend hs => exact ⟨_, junk, rfl, rfl⟩
  rw [binaryFindScan_block h hmem hc hi]
  have hlen := List.length_pos_iff.mpr hc
  cases hplace : firstOcc pat (c.drop index) with
  | some place =>
    have hle := firstOcc_le pat hplace
    rw [List.length_drop] at hle
    have hpos := List.length_pos_iff.mpr hpat
    obtain ⟨seen, hok, hseen⟩ := scanFrom_found junk hpat hplace (Nat.zero_le _)
      (show place < 0+c.length by omega)
    have hoccurs : occursIn pat (c.drop index) = true := by rw [occursIn, hplace]; rfl
    rw [hblock]
    exact ⟨fun _ => Or.inr (Or.inl hoccurs),
      fun _ => ⟨seen, hok, fun i hi => Int.ofNat_lt.mpr (hseen i hi)⟩⟩
  | none =>
    have hnot (j : ℕ) : ¬ pat <+: c.drop (index+j) := by
      rw [← List.drop_drop]
      exact (firstOcc_eq_none_iff hpat).mp hplace j
    have hoccurs : ¬ occursIn pat (c.drop index) = true := by
      rw [occursIn, hplace]
      exact Bool.false_ne_true
    constructor
    · rintro ⟨seen, hok, hseen⟩
      have hinside (p : ℕ) (hp : p ∈ seen) : p < c.length := Int.ofNat_lt.mp (hseen p hp)
      have h0 : index = 0 := by
        -- otherwise the last starts lie at the tail and behind it
        by_contra h0
        have hend : c.drop (index+(c.length-index)) = [] :=
          List.drop_eq_nil_of_le (by omega)
        have hbeyond := scanFrom_inv hblock hok hinside (Nat.zero_le (c.length-index)) (by omega)
          (hnot _)
        rw [hend] at hbeyond
        exact hbeyond List.nil_prefix
      subst h0
      refine Or.inr (Or.inr ⟨rfl, fun s hs hsuffix => ?_⟩)
      have hpos := List.length_pos_iff.mpr hs
      have hdrop : c.drop (0+(c.length-s.length)) = s := by
        rw [zero_add]
        exact (List.suffix_iff_eq_drop.mp hsuffix).symm
      rw [← hdrop]
      exact scanFrom_inv hblock hok hinside (Nat.zero_le _) (by omega) (hnot _)
    · rintro (hnil | hin | ⟨rfl, hends⟩)
      · exact absurd hnil hc
      · exact absurd hin hoccurs
      · have hpass : ∀ j < 0+c.length, 0 ≤ j → ¬ pat <+: c.drop (0+j) ∧
            ¬ c.drop (0+j) <+: pat := by
          intro j hj _
          refine ⟨hnot j, hends _ ?_ (List.drop_suffix _ _)⟩
          apply List.ne_nil_of_length_pos
          rw [List.length_drop]
          omega
        obtain ⟨seen, hok, hseen⟩ := scanFrom_none junk hpass
        rw [hblock]
        exact ⟨seen, hok, fun i hi => Int.ofNat_lt.mpr (hseen i hi)⟩

theorem findsExactly_inside : (terminated (bytes "a b a b")).FindsExactly 1 (bytes "b") := by
  have hkeeps := keeps_terminated (c := bytes "a b a b") (by decide)
  exact (findsExactly_iff hkeeps (by decide) (by decide)).mpr (Or.inr (Or.inl (by decide)))

/-- The content "ab" of a buffer that held "abc" before, and the pattern "abc": it is found. -/
theorem binaryFind_stale_bytes : ¬ Buffer.FindsExactly ⟨some (bytes "abc" ++ [0]), 4, 2⟩ 0
    (bytes "abc") := by
  have hfound : Buffer.binaryFind ⟨some (bytes "abc" ++ [0]), 4, 2⟩ 0 (bytes "abc") = 0 := by decide
  have hnone : firstOcc (bytes "abc")
      ((content ⟨some (bytes "abc" ++ [0]), 4, 2⟩).drop 0) = none := by decide
  rintro ⟨seen, hok, -⟩
  rw [hnone, Option.elim_none] at hok
  have hres := binaryFindScan_result (by decide) hok
  rw [Nat.cast_zero, hfound] at hres
  cases hres

end Buffer
end MsgCourier
