import MsgCourier.BufferContent

/-! Text in a block of memory: single bytes, copies and moves inside the block, and scans that
stop at a byte of some kind. -/
namespace MsgCourier
open ListSearch CText

/-! ### Access -/

def peek (mem : Bytes) (i : ℤ) : Cxx Byte :=
  match mem[i.toNat]? with
  | some b => if 0 ≤ i then .ok b else .error .undefined
  | none => .error .undefined

def poke (mem : Bytes) (i : ℕ) (b : Byte) : Cxx Bytes := store mem i [b]

def memmove (mem : Bytes) (dst src n : ℕ) : Cxx Bytes := do
  let moved ← fetch mem src n
  store mem dst moved

/-- `n` bytes are written: the text up to that length and NULs behind it. -/
def strncpy (mem src : Bytes) (n : ℕ) : Cxx Bytes :=
  store mem 0 ((cstr src).take n ++ List.replicate (n-(cstr src).length) 0)

def strcpy (mem src : Bytes) : Cxx Bytes := do
  let n ← strlen src
  store mem 0 (src.take n.toNat ++ [0])

/-- `strstr` from an index on; without a terminator it runs out of the block. -/
def strstrAt (mem : Bytes) (i : ℕ) (pat : Bytes) : Cxx (Option ℕ) := do
  let _ ← strlen (mem.drop i)
  pure (strstr (mem.drop i) pat)

theorem store_zero {mem src : Bytes} (h : src.length ≤ mem.length) :
    store mem 0 src = .ok (src ++ mem.drop src.length) := by
  have hstore := store_ok (show 0+src.length ≤ mem.length by omega)
  rwa [List.take_zero, List.nil_append, Nat.zero_add] at hstore

theorem peek_append (u : Bytes) (a : Byte) (v : Bytes) : peek (u ++ a :: v) u.length = .ok a := by
  have hget : (u ++ a :: v)[(u.length : ℤ).toNat]? = some a := by simp
  unfold peek
  rw [hget]
  exact if_pos (Int.natCast_nonneg _)

theorem peek_neg {mem : Bytes} {i : ℤ} (hi : i < 0) : peek mem i = .error .undefined := by
  unfold peek
  cases mem[i.toNat]? with
  | none => rfl
  | some b => exact if_neg (by omega)

theorem poke_append (u : Bytes) (a : Byte) (v : Bytes) (b : Byte) :
    poke (u ++ a :: v) u.length b = .ok (u ++ b :: v) := by
  have hroom : u.length+[b].length ≤ (u ++ a :: v).length := by simp
  unfold poke
  rw [store_ok hroom]
  simp

theorem poke_fail {mem : Bytes} {i : ℕ} (b : Byte) (hi : mem.length ≤ i) :
    poke mem i b = .error .undefined := by
  apply Buffer.store_fail
  simp only [List.length_cons, List.length_nil]
  omega

theorem poke_lt {mem : Bytes} {i : ℕ} (hi : i < mem.length) (b : Byte) : ∃ mem',
    poke mem i b = .ok mem' ∧ mem'.length = mem.length ∧ mem'.take (i+1) = mem.take i ++ [b] := by
  have hlen : (mem.take i).length = i := List.length_take_of_le hi.le
  have hpoke := poke_append (mem.take i) mem[i] (mem.drop (i+1)) b
  rw [hlen, ← List.drop_eq_getElem_cons hi, List.take_append_drop] at hpoke
  refine ⟨_, hpoke, ?_, ?_⟩
  · rw [List.length_append, List.length_cons, List.length_drop, hlen]
    omega
  · have htake : (mem.take i ++ [b] ++ mem.drop (i+1)).take (mem.take i ++ [b]).length =
        mem.take i ++ [b] := List.take_left
    rwa [List.length_append, hlen, List.length_singleton, List.append_assoc] at htake

theorem length_of_poke {mem mem' : Bytes} {i : ℕ} {b : Byte} (h : poke mem i b = .ok mem') :
    mem'.length = mem.length := (Buffer.store_length h).1

/-- A part of the block is moved to the front of what stands before it. -/
theorem memmove_append (u g v w : Bytes) :
    memmove (u ++ (g ++ (v ++ w))) u.length (u.length+g.length) v.length =
      .ok (u ++ (v ++ (g ++ (v ++ w)).drop v.length)) := by
  have hsrc : fetch (u ++ (g ++ (v ++ w))) (u.length+g.length : ℕ) v.length = .ok v := by
    rw [fetch_ok (by simp only [List.length_append]; omega), ← List.drop_drop, List.drop_left,
      List.drop_left, List.take_left]
  unfold memmove
  rw [hsrc, ok_bind, store_ok (by simp only [List.length_append]; omega), List.take_left,
    List.append_assoc, ← List.drop_drop, List.drop_left]

/-! ### Text -/

/-- The block starts with the text and its terminator. -/
inductive TextBlock : Bytes → Bytes → Prop
  | mk (t junk : Bytes) (h0 : 0 ∉ t) : TextBlock (t ++ 0 :: junk) t

namespace TextBlock

variable {mem t : Bytes}

theorem zero_notMem (h : TextBlock mem t) : 0 ∉ t := by
  cases h with
  | mk _ junk h0 => exact h0

theorem cstr_eq (h : TextBlock mem t) : cstr mem = t := by
  cases h with
  | mk _ junk h0 => rw [cstr_append h0, cstr, List.takeWhile_cons_of_neg (by simp), List.append_nil]

theorem strlen_eq (h : TextBlock mem t) : strlen mem = .ok t.length := by
  have hzero : 0 ∈ mem := by
    cases h with
    | mk _ junk h0 => simp
  unfold strlen
  rw [if_pos hzero, h.cstr_eq]

theorem length_lt (h : TextBlock mem t) : t.length < mem.length := by
  cases h with
  | mk _ junk h0 => simp

theorem peek_eq (h : TextBlock mem t) {i : ℕ} (hi : i ≤ t.length) :
    peek mem i = .ok ((t.drop i).headD 0) := by
  cases h with
  | mk _ junk h0 =>
    have hlen : (t.take i).length = i := List.length_take_of_le hi
    have hget {a : Byte} {v : Bytes} (ht : t.drop i ++ 0 :: junk = a :: v) :
        peek (t ++ 0 :: junk) i = .ok a := by
      have hpeek := peek_append (t.take i) a v
      rwa [hlen, ← ht, ← List.append_assoc, List.take_append_drop] at hpeek
    cases hdrop : t.drop i with
    | nil => exact hget (by rw [hdrop]; rfl)
    | cons a v => exact hget (by rw [hdrop]; rfl)

theorem peek_zero (h : TextBlock mem t) : peek mem 0 = .ok (t.headD 0) := by
  exact h.peek_eq (Nat.zero_le _)

theorem strstrAt_append {w : Bytes} (h : TextBlock mem t) (pat : Bytes) :
    strstrAt (w ++ mem) w.length pat = .ok (firstOcc pat t) := by
  unfold strstrAt strstr
  rw [List.drop_left, h.strlen_eq, ok_bind, h.cstr_eq]
  rfl

/-- What stands before an index becomes the text. -/
theorem of_poke {i : ℕ} (hi : i < mem.length) : ∃ mem', poke mem i 0 = .ok mem' ∧
    mem'.length = mem.length ∧ TextBlock mem' (cstr (mem.take i)) := by
  have hlen : (mem.take i).length = i := List.length_take_of_le hi.le
  have hpoke := poke_append (mem.take i) mem[i] (mem.drop (i+1)) 0
  rw [hlen, ← List.drop_eq_getElem_cons hi, List.take_append_drop] at hpoke
  refine ⟨_, hpoke, length_of_poke hpoke, ?_⟩
  obtain ⟨r, hr⟩ := cstr_split (mem.take i)
  cases r with
  | nil =>
    rw [List.append_nil] at hr
    rw [← hr]
    exact .mk _ _ (hr ▸ zero_notMem_cstr _)
  | cons b r =>
    -- the bytes before the index have a terminator themselves
    have hb : b = 0 := by
      have hdrop := List.takeWhile_append_dropWhile (p := fun c : Byte => decide (c ≠ 0))
        (l := mem.take i)
      have hrest : (mem.take i).dropWhile (fun c : Byte => decide (c ≠ 0)) = b :: r := by
        have heq : cstr (mem.take i) ++ (mem.take i).dropWhile (fun c : Byte => decide (c ≠ 0)) =
            cstr (mem.take i) ++ b :: r := by
          rw [← hr]
          exact hdrop
        exact List.append_cancel_left heq
      have hnot := List.head_dropWhile_not (fun c : Byte => decide (c ≠ 0))
        (show (mem.take i).dropWhile _ ≠ [] by rw [hrest]; exact List.cons_ne_nil b r)
      simp only [hrest, List.head_cons] at hnot
      simpa using hnot
    subst hb
    have hblock : mem.take i ++ 0 :: mem.drop (i+1) =
        cstr (mem.take i) ++ 0 :: (r ++ 0 :: mem.drop (i+1)) := by
      calc
        mem.take i ++ 0 :: mem.drop (i+1) =
            cstr (mem.take i) ++ 0 :: r ++ 0 :: mem.drop (i+1) := by rw [← hr]
        _ = cstr (mem.take i) ++ 0 :: (r ++ 0 :: mem.drop (i+1)) := by
          rw [List.append_assoc, List.cons_append]
    rw [hblock]
    exact .mk _ _ (zero_notMem_cstr _)

/-- A text ends earlier. -/
theorem poke_zero (h : TextBlock mem t) {i : ℕ} (hi : i ≤ t.length) :
    ∃ mem', poke mem i 0 = .ok mem' ∧ mem'.length = mem.length ∧ TextBlock mem' (t.take i) := by
  cases h with
  | mk _ junk h0 =>
    have htake : 0 ∉ t.take i := fun hin => h0 (List.mem_of_mem_take hin)
    have hlen : (t.take i).length = i := List.length_take_of_le hi
    cases hdrop : t.drop i with
    | nil =>
      have ht : t.take i = t := by
        calc
          t.take i = t.take i ++ t.drop i := by rw [hdrop, List.append_nil]
          _ = t := List.take_append_drop i t
      rw [ht] at hlen htake ⊢
      have hpoke := poke_append t 0 junk 0
      rw [hlen] at hpoke
      exact ⟨_, hpoke, rfl, .mk t junk htake⟩
    | cons a v =>
      have ht : t ++ 0 :: junk = t.take i ++ a :: (v ++ 0 :: junk) := by
        calc
          t ++ 0 :: junk = t.take i ++ t.drop i ++ 0 :: junk := by rw [List.take_append_drop]
          _ = t.take i ++ a :: (v ++ 0 :: junk) := by
            rw [hdrop, List.append_assoc, List.cons_append]
      have hpoke := poke_append (t.take i) a (v ++ 0 :: junk) 0
      rw [hlen, ← ht] at hpoke
      exact ⟨_, hpoke, length_of_poke hpoke, .mk _ _ htake⟩

end TextBlock

/-! ### Copies -/

namespace TextBlock

variable {mem src t : Bytes}

theorem drop (h : TextBlock mem t) {i : ℕ} (hi : i ≤ t.length) :
    TextBlock (mem.drop i) (t.drop i) := by
  cases h with
  | mk _ junk h0 =>
    rw [List.drop_append_of_le_length hi]
    exact .mk _ _ fun hin => h0 (List.mem_of_mem_drop hin)

/-- The start of a text is copied and terminated. -/
theorem strncpy_poke (h : TextBlock src t) {n : ℕ} (hn : n ≤ t.length) (mem : Bytes) :
    if n < mem.length then ∃ p copied, strncpy mem src n = .ok copied ∧ poke copied n 0 = .ok p ∧
      p.length = mem.length ∧ TextBlock p (t.take n)
    else (strncpy mem src n >>= fun copied => poke copied n 0) = .error .undefined := by
  have hlen : (t.take n).length = n := List.length_take_of_le hn
  -- the text goes on at least up to there, so nothing is filled up with NULs
  have hcopy : strncpy mem src n = store mem 0 (t.take n) := by
    unfold strncpy
    rw [h.cstr_eq, Nat.sub_eq_zero_of_le hn, List.replicate_zero, List.append_nil]
  rw [hcopy]
  split_ifs with hroom
  · have hstore := store_zero (show (t.take n).length ≤ mem.length by omega)
    obtain ⟨b, w, hw⟩ := List.exists_cons_of_length_pos
      (show 0 < (mem.drop (t.take n).length).length by rw [List.length_drop]; omega)
    rw [hw] at hstore
    have hpoke := poke_append (t.take n) b w 0
    rw [hlen] at hpoke
    refine ⟨_, _, hstore, hpoke, ?_, .mk _ w fun hin => h.zero_notMem (List.mem_of_mem_take hin)⟩
    have hcount := congrArg List.length hw
    rw [List.length_drop, List.length_cons] at hcount
    rw [List.length_append, List.length_cons]
    omega
  · by_cases hfit : mem.length = n
    · have hstore := store_zero (show (t.take n).length ≤ mem.length by omega)
      rw [hstore, ok_bind]
      apply poke_fail
      rw [List.length_append, List.length_drop]
      omega
    · rw [Buffer.store_fail (by omega)]
      rfl

theorem strcpy_eq (h : TextBlock src t) (hroom : t.length < mem.length) :
    ∃ mem', strcpy mem src = .ok mem' ∧ mem'.length = mem.length ∧ TextBlock mem' t := by
  have htake : src.take t.length = t := by
    cases h with
    | mk _ junk _ => exact List.take_left
  have hstore := store_zero (show (t ++ [0]).length ≤ mem.length by
    rw [List.length_append, List.length_singleton]; omega)
  unfold strcpy
  rw [h.strlen_eq, ok_bind, Int.toNat_natCast, htake]
  refine ⟨_, hstore, (Buffer.store_length hstore).1, ?_⟩
  rw [List.append_assoc]
  exact .mk _ _ h.zero_notMem

end TextBlock

/-! ### Moves -/

namespace TextBlock

variable {mem t : Bytes}

/-- The text from index `k` on is moved to the front and terminated there. -/
theorem shift (h : TextBlock mem t) {k : ℕ} (hk : k ≤ t.length) : ∃ moved mem',
    memmove mem 0 k (t.length-k) = .ok moved ∧ poke moved (t.length-k) 0 = .ok mem' ∧
      mem'.length = mem.length ∧ TextBlock mem' (t.drop k) := by
  cases h with
  | mk _ junk h0 =>
    have hlen : (t.take k).length = k := List.length_take_of_le hk
    have hrest : (t.drop k).length = t.length-k := List.length_drop
    have hmove := memmove_append [] (t.take k) (t.drop k) (0 :: junk)
    rw [List.nil_append, List.nil_append, ← List.append_assoc, List.take_append_drop, hrest, hlen,
      List.length_nil, zero_add] at hmove
    -- something is left behind the part that is moved, at least the terminator
    have hbehind : ((t ++ 0 :: junk).drop (t.length-k)).length = k+1+junk.length := by
      rw [List.length_drop, List.length_append, List.length_cons]
      omega
    obtain ⟨b, w, hw⟩ := List.exists_cons_of_length_pos
      (show 0 < ((t ++ 0 :: junk).drop (t.length-k)).length by omega)
    have hpoke := poke_append (t.drop k) b w 0
    rw [hrest, ← hw] at hpoke
    refine ⟨_, _, hmove, hpoke, ?_, .mk _ w fun hin => h0 (List.mem_of_mem_drop hin)⟩
    have hcount := congrArg List.length hw
    rw [hbehind, List.length_cons] at hcount
    simp only [List.length_append, List.length_cons, hrest]
    omega

/-- A byte of the text is taken out. -/
theorem take_out {u : Bytes} {a : Byte} {v : Bytes} (h : TextBlock mem (u ++ a :: v)) :
    ∃ mem', memmove mem u.length (u.length+1) ((u ++ a :: v).length-u.length) = .ok mem' ∧
      mem'.length = mem.length ∧ TextBlock mem' (u ++ v) := by
  cases h with
  | mk _ junk h0 =>
    have hblock : u ++ a :: v ++ 0 :: junk = u ++ ([a] ++ ((v ++ [0]) ++ junk)) := by simp
    have hcount : (u ++ a :: v).length-u.length = (v ++ [0]).length := by simp
    have hmove := memmove_append u [a] (v ++ [0]) junk
    rw [List.length_singleton, ← hblock, ← hcount] at hmove
    have hmoved : u ++ (v ++ [0] ++ ([a] ++ (v ++ [0] ++ junk)).drop
        ((u ++ a :: v).length-u.length)) = (u ++ v) ++ 0 :: ([a] ++ (v ++ [0] ++ junk)).drop
        ((u ++ a :: v).length-u.length) := by simp
    rw [hmoved] at hmove
    refine ⟨_, hmove, ?_, .mk _ _ fun hin => h0 ?_⟩
    · rw [hcount]
      simp only [List.length_append, List.length_cons, List.length_nil, List.length_drop]
      omega
    · rcases List.mem_append.mp hin with h | h
      · exact List.mem_append_left _ h
      · exact List.mem_append_right _ (List.mem_cons_of_mem a h)

/-- The bytes behind an index are moved over it before the text is cut there. -/
theorem move_cut (h : TextBlock mem t) {i : ℕ} (hi : i ≤ t.length) : ∃ moved mem',
    memmove mem i (i+1) (t.length-i) = .ok moved ∧ poke moved i 0 = .ok mem' ∧
      mem'.length = mem.length ∧ TextBlock mem' (t.take i) := by
  have hlen : (t.take i).length = i := List.length_take_of_le hi
  have hcut {moved : Bytes} {b : Byte} {w : Bytes} (hw : moved = t.take i ++ b :: w) :
      poke moved i 0 = .ok (t.take i ++ 0 :: w) := by
    have hpoke := poke_append (t.take i) b w 0
    rwa [hlen, ← hw] at hpoke
  have h0 : 0 ∉ t.take i := fun hin => h.zero_notMem (List.mem_of_mem_take hin)
  rcases Nat.lt_or_ge i t.length with hlt | hge
  · have hsplit : t = t.take i ++ t[i] :: t.drop (i+1) := by
      rw [← List.drop_eq_getElem_cons hlt, List.take_append_drop]
    rw [hsplit] at h
    obtain ⟨moved, hmove, hmoved, htext⟩ := h.take_out
    rw [← hsplit, hlen] at hmove
    cases htext with
    | mk _ junk _ =>
      cases hdrop : t.drop (i+1) with
      | nil =>
        rw [hdrop, List.append_nil] at hmove hmoved
        exact ⟨_, _, hmove, hcut rfl, by rw [← hmoved], .mk _ _ h0⟩
      | cons b w =>
        rw [hdrop, List.append_assoc, List.cons_append] at hmove hmoved
        exact ⟨_, _, hmove, hcut rfl, by rw [← hmoved]; simp, .mk _ _ h0⟩
  · obtain rfl : i = t.length := le_antisymm hi hge
    rw [List.take_length] at hcut h0 ⊢
    cases h with
    | mk _ junk _ =>
      have hmove := memmove_append t [0] [] junk
      rw [List.length_singleton, List.length_nil, List.nil_append, List.nil_append,
        List.singleton_append, List.drop_zero] at hmove
      rw [Nat.sub_self]
      exact ⟨_, _, hmove, hcut rfl, rfl, .mk _ _ h0⟩

end TextBlock

/-! ### Scans -/

/-- The first index from `i` on, `n` bytes at most, at which `p` fails. -/
def scanWhile (p : Byte → Bool) (mem : Bytes) : ℕ → ℕ → Cxx ℕ
  | 0, i => pure i
  | n+1, i => do
    let c ← peek mem i
    if p c then scanWhile p mem n (i+1) else pure i

/-- The bytes from index `n` down to 1 that have `p` become terminators, up to the first that does
not have it. -/
def trimWhile (p : Byte → Bool) : ℕ → Bytes → Cxx Bytes
  | 0, mem => pure mem
  | i+1, mem => do
    let c ← peek mem (i+1 : ℕ)
    if p c then do
      let mem ← poke mem (i+1) 0
      trimWhile p i mem
    else pure mem

/-- The last index up to `n` at which `p` holds; 0 if there is none from 1 on. -/
def lastWhere (p : Byte → Bool) (mem : Bytes) : ℕ → Cxx ℕ
  | 0 => pure 0
  | i+1 => do
    let c ← peek mem (i+1 : ℕ)
    if p c then pure (i+1) else lastWhere p mem i

variable (p : Byte → Bool)

theorem scanWhile_append (u v w : Bytes) : scanWhile p (u ++ (v ++ w)) v.length u.length =
    .ok (u.length+(v.takeWhile p).length) := by
  induction v generalizing u with
  | nil => rfl
  | cons a v ih =>
    rw [List.length_cons, scanWhile, List.cons_append, peek_append, ok_bind]
    by_cases ha : p a = true
    · have hih := ih (u ++ [a])
      rw [List.append_assoc, List.singleton_append, List.length_append, List.length_singleton]
        at hih
      rw [if_pos ha, List.takeWhile_cons_of_pos ha, List.length_cons, hih, add_right_comm]
      rfl
    · rw [if_neg ha, List.takeWhile_cons_of_neg ha]
      rfl

theorem TextBlock.scanWhile_eq {mem t : Bytes} (h : TextBlock mem t) :
    scanWhile p mem t.length 0 = .ok (t.takeWhile p).length := by
  cases h with
  | mk _ junk h0 =>
    have hscan := scanWhile_append p [] t (0 :: junk)
    rwa [List.nil_append, List.length_nil, zero_add] at hscan

/-- A text keeps its first byte when it is trimmed from the end. -/
theorem trimWhile_append (a : Byte) (v junk : Bytes) :
    ∃ junk', (v.rdropWhile p).length+junk'.length = v.length+junk.length ∧
      trimWhile p v.length (a :: v ++ 0 :: junk) = .ok (a :: v.rdropWhile p ++ 0 :: junk') := by
  induction v using List.reverseRecOn generalizing junk with
  | nil => exact ⟨junk, rfl, rfl⟩
  | append_singleton v b ih =>
    have hblock : a :: (v ++ [b]) ++ 0 :: junk = (a :: v) ++ b :: 0 :: junk := by simp
    have hlen : (v ++ [b]).length = v.length+1 := by simp
    have hpeek : peek ((a :: v) ++ b :: 0 :: junk) (v.length+1 : ℕ) = .ok b := by
      simpa using peek_append (a :: v) b (0 :: junk)
    rw [hblock, hlen, trimWhile, hpeek, ok_bind]
    by_cases hb : p b = true
    · -- the byte becomes a terminator and the text one shorter
      have hpoke : poke ((a :: v) ++ b :: 0 :: junk) (v.length+1) 0 =
          .ok ((a :: v) ++ 0 :: 0 :: junk) := by
        simpa using poke_append (a :: v) b (0 :: junk) 0
      obtain ⟨junk', hjunk, htrim⟩ := ih (0 :: junk)
      rw [if_pos hb, hpoke, ok_bind, htrim, List.rdropWhile_concat_pos p v b hb]
      refine ⟨junk', ?_, rfl⟩
      rw [hjunk, List.length_cons]
      omega
    · rw [if_neg hb, List.rdropWhile_concat_neg p v b hb]
      exact ⟨junk, by rw [hlen], by rw [hblock, pure_eq_ok]⟩

/-- The text is trimmed from the end, down to its second byte. -/
def trimmedEnd (t : Bytes) : Bytes :=
  match t with
  | [] => []
  | a :: v => a :: v.rdropWhile p

theorem TextBlock.trimWhile_eq {mem t : Bytes} (h : TextBlock mem t) : ∃ mem',
    trimWhile p (t.length-1) mem = .ok mem' ∧ mem'.length = mem.length ∧
      TextBlock mem' (trimmedEnd p t) := by
  cases h with
  | mk _ junk h0 =>
    cases t with
    | nil => exact ⟨_, rfl, rfl, .mk [] junk h0⟩
    | cons a v =>
      obtain ⟨junk', hlen, htrim⟩ := trimWhile_append p a v junk
      refine ⟨_, htrim, ?_, .mk _ junk' ?_⟩
      · simp only [List.length_append, List.length_cons]
        omega
      · intro hin
        apply h0
        rcases List.mem_cons.mp hin with h | h
        · exact h ▸ List.mem_cons_self
        · exact List.mem_cons_of_mem a ((List.rdropWhile_prefix p v).subset h)

/-- Searching for the last byte of a kind is stepping over the others. -/
theorem lastWhere_append (a : Byte) (v w : Bytes) : lastWhere p (a :: v ++ w) v.length =
    .ok (v.rdropWhile fun c => ! p c).length := by
  induction v using List.reverseRecOn generalizing w with
  | nil => rfl
  | append_singleton v b ih =>
    have hblock : a :: (v ++ [b]) ++ w = (a :: v) ++ b :: w := by simp
    have hlen : (v ++ [b]).length = v.length+1 := by simp
    have hpeek : peek ((a :: v) ++ b :: w) (v.length+1 : ℕ) = .ok b := by
      simpa using peek_append (a :: v) b w
    rw [hblock, hlen, lastWhere, hpeek, ok_bind]
    by_cases hb : p b = true
    · rw [if_pos hb, List.rdropWhile_concat_neg _ v b (by simp [hb]), hlen]
      rfl
    · rw [if_neg hb, List.rdropWhile_concat_pos _ v b (by simp [hb])]
      exact ih (b :: w)

end MsgCourier
