import MsgCourier.BufferEdit
import MsgCourier.Replacement

/-! The text operations of `cBuffer` on NUL-free contents: `ReplaceAll`, `Cleanup` and
`CopyBetween`. -/
namespace MsgCourier
open ListSearch CText ZeroFill

namespace Buffer

/-! ### ReplaceAll -/

/-- The loop, with a bound on its rounds; `none` when they are used up. -/
def replaceAllLoop [Malloc] (pPattern pWith : Bytes) (iPatternLen iWithLen : ℤ) :
    ℕ → Buffer → ℤ → Cxx (Option Buffer)
  | 0, _, _ => pure none
  | n+1, b, idx => do
    let (idx, b) ← b.find pPattern idx
    if idx = -1 then pure (some b)
    else do
      let (_, b) ← b.remove idx iPatternLen
      let b ← b.insert idx pWith iWithLen
      replaceAllLoop pPattern pWith iPatternLen iWithLen n b (int32 (idx+iWithLen))

def replaceAll [Malloc] (b : Buffer) (n : ℕ) (pPattern pWith : Bytes) : Cxx (Option Buffer) :=
  replaceAllLoop pPattern pWith (int32 pPattern.length) (int32 pWith.length) n b 0

variable {b : Buffer} {u s r pat w : Bytes}

theorem int32_length (h : (s.length : ℤ) ≤ intMax) : int32 (s.length : ℤ) = s.length := by
  exact int32_eq (by omega) h

/-- One round: the first occurrence behind the edited part is replaced. -/
theorem Keeps.replaceRound [Malloc] (h : b.Keeps (u ++ s)) (h0 : 0 ∉ s) (hpat : pat ≠ []) {k : ℕ}
    (hk : firstOcc pat s = some k)
    (hfit : ((u ++ s.take k ++ w ++ s.drop (k+pat.length)).length : ℤ) < b.bufferSize ∨
      ((u ++ s.take k ++ w ++ s.drop (k+pat.length)).length : ℤ)+10 ≤ intMax) :
    ∃ b₁ b₂ b₃ code, b.find pat u.length = .ok (((u.length+k : ℕ) : ℤ), b₁) ∧
      b₁.remove (u.length+k : ℕ) (int32 pat.length) = .ok (code, b₂) ∧
      b₂.insert (u.length+k : ℕ) w (int32 w.length) = .ok b₃ ∧
      b₃.Closed (u ++ s.take k ++ w ++ s.drop (k+pat.length)) ∧ b.bufferSize ≤ b₃.bufferSize := by
  have hle := firstOcc_le pat hk
  have hpos := List.length_pos_iff.mpr hpat
  have hlen : (u ++ s).length = u.length+s.length := List.length_append
  have hlong := h.length_lt
  have hmax := h.size_le.2
  have hne : u ++ s ≠ [] := by
    apply List.ne_nil_of_length_pos
    omega
  have htotal : (u ++ s.take k ++ w ++ s.drop (k+pat.length)).length+pat.length =
      u.length+s.length+w.length := by
    simp only [List.length_append, List.length_take, List.length_drop]
    omega
  have hoff : u.length ≤ (u ++ s).length := by omega
  obtain ⟨b₁, hfind, hclosed, hsize⟩ := h.find hne pat hoff
  rw [List.drop_left, strstr_of_zero_notMem h0, hk] at hfind
  obtain ⟨b₂, hremove, hkeeps, hsize'⟩ := hclosed.keeps.remove hpos
    (show u.length+k+pat.length ≤ (u ++ s).length by omega)
  have hbefore : (u ++ s).take (u.length+k) = u ++ s.take k := by
    rw [List.take_append, List.take_of_length_le (by omega), Nat.add_sub_cancel_left]
  have hbehind : (u ++ s).drop (u.length+k+pat.length) = s.drop (k+pat.length) := by
    rw [List.drop_append, List.drop_of_length_le (by omega), List.nil_append]
    congr 1
    omega
  rw [hbefore, hbehind] at hkeeps
  have hplace : (u ++ s.take k).length = u.length+k := by
    rw [List.length_append, List.length_take_of_le (by omega)]
  have hshort : (u ++ s.take k ++ s.drop (k+pat.length)).length+pat.length =
      u.length+s.length := by
    simp only [List.length_append, List.length_take, List.length_drop]
    omega
  have hroom : b₂.FitsInsert w.length := by
    unfold FitsInsert
    rw [hkeeps.tail_eq, hsize', hsize]
    omega
  have hend : u.length+k ≤ (u ++ s.take k ++ s.drop (k+pat.length)).length := by
    rw [List.length_append, hplace]
    exact Nat.le_add_right _ _
  have hwmax : (w.length : ℤ) ≤ intMax := by omega
  have hpatmax : (pat.length : ℤ) ≤ intMax := by omega
  obtain ⟨b₃, hinsert, hclosed', hgrow⟩ := hkeeps.insert w hend le_rfl hroom
  rw [List.take_left' hplace, List.drop_left' hplace, List.take_length] at hclosed'
  have hwlen : int32 (w.length : ℤ) = w.length := int32_length hwmax
  have hpatlen : int32 (pat.length : ℤ) = pat.length := int32_length hpatmax
  refine ⟨b₁, b₂, b₃, bufferNoError, hfind, ?_, ?_, hclosed', ?_⟩
  · rw [hpatlen]
    exact hremove
  · rw [hwlen]
    exact hinsert
  · rwa [← hsize, ← hsize']

/-- The loop keeps the part that is edited, in front of the index, and searches the rest. -/
theorem Keeps.replaceAllLoop [Malloc] (hpat : pat ≠ []) (hrep : Replaced pat w s r) {n : ℕ}
    (hn : s.length < n) (h : b.Keeps (u ++ s)) (h0 : 0 ∉ s)
    (hfit : ((u ++ r).length : ℤ) < b.bufferSize ∨ ((u ++ r).length : ℤ)+10 ≤ intMax) :
    ∃ b', replaceAllLoop pat w (int32 pat.length) (int32 w.length) n b u.length = .ok (some b') ∧
      b'.Keeps (u ++ r) ∧ (b'.Closed (u ++ r) ∨ u ++ s = [] ∧ b' = b) := by
  have hpos := List.length_pos_iff.mpr hpat
  induction hrep generalizing n b u with
  | @none s hs =>
    obtain ⟨n, rfl⟩ := Nat.exists_eq_succ_of_ne_zero (Nat.ne_zero_of_lt hn)
    have hfind : ∃ b', b.find pat u.length = .ok (-1, b') ∧ b'.Keeps (u ++ s) ∧
        (b'.Closed (u ++ s) ∨ u ++ s = [] ∧ b' = b) := by
      rcases eq_or_ne (u ++ s) [] with hnil | hne
      · rw [hnil] at h ⊢
        exact ⟨b, h.find_nil _ _, h, Or.inr ⟨rfl, rfl⟩⟩
      · have hoff : u.length ≤ (u ++ s).length := (List.prefix_append u s).length_le
        obtain ⟨b', hfind, hclosed, _⟩ := h.find hne pat hoff
        rw [List.drop_left, strstr_of_zero_notMem h0, hs] at hfind
        exact ⟨b', hfind, hclosed.keeps, Or.inl hclosed⟩
    obtain ⟨b', hfind, hkeeps, hends⟩ := hfind
    refine ⟨b', ?_, hkeeps, hends⟩
    unfold Buffer.replaceAllLoop
    rw [hfind]
    rfl
  | @some s r k hs hrest ih =>
    obtain ⟨n, rfl⟩ := Nat.exists_eq_succ_of_ne_zero (Nat.ne_zero_of_lt hn)
    have hle := firstOcc_le pat hs
    have hlen : (u ++ s).length = u.length+s.length := List.length_append
    have hround : (u ++ s.take k ++ w ++ s.drop (k+pat.length)).length+pat.length =
        u.length+s.length+w.length := by
      simp only [List.length_append, List.length_take, List.length_drop]
      omega
    have htotal : (u ++ (s.take k ++ w ++ r)).length = u.length+k+w.length+r.length := by
      simp only [List.length_append, List.length_take]
      omega
    have hne : u ++ s ≠ [] := by
      apply List.ne_nil_of_length_pos
      omega
    have hkept := h.lt_size hne
    -- a longer replacement is the longer the more rounds are left, a shorter one needs no room
    have hfit' : ((u ++ s.take k ++ w ++ s.drop (k+pat.length)).length : ℤ) < b.bufferSize ∨
        ((u ++ s.take k ++ w ++ s.drop (k+pat.length)).length : ℤ)+10 ≤ intMax := by
      rcases Nat.le_total pat.length w.length with hlong | hshort
      · have hr := hrest.length_le hlong
        rw [List.length_drop] at hr
        omega
      · left
        omega
    obtain ⟨b₁, b₂, b₃, code, hfind, hremove, hinsert, hclosed, hgrow⟩ :=
      h.replaceRound h0 hpat hs hfit'
    have hmax := h.size_le.2
    have hnext : (u ++ s.take k ++ w).length = u.length+k+w.length := by
      rw [List.length_append, List.length_append, List.length_take_of_le (by omega)]
    have hshorter : (s.drop (k+pat.length)).length < n := by
      rw [List.length_drop]
      omega
    have hfit'' : ((u ++ s.take k ++ w ++ r).length : ℤ) < b₃.bufferSize ∨
        ((u ++ s.take k ++ w ++ r).length : ℤ)+10 ≤ intMax := by
      rw [List.length_append, hnext]
      omega
    obtain ⟨b', hok, hkeeps, hends⟩ := ih hshorter hclosed.keeps
      (fun hin => h0 (List.mem_of_mem_drop hin)) hfit''
    have hassoc : u ++ s.take k ++ w ++ r = u ++ (s.take k ++ w ++ r) := by
      rw [List.append_assoc, List.append_assoc, List.append_assoc]
    rw [hassoc] at hkeeps hends
    have hclosed' : b'.Closed (u ++ (s.take k ++ w ++ r)) := by
      rcases hends with hend | ⟨hnil, rfl⟩
      · exact hend
      · -- the last insertion left an empty content, and there was nothing more to find
        rw [hnil] at hclosed
        have hlast : u ++ (s.take k ++ w ++ r) = [] := hkeeps.unique hclosed.keeps
        rw [hlast]
        exact hclosed
    have hfound : ¬ ((u.length+k : ℕ) : ℤ) = -1 := by omega
    have hwmax : (w.length : ℤ) ≤ intMax := by omega
    have hsum : ((u.length+k : ℕ) : ℤ)+w.length = (u ++ s.take k ++ w).length := by omega
    have hsummax : ((u ++ s.take k ++ w).length : ℤ) ≤ intMax := by omega
    refine ⟨b', ?_, hkeeps, Or.inl hclosed'⟩
    · have hidx : int32 (((u.length+k : ℕ) : ℤ)+int32 w.length) =
          (u ++ s.take k ++ w).length := by
        rw [int32_length hwmax, hsum, int32_length hsummax]
      unfold Buffer.replaceAllLoop
      rw [hfind, ok_bind]
      dsimp only
      rw [if_neg hfound, hremove, ok_bind]
      dsimp only
      rw [hinsert, ok_bind, hidx]
      exact hok

variable {c : Bytes}

/-- `ReplaceAll` ends, and its result is the replacement from left to right, as long as that is
shorter than the size or small enough to be allocated. -/
theorem replaceAll_leftToRight [Malloc] (h : b.Keeps c) (h0 : 0 ∉ c) (hpat : pat ≠ []) (w : Bytes) :
    ∃ r, Replaced pat w c r ∧
      ((r.length : ℤ) < b.bufferSize ∨ (r.length : ℤ)+10 ≤ intMax →
        ∀ n, c.length < n → ∃ b', b.replaceAll n pat w = .ok (some b') ∧ b'.content = r) := by
  obtain ⟨r, hrep⟩ := exists_replaced hpat w c
  refine ⟨r, hrep, fun hfit n hn => ?_⟩
  rw [← List.nil_append c] at h
  obtain ⟨b', hok, hkeeps, _⟩ := h.replaceAllLoop hpat hrep hn h0 hfit
  exact ⟨b', hok, hkeeps.content_eq⟩

theorem replaceAll_contains_pattern : ∃ r, Replaced (bytes "a") (bytes "aa") (bytes "xa") r ∧
    ((r.length : ℤ) < (terminated (bytes "xa")).bufferSize ∨ (r.length : ℤ)+10 ≤ intMax →
      ∀ n, (bytes "xa").length < n → ∃ b',
        (terminated (bytes "xa")).replaceAll n (bytes "a") (bytes "aa") = .ok (some b') ∧
        b'.content = r) := by
  have hkeeps := keeps_terminated (c := bytes "xa") (by decide)
  exact replaceAll_leftToRight hkeeps (by decide) (by decide) (bytes "aa")

theorem insert_intMax_bytes [Malloc] (hw : w.length = 2147483647) :
    (⟨some (bytes "a" ++ [0]), 2, 0⟩ : Buffer).insert 0 w (int32 w.length) = .error .undefined := by
  have harg : lengthArg w 2147483647 = .ok 2147483647 := rfl
  have hmax : int32 ((2147483647 : ℕ) : ℤ) = 2147483647 := by decide
  have hwrap : int32 (int32 (2147483647+0)+1) = -2147483648 := by decide
  unfold Buffer.insert
  dsimp only
  rw [hw, hmax, harg, ok_bind, hwrap]
  rfl

/-- A replacement of `INT_MAX` bytes: the new size wraps around, and the block is written past. -/
theorem replaceAll_intMax_bytes : ¬ ∃ (n : ℕ) (b' : Buffer),
    (terminated (bytes "a")).replaceAll n (bytes "a") (List.replicate 2147483647 98) =
      .ok (some b') := by
  rintro ⟨n, b', hok⟩
  revert hok
  have hw : (List.replicate 2147483647 (98 : Byte)).length = 2147483647 := List.length_replicate
  generalize List.replicate 2147483647 (98 : Byte) = w at hw
  have hfind : (terminated (bytes "a")).find (bytes "a") 0 = .ok (0, terminated (bytes "a")) := by
    decide
  have hremove : (terminated (bytes "a")).remove 0 (int32 ((bytes "a").length : ℕ)) =
      .ok (0, ⟨some (bytes "a" ++ [0]), 2, 0⟩) := by decide
  unfold replaceAll
  cases n with
  | zero =>
    intro hok
    cases hok
  | succ n =>
    unfold replaceAllLoop
    rw [hfind, ok_bind]
    dsimp only
    rw [if_neg (by decide), hremove, ok_bind]
    dsimp only
    rw [insert_intMax_bytes hw, error_bind]
    intro hok
    cases hok

/-! ### CopyBetween -/

/-- The bytes of the block from the place where the copy starts. -/
def copyFrom (b : Buffer) (iStart : ℕ) : Option Bytes := b.pBuffer.map (·.drop iStart)

def copyInto [Malloc] (intoBuffer : Buffer) (pData : Option Bytes) (iSize : ℤ) : Cxx Buffer := do
  let (_, intoBuffer) ← intoBuffer.replaceWith pData iSize
  intoBuffer.makeString

/-- The call returns its code, this buffer and the other one. -/
def copyBetween [Malloc] (b : Buffer) (pPattern1 pPattern2 : Bytes) (intoBuffer : Buffer) :
    Cxx (ℤ × Buffer × Buffer) := do
  let intoBuffer := intoBuffer.reset
  let (iStart, b) ← b.find pPattern1 0
  if iStart = -1 then pure (-1, b, intoBuffer)
  else do
    let (iEnd, b) ← b.find pPattern2 (iStart+1)
    if iEnd = 1 then pure (-1, b, intoBuffer)
    else do
      let iStart := iStart+pPattern1.length
      let intoBuffer ← intoBuffer.copyInto (b.copyFrom iStart.toNat) (iEnd-iStart)
      pure (0, b, intoBuffer)

/-- The text between the first marker and the first place of the second one behind it. -/
def between (p₁ p₂ c : Bytes) : Option Bytes :=
  match firstOcc p₁ c with
  | none => none
  | some k => (firstOcc p₂ (c.drop (k+p₁.length))).map fun n => (c.drop (k+p₁.length)).take n

/-- 0 and exactly the text between the markers, or -1 and nothing. -/
def ExtractsBetween [Malloc] (b : Buffer) (p₁ p₂ : Bytes) (intoBuffer : Buffer) : Prop :=
  ∃ b' into', b.copyBetween p₁ p₂ intoBuffer =
      .ok (if (between p₁ p₂ b.content).isSome then 0 else -1, b', into') ∧
    into'.content = (between p₁ p₂ b.content).getD []

theorem adjustSize_of_gt {n : ℤ} (h : intMax < n+8) (hmax : n ≤ intMax) : adjustSize n = 32 := by
  have hwrap : int32 (n+8) = n+8-4294967296 := by
    unfold intMax at hmax
    exact int32_of_gt h (by omega)
  unfold adjustSize
  rw [hwrap]
  unfold intMax at hmax
  exact if_pos (by omega)

/-- A block that is grown has the adjusted size. -/
theorem setBufferSize_grown [Malloc] {n : ℤ} {b' : Buffer} (hgrow : b.bufferSize ≤ n)
    (htail : b.tail = 0) (hok : b.setBufferSize n = .ok b') :
    ∃ mem, b'.pBuffer = some mem ∧ (mem.length : ℤ) = adjustSize n ∧ b'.tail = 0 := by
  have hmalloc {b : Buffer} {mem : Bytes} (hmem : malloc b (adjustSize n) = .ok mem) :
      (mem.length : ℤ) = adjustSize n := by
    unfold malloc at hmem
    split_ifs at hmem with hneg
    rw [← Except.ok.inj hmem, Malloc.length_block]
    omega
  unfold Buffer.setBufferSize at hok
  cases hb : b.pBuffer with
  | none =>
    rw [hb] at hok
    obtain ⟨mem, hmem, hok⟩ := bind_eq_ok.mp hok
    rw [← Except.ok.inj hok]
    exact ⟨mem, rfl, hmalloc hmem, rfl⟩
  | some old =>
    rw [hb] at hok
    dsimp only at hok
    rw [if_pos hgrow] at hok
    obtain ⟨mem, hmem, hok⟩ := bind_eq_ok.mp hok
    obtain ⟨copied, _, hok⟩ := bind_eq_ok.mp hok
    obtain ⟨mem', hmem', hok⟩ := bind_eq_ok.mp hok
    rw [← Except.ok.inj hok]
    exact ⟨mem', rfl, by rw [(store_length hmem').1]; exact hmalloc hmem, htail⟩

/-- A length without room makes the new size wrap around to the smallest block. -/
theorem Keeps.fits_of_replaceWith [Malloc] (h : b.Keeps c) {p : Bytes} {n : ℕ} (hn : n ≤ p.length)
    (hmax : (n : ℤ) ≤ intMax) {q : ℤ × Buffer} (hok : b.replaceWith (some p) n = .ok q) :
    b.reset.Fits n := by
  obtain ⟨hpos, hsize⟩ := h.size_le
  by_contra hfit
  obtain ⟨hfull, hbig⟩ := not_or.mp hfit
  change ¬ (n : ℤ) < b.bufferSize-0 at hfull
  change ¬ (0 : ℤ)+n+8 ≤ intMax at hbig
  have hspace : int32 (b.bufferSize-0) = b.bufferSize := by
    rw [sub_zero]
    exact int32_eq (by omega) hsize
  have hnew : int32 (int32 (n-b.bufferSize)+b.bufferSize) = n := by
    calc
      int32 (int32 (n-b.bufferSize)+b.bufferSize) = int32 (n-b.bufferSize+b.bufferSize) :=
        congrArg (fun x => int32 (x+b.bufferSize)) (int32_eq (by omega) (by omega))
      _ = int32 n := congrArg int32 (sub_add_cancel _ _)
      _ = n := int32_eq (by omega) hmax
  have hn0 : ¬ (n : ℤ) = 0 := by
    unfold intMax at hbig
    omega
  unfold Buffer.replaceWith at hok
  dsimp only at hok
  rw [lengthArg_natCast, ok_bind] at hok
  unfold Buffer.append at hok
  rw [if_neg hn0] at hok
  dsimp only at hok
  rw [lengthArg_natCast, ok_bind] at hok
  obtain ⟨b₁, hroom, hok⟩ := bind_eq_ok.mp hok
  have hset : b.reset.setBufferSize n = .ok b₁ := by
    unfold appendRoom Buffer.reset at hroom
    dsimp only at hroom
    rw [hspace, if_pos (by omega), hnew] at hroom
    exact hroom
  have hgrow : b.reset.bufferSize ≤ n := by
    change b.bufferSize ≤ n
    omega
  obtain ⟨mem, hmem, hlen, htail⟩ := setBufferSize_grown hgrow rfl hset
  rw [hmem] at hok
  obtain ⟨src, hsrc, hok⟩ := bind_eq_ok.mp hok
  obtain ⟨mem', hstore, _⟩ := bind_eq_ok.mp hok
  rw [← Nat.cast_zero, fetch_ok (by omega)] at hsrc
  have hsrclen : src.length = n := by
    rw [← Except.ok.inj hsrc, List.drop_zero]
    exact List.length_take_of_le hn
  have hinside := (store_length hstore).2.2
  rw [hlen, adjustSize_of_gt (by omega) hmax, htail] at hinside
  unfold intMax at hbig
  omega

/-- A negative length is copied from nowhere. -/
theorem Keeps.replaceWith_neg [Malloc] (h : b.Keeps c) (p : Bytes) {z : ℤ} (hz : z < -1) :
    b.replaceWith (some p) z = .error .undefined := by
  obtain ⟨hpos, hsize⟩ := h.size_le
  have harg : lengthArg p z = .ok z := if_neg (by omega)
  have hspace : ¬ int32 (b.bufferSize-0) ≤ z := by
    rw [sub_zero, int32_eq (by omega) hsize]
    omega
  have hfetch : fetch p 0 z = .error .undefined := if_neg (by omega)
  unfold Buffer.replaceWith Buffer.append appendRoom Buffer.reset
  dsimp only
  rw [harg, ok_bind, if_neg (by omega), harg, ok_bind, if_neg hspace, pure_eq_ok, ok_bind]
  dsimp only
  rw [hfetch]
  cases b.pBuffer <;> rfl

/-- The first marker is found at `k`, and the second one is searched from `k+1` on. -/
theorem Keeps.copyBetween_found [Malloc] (h : b.Keeps c) (h0 : 0 ∉ c) {p₁ : Bytes} (hp₁ : p₁ ≠ [])
    {k : ℕ} (hk : firstOcc p₁ c = some k) (p₂ : Bytes) (into : Buffer) :
    ∃ (b' : Buffer) (junk : Bytes), b.copyBetween p₁ p₂ into =
      match firstOcc p₂ (c.drop (k+1)) with
      | none => (into.reset.copyInto (some ((c ++ 0 :: junk).drop (k+p₁.length)))
          (-1-(k+p₁.length : ℕ))).map fun into => (0, b', into)
      | some e =>
        if k+1+e = 1 then .ok (-1, b', into.reset)
        else (into.reset.copyInto (some ((c ++ 0 :: junk).drop (k+p₁.length)))
          ((k+1+e : ℕ)-(k+p₁.length : ℕ))).map fun into => (0, b', into) := by
  have hle := firstOcc_le p₁ hk
  have hpos := List.length_pos_iff.mpr hp₁
  have hc : c ≠ [] := by
    apply List.ne_nil_of_length_pos
    omega
  obtain ⟨b₁, hfind₁, hclosed₁, _⟩ := h.find hc p₁ (Nat.zero_le _)
  rw [List.drop_zero, strstr_of_zero_notMem h0, hk, Option.elim_some, zero_add, Nat.cast_zero]
    at hfind₁
  have hnext : k+1 ≤ c.length := by omega
  obtain ⟨b₂, hfind₂, hclosed₂, _⟩ := hclosed₁.keeps.find hc p₂ hnext
  have h0' : 0 ∉ c.drop (k+1) := fun hin => h0 (List.mem_of_mem_drop hin)
  rw [strstr_of_zero_notMem h0'] at hfind₂
  obtain ⟨junk, hmem⟩ := hclosed₂.pBuffer_eq
  have hfound : ¬ (k : ℤ) = -1 := by omega
  have hcopy : b₂.copyFrom ((k : ℤ)+p₁.length).toNat =
      some ((c ++ 0 :: junk).drop (k+p₁.length)) := by
    unfold copyFrom
    rw [hmem]
    rfl
  refine ⟨b₂, junk, ?_⟩
  obtain ⟨iEnd, hend⟩ : ∃ iEnd : ℤ, (firstOcc p₂ (c.drop (k+1))).elim (-1)
    (fun e => ((k+1+e : ℕ) : ℤ)) = iEnd := ⟨_, rfl⟩
  rw [hend, Nat.cast_add, Nat.cast_one] at hfind₂
  have hcall : b.copyBetween p₁ p₂ into = if iEnd = 1 then .ok (-1, b₂, into.reset)
      else (into.reset.copyInto (some ((c ++ 0 :: junk).drop (k+p₁.length)))
        (iEnd-(k+p₁.length : ℕ))).map fun into => (0, b₂, into) := by
    unfold Buffer.copyBetween
    dsimp only
    rw [hfind₁, ok_bind]
    dsimp only
    rw [if_neg hfound, hfind₂, ok_bind]
    dsimp only
    rw [hcopy, Nat.cast_add]
    split_ifs with hone
    · rfl
    · cases into.reset.copyInto _ _ <;> rfl
  rw [hcall]
  cases hocc : firstOcc p₂ (c.drop (k+1)) with
  | none =>
    rw [hocc, Option.elim_none] at hend
    rw [← hend, if_neg (by decide)]
  | some e =>
    rw [hocc, Option.elim_some] at hend
    rw [← hend]
    dsimp only
    by_cases hone : k+1+e = 1
    · rw [if_pos hone, if_pos (by omega)]
    · rw [if_neg hone, if_neg (by omega)]

/-- A copy that returns has an emptied or a filled buffer. -/
theorem Keeps.copyInto [Malloc] (h : b.Keeps c) {p : Bytes} {n : ℕ} (hn : n ≤ p.length)
    (hf : b.reset.Fits n) : ∃ b', b.reset.copyInto (some p) n = .ok b' ∧ b'.content = p.take n := by
  obtain ⟨b₁, hreplace, hkeeps⟩ := h.reset.replaceWith p hn hf
  unfold Buffer.copyInto
  rw [hreplace, ok_bind]
  dsimp only
  rcases hkeeps.makeString with ⟨hnull, hnil⟩ | ⟨b', hb', hclosed⟩
  · exact ⟨{}, by rw [hnull]; rfl, hnil.symm⟩
  · exact ⟨b', hb', hclosed.keeps.content_eq⟩

theorem Keeps.copyInto_neg [Malloc] (h : b.Keeps c) (p : Bytes) {z : ℤ} (hz : z < -1) :
    b.reset.copyInto (some p) z = .error .undefined := by
  unfold Buffer.copyInto
  rw [h.reset.replaceWith_neg p hz]
  rfl

theorem Keeps.copyInto_inv [Malloc] (h : b.Keeps c) {p : Bytes} {z : ℤ} {n : ℕ}
    (harg : lengthArg p z = .ok (n : ℤ)) (hn : n ≤ p.length) (hmax : (n : ℤ) ≤ intMax) {b' : Buffer}
    (hok : b.reset.copyInto (some p) z = .ok b') :
    b.reset.Fits n ∧ b'.content = p.take n := by
  have hcopy : b.reset.copyInto (some p) n = .ok b' := by
    have hsame : b.reset.replaceWith (some p) z = b.reset.replaceWith (some p) n := by
      unfold Buffer.replaceWith
      dsimp only
      rw [harg, lengthArg_natCast]
    unfold Buffer.copyInto at hok ⊢
    rwa [← hsame]
  have hfits : b.reset.Fits n := by
    unfold Buffer.copyInto at hcopy
    obtain ⟨q, hreplace, _⟩ := bind_eq_ok.mp hcopy
    exact h.reset.fits_of_replaceWith hn hmax hreplace
  obtain ⟨b'', hok', hcontent⟩ := h.copyInto hn hfits
  obtain rfl := Except.ok.inj (hcopy.symm.trans hok')
  exact ⟨hfits, hcontent⟩

/-- Where the code meets the specification: the first marker is missing, or the second one is
found at index 1 and does not occur behind the first, or it is found elsewhere behind the first one
and the text between fits. -/
def Extractable (p₁ p₂ c : Bytes) (into : Buffer) : Prop :=
  match firstOcc p₁ c with
  | none => True
  | some k =>
    match firstOcc p₂ (c.drop (k+1)) with
    | none => False
    | some e =>
      if k+1+e = 1 then firstOcc p₂ (c.drop (k+p₁.length)) = none
      else k+p₁.length ≤ k+1+e ∧ into.reset.Fits ((k+1+e)-(k+p₁.length) : ℕ)

theorem between_found {p₁ p₂ : Bytes} {k : ℕ} (hk : firstOcc p₁ c = some k) :
    between p₁ p₂ c = (firstOcc p₂ (c.drop (k+p₁.length))).map fun n =>
      (c.drop (k+p₁.length)).take n := by
  unfold between
  rw [hk]

/-- The second marker is found in front of the end of the first one: the length is negative, and
-1 stands for the rest of the text. -/
theorem Keeps.copyInto_overlap [Malloc] (h : b.Keeps c) {t p₂ junk : Bytes} (h0 : 0 ∉ t)
    (hlong : (t.length : ℤ) ≤ intMax) (hp₂ : p₂ ≠ []) {z : ℤ} (hz : z < 0) {b' : Buffer}
    (hok : b.reset.copyInto (some (t ++ 0 :: junk)) z = .ok b') {n : ℕ}
    (hn : firstOcc p₂ t = some n) : b'.content ≠ t.take n := by
  rcases lt_or_eq_of_le (show z ≤ -1 by omega) with hneg | rfl
  · rw [h.copyInto_neg _ hneg] at hok
    cases hok
  · have hrest : t.length ≤ (t ++ 0 :: junk).length := (List.prefix_append t (0 :: junk)).length_le
    have harg : lengthArg (t ++ 0 :: junk) (-1) = .ok (t.length : ℤ) :=
      (TextBlock.mk t junk h0).strlen_eq
    obtain ⟨_, hcontent⟩ := h.copyInto_inv harg hrest hlong hok
    have hle := firstOcc_le p₂ hn
    have hpos := List.length_pos_iff.mpr hp₂
    rw [hcontent, List.take_left]
    intro heq
    have hlen := congrArg List.length heq
    rw [List.length_take] at hlen
    omega

theorem extractsBetween_iff [Malloc] (h : b.Keeps c) (h0 : 0 ∉ c) {into : Buffer} {d : Bytes}
    (hinto : into.Keeps d) {p₁ p₂ : Bytes} (hp₁ : p₁ ≠ []) (hp₂ : p₂ ≠ []) :
    b.ExtractsBetween p₁ p₂ into ↔ Extractable p₁ p₂ c into := by
  unfold ExtractsBetween Extractable
  rw [h.content_eq]
  cases hk : firstOcc p₁ c with
  | none =>
    refine iff_of_true ?_ trivial
    have hnone : between p₁ p₂ c = none := by
      unfold between
      rw [hk]
    have hfind : ∃ b', b.find p₁ (0 : ℕ) = .ok (-1, b') := by
      rcases eq_or_ne c [] with rfl | hc
      · exact ⟨b, h.find_nil _ _⟩
      · obtain ⟨b', hfind, _⟩ := h.find hc p₁ (Nat.zero_le _)
        rw [List.drop_zero, strstr_of_zero_notMem h0, hk] at hfind
        exact ⟨b', hfind⟩
    obtain ⟨b', hfind⟩ := hfind
    refine ⟨b', into.reset, ?_, by rw [hnone]; exact hinto.reset.content_eq⟩
    rw [Nat.cast_zero] at hfind
    unfold Buffer.copyBetween
    dsimp only
    rw [hfind, hnone]
    rfl
  | some k =>
    have hle := firstOcc_le p₁ hk
    have hpos₁ := List.length_pos_iff.mpr hp₁
    have hpos₂ := List.length_pos_iff.mpr hp₂
    have hlong := h.length_lt
    obtain ⟨b', junk, hcall⟩ := h.copyBetween_found h0 hp₁ hk p₂ into
    have hrest : (c ++ 0 :: junk).drop (k+p₁.length) = c.drop (k+p₁.length) ++ 0 :: junk :=
      List.drop_append_of_le_length hle
    rw [hcall, hrest, between_found hk]
    dsimp only
    cases he : firstOcc p₂ (c.drop (k+1)) with
    | none =>
      -- the length is negative
      dsimp only
      rw [hinto.copyInto_neg _ (by omega)]
      refine iff_of_false ?_ id
      rintro ⟨b'', into', hok, _⟩
      cases hok
    | some e =>
      dsimp only
      by_cases hone : k+1+e = 1
      · rw [if_pos hone, if_pos hone]
        cases hbehind : firstOcc p₂ (c.drop (k+p₁.length)) with
        | none => exact iff_of_true ⟨b', into.reset, rfl, hinto.reset.content_eq⟩ rfl
        | some n =>
          refine iff_of_false ?_ (by simp)
          rintro ⟨b'', into', hok, _⟩
          have hcode := (Prod.mk.inj (Except.ok.inj hok)).1
          simp at hcode
      · rw [if_neg hone, if_neg hone]
        rcases Nat.lt_or_ge (k+1+e) (k+p₁.length) with hbefore | hbehind
        · -- the markers overlap, and what is copied is no text between them
          refine iff_of_false ?_ fun hext => by omega
          rintro ⟨b'', into', hok, hcontent⟩
          cases hcopy : into.reset.copyInto (some (c.drop (k+p₁.length) ++ 0 :: junk))
              ((k+1+e : ℕ)-(k+p₁.length : ℕ)) with
          | error x =>
            rw [hcopy] at hok
            cases hok
          | ok into₁ =>
            rw [hcopy] at hok
            obtain ⟨hcode, hpair⟩ := Prod.mk.inj (Except.ok.inj hok)
            obtain ⟨_, rfl⟩ := Prod.mk.inj hpair
            cases hn : firstOcc p₂ (c.drop (k+p₁.length)) with
            | none =>
              rw [hn] at hcode
              simp at hcode
            | some n =>
              rw [hn] at hcontent
              have hshort : ((c.drop (k+p₁.length)).length : ℤ) ≤ intMax := by
                rw [List.length_drop]
                omega
              exact hinto.copyInto_overlap (fun hin => h0 (List.mem_of_mem_drop hin)) hshort hp₂
                (by omega) hcopy hn hcontent
        · have hn : firstOcc p₂ (c.drop (k+p₁.length)) = some ((k+1+e)-(k+p₁.length)) := by
            have hdrop := firstOcc_drop (i := p₁.length-1) hp₂ he (by omega)
            have hpos : k+1+(p₁.length-1) = k+p₁.length := by omega
            rw [List.drop_drop, hpos] at hdrop
            rw [hdrop]
            congr 1
            omega
          obtain ⟨n, hlen⟩ : ∃ n, (k+1+e)-(k+p₁.length) = n := ⟨_, rfl⟩
          have hsub : ((k+1+e : ℕ) : ℤ)-(k+p₁.length : ℕ) = (n : ℤ) := by omega
          rw [hlen] at hn ⊢
          have hle' := firstOcc_le p₂ hn
          have hin : n ≤ (c.drop (k+p₁.length) ++ 0 :: junk).length := by
            rw [List.length_append]
            omega
          have htake : (c.drop (k+p₁.length) ++ 0 :: junk).take n = (c.drop (k+p₁.length)).take n :=
            List.take_append_of_le_length (by omega)
          rw [hsub, hn]
          constructor
          · rintro ⟨b'', into', hok, _⟩
            cases hcopy : into.reset.copyInto (some (c.drop (k+p₁.length) ++ 0 :: junk)) n with
            | error x =>
              rw [hcopy] at hok
              cases hok
            | ok into₁ =>
              have hmax : (n : ℤ) ≤ intMax := by
                rw [List.length_drop] at hle'
                omega
              exact ⟨hbehind, (hinto.copyInto_inv (lengthArg_natCast _ n) hin hmax hcopy).1⟩
          · rintro ⟨_, hfit⟩
            obtain ⟨into', hcopy, hcontent⟩ := hinto.copyInto hin hfit
            rw [hcopy]
            exact ⟨b', into', rfl, hcontent.trans htake⟩

theorem extractsBetween_scraped : (terminated (bytes "x<b>12</b>")).ExtractsBetween (bytes "<b>")
    (bytes "</b>") {} := by
  have hkeeps := keeps_terminated (c := bytes "x<b>12</b>") (by decide)
  refine (extractsBetween_iff hkeeps (by decide) Keeps.null (by decide) (by decide)).mpr ?_
  exact ⟨by decide, Or.inr (by decide)⟩

/-- The text "ab" and the markers "a" and "x": the second one is missing, and -2 bytes
are copied. -/
theorem copyBetween_missing_marker : ¬ (terminated (bytes "ab")).ExtractsBetween (bytes "a")
    (bytes "x") {} := by
  have hcall : (terminated (bytes "ab")).copyBetween (bytes "a") (bytes "x") {} =
      .error .undefined := by decide
  rintro ⟨b', into', hok, _⟩
  rw [hcall] at hok
  cases hok

end Buffer
end MsgCourier
