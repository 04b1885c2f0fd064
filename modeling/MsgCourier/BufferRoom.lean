import MsgCourier.BufferCleanup

/-! When `Append`, `ReplaceWith` and `Insert` have the room they need: the sizes of a buffer are
`int`s, and a size that wraps around gives a block that is too small, or none. -/
namespace MsgCourier
open ListSearch CText

namespace Buffer

variable {b b' : Buffer} {c : Bytes}

/-! ### Blocks -/

/-- The length of the block is an `int`. -/
def BlockInt (b : Buffer) : Prop := ∀ mem, b.pBuffer = some mem → (mem.length : ℤ) ≤ intMax

theorem BlockInt.of_eq {mem : Bytes} (hmem : b.pBuffer = some mem)
    (hle : (mem.length : ℤ) ≤ intMax) : b.BlockInt := by
  intro mem' hmem'
  rw [← Option.some.inj (hmem.symm.trans hmem')]
  exact hle

theorem malloc_le [Malloc] {b : Buffer} {n : ℤ} {mem : Bytes} (hn : n ≤ intMax)
    (hok : malloc b n = .ok mem) : (mem.length : ℤ) ≤ intMax := by
  unfold malloc at hok
  split_ifs at hok with hneg
  rw [← Except.ok.inj hok, Malloc.length_block]
  omega

theorem BlockInt.makeString (h : b.BlockInt) (hok : b.makeString = .ok b') : b'.BlockInt := by
  unfold Buffer.makeString at hok
  cases hb : b.pBuffer with
  | none =>
    rw [hb] at hok
    exact Except.ok.inj hok ▸ h
  | some mem =>
    rw [hb] at hok
    obtain ⟨mem', hstore, hok⟩ := bind_eq_ok.mp hok
    refine @BlockInt.of_eq _ mem' (Except.ok.inj hok ▸ rfl) ?_
    rw [(store_length hstore).1]
    exact h mem hb

theorem BlockInt.setBufferSize [Malloc] (h : b.BlockInt) {n : ℤ}
    (hok : b.setBufferSize n = .ok b') : b'.BlockInt := by
  unfold Buffer.setBufferSize at hok
  cases hb : b.pBuffer with
  | none =>
    rw [hb] at hok
    obtain ⟨mem, hmem, hok⟩ := bind_eq_ok.mp hok
    exact @BlockInt.of_eq _ mem (Except.ok.inj hok ▸ rfl) (malloc_le (adjustSize_le n) hmem)
  | some old =>
    rw [hb] at hok
    dsimp only at hok
    split_ifs at hok
    · obtain ⟨mem, hmem, hok⟩ := bind_eq_ok.mp hok
      obtain ⟨copied, -, hok⟩ := bind_eq_ok.mp hok
      obtain ⟨mem', hmem', hok⟩ := bind_eq_ok.mp hok
      refine @BlockInt.of_eq _ mem' (Except.ok.inj hok ▸ rfl) ?_
      rw [(store_length hmem').1]
      exact malloc_le (adjustSize_le n) hmem
    · exact Except.ok.inj hok ▸ h

theorem BlockInt.append [Malloc] (h : b.BlockInt) {pData : Option Bytes} {n : ℤ} {r : ℤ × Buffer}
    (hok : b.append pData n = .ok r) : r.2.BlockInt := by
  unfold Buffer.append at hok
  split_ifs at hok
  · exact Except.ok.inj hok ▸ h
  · cases pData with
    | none => exact Except.ok.inj hok ▸ h
    | some p =>
      obtain ⟨len, -, hok⟩ := bind_eq_ok.mp hok
      obtain ⟨b₁, hroom, hok⟩ := bind_eq_ok.mp hok
      have hblock : b₁.BlockInt := by
        unfold appendRoom at hroom
        dsimp only at hroom
        split_ifs at hroom
        · exact h.setBufferSize hroom
        · exact Except.ok.inj hroom ▸ h
      cases hb : b₁.pBuffer with
      | none =>
        rw [hb] at hok
        cases hok
      | some mem =>
        rw [hb] at hok
        obtain ⟨src, -, hok⟩ := bind_eq_ok.mp hok
        obtain ⟨mem', hstore, hok⟩ := bind_eq_ok.mp hok
        obtain ⟨b₂, hstring, hok⟩ := bind_eq_ok.mp hok
        rw [← Except.ok.inj hok]
        refine BlockInt.makeString (@BlockInt.of_eq _ mem' rfl ?_) hstring
        rw [(store_length hstore).1]
        exact hblock mem hb

theorem BlockInt.insert [Malloc] (h : b.BlockInt) {p : Bytes} {i n : ℤ}
    (hok : b.insert i p n = .ok b') : b'.BlockInt := by
  obtain ⟨len, -, hok⟩ := bind_eq_ok.mp hok
  obtain ⟨b₁, hbytes, hok⟩ := bind_eq_ok.mp hok
  have hblock : b₁.BlockInt := by
    unfold insertBytes at hbytes
    split_ifs at hbytes
    · obtain ⟨new, hnew, hbytes⟩ := bind_eq_ok.mp hbytes
      obtain ⟨behind, -, hbytes⟩ := bind_eq_ok.mp hbytes
      obtain ⟨mem₁, hmem₁, hbytes⟩ := bind_eq_ok.mp hbytes
      obtain ⟨src, -, hbytes⟩ := bind_eq_ok.mp hbytes
      obtain ⟨mem₂, hmem₂, hbytes⟩ := bind_eq_ok.mp hbytes
      obtain ⟨before, -, hbytes⟩ := bind_eq_ok.mp hbytes
      obtain ⟨mem₃, hmem₃, hbytes⟩ := bind_eq_ok.mp hbytes
      refine @BlockInt.of_eq _ mem₃ (Except.ok.inj hbytes ▸ rfl) ?_
      rw [(store_length hmem₃).1, (store_length hmem₂).1, (store_length hmem₁).1]
      exact malloc_le (int32_le _) hnew
    · unfold Buffer.insertInPlace at hbytes
      cases hb : b.pBuffer with
      | none =>
        rw [hb] at hbytes
        cases hbytes
      | some mem =>
        rw [hb] at hbytes
        obtain ⟨behind, -, hbytes⟩ := bind_eq_ok.mp hbytes
        obtain ⟨mem₁, hmem₁, hbytes⟩ := bind_eq_ok.mp hbytes
        obtain ⟨src, -, hbytes⟩ := bind_eq_ok.mp hbytes
        obtain ⟨mem₂, hmem₂, hbytes⟩ := bind_eq_ok.mp hbytes
        refine @BlockInt.of_eq _ mem₂ (Except.ok.inj hbytes ▸ rfl) ?_
        rw [(store_length hmem₂).1, (store_length hmem₁).1]
        exact h mem hb
  exact BlockInt.makeString (b := { b₁ with tail := int32 (b₁.tail+len) }) hblock hok

theorem BlockInt.remove (h : b.BlockInt) {i n : ℤ} {r : ℤ × Buffer}
    (hok : b.remove i n = .ok r) : r.2.BlockInt := by
  unfold Buffer.remove at hok
  dsimp only at hok
  generalize (if b.bufferSize < n then b.bufferSize else n) = len at hok
  split_ifs at hok
  · exact Except.ok.inj hok ▸ h
  · exact Except.ok.inj hok ▸ h
  · rw [← Except.ok.inj hok]
    exact h
  · cases hb : b.pBuffer with
    | none =>
      rw [hb] at hok
      cases hok
    | some mem =>
      rw [hb] at hok
      obtain ⟨rest, -, hok⟩ := bind_eq_ok.mp hok
      obtain ⟨mem', hstore, hok⟩ := bind_eq_ok.mp hok
      rw [← Except.ok.inj hok]
      refine @BlockInt.of_eq _ mem' rfl ?_
      rw [(store_length hstore).1]
      exact h mem hb

theorem BlockInt.find (h : b.BlockInt) {pat : Bytes} {off : ℤ} {r : ℤ × Buffer}
    (hok : b.find pat off = .ok r) : r.2.BlockInt := by
  unfold Buffer.find at hok
  split_ifs at hok
  · exact Except.ok.inj hok ▸ h
  · obtain ⟨b₁, hstring, hok⟩ := bind_eq_ok.mp hok
    have hblock : b₁.BlockInt := h.makeString hstring
    cases hb : b₁.pBuffer with
    | none =>
      rw [hb] at hok
      cases hok
    | some mem =>
      rw [hb] at hok
      dsimp only at hok
      split_ifs at hok
      cases hfound : strstr (mem.drop off.toNat) pat with
      | none =>
        rw [hfound] at hok
        exact Except.ok.inj hok ▸ hblock
      | some k =>
        rw [hfound] at hok
        exact Except.ok.inj hok ▸ hblock

theorem BlockInt.trimBlanks (h : b.BlockInt) (hok : b.trimBlanks = .ok b') : b'.BlockInt := by
  unfold Buffer.trimBlanks at hok
  cases hb : b.pBuffer with
  | none =>
    rw [hb] at hok
    exact Except.ok.inj hok ▸ h
  | some mem =>
    rw [hb] at hok
    obtain ⟨j, -, hok⟩ := bind_eq_ok.mp hok
    obtain ⟨b₁, hremove, hok⟩ := bind_eq_ok.mp hok
    obtain ⟨k, -, hok⟩ := bind_eq_ok.mp hok
    have hblock : b₁.BlockInt := by
      unfold removeLeading at hremove
      split_ifs at hremove
      · exact Except.ok.inj hremove ▸ h
      · cases hr : b.remove 0 j with
        | error e =>
          rw [hr] at hremove
          cases hremove
        | ok r =>
          rw [hr] at hremove
          exact Except.ok.inj hremove ▸ h.remove hr
    split_ifs at hok
    · exact hblock.makeString hok
    · have htruncated : (b₁.truncate k).BlockInt := hblock
      exact htruncated.makeString hok

/-- A kept content in a block whose length is an `int`. -/
structure Sized (b : Buffer) (c : Bytes) : Prop where
  keeps : b.Keeps c
  block : b.BlockInt

theorem Sized.null : Buffer.Sized {} [] := ⟨Keeps.null, fun _ h => nomatch h⟩

/-! ### Append and ReplaceWith -/

/-- What is left when nothing is asked for. -/
theorem Keeps.fits_zero (h : b.Keeps c) : b.Fits 0 := by
  cases h with
  | null => exact Or.inr (by decide)
  | block c junk size hroom hsize hend hs => exact Or.inl (by dsimp only; omega)

theorem Keeps.tail_of_none (h : b.Keeps c) (hb : b.pBuffer = none) : b.tail = 0 := by
  cases h with
  | null => rfl
  | block c junk size hroom hsize hend hs => cases hb

theorem Keeps.space_nonneg (h : b.Keeps c) : 0 ≤ b.bufferSize-b.tail := by
  cases h with
  | null => decide
  | block c junk size hroom hsize hend hs =>
    dsimp only
    omega

/-- A size that wraps around when it is rounded up gives the smallest block. -/
theorem Keeps.setBufferSize_overflow [Malloc] (h : b.Keeps c) {n : ℤ} (hint : n ≤ intMax)
    (hover : intMax < n+8) (hle : b.bufferSize ≤ n) (hok : b.setBufferSize n = .ok b') :
    ∃ mem, b'.pBuffer = some mem ∧ mem.length = 32 ∧ b'.tail = b.tail := by
  -- eight more than the size is negative as an `int`, and all that is small becomes 32
  have hadjust : adjustSize n = 32 := adjustSize_overflow hint hover
  unfold Buffer.setBufferSize at hok
  cases hb : b.pBuffer with
  | none =>
    rw [hb, hadjust] at hok
    obtain ⟨mem, hmem, hok⟩ := bind_eq_ok.mp hok
    rw [malloc_ok _ (by decide)] at hmem
    refine ⟨mem, Except.ok.inj hok ▸ rfl, ?_, ?_⟩
    · rw [← Except.ok.inj hmem, Malloc.length_block]
      decide
    · rw [h.tail_of_none hb, ← Except.ok.inj hok]
  | some old =>
    rw [hb] at hok
    dsimp only at hok
    rw [if_pos hle, hadjust] at hok
    obtain ⟨new, hnew, hok⟩ := bind_eq_ok.mp hok
    obtain ⟨copied, -, hok⟩ := bind_eq_ok.mp hok
    obtain ⟨mem, hstore, hok⟩ := bind_eq_ok.mp hok
    rw [malloc_ok _ (by decide)] at hnew
    refine ⟨mem, Except.ok.inj hok ▸ rfl, ?_, Except.ok.inj hok ▸ rfl⟩
    rw [(store_length hstore).1, ← Except.ok.inj hnew, Malloc.length_block]
    decide

/-- Without room, the block behind the growth step does not hold the new content: its size has
wrapped around, or it stays as it is. -/
theorem Sized.appendRoom_short [Malloc] (h : b.Sized c) {n : ℕ} (hmax : (n : ℤ) ≤ intMax)
    (hfit : ¬ b.Fits n) (hok : b.appendRoom n = .ok b') :
    ∃ mem, b'.pBuffer = some mem ∧ (mem.length : ℤ) < b'.tail+n := by
  obtain ⟨hsize0, hsize⟩ := h.keeps.size_le
  have htail := h.keeps.tail_eq
  have hlong := h.keeps.length_lt
  have hspace0 := h.keeps.space_nonneg
  obtain ⟨hfull, hbig⟩ := not_or.mp hfit
  have hspace : int32 (b.bufferSize-b.tail) = b.bufferSize-b.tail := int32_eq (by omega) (by omega)
  have hmore : int32 (n-(b.bufferSize-b.tail)) = n-(b.bufferSize-b.tail) :=
    int32_eq (by omega) (by omega)
  have hnew : (n : ℤ)-(b.bufferSize-b.tail)+b.bufferSize = b.tail+n := by ring
  unfold appendRoom at hok
  dsimp only at hok
  rw [hspace, if_pos (by omega), hmore, hnew] at hok
  rcases le_or_gt (b.tail+n) intMax with hint | hwrap
  -- the size asked for is an `int`, but not when it is rounded up
  · rw [int32_eq (by omega) hint] at hok
    obtain ⟨mem, hmem, hlen, htail'⟩ :=
      h.keeps.setBufferSize_overflow hint (by omega) (by omega) hok
    refine ⟨mem, hmem, ?_⟩
    unfold intMax at hbig
    omega
  -- the size asked for is negative, and the block stays as it is
  · rw [int32_of_gt hwrap (by unfold intMax at *; omega)] at hok
    unfold Buffer.setBufferSize at hok
    cases hb : b.pBuffer with
    | none =>
      have hnull := h.keeps.tail_of_none hb
      omega
    | some old =>
      rw [hb] at hok
      dsimp only at hok
      rw [if_neg (by unfold intMax at *; omega)] at hok
      obtain rfl := Except.ok.inj hok
      have hold := h.block old hb
      exact ⟨old, hb, by omega⟩

/-- What is appended without room goes behind the end of the block. -/
theorem Sized.fits_of_append [Malloc] (h : b.Sized c) {p : Bytes} {n : ℕ} (hn : n ≤ p.length)
    (hmax : (n : ℤ) ≤ intMax) {r : ℤ × Buffer} (hok : b.append (some p) n = .ok r) : b.Fits n := by
  rcases Nat.eq_zero_or_pos n with rfl | hpos
  · exact h.keeps.fits_zero
  by_contra hfit
  unfold Buffer.append at hok
  rw [if_neg (by omega)] at hok
  dsimp only at hok
  rw [lengthArg_natCast, ok_bind] at hok
  obtain ⟨b₁, hroom, hok⟩ := bind_eq_ok.mp hok
  obtain ⟨mem, hmem, hshort⟩ := h.appendRoom_short hmax hfit hroom
  rw [hmem] at hok
  obtain ⟨src, hsrc, hok⟩ := bind_eq_ok.mp hok
  obtain ⟨mem', hstore, -⟩ := bind_eq_ok.mp hok
  rw [← Nat.cast_zero, fetch_ok (by omega)] at hsrc
  have hsrclen : src.length = n := by
    rw [← Except.ok.inj hsrc, List.drop_zero]
    exact List.length_take_of_le hn
  have hinside := (store_length hstore).2.2
  omega

/-- What `MakeString` has terminated is terminated. -/
theorem Keeps.closed_of_makeString (h : b'.Keeps c) (hb : b'.pBuffer ≠ none)
    (hok : b.makeString = .ok b') : b'.Closed c := by
  have htail := makeString_tail hok
  unfold Buffer.makeString at hok
  cases hmem : b.pBuffer with
  | none =>
    rw [hmem] at hok
    exact absurd (Except.ok.inj hok ▸ hmem) hb
  | some mem =>
    rw [hmem] at hok
    obtain ⟨mem', hstore, hok⟩ := bind_eq_ok.mp hok
    cases h with
    | null => exact absurd rfl hb
    | block c junk size hroom hsize hend hs =>
      obtain rfl : mem' = c ++ junk := Option.some.inj (congrArg Buffer.pBuffer (Except.ok.inj hok))
      dsimp only at htail
      rw [← htail] at hstore
      have hin := (store_length hstore).2.2
      unfold store at hstore
      rw [if_pos ⟨Int.natCast_nonneg _, hin⟩] at hstore
      have hbytes := Except.ok.inj hstore
      rw [Int.toNat_natCast, List.append_assoc] at hbytes
      have hfront : (mem.take c.length).length = c.length := by
        rw [List.length_singleton] at hin
        exact List.length_take_of_le (by omega)
      have hjunk := (List.append_inj hbytes hfront).2
      subst hjunk
      exact Closed.mk c _ size hroom hsize hend hs

theorem Sized.append [Malloc] (h : b.Sized c) {p : Bytes} {n : ℕ} (hn : n ≤ p.length)
    (hf : b.Fits n) : ∃ r, b.append (some p) n = .ok r ∧ r.2.Sized (c ++ p.take n) ∧
      (0 < n → r.2.Closed (c ++ p.take n)) := by
  obtain ⟨b', hok, hkeeps⟩ := h.keeps.append p hn hf
  refine ⟨_, hok, ⟨hkeeps, h.block.append hok⟩, fun hpos => ?_⟩
  unfold Buffer.append at hok
  rw [if_neg (by omega)] at hok
  dsimp only at hok
  rw [lengthArg_natCast, ok_bind] at hok
  obtain ⟨b₁, -, hok⟩ := bind_eq_ok.mp hok
  cases hb : b₁.pBuffer with
  | none =>
    rw [hb] at hok
    cases hok
  | some mem =>
    rw [hb] at hok
    obtain ⟨src, -, hok⟩ := bind_eq_ok.mp hok
    obtain ⟨mem', -, hok⟩ := bind_eq_ok.mp hok
    obtain ⟨b₂, hstring, hok⟩ := bind_eq_ok.mp hok
    obtain rfl : b₂ = b' := (Prod.mk.inj (Except.ok.inj hok)).2
    obtain ⟨mem₂, -, hblock⟩ := bind_eq_ok.mp hstring
    exact hkeeps.closed_of_makeString (Except.ok.inj hblock ▸ Option.some_ne_none mem₂) hstring

theorem Sized.reset (h : b.Sized c) : b.reset.Sized [] := ⟨h.keeps.reset, h.block⟩

theorem Sized.replaceWith [Malloc] (h : b.Sized c) {p : Bytes} {n : ℕ} (hn : n ≤ p.length)
    (hf : b.reset.Fits n) : ∃ r, b.replaceWith (some p) n = .ok r ∧ r.2.Sized (p.take n) ∧
      (0 < n → r.2.Closed (p.take n)) := by
  obtain ⟨r, hok, hsized, hclosed⟩ := h.reset.append hn hf
  refine ⟨r, ?_, hsized, hclosed⟩
  unfold Buffer.replaceWith
  dsimp only
  rw [lengthArg_natCast, ok_bind]
  exact hok

theorem Sized.fits_of_replaceWith [Malloc] (h : b.Sized c) {p : Bytes} {n : ℕ} (hn : n ≤ p.length)
    (hmax : (n : ℤ) ≤ intMax) {r : ℤ × Buffer} (hok : b.replaceWith (some p) n = .ok r) :
    b.reset.Fits n := by
  unfold Buffer.replaceWith at hok
  dsimp only at hok
  rw [lengthArg_natCast, ok_bind] at hok
  exact h.reset.fits_of_append hn hmax hok

/-! ### Insert -/

/-- The bytes that an insertion moves. -/
theorem Keeps.length_behind (h : b.Keeps c) {i : ℕ} (hi : i ≤ c.length) {behind : Bytes}
    (hfetch : fetch (b.pBuffer.getD []) i (int32 (b.tail-i)) = .ok behind) :
    behind.length = c.length-i := by
  have hlong := h.length_lt
  have hmoved : int32 (b.tail-i) = (c.length-i : ℕ) := by
    rw [h.tail_eq, int32_eq (by omega) (by omega)]
    omega
  rw [hmoved, h.fetch_content (by omega)] at hfetch
  rw [← Except.ok.inj hfetch, List.length_take, List.length_drop, min_self]

/-- The block that is grown to is too large, or its size wraps around to the smallest one. -/
theorem Sized.not_insertBytes_grown [Malloc] (h : b.Sized c) {p : Bytes} {i n : ℕ}
    (hi : i ≤ c.length) (hfit : ¬ b.FitsInsert n) (hint : b.tail+n < intMax) :
    b.insertBytes i p n (int32 (int32 ((n : ℤ)+b.tail)+1)) ≠ .ok b' := by
  intro hok
  obtain ⟨hsize0, hsize⟩ := h.keeps.size_le
  have htail := h.keeps.tail_eq
  have hlong := h.keeps.length_lt
  obtain ⟨hfull, hbig⟩ := not_or.mp hfit
  have hsum : int32 ((n : ℤ)+b.tail) = b.tail+n := by
    rw [add_comm, int32_eq (by omega) hint.le]
  have hnew : int32 (int32 ((n : ℤ)+b.tail)+1) = b.tail+n+1 := by
    rw [hsum, int32_eq (by omega) (by omega)]
  unfold insertBytes at hok
  rw [hnew, if_pos (by omega)] at hok
  obtain ⟨new, hmalloc, hok⟩ := bind_eq_ok.mp hok
  obtain ⟨behind, hfetch, hok⟩ := bind_eq_ok.mp hok
  obtain ⟨mem, hstore, -⟩ := bind_eq_ok.mp hok
  have hlen := h.keeps.length_behind hi hfetch
  have hinside := (store_length hstore).2.2
  rw [int32_eq (by omega) (by omega)] at hinside
  -- the rounding wraps around, or `malloc` is asked for one byte more than an `int` can count
  rcases lt_or_ge intMax (b.tail+n+1+8) with hover | hlast
  · rw [adjustSize_overflow (by omega) hover, malloc_ok _ (by decide)] at hmalloc
    have hsmall : new.length = 33 := by
      rw [← Except.ok.inj hmalloc, Malloc.length_block]
      decide
    unfold intMax at hbig
    omega
  · have hadjust : adjustSize (b.tail+n+1) = intMax := by
      have he : int32 (b.tail+n+1+8) = b.tail+n+1+8 := int32_eq (by omega) hlast
      unfold adjustSize
      rw [he]
      unfold intMax at hbig hlast ⊢
      dsimp only
      split_ifs <;> omega
    have hneg : int32 (intMax+1) = -2147483648 := by decide
    rw [hadjust, hneg] at hmalloc
    cases hmalloc

/-- The size asked for is negative when the lengths add up to `INT_MAX` or more. -/
theorem insert_size_neg {n : ℕ} (hmax : (n : ℤ) ≤ intMax) (hlong : b.tail < intMax)
    (hwrap : intMax ≤ b.tail+n) : int32 (int32 ((n : ℤ)+b.tail)+1) < 0 := by
  rcases eq_or_lt_of_le hwrap with heq | hgt
  · have hsum : (n : ℤ)+b.tail = intMax := by omega
    rw [hsum]
    decide
  · have hsum : int32 ((n : ℤ)+b.tail) = b.tail+n-4294967296 := by
      rw [add_comm]
      exact int32_of_gt hgt (by unfold intMax at hmax hlong; omega)
    have hnew : int32 (b.tail+n-4294967296+1) = b.tail+n-4294967296+1 :=
      int32_eq (by unfold intMax at hgt; omega) (by unfold intMax at hmax hlong ⊢; omega)
    rw [hsum, hnew]
    unfold intMax at hmax hlong
    omega

/-- Inside a block there is room for `INT_MAX` bytes at most, and then none for the terminator. -/
theorem Sized.insertInPlace_full (h : b.Sized c) {p : Bytes} {i n : ℕ} (hi : i ≤ c.length)
    (hmax : (n : ℤ) ≤ intMax) (hwrap : intMax ≤ b.tail+n) (hok : b.insertInPlace i p n = .ok b')
    {b₂ : Buffer} : ({ b' with tail := int32 (b'.tail+n) } : Buffer).makeString ≠ .ok b₂ := by
  intro hstring
  have htail := h.keeps.tail_eq
  have hlong := h.keeps.length_lt
  unfold Buffer.insertInPlace at hok
  cases hb : b.pBuffer with
  | none =>
    rw [hb] at hok
    cases hok
  | some old =>
    have hold := h.block old hb
    rw [hb] at hok
    obtain ⟨behind, hfetch, hok⟩ := bind_eq_ok.mp hok
    obtain ⟨mem₁, hstore₁, hok⟩ := bind_eq_ok.mp hok
    obtain ⟨src, hsrc, hok⟩ := bind_eq_ok.mp hok
    obtain ⟨mem₂, hstore₂, hok⟩ := bind_eq_ok.mp hok
    have hlen : behind.length = c.length-i :=
      h.keeps.length_behind hi (by rw [hb]; exact hfetch)
    obtain ⟨hlen₁, hat, hinside⟩ := store_length hstore₁
    -- a negative place is in front of the block
    have hpos : int32 ((i : ℤ)+n) = i+n := by
      rcases le_or_gt ((i : ℤ)+n) intMax with hle | hgt
      · exact int32_eq (by omega) hle
      · unfold intMax at hgt hmax hlong
        rw [int32_of_gt (by unfold intMax; omega) (by omega)] at hat
        omega
    rw [hpos] at hinside
    obtain rfl := Except.ok.inj hok
    have hle : b.tail+n ≤ intMax := by
      rw [hlen] at hinside
      clear hpos hat hok hfetch
      omega
    have hsum : b.tail+n = intMax := le_antisymm hle hwrap
    have hend : int32 (b.tail+n) = intMax := by
      rw [hsum]
      decide
    unfold Buffer.makeString at hstring
    dsimp only at hstring
    rw [hend] at hstring
    obtain ⟨mem₃, hstore₃, -⟩ := bind_eq_ok.mp hstring
    have hlast := (store_length hstore₃).2.2
    rw [(store_length hstore₂).1, hlen₁, List.length_singleton] at hlast
    omega

/-- An insertion without room: the size of the new block, or the one asked for, wraps around. -/
theorem Sized.fits_of_insert [Malloc] (h : b.Sized c) {p : Bytes} {i n : ℕ} (hi : i ≤ c.length)
    (hmax : (n : ℤ) ≤ intMax) (hok : b.insert i p n = .ok b') :
    b.FitsInsert n := by
  by_contra hfit
  have htail := h.keeps.tail_eq
  have hlong := h.keeps.length_lt
  obtain ⟨hsize0, -⟩ := h.keeps.size_le
  unfold Buffer.insert at hok
  rw [lengthArg_natCast, ok_bind] at hok
  obtain ⟨b₁, hbytes, hok⟩ := bind_eq_ok.mp hok
  rcases lt_or_ge (b.tail+n) intMax with hint | hwrap
  · exact h.not_insertBytes_grown hi hfit hint hbytes
  · have hneg := insert_size_neg hmax (by omega) hwrap
    unfold insertBytes at hbytes
    rw [if_neg (by omega)] at hbytes
    exact h.insertInPlace_full hi hmax hwrap hbytes hok

theorem Sized.insert [Malloc] (h : b.Sized c) {p : Bytes} {i n : ℕ} (hi : i ≤ c.length)
    (hn : n ≤ p.length) (hf : b.FitsInsert n) : ∃ b', b.insert i p n = .ok b' ∧
      b'.Sized (c.take i ++ p.take n ++ c.drop i) ∧
      b'.Closed (c.take i ++ p.take n ++ c.drop i) := by
  obtain ⟨b', hok, hclosed, -⟩ := h.keeps.insert p hi hn hf
  exact ⟨b', hok, ⟨hclosed.keeps, h.block.insert hok⟩, hclosed⟩

theorem Sized.remove (h : b.Sized c) {i n : ℕ} (h0 : 0 < n) (hin : i+n ≤ c.length) :
    ∃ r, b.remove i n = .ok r ∧ r.2.Sized (c.take i ++ c.drop (i+n)) ∧
      r.2.bufferSize = b.bufferSize := by
  obtain ⟨b', hok, hkeeps, hsize⟩ := h.keeps.remove h0 hin
  exact ⟨_, hok, ⟨hkeeps, h.block.remove hok⟩, hsize⟩

/-- Where the text is found, or -1; the text is terminated unless it is empty. -/
theorem Sized.find (h : b.Sized c) (pat : Bytes) {off : ℕ} (h0 : 0 ∉ c.drop off)
    (hoff : off ≤ c.length) :
    ∃ b', b.find pat off = .ok (if c = [] then -1 else
        (firstOcc pat (c.drop off)).elim (-1) fun k => ((off+k : ℕ) : ℤ), b') ∧ b'.Sized c ∧
      b'.bufferSize = b.bufferSize ∧ (b'.Closed c ∨ c = [] ∧ b' = b) := by
  rcases eq_or_ne c [] with rfl | hc
  · exact ⟨b, (h.keeps.find_nil _ _).trans (by rw [if_pos rfl]), h, rfl, Or.inr ⟨rfl, rfl⟩⟩
  · obtain ⟨b', hok, hclosed, hsize⟩ := h.keeps.find hc pat hoff
    rw [strstr_of_zero_notMem h0] at hok
    rw [if_neg hc]
    exact ⟨b', hok, ⟨hclosed.keeps, h.block.find hok⟩, hsize, Or.inl hclosed⟩

end Buffer
end MsgCourier
