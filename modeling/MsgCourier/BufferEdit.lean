import MsgCourier.TextBlock

/-! The operations of `cBuffer` that edit inside the content, and buffers whose block may be longer
than their size: `Insert` allocates a byte that it does not count. -/
namespace MsgCourier
open ListSearch CText

namespace Buffer

/-! ### The operations -/

/-- The first `m_iTail` bytes. -/
def content (b : Buffer) : Bytes := (b.pBuffer.getD []).take b.tail.toNat

def flush (_ : Buffer) : Buffer := {}

def truncate (b : Buffer) (iCount : ℤ) : Buffer := { b with tail := int32 (b.tail-iCount) }

/-- The new block of `Insert`: what stands behind the index, the new bytes, what stands before. -/
def insertGrown [Malloc] (b : Buffer) (iIndex : ℤ) (pData : Bytes) (iLength iNewSize : ℤ) :
    Cxx Buffer := do
  let iNewSize := adjustSize iNewSize
  let pBuffer ← malloc b (int32 (iNewSize+1))
  let behind ← fetch (b.pBuffer.getD []) iIndex (int32 (b.tail-iIndex))
  let pBuffer ← store pBuffer (int32 (iIndex+iLength)) behind
  let src ← fetch pData 0 iLength
  let pBuffer ← store pBuffer iIndex src
  let before ← fetch (b.pBuffer.getD []) 0 iIndex
  let pBuffer ← store pBuffer 0 before
  pure { b with pBuffer := some pBuffer, bufferSize := iNewSize }

def insertInPlace (b : Buffer) (iIndex : ℤ) (pData : Bytes) (iLength : ℤ) : Cxx Buffer :=
  match b.pBuffer with
  | none => .error .undefined
  | some mem => do
    let behind ← fetch mem iIndex (int32 (b.tail-iIndex))
    let mem ← store mem (int32 (iIndex+iLength)) behind
    let src ← fetch pData 0 iLength
    let mem ← store mem iIndex src
    pure { b with pBuffer := some mem }

def insertBytes [Malloc] (b : Buffer) (iIndex : ℤ) (pData : Bytes) (iLength iNewSize : ℤ) :
    Cxx Buffer :=
  if b.bufferSize < iNewSize then b.insertGrown iIndex pData iLength iNewSize
  else b.insertInPlace iIndex pData iLength

def insert [Malloc] (b : Buffer) (iIndex : ℤ) (pData : Bytes) (iLength : ℤ) : Cxx Buffer := do
  let iLength ← lengthArg pData iLength
  let b ← b.insertBytes iIndex pData iLength (int32 (int32 (iLength+b.tail)+1))
  { b with tail := int32 (b.tail+iLength) : Buffer }.makeString

def prepend [Malloc] (b : Buffer) (pData : Option Bytes) (iSize : ℤ) : Cxx (ℤ × Buffer) :=
  match pData with
  | none => pure (bufferParamInvalid, b)
  | some p => do
    let iSize ← lengthArg p iSize
    let b ← b.insert 0 p iSize
    pure (bufferNoError, b)

/-! ### A block that is longer than the size -/

/-- `b` is a buffer with content `c`: no block yet, or a block with more than the content below the
size, and perhaps one byte behind the size. -/
inductive Keeps : Buffer → Bytes → Prop
  | null : Keeps {} []
  | block (c junk : Bytes) (size : ℕ) (hroom : c.length < size)
      (hsize : size ≤ (c ++ junk).length) (hend : (c ++ junk).length ≤ size+1)
      (hs : (size : ℤ) ≤ intMax) :
      Keeps ⟨some (c ++ junk), size, c.length⟩ c

/-- The same buffer with more bytes behind its block. -/
def pad (b : Buffer) (extra : Bytes) : Buffer :=
  { b with pBuffer := b.pBuffer.map (· ++ extra) }

theorem pad_nil (b : Buffer) : b.pad [] = b := by
  unfold pad
  cases hb : b.pBuffer with
  | none => rw [Option.map_none, ← hb]
  | some mem => rw [Option.map_some, List.append_nil, ← hb]

theorem Holds.keeps {b : Buffer} {c extra : Bytes} (h : b.Holds c) (hextra : extra.length ≤ 1) :
    (b.pad extra).Keeps c := by
  cases h with
  | null => exact Keeps.null
  | block c junk hj hs =>
    have hlen := List.length_pos_iff.mpr hj
    have hblock : Buffer.pad ⟨some (c ++ junk), (c ++ junk).length, c.length⟩ extra =
        ⟨some (c ++ (junk ++ extra)), (c ++ junk).length, c.length⟩ := by
      rw [pad, Option.map_some, List.append_assoc]
    rw [hblock]
    refine Keeps.block c (junk ++ extra) _ ?_ ?_ ?_ hs
    · rw [List.length_append]
      omega
    · rw [← List.append_assoc]
      exact (List.prefix_append (c ++ junk) extra).length_le
    · rw [← List.append_assoc, List.length_append]
      omega

theorem keeps_terminated {c : Bytes} (hc : (c.length : ℤ) < intMax) : (terminated c).Keeps c := by
  rw [← pad_nil (terminated c)]
  exact (holds_terminated hc).keeps (Nat.zero_le _)

/-- Up to the bytes behind the size it is a buffer whose block has that size. -/
theorem Keeps.exists_pad {b : Buffer} {c : Bytes} (h : b.Keeps c) :
    ∃ (b₀ : Buffer) (extra : Bytes), b₀.Holds c ∧ b = b₀.pad extra ∧ extra.length ≤ 1 := by
  cases h with
  | null => exact ⟨{}, [], Holds.null, rfl, Nat.zero_le _⟩
  | block c junk size hroom hsize hend hs =>
    have hinside : ((c ++ junk).take size).length = size := List.length_take_of_le hsize
    have htake : (c ++ junk).take size = c ++ junk.take (size-c.length) := by
      rw [List.take_append, List.take_of_length_le hroom.le]
    rw [htake] at hinside
    have hj : junk.take (size-c.length) ≠ [] := by
      intro hnil
      rw [hnil, List.append_nil] at hinside
      omega
    have hholds := Holds.block c (junk.take (size-c.length)) hj (by rw [hinside]; exact hs)
    rw [hinside] at hholds
    refine ⟨_, junk.drop (size-c.length), hholds, ?_, ?_⟩
    · rw [pad, Option.map_some, List.append_assoc, List.take_append_drop]
    · rw [List.length_append] at hend
      rw [List.length_drop]
      omega

theorem Keeps.tail_eq {b : Buffer} {c : Bytes} (h : b.Keeps c) : b.tail = c.length := by
  cases h <;> rfl

theorem Keeps.content_eq {b : Buffer} {c : Bytes} (h : b.Keeps c) : b.content = c := by
  cases h with
  | null => rfl
  | block c junk size hroom hsize hend hs => exact List.take_left

theorem Keeps.unique {b : Buffer} {c c' : Bytes} (h : b.Keeps c) (h' : b.Keeps c') : c = c' := by
  exact h.content_eq.symm.trans h'.content_eq

/-- The content lies inside the size, and the size inside the block. -/
theorem Keeps.bounds {b : Buffer} {c mem : Bytes} (h : b.Keeps c) (hmem : b.pBuffer = some mem) :
    0 ≤ b.tail ∧ b.tail < b.bufferSize ∧ b.bufferSize ≤ mem.length := by
  cases h with
  | null => cases hmem
  | block c junk size hroom hsize hend hs =>
    obtain rfl := Option.some.inj hmem
    exact ⟨Int.natCast_nonneg _, Int.ofNat_lt.mpr hroom, Int.ofNat_le.mpr hsize⟩

theorem fetch_append {mem r : Bytes} {i n : ℤ} (h : fetch mem i n = .ok r) (extra : Bytes) :
    fetch (mem ++ extra) i n = .ok r := by
  unfold fetch at h ⊢
  split_ifs at h with hrange
  have hle : n.toNat ≤ (mem.drop i.toNat).length := by
    rw [List.length_drop]
    omega
  rw [if_pos ⟨hrange.1, hrange.2.1, by rw [List.length_append]; omega⟩,
    List.drop_append_of_le_length (by omega), List.take_append_of_le_length hle]
  exact h

theorem store_append {mem mem' src : Bytes} {i : ℤ} (h : store mem i src = .ok mem')
    (extra : Bytes) : store (mem ++ extra) i src = .ok (mem' ++ extra) := by
  unfold store at h ⊢
  split_ifs at h with hrange
  rw [if_pos ⟨hrange.1, by rw [List.length_append]; omega⟩, ← Except.ok.inj h,
    List.take_append_of_le_length (by omega), List.drop_append_of_le_length (by omega),
    List.append_assoc, List.append_assoc, List.append_assoc]

theorem makeString_pad {b b' : Buffer} (h : b.makeString = .ok b') (extra : Bytes) :
    (b.pad extra).makeString = .ok (b'.pad extra) := by
  unfold makeString at h ⊢
  unfold pad
  cases hb : b.pBuffer with
  | none =>
    rw [hb] at h
    rw [← Except.ok.inj h, hb]
    rfl
  | some mem =>
    rw [hb] at h
    obtain ⟨mem', hmem', h⟩ := bind_eq_ok.mp h
    rw [← Except.ok.inj h]
    dsimp only [Option.map_some]
    rw [store_append hmem' extra]
    rfl

/-- The allocator that gives a buffer what the given one gives the longer block. -/
abbrev mallocOfPad [Malloc] (extra : Bytes) : Malloc where
  block b n := Malloc.block (b.pad extra) n
  length_block _ _ := Malloc.length_block _ _

theorem malloc_pad [Malloc] (b : Buffer) (n : ℤ) (extra : Bytes) :
    malloc (b.pad extra) n = @malloc (mallocOfPad extra) b n := rfl

/-- Growing leaves no bytes behind the size. -/
theorem setBufferSize_pad [Malloc] {b b' : Buffer} {n : ℤ} {extra : Bytes}
    (h : @setBufferSize (mallocOfPad extra) b n = .ok b') :
    ∃ extra' : Bytes, (b.pad extra).setBufferSize n = .ok (b'.pad extra') ∧
      extra'.length ≤ extra.length := by
  unfold setBufferSize at h ⊢
  simp only [malloc_pad]
  unfold pad
  cases hb : b.pBuffer with
  | none =>
    rw [hb] at h
    exact ⟨[], h.trans (congrArg Except.ok (pad_nil b').symm), Nat.zero_le _⟩
  | some mem =>
    rw [hb] at h
    dsimp only [Option.map_some] at h ⊢
    split_ifs at h ⊢ with hgrow
    · obtain ⟨block, hblock, h⟩ := bind_eq_ok.mp h
      obtain ⟨old, hold, h⟩ := bind_eq_ok.mp h
      refine ⟨[], ?_, Nat.zero_le _⟩
      rw [hblock, ok_bind, fetch_append hold extra, ok_bind, h]
      exact congrArg Except.ok (pad_nil b').symm
    · refine ⟨extra, ?_, le_rfl⟩
      rw [← Except.ok.inj h, hb]
      rfl

theorem appendRoom_pad [Malloc] {b b' : Buffer} {n : ℤ} {extra : Bytes}
    (h : @appendRoom (mallocOfPad extra) b n = .ok b') :
    ∃ extra' : Bytes, (b.pad extra).appendRoom n = .ok (b'.pad extra') ∧
      extra'.length ≤ extra.length := by
  unfold appendRoom at h ⊢
  dsimp only at h
  split_ifs at h with hfull
  · obtain ⟨extra', hset, hle⟩ := setBufferSize_pad h
    exact ⟨extra', (if_pos hfull).trans hset, hle⟩
  · exact ⟨extra, (if_neg hfull).trans (Except.ok.inj h ▸ rfl), le_rfl⟩

theorem append_pad [Malloc] {b b' : Buffer} {pData : Option Bytes} {n k : ℤ}
    {extra : Bytes} (h : @append (mallocOfPad extra) b pData n = .ok (k, b')) :
    ∃ extra' : Bytes, (b.pad extra).append pData n = .ok (k, b'.pad extra') ∧
      extra'.length ≤ extra.length := by
  unfold append at h ⊢
  split_ifs at h ⊢
  · obtain ⟨rfl, rfl⟩ := Prod.mk.inj (Except.ok.inj h)
    exact ⟨extra, rfl, le_rfl⟩
  · cases pData with
    | none =>
      obtain ⟨rfl, rfl⟩ := Prod.mk.inj (Except.ok.inj h)
      exact ⟨extra, rfl, le_rfl⟩
    | some p =>
      obtain ⟨len, hlen, h⟩ := bind_eq_ok.mp h
      obtain ⟨b₁, hroom, h⟩ := bind_eq_ok.mp h
      obtain ⟨extra', hroom', hle⟩ := appendRoom_pad hroom
      dsimp only
      rw [hlen, ok_bind, hroom', ok_bind]
      cases hblock : b₁.pBuffer with
      | none =>
        rw [hblock] at h
        cases h
      | some mem =>
        rw [hblock] at h
        obtain ⟨src, hsrc, h⟩ := bind_eq_ok.mp h
        obtain ⟨mem', hmem', h⟩ := bind_eq_ok.mp h
        obtain ⟨b₂, hstring, h⟩ := bind_eq_ok.mp h
        obtain ⟨rfl, rfl⟩ := Prod.mk.inj (Except.ok.inj h)
        refine ⟨extra', ?_, hle⟩
        have hpad : (b₁.pad extra').pBuffer = some (mem ++ extra') := by
          rw [pad, hblock]
          rfl
        have htail : (b₁.pad extra').tail = b₁.tail := rfl
        rw [hpad, htail]
        dsimp only
        rw [hsrc, ok_bind, store_append hmem' extra', ok_bind]
        exact congrArg (· >>= _) (makeString_pad hstring extra')

theorem replaceWith_pad [Malloc] {b b' : Buffer} {pData : Option Bytes} {n k : ℤ}
    {extra : Bytes} (h : @replaceWith (mallocOfPad extra) b pData n = .ok (k, b')) :
    ∃ extra' : Bytes, (b.pad extra).replaceWith pData n = .ok (k, b'.pad extra') ∧
      extra'.length ≤ extra.length := by
  unfold replaceWith at h ⊢
  cases pData with
  | none =>
    obtain ⟨rfl, rfl⟩ := Prod.mk.inj (Except.ok.inj h)
    exact ⟨extra, rfl, le_rfl⟩
  | some p =>
    obtain ⟨len, hlen, h⟩ := bind_eq_ok.mp h
    dsimp only
    rw [hlen, ok_bind]
    exact append_pad h

/-! ### What the operations do to the content -/

/-- A kept content with a NUL right behind it. -/
inductive Closed : Buffer → Bytes → Prop
  | mk (c junk : Bytes) (size : ℕ) (hroom : c.length < size)
      (hsize : size ≤ (c ++ 0 :: junk).length) (hend : (c ++ 0 :: junk).length ≤ size+1)
      (hs : (size : ℤ) ≤ intMax) :
      Closed ⟨some (c ++ 0 :: junk), size, c.length⟩ c

theorem Closed.keeps {b : Buffer} {c : Bytes} (h : b.Closed c) : b.Keeps c := by
  obtain ⟨c, junk, size, hroom, hsize, hend, hs⟩ := h
  exact Keeps.block c (0 :: junk) size hroom hsize hend hs

theorem Closed.pBuffer_eq {b : Buffer} {c : Bytes} (h : b.Closed c) :
    ∃ junk, b.pBuffer = some (c ++ 0 :: junk) := by
  obtain ⟨c, junk, size, hroom, hsize, hend, hs⟩ := h
  exact ⟨junk, rfl⟩

theorem makeString_keeps {c junk : Bytes} {size : ℕ} (hroom : c.length < size)
    (hsize : size ≤ (c ++ junk).length) (hend : (c ++ junk).length ≤ size+1)
    (hs : (size : ℤ) ≤ intMax) :
    ∃ b', makeString ⟨some (c ++ junk), size, c.length⟩ = .ok b' ∧ b'.Closed c ∧
      b'.pBuffer = some (c ++ 0 :: junk.tail) ∧ b'.bufferSize = size := by
  cases junk with
  | nil =>
    rw [List.append_nil] at hsize
    omega
  | cons a junk =>
    have hlen : (c ++ 0 :: junk).length = (c ++ a :: junk).length := by
      rw [List.length_append, List.length_append, List.length_cons, List.length_cons]
    refine ⟨_, ?_, Closed.mk c junk size hroom (hlen ▸ hsize) (hlen ▸ hend) hs, rfl, rfl⟩
    have hstore : store (c ++ a :: junk) c.length [0] = .ok (c ++ 0 :: junk) :=
      poke_append c a junk 0
    unfold makeString
    dsimp only
    rw [hstore]
    rfl

theorem Keeps.makeString {b : Buffer} {c : Bytes} (h : b.Keeps c) :
    b = {} ∧ c = [] ∨ ∃ b', b.makeString = .ok b' ∧ b'.Closed c := by
  cases h with
  | null => exact Or.inl ⟨rfl, rfl⟩
  | block c junk size hroom hsize hend hs =>
    obtain ⟨b', hb', hclosed, _, _⟩ := makeString_keeps hroom hsize hend hs
    exact Or.inr ⟨b', hb', hclosed⟩

theorem Closed.makeString {b : Buffer} {c : Bytes} (h : b.Closed c) : b.makeString = .ok b := by
  obtain ⟨c, junk, size, hroom, hsize, hend, hs⟩ := h
  have hstore : store (c ++ 0 :: junk) c.length [0] = .ok (c ++ 0 :: junk) :=
    poke_append c 0 junk 0
  unfold Buffer.makeString
  dsimp only
  rw [hstore]
  rfl

theorem Keeps.setBufferSize [Malloc] {b : Buffer} {c : Bytes} (h : b.Keeps c) {n : ℤ} (h0 : 0 ≤ n)
    (hf : n < b.bufferSize ∨ n+8 ≤ intMax) :
    ∃ b', b.setBufferSize n = .ok b' ∧ b'.Keeps c ∧ n < b'.bufferSize := by
  obtain ⟨b₀, extra, hholds, rfl, hextra⟩ := h.exists_pad
  obtain ⟨junk, hset, hroom, hs, hj⟩ := @Holds.setBufferSize (mallocOfPad extra) _ _ hholds _ h0 hf
  obtain ⟨extra', hset', hle⟩ := setBufferSize_pad hset
  exact ⟨_, hset', (Holds.block c junk hj hs).keeps (hle.trans hextra), hroom⟩

theorem Keeps.append [Malloc] {b : Buffer} {c : Bytes} (h : b.Keeps c) (p : Bytes) {n : ℕ}
    (hn : n ≤ p.length) (hf : b.Fits n) :
    ∃ b', b.append (some p) n = .ok (0, b') ∧ b'.Keeps (c ++ p.take n) := by
  obtain ⟨b₀, extra, hholds, rfl, hextra⟩ := h.exists_pad
  obtain ⟨b', hb', hholds', _⟩ := @Holds.append (mallocOfPad extra) _ _ hholds p _ hn hf
  obtain ⟨extra', hpad, hle⟩ := append_pad hb'
  exact ⟨_, hpad, hholds'.keeps (hle.trans hextra)⟩

theorem Keeps.reset {b : Buffer} {c : Bytes} (h : b.Keeps c) : b.reset.Keeps [] := by
  obtain ⟨b₀, extra, hholds, rfl, hextra⟩ := h.exists_pad
  exact hholds.reset.keeps hextra

theorem Keeps.replaceWith [Malloc] {b : Buffer} {c : Bytes} (h : b.Keeps c) (p : Bytes) {n : ℕ}
    (hn : n ≤ p.length) (hf : b.reset.Fits n) :
    ∃ b', b.replaceWith (some p) n = .ok (0, b') ∧ b'.Keeps (p.take n) := by
  obtain ⟨b₀, extra, hholds, rfl, hextra⟩ := h.exists_pad
  obtain ⟨b', hb', hholds', _⟩ := @Holds.replaceWith (mallocOfPad extra) _ _ hholds p _ hn hf
  obtain ⟨extra', hpad, hle⟩ := replaceWith_pad hb'
  exact ⟨_, hpad, hholds'.keeps (hle.trans hextra)⟩

theorem Keeps.lt_size {b : Buffer} {c : Bytes} (h : b.Keeps c) (hc : c ≠ []) :
    (c.length : ℤ) < b.bufferSize := by
  cases h with
  | null => exact absurd rfl hc
  | block c junk size hroom hsize hend hs => exact Int.ofNat_lt.mpr hroom

theorem Keeps.length_lt {b : Buffer} {c : Bytes} (h : b.Keeps c) : (c.length : ℤ) < intMax := by
  obtain ⟨b₀, extra, hholds, _, _⟩ := h.exists_pad
  exact hholds.length_lt

/-- A part of the content is removed, and what the block has behind the content is the end of the
old content. -/
theorem remove_block {c : Bytes} (junk : Bytes) {size i n : ℕ} (hroom : c.length < size)
    (hs : (size : ℤ) ≤ intMax) (h0 : 0 < n) (hin : i+n ≤ c.length) :
    remove ⟨some (c ++ junk), size, c.length⟩ i n =
      .ok (bufferNoError, ⟨some (c.take i ++ c.drop (i+n) ++ (c.drop (c.length-n) ++ junk)), size,
        ((c.take i ++ c.drop (i+n)).length : ℕ)⟩) := by
  have hlen : (c.take i ++ c.drop (i+n)).length = c.length-n := by
    rw [List.length_append, List.length_take_of_le (by omega), List.length_drop]
    omega
  have hoffset : int32 ((n : ℤ)+i) = (i+n : ℕ) := by
    rw [int32_eq (by omega) (by omega)]
    omega
  have htail : int32 ((c.length : ℤ)-n) = (c.length-n : ℕ) := by
    rw [int32_eq (by omega) (by omega)]
    omega
  have hc0 : ¬ (c.length : ℤ) = 0 := by omega
  have hlong : ¬ (size : ℤ) < n := by omega
  have hvalid : ¬ ((n : ℤ) = 0 ∨ (size : ℤ) < (i+n : ℕ)) := by omega
  unfold remove
  dsimp only
  rw [if_neg hc0, if_neg hlong, hoffset, if_neg hvalid, htail, hlen]
  split_ifs with hend
  · -- the end of the content goes and the block stays
    have hend' : i+n = c.length := by omega
    have hi : c.length-n = i := by omega
    rw [hend', List.drop_length, List.append_nil, hi, ← List.append_assoc, List.take_append_drop]
    rfl
  · have hmoved : int32 ((c.length : ℤ)-(i+n : ℕ)) = (c.length-(i+n) : ℕ) := by
      rw [int32_eq (by omega) (by omega)]
      omega
    have hfetch : fetch (c ++ junk) ((i+n : ℕ) : ℤ) ((c.length-(i+n) : ℕ) : ℤ) =
        .ok (c.drop (i+n)) := by
      rw [fetch_ok (by rw [List.length_append]; omega), List.drop_append_of_le_length hin,
        List.take_append_of_le_length (by rw [List.length_drop]),
        List.take_of_length_le (by rw [List.length_drop])]
    have hkept : i+(c.drop (i+n)).length ≤ (c ++ junk).length := by
      rw [List.length_append, List.length_drop]
      omega
    have hdrop : (c ++ junk).drop (i+(c.drop (i+n)).length) = c.drop (c.length-n) ++ junk := by
      have hpos : i+(c.drop (i+n)).length = c.length-n := by
        rw [List.length_drop]
        omega
      rw [hpos, List.drop_append_of_le_length (by omega)]
    rw [hmoved, hfetch, ok_bind, store_ok hkept, hdrop, List.take_append_of_le_length (by omega)]
    rfl

theorem Keeps.remove {b : Buffer} {c : Bytes} (h : b.Keeps c) {i n : ℕ} (h0 : 0 < n)
    (hin : i+n ≤ c.length) :
    ∃ b', b.remove i n = .ok (bufferNoError, b') ∧ b'.Keeps (c.take i ++ c.drop (i+n)) ∧
      b'.bufferSize = b.bufferSize := by
  cases h with
  | null =>
    rw [List.length_nil] at hin
    omega
  | block c junk size hroom hsize hend hs =>
    refine ⟨_, remove_block junk hroom hs h0 hin, ?_, rfl⟩
    have hlen : (c.take i ++ c.drop (i+n) ++ (c.drop (c.length-n) ++ junk)).length =
        (c ++ junk).length := by
      simp only [List.length_append, List.length_take_of_le (show i ≤ c.length by omega),
        List.length_drop]
      omega
    refine Keeps.block _ _ size ?_ (hlen ▸ hsize) (hlen ▸ hend) hs
    rw [List.length_append, List.length_take_of_le (by omega), List.length_drop]
    omega

/-- Two copies that leave no gap. -/
theorem store_store {mem behind : Bytes} {i : ℕ} (src : Bytes)
    (hroom : i+src.length+behind.length ≤ mem.length) :
    ∃ mem', store mem (i+src.length : ℕ) behind = .ok mem' ∧ store mem' i src =
      .ok (mem.take i ++ (src ++ (behind ++ mem.drop (i+src.length+behind.length)))) := by
  have hgap : (mem.take (i+src.length)).length = i+src.length :=
    List.length_take_of_le (by omega)
  have hfits : i+src.length ≤ (mem.take (i+src.length) ++ (behind ++
      mem.drop (i+src.length+behind.length))).length := by
    rw [List.length_append, hgap]
    exact Nat.le_add_right _ _
  refine ⟨_, store_ok hroom, ?_⟩
  rw [List.append_assoc, store_ok hfits, List.drop_left' hgap,
    List.take_append_of_le_length (by rw [hgap]; omega), List.take_take, min_eq_left (by omega),
    List.append_assoc]

theorem adjustSize_lt {n : ℤ} (h0 : 0 ≤ n) (h : n+9 ≤ intMax) : adjustSize n < intMax := by
  have he : int32 (n+8) = n+8 := int32_eq (by omega) (by omega)
  unfold adjustSize
  rw [he]
  unfold intMax at h ⊢
  dsimp only
  split_ifs <;> omega

/-- Room for `n` more bytes and a terminator, below the size or in a block that can be allocated. -/
def FitsInsert (b : Buffer) (n : ℤ) : Prop :=
  b.tail+n+1 ≤ b.bufferSize ∨ b.tail+n+10 ≤ intMax

variable {b : Buffer} {c : Bytes}

theorem Keeps.size_le (h : b.Keeps c) : 0 ≤ b.bufferSize ∧ b.bufferSize ≤ intMax := by
  cases h with
  | null => decide
  | block c junk size hroom hsize hend hs => exact ⟨Int.natCast_nonneg _, hs⟩

/-- What is read from the old block: a null block is read at no place when the content is empty. -/
theorem Keeps.fetch_content (h : b.Keeps c) {i n : ℕ} (hin : i+n ≤ c.length) :
    fetch (b.pBuffer.getD []) i n = .ok ((c.drop i).take n) := by
  cases h with
  | null =>
    rw [List.length_nil] at hin
    obtain ⟨rfl, rfl⟩ : i = 0 ∧ n = 0 := by omega
    rfl
  | block c junk size hroom hsize hend hs =>
    rw [Option.getD_some, fetch_ok (by rw [List.length_append]; omega),
      List.drop_append_of_le_length (by omega),
      List.take_append_of_le_length (by rw [List.length_drop]; omega)]

/-- What `memcpy` and `memmove` write for an insertion, in a block with enough room. -/
theorem store_insert {mem p behind : Bytes} {i n : ℕ} (hn : n ≤ p.length)
    (hroom : i+n+behind.length ≤ mem.length) :
    ∃ mem', store mem (i+n : ℕ) behind = .ok mem' ∧ store mem' i (p.take n) =
      .ok (mem.take i ++ (p.take n ++ (behind ++ mem.drop (i+n+behind.length)))) := by
  have hlen : (p.take n).length = n := List.length_take_of_le hn
  have hstores := store_store (p.take n) (hlen.symm ▸ hroom)
  rwa [hlen] at hstores

theorem Keeps.insertGrown [Malloc] (h : b.Keeps c) {p : Bytes} {i n : ℕ} (hi : i ≤ c.length)
    (hn : n ≤ p.length) (hf : (c.length : ℤ)+n+10 ≤ intMax) (hgrow : b.bufferSize < c.length+n+1) :
    ∃ (junk : Bytes) (size : ℕ), b.insertGrown i p n (c.length+n+1) =
        .ok ⟨some (c.take i ++ (p.take n ++ (c.drop i ++ junk))), size, c.length⟩ ∧
      c.length+n < size ∧ size ≤ c.length+n+junk.length ∧ c.length+n+junk.length ≤ size+1 ∧
      (size : ℤ) ≤ intMax ∧ b.bufferSize ≤ size := by
  have hnew : 0 ≤ (c.length : ℤ)+n+1 := by omega
  obtain ⟨hlo, hhi⟩ := adjustSize_gt hnew (by omega)
  have hlast := adjustSize_lt hnew (by omega)
  obtain ⟨size, hsize⟩ : ∃ size : ℕ, adjustSize (c.length+n+1) = size :=
    Int.eq_ofNat_of_zero_le (by omega)
  rw [hsize] at hlo hhi hlast
  have hbig : c.length+n < size := by omega
  obtain ⟨new, hblock⟩ : ∃ new, new = Malloc.block b (size+1) := ⟨_, rfl⟩
  have hlen : new.length = size+1 := by rw [hblock, Malloc.length_block]
  have hdrop : (c.drop i).length = c.length-i := List.length_drop
  have hroom : i+n+(c.drop i).length ≤ new.length := by omega
  have hstart : (new.take i).length = (c.take i).length := by
    rw [List.length_take_of_le hi, List.length_take_of_le (by omega)]
  have hjunk : c.length+n+(new.drop (i+n+(c.drop i).length)).length = size+1 := by
    rw [List.length_drop]
    omega
  have hmalloc : malloc b (int32 ((size : ℤ)+1)) = .ok new := by
    rw [int32_eq (by omega) (by omega), malloc_ok _ (by omega), hblock]
    rfl
  have hmoved : int32 (b.tail-i) = (c.length-i : ℕ) := by
    rw [h.tail_eq, int32_eq (by omega) (by omega)]
    omega
  have hbehind : fetch (b.pBuffer.getD []) i (c.length-i : ℕ) = .ok (c.drop i) := by
    rw [h.fetch_content (by omega), List.take_of_length_le hdrop.le]
  have hbefore : fetch (b.pBuffer.getD []) (0 : ℕ) i = .ok (c.take i) := by
    rw [h.fetch_content (by omega), List.drop_zero]
  have hsrc : fetch p (0 : ℕ) n = .ok (p.take n) := fetch_ok (by omega)
  obtain ⟨mem, hfirst, hsecond⟩ := store_insert hn hroom
  have hthird : store (new.take i ++ (p.take n ++ (c.drop i ++
      new.drop (i+n+(c.drop i).length)))) 0 (c.take i) =
      .ok (c.take i ++ (p.take n ++ (c.drop i ++ new.drop (i+n+(c.drop i).length)))) := by
    rw [store_zero (by rw [List.length_append, hstart]; exact Nat.le_add_right _ _),
      List.drop_left' hstart]
  have hpos : int32 ((i : ℤ)+n) = (i+n : ℕ) := int32_eq (by omega) (by omega)
  refine ⟨new.drop (i+n+(c.drop i).length), size, ?_, hbig, by omega, hjunk.le, hhi, by omega⟩
  rw [Nat.cast_zero] at hbefore hsrc
  unfold Buffer.insertGrown
  rw [hsize]
  dsimp only
  rw [hmalloc, ok_bind, hmoved, hbehind, ok_bind, hpos, hfirst, ok_bind, hsrc, ok_bind, hsecond,
    ok_bind, hbefore, ok_bind, hthird, ok_bind, h.tail_eq]
  rfl

/-- An insertion below the size moves the end of the content over the bytes behind it. -/
theorem insertInPlace_block {c p : Bytes} (old : Bytes) {size i n : ℕ} (hi : i ≤ c.length)
    (hn : n ≤ p.length) (hfree : c.length+n < size) (hsize : size ≤ (c ++ old).length)
    (hs : (size : ℤ) ≤ intMax) :
    insertInPlace ⟨some (c ++ old), size, c.length⟩ i p n =
      .ok ⟨some (c.take i ++ (p.take n ++ (c.drop i ++ old.drop n))), size, c.length⟩ := by
  have hdrop : (c.drop i).length = c.length-i := List.length_drop
  have hlen : i+n+(c.drop i).length = c.length+n := by omega
  have hkept : (c ++ old).drop (i+n+(c.drop i).length) = old.drop n := by
    rw [hlen, List.drop_length_add_append]
  have hroom : i+n+(c.drop i).length ≤ (c ++ old).length := by omega
  have hmoved : int32 ((c.length : ℤ)-i) = (c.length-i : ℕ) := by
    rw [int32_eq (by omega) (by omega)]
    omega
  have hbehind : fetch (c ++ old) i (c.length-i : ℕ) = .ok (c.drop i) := by
    rw [fetch_ok (by rw [List.length_append]; omega), List.drop_append_of_le_length hi,
      List.take_left' hdrop]
  have hsrc : fetch p (0 : ℕ) n = .ok (p.take n) := fetch_ok (by omega)
  obtain ⟨mem, hfirst, hsecond⟩ := store_insert hn hroom
  have hpos : int32 ((i : ℤ)+n) = (i+n : ℕ) := int32_eq (by omega) (by omega)
  rw [Nat.cast_zero] at hsrc
  rw [hkept] at hsecond
  unfold Buffer.insertInPlace
  dsimp only
  rw [hmoved, hbehind, ok_bind, hpos, hfirst, ok_bind, hsrc, ok_bind, hsecond, ok_bind,
    List.take_append_of_le_length hi]
  rfl

theorem Keeps.insertInPlace (h : b.Keeps c) {p : Bytes} {i n : ℕ} (hi : i ≤ c.length)
    (hn : n ≤ p.length) (hfree : (c.length : ℤ)+n+1 ≤ b.bufferSize) :
    ∃ (junk : Bytes) (size : ℕ), b.insertInPlace i p n =
        .ok ⟨some (c.take i ++ (p.take n ++ (c.drop i ++ junk))), size, c.length⟩ ∧
      c.length+n < size ∧ size ≤ c.length+n+junk.length ∧ c.length+n+junk.length ≤ size+1 ∧
      (size : ℤ) ≤ intMax ∧ b.bufferSize ≤ size := by
  cases h with
  | null =>
    dsimp only at hfree
    omega
  | block c old size hkept hsize hend hs =>
    dsimp only at hfree
    have hbig : c.length+n < size := by omega
    have hlen : c.length+old.length = (c ++ old).length := List.length_append.symm
    have hjunk : (old.drop n).length = old.length-n := List.length_drop
    exact ⟨old.drop n, size, insertInPlace_block old hi hn hbig hsize hs, hbig, by omega, by omega,
      hs, le_rfl⟩

theorem Keeps.insert [Malloc] (h : b.Keeps c) (p : Bytes) {i n : ℕ} (hi : i ≤ c.length)
    (hn : n ≤ p.length) (hf : b.FitsInsert n) :
    ∃ b', b.insert i p n = .ok b' ∧ b'.Closed (c.take i ++ p.take n ++ c.drop i) ∧
      b.bufferSize ≤ b'.bufferSize := by
  have htail := h.tail_eq
  obtain ⟨hpos, hmax⟩ := h.size_le
  unfold FitsInsert at hf
  have hnew : int32 (int32 ((n : ℤ)+b.tail)+1) = c.length+n+1 := by
    rw [int32_eq (by omega) (show (n : ℤ)+b.tail ≤ intMax by omega), int32_eq (by omega) (by omega)]
    omega
  have hlen : (c.take i ++ p.take n ++ c.drop i).length = c.length+n := by
    rw [List.length_append, List.length_append, List.length_take_of_le hi,
      List.length_take_of_le hn, List.length_drop]
    omega
  have htail' : int32 ((c.length : ℤ)+n) = ((c.take i ++ p.take n ++ c.drop i).length : ℕ) := by
    rw [int32_eq (by omega) (by omega), hlen]
    omega
  obtain ⟨junk, size, hok, hroom, hsize, hend, hs, hle⟩ : ∃ (junk : Bytes) (size : ℕ),
      b.insertBytes i p n (c.length+n+1) =
        .ok ⟨some (c.take i ++ (p.take n ++ (c.drop i ++ junk))), size, c.length⟩ ∧
      c.length+n < size ∧ size ≤ c.length+n+junk.length ∧ c.length+n+junk.length ≤ size+1 ∧
      (size : ℤ) ≤ intMax ∧ b.bufferSize ≤ size := by
    unfold insertBytes
    split_ifs with hgrow
    · exact h.insertGrown hi hn (by omega) hgrow
    · exact h.insertInPlace hi hn (by omega)
  rw [← hlen] at hroom hsize hend
  rw [← List.length_append] at hsize hend
  obtain ⟨b', hb', hclosed, _, hkept⟩ := makeString_keeps hroom hsize hend hs
  refine ⟨b', ?_, hclosed, hkept ▸ hle⟩
  unfold Buffer.insert
  rw [lengthArg_natCast, ok_bind, hnew, hok, ok_bind, htail', ← List.append_assoc,
    ← List.append_assoc]
  exact hb'

/-- A shorter content leaves its end as stale bytes. -/
theorem Keeps.shorten (h : b.Keeps c) {n : ℕ} (hn : n ≤ c.length) :
    { b with tail := n : Buffer }.Keeps (c.take n) := by
  cases h with
  | null =>
    obtain rfl : n = 0 := Nat.le_zero.mp hn
    exact Keeps.null
  | block c junk size hroom hsize hend hs =>
    have hlen : (c.take n).length = n := List.length_take_of_le hn
    have hblock : c.take n ++ (c.drop n ++ junk) = c ++ junk := by
      rw [← List.append_assoc, List.take_append_drop]
    have hkeeps := Keeps.block (c.take n) (c.drop n ++ junk) size (by omega) (hblock ▸ hsize)
      (hblock ▸ hend) hs
    rwa [hblock, hlen] at hkeeps

/-- `Find` inside the content terminates it and searches the text from the offset on. -/
theorem Keeps.find (h : b.Keeps c) (hc : c ≠ []) (pat : Bytes) {off : ℕ} (hoff : off ≤ c.length) :
    ∃ b', b.find pat off =
      .ok ((strstr (c.drop off) pat).elim (-1) fun k => ((off+k : ℕ) : ℤ), b') ∧
      b'.Closed c ∧ b'.bufferSize = b.bufferSize := by
  cases h with
  | null => exact absurd rfl hc
  | block c junk size hroom hsize hend hs =>
    obtain ⟨b', hb', hclosed, hmem, hkept⟩ := makeString_keeps hroom hsize hend hs
    have hlen := List.length_pos_iff.mpr hc
    have htail : ¬ (c.length : ℤ) = 0 := by omega
    have hrange : 0 ≤ (off : ℤ) ∧ (off : ℤ) ≤ (c ++ 0 :: junk.tail).length := by
      rw [List.length_append]
      omega
    have hdrop : strstr ((c ++ 0 :: junk.tail).drop off) pat = strstr (c.drop off) pat := by
      rw [List.drop_append_of_le_length hoff, strstr, cstr_append_zero, strstr]
    refine ⟨b', ?_, hclosed, hkept⟩
    unfold Buffer.find
    dsimp only
    rw [if_neg htail, hb', ok_bind, hmem]
    dsimp only
    rw [if_pos hrange, Int.toNat_natCast, hdrop]
    cases strstr (c.drop off) pat with
    | none => rfl
    | some k => rfl

theorem Keeps.find_nil (h : b.Keeps []) (pat : Bytes) (off : ℤ) : b.find pat off = .ok (-1, b) := by
  have htail : b.tail = 0 := h.tail_eq
  unfold Buffer.find
  rw [if_pos htail]
  rfl

end Buffer
end MsgCourier
