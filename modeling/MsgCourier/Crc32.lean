import MsgCourier.Buffer
import MsgCourier.ShiftRegister

/-! `cCRC32`: check values of byte blocks, a byte at a time from a table. `unsigned long` is a word
of 64 bits, of which a check value fills the lower half. -/
namespace MsgCourier
open CText ShiftRegister

namespace Crc32

def crcTable : List (BitVec 64) :=
  [0x00000000, 0x77073096, 0xee0e612c, 0x990951ba, 0x076dc419, 0x706af48f, 0xe963a535, 0x9e6495a3,
   0x0edb8832, 0x79dcb8a4, 0xe0d5e91e, 0x97d2d988, 0x09b64c2b, 0x7eb17cbd, 0xe7b82d07, 0x90bf1d91,
   0x1db71064, 0x6ab020f2, 0xf3b97148, 0x84be41de, 0x1adad47d, 0x6ddde4eb, 0xf4d4b551, 0x83d385c7,
   0x136c9856, 0x646ba8c0, 0xfd62f97a, 0x8a65c9ec, 0x14015c4f, 0x63066cd9, 0xfa0f3d63, 0x8d080df5,
   0x3b6e20c8, 0x4c69105e, 0xd56041e4, 0xa2677172, 0x3c03e4d1, 0x4b04d447, 0xd20d85fd, 0xa50ab56b,
   0x35b5a8fa, 0x42b2986c, 0xdbbbc9d6, 0xacbcf940, 0x32d86ce3, 0x45df5c75, 0xdcd60dcf, 0xabd13d59,
   0x26d930ac, 0x51de003a, 0xc8d75180, 0xbfd06116, 0x21b4f4b5, 0x56b3c423, 0xcfba9599, 0xb8bda50f,
   0x2802b89e, 0x5f058808, 0xc60cd9b2, 0xb10be924, 0x2f6f7c87, 0x58684c11, 0xc1611dab, 0xb6662d3d,
   0x76dc4190, 0x01db7106, 0x98d220bc, 0xefd5102a, 0x71b18589, 0x06b6b51f, 0x9fbfe4a5, 0xe8b8d433,
   0x7807c9a2, 0x0f00f934, 0x9609a88e, 0xe10e9818, 0x7f6a0dbb, 0x086d3d2d, 0x91646c97, 0xe6635c01,
   0x6b6b51f4, 0x1c6c6162, 0x856530d8, 0xf262004e, 0x6c0695ed, 0x1b01a57b, 0x8208f4c1, 0xf50fc457,
   0x65b0d9c6, 0x12b7e950, 0x8bbeb8ea, 0xfcb9887c, 0x62dd1ddf, 0x15da2d49, 0x8cd37cf3, 0xfbd44c65,
   0x4db26158, 0x3ab551ce, 0xa3bc0074, 0xd4bb30e2, 0x4adfa541, 0x3dd895d7, 0xa4d1c46d, 0xd3d6f4fb,
   0x4369e96a, 0x346ed9fc, 0xad678846, 0xda60b8d0, 0x44042d73, 0x33031de5, 0xaa0a4c5f, 0xdd0d7cc9,
   0x5005713c, 0x270241aa, 0xbe0b1010, 0xc90c2086, 0x5768b525, 0x206f85b3, 0xb966d409, 0xce61e49f,
   0x5edef90e, 0x29d9c998, 0xb0d09822, 0xc7d7a8b4, 0x59b33d17, 0x2eb40d81, 0xb7bd5c3b, 0xc0ba6cad,
   0xedb88320, 0x9abfb3b6, 0x03b6e20c, 0x74b1d29a, 0xead54739, 0x9dd277af, 0x04db2615, 0x73dc1683,
   0xe3630b12, 0x94643b84, 0x0d6d6a3e, 0x7a6a5aa8, 0xe40ecf0b, 0x9309ff9d, 0x0a00ae27, 0x7d079eb1,
   0xf00f9344, 0x8708a3d2, 0x1e01f268, 0x6906c2fe, 0xf762575d, 0x806567cb, 0x196c3671, 0x6e6b06e7,
   0xfed41b76, 0x89d32be0, 0x10da7a5a, 0x67dd4acc, 0xf9b9df6f, 0x8ebeeff9, 0x17b7be43, 0x60b08ed5,
   0xd6d6a3e8, 0xa1d1937e, 0x38d8c2c4, 0x4fdff252, 0xd1bb67f1, 0xa6bc5767, 0x3fb506dd, 0x48b2364b,
   0xd80d2bda, 0xaf0a1b4c, 0x36034af6, 0x41047a60, 0xdf60efc3, 0xa867df55, 0x316e8eef, 0x4669be79,
   0xcb61b38c, 0xbc66831a, 0x256fd2a0, 0x5268e236, 0xcc0c7795, 0xbb0b4703, 0x220216b9, 0x5505262f,
   0xc5ba3bbe, 0xb2bd0b28, 0x2bb45a92, 0x5cb36a04, 0xc2d7ffa7, 0xb5d0cf31, 0x2cd99e8b, 0x5bdeae1d,
   0x9b64c2b0, 0xec63f226, 0x756aa39c, 0x026d930a, 0x9c0906a9, 0xeb0e363f, 0x72076785, 0x05005713,
   0x95bf4a82, 0xe2b87a14, 0x7bb12bae, 0x0cb61b38, 0x92d28e9b, 0xe5d5be0d, 0x7cdcefb7, 0x0bdbdf21,
   0x86d3d2d4, 0xf1d4e242, 0x68ddb3f8, 0x1fda836e, 0x81be16cd, 0xf6b9265b, 0x6fb077e1, 0x18b74777,
   0x88085ae6, 0xff0f6a70, 0x66063bca, 0x11010b5c, 0x8f659eff, 0xf862ae69, 0x616bffd3, 0x166ccf45,
   0xa00ae278, 0xd70dd2ee, 0x4e048354, 0x3903b3c2, 0xa7672661, 0xd06016f7, 0x4969474d, 0x3e6e77db,
   0xaed16a4a, 0xd9d65adc, 0x40df0b66, 0x37d83bf0, 0xa9bcae53, 0xdebb9ec5, 0x47b2cf7f, 0x30b5ffe9,
   0xbdbdf21c, 0xcabac28a, 0x53b39330, 0x24b4a3a6, 0xbad03605, 0xcdd70693, 0x54de5729, 0x23d967bf,
   0xb3667a2e, 0xc4614ab8, 0x5d681b02, 0x2a6f2b94, 0xb40bbe37, 0xc30c8ea1, 0x5a05df1b, 0x2d02ef8d]

/-- `m_CRCTable[(hash ^ *key++) & 0xff] ^ (hash >> 8)` -/
def nextHash (hash : BitVec 64) (c : Byte) : BitVec 64 :=
  crcTable.getD ((hash ^^^ c.toBitVec.setWidth 64) &&& 0xff).toNat 0 ^^^ (hash >>> 8)

/-- The loop, with the number of bytes still asked for. -/
def crcLoop : ℕ → Bytes → BitVec 64 → Cxx (BitVec 64)
  | 0, _, hash => .ok hash
  | _+1, [], _ => .error .undefined
  | n+1, c :: key, hash => crcLoop n key (nextHash hash c)

def crc (key : Bytes) (len : ℤ) (lasthash : BitVec 64) : Cxx (BitVec 64) := do
  -- `len--` runs below the smallest int
  if len = -intMax - 1 then throw .undefined
  let hash ← crcLoop len.toNat key (lasthash ^^^ 0xffffffff#64)
  return hash ^^^ 0xffffffff#64

/-- The generator whose check values `cCRC32` computes. -/
def generator : Generator 64 32 where
  word := 0xedb88320
  isLt := by decide
  top := by decide

/-- The bits of a block, each byte from its lowest bit. -/
def blockBits (s : Bytes) : List Bool := s.flatMap fun c => bitsOf c.toBitVec

theorem crcTable_eq :
    crcTable = (List.range 256).map fun i => (shift generator.word)^[8] (BitVec.ofNat 64 i) := by
  decide +kernel

theorem crcTable_getD {i : ℕ} (hi : i < 256) :
    crcTable.getD i 0 = (shift generator.word)^[8] (BitVec.ofNat 64 i) := by
  rw [crcTable_eq]
  simp [hi]

/-- The index into the table is the lowest byte of the register. -/
theorem and_mask (r : BitVec 64) : r &&& 0xff = lowPart 8 r := by
  apply BitVec.eq_of_getLsbD_eq
  intro i hi
  have hmask : (0xff#64).getLsbD i = decide (i < 8) := by
    rw [show (0xff#64) = (BitVec.allOnes 8).setWidth 64 by decide, BitVec.getLsbD_setWidth,
      BitVec.getLsbD_allOnes]
    simp [hi]
  rw [getLsbD_lowPart, ← hmask, BitVec.getLsbD_and, Bool.and_comm]
  rfl

/-- A step of the loop takes in the eight bits of its byte. -/
theorem nextHash_eq_run (hash : BitVec 64) (c : Byte) :
    nextHash hash c = run generator.word hash (bitsOf c.toBitVec) := by
  have hmove : (hash ^^^ c.toBitVec.setWidth 64) >>> 8 = hash >>> 8 := by
    apply BitVec.eq_of_getLsbD_eq
    intro i hi
    simp
  have hlow : (lowPart 8 (hash ^^^ c.toBitVec.setWidth 64)).toNat < 256 := by
    rw [lowPart, BitVec.toNat_setWidth]
    exact (Nat.mod_le _ _).trans_lt (BitVec.isLt _)
  calc nextHash hash c
      = (shift generator.word)^[8] (lowPart 8 (hash ^^^ c.toBitVec.setWidth 64)) ^^^
          ((hash ^^^ c.toBitVec.setWidth 64) >>> 8) := by
        rw [nextHash, and_mask, crcTable_getD hlow, BitVec.ofNat_toNat, BitVec.setWidth_eq, hmove]
    _ = (shift generator.word)^[8] (hash ^^^ c.toBitVec.setWidth 64) :=
        (iterate_eq_lowPart generator.word _).symm
    _ = run generator.word hash (bitsOf c.toBitVec) := by
        rw [run_eq_iterate generator.word hash (by rw [bits_length]; omega), bits_length,
          pack_bitsOf]

theorem crcLoop_eq (n : ℕ) (key : Bytes) (hash : BitVec 64) :
    crcLoop n key hash = if n ≤ key.length then
      .ok (run generator.word hash (blockBits (key.take n))) else .error .undefined := by
  induction n generalizing key hash with
  | zero => simp [crcLoop, blockBits, run]
  | succ n ih =>
    cases key with
    | nil => simp [crcLoop]
    | cons c key =>
      rw [crcLoop, ih, nextHash_eq_run]
      simp [blockBits, run_append]

/-- What the loop returns, with the lowest `int` left aside. -/
theorem crc_eq {len : ℤ} (hlen : -intMax - 1 ≠ len) (key : Bytes) (lasthash : BitVec 64) :
    crc key len lasthash =
      if len.toNat ≤ key.length then
        .ok (run generator.word (lasthash ^^^ 0xffffffff#64) (blockBits (key.take len.toNat)) ^^^
          0xffffffff#64)
      else .error .undefined := by
  unfold crc
  rw [crcLoop_eq]
  by_cases hkey : len.toNat ≤ key.length
  · simp [hkey, Ne.symm hlen]
  · simp [hkey, Ne.symm hlen]

/-- The table computes the check value of the generator bit by bit: whatever check value a call
starts from, it returns exactly when the block holds the bytes asked for, and then what a division
of their bits leaves. -/
theorem crc_eq_run (key : Bytes) (len : ℤ) (lasthash : BitVec 64) :
    crc key len lasthash =
      if -intMax - 1 ≠ len ∧ len.toNat ≤ key.length then
        .ok (run generator.word (lasthash ^^^ 0xffffffff#64) (blockBits (key.take len.toNat)) ^^^
          0xffffffff#64)
      else .error .undefined := by
  by_cases hlen : len = -intMax - 1
  · unfold crc
    simp [hlen, throw, throwThe, MonadExceptOf.throw]
  · rw [crc_eq (Ne.symm hlen)]
    simp [Ne.symm hlen]

theorem crc_ok (key : Bytes) (lasthash : BitVec 64) :
    crc key key.length lasthash =
      .ok (run generator.word (lasthash ^^^ 0xffffffff#64) (blockBits key) ^^^ 0xffffffff#64) := by
  have hmin : -intMax - 1 ≠ (key.length : ℤ) := by
    unfold intMax
    omega
  rw [crc_eq hmin]
  simp

/-! Which damage a check value shows. -/

theorem blockBits_append (s t : Bytes) : blockBits (s ++ t) = blockBits s ++ blockBits t :=
  List.flatMap_append

theorem blockBits_length (s : Bytes) : (blockBits s).length = 8*s.length := by
  induction s with
  | nil => rfl
  | cons c s ih =>
    have hbyte := bits_length c.toBitVec
    rw [blockBits, List.flatMap_cons, List.length_append, hbyte, List.length_cons, ← blockBits, ih]
    omega

theorem bitsOf_inj {c d : Byte} (h : bitsOf c.toBitVec = bitsOf d.toBitVec) : c = d := by
  have hpack := congrArg (pack 8) h
  rw [pack_bitsOf, pack_bitsOf, BitVec.setWidth_eq, BitVec.setWidth_eq] at hpack
  exact UInt8.toBitVec_inj.mp hpack

theorem blockBits_inj {s t : Bytes} (h : blockBits s = blockBits t) : s = t := by
  induction s generalizing t with
  | nil =>
    have hlen := congrArg List.length h
    rw [blockBits_length, blockBits_length] at hlen
    exact (List.eq_nil_of_length_eq_zero (by simpa using hlen.symm)).symm
  | cons c s ih =>
    cases t with
    | nil =>
      have hlen := congrArg List.length h
      rw [blockBits_length, blockBits_length] at hlen
      simp at hlen
    | cons d t =>
      have hbits : bitsOf c.toBitVec ++ blockBits s = bitsOf d.toBitVec ++ blockBits t := h
      have hparts := List.append_inj hbits (by rw [bits_length, bits_length])
      rw [bitsOf_inj hparts.1, ih hparts.2]

/-- Every row of bits of whole bytes is that of one block. -/
theorem exists_blockBits (n : ℕ) {x : List Bool} (hx : x.length = 8*n) :
    ∃ s : Bytes, s.length = n ∧ blockBits s = x := by
  induction n generalizing x with
  | zero => exact ⟨[], rfl, (List.eq_nil_of_length_eq_zero (by simpa using hx)).symm⟩
  | succ n ih =>
    obtain ⟨s, hs, hbits⟩ := ih (x := x.drop 8) (by rw [List.length_drop]; omega)
    have hfirst : (x.take 8).length = 8 := by rw [List.length_take]; omega
    have hbyte : bitsOf (pack 8 (x.take 8)) = x.take 8 := by
      apply pack_inj (w := 8) (by rw [bits_length, hfirst]) (by rw [bits_length])
      rw [pack_bitsOf, BitVec.setWidth_eq]
    refine ⟨UInt8.ofBitVec (pack 8 (x.take 8)) :: s, by rw [List.length_cons, hs], ?_⟩
    calc blockBits (UInt8.ofBitVec (pack 8 (x.take 8)) :: s)
        = bitsOf (pack 8 (x.take 8)) ++ blockBits s := rfl
      _ = x := by rw [hbyte, hbits, List.take_append_drop]

theorem xor_right_inj {a b c : BitVec 64} (h : a ^^^ c = b ^^^ c) : a = b := by
  have hxor := congrArg (· ^^^ c) h
  simpa [BitVec.xor_assoc] using hxor

/-- Two rows that agree outside a window share what stands in front of it and behind it. -/
theorem eq_of_agree {x y : List Bool} {first width : ℕ}
    (h : ∀ i, x[i]? ≠ y[i]? → first ≤ i ∧ i < first+width) :
    x.take first = y.take first ∧ x.drop (first+width) = y.drop (first+width) := by
  constructor
  · apply List.ext_getElem?
    intro i
    by_cases hi : i < first
    · rw [List.getElem?_take_of_lt hi, List.getElem?_take_of_lt hi]
      by_contra hne
      exact absurd (h i hne).1 (by omega)
    · rw [List.getElem?_eq_none (by rw [List.length_take]; omega),
        List.getElem?_eq_none (by rw [List.length_take]; omega)]
  · apply List.ext_getElem?
    intro i
    rw [List.getElem?_drop, List.getElem?_drop]
    by_contra hne
    exact absurd (h _ hne).2 (by omega)

/-- Two different blocks of one length whose bits differ only within 32 successive places have
different check values. -/
theorem crc_ne_of_burst {s t : Bytes} (hlen : s.length = t.length) (hne : s ≠ t) {first : ℕ}
    (hburst : ∀ i, (blockBits s)[i]? ≠ (blockBits t)[i]? → first ≤ i ∧ i < first+32)
    (lasthash : BitVec 64) :
    ∃ v w, crc s s.length lasthash = .ok v ∧ crc t t.length lasthash = .ok w ∧ v ≠ w := by
  refine ⟨_, _, crc_ok s lasthash, crc_ok t lasthash, ?_⟩
  have hrows : (blockBits s).length = (blockBits t).length := by
    rw [blockBits_length, blockBits_length, hlen]
  obtain ⟨hfront, hback⟩ := eq_of_agree hburst
  have hwindow (x : List Bool) :
      x = x.take first ++ (x.drop first).take 32 ++ x.drop (first+32) := by
    rw [List.append_assoc, ← List.drop_drop, List.take_append_drop, List.take_append_drop]
  intro heq
  have hrun := xor_right_inj heq
  rw [hwindow (blockBits s), hwindow (blockBits t), ← hfront, ← hback] at hrun
  refine generator.run_ne_of_window _ _ _ ?_ ?_ ?_ hrun
  · simp [hrows]
  · simp
  · intro hsame
    apply hne
    apply blockBits_inj
    rw [hwindow (blockBits s), hwindow (blockBits t), hfront, hback, hsame]

theorem crc_ne_swapped :
    ∃ v w, crc (bytes "ab") 2 0 = .ok v ∧ crc (bytes "ba") 2 0 = .ok w ∧ v ≠ w := by
  have hwithin : ∀ i, (blockBits (bytes "ab"))[i]? ≠ (blockBits (bytes "ba"))[i]? →
      0 ≤ i ∧ i < 0+32 := by
    intro i h
    refine ⟨i.zero_le, ?_⟩
    by_contra hi
    apply h
    rw [List.getElem?_eq_none (by rw [blockBits_length]; simp [bytes]; omega),
      List.getElem?_eq_none (by rw [blockBits_length]; simp [bytes]; omega)]
  exact crc_ne_of_burst (by decide) (by decide) hwithin 0

theorem lt_of_xor_mask {v : BitVec 64} (h : v.toNat < 2^32) :
    (v ^^^ 0xffffffff#64).toNat < 2^32 :=
  xor_lt_two_pow h (by decide)

/-- A check value tells nothing about who made the block: between any front and any back, four
bytes can be set in exactly one way so that the block gets a given check value. -/
theorem existsUnique_four_bytes (front back : Bytes) (lasthash : BitVec 64) {wanted : BitVec 64}
    (hwanted : wanted.toNat < 2^32) :
    ∃! four : Bytes, four.length = 4 ∧
      crc (front ++ four ++ back) (front.length+4+back.length) lasthash = .ok wanted := by
  have hcrc {four : Bytes} (hfour : four.length = 4) :
      crc (front ++ four ++ back) (front.length+4+back.length) lasthash = .ok wanted ↔
        run generator.word (lasthash ^^^ 0xffffffff#64)
          (blockBits front ++ blockBits four ++ blockBits back) = wanted ^^^ 0xffffffff#64 := by
    have hlen : (front ++ four ++ back).length = front.length+4+back.length := by
      rw [List.length_append, List.length_append, hfour]
    have hok := crc_ok (front ++ four ++ back) lasthash
    rw [hlen] at hok
    push_cast at hok
    rw [hok, Except.ok.injEq, blockBits_append, blockBits_append]
    constructor
    · intro h
      rw [← h, BitVec.xor_assoc, BitVec.xor_self, BitVec.xor_zero]
    · intro h
      rw [h, BitVec.xor_assoc, BitVec.xor_self, BitVec.xor_zero]
  obtain ⟨x, ⟨hx, hrun⟩, honly⟩ := generator.existsUnique_window (by decide) _
    (lt_of_xor_mask hwanted) (blockBits front) (blockBits back)
  obtain ⟨four, hfour, hbits⟩ := exists_blockBits 4 hx
  refine ⟨four, ⟨hfour, (hcrc hfour).mpr (by rw [hbits, hrun])⟩, ?_⟩
  intro other hother
  apply blockBits_inj
  rw [hbits]
  exact honly _ ⟨by rw [blockBits_length, hother.1], (hcrc hother.1).mp hother.2⟩

theorem existsUnique_zero_value :
    ∃! four : Bytes, four.length = 4 ∧ crc (bytes "id" ++ four ++ []) (2+4+0) 0 = .ok 0 :=
  existsUnique_four_bytes (bytes "id") [] 0 (by decide)

end Crc32

end MsgCourier
