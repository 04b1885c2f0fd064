import MsgCourier.BufferContent
import Mathlib.Data.Fin.VecNotation

/-! `cBase64`: groups of three bytes as four characters, put together in an internal buffer. -/
namespace MsgCourier
open ListSearch CText

def base64Ok : ℤ := 0

/-- `m_status` is what both functions return, and is not kept. -/
structure Base64 where
  internalBuffer : Buffer := {}

namespace Base64

/-- The alphabet and its terminator. -/
def base64 : Bytes :=
  bytes "ABCDEFGHIJKLMNOPQRSTUVWXYZabcdefghijklmnopqrstuvwxyz0123456789+/" ++ [0]

/-- In the locale of the program. -/
def isalnum (c : Byte) : Bool :=
  (48 ≤ c && c ≤ 57) || (65 ≤ c && c ≤ 90) || (97 ≤ c && c ≤ 122)

def is_base64 (c : Byte) : Bool := isalnum c || c = 43 || c = 47

/-- The place in the alphabet or -1, as an `unsigned char`. -/
def find (c : Byte) : Byte := ((base64.findIdx? (· = c)).map UInt8.ofNat).getD 255

/-! ### One group -/

def encodeGroup (a b c : Byte) : Bytes :=
  [(a &&& 0xfc) >>> 2, ((a &&& 0x03) <<< 4) + ((b &&& 0xf0) >>> 4),
    ((b &&& 0x0f) <<< 2) + ((c &&& 0xc0) >>> 6), c &&& 0x3f].map fun k => base64.getD k.toNat 0

def decodeGroup (p q r s : Byte) : Bytes :=
  [(find p <<< 2) + ((find q &&& 0x30) >>> 4), ((find q &&& 0xf) <<< 4) + ((find r &&& 0x3c) >>> 2),
    ((find r &&& 0x3) <<< 6) + find s]

/-! ### The loops -/

/-- `charArray3` holds the bytes of the group that is not full, and `cp` bytes are written. -/
def encodeLoop (charArray3 : Bytes) : Bytes → Bytes → ℕ → Cxx (Bytes × Bytes × ℕ)
  | [], buffer, cp => pure (charArray3, buffer, cp)
  | b :: rest, buffer, cp =>
    let charArray3 := charArray3 ++ [b]
    if charArray3.length = 3 then do
      let buffer ← store buffer cp
        (encodeGroup (charArray3.getD 0 0) (charArray3.getD 1 0) (charArray3.getD 2 0))
      encodeLoop [] rest buffer (cp+4)
    else encodeLoop charArray3 rest buffer cp

/-- The last group is filled with zeros, and with `=` in place of what they stand for. -/
def encodeTail (charArray3 buffer : Bytes) (cp : ℕ) : Cxx (Bytes × ℕ) :=
  let i := charArray3.length
  if i = 0 then pure (buffer, cp)
  else do
    let group := encodeGroup (charArray3.getD 0 0) (charArray3.getD 1 0) (charArray3.getD 2 0)
    let buffer ← store buffer cp (group.take (i+1) ++ List.replicate (3-i) 61)
    pure (buffer, cp+4)

/-- The loop ends at padding and at a character outside the alphabet. -/
def decodeLoop (charArray4 : Bytes) : Bytes → Bytes → ℕ → Cxx (Bytes × Bytes × ℕ)
  | [], buffer, cp => pure (charArray4, buffer, cp)
  | c :: rest, buffer, cp =>
    if c ≠ 61 ∧ is_base64 c then
      let charArray4 := charArray4 ++ [c]
      if charArray4.length = 4 then do
        let buffer ← store buffer cp (decodeGroup (charArray4.getD 0 0) (charArray4.getD 1 0)
          (charArray4.getD 2 0) (charArray4.getD 3 0))
        decodeLoop [] rest buffer (cp+3)
      else decodeLoop charArray4 rest buffer cp
    else pure (charArray4, buffer, cp)

def decodeTail (charArray4 buffer : Bytes) (cp : ℕ) : Cxx (Bytes × ℕ) :=
  let i := charArray4.length
  if i = 0 then pure (buffer, cp)
  else do
    let group := decodeGroup (charArray4.getD 0 0) (charArray4.getD 1 0) (charArray4.getD 2 0)
      (charArray4.getD 3 0)
    let buffer ← store buffer cp (group.take (i-1))
    pure (buffer, cp+(i-1))

/-- The internal buffer is asked for twice the bytes, as an `int`. -/
def encode [Malloc] (x : Base64) (pBuffer : Buffer) : Cxx (ℤ × Base64 × Buffer) := do
  let bytesToEncode ← fetch (pBuffer.pBuffer.getD []) 0 pBuffer.tail
  let internalBuffer ← x.internalBuffer.reset.setBufferSize (int32 (2*pBuffer.tail))
  let (charArray3, buffer, cp) ← encodeLoop [] bytesToEncode (internalBuffer.pBuffer.getD []) 0
  let (buffer, cp) ← encodeTail charArray3 buffer cp
  let (_, pBuffer) ← pBuffer.replaceWith (some buffer) cp
  pure (base64Ok, ⟨{ internalBuffer with pBuffer := some buffer }⟩, pBuffer)

def decode [Malloc] (x : Base64) (pBuffer : Buffer) : Cxx (ℤ × Base64 × Buffer) := do
  let encodedString ← fetch (pBuffer.pBuffer.getD []) 0 pBuffer.tail
  let internalBuffer ← x.internalBuffer.reset.setBufferSize pBuffer.tail
  let (charArray4, buffer, cp) ← decodeLoop [] encodedString (internalBuffer.pBuffer.getD []) 0
  let (buffer, cp) ← decodeTail charArray4 buffer cp
  let (_, pBuffer) ← pBuffer.replaceWith (some buffer) cp
  pure (base64Ok, ⟨{ internalBuffer with pBuffer := some buffer }⟩, pBuffer)

/-! ### The code of a text -/

/-- The characters that the loops put together. -/
def encoded : Bytes → Bytes
  | [] => []
  | [a] => (encodeGroup a 0 0).take 2 ++ [61, 61]
  | [a, b] => (encodeGroup a b 0).take 3 ++ [61]
  | a :: b :: c :: s => encodeGroup a b c ++ encoded s

theorem length_encoded (s : Bytes) : (encoded s).length = 4*((s.length+2)/3) := by
  fun_induction encoded s with
  | case1 => rfl
  | case2 a => simp [encodeGroup]
  | case3 a b => simp [encodeGroup]
  | case4 a b c s ih =>
    have hgroup : (encodeGroup a b c).length = 4 := rfl
    simp only [List.length_append, List.length_cons, ih, hgroup]
    omega

theorem forall_byte {P : Byte → Prop} (h : ∀ n : Fin 256, P (UInt8.ofNat n)) (x : Byte) : P x := by
  have hx := h ⟨x.toNat, x.toNat_lt⟩
  rwa [UInt8.ofNat_toNat] at hx

/-- The masks and shifts of `Encode` as divisions. -/
theorem split_toNat (x : Byte) : ((x &&& 0xfc) >>> 2).toNat = x.toNat/4 ∧
    ((x &&& 0x03) <<< 4).toNat = x.toNat%4*16 ∧ ((x &&& 0xf0) >>> 4).toNat = x.toNat/16 ∧
    ((x &&& 0x0f) <<< 2).toNat = x.toNat%16*4 ∧ ((x &&& 0xc0) >>> 6).toNat = x.toNat/64 ∧
    (x &&& 0x3f).toNat = x.toNat%64 := by
  apply forall_byte (P := fun x => ((x &&& 0xfc) >>> 2).toNat = x.toNat/4 ∧
    ((x &&& 0x03) <<< 4).toNat = x.toNat%4*16 ∧ ((x &&& 0xf0) >>> 4).toNat = x.toNat/16 ∧
    ((x &&& 0x0f) <<< 2).toNat = x.toNat%16*4 ∧ ((x &&& 0xc0) >>> 6).toNat = x.toNat/64 ∧
    (x &&& 0x3f).toNat = x.toNat%64)
  decide +kernel

/-- Those of `Decode`. -/
theorem join_toNat (x : Byte) : (x <<< 2).toNat = x.toNat*4%256 ∧
    ((x &&& 0x30) >>> 4).toNat = x.toNat/16%4 ∧ ((x &&& 0xf) <<< 4).toNat = x.toNat%16*16 ∧
    ((x &&& 0x3c) >>> 2).toNat = x.toNat/4%16 ∧ ((x &&& 0x3) <<< 6).toNat = x.toNat%4*64 := by
  apply forall_byte (P := fun x => (x <<< 2).toNat = x.toNat*4%256 ∧
    ((x &&& 0x30) >>> 4).toNat = x.toNat/16%4 ∧ ((x &&& 0xf) <<< 4).toNat = x.toNat%16*16 ∧
    ((x &&& 0x3c) >>> 2).toNat = x.toNat/4%16 ∧ ((x &&& 0x3) <<< 6).toNat = x.toNat%4*64)
  decide +kernel

/-- A character of the alphabet is no padding, and is found at its place. -/
theorem character {k : Byte} (hk : k.toNat < 64) : base64.getD k.toNat 0 ≠ 61 ∧
    is_base64 (base64.getD k.toNat 0) = true ∧ find (base64.getD k.toNat 0) = k := by
  have hall : ∀ n : Fin 64, base64.getD n 0 ≠ 61 ∧ is_base64 (base64.getD n 0) = true ∧
      find (base64.getD n 0) = UInt8.ofNat n := by decide +kernel
  have hn := hall ⟨k.toNat, hk⟩
  rwa [UInt8.ofNat_toNat] at hn

/-- The characters of a group, and how they give its bytes back. -/
structure GroupChars (a b c p q r s : Byte) : Prop where
  chars : encodeGroup a b c = [p, q, r, s]
  accepted : ∀ d ∈ [p, q, r, s], d ≠ 61 ∧ is_base64 d = true
  first : (find p <<< 2) + ((find q &&& 0x30) >>> 4) = a
  second : ((find q &&& 0xf) <<< 4) + ((find r &&& 0x3c) >>> 2) = b
  third : ((find r &&& 0x3) <<< 6) + find s = c

theorem exists_groupChars (a b c : Byte) : ∃ p q r s, GroupChars a b c p q r s := by
  obtain ⟨ha₁, ha₂, -, -, -, -⟩ := split_toNat a
  obtain ⟨-, -, hb₁, hb₂, -, -⟩ := split_toNat b
  obtain ⟨-, -, -, -, hc₁, hc₂⟩ := split_toNat c
  have ha := a.toNat_lt
  have hb := b.toNat_lt
  have hc := c.toNat_lt
  have hk₁ : (((a &&& 0x03) <<< 4) + ((b &&& 0xf0) >>> 4)).toNat = a.toNat%4*16+b.toNat/16 := by
    rw [UInt8.toNat_add, ha₂, hb₁]
    omega
  have hk₂ : (((b &&& 0x0f) <<< 2) + ((c &&& 0xc0) >>> 6)).toNat = b.toNat%16*4+c.toNat/64 := by
    rw [UInt8.toNat_add, hb₂, hc₁]
    omega
  refine ⟨_, _, _, _, rfl, ?_, ?_, ?_, ?_⟩
  all_goals
    generalize ((a &&& 0x03) <<< 4) + ((b &&& 0xf0) >>> 4) = k₁ at hk₁ ⊢
    generalize ((b &&& 0x0f) <<< 2) + ((c &&& 0xc0) >>> 6) = k₂ at hk₂ ⊢
    generalize (a &&& 0xfc) >>> 2 = k₀ at ha₁ ⊢
    generalize c &&& 0x3f = k₃ at hc₂ ⊢
    obtain ⟨hpad₀, hin₀, hfind₀⟩ := character (show k₀.toNat < 64 by omega)
    obtain ⟨hpad₁, hin₁, hfind₁⟩ := character (show k₁.toNat < 64 by omega)
    obtain ⟨hpad₂, hin₂, hfind₂⟩ := character (show k₂.toNat < 64 by omega)
    obtain ⟨hpad₃, hin₃, hfind₃⟩ := character (show k₃.toNat < 64 by omega)
  · intro d hd
    simp only [List.mem_cons, List.not_mem_nil, or_false] at hd
    rcases hd with rfl | rfl | rfl | rfl
    · exact ⟨hpad₀, hin₀⟩
    · exact ⟨hpad₁, hin₁⟩
    · exact ⟨hpad₂, hin₂⟩
    · exact ⟨hpad₃, hin₃⟩
  · rw [hfind₀, hfind₁]
    apply UInt8.toNat_inj.mp
    rw [UInt8.toNat_add, (join_toNat k₀).1, (join_toNat k₁).2.1]
    omega
  · rw [hfind₁, hfind₂]
    apply UInt8.toNat_inj.mp
    rw [UInt8.toNat_add, (join_toNat k₁).2.2.1, (join_toNat k₂).2.2.2.1]
    omega
  · rw [hfind₂, hfind₃]
    apply UInt8.toNat_inj.mp
    rw [UInt8.toNat_add, (join_toNat k₂).2.2.2.2, hc₂]
    omega

/-! ### What the loops write -/

/-- Bytes written where a block's first part ends. -/
theorem store_behind (w g src : Bytes) : store (w ++ g) w.length src =
    if src.length ≤ g.length then .ok (w ++ src ++ g.drop src.length) else .error .undefined := by
  by_cases hfit : src.length ≤ g.length
  · rw [if_pos hfit, store_ok (by rw [List.length_append]; omega), List.take_left,
      ← List.drop_drop, List.drop_left]
  · rw [if_neg hfit]
    apply if_neg
    rw [List.length_append]
    omega

theorem encodeLoop_group (a b c : Byte) (s buffer : Bytes) (cp : ℕ) :
    encodeLoop [] (a :: b :: c :: s) buffer cp =
      store buffer cp (encodeGroup a b c) >>= fun buffer => encodeLoop [] s buffer (cp+4) := rfl

/-- What is written last. -/
theorem store_last (w g src : Bytes) :
    (store (w ++ g) w.length src >>= fun buffer => pure (buffer, w.length+src.length)) =
      if src.length ≤ g.length then
        .ok (w ++ src ++ g.drop src.length, w.length+src.length)
      else .error .undefined := by
  rw [store_behind]
  split_ifs <;> rfl

/-- A text is encoded behind what is there already, as far as the block has room. -/
theorem encode_behind (s w g : Bytes) :
    (encodeLoop [] s (w ++ g) w.length >>= fun r => encodeTail r.1 r.2.1 r.2.2) =
      if (encoded s).length ≤ g.length then
        .ok (w ++ encoded s ++ g.drop (encoded s).length, w.length+(encoded s).length)
      else .error .undefined := by
  fun_induction encoded s generalizing w g with
  | case1 =>
    rw [List.length_nil, if_pos (Nat.zero_le _), List.append_nil, List.drop_zero]
    rfl
  | case2 a => exact store_last w g ((encodeGroup a 0 0).take 2 ++ [61, 61])
  | case3 a b => exact store_last w g ((encodeGroup a b 0).take 3 ++ [61])
  | case4 a b c s ih =>
    have h4 : (encodeGroup a b c).length = 4 := rfl
    rw [encodeLoop_group, store_behind, h4, List.length_append, h4]
    by_cases hfit : 4 ≤ g.length
    · have hw : (w ++ encodeGroup a b c).length = w.length+4 := by rw [List.length_append, h4]
      have hrest := ih (w ++ encodeGroup a b c) (g.drop 4)
      rw [if_pos hfit, ok_bind, ← hw, hrest, List.length_drop, List.drop_drop, hw]
      by_cases hall : (encoded s).length ≤ g.length-4
      · rw [if_pos hall, if_pos (by omega)]
        rw [List.append_assoc w, add_assoc]
      · rw [if_neg hall, if_neg (by omega)]
    · rw [if_neg hfit, if_neg (by omega)]
      rfl

theorem decodeLoop_accept {c : Byte} (hc : c ≠ 61 ∧ is_base64 c = true) {u : Bytes}
    (hu : u.length < 3) (s buffer : Bytes) (cp : ℕ) :
    decodeLoop u (c :: s) buffer cp = decodeLoop (u ++ [c]) s buffer cp := by
  have hlen : ¬ (u ++ [c]).length = 4 := by
    rw [List.length_append, List.length_singleton]
    omega
  rw [decodeLoop, if_pos hc, if_neg hlen]

theorem decodeLoop_padding (u s buffer : Bytes) (cp : ℕ) :
    decodeLoop u (61 :: s) buffer cp = .ok (u, buffer, cp) := by
  rw [decodeLoop, if_neg fun h => h.1 rfl]
  rfl

theorem decodeLoop_group {a b c p q r t : Byte} (h : GroupChars a b c p q r t) (s buffer : Bytes)
    (cp : ℕ) : decodeLoop [] (p :: q :: r :: t :: s) buffer cp =
      store buffer cp [a, b, c] >>= fun buffer => decodeLoop [] s buffer (cp+3) := by
  have haccept (d : Byte) (hd : d ∈ [p, q, r, t]) := h.accepted d hd
  have hgroup : decodeGroup p q r t = [a, b, c] := by
    unfold decodeGroup
    rw [h.first, h.second, h.third]
  rw [decodeLoop_accept (haccept p (by simp)) (by decide),
    decodeLoop_accept (haccept q (by simp)) (by simp),
    decodeLoop_accept (haccept r (by simp)) (by simp), decodeLoop, if_pos (haccept t (by simp)),
    ← hgroup]
  rfl

/-- The code of a text is decoded behind what is there already, as far as the block has room. -/
theorem decode_behind (s w g : Bytes) :
    (decodeLoop [] (encoded s) (w ++ g) w.length >>= fun r => decodeTail r.1 r.2.1 r.2.2) =
      if s.length ≤ g.length then
        .ok (w ++ s ++ g.drop s.length, w.length+s.length)
      else .error .undefined := by
  fun_induction encoded s generalizing w g with
  | case1 =>
    rw [List.length_nil, if_pos (Nat.zero_le _), List.append_nil, List.drop_zero]
    rfl
  | case2 a =>
    obtain ⟨p, q, r, t, h⟩ := exists_groupChars a 0 0
    have hbytes : (decodeGroup p q 0 0).take 1 = [a] := by
      unfold decodeGroup
      rw [h.first, List.take_succ_cons, List.take_zero]
    rw [h.chars]
    change (decodeLoop [] (p :: q :: [61, 61]) (w ++ g) w.length >>= _) = _
    rw [decodeLoop_accept (h.accepted p (by simp)) (by decide),
      decodeLoop_accept (h.accepted q (by simp)) (by simp), decodeLoop_padding, ok_bind,
      ← store_last, ← hbytes]
    rfl
  | case3 a b =>
    obtain ⟨p, q, r, t, h⟩ := exists_groupChars a b 0
    have hbytes : (decodeGroup p q r 0).take 2 = [a, b] := by
      unfold decodeGroup
      rw [h.first, h.second, List.take_succ_cons, List.take_succ_cons, List.take_zero]
    rw [h.chars]
    change (decodeLoop [] (p :: q :: r :: [61]) (w ++ g) w.length >>= _) = _
    rw [decodeLoop_accept (h.accepted p (by simp)) (by decide),
      decodeLoop_accept (h.accepted q (by simp)) (by simp),
      decodeLoop_accept (h.accepted r (by simp)) (by simp), decodeLoop_padding, ok_bind,
      ← store_last, ← hbytes]
    rfl
  | case4 a b c s ih =>
    obtain ⟨p, q, r, t, h⟩ := exists_groupChars a b c
    have h3 : [a, b, c].length = 3 := rfl
    have hlen : (a :: b :: c :: s).length = 3+s.length := by
      rw [List.length_cons, List.length_cons, List.length_cons]
      omega
    rw [h.chars]
    change (decodeLoop [] (p :: q :: r :: t :: encoded s) (w ++ g) w.length >>= _) = _
    rw [decodeLoop_group h, store_behind, h3, hlen]
    by_cases hfit : 3 ≤ g.length
    · have hw : (w ++ [a, b, c]).length = w.length+3 := by rw [List.length_append, h3]
      have hrest := ih (w ++ [a, b, c]) (g.drop 3)
      rw [if_pos hfit, ok_bind, ← hw, hrest, List.length_drop, List.drop_drop, hw]
      by_cases hall : s.length ≤ g.length-3
      · rw [if_pos hall, if_pos (by omega), List.append_assoc w, add_assoc]
        rfl
      · rw [if_neg hall, if_neg (by omega)]
    · rw [if_neg hfit, if_neg (by omega)]
      rfl

/-- Characters of the alphabet, with padding only behind them. -/
theorem encoded_form (s : Bytes) : ∃ u k, encoded s = u ++ List.replicate k 61 ∧ k ≤ 2 ∧
    ∀ d ∈ u, is_base64 d = true := by
  fun_induction encoded s with
  | case1 => exact ⟨[], 0, rfl, by decide, by simp⟩
  | case2 a =>
    obtain ⟨p, q, r, t, h⟩ := exists_groupChars a 0 0
    rw [h.chars]
    refine ⟨[p, q], 2, rfl, by decide, ?_⟩
    exact fun d hd => (h.accepted d (List.mem_of_mem_take (i := 2) hd)).2
  | case3 a b =>
    obtain ⟨p, q, r, t, h⟩ := exists_groupChars a b 0
    rw [h.chars]
    refine ⟨[p, q, r], 1, rfl, by decide, ?_⟩
    exact fun d hd => (h.accepted d (List.mem_of_mem_take (i := 3) hd)).2
  | case4 a b c s ih =>
    obtain ⟨p, q, r, t, h⟩ := exists_groupChars a b c
    obtain ⟨u, k, hform, hk, hu⟩ := ih
    refine ⟨[p, q, r, t] ++ u, k, ?_, hk, ?_⟩
    · rw [h.chars, hform, List.append_assoc]
    · intro d hd
      rcases List.mem_append.mp hd with hd | hd
      · exact (h.accepted d hd).2
      · exact hu d hd

theorem length_encodeLoop {u s buffer : Bytes} {cp : ℕ} {r : Bytes × Bytes × ℕ}
    (h : encodeLoop u s buffer cp = .ok r) : r.2.1.length = buffer.length := by
  induction s generalizing u buffer cp with
  | nil => rw [← Except.ok.inj h]
  | cons b s ih =>
    unfold encodeLoop at h
    dsimp only at h
    split_ifs at h
    · obtain ⟨stored, hstore, hrest⟩ := bind_eq_ok.mp h
      exact (ih hrest).trans (Buffer.store_length hstore).1
    · exact ih h

theorem length_encodeTail {u buffer : Bytes} {cp : ℕ} {r : Bytes × ℕ}
    (h : encodeTail u buffer cp = .ok r) : r.1.length = buffer.length := by
  unfold encodeTail at h
  dsimp only at h
  split_ifs at h
  · rw [← Except.ok.inj h]
  · obtain ⟨stored, hstore, hrest⟩ := bind_eq_ok.mp h
    rw [← Except.ok.inj hrest]
    exact (Buffer.store_length hstore).1

theorem length_decodeLoop {u s buffer : Bytes} {cp : ℕ} {r : Bytes × Bytes × ℕ}
    (h : decodeLoop u s buffer cp = .ok r) : r.2.1.length = buffer.length := by
  induction s generalizing u buffer cp with
  | nil => rw [← Except.ok.inj h]
  | cons b s ih =>
    unfold decodeLoop at h
    dsimp only at h
    split_ifs at h
    · obtain ⟨stored, hstore, hrest⟩ := bind_eq_ok.mp h
      exact (ih hrest).trans (Buffer.store_length hstore).1
    · exact ih h
    · rw [← Except.ok.inj h]

theorem length_decodeTail {u buffer : Bytes} {cp : ℕ} {r : Bytes × ℕ}
    (h : decodeTail u buffer cp = .ok r) : r.1.length = buffer.length := by
  unfold decodeTail at h
  dsimp only at h
  split_ifs at h
  · rw [← Except.ok.inj h]
  · obtain ⟨stored, hstore, hrest⟩ := bind_eq_ok.mp h
    rw [← Except.ok.inj hrest]
    exact (Buffer.store_length hstore).1

end Base64
end MsgCourier
