import MsgCourier.TextBlock
import MsgCourier.Url

/-! `cURL::Encode` and `cURL::Decode` in their temporary buffers. -/
namespace MsgCourier
open ListSearch CText

namespace URL

/-! ### Encode -/

def isAlnum (b : Byte) : Bool :=
  isDigit b || (65 ≤ b && b ≤ 90) || (97 ≤ b && b ≤ 122)

def hexDigit (n : ℕ) : Byte := UInt8.ofNat (if n < 10 then 48+n else 55+n)

/-- A letter or a digit stands for itself, any other byte is escaped. -/
def escaped (b : Byte) : Bytes :=
  if isAlnum b then [b] else [37, hexDigit (b.toNat/16), hexDigit (b.toNat%16)]

/-- 255 texts: the escapes, and empty ones for the letters and digits. -/
def urlEncodeLookupTable : List Bytes :=
  (List.range 255).map fun i =>
    if isAlnum (UInt8.ofNat i) then [] else escaped (UInt8.ofNat i)

/-- A `char` is signed, and from 128 on it is an index below the table. -/
def lookupEntry (b : Byte) : Cxx Bytes :=
  if 128 ≤ b then .error .undefined
  else
    match urlEncodeLookupTable[b.toNat]? with
    | some p => .ok p
    | none => .error .undefined

/-- The loop, with `pDst` as an index into the buffer. -/
def encodeLoop : Bytes → Bytes → ℕ → Cxx (Bytes × ℕ)
  | [], buffer, pDst => pure (buffer, pDst)
  | b :: s, buffer, pDst => do
    let p ← lookupEntry b
    if p = [] then do
      let buffer ← poke buffer pDst b
      encodeLoop s buffer (pDst+1)
    else do
      let buffer ← store buffer pDst p
      encodeLoop s buffer (pDst+3)

/-- The loop counts to the size as an `int`. -/
def loopPart (sInBuffer : Bytes) : Bytes := sInBuffer.take (int32 sInBuffer.length).toNat

def encode (sInBuffer : Bytes) : Cxx Bytes := do
  let (buffer, pDst) ← encodeLoop (loopPart sInBuffer) (List.replicate (sInBuffer.length*3) 0) 0
  let buffer ← poke buffer pDst 0
  pure (cstr buffer)

/-! ### Decode -/

/-- The loop, with `pEncoded` as an index into the terminated input. The second digit is only read
behind a first one. -/
def decodeRun (src : Bytes) : ℕ → ℕ → Bytes → ℕ → Cxx (Bytes × ℕ)
  | 0, _, _, _ => .error .undefined
  | fuel+1, pEncoded, buffer, pDecoded => do
    let c ← peek src pEncoded
    if c = 0 then pure (buffer, pDecoded)
    else if c = 37 then do
      let hi ← peek src (pEncoded+1 : ℕ)
      if isxdigit hi then do
        let lo ← peek src (pEncoded+2 : ℕ)
        if isxdigit lo then do
          let buffer ← poke buffer pDecoded (hexToInt hi lo)
          decodeRun src fuel (pEncoded+3) buffer (pDecoded+1)
        else decodeRun src fuel (pEncoded+1) buffer pDecoded
      else decodeRun src fuel (pEncoded+1) buffer pDecoded
    else if c = 43 then do
      let buffer ← poke buffer pDecoded 32
      decodeRun src fuel (pEncoded+1) buffer (pDecoded+1)
    else do
      let buffer ← poke buffer pDecoded c
      decodeRun src fuel (pEncoded+1) buffer (pDecoded+1)

def decodeBuffer (sInBuffer : Bytes) : Cxx Bytes := do
  let (buffer, pDecoded) ← decodeRun (sInBuffer ++ [0]) (sInBuffer.length+1) 0
    (List.replicate (sInBuffer.length*3) 0) 0
  let buffer ← poke buffer pDecoded 0
  pure (cstr buffer)

/-! ### What is encoded -/

def encodeText (s : Bytes) : Bytes := (s.map escaped).flatten

theorem encodeText_cons (b : Byte) (s : Bytes) : encodeText (b :: s) = escaped b ++ encodeText s :=
  rfl

theorem length_escaped_le (b : Byte) : (escaped b).length ≤ 3 := by
  unfold escaped
  split_ifs
  · exact Nat.le_of_ble_eq_true rfl
  · exact Nat.le_refl 3

theorem length_encodeText_le (s : Bytes) : (encodeText s).length ≤ 3*s.length := by
  induction s with
  | nil => exact Nat.le_refl 0
  | cons b s ih =>
    have hb := length_escaped_le b
    rw [encodeText_cons, List.length_append, List.length_cons]
    omega

/-- There is room for the terminator as soon as one byte is not escaped. -/
theorem length_encodeText_lt_iff (s : Bytes) :
    (encodeText s).length < 3*s.length ↔ ∃ b ∈ s, isAlnum b = true := by
  induction s with
  | nil => exact iff_of_false (Nat.lt_irrefl 0) (by simp)
  | cons b s ih =>
    have hle := length_encodeText_le s
    rw [encodeText_cons, List.length_append, List.length_cons, List.exists_mem_cons_iff, ← ih]
    unfold escaped
    split_ifs with hb
    · refine iff_of_true ?_ (.inl hb)
      rw [List.length_singleton]
      omega
    · rw [or_iff_right hb, List.length_cons, List.length_cons, List.length_singleton]
      omega

theorem lookupEntry_eq {b : Byte} (hb : b < 128) :
    lookupEntry b = .ok (if isAlnum b then [] else escaped b) := by
  have hlt : b.toNat < 128 := by simpa [UInt8.lt_iff_toNat_lt] using hb
  have hget : urlEncodeLookupTable[b.toNat]? =
      some (if isAlnum b then [] else escaped b) := by
    unfold urlEncodeLookupTable
    rw [List.getElem?_map, List.getElem?_range (by omega), Option.map_some, UInt8.ofNat_toNat]
  rw [lookupEntry, if_neg (UInt8.not_le.mpr hb), hget]

theorem lookupEntry_fail {b : Byte} (hb : 128 ≤ b) : lookupEntry b = .error .undefined :=
  if_pos hb

/-- The loop writes the escaped text where the output ends. -/
theorem encodeLoop_eq {s : Bytes} (hs : ∀ b ∈ s, b < 128) (w g : Bytes)
    (hroom : (encodeText s).length ≤ g.length) :
    encodeLoop s (w ++ g) w.length =
      .ok (w ++ encodeText s ++ g.drop (encodeText s).length, w.length+(encodeText s).length) := by
  induction s generalizing w g with
  | nil =>
    simp only [encodeLoop, encodeText, List.map_nil, List.flatten_nil, List.append_nil,
      List.length_nil, List.drop_zero, Nat.add_zero, pure_eq_ok]
  | cons b s ih =>
    rw [encodeText_cons, List.length_append] at hroom
    have hfit : w.length+(escaped b).length ≤ (w ++ g).length := by
      rw [List.length_append]
      omega
    have hstore : store (w ++ g) w.length (escaped b) =
        .ok ((w ++ escaped b) ++ g.drop (escaped b).length) := by
      rw [store_ok hfit, List.take_left, List.drop_append, Nat.add_sub_cancel_left,
        List.drop_eq_nil_of_le (by omega), List.nil_append]
    have hnext := ih (fun c hc => hs c (List.mem_cons_of_mem b hc)) (w ++ escaped b)
      (g.drop (escaped b).length) (by rw [List.length_drop]; omega)
    have hresult : (w ++ escaped b ++ encodeText s ++
          (g.drop (escaped b).length).drop (encodeText s).length,
          (w ++ escaped b).length+(encodeText s).length) =
        (w ++ encodeText (b :: s) ++ g.drop (encodeText (b :: s)).length,
          w.length+(encodeText (b :: s)).length) := by
      rw [encodeText_cons, List.length_append, List.length_append, List.drop_drop,
        List.append_assoc w, Nat.add_assoc]
    rw [hresult, List.length_append] at hnext
    unfold encodeLoop
    rw [lookupEntry_eq (hs b List.mem_cons_self), ok_bind]
    by_cases hb : isAlnum b = true
    · have hone : escaped b = [b] := if_pos hb
      rw [hone] at hstore hnext
      rw [if_pos hb, if_pos rfl, poke, hstore, ok_bind]
      exact hnext
    · have hthree : (escaped b).length = 3 := by
        rw [escaped, if_neg hb]
        rfl
      have hne : escaped b ≠ [] := List.ne_nil_of_length_pos (by omega)
      rw [hthree] at hnext hstore
      rw [if_neg hb, if_neg hne, hstore, ok_bind]
      exact hnext

/-- A byte from 128 on is looked up outside the table, wherever it stands. -/
theorem encodeLoop_fail {s : Bytes} (hs : ∃ b ∈ s, 128 ≤ b) (buffer : Bytes) (pDst : ℕ)
    (r : Bytes × ℕ) : encodeLoop s buffer pDst ≠ .ok r := by
  induction s generalizing buffer pDst with
  | nil =>
    obtain ⟨b, hb, -⟩ := hs
    exact absurd hb List.not_mem_nil
  | cons b s ih =>
    intro hok
    unfold encodeLoop at hok
    obtain ⟨p, hp, hok⟩ := bind_eq_ok.mp hok
    by_cases hb : 128 ≤ b
    · rw [lookupEntry_fail hb] at hp
      cases hp
    · have hrest : ∃ c ∈ s, 128 ≤ c := by
        obtain ⟨c, hc, hlarge⟩ := hs
        rcases List.mem_cons.mp hc with rfl | hc
        · exact absurd hlarge hb
        · exact ⟨c, hc, hlarge⟩
      split_ifs at hok
      · obtain ⟨buffer', -, hok⟩ := bind_eq_ok.mp hok
        exact ih hrest buffer' _ hok
      · obtain ⟨buffer', -, hok⟩ := bind_eq_ok.mp hok
        exact ih hrest buffer' _ hok

theorem hexDigit_facts {n : ℕ} (hn : n < 16) :
    isxdigit (hexDigit n) = true ∧ hexValue (hexDigit n) = n ∧ hexDigit n ≠ 0 := by
  interval_cases n <;> decide

theorem zero_notMem_encodeText (s : Bytes) : 0 ∉ encodeText s := by
  intro hmem
  obtain ⟨t, ht, hzero⟩ := List.mem_flatten.mp hmem
  obtain ⟨b, -, rfl⟩ := List.mem_map.mp ht
  have hb := b.toNat_lt
  have hhi := (hexDigit_facts (show b.toNat/16 < 16 by omega)).2.2
  have hlo := (hexDigit_facts (show b.toNat%16 < 16 by omega)).2.2
  unfold escaped at hzero
  split_ifs at hzero with halnum
  · rw [← List.mem_singleton.mp hzero] at halnum
    exact absurd halnum (by decide)
  · simp only [List.mem_cons, List.not_mem_nil, or_false] at hzero
    rcases hzero with h | h | h
    · exact absurd h (by decide)
    · exact hhi h.symm
    · exact hlo h.symm

theorem loopPart_sublist (s : Bytes) : (loopPart s).length ≤ s.length := by
  rw [loopPart, List.length_take]
  exact Nat.min_le_right _ _

theorem loopPart_eq_iff (s : Bytes) : loopPart s = s ↔ (s.length : ℤ) ≤ intMax := by
  have hle := int32_le s.length
  constructor
  · intro h
    have hlen := congrArg List.length h
    rw [loopPart, List.length_take] at hlen
    unfold intMax at hle ⊢
    omega
  · intro h
    rw [loopPart, int32_eq (by omega) h, Int.toNat_natCast, List.take_length]

/-- The terminator goes behind the escaped text. -/
theorem encode_eq {s : Bytes} (h128 : ∀ b ∈ loopPart s, b < 128) :
    encode s = (poke (encodeText (loopPart s) ++
      List.replicate (s.length*3-(encodeText (loopPart s)).length) 0)
      (encodeText (loopPart s)).length 0 >>= fun buffer => pure (cstr buffer)) := by
  have hle := length_encodeText_le (loopPart s)
  have hpart := loopPart_sublist s
  have hloop := encodeLoop_eq h128 [] (List.replicate (s.length*3) 0) (by
    rw [List.length_replicate]
    omega)
  rw [List.nil_append, List.nil_append, List.length_nil, Nat.zero_add, List.drop_replicate] at hloop
  rw [encode, hloop, ok_bind]

theorem encode_ok {s : Bytes} (h128 : ∀ b ∈ loopPart s, b < 128)
    (hroom : (encodeText (loopPart s)).length < 3*s.length) :
    encode s = .ok (encodeText (loopPart s)) := by
  obtain ⟨n, hn⟩ := Nat.exists_eq_add_of_lt hroom
  have hblock : List.replicate (s.length*3-(encodeText (loopPart s)).length) (0 : Byte) =
      0 :: List.replicate n 0 := by
    rw [show s.length*3-(encodeText (loopPart s)).length = n+1 by omega, List.replicate_succ]
  rw [encode_eq h128, hblock, poke_append, ok_bind,
    cstr_append_zero, cstr_eq_self (zero_notMem_encodeText _)]
  rfl

/-- A byte of room is left when one byte needs no escape or the loop stops early. -/
theorem room_iff (s : Bytes) : (encodeText (loopPart s)).length < 3*s.length ↔
    (∃ b ∈ loopPart s, isAlnum b = true) ∨ loopPart s ≠ s := by
  have hle := length_encodeText_le (loopPart s)
  have hpart := loopPart_sublist s
  rw [← length_encodeText_lt_iff]
  by_cases heq : loopPart s = s
  · rw [heq]
    exact (or_iff_left (not_not.mpr rfl)).symm
  · have hlt : (loopPart s).length < s.length := by
      apply lt_of_le_of_ne hpart
      intro hlen
      apply heq
      rw [loopPart, List.length_take] at hlen
      exact List.take_of_length_le (by omega)
    exact iff_of_true (by omega) (.inr heq)

/-- What `Encode` returns, it has looked up in the table and written inside its buffer. -/
theorem encode_inv {s e : Bytes} (h : encode s = .ok e) : (∀ b ∈ loopPart s, b < 128) ∧
    (encodeText (loopPart s)).length < 3*s.length ∧ e = encodeText (loopPart s) := by
  have h128 : ∀ b ∈ loopPart s, b < 128 := by
    intro b hb
    apply UInt8.not_le.mp
    intro hlarge
    obtain ⟨r, hr, -⟩ := bind_eq_ok.mp h
    exact encodeLoop_fail ⟨b, hb, hlarge⟩ _ _ r hr
  have hroom : (encodeText (loopPart s)).length < 3*s.length := by
    by_contra hfull
    have hblock : (encodeText (loopPart s) ++
        List.replicate (s.length*3-(encodeText (loopPart s)).length) 0).length ≤
        (encodeText (loopPart s)).length := by
      rw [List.length_append, List.length_replicate]
      omega
    rw [encode_eq h128, poke_fail 0 hblock] at h
    cases h
  rw [encode_ok h128 hroom] at h
  exact ⟨h128, hroom, (Except.ok.inj h).symm⟩

/-- `Encode` returns when every byte it looks up is in the table and one of the `3 * size` bytes is
left for the terminator. -/
theorem encode_iff (s : Bytes) :
    (∃ e, encode s = .ok e) ↔ (∀ b ∈ loopPart s, b < 128) ∧
      ((∃ b ∈ loopPart s, isAlnum b = true) ∨ loopPart s ≠ s) := by
  rw [← room_iff]
  constructor
  · rintro ⟨e, he⟩
    obtain ⟨h128, hroom, -⟩ := encode_inv he
    exact ⟨h128, hroom⟩
  · rintro ⟨h128, hroom⟩
    exact ⟨_, encode_ok h128 hroom⟩

/-! ### What is decoded -/

/-- A byte is written where the output ends. -/
theorem poke_end (w : Bytes) {g : Bytes} (hg : 0 < g.length) (c : Byte) :
    poke (w ++ g) w.length c = .ok ((w ++ [c]) ++ g.drop 1) := by
  obtain ⟨a, g', rfl⟩ := List.exists_cons_of_ne_nil (List.ne_nil_of_length_pos hg)
  rw [poke_append, List.append_assoc, List.singleton_append, List.drop_succ_cons, List.drop_zero]

/-- A `%` that no two digits follow. -/
theorem decodeLoop_skip {t : Bytes} (h : ∀ hi lo r, t = hi :: lo :: r →
    (isxdigit hi && isxdigit lo) = false) : decodeLoop (37 :: t) = decodeLoop t := by
  rw [decodeLoop.eq_def]
  dsimp only
  rw [if_pos rfl]
  cases t with
  | nil => rfl
  | cons hi t =>
    cases t with
    | nil => rfl
    | cons lo r =>
      dsimp only
      rw [h hi lo r rfl, if_neg Bool.false_ne_true]

theorem decodeLoop_pair {hi lo : Byte} (hhi : isxdigit hi = true) (hlo : isxdigit lo = true)
    (t : Bytes) : decodeLoop (37 :: hi :: lo :: t) = hexToInt hi lo :: decodeLoop t := by
  rw [decodeLoop.eq_def]
  dsimp only
  rw [if_pos rfl, hhi, hlo, Bool.and_self, if_pos rfl]

theorem decodeLoop_byte {b : Byte} (hb : b ≠ 37) (t : Bytes) :
    decodeLoop (b :: t) = (if b = 43 then 32 else b) :: decodeLoop t := by
  rw [decodeLoop.eq_def]
  dsimp only
  rw [if_neg hb]
  split_ifs <;> rfl

/-- The run over a text is the decoding of it. -/
theorem decodeRun_eq {fuel : ℕ} (u junk : Bytes) {t : Bytes} (h0 : 0 ∉ t) (w g : Bytes)
    (hfuel : t.length < fuel) (hroom : (decodeLoop t).length ≤ g.length) :
    decodeRun (u ++ (t ++ 0 :: junk)) fuel u.length (w ++ g) w.length =
      .ok (w ++ decodeLoop t ++ g.drop (decodeLoop t).length,
        w.length+(decodeLoop t).length) := by
  induction fuel generalizing u t w g with
  | zero => exact absurd hfuel (Nat.not_lt_zero _)
  | succ fuel ih =>
    -- the next round starts behind `v` and may have written a byte
    have hskip (v : Bytes) {r : Bytes} (ht : t = v ++ r) (hv : v ≠ [])
        (hdecode : decodeLoop t = decodeLoop r) :
        decodeRun (u ++ (t ++ 0 :: junk)) fuel (u.length+v.length) (w ++ g) w.length =
          .ok (w ++ decodeLoop t ++ g.drop (decodeLoop t).length,
            w.length+(decodeLoop t).length) := by
      have hpos := List.length_pos_iff.mpr hv
      have hnext := ih (u ++ v) (fun h => h0 (ht ▸ List.mem_append_right v h)) w g
        (by rw [ht, List.length_append] at hfuel; omega) (hdecode ▸ hroom)
      rw [List.length_append, List.append_assoc, ← List.append_assoc v, ← ht, ← hdecode] at hnext
      exact hnext
    have hwrite (v : Bytes) {r : Bytes} (c : Byte) (ht : t = v ++ r) (hv : v ≠ [])
        (hdecode : decodeLoop t = c :: decodeLoop r) :
        (poke (w ++ g) w.length c >>= fun buffer =>
          decodeRun (u ++ (t ++ 0 :: junk)) fuel (u.length+v.length) buffer (w.length+1)) =
          .ok (w ++ decodeLoop t ++ g.drop (decodeLoop t).length,
            w.length+(decodeLoop t).length) := by
      have hpos := List.length_pos_iff.mpr hv
      rw [hdecode, List.length_cons] at hroom
      have hnext := ih (u ++ v) (fun h => h0 (ht ▸ List.mem_append_right v h)) (w ++ [c])
        (g.drop 1) (by rw [ht, List.length_append] at hfuel; omega)
        (by rw [List.length_drop]; omega)
      rw [List.length_append, List.append_assoc, ← List.append_assoc v, ← ht, List.length_append,
        List.length_singleton, List.drop_drop, List.append_assoc w [c] (decodeLoop r),
            List.singleton_append,
        Nat.add_right_comm, Nat.add_assoc w.length, Nat.add_comm 1] at hnext
      rw [poke_end w (by omega), ok_bind, hdecode, List.length_cons]
      exact hnext
    unfold decodeRun
    cases t with
    | nil =>
      rw [List.nil_append, peek_append, ok_bind, if_pos rfl]
      simp [decodeLoop]
    | cons b t =>
      have hb : b ≠ 0 := fun h => h0 (h ▸ List.mem_cons_self)
      rw [List.cons_append, peek_append, ok_bind, if_neg hb]
      by_cases hpercent : b = 37
      · rw [if_pos hpercent]
        subst hpercent
        have hat (v : Bytes) (c : Byte) (r : Bytes) (heq : 37 :: (t ++ 0 :: junk) = v ++ c :: r)
            (i : ℕ) (hi : i = u.length+v.length) :
            peek (u ++ 37 :: (t ++ 0 :: junk)) i = .ok c := by
          rw [heq, hi, ← List.append_assoc, ← List.length_append, peek_append]
        cases t with
        | nil =>
          rw [hat [37] 0 junk rfl (u.length+1) rfl, ok_bind, if_neg (by decide)]
          exact hskip [37] rfl (List.cons_ne_nil _ _)
            (decodeLoop_skip fun hi lo r h => absurd h (List.cons_ne_nil _ _).symm)
        | cons hi t =>
          rw [hat [37] hi (t ++ 0 :: junk) rfl (u.length+1) rfl, ok_bind]
          by_cases hhi : isxdigit hi = true
          · rw [if_pos hhi]
            cases t with
            | nil =>
              rw [hat [37, hi] 0 junk rfl (u.length+2) rfl, ok_bind, if_neg (by decide)]
              exact hskip [37] rfl (List.cons_ne_nil _ _)
                (decodeLoop_skip fun hi' lo r h => by cases h)
            | cons lo t =>
              rw [hat [37, hi] lo (t ++ 0 :: junk) rfl (u.length+2) rfl, ok_bind]
              by_cases hlo : isxdigit lo = true
              · rw [if_pos hlo]
                exact hwrite [37, hi, lo] _ rfl (List.cons_ne_nil _ _) (decodeLoop_pair hhi hlo t)
              · rw [if_neg hlo]
                refine hskip [37] rfl (List.cons_ne_nil _ _) (decodeLoop_skip ?_)
                intro hi' lo' r h
                obtain ⟨rfl, rfl, rfl⟩ : hi = hi' ∧ lo = lo' ∧ t = r := by simpa using h
                rw [Bool.eq_false_iff.mpr hlo, Bool.and_false]
          · rw [if_neg hhi]
            refine hskip [37] rfl (List.cons_ne_nil _ _) (decodeLoop_skip ?_)
            intro hi' lo' r h
            obtain ⟨rfl, rfl⟩ : hi = hi' ∧ t = lo' :: r := by simpa using h
            rw [Bool.eq_false_iff.mpr hhi, Bool.false_and]
      · have hbyte := decodeLoop_byte hpercent t
        rw [if_neg hpercent]
        by_cases hplus : b = 43
        · rw [if_pos hplus] at hbyte ⊢
          exact hwrite [b] 32 rfl (List.cons_ne_nil _ _) hbyte
        · rw [if_neg hplus] at hbyte ⊢
          exact hwrite [b] b rfl (List.cons_ne_nil _ _) hbyte

theorem terminated_split (s : Bytes) : ∃ r, s ++ [0] = cstr s ++ 0 :: r := by
  obtain ⟨r, hr⟩ := cstr_split s
  cases r with
  | nil => exact ⟨[], by rw [List.append_nil] at hr; rw [← hr]⟩
  | cons b r =>
    have hb : b = 0 := by
      by_contra hb
      have hcons := congrArg cstr hr
      have hne : cstr (b :: r) = b :: cstr r := cstr_append (s := [b]) (by simpa using Ne.symm hb) r
      rw [cstr_append (zero_notMem_cstr s), hne] at hcons
      have hlen := congrArg List.length hcons
      rw [List.length_append, List.length_cons] at hlen
      omega
    refine ⟨r ++ [0], ?_⟩
    conv_lhs => rw [hr, hb]
    rw [List.append_assoc, List.cons_append]

/-- The run stays in its input, and in its buffer if that has room for a terminator. -/
theorem decodeBuffer_eq (s : Bytes) : decodeBuffer s = decode s := by
  obtain ⟨r, hr⟩ := terminated_split s
  have hlen := length_decodeLoop (cstr s)
  have hle := length_cstr_le s
  have hloop := decodeRun_eq [] r (zero_notMem_cstr s) [] (List.replicate (s.length*3) 0)
    (show (cstr s).length < s.length+1 by omega) (by rw [List.length_replicate]; omega)
  rw [List.nil_append, List.nil_append, List.nil_append, List.length_nil, Nat.zero_add,
    List.drop_replicate, ← hr] at hloop
  rw [decodeBuffer, hloop, ok_bind]
  dsimp only
  by_cases hs : s = []
  · subst hs
    rfl
  · have hpos := List.length_pos_iff.mpr hs
    obtain ⟨n, hn⟩ : ∃ n, s.length*3-(decodeLoop (cstr s)).length = n+1 :=
      Nat.exists_eq_add_of_le' (by omega)
    rw [hn, List.replicate_succ, poke_append, ok_bind, cstr_append_zero, decode_of_ne_nil hs]
    rfl

/-! ### Both ways -/

/-- Letters, digits and escapes. -/
def Coded (e : Bytes) : Prop :=
  ∃ pieces : List Bytes, e = pieces.flatten ∧ ∀ p ∈ pieces,
    (∃ b, p = [b] ∧ isAlnum b = true) ∨
      ∃ hi lo, p = [37, hi, lo] ∧ isxdigit hi = true ∧ isxdigit lo = true

theorem coded_encodeText (s : Bytes) : Coded (encodeText s) := by
  refine ⟨s.map escaped, rfl, fun p hp => ?_⟩
  obtain ⟨b, -, rfl⟩ := List.mem_map.mp hp
  have hb := b.toNat_lt
  unfold escaped
  split_ifs with halnum
  · exact .inl ⟨b, rfl, halnum⟩
  · exact .inr ⟨_, _, rfl, (hexDigit_facts (by omega)).1, (hexDigit_facts (by omega)).1⟩

theorem decodeLoop_escaped (b : Byte) (r : Bytes) :
    decodeLoop (escaped b ++ r) = b :: decodeLoop r := by
  have hb := b.toNat_lt
  obtain ⟨hhi, hhival, -⟩ := hexDigit_facts (show b.toNat/16 < 16 by omega)
  obtain ⟨hlo, hloval, -⟩ := hexDigit_facts (show b.toNat%16 < 16 by omega)
  unfold escaped
  split_ifs with halnum
  · have hpercent : b ≠ 37 := by
      rintro rfl
      exact absurd halnum (by decide)
    have hplus : b ≠ 43 := by
      rintro rfl
      exact absurd halnum (by decide)
    rw [List.singleton_append, decodeLoop_byte hpercent, if_neg hplus]
  · have hbyte : hexToInt (hexDigit (b.toNat/16)) (hexDigit (b.toNat%16)) = b := by
      rw [hexToInt, hhival, hloval, Nat.mod_add_div, UInt8.ofNat_toNat]
    rw [List.cons_append, List.cons_append, List.singleton_append, decodeLoop_pair hhi hlo, hbyte]

theorem decodeLoop_encodeText (s : Bytes) : decodeLoop (encodeText s) = s := by
  induction s with
  | nil => rfl
  | cons b s ih => rw [encodeText_cons, decodeLoop_escaped, ih]

theorem decodeBuffer_encodeText {s : Bytes} (h0 : 0 ∉ s) (hne : s ≠ []) :
    decodeBuffer (encodeText s) = .ok s := by
  have hne' : encodeText s ≠ [] := by
    intro h
    have hdecode := decodeLoop_encodeText s
    rw [h] at hdecode
    exact hne hdecode.symm
  rw [decodeBuffer_eq, decode_of_ne_nil hne', cstr_eq_self (zero_notMem_encodeText s),
    decodeLoop_encodeText, cstr_eq_self h0]

/-- A text comes back if it is ASCII, no longer than an `int` can count and has a letter or
a digit. -/
theorem roundTrip_iff {s : Bytes} (h0 : 0 ∉ s) :
    (∃ e, encode s = .ok e ∧ Coded e ∧ decodeBuffer e = .ok s) ↔
      (s.length : ℤ) ≤ intMax ∧ (∀ b ∈ s, b < 128) ∧ ∃ b ∈ s, isAlnum b = true := by
  constructor
  · rintro ⟨e, he, -, hdecode⟩
    obtain ⟨h128, hroom, htext⟩ := encode_inv he
    rw [htext] at hdecode
    have hne : loopPart s ≠ [] := by
      intro hnil
      have herr : decodeBuffer (encodeText []) = .error .undefined := by decide
      rw [hnil, herr] at hdecode
      cases hdecode
    have h0part : 0 ∉ loopPart s := fun h => h0 (List.mem_of_mem_take h)
    rw [decodeBuffer_encodeText h0part hne] at hdecode
    have heq : loopPart s = s := Except.ok.inj hdecode
    have halnum := ((room_iff s).mp hroom).resolve_right (not_not.mpr heq)
    rw [heq] at h128 halnum
    exact ⟨(loopPart_eq_iff s).mp heq, h128, halnum⟩
  · rintro ⟨hlen, h128, halnum⟩
    have heq := (loopPart_eq_iff s).mpr hlen
    have hne : s ≠ [] := by
      rintro rfl
      obtain ⟨b, hb, -⟩ := halnum
      exact absurd hb List.not_mem_nil
    refine ⟨encodeText s, ?_, coded_encodeText s, decodeBuffer_encodeText h0 hne⟩
    have hok := encode_ok (s := s) (heq.symm ▸ h128) ((room_iff s).mpr (.inl (heq.symm ▸ halnum)))
    rwa [heq] at hok

/-- A byte that is no ASCII, and a text that is escaped as a whole. -/
theorem roundTrip_fails : (¬ ∃ e, encode [97, 200] = .ok e ∧ Coded e ∧
      decodeBuffer e = .ok [97, 200]) ∧
    ¬ ∃ e, encode (bytes "/") = .ok e ∧ Coded e ∧ decodeBuffer e = .ok (bytes "/") := by
  constructor
  · rintro ⟨e, he, -⟩
    have herr : encode [97, 200] = .error .undefined := by decide
    rw [herr] at he
    cases he
  · rintro ⟨e, he, -⟩
    have herr : encode (bytes "/") = .error .undefined := by decide
    rw [herr] at he
    cases he

theorem roundTrip_path : ∃ e, encode (bytes "a b") = .ok e ∧ Coded e ∧
    decodeBuffer e = .ok (bytes "a b") :=
  (roundTrip_iff (by decide)).mpr ⟨by decide, by decide +kernel, by decide +kernel⟩

/-- Both stay inside `3 * size` bytes when the input is ASCII and has a letter or a digit; of an
input that is too long for an `int` this is asked of the part that the loop reaches. -/
theorem withinBuffers_iff (s : Bytes) :
    ((∃ e, encode s = .ok e) ∧ ∃ d, decodeBuffer s = .ok d) ↔
      (∀ b ∈ loopPart s, b < 128) ∧ ((∃ b ∈ loopPart s, isAlnum b = true) ∨ loopPart s ≠ s) := by
  rw [encode_iff, and_iff_left_iff_imp]
  intro h
  have hne : s ≠ [] := by
    rintro rfl
    rcases h.2 with ⟨b, hb, -⟩ | h
    · exact absurd hb List.not_mem_nil
    · exact h rfl
  exact ⟨_, (decodeBuffer_eq s).trans (decode_of_ne_nil hne)⟩

/-- The terminator of an empty text, and of a text that is escaped as a whole. -/
theorem outsideBuffers : encode [] = .error .undefined ∧ decodeBuffer [] = .error .undefined ∧
    ¬ ((∃ e, encode (bytes "//") = .ok e) ∧ ∃ d, decodeBuffer (bytes "//") = .ok d) := by
  refine ⟨by decide, by decide, ?_⟩
  rintro ⟨⟨e, he⟩, -⟩
  have herr : encode (bytes "//") = .error .undefined := by decide
  rw [herr] at he
  cases he

end URL
end MsgCourier
