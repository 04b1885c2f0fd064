import MsgCourier.Base64RoundTrip
import MsgCourier.SortedMap
import Mathlib.Data.List.Forall2

/-! `cKeyValue`, and the way of its map through a stream. -/
namespace MsgCourier
open ListSearch CText ZeroFill

/-- `FindChar` from an index on. -/
def Buffer.findCharFrom (b : Buffer) (ch : Byte) (iStart : ℤ) : ℤ :=
  match firstOcc [ch] (((b.pBuffer.getD []).take b.tail.toNat).drop iStart.toNat) with
  | some k => iStart.toNat+k
  | none => -1

/-- The map is in the order of its keys, and each value has a buffer of its own. -/
structure KeyValue where
  map : SortedMap Bytes Buffer (· < ·) := {}

namespace KeyValue

/-- A value that is there already is replaced in its buffer. -/
def set [Malloc] (x : KeyValue) (pKey : Bytes) (pValue : Option Bytes) (iLength : ℤ) :
    Cxx KeyValue := do
  let pBuffer := (x.map.lookup (cstr pKey)).getD {}
  let (_, pBuffer) ← pBuffer.replaceWith pValue iLength
  pure { map := x.map.insert (cstr pKey) pBuffer }

/-- Each value has a `cBase64` of its own. -/
def decodeValue [Malloc] (bEncoded : Bool) (b : Buffer) : Cxx Buffer :=
  if bEncoded then do
    let (_, _, b) ← ({} : Base64).decode b
    pure b
  else pure b

def encodeValue [Malloc] (bEncode : Bool) (temp : Buffer) : Cxx Buffer :=
  if bEncode then do
    let (_, _, temp) ← ({} : Base64).encode temp
    pure temp
  else pure temp

/-- The loop over the separators. Keys and values take turns, and `mark` is behind the separator
before. -/
def parseLoop [Malloc] (bEncoded : Bool) :
    ℕ → Buffer → Bytes → Bool → ℤ → ℤ → KeyValue → Cxx KeyValue
  | 0, _, _, _, _, _, _ => .error .undefined
  | fuel+1, buffer, sKey, value, mark, idx, x =>
    let idx := buffer.findCharFrom 124 idx
    if idx = -1 then pure x
    else do
      let (p, buffer) ← buffer.getBuffer
      if value = false then do
        let key ← fetch (p.getD []) mark (idx-mark)
        parseLoop bEncoded fuel buffer (sKey ++ key) true (idx+1) (idx+1) x
      else do
        let (_, b) ← ({} : Buffer).replaceWith (p.map (·.drop mark.toNat)) (idx-mark)
        let b ← decodeValue bEncoded b
        let (q, b) ← b.getBuffer
        let x ← x.set sKey q b.tail
        parseLoop bEncoded fuel buffer [] false (idx+1) (idx+1) x

def parse [Malloc] (x : KeyValue) (pKeyValuePairStream : Bytes) (iLength : ℤ) (bEncoded : Bool) :
    Cxx KeyValue := do
  let (_, buffer) ← ({} : Buffer).replaceWith (some pKeyValuePairStream) iLength
  parseLoop bEncoded (buffer.tail.toNat+1) buffer [] false 0 0 x

/-- The loop over the entries, with one buffer for all values. The terminators that are written
behind the values of the map are left out. -/
def streamLoop [Malloc] (bEncode : Bool) : List (Bytes × Buffer) → Buffer → Bytes → Cxx Bytes
  | [], _, sBuffer => pure sBuffer
  | it :: rest, temp, sBuffer => do
    let (p, pBuffer) ← it.2.getBuffer
    let (_, temp) ← temp.replaceWith p pBuffer.tail
    let temp ← encodeValue bEncode temp
    let (q, temp) ← temp.getBuffer
    let value ← fetch (q.getD []) 0 temp.tail
    streamLoop bEncode rest temp (sBuffer ++ it.1 ++ bytes "|" ++ value ++ bytes "|")

/-- The entries go behind what `sBuffer` has. -/
def getStream [Malloc] (x : KeyValue) (sBuffer : Bytes) (bEncode : Bool) : Cxx Bytes :=
  streamLoop bEncode x.map.entries {} sBuffer

end KeyValue

/-! ### Texts that go from buffer to buffer -/

namespace Buffer.Holds

variable {b temp : Buffer} {c d : Bytes}

/-- The pointer of `c_str` is null for a buffer without a block. -/
theorem getBuffer_eq (h : b.Holds c) : ∃ p b', b.getBuffer = .ok (p, b') ∧ b'.Holds c ∧
    (p = none ∧ c = [] ∨ ∃ junk, p = some (c ++ 0 :: junk)) := by
  unfold getBuffer
  rcases h.makeString with ⟨rfl, rfl⟩ | ⟨b', hmake, hsealed⟩
  · exact ⟨none, {}, rfl, null, Or.inl ⟨rfl, rfl⟩⟩
  · rw [hmake, ok_bind]
    obtain ⟨c, junk, hs⟩ := hsealed
    exact ⟨_, _, rfl, (Sealed.mk c junk hs).holds, Or.inr ⟨junk, rfl⟩⟩

/-- A copy of the whole text. -/
theorem copy [Malloc] (h : b.Holds c) (htemp : temp.Holds d) (hfit : (c.length+8 : ℤ) ≤ intMax) :
    ∃ p b' code temp', b.getBuffer = .ok (p, b') ∧ b'.tail = c.length ∧
      temp.replaceWith p c.length = .ok (code, temp') ∧ temp'.Holds c := by
  obtain ⟨p, b', hget, hb', ⟨rfl, rfl⟩ | ⟨junk, rfl⟩⟩ := h.getBuffer_eq
  · exact ⟨none, b', _, _, hget, hb'.tail_eq, rfl, htemp.reset⟩
  · obtain ⟨temp', hreplace, hholds, -⟩ := htemp.replaceWith (c ++ 0 :: junk) (n := c.length)
      (by rw [List.length_append]; omega) (fits_reset hfit)
    rw [List.take_left] at hholds
    exact ⟨_, b', _, temp', hget, hb'.tail_eq, hreplace, hholds⟩

/-- The whole text, read behind the pointer of `c_str`. -/
theorem read (h : b.Holds c) : ∃ p b', b.getBuffer = .ok (p, b') ∧ b'.Holds c ∧
    fetch (p.getD []) 0 b'.tail = .ok c := by
  obtain ⟨p, b', hget, hb', ⟨rfl, rfl⟩ | ⟨junk, rfl⟩⟩ := h.getBuffer_eq
  · refine ⟨none, b', hget, hb', ?_⟩
    rw [hb'.tail_eq]
    rfl
  · refine ⟨_, b', hget, hb', ?_⟩
    have hread : fetch (c ++ 0 :: junk) (0 : ℕ) c.length = _ := fetch_ok
      (by rw [List.length_append]; omega)
    rw [hb'.tail_eq]
    rwa [List.drop_zero, List.take_left] at hread

theorem findCharFrom_eq (h : b.Holds c) (ch : Byte) (i : ℕ) : b.findCharFrom ch i =
    ((firstOcc [ch] (c.drop i)).map fun k => ((i+k : ℕ) : ℤ)).getD (-1) := by
  have htext : (b.pBuffer.getD []).take b.tail.toNat = c := by
    cases h with
    | null => rfl
    | block c junk hj hs =>
      change (c ++ junk).take ((c.length : ℕ) : ℤ).toNat = c
      rw [Int.toNat_natCast, List.take_left]
  unfold findCharFrom
  rw [htext, Int.toNat_natCast]
  cases firstOcc [ch] (c.drop i) with
  | none => rfl
  | some k => simp

end Buffer.Holds

/-! ### The map and its stream -/

namespace KeyValue

variable {x : KeyValue} {m : SortedMap Bytes Bytes (· < ·)}

/-- The values that the buffers hold. -/
def Models (x : KeyValue) (m : SortedMap Bytes Bytes (· < ·)) : Prop :=
  List.Forall₂ (fun e e' => e.1 = e'.1 ∧ e.2.Holds e'.2) x.map.entries m.entries

theorem insertEntry_models {l : List (Bytes × Buffer)} {l' : List (Bytes × Bytes)}
    (h : List.Forall₂ (fun e e' => e.1 = e'.1 ∧ e.2.Holds e'.2) l l') (key : Bytes) {b : Buffer}
    {v : Bytes} (hb : b.Holds v) : List.Forall₂ (fun e e' => e.1 = e'.1 ∧ e.2.Holds e'.2)
      (SortedMap.insertEntry (· < ·) key b l)
      (SortedMap.insertEntry (· < ·) key v l') := by
  induction h with
  | nil => exact List.Forall₂.cons ⟨rfl, hb⟩ List.Forall₂.nil
  | @cons e e' l l' he hl ih =>
    unfold SortedMap.insertEntry
    rw [he.1]
    split_ifs
    · exact List.Forall₂.cons he ih
    · exact List.Forall₂.cons ⟨rfl, hb⟩ (List.Forall₂.cons he hl)
    · exact List.Forall₂.cons ⟨rfl, hb⟩ hl

theorem lookup_holds (hx : x.Models m) (key : Bytes) :
    ∃ c, ((x.map.lookup key).getD {}).Holds c := by
  unfold Models at hx
  unfold SortedMap.lookup
  cases hfind : x.map.entries.find? (fun e => e.1 = key) with
  | none => exact ⟨[], Buffer.Holds.null⟩
  | some e =>
    obtain ⟨i, hi, heq⟩ := List.getElem_of_mem (List.mem_of_find?_eq_some hfind)
    have hlen := hx.length_eq
    have hpair := (List.forall₂_iff_get.mp hx).2 i hi (hlen ▸ hi)
    subst heq
    exact ⟨_, hpair.2⟩

/-- A value is set from the buffer that it was parsed into. -/
theorem set_models [Malloc] (hx : x.Models m) {sKey : Bytes} (hkey : 0 ∉ sKey) {b : Buffer}
    {v : Bytes} (hb : b.Holds v) (hfit : (v.length+8 : ℤ) ≤ intMax) : ∃ q b' x',
      b.getBuffer = .ok (q, b') ∧ x.set sKey q b'.tail = .ok x' ∧ x'.Models (m.insert sKey v) := by
  obtain ⟨c, hold⟩ := lookup_holds hx sKey
  obtain ⟨q, b', code, target, hget, htail, hreplace, htarget⟩ := hb.copy hold hfit
  refine ⟨q, b', ⟨x.map.insert sKey target⟩, hget, ?_, insertEntry_models hx sKey htarget⟩
  unfold set
  dsimp only
  rw [cstr_eq_self hkey, htail, hreplace, ok_bind]
  rfl

/-- A value as the stream has it. -/
def valueText (bEncode : Bool) (v : Bytes) : Bytes := if bEncode then Base64.encoded v else v

def streamText (bEncode : Bool) (l : List (Bytes × Bytes)) : Bytes :=
  (l.map fun e => e.1 ++ bytes "|" ++ valueText bEncode e.2 ++ bytes "|").flatten

theorem encodeValue_eq [Malloc] (bEncode : Bool) {temp : Buffer} {v : Bytes} (h : temp.Holds v)
    (hcode : bEncode = true → (2*v.length+8 : ℤ) ≤ intMax) :
    ∃ temp', encodeValue bEncode temp = .ok temp' ∧ temp'.Holds (valueText bEncode v) := by
  unfold encodeValue valueText
  cases bEncode with
  | false => exact ⟨temp, rfl, h⟩
  | true =>
    obtain ⟨x', temp', hencode, hholds⟩ :=
      Base64.HasRoom.encode (Or.inl (hcode rfl)) Relation.ReflTransGen.refl h
    refine ⟨temp', ?_, hholds⟩
    rw [if_pos rfl, hencode]
    rfl

theorem decodeValue_eq [Malloc] (bEncoded : Bool) {b : Buffer} {v : Bytes}
    (h : b.Holds (valueText bEncoded v)) (hfit : ((valueText bEncoded v).length+8 : ℤ) ≤ intMax) :
    ∃ b', decodeValue bEncoded b = .ok b' ∧ b'.Holds v := by
  unfold decodeValue
  unfold valueText at h hfit
  cases bEncoded with
  | false => exact ⟨b, rfl, h⟩
  | true =>
    obtain ⟨x', b', hdecode, hholds⟩ := Base64.decode_ok Relation.ReflTransGen.refl h hfit
    refine ⟨b', ?_, hholds⟩
    rw [if_pos rfl, hdecode]
    rfl

/-- The value goes through the buffer that all values share. -/
theorem streamLoop_eq [Malloc] (bEncode : Bool) {l : List (Bytes × Buffer)}
    {l' : List (Bytes × Bytes)} (h : List.Forall₂ (fun e e' => e.1 = e'.1 ∧ e.2.Holds e'.2) l l')
    (hfit : ∀ e ∈ l', (e.2.length+8 : ℤ) ≤ intMax)
    (hcode : bEncode = true → ∀ e ∈ l', (2*e.2.length+8 : ℤ) ≤ intMax) {temp : Buffer} {d : Bytes}
    (htemp : temp.Holds d) (sBuffer : Bytes) :
    streamLoop bEncode l temp sBuffer = .ok (sBuffer ++ streamText bEncode l') := by
  induction h generalizing temp d sBuffer with
  | nil => exact congrArg Except.ok (List.append_nil sBuffer).symm
  | @cons e e' l l' he hl ih =>
    obtain ⟨p, pBuffer, code, temp₁, hget, htail, hreplace, hvalue⟩ :=
      he.2.copy htemp (hfit e' List.mem_cons_self)
    obtain ⟨temp₂, hencode, hholds⟩ :=
      encodeValue_eq bEncode hvalue fun hb => hcode hb e' List.mem_cons_self
    obtain ⟨q, temp₃, hget', htemp₃, hread⟩ := hholds.read
    have hrest := ih (fun e he => hfit e (List.mem_cons_of_mem e' he))
      (fun hb e he => hcode hb e (List.mem_cons_of_mem e' he)) htemp₃
      (sBuffer ++ e.1 ++ bytes "|" ++ valueText bEncode e'.2 ++ bytes "|")
    unfold streamLoop
    rw [hget, ok_bind]
    dsimp only
    rw [htail, hreplace, ok_bind]
    dsimp only
    rw [hencode, ok_bind, hget', ok_bind]
    dsimp only
    rw [hread, ok_bind, hrest, he.1]
    simp [streamText]

/-! ### The fields of a stream -/

section Fields

variable {buffer : Buffer} {u w r : Bytes} (bEncoded : Bool) (fuel : ℕ)

/-- The next separator is the one behind the field. -/
theorem findCharFrom_field (hb : buffer.Holds (u ++ (w ++ 124 :: r))) (hw : 124 ∉ w) :
    buffer.findCharFrom 124 u.length = ((u.length+w.length : ℕ) : ℤ) := by
  rw [hb.findCharFrom_eq, List.drop_left, firstOcc_singleton hw]
  rfl

theorem fieldLength (u w : Bytes) :
    ((u.length+w.length : ℕ) : ℤ)-(u.length : ℕ) = (w.length : ℕ) := by omega

/-- A field is a key when keys and values have come in pairs before it. -/
theorem parseLoop_key [Malloc] (hb : buffer.Holds (u ++ (w ++ 124 :: r))) (hw : 124 ∉ w)
    (x : KeyValue) : ∃ buffer', buffer'.Holds (u ++ (w ++ 124 :: r)) ∧
      parseLoop bEncoded (fuel+1) buffer [] false u.length u.length x =
        parseLoop bEncoded fuel buffer' w true ((u ++ (w ++ [124])).length : ℕ)
          ((u ++ (w ++ [124])).length : ℕ) x := by
  have hnext : (((u ++ (w ++ [124])).length : ℕ) : ℤ) = ((u.length+w.length : ℕ) : ℤ)+1 := by
    simp only [List.length_append, List.length_singleton]
    omega
  obtain ⟨p, buffer', hget, hb', ⟨-, hnil⟩ | ⟨junk, rfl⟩⟩ := hb.getBuffer_eq
  · simp at hnil
  · have hread : fetch (u ++ (w ++ 124 :: r) ++ 0 :: junk) (u.length : ℕ) (w.length : ℕ) =
      .ok w := by
      rw [fetch_ok (by simp only [List.length_append]; omega), List.append_assoc, List.drop_left,
        List.append_assoc, List.take_left]
    refine ⟨buffer', hb', ?_⟩
    rw [parseLoop]
    dsimp only
    rw [findCharFrom_field hb hw, if_neg (by omega), hget, ok_bind]
    dsimp only
    rw [if_pos rfl, fieldLength, Option.getD_some, hread, ok_bind, hnext]
    rfl

/-- The field behind it is its value. -/
theorem parseLoop_value [Malloc] (hb : buffer.Holds (u ++ (w ++ 124 :: r))) (hw : 124 ∉ w)
    {v : Bytes} (hv : w = valueText bEncoded v) (hfit : (w.length+8 : ℤ) ≤ intMax)
    (hfit' : (v.length+8 : ℤ) ≤ intMax) {sKey : Bytes} (hkey : 0 ∉ sKey) (hx : x.Models m) :
    ∃ buffer' x', buffer'.Holds (u ++ (w ++ 124 :: r)) ∧ x'.Models (m.insert sKey v) ∧
      parseLoop bEncoded (fuel+1) buffer sKey true u.length u.length x =
        parseLoop bEncoded fuel buffer' [] false ((u ++ (w ++ [124])).length : ℕ)
          ((u ++ (w ++ [124])).length : ℕ) x' := by
  have hnext : (((u ++ (w ++ [124])).length : ℕ) : ℤ) = ((u.length+w.length : ℕ) : ℤ)+1 := by
    simp only [List.length_append, List.length_singleton]
    omega
  obtain ⟨p, buffer', hget, hb', ⟨-, hnil⟩ | ⟨junk, rfl⟩⟩ := hb.getBuffer_eq
  · simp at hnil
  · have hrest : (u ++ (w ++ 124 :: r) ++ 0 :: junk).drop u.length =
      w ++ (124 :: r ++ 0 :: junk) := by
      rw [List.append_assoc, List.drop_left, List.append_assoc]
    obtain ⟨b, hreplace, hfield, -⟩ := Buffer.Holds.null.replaceWith
      (w ++ (124 :: r ++ 0 :: junk)) (n := w.length) (by rw [List.length_append]; omega)
      (Buffer.Holds.fits_reset hfit)
    rw [List.take_left, hv] at hfield
    obtain ⟨b₁, hdecode, hvalue⟩ := decodeValue_eq bEncoded hfield (hv ▸ hfit)
    obtain ⟨q, b₂, x', hget₁, hset, hmodels⟩ := set_models hx hkey hvalue hfit'
    refine ⟨buffer', x', hb', hmodels, ?_⟩
    rw [parseLoop]
    dsimp only
    rw [findCharFrom_field hb hw, if_neg (by omega), hget, ok_bind]
    dsimp only
    rw [if_neg (by decide), fieldLength, Option.map_some, Int.toNat_natCast, hrest, hreplace,
      ok_bind]
    dsimp only
    rw [hdecode, ok_bind, hget₁, ok_bind]
    dsimp only
    rw [hset, ok_bind, hnext]

/-- What a field needs to come through the stream. -/
structure Streamable (e : Bytes × Bytes) : Prop where
  key : 124 ∉ e.1 ∧ 0 ∉ e.1
  value : 124 ∉ valueText bEncoded e.2
  fits : ((valueText bEncoded e.2).length+8 : ℤ) ≤ intMax
  fits_value : (e.2.length+8 : ℤ) ≤ intMax

/-- Each pair of fields is set in the map. -/
theorem parseLoop_eq [Malloc] {l : List (Bytes × Bytes)} (hl : ∀ e ∈ l, Streamable bEncoded e)
    (hfuel : 2*l.length < fuel) (hb : buffer.Holds (u ++ streamText bEncoded l))
    (hx : x.Models m) : ∃ x', parseLoop bEncoded fuel buffer [] false u.length u.length x = .ok x' ∧
      x'.Models (l.foldl (fun m e => m.insert e.1 e.2) m) := by
  induction l generalizing u buffer fuel x m with
  | nil =>
    obtain ⟨fuel, rfl⟩ := Nat.exists_eq_add_of_lt hfuel
    have hend : buffer.findCharFrom 124 u.length = -1 := by
      rw [hb.findCharFrom_eq, List.drop_left]
      rfl
    refine ⟨x, ?_, hx⟩
    rw [parseLoop]
    dsimp only
    rw [hend, if_pos rfl]
    rfl
  | cons e l ih =>
    have he := hl e List.mem_cons_self
    rw [List.length_cons] at hfuel
    obtain ⟨fuel, rfl⟩ := Nat.exists_eq_add_of_le' (show 2 ≤ fuel by omega)
    have hsplit : streamText bEncoded (e :: l) =
        e.1 ++ 124 :: (valueText bEncoded e.2 ++ 124 :: streamText bEncoded l) := by
      simp [streamText, bytes]
    rw [hsplit] at hb
    obtain ⟨buffer₁, hb₁, hkey⟩ := parseLoop_key bEncoded (fuel+1) hb he.key.1 x
    have hshift (t : Bytes) : u ++ (e.1 ++ 124 :: t) = u ++ (e.1 ++ [124]) ++ t := by simp
    rw [hshift] at hb₁
    obtain ⟨buffer₂, x₂, hb₂, hmodels, hvalue⟩ :=
      parseLoop_value bEncoded fuel hb₁ he.value rfl he.fits he.fits_value he.key.2 hx
    have hshift' : u ++ (e.1 ++ [124]) ++
        (valueText bEncoded e.2 ++ 124 :: streamText bEncoded l) =
        u ++ (e.1 ++ [124]) ++ (valueText bEncoded e.2 ++ [124]) ++ streamText bEncoded l := by simp
    rw [hshift'] at hb₂
    obtain ⟨x', hrest, hmodels'⟩ := ih fuel (fun e' he' => hl e' (List.mem_cons_of_mem e he'))
      (by omega) hb₂ hmodels
    refine ⟨x', ?_, hmodels'⟩
    rw [hkey, hvalue, hrest]

end Fields

/-! ### The way through the stream -/

theorem bar_notMem_encoded (v : Bytes) : 124 ∉ Base64.encoded v := by
  obtain ⟨u, k, hform, -, hu⟩ := Base64.encoded_form v
  rw [hform, List.mem_append, not_or]
  constructor
  · exact fun hmem => absurd (hu 124 hmem) (by decide)
  · exact fun hmem => absurd (List.eq_of_mem_replicate hmem) (by decide)

theorem length_le_valueText (bEncode : Bool) (v : Bytes) :
    v.length ≤ (valueText bEncode v).length := by
  unfold valueText
  cases bEncode with
  | false => exact Nat.le_refl _
  | true =>
    rw [if_pos rfl, Base64.length_encoded]
    omega

theorem length_valueText_le {l : List (Bytes × Bytes)} {e : Bytes × Bytes} (he : e ∈ l)
    (bEncode : Bool) : (valueText bEncode e.2).length ≤ (streamText bEncode l).length := by
  obtain ⟨before, after, rfl⟩ := List.append_of_mem he
  simp only [streamText, List.map_append, List.map_cons, List.flatten_append, List.flatten_cons,
    List.length_append]
  omega

theorem two_mul_length_le (bEncode : Bool) (l : List (Bytes × Bytes)) :
    2*l.length ≤ (streamText bEncode l).length := by
  induction l with
  | nil => exact Nat.le_refl 0
  | cons e l ih =>
    have hbar : (bytes "|").length = 1 := by decide
    have hsplit : (streamText bEncode (e :: l)).length = (e.1 ++ bytes "|" ++
        valueText bEncode e.2 ++ bytes "|").length+(streamText bEncode l).length := by
      rw [streamText, List.map_cons, List.flatten_cons, List.length_append, streamText]
    rw [hsplit]
    simp only [List.length_append, List.length_cons, hbar]
    omega

/-- A map whose stream fits a buffer is the map that is parsed from its stream. -/
theorem parse_getStream [Malloc] (hx : x.Models m) (bEncode : Bool)
    (hkeys : ∀ e ∈ m.entries, 124 ∉ e.1 ∧ 0 ∉ e.1)
    (hvalues : bEncode = false → ∀ e ∈ m.entries, 124 ∉ e.2)
    (hcode : bEncode = true → ∀ e ∈ m.entries, (2*e.2.length+8 : ℤ) ≤ intMax)
    (hsize : ((streamText bEncode m.entries).length+8 : ℤ) ≤ intMax) :
    ∃ stream x', x.getStream [] bEncode = .ok stream ∧
      ({} : KeyValue).parse (stream ++ [0]) stream.length bEncode = .ok x' ∧ x'.Models m := by
  have hl : ∀ e ∈ m.entries, Streamable bEncode e := by
    intro e he
    have hvalue := length_valueText_le he bEncode
    have hlong := length_le_valueText bEncode e.2
    refine ⟨hkeys e he, ?_, by omega, by omega⟩
    cases bEncode with
    | false => exact hvalues rfl e he
    | true => exact bar_notMem_encoded e.2
  have hstream := streamLoop_eq bEncode hx (fun e he => (hl e he).fits_value) hcode
    Buffer.Holds.null []
  rw [List.nil_append] at hstream
  obtain ⟨buffer, hreplace, hbuffer, -⟩ := Buffer.Holds.null.replaceWith
    (streamText bEncode m.entries ++ [0]) (n := (streamText bEncode m.entries).length)
    (by rw [List.length_append]; omega) (Buffer.Holds.fits_reset hsize)
  rw [List.take_left] at hbuffer
  have htwo := two_mul_length_le bEncode m.entries
  obtain ⟨x', hparse, hmodels⟩ := parseLoop_eq (u := []) (m := {}) (x := {}) bEncode
    ((streamText bEncode m.entries).length+1) hl (by omega) hbuffer List.Forall₂.nil
  rw [SortedMap.foldl_insert_entries] at hmodels
  refine ⟨_, x', hstream, ?_, hmodels⟩
  unfold parse
  rw [hreplace, ok_bind]
  dsimp only
  rw [hbuffer.tail_eq, Int.toNat_natCast]
  exact hparse

/-! ### Two values -/

def twoValues (v w : Bytes) : SortedMap Bytes Bytes (· < ·) where
  entries := [(bytes "k", v), (bytes "l", w)]
  sorted := List.pairwise_pair.mpr (show bytes "k" < bytes "l" by decide)

def twoBuffers (v w : Bytes) : KeyValue where
  map := {
    entries := [(bytes "k", Buffer.terminated v), (bytes "l", Buffer.terminated w)]
    sorted := List.pairwise_pair.mpr (show bytes "k" < bytes "l" by decide) }

theorem twoBuffers_models {v w : Bytes} (hv : (v.length : ℤ) < intMax)
    (hw : (w.length : ℤ) < intMax) : (twoBuffers v w).Models (twoValues v w) :=
  List.Forall₂.cons ⟨rfl, Buffer.holds_terminated hv⟩
    (List.Forall₂.cons ⟨rfl, Buffer.holds_terminated hw⟩ List.Forall₂.nil)

/-- With the code a value may have a bar and a NUL, without it only a NUL. -/
theorem parse_getStream_two :
    (∃ stream x', (twoBuffers [97, 124, 0] []).getStream [] true = .ok stream ∧
      ({} : KeyValue).parse (stream ++ [0]) stream.length true = .ok x' ∧
        x'.Models (twoValues [97, 124, 0] [])) ∧
    ∃ stream x', (twoBuffers [97, 0, 98] [99]).getStream [] false = .ok stream ∧
      ({} : KeyValue).parse (stream ++ [0]) stream.length false = .ok x' ∧
        x'.Models (twoValues [97, 0, 98] [99]) := by
  have hkeys (v w : Bytes) : ∀ e ∈ (twoValues v w).entries, 124 ∉ e.1 ∧ 0 ∉ e.1 := by
    intro e he
    rcases List.mem_pair.mp he with rfl | rfl
    · exact show 124 ∉ bytes "k" ∧ 0 ∉ bytes "k" by decide
    · exact show 124 ∉ bytes "l" ∧ 0 ∉ bytes "l" by decide
  exact ⟨parse_getStream (twoBuffers_models (by decide) (by decide)) true (hkeys _ _) nofun
      (fun _ => by decide) (by decide),
    parse_getStream (twoBuffers_models (by decide) (by decide)) false (hkeys _ _)
      (fun _ => by decide) nofun (by decide)⟩

/-! ### A value that is too long -/

def oneValue (v : Bytes) : SortedMap Bytes Bytes (· < ·) where
  entries := [(bytes "k", v)]
  sorted := List.pairwise_singleton _ _

def oneBuffer (v : Bytes) : KeyValue where
  map := {
    entries := [(bytes "k", Buffer.terminated v)]
    sorted := List.pairwise_singleton _ _ }

theorem oneBuffer_models {v : Bytes} (hv : (v.length : ℤ) < intMax) :
    (oneBuffer v).Models (oneValue v) :=
  List.Forall₂.cons ⟨rfl, Buffer.holds_terminated hv⟩ List.Forall₂.nil

/-- A value with which no size that is an `int` has eight bytes more. -/
def longValue : Bytes := List.replicate 2147483640 0

theorem longValue_not_restored : ¬ ∀ (x : KeyValue) (m : SortedMap Bytes Bytes (· < ·)),
    x.Models m → (∀ e ∈ m.entries, 124 ∉ e.1 ∧ 0 ∉ e.1) → (∀ e ∈ m.entries, 124 ∉ e.2) →
      ∃ stream x', x.getStream [] false = .ok stream ∧
        ({} : KeyValue).parse (stream ++ [0]) stream.length false = .ok x' ∧ x'.Models m := by
  have hlen : longValue.length = 2147483640 := List.length_replicate
  have hbar : 124 ∉ longValue := fun h => absurd (List.eq_of_mem_replicate h) (by decide)
  generalize longValue = v at hlen hbar
  have hmax : (v.length : ℤ) < intMax := by
    rw [hlen]
    decide
  intro hall
  obtain ⟨stream, x', hstream, -⟩ := hall (oneBuffer v) (oneValue v) (oneBuffer_models hmax)
    (fun e he => by
      rw [List.mem_singleton.mp he]
      exact show 124 ∉ bytes "k" ∧ 0 ∉ bytes "k" by decide)
    (fun e he => by rw [List.mem_singleton.mp he]; exact hbar)
  obtain ⟨p, pBuffer, hget, hpBuffer, hp⟩ := (Buffer.holds_terminated hmax).getBuffer_eq
  have hstream : streamLoop false [(bytes "k", Buffer.terminated v)] {} [] = .ok stream := hstream
  unfold streamLoop at hstream
  rw [hget, ok_bind] at hstream
  obtain ⟨r, hreplace, -⟩ := bind_eq_ok.mp hstream
  rw [hpBuffer.tail_eq] at hreplace
  rcases hp with ⟨-, hnil⟩ | ⟨junk, rfl⟩
  · rw [hnil] at hlen
    cases hlen
  · have hfits := Buffer.Holds.null.fits_of_replaceWith (by omega)
      (by rw [List.length_append]; omega) hmax.le hreplace
    unfold Buffer.Fits at hfits
    rw [hlen] at hfits
    exact absurd hfits (by decide)

end KeyValue
end MsgCourier
