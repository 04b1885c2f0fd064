import MsgCourier.CText

/-! `cBuffer`: a growing byte block with a tail index. The block is kept as the bytes of
the allocation, so stale bytes behind the tail are part of the state. -/
namespace MsgCourier
open ListSearch CText

/-- How a call ends without returning: a thrown `char*` (`MC_ASSERT`, the `THROW` of buffer.cpp,
the `const char*` of `LOGALL`), a thrown `std::exception` or `cException`, or an access outside
every allocation. -/
inductive Exn
  | charPtr
  | stdException
  | cException
  | undefined
  deriving DecidableEq, Repr

abbrev Cxx := Except Exn

@[simp] theorem ok_bind {α β : Type} (a : α) (f : α → Except Exn β) :
    (Except.ok a >>= f) = f a := rfl

@[simp] theorem error_bind {α β : Type} (e : Exn) (f : α → Except Exn β) :
    (Except.error e >>= f) = .error e := rfl

@[simp] theorem pure_eq_ok {α : Type} (a : α) : (pure a : Except Exn α) = .ok a := rfl

/-- A sequence returns when both parts do. -/
theorem bind_eq_ok {α β : Type} {x : Except Exn α} {f : α → Except Exn β} {b : β} :
    (x >>= f) = .ok b ↔ ∃ a, x = .ok a ∧ f a = .ok b := by
  cases x with
  | error e => simp
  | ok a => simp

def bufferNoError : ℤ := 0
def bufferRegionOutOfBounds : ℤ := 4
def bufferParamInvalid : ℤ := 5
def bufferIsEmpty : ℤ := 7

structure Buffer where
  pBuffer : Option Bytes := none
  bufferSize : ℤ := 0
  tail : ℤ := 0
  deriving DecidableEq, Repr

/-! ### Memory -/

/-- What `malloc` leaves in the block that becomes a buffer: bytes nobody wrote, of any value. -/
class Malloc where
  block : Buffer → ℕ → Bytes
  length_block (b : Buffer) (n : ℕ) : (block b n).length = n

attribute [simp] Malloc.length_block

namespace ZeroFill

/-- An allocator whose blocks are zero, for runs on fixed inputs. -/
scoped instance zeroFill : Malloc where
  block _ n := List.replicate n 0
  length_block _ _ := List.length_replicate

end ZeroFill

def fetch (mem : Bytes) (i n : ℤ) : Cxx Bytes :=
  if 0 ≤ i ∧ 0 ≤ n ∧ i+n ≤ mem.length then .ok ((mem.drop i.toNat).take n.toNat)
  else .error .undefined

def store (mem : Bytes) (i : ℤ) (src : Bytes) : Cxx Bytes :=
  if 0 ≤ i ∧ i+src.length ≤ mem.length then
    .ok (mem.take i.toNat ++ src ++ mem.drop (i.toNat+src.length))
  else .error .undefined

/-- A negative size becomes a huge `size_t`; the class turns the null result into a throw. -/
def malloc [Malloc] (b : Buffer) (iSize : ℤ) : Cxx Bytes :=
  if iSize < 0 then .error .charPtr else .ok (Malloc.block b iSize.toNat)

def strlen (p : Bytes) : Cxx ℤ :=
  if 0 ∈ p then .ok (cstr p).length else .error .undefined

/-- A length argument, with the default -1 read as the length of the text. -/
def lengthArg (p : Bytes) (iLen : ℤ) : Cxx ℤ := if iLen = -1 then strlen p else pure iLen

namespace Buffer

/-! ### The operations -/

/-- `sizeof(long)` is 8; `m_minAlloc` and `m_midAlloc` keep their constructor values. -/
def adjustSize (iSize : ℤ) : ℤ :=
  let iSize := int32 (iSize+8)
  if iSize ≤ 32 then 32 else if iSize < 256 then iSize*3/2 else iSize

def setBufferSize [Malloc] (b : Buffer) (iSize : ℤ) : Cxx Buffer :=
  match b.pBuffer with
  | some mem =>
    if b.bufferSize ≤ iSize then do
      let iSize := adjustSize iSize
      let pBuffer ← malloc b iSize
      let old ← fetch mem 0 b.bufferSize
      let pBuffer ← store pBuffer 0 old
      pure { b with pBuffer := some pBuffer, bufferSize := iSize }
    else pure b
  | none => do
    let iSize := adjustSize iSize
    let pBuffer ← malloc b iSize
    pure { pBuffer := some pBuffer, bufferSize := iSize, tail := 0 }

def setBufferLength [Malloc] (b : Buffer) (iSize : ℤ) : Cxx Buffer := do
  let b ← b.setBufferSize iSize
  pure { b with tail := iSize }

def reset (b : Buffer) : Buffer := { b with tail := 0 }

def makeString (b : Buffer) : Cxx Buffer :=
  match b.pBuffer with
  | some mem => do
    let mem ← store mem b.tail [0]
    pure { b with pBuffer := some mem }
  | none => pure b

/-- `GetBuffer` and `cstr`: the block, terminated at the tail. -/
def getBuffer (b : Buffer) : Cxx (Option Bytes × Buffer) := do
  let b ← b.makeString
  pure (b.pBuffer, b)

def remove (b : Buffer) (iIndex iLength : ℤ) : Cxx (ℤ × Buffer) :=
  if b.tail = 0 then pure (bufferIsEmpty, b)
  else
    let iLen := if b.bufferSize < iLength then b.bufferSize else iLength
    let iCalcOffset := int32 (iLen+iIndex)
    if iLen = 0 ∨ b.bufferSize < iCalcOffset then pure (bufferRegionOutOfBounds, b)
    else if b.tail = iCalcOffset then
      pure (bufferNoError, { b with tail := int32 (b.tail-iLen) })
    else
      match b.pBuffer with
      | none => .error .undefined
      | some mem => do
        let rest ← fetch mem iCalcOffset (int32 (b.tail-iCalcOffset))
        let mem ← store mem iIndex rest
        pure (bufferNoError, { b with pBuffer := some mem, tail := int32 (b.tail-iLen) })

/-- The growth step of `Append`. -/
def appendRoom [Malloc] (b : Buffer) (iLen : ℤ) : Cxx Buffer :=
  let space := int32 (b.bufferSize-b.tail)
  if space ≤ iLen then b.setBufferSize (int32 (int32 (iLen-space)+b.bufferSize))
  else pure b

/-- `pData` stands for the bytes readable from the pointer on. -/
def append [Malloc] (b : Buffer) (pData : Option Bytes) (iLen : ℤ) : Cxx (ℤ × Buffer) :=
  if iLen = 0 then pure (0, b)
  else
    match pData with
    | none => pure (bufferParamInvalid, b)
    | some p => do
      let iLen ← lengthArg p iLen
      let b ← b.appendRoom iLen
      match b.pBuffer with
      | none => .error .undefined
      | some mem => do
        let src ← fetch p 0 iLen
        let mem ← store mem b.tail src
        let b ← { b with pBuffer := some mem, tail := int32 (b.tail+iLen) : Buffer }.makeString
        pure (bufferNoError, b)

def replaceWith [Malloc] (b : Buffer) (pData : Option Bytes) (iSize : ℤ) : Cxx (ℤ × Buffer) :=
  match pData with
  | none => pure (bufferNoError, b.reset)
  | some p => do
    let iSize ← lengthArg p iSize
    b.reset.append (some p) iSize

/-- `strstr` from `iOffset` on; the text searched ends at the first NUL, which an offset
behind the tail puts among stale bytes. -/
def find (b : Buffer) (pszText : Bytes) (iOffset : ℤ) : Cxx (ℤ × Buffer) :=
  if b.tail = 0 then pure (-1, b)
  else do
    let b ← b.makeString
    match b.pBuffer with
    | none => .error .undefined
    | some mem =>
      if 0 ≤ iOffset ∧ iOffset ≤ mem.length then
        match strstr (mem.drop iOffset.toNat) pszText with
        | some k => pure (iOffset+k, b)
        | none => pure (-1, b)
      else .error .undefined

/-- The scan starts a comparison at every position below the tail, and a comparison may
run past it. -/
def binaryFind (b : Buffer) (index : ℤ) (pPattern : Bytes) : ℤ :=
  if b.tail = 0 ∨ b.tail < index then -1
  else
    match firstOcc pPattern ((b.pBuffer.getD []).drop index.toNat) with
    | some k => if (k : ℤ) < b.tail then k+index else -1
    | none => -1

/-- `text` is what the format directives print, without NUL; the terminator is written too. -/
def sprintf [Malloc] (b : Buffer) (iBufferSize : ℤ) (text : Bytes) : Cxx Buffer := do
  let b ← b.setBufferSize iBufferSize
  let b ← b.makeString
  match b.pBuffer with
  | none => .error .undefined
  | some mem => do
    let mem ← store mem 0 (text ++ [0])
    { b with pBuffer := some mem, tail := (cstr mem).length : Buffer }.makeString

def findChar (b : Buffer) (ch : Byte) : ℤ :=
  match firstOcc [ch] ((b.pBuffer.getD []).take b.tail.toNat) with
  | some k => k
  | none => -1

end Buffer
end MsgCourier
