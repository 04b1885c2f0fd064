import MsgCourier.CText

/-! `cRoutingTag`: tags `name@address:port`, with defaults for what a tag leaves out. -/
namespace MsgCourier
open ListSearch CText

structure RoutingTag where
  sFullTag : Bytes := []
  sTagName : Bytes := []
  sTagIPAddr : Bytes := []
  sTagPort : Bytes := []

/-- `string::find` of one byte, with `npos` as -1. -/
def findByte (ch : Byte) (s : Bytes) : ℤ := (firstOcc [ch] s).elim (-1) fun k => (k : ℤ)

namespace RoutingTag

def buildFullTag (x : RoutingTag) : RoutingTag :=
  { x with sFullTag := x.sTagName ++ bytes "@" ++ x.sTagIPAddr ++ bytes ":" ++ x.sTagPort }

def setTag (x : RoutingTag) (pTag : Bytes) : RoutingTag :=
  let tag := cstr pTag
  let atIdx := findByte 64 tag
  let colonIdx := findByte 58 tag
  if atIdx = -1 ∧ colonIdx = -1 then { x with sTagName := tag, sFullTag := tag }
  else
    let sTagName := if 0 < atIdx then tag.take atIdx.toNat else bytes "unknown"
    let sTagPort := if 0 < colonIdx then tag.drop (colonIdx+1).toNat else bytes "0000"
    -- `iplen` is an `int` computed from two `size_t`
    let iplen := int32 (colonIdx-atIdx-1)
    let sTagIPAddr :=
      if 0 < iplen then (tag.drop (atIdx+1).toNat).take iplen.toNat
      else if 46 ∈ tag then tag else bytes "0.0.0.0"
    { x with sTagName, sTagPort, sTagIPAddr }.buildFullTag

def getTag (x : RoutingTag) : Bytes := x.sFullTag

end RoutingTag

/-- What a tag becomes when it is read from a header. -/
def normalizeTag (pTag : Bytes) : Bytes := (({} : RoutingTag).setTag pTag).getTag

theorem findByte_append {ch : Byte} {s : Bytes} (hs : ch ∉ s) (r : Bytes) :
    findByte ch (s ++ ch :: r) = s.length := by
  rw [findByte, firstOcc_singleton hs, Option.elim_some]

/-- A complete tag stays as it is. -/
theorem normalizeTag_full {name addr port : Bytes} (hname : name ≠ []) (haddr : addr ≠ [])
    (hn : ∀ b ∈ name, b ≠ 64 ∧ b ≠ 58) (ha : 58 ∉ addr)
    (h0 : 0 ∉ name ++ 64 :: (addr ++ 58 :: port)) (hlen : (addr.length : ℤ) ≤ intMax) :
    normalizeTag (name ++ 64 :: (addr ++ 58 :: port)) = name ++ 64 :: (addr ++ 58 :: port) := by
  have hat : findByte 64 (name ++ 64 :: (addr ++ 58 :: port)) = name.length :=
    findByte_append (fun h => (hn _ h).1 rfl) _
  have hcolon : findByte 58 (name ++ 64 :: (addr ++ 58 :: port)) = name.length+1+addr.length := by
    have hmem : (58 : Byte) ∉ name ++ 64 :: addr := by
      intro h
      rcases List.mem_append.mp h with h | h
      · exact (hn _ h).2 rfl
      · rcases List.mem_cons.mp h with h | h
        · exact absurd h (by decide)
        · exact ha h
    have heq : name ++ 64 :: (addr ++ 58 :: port) = (name ++ 64 :: addr) ++ 58 :: port := by simp
    rw [heq, findByte_append hmem]
    simp only [List.length_append, List.length_cons]
    omega
  have hnl := List.length_pos_iff.mpr hname
  have hal := List.length_pos_iff.mpr haddr
  have hip : int32 ((name.length : ℤ)+1+addr.length-name.length-1) = addr.length := by
    rw [int32_eq (by omega) (by omega)]
    omega
  have hc : ¬ ((name.length : ℤ) = -1 ∧ (name.length : ℤ)+1+addr.length = -1) := by omega
  have hport : ((name.length : ℤ)+1+addr.length+1).toNat = name.length+(1+(addr.length+1)) := by
    omega
  have hstart : ((name.length : ℤ)+1).toNat = name.length+1 := by omega
  simp only [normalizeTag, RoutingTag.setTag, cstr_eq_self h0, hat, hcolon, if_neg hc, hip]
  rw [if_pos (by omega), if_pos (by omega), if_pos (by omega), hport, hstart]
  simp only [RoutingTag.getTag, RoutingTag.buildFullTag, Int.toNat_natCast, List.take_left]
  have hdrop : (name ++ 64 :: (addr ++ 58 :: port)).drop (name.length+(1+(addr.length+1))) =
      port := by
    rw [← List.drop_drop, List.drop_left, ← List.drop_drop]
    simp
  have haddr' : ((name ++ 64 :: (addr ++ 58 :: port)).drop (name.length+1)).take addr.length =
      addr := by
    rw [← List.drop_drop, List.drop_left]
    simp
  rw [hdrop, haddr']
  simp [bytes]

example : normalizeTag (bytes "host@:12") = bytes "host@0.0.0.0:12" := by decide

end MsgCourier
