import MsgCourier.BufferContent
import Mathlib.Data.List.AList

/-! `cHeaderExtract`: the header of a message as a map from field names to values. -/
namespace MsgCourier
open ListSearch CText

abbrev Params := AList fun _ : Bytes => Bytes

structure HeaderExtract where
  params : Params := ∅
  sHeader : Bytes := []

def crlf : Bytes := [13, 10]

def crlfcrlf : Bytes := [13, 10, 13, 10]

theorem crlfcrlf_ne_nil : crlfcrlf ≠ [] := List.cons_ne_nil _ _

/-- The loop over `find_first_of('\r', offset)`: the text in front of each CR is a line, and
the search goes on two bytes behind the CR. -/
def headerLines (line : Bytes) : Bytes → List Bytes
  | [] => []
  | [b] => if b = 13 then [line] else []
  | b :: d :: t =>
    if b = 13 then line :: headerLines [] t else headerLines (line ++ [b]) (d :: t)

/-- Name and value of a line, split at its first colon; one blank behind the colon goes. -/
def splitLine (line : Bytes) : Option (Bytes × Bytes) :=
  (firstOcc [58] line).map fun split =>
    let line := line.take split ++ line.drop (split + if (line)[split+1]? = some 32 then 2 else 1)
    (line.take split, line.drop split)

def addLine (params : Params) (line : Bytes) : Params :=
  match splitLine line with
  | some (name, value) => params.insert name value
  | none => params

namespace HeaderExtract

def headerParams (sHeader : Bytes) : Params := (headerLines [] sHeader).foldl addLine ∅

def parse (x : HeaderExtract) (pBuf : Buffer) : Cxx (HeaderExtract × Buffer) := do
  let (len, pBuf) ← pBuf.find crlfcrlf 4
  if len = -1 then pure ({ x with params := ∅ }, pBuf)
  else
    let sHeader := (pBuf.pBuffer.getD []).take len.toNat ++ bytes "\r\nend\r\n"
    pure ({ params := headerParams sHeader, sHeader }, pBuf)

def getValue (x : HeaderExtract) (pName : Bytes) : Bytes := (x.params.lookup pName).getD []

end HeaderExtract

/-! ### The fields of a text -/

/-- The header the extractor takes from a text: it starts looking for the end at offset 4. -/
def headerText (c : Bytes) : Option Bytes :=
  (strstr (c.drop 4) crlfcrlf).map fun k => c.take (4+k)

def headerFields (c : Bytes) : Params :=
  (headerText c).elim ∅ fun h => HeaderExtract.headerParams (h ++ bytes "\r\nend\r\n")

def fieldValue (c name : Bytes) : Bytes := ((headerFields c).lookup name).getD []

/-- The search may start behind the content, in the stale bytes of the block. -/
theorem HeaderExtract.parse_block (x : HeaderExtract) {b : Buffer} {c junk : Bytes}
    (h : b.Holds c) (hc : c ≠ []) (hblock : b.pBuffer = some (c ++ junk))
    (h4 : 4 ≤ (c ++ junk).length) : ∃ b' x', b'.Sealed c ∧ x.parse b = .ok (x', b') ∧
      x'.params = headerFields (c ++ 0 :: junk.tail) := by
  have ht : b.tail ≠ 0 := by
    rw [h.tail_eq]
    have := List.length_pos_iff.mpr hc
    omega
  obtain ⟨b', hb', hs, hblock'⟩ := h.makeString_stale hblock
  have hlen : (c ++ 0 :: junk.tail).length = (c ++ junk).length := by
    cases junk with
    | nil => exact absurd rfl (h.junk_ne_nil hc hblock)
    | cons a junk => simp
  have hrange : 0 ≤ (4 : ℤ) ∧ (4 : ℤ) ≤ (c ++ 0 :: junk.tail).length := by omega
  refine ⟨b', ?_⟩
  simp only [parse, Buffer.find, if_neg ht, hb', ok_bind, hblock', if_pos hrange]
  rw [show (4 : ℤ).toNat = 4 by rfl]
  rcases hk : strstr ((c ++ 0 :: junk.tail).drop 4) crlfcrlf with _ | k
  · refine ⟨{ x with params := ∅ }, hs, rfl, ?_⟩
    simp [headerFields, headerText, hk]
  · refine ⟨_, hs, rfl, ?_⟩
    simp only [headerFields, headerText, hk, Option.map_some, Option.elim_some, hblock',
      Option.getD_some]
    rw [show ((4 : ℤ)+k).toNat = 4+k by omega]

theorem headerText_sealed {c : Bytes} (hc : 4 ≤ c.length) (junk : Bytes) :
    headerText (c ++ 0 :: junk) = headerText c := by
  rw [headerText, headerText, List.drop_append_of_le_length hc, strstr, cstr_append_zero, ← strstr]
  rcases hk : strstr (c.drop 4) crlfcrlf with _ | k
  · rfl
  · have hlen := strstr_le hk
    simp only [List.length_drop] at hlen
    rw [Option.map_some, Option.map_some, List.take_append_of_le_length (by omega)]

theorem HeaderExtract.parse_holds (x : HeaderExtract) {b : Buffer} {c : Bytes} (h : b.Holds c)
    (hc : 4 ≤ c.length) : ∃ b' x', b'.Sealed c ∧ x.parse b = .ok (x', b') ∧
      x'.params = headerFields c := by
  have hne : c ≠ [] := by
    rintro rfl
    simp at hc
  obtain ⟨junk, hblock⟩ := h.pBuffer_eq hne
  obtain ⟨b', x', hs, hx, hparams⟩ := x.parse_block h hne hblock
    (by simp only [List.length_append]; omega)
  refine ⟨b', x', hs, hx, hparams.trans ?_⟩
  rw [headerFields, headerFields, headerText_sealed hc]

/-- Bytes behind the end of the header do not change it. -/
theorem headerText_append {c h : Bytes} (hh : headerText c = some h) (r : Bytes) :
    headerText (c ++ r) = some h := by
  obtain ⟨k, hk, rfl⟩ := Option.map_eq_some_iff.mp hh
  have hlen := strstr_le hk
  simp only [List.length_drop, crlfcrlf, List.length_cons, List.length_nil] at hlen
  unfold headerText
  rw [List.drop_append_of_le_length (by omega), strstr_append crlfcrlf_ne_nil hk,
    Option.map_some, List.take_append_of_le_length (by omega)]

theorem headerFields_append {c h : Bytes} (hh : headerText c = some h) (r : Bytes) :
    headerFields (c ++ r) = headerFields c := by
  rw [headerFields, headerFields, hh, headerText_append hh]

/-! ### Lines -/

theorem headerLines_cons {l : Bytes} (hl : 13 ∉ l) (line t : Bytes) :
    headerLines line (l ++ 13 :: 10 :: t) = (line ++ l) :: headerLines [] t := by
  induction l generalizing line with
  | nil => simp [headerLines]
  | cons b l ih =>
    have hb : b ≠ 13 := fun h => hl (h ▸ List.mem_cons_self)
    have hrec := ih (fun h => hl (List.mem_cons_of_mem _ h)) (line ++ [b])
    obtain ⟨d, t', ht⟩ : ∃ d t', l ++ 13 :: 10 :: t = d :: t' := by
      cases l with
      | nil => exact ⟨13, 10 :: t, rfl⟩
      | cons d l => exact ⟨d, l ++ 13 :: 10 :: t, rfl⟩
    rw [List.cons_append, ht, headerLines, if_neg hb, ← ht, hrec, List.append_assoc,
      List.singleton_append]

/-- Lines put together with CRLF come apart again. -/
theorem headerLines_join {ls : List Bytes} (hls : ∀ l ∈ ls, 13 ∉ l) :
    headerLines [] ((ls.map (· ++ crlf)).flatten) = ls := by
  induction ls with
  | nil => rfl
  | cons l ls ih =>
    have hl := hls l List.mem_cons_self
    have hrec := ih fun m hm => hls m (List.mem_cons_of_mem _ hm)
    rw [List.map_cons, List.flatten_cons, crlf, List.append_assoc, List.cons_append,
      List.singleton_append, headerLines_cons hl, List.nil_append]
    exact congrArg (l :: ·) hrec

theorem splitLine_field {name : Bytes} (hn : 58 ∉ name) (value : Bytes) :
    splitLine (name ++ 58 :: 32 :: value) = some (name, value) := by
  unfold splitLine
  rw [firstOcc_singleton hn]
  simp

/-- Without a blank behind the colon, for a value that does not start with one. -/
theorem splitLine_field' {name value : Bytes} (hn : 58 ∉ name) (hv : value.head? ≠ some 32) :
    splitLine (name ++ 58 :: value) = some (name, value) := by
  have hget : (name ++ 58 :: value)[name.length+1]? ≠ some 32 := by
    rw [List.getElem?_append_right (by omega)]
    simpa [← List.head?_eq_getElem?] using hv
  unfold splitLine
  rw [firstOcc_singleton hn]
  simp [hget]

theorem splitLine_none {line : Bytes} (h : 58 ∉ line) : splitLine line = none := by
  rw [splitLine, firstOcc_singleton_none h, Option.map_none]

/-- `name` is not the field name of `line`. -/
def NotField (name line : Bytes) : Prop := ∀ value, splitLine line ≠ some (name, value)

theorem lookup_addLine_of_notField {name line : Bytes} (h : NotField name line) (ps : Params) :
    (addLine ps line).lookup name = ps.lookup name := by
  unfold addLine
  rcases hs : splitLine line with _ | ⟨n, v⟩
  · rfl
  · have hne : name ≠ n := by
      rintro rfl
      exact h v hs
    exact AList.lookup_insert_ne hne

theorem lookup_foldl_of_notField {name : Bytes} {ls : List Bytes} (h : ∀ l ∈ ls, NotField name l)
    (ps : Params) : (ls.foldl addLine ps).lookup name = ps.lookup name := by
  induction ls generalizing ps with
  | nil => rfl
  | cons l ls ih =>
    rw [List.foldl_cons, ih (fun m hm => h m (List.mem_cons_of_mem _ hm)),
      lookup_addLine_of_notField (h l List.mem_cons_self)]

/-- The last line of a name decides its value. -/
theorem lookup_foldl_field {name value line : Bytes} {before after : List Bytes}
    (hl : splitLine line = some (name, value)) (h : ∀ l ∈ after, NotField name l) (ps : Params) :
    ((before ++ line :: after).foldl addLine ps).lookup name = some value := by
  rw [List.foldl_append, List.foldl_cons, lookup_foldl_of_notField h]
  unfold addLine
  rw [hl]
  exact AList.lookup_insert _

end MsgCourier
