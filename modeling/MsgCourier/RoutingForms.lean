import MsgCourier.PeerRoutingMap
import MsgCourier.RoutingTag

/-! What `SetTag` makes of each form of a tag, and which tags it leaves alone when it is called with
its own result. A tag is read by its first `@` and its first `:`; a length is an `int`. -/
namespace MsgCourier
open ListSearch CText

/-- A length that is read as an `int` is not a longer one. -/
theorem int32_toNat_le (k : ℕ) : (int32 k).toNat ≤ k := by
  by_cases hk : (k : ℤ) ≤ intMax
  · exact (congrArg Int.toNat (int32_eq (by omega) hk)).le
  · have hk' := int32_le k
    exact Int.toNat_le.mpr (hk'.trans (by omega))

/-! ### The two marks -/

theorem findByte_none {ch : Byte} {s : Bytes} (hs : ch ∉ s) : findByte ch s = -1 := by
  rw [findByte, firstOcc_singleton_none hs]
  rfl

theorem findByte_cases (ch : Byte) (s : Bytes) : ch ∉ s ∧ findByte ch s = -1 ∨
    ∃ u v, s = u ++ ch :: v ∧ ch ∉ u ∧ findByte ch s = u.length := by
  by_cases hin : ch ∈ s
  · obtain ⟨u, v, rfl, hu⟩ := List.eq_append_cons_of_mem hin
    exact Or.inr ⟨u, v, rfl, hu, findByte_append hu v⟩
  · exact Or.inl ⟨hin, findByte_none hin⟩

/-- A part that is missing is a default. -/
def orDefault (d part : Bytes) : Bytes := if part = [] then d else part

theorem orDefault_ne {part : Bytes} (h : part ≠ []) (d : Bytes) : orDefault d part = part :=
  if_neg h

@[simp] theorem orDefault_nil (d : Bytes) : orDefault d [] = d := if_pos rfl

theorem orDefault_unknown_ne (part : Bytes) : orDefault (bytes "unknown") part ≠ [] := by
  by_cases h : part = []
  · subst h
    decide
  · rwa [orDefault_ne h]

/-- The address when none is cut out: a tag with a dot is taken for one. -/
def wholeAddr (tag : Bytes) : Bytes := if 46 ∈ tag then tag else bytes "0.0.0.0"

/-- The whole tag is no part of itself, and `0.0.0.0` has dots. -/
theorem wholeAddr_ne {tag part : Bytes} (hlen : part.length < tag.length)
    (hsub : 46 ∈ part → 46 ∈ tag) : wholeAddr tag ≠ part := by
  intro heq
  unfold wholeAddr at heq
  split_ifs at heq with hdot
  · exact absurd (congrArg List.length heq) (by omega)
  · exact hdot (hsub (heq ▸ by decide))

theorem wholeAddr_eq_zeros {tag : Bytes} (hmark : 64 ∈ tag ∨ 58 ∈ tag) :
    wholeAddr tag = bytes "0.0.0.0" ↔ 46 ∉ tag := by
  unfold wholeAddr
  split_ifs with hdot
  · refine ⟨fun heq => ?_, fun h => absurd hdot h⟩
    rw [heq] at hmark
    exact absurd hmark (by decide)
  · exact ⟨fun _ => hdot, fun _ => rfl⟩

namespace RoutingTag

/-- The object with these parts. -/
def built (name addr port : Bytes) : RoutingTag :=
  buildFullTag { sTagName := name, sTagIPAddr := addr, sTagPort := port }

theorem built_full (name addr port : Bytes) :
    (built name addr port).sFullTag = name ++ 64 :: (addr ++ 58 :: port) := by
  have hat : bytes "@" = [64] := by decide
  have hcolon : bytes ":" = [58] := by decide
  unfold built buildFullTag
  dsimp only
  rw [hat, hcolon, List.append_assoc, List.append_assoc, List.append_assoc, List.singleton_append,
    List.singleton_append]

@[simp] theorem built_addr (name addr port : Bytes) :
    (built name addr port).sTagIPAddr = addr := rfl

@[simp] theorem built_port (name addr port : Bytes) : (built name addr port).sTagPort = port := rfl

theorem getTag_of_built {x : RoutingTag} {name addr port : Bytes} (hx : x = built name addr port) :
    x.getTag = name ++ 64 :: (addr ++ 58 :: port) := hx ▸ built_full name addr port

/-! ### One reading -/

variable (x : RoutingTag) {tag n u v r a e : Bytes}

theorem setTag_cstr (tag : Bytes) : x.setTag (cstr tag) = x.setTag tag := by
  unfold setTag
  rw [cstr_eq_self (zero_notMem_cstr tag)]

/-- What `SetTag` does with any tag that has one of the two marks. -/
theorem setTag_eq (h0 : 0 ∉ tag) {at' colon : ℤ} (hat : findByte 64 tag = at')
    (hcolon : findByte 58 tag = colon) (hmark : ¬ (at' = -1 ∧ colon = -1)) :
    x.setTag tag = built (if 0 < at' then tag.take at'.toNat else bytes "unknown")
      (if 0 < int32 (colon-at'-1) then (tag.drop (at'+1).toNat).take (int32 (colon-at'-1)).toNat
        else wholeAddr tag)
      (if 0 < colon then tag.drop (colon+1).toNat else bytes "0000") := by
  unfold setTag
  rw [cstr_eq_self h0]
  dsimp only
  rw [hat, hcolon, if_neg hmark]
  rfl

/-- Without a mark the tag is a name, and the other two parts stay what they were. -/
theorem setTag_name (h0 : 0 ∉ tag) (hat : 64 ∉ tag) (hcolon : 58 ∉ tag) :
    x.setTag tag = { x with sTagName := tag, sFullTag := tag } := by
  unfold setTag
  rw [cstr_eq_self h0]
  dsimp only
  rw [findByte_none hat, findByte_none hcolon]
  exact if_pos ⟨rfl, rfl⟩

/-- What stands before the first `@`, or before the first `:`. -/
theorem before_mark (n r d : Bytes) (ch : Byte) :
    (if 0 < (n.length : ℤ) then (n ++ ch :: r).take (n.length : ℤ).toNat else d) =
      orDefault d n := by
  cases n with
  | nil => rfl
  | cons a n =>
    have hpos : (0 : ℤ) < (a :: n).length := Int.natCast_pos.mpr (Nat.succ_pos n.length)
    rw [if_pos hpos, orDefault_ne (List.cons_ne_nil a n), Int.toNat_natCast, List.take_left]

theorem after_mark (n r : Bytes) (ch : Byte) :
    (n ++ ch :: r).drop ((n.length : ℤ)+1).toNat = r := by
  have hpos : ((n.length : ℤ)+1).toNat = n.length+1 := by omega
  rw [hpos, ← List.drop_drop, List.drop_left]
  rfl

/-- What stands after the first `:`, unless the tag starts with it. -/
theorem port_of (u v : Bytes) :
    (if 0 < (u.length : ℤ) then (u ++ 58 :: v).drop ((u.length : ℤ)+1).toNat else bytes "0000") =
      if u = [] then bytes "0000" else v := by
  rw [after_mark]
  cases u with
  | nil => rfl
  | cons a u =>
    have hpos : (0 : ℤ) < (a :: u).length := Int.natCast_pos.mpr (Nat.succ_pos u.length)
    rw [if_pos hpos, if_neg (List.cons_ne_nil a u)]

/-- `address:port`. -/
theorem setTag_colon (h0 : 0 ∉ u ++ 58 :: v) (hat : 64 ∉ u ++ 58 :: v) (hu : 58 ∉ u) :
    x.setTag (u ++ 58 :: v) = built (bytes "unknown")
      (if 0 < int32 u.length then u.take (int32 u.length).toNat else wholeAddr (u ++ 58 :: v))
      (if u = [] then bytes "0000" else v) := by
  have hlen : (u.length : ℤ)-(-1)-1 = u.length := by omega
  have hle : (int32 u.length).toNat ≤ u.length := int32_toNat_le u.length
  rw [setTag_eq x h0 (findByte_none hat) (findByte_append hu v) (by omega), hlen, port_of]
  have hcut : ((u ++ 58 :: v).drop ((-1 : ℤ)+1).toNat).take (int32 u.length).toNat =
      u.take (int32 u.length).toNat := List.take_append_of_le_length hle
  rw [hcut]
  rfl

/-- `name@address`: without a `:` the length of the address is the number of the bytes up to the
`@`, turned round. -/
theorem setTag_at (h0 : 0 ∉ n ++ 64 :: r) (hn : 64 ∉ n) (hcolon : 58 ∉ n ++ 64 :: r) :
    x.setTag (n ++ 64 :: r) = built (orDefault (bytes "unknown") n)
      (if 0 < int32 (-2-n.length) then r.take (int32 (-2-n.length)).toNat
        else wholeAddr (n ++ 64 :: r))
      (bytes "0000") := by
  have hlen : (-1 : ℤ)-n.length-1 = -2-n.length := by omega
  rw [setTag_eq x h0 (findByte_append hn r) (findByte_none hcolon) (by omega), hlen, before_mark,
    after_mark]
  rfl

theorem findByte_both (hcn : 58 ∉ n) (hu : 58 ∉ u) (v : Bytes) :
    findByte 58 (n ++ 64 :: (u ++ 58 :: v)) = n.length+1+u.length := by
  have hmem : (58 : Byte) ∉ n ++ 64 :: u := by
    intro h
    rcases List.mem_append.mp h with h | h
    · exact hcn h
    · rcases List.mem_cons.mp h with h | h
      · exact absurd h (by decide)
      · exact hu h
  have hsplit : n ++ 64 :: (u ++ 58 :: v) = (n ++ 64 :: u) ++ 58 :: v := by
    rw [List.append_assoc, List.cons_append]
  rw [hsplit, findByte_append hmem, List.length_append, List.length_cons]
  omega

theorem findByte_swapped (han : 64 ∉ a) (he : 64 ∉ e) (r : Bytes) :
    findByte 64 (a ++ 58 :: (e ++ 64 :: r)) = a.length+1+e.length := by
  have hmem : (64 : Byte) ∉ a ++ 58 :: e := by
    intro h
    rcases List.mem_append.mp h with h | h
    · exact han h
    · rcases List.mem_cons.mp h with h | h
      · exact absurd h (by decide)
      · exact he h
  have hsplit : a ++ 58 :: (e ++ 64 :: r) = (a ++ 58 :: e) ++ 64 :: r := by
    rw [List.append_assoc, List.cons_append]
  rw [hsplit, findByte_append hmem, List.length_append, List.length_cons]
  omega

/-- `name@address:port`. -/
theorem setTag_both (h0 : 0 ∉ n ++ 64 :: (u ++ 58 :: v)) (hn : 64 ∉ n) (hcn : 58 ∉ n)
    (hu : 58 ∉ u) :
    x.setTag (n ++ 64 :: (u ++ 58 :: v)) = built (orDefault (bytes "unknown") n)
      (if 0 < int32 u.length then u.take (int32 u.length).toNat
        else wholeAddr (n ++ 64 :: (u ++ 58 :: v)))
      v := by
  have hcolon := findByte_both hcn hu v
  have hlen : (n.length : ℤ)+1+u.length-n.length-1 = u.length := by omega
  have hle : (int32 u.length).toNat ≤ u.length := int32_toNat_le u.length
  have hport : (n ++ 64 :: (u ++ 58 :: v)).drop ((n.length : ℤ)+1+u.length+1).toNat = v := by
    have hcount : (n.length : ℤ)+1+u.length = (n ++ 64 :: u).length := by
      rw [List.length_append, List.length_cons]
      omega
    have hsplit : n ++ 64 :: (u ++ 58 :: v) = (n ++ 64 :: u) ++ 58 :: v := by
      rw [List.append_assoc, List.cons_append]
    rw [hcount, hsplit, after_mark]
  rw [setTag_eq x h0 (findByte_append hn _) hcolon (by omega), hlen, before_mark, after_mark,
    List.take_append_of_le_length hle, hport, if_pos (by omega : (0 : ℤ) < n.length+1+u.length)]

/-- A `:` before the `@`: the length of the address is negative. -/
theorem setTag_swapped (h0 : 0 ∉ a ++ 58 :: (e ++ 64 :: r)) (ha : 58 ∉ a) (han : 64 ∉ a)
    (he : 64 ∉ e) :
    x.setTag (a ++ 58 :: (e ++ 64 :: r)) = built (a ++ 58 :: e)
      (if 0 < int32 (-2-e.length) then r.take (int32 (-2-e.length)).toNat
        else wholeAddr (a ++ 58 :: (e ++ 64 :: r)))
      (if a = [] then bytes "0000" else e ++ 64 :: r) := by
  have hlen : (a.length : ℤ)-(a.length+1+e.length)-1 = -2-e.length := by omega
  have hcount : (a.length : ℤ)+1+e.length = (a ++ 58 :: e).length := by
    rw [List.length_append, List.length_cons]
    omega
  rw [setTag_eq x h0 (findByte_swapped han he r) (findByte_append ha _) (by omega), hlen, port_of]
  have hsplit : a ++ 58 :: (e ++ 64 :: r) = (a ++ 58 :: e) ++ 64 :: r := by
    rw [List.append_assoc, List.cons_append]
  rw [hcount, hsplit, before_mark, after_mark, orDefault_ne (by simp)]

/-! ### A second reading -/

/-- The bytes before the `:` come out as they are when there are some and an `int` can count
them. -/
theorem cut_eq_iff (hlen : u.length < tag.length) (hdot : 46 ∈ u → 46 ∈ tag) :
    (if 0 < int32 u.length then u.take (int32 u.length).toNat else wholeAddr tag) = u ↔
      u ≠ [] ∧ (u.length : ℤ) ≤ intMax := by
  constructor
  · intro heq
    split_ifs at heq with hpos
    · have hle : (u.length : ℤ) ≤ int32 u.length :=
        (Int.le_toNat hpos.le).mp ((List.take_eq_self_iff u).mp heq)
      refine ⟨fun hnil => ?_, hle.trans (int32_le u.length)⟩
      rw [hnil] at hpos
      exact absurd hpos (by decide)
    · exact absurd heq (wholeAddr_ne hlen hdot)
  · rintro ⟨hne, hmax⟩
    have hpos := List.length_pos_iff.mpr hne
    rw [int32_eq (by omega) hmax, if_pos (by omega), Int.toNat_natCast, List.take_length]

/-- A full tag with a name, and an address an `int` can count, between its first marks. -/
def CleanAddress (tag : Bytes) : Prop :=
  0 < findByte 64 tag ∧ findByte 64 tag+1 < findByte 58 tag ∧
    findByte 58 tag-findByte 64 tag-1 ≤ intMax

theorem clean_iff (hn : 64 ∉ n) (hcn : 58 ∉ n) (hu : 58 ∉ u) :
    CleanAddress (n ++ 64 :: (u ++ 58 :: v)) ↔ n ≠ [] ∧ u ≠ [] ∧ (u.length : ℤ) ≤ intMax := by
  rw [CleanAddress, findByte_append hn, findByte_both hcn hu, ← List.length_pos_iff,
    ← List.length_pos_iff]
  omega

/-- A tag whose name holds no mark is read again as it is when its address is clean. -/
theorem reread_iff (h0 : 0 ∉ n ++ 64 :: (u ++ 58 :: v)) (hne : n ≠ []) (hn : 64 ∉ n) (hcn : 58 ∉ n)
    (hu : 58 ∉ u) :
    (x.setTag (n ++ 64 :: (u ++ 58 :: v))).sFullTag = n ++ 64 :: (u ++ 58 :: v) ↔
      CleanAddress (n ++ 64 :: (u ++ 58 :: v)) := by
  have hcut : u.length < (n ++ 64 :: (u ++ 58 :: v)).length := by
    simp only [List.length_append, List.length_cons]
    omega
  rw [setTag_both x h0 hn hcn hu, built_full, orDefault_ne hne, List.append_cancel_left_eq,
    List.cons_inj_right, List.append_cancel_right_eq, clean_iff hn hcn hu,
    cut_eq_iff hcut fun h => by simp [h]]
  exact ⟨fun h => ⟨hne, h⟩, And.right⟩

/-! The full tags of the three addresses `SetTag` can put in: a piece of the tag, the default, and
the whole tag. -/

theorem clean_take (hne : n ≠ []) (hn : 64 ∉ n) (hcn : 58 ∉ n) (hr : 58 ∉ r) {L : ℤ} (hL : 0 < L)
    (hmax : L ≤ intMax) : CleanAddress (n ++ 64 :: (r.take L.toNat ++ 58 :: v)) ↔ r ≠ [] := by
  have hlen : (r.take L.toNat).length ≤ L.toNat := List.length_take_le _ _
  have hpos : L.toNat ≠ 0 := by omega
  rw [clean_iff hn hcn fun h => hr (List.mem_of_mem_take h)]
  constructor
  · rintro ⟨-, htake, -⟩ rfl
    exact htake List.take_nil
  · intro hr'
    refine ⟨hne, fun h => ?_, by omega⟩
    exact (List.take_eq_nil_iff.mp h).elim hpos hr'

theorem clean_zeros (hne : n ≠ []) (hn : 64 ∉ n) (hcn : 58 ∉ n) :
    CleanAddress (n ++ 64 :: (bytes "0.0.0.0" ++ 58 :: v)) :=
  (clean_iff hn hcn (by decide)).mpr ⟨hne, by decide⟩

theorem clean_whole (hne : n ≠ []) (hn : 64 ∉ n) (hcn : 58 ∉ n) (hu : 58 ∉ u) :
    CleanAddress (n ++ 64 :: ((u ++ 58 :: r) ++ 58 :: v)) ↔
      u ≠ [] ∧ (u.length : ℤ) ≤ intMax := by
  rw [List.append_assoc, List.cons_append, clean_iff hn hcn hu]
  exact ⟨And.right, fun h => ⟨hne, h⟩⟩

/-- A name with a `:` in it: the second reading takes the port from inside the name again. -/
theorem reread_swapped (ha : 58 ∉ a) (han : 64 ∉ a) (he : 64 ∉ e) {A P : Bytes}
    (h0 : 0 ∉ a ++ 58 :: (e ++ 64 :: (A ++ 58 :: P))) (hP : a = [] → P = bytes "0000") :
    (x.setTag (a ++ 58 :: (e ++ 64 :: (A ++ 58 :: P)))).sFullTag =
      a ++ 58 :: (e ++ 64 :: (A ++ 58 :: P)) ↔
    a = [] ∧ 0 < int32 (-2-e.length) ∧
      (A ++ 58 :: P).take (int32 (-2-e.length)).toNat = A := by
  have hcancel (rest : Bytes) : (a ++ 58 :: e) ++ 64 :: rest =
      a ++ 58 :: (e ++ 64 :: (A ++ 58 :: P)) ↔ rest = A ++ 58 :: P := by
    rw [List.append_assoc, List.cons_append, List.append_cancel_left_eq, List.cons_inj_right,
      List.append_cancel_left_eq, List.cons_inj_right]
  rw [setTag_swapped x h0 ha han he, built_full, hcancel]
  by_cases hnil : a = []
  · rw [if_pos hnil, hP hnil, List.append_cancel_right_eq]
    subst hnil
    constructor
    · intro heq
      split_ifs at heq with hpos
      · exact ⟨rfl, hpos, heq⟩
      · exact absurd heq (wholeAddr_ne (by simp; omega) fun h => by simp [h])
    · rintro ⟨-, hpos, heq⟩
      rw [if_pos hpos]
      exact heq
  · rw [if_neg hnil]
    refine ⟨fun heq => ?_, fun h => absurd h.1 hnil⟩
    have hlen := congrArg List.length heq
    simp only [List.length_append, List.length_cons] at hlen
    omega

/-- The tags whose full form has a clean address. The length between the marks is an `int`, also
where one of them is missing. -/
def AddressStands (tag : Bytes) : Prop :=
  let at' := findByte 64 tag
  let colon := findByte 58 tag
  let iplen := int32 (colon-at'-1)
  ¬ (at' = -1 ∧ colon = -1) ∧
    if colon = -1 then
      if 0 < iplen then at'+1 < tag.length else 46 ∉ tag ∨ (tag.length : ℤ) ≤ intMax
    else at' ≤ colon ∧ (0 < iplen ∨ 46 ∉ tag ∨ at' ≠ -1 ∧ colon ≤ intMax)

theorem marks_cases (tag : Bytes) : (64 ∉ tag ∧ 58 ∉ tag) ∨
    (∃ u v, tag = u ++ 58 :: v ∧ 64 ∉ tag ∧ 58 ∉ u) ∨
    (∃ n r, tag = n ++ 64 :: r ∧ 64 ∉ n ∧ 58 ∉ tag) ∨
    (∃ n u v, tag = n ++ 64 :: (u ++ 58 :: v) ∧ 64 ∉ n ∧ 58 ∉ n ∧ 58 ∉ u) ∨
    ∃ a e r, tag = a ++ 58 :: (e ++ 64 :: r) ∧ 58 ∉ a ∧ 64 ∉ a ∧ 64 ∉ e := by
  rcases findByte_cases 64 tag with ⟨hat, -⟩ | ⟨n, r, rfl, hn, -⟩
  · rcases findByte_cases 58 tag with ⟨hcolon, -⟩ | ⟨u, v, rfl, hu, -⟩
    · exact Or.inl ⟨hat, hcolon⟩
    · exact Or.inr (Or.inl ⟨u, v, rfl, hat, hu⟩)
  · right
    right
    rcases findByte_cases 58 n with ⟨hcn, -⟩ | ⟨a, e, rfl, ha, -⟩
    · rcases findByte_cases 58 r with ⟨hcr, -⟩ | ⟨u, v, rfl, hu, -⟩
      · refine Or.inl ⟨n, r, rfl, hn, fun h => ?_⟩
        rcases List.mem_append.mp h with h | h
        · exact hcn h
        · rcases List.mem_cons.mp h with h | h
          · exact absurd h (by decide)
          · exact hcr h
      · exact Or.inr (Or.inl ⟨n, u, v, rfl, hn, hcn, hu⟩)
    · refine Or.inr (Or.inr ⟨a, e, r, by rw [List.append_assoc, List.cons_append], ha, ?_, ?_⟩)
      · exact fun h => hn (List.mem_append_left _ h)
      · exact fun h => hn (List.mem_append_right _ (List.mem_cons_of_mem _ h))

section Stands
variable {name port : Bytes} (hname : name ≠ []) (hn : 64 ∉ name) (hcn : 58 ∉ name)
include hname hn hcn

/-- The address with a `:` in the tag: a part of the tag is clean, and so is the default. -/
theorem clean_cut (hu : 58 ∉ u) (hq : 58 ∉ n) :
    CleanAddress (name ++ 64 :: ((if 0 < int32 u.length then u.take (int32 u.length).toNat
      else wholeAddr (n ++ 58 :: v)) ++ 58 :: port)) ↔
    0 < int32 u.length ∨ 46 ∉ n ++ 58 :: v ∨ n ≠ [] ∧ (n.length : ℤ) ≤ intMax := by
  split_ifs with hpos
  · rw [clean_take hname hn hcn hu hpos (int32_le _)]
    refine ⟨fun _ => Or.inl hpos, fun _ hnil => ?_⟩
    rw [hnil] at hpos
    exact absurd hpos (by decide)
  · unfold wholeAddr
    split_ifs with hdot
    · rw [clean_whole hname hn hcn hq]
      exact ⟨fun h => Or.inr (Or.inr h),
        fun h => (h.resolve_left hpos).resolve_left fun hdot' => hdot' hdot⟩
    · exact ⟨fun _ => Or.inr (Or.inl hdot), fun _ => clean_zeros hname hn hcn⟩

/-- The address without a `:` in the tag. -/
theorem clean_uncut (hr : 58 ∉ r) (hq : 58 ∉ tag) (htag : tag ≠ []) {L : ℤ} (hmax : L ≤ intMax) :
    CleanAddress (name ++ 64 :: ((if 0 < L then r.take L.toNat else wholeAddr tag) ++ 58 :: port)) ↔
    if 0 < L then r ≠ [] else 46 ∉ tag ∨ (tag.length : ℤ) ≤ intMax := by
  split_ifs with hpos
  · exact clean_take hname hn hcn hr hpos hmax
  · unfold wholeAddr
    split_ifs with hdot
    · rw [clean_iff hn hcn hq]
      exact ⟨fun h => Or.inr h.2.2, fun h => ⟨hname, htag, h.resolve_left fun h' => h' hdot⟩⟩
    · exact ⟨fun _ => Or.inl hdot, fun _ => clean_zeros hname hn hcn⟩

end Stands

theorem orDefault_unknown_notMem {part : Bytes} {ch : Byte} (hpart : ch ∉ part)
    (hd : ch ∉ bytes "unknown") : ch ∉ orDefault (bytes "unknown") part := by
  unfold orDefault
  split_ifs
  · exact hd
  · exact hpart

/-- A tag with a `:`, at most after the `@`. -/
theorem addressStands_colon {at' colon : ℤ} (hat : findByte 64 tag = at')
    (hcolon : findByte 58 tag = colon) (hpos : 0 ≤ colon) (hle : at' ≤ colon) :
    AddressStands tag ↔
      0 < int32 (colon-at'-1) ∨ 46 ∉ tag ∨ at' ≠ -1 ∧ colon ≤ intMax := by
  have hmark : ¬ (at' = -1 ∧ colon = -1) := by omega
  have hne : colon ≠ -1 := by omega
  unfold AddressStands
  dsimp only
  rw [hat, hcolon, if_neg hne]
  exact ⟨fun h => h.2.2, fun h => ⟨hmark, hle, h⟩⟩

/-- A tag without a `:`. -/
theorem addressStands_at {at' : ℤ} (hat : findByte 64 tag = at') (hcolon : 58 ∉ tag)
    (hpos : 0 ≤ at') :
    AddressStands tag ↔ if 0 < int32 (-2-at') then at'+1 < tag.length
      else 46 ∉ tag ∨ (tag.length : ℤ) ≤ intMax := by
  have hmark : ¬ (at' = -1 ∧ (-1 : ℤ) = -1) := by omega
  have hlen : -1-at'-1 = -2-at' := by omega
  unfold AddressStands
  dsimp only
  rw [hat, findByte_none hcolon, if_pos rfl, hlen]
  exact ⟨And.right, fun h => ⟨hmark, h⟩⟩

theorem clean_getTag_iff (h0 : 0 ∉ tag) :
    CleanAddress (x.setTag tag).getTag ↔ AddressStands tag := by
  rcases marks_cases tag with ⟨hat, hcolon⟩ | ⟨u, v, rfl, hat, hu⟩ | ⟨n, r, rfl, hn, hcolon⟩ |
    ⟨n, u, v, rfl, hn, hcn, hu⟩ | ⟨a, e, r, rfl, ha, han, he⟩
  · rw [setTag_name x h0 hat hcolon, CleanAddress, AddressStands]
    simp [getTag, findByte_none hat, findByte_none hcolon]
  · -- the bytes before the `:` are the address; when an `int` cannot count them it is the whole tag
    have hlen : (u.length : ℤ)-(-1)-1 = u.length := by omega
    rw [setTag_colon x h0 hat hu, getTag, built_full,
      clean_cut (by decide) (by decide) (by decide) hu hu,
      addressStands_colon (findByte_none hat) (findByte_append hu v) (by omega) (by omega), hlen]
    constructor
    · rintro (hpos | hdot | ⟨hne, hmax⟩)
      · exact Or.inl hpos
      · exact Or.inr (Or.inl hdot)
      · have hpos := List.length_pos_iff.mpr hne
        exact Or.inl (by rw [int32_eq (by omega) hmax]; omega)
    · rintro (hpos | hdot | ⟨hne, -⟩)
      · exact Or.inl hpos
      · exact Or.inr (Or.inl hdot)
      · exact absurd rfl hne
  · have hr : 58 ∉ r := fun h => hcolon (List.mem_append_right _ (List.mem_cons_of_mem _ h))
    have hcn : 58 ∉ n := fun h => hcolon (List.mem_append_left _ h)
    rw [setTag_at x h0 hn hcolon, getTag, built_full,
      clean_uncut (orDefault_unknown_ne n) (orDefault_unknown_notMem hn (by decide))
        (orDefault_unknown_notMem hcn (by decide)) hr hcolon (by simp) (int32_le _),
      addressStands_at (findByte_append hn r) hcolon (by omega)]
    have hlen : (n.length : ℤ)+1 < (n ++ 64 :: r).length ↔ r ≠ [] := by
      rw [List.length_append, List.length_cons, ← List.length_pos_iff]
      omega
    rw [hlen]
  · have hlen : (n.length : ℤ)+1+u.length-n.length-1 = u.length := by omega
    have hsplit : n ++ 64 :: (u ++ 58 :: v) = (n ++ 64 :: u) ++ 58 :: v := by
      rw [List.append_assoc, List.cons_append]
    have hcu : (58 : Byte) ∉ n ++ 64 :: u := by
      intro h
      rcases List.mem_append.mp h with h | h
      · exact hcn h
      · exact (List.mem_cons.mp h).elim (by decide) hu
    rw [addressStands_colon (findByte_append hn _) (findByte_both hcn hu v) (by omega) (by omega),
      setTag_both x h0 hn hcn hu, getTag, built_full, hlen, hsplit,
      clean_cut (orDefault_unknown_ne n) (orDefault_unknown_notMem hn (by decide))
        (orDefault_unknown_notMem hcn (by decide)) hu hcu]
    have hcount : ((n ++ 64 :: u).length : ℤ) = n.length+1+u.length := by
      rw [List.length_append, List.length_cons]
      omega
    have hne : n ++ 64 :: u ≠ [] ↔ (n.length : ℤ) ≠ -1 :=
      ⟨fun _ => by omega, fun _ => by simp⟩
    rw [hcount, hne]
  · -- the full tag has its marks in this order too
    have hat := findByte_swapped han he r
    have hcolon := findByte_append ha (e ++ 64 :: r)
    refine iff_of_false ?_ ?_
    · rw [setTag_swapped x h0 ha han he, getTag, built_full, List.append_assoc, List.cons_append,
        CleanAddress, findByte_append ha, findByte_swapped han he]
      omega
    · unfold AddressStands
      dsimp only
      rw [hat, hcolon, if_neg (by omega)]
      exact fun h => absurd h.2.1 (by omega)

/-! ### A tag that is set again -/

theorem zero_notMem_getTag (h0 : 0 ∉ tag) : 0 ∉ (x.setTag tag).getTag := by
  have hmem {s : Bytes} (hs : s ⊆ tag) : 0 ∉ s := fun h => h0 (hs h)
  by_cases hmark : findByte 64 tag = -1 ∧ findByte 58 tag = -1
  · have hfull : (x.setTag tag).getTag = tag := by
      unfold setTag getTag
      rw [cstr_eq_self h0]
      dsimp only
      rw [if_pos hmark]
    rw [hfull]
    exact h0
  · rw [setTag_eq x h0 rfl rfl hmark, getTag, built_full]
    intro h
    rcases List.mem_append.mp h with h | h
    · split_ifs at h
      · exact hmem (List.take_subset _ _) h
      · exact absurd h (by decide)
    · rcases List.mem_cons.mp h with h | h
      · exact absurd h (by decide)
      · rcases List.mem_append.mp h with h | h
        · unfold wholeAddr at h
          split_ifs at h
          · exact h0 (List.mem_of_mem_drop (List.mem_of_mem_take h))
          · exact h0 h
          · exact absurd h (by decide)
        · rcases List.mem_cons.mp h with h | h
          · exact absurd h (by decide)
          · split_ifs at h
            · exact hmem (List.drop_subset _ _) h
            · exact absurd h (by decide)

/-- A full tag is a tag without a mark, or is put together from a name and two parts. -/
theorem getTag_forms (h0 : 0 ∉ tag) : ((x.setTag tag).getTag = tag ∧ 64 ∉ tag ∧ 58 ∉ tag) ∨
    ∃ name addr port, (x.setTag tag).getTag = name ++ 64 :: (addr ++ 58 :: port) ∧
      name ≠ [] ∧ 64 ∉ name := by
  rcases marks_cases tag with ⟨hat, hcolon⟩ | ⟨u, v, rfl, hat, hu⟩ | ⟨n, r, rfl, hn, hcolon⟩ |
    ⟨n, u, v, rfl, hn, hcn, hu⟩ | ⟨a, e, r, rfl, ha, han, he⟩
  · exact Or.inl ⟨by rw [setTag_name x h0 hat hcolon]; rfl, hat, hcolon⟩
  · exact Or.inr ⟨_, _, _, getTag_of_built (setTag_colon x h0 hat hu), by decide, by decide⟩
  · exact Or.inr ⟨_, _, _, getTag_of_built (setTag_at x h0 hn hcolon), orDefault_unknown_ne n,
      orDefault_unknown_notMem hn (by decide)⟩
  · exact Or.inr ⟨_, _, _, getTag_of_built (setTag_both x h0 hn hcn hu), orDefault_unknown_ne n,
      orDefault_unknown_notMem hn (by decide)⟩
  · refine Or.inr ⟨_, _, _, getTag_of_built (setTag_swapped x h0 ha han he), by simp, fun h => ?_⟩
    rcases List.mem_append.mp h with h | h
    · exact han h
    · exact (List.mem_cons.mp h).elim (by decide) he

theorem reread_clean {name addr port : Bytes} (hname : name ≠ []) (hn : 64 ∉ name)
    (hcn : 58 ∉ name) (h0 : 0 ∉ name ++ 64 :: (addr ++ 58 :: port)) :
    (x.setTag (name ++ 64 :: (addr ++ 58 :: port))).sFullTag = name ++ 64 :: (addr ++ 58 :: port) ↔
      CleanAddress (name ++ 64 :: (addr ++ 58 :: port)) := by
  rcases findByte_cases 58 addr with ⟨haddr, -⟩ | ⟨u, v, rfl, hu, -⟩
  · exact reread_iff x h0 hname hn hcn haddr
  · rw [List.append_assoc, List.cons_append] at h0 ⊢
    exact reread_iff x h0 hname hn hcn hu

theorem take_append_eq_iff (r P : Bytes) (b : Byte) (k : ℕ) :
    (r.take k ++ b :: P).take k = r.take k ↔ k ≤ r.length := by
  constructor
  · intro heq
    by_contra hk
    have htake : r.take k = r := List.take_of_length_le (by omega)
    rw [htake] at heq
    have hlen := congrArg List.length heq
    simp only [List.length_take, List.length_append, List.length_cons] at hlen
    omega
  · intro hk
    have hlen : k ≤ (r.take k).length := by rw [List.length_take]; omega
    rw [List.take_append_of_le_length hlen, List.take_take, min_self]

/-- The tags that `SetTag` leaves alone after one reading: those without a mark, those with a clean
address, and those that start with a `:` and have so long a name that its length turns round. -/
def KeepsTag (tag : Bytes) : Prop :=
  let at' := findByte 64 tag
  let colon := findByte 58 tag
  let iplen := int32 (colon-at'-1)
  (at' = -1 ∧ colon = -1) ∨ AddressStands tag ∨
    (colon = 0 ∧ 0 < at' ∧ 0 < iplen ∧ at'+1+iplen ≤ tag.length)

/-- A tag with a mark and no `:` before the `@`. -/
theorem keepsTag_of_order {at' colon : ℤ} (hat : findByte 64 tag = at')
    (hcolon : findByte 58 tag = colon) (hmark : ¬ (at' = -1 ∧ colon = -1))
    (horder : ¬ (colon = 0 ∧ 0 < at')) : KeepsTag tag ↔ AddressStands tag := by
  unfold KeepsTag
  dsimp only
  rw [hat, hcolon]
  constructor
  · rintro (h | h | ⟨hzero, hpos, -⟩)
    · exact absurd h hmark
    · exact h
    · exact absurd ⟨hzero, hpos⟩ horder
  · exact fun h => Or.inr (Or.inl h)

theorem stays_iff (h0 : 0 ∉ tag) :
    ((x.setTag tag).setTag (x.setTag tag).getTag).getTag = (x.setTag tag).getTag ↔
      KeepsTag tag := by
  have hclean := clean_getTag_iff x h0
  have hzero := zero_notMem_getTag x h0
  generalize hy : x.setTag tag = y at hclean hzero ⊢
  rcases marks_cases tag with ⟨hat, hcolon⟩ | ⟨u, v, rfl, hat, hu⟩ | ⟨n, r, rfl, hn, hcolon⟩ |
    ⟨n, u, v, rfl, hn, hcn, hu⟩ | ⟨a, e, r, rfl, ha, han, he⟩
  · have hfull : y.getTag = tag := by rw [← hy, setTag_name x h0 hat hcolon]; rfl
    rw [hfull, setTag_name y h0 hat hcolon]
    exact iff_of_true rfl (Or.inl ⟨findByte_none hat, findByte_none hcolon⟩)
  · rw [keepsTag_of_order (findByte_none hat) (findByte_append hu v) (by omega) (by omega),
      ← hclean]
    have hfull := getTag_of_built (hy.symm.trans (setTag_colon x h0 hat hu))
    rw [hfull] at hzero ⊢
    exact reread_clean y (by decide) (by decide) (by decide) hzero
  · rw [keepsTag_of_order (findByte_append hn r) (findByte_none hcolon) (by omega) (by omega),
      ← hclean]
    have hfull := getTag_of_built (hy.symm.trans (setTag_at x h0 hn hcolon))
    have hcn : 58 ∉ n := fun h => hcolon (List.mem_append_left _ h)
    rw [hfull] at hzero ⊢
    exact reread_clean y (orDefault_unknown_ne n) (orDefault_unknown_notMem hn (by decide))
      (orDefault_unknown_notMem hcn (by decide)) hzero
  · rw [keepsTag_of_order (findByte_append hn _) (findByte_both hcn hu v) (by omega) (by omega),
      ← hclean]
    have hfull := getTag_of_built (hy.symm.trans (setTag_both x h0 hn hcn hu))
    rw [hfull] at hzero ⊢
    exact reread_clean y (orDefault_unknown_ne n) (orDefault_unknown_notMem hn (by decide))
      (orDefault_unknown_notMem hcn (by decide)) hzero
  · have hfull := getTag_of_built (hy.symm.trans (setTag_swapped x h0 ha han he))
    rw [List.append_assoc, List.cons_append] at hfull
    rw [hfull] at hzero ⊢
    have hP (hnil : a = []) : (if a = [] then bytes "0000" else e ++ 64 :: r) = bytes "0000" :=
      if_pos hnil
    have hstands : ¬ AddressStands (a ++ 58 :: (e ++ 64 :: r)) := by
      rw [← hclean, hfull, CleanAddress, findByte_append ha, findByte_swapped han he]
      omega
    have hlen : (a.length : ℤ)-(a.length+1+e.length)-1 = -2-e.length := by omega
    refine (reread_swapped y ha han he hzero hP).trans ?_
    unfold KeepsTag
    dsimp only
    rw [findByte_append ha, findByte_swapped han he, hlen]
    generalize hL : int32 (-2-e.length) = L
    constructor
    · rintro ⟨rfl, hpos, htake⟩
      rw [if_pos hpos] at htake
      have hle := (take_append_eq_iff r _ 58 L.toNat).mp htake
      refine Or.inr (Or.inr ⟨rfl, by omega, hpos, ?_⟩)
      simp only [List.length_append, List.length_cons, List.length_nil]
      omega
    · rintro (hnone | h | ⟨hzero', -, hpos, hle⟩)
      · omega
      · exact absurd h hstands
      · simp only [List.length_append, List.length_cons] at hle
        refine ⟨List.eq_nil_of_length_eq_zero (by omega), hpos, ?_⟩
        rw [if_pos hpos]
        exact (take_append_eq_iff r _ 58 L.toNat).mpr (by omega)

end RoutingTag
end MsgCourier
