import MsgCourier.Limits
import MsgCourier.MarkupSafety
import MsgCourier.ParseMarkup

/-! The buffers of `cParseMarkup::Parse` and the texts they stand for: a call of a buffer does what
is done to its text, as long as the sizes leave room. -/
namespace MsgCourier
open ListSearch CText
open Markup (Next)

namespace RegionCheck

variable {b b' : Buffer} {c r w pat : Bytes}

@[simp] theorem markup_ok_bind {α β : Type} (a : α) (f : α → Markup β) :
    (Except.ok a >>= f) = f a := rfl

theorem markup_bind_eq_ok {α β : Type} {x : Markup α} {f : α → Markup β} {r : β} :
    (x >>= f) = .ok r ↔ ∃ a, x = .ok a ∧ f a = .ok r := by
  cases x with
  | error e => exact ⟨fun h => (nomatch h), fun ⟨_, h, _⟩ => (nomatch h)⟩
  | ok a => exact ⟨fun h => ⟨a, rfl, h⟩, fun ⟨_, ha, h⟩ => Except.ok.inj ha ▸ h⟩

theorem raise_eq_ok {α : Type} {x : Cxx α} {a : α} : raise x = .ok a ↔ x = .ok a := by
  cases x with
  | error e => exact ⟨fun h => (nomatch h), fun h => (nomatch h)⟩
  | ok a' => exact Except.ok.injEq a' a ▸ Except.ok.injEq a' a ▸ Iff.rfl

theorem exists_raise_iff {α : Type} {x : Cxx α} :
    (∃ a, raise x = .ok a) ↔ ∃ a, x = .ok a := exists_congr fun _ => raise_eq_ok

/-! ### Regions -/

theorem checkRegion_ok (h : b.Sized c) {i n : ℤ} (hin : Markup.InContent c i n) :
    checkRegion b i n = .ok () := by
  unfold checkRegion
  rw [h.keeps.tail_eq]
  exact if_pos hin

theorem checkRegion_fault (h : b.Sized c) {i n : ℤ} (hout : ¬ Markup.InContent c i n) :
    checkRegion b i n = .error (.region i n) := by
  unfold checkRegion
  rw [h.keeps.tail_eq]
  exact if_neg hout

theorem remove_ok (h : b.Sized c) {i n : ℕ} (h0 : 0 < n) (hin : i+n ≤ c.length) :
    ∃ b', remove b i n = .ok b' ∧ b'.Sized (c.take i ++ c.drop (i+n)) ∧
      b'.bufferSize = b.bufferSize := by
  obtain ⟨r, hok, hsized, hsize⟩ := h.remove h0 hin
  refine ⟨r.2, ?_, hsized, hsize⟩
  unfold remove
  rw [checkRegion_ok h ⟨Int.natCast_nonneg _, Int.natCast_nonneg _, by omega⟩, hok]
  rfl

/-- `Remove` needs no room. -/
theorem remove_refines (h : b.Sized c) (i : ℕ) {n : ℤ} (hn : n ≠ 0) :
    Refines True (fun b' s => b'.Sized s) (remove b i n) (Markup.remove c i n) := by
  by_cases hin : Markup.InContent c i n
  · obtain ⟨m, rfl⟩ := Int.eq_ofNat_of_zero_le hin.2.1
    have hle : i+m ≤ c.length := by
      have hend := hin.2.2
      omega
    obtain ⟨b', hok, hsized, -⟩ := remove_ok h (show 0 < m by omega) hle
    exact .of_ok hok (Markup.remove_ok hle) hsized
  · refine .of_error (fun b' hb' => ?_) fun s hs => ?_
    · unfold remove at hb'
      rw [checkRegion_fault h hin] at hb'
      cases hb'
    · unfold Markup.remove at hs
      rw [if_neg hin] at hs
      cases hs

/-! ### Replacing -/

/-- Room for one replacement. -/
def RoomFor (b : Buffer) (pPattern pWith : Bytes) : Prop :=
  b.tail-pPattern.length+pWith.length+1 ≤ b.bufferSize ∨
    b.tail-pPattern.length+pWith.length+10 ≤ intMax

/-- A replacement that is not longer needs no room. -/
theorem roomFor_short (h : b.Sized c) (hc : c ≠ []) (hshort : w.length ≤ pat.length) :
    RoomFor b pat w := by
  have hsize := h.keeps.lt_size hc
  have htail := h.keeps.tail_eq
  left
  omega

theorem search_ok (h : b.Sized c) (hpat : pat ≠ []) {off : ℕ} (h0 : 0 ∉ c.drop off)
    (hoff : off ≤ c.length) :
    ∃ b', search b pat off = .ok ((firstOcc pat (c.drop off)).elim (-1) fun k =>
        ((off+k : ℕ) : ℤ), b') ∧ b'.Sized c ∧ b'.bufferSize = b.bufferSize ∧
      (c ≠ [] ∨ b.Closed c → b'.Closed c) := by
  obtain ⟨b', hok, hsized, hsize, hends⟩ := h.find pat h0 hoff
  refine ⟨b', ?_, hsized, hsize, fun hclosed => ?_⟩
  · unfold search
    rw [hok]
    split_ifs with hc
    · have hnone : firstOcc pat (c.drop off) = none := by
        rw [hc, List.drop_nil, firstOcc_eq_none_iff hpat]
        intro k
        rw [List.drop_nil, List.prefix_nil]
        exact hpat
      rw [hnone]
      rfl
    · rfl
  · rcases hends with hend | ⟨hnil, rfl⟩
    · exact hend
    · exact hclosed.resolve_left fun hne => hne hnil

/-- The replacement of an occurrence. -/
def replacedAt (c pat w : Bytes) (k : ℕ) : Bytes := c.take k ++ w ++ c.drop (k+pat.length)

theorem insert_removed (w : Bytes) {k : ℕ} (hk : k+pat.length ≤ c.length) :
    Markup.insert (c.take k ++ c.drop (k+pat.length)) k w = replacedAt c pat w k := by
  have hlen : (c.take k).length = k := List.length_take_of_le (by omega)
  unfold Markup.insert
  rw [List.take_left' hlen, List.drop_left' hlen]
  rfl

theorem replaceAt [Malloc] (h : b.Sized c) (hpat : pat ≠ []) (hw : (w.length : ℤ) ≤ intMax) {k : ℕ}
    (hk : k+pat.length ≤ c.length) : ∃ b₁, remove b k (int32 pat.length) = .ok b₁ ∧
      ((∃ b₂, raise (b₁.insert k w (int32 w.length)) = .ok b₂) ↔ RoomFor b pat w) ∧
      ∀ b₂, raise (b₁.insert k w (int32 w.length)) = .ok b₂ →
        b₂.Sized (replacedAt c pat w k) ∧ b₂.Closed (replacedAt c pat w k) := by
  have hlong := h.keeps.length_lt
  have hpatlen : int32 (pat.length : ℤ) = pat.length := int32_eq (by omega) (by omega)
  have hwlen : int32 (w.length : ℤ) = w.length := int32_eq (by omega) hw
  obtain ⟨b₁, hremove, hsized, hsize⟩ := remove_ok h (List.length_pos_iff.mpr hpat) hk
  have htake : (c.take k).length = k := List.length_take_of_le (by omega)
  have hshort : (c.take k ++ c.drop (k+pat.length)).length+pat.length = c.length := by
    rw [List.length_append, htake, List.length_drop]
    omega
  have hplace : k ≤ (c.take k ++ c.drop (k+pat.length)).length := by
    rw [List.length_append, htake]
    exact Nat.le_add_right _ _
  have hroom : b₁.FitsInsert w.length ↔ RoomFor b pat w := by
    have htail : b₁.tail = b.tail-pat.length := by
      rw [hsized.keeps.tail_eq, h.keeps.tail_eq]
      omega
    unfold Buffer.FitsInsert RoomFor
    rw [htail, hsize]
  have hinserted (hf : b₁.FitsInsert w.length) : ∃ b₂, b₁.insert k w w.length = .ok b₂ ∧
      b₂.Sized (replacedAt c pat w k) ∧ b₂.Closed (replacedAt c pat w k) := by
    obtain ⟨b₂, hok, hsized₂, hclosed⟩ := hsized.insert hplace le_rfl hf
    rw [List.take_length, List.take_left' htake, List.drop_left' htake] at hsized₂ hclosed
    exact ⟨b₂, hok, hsized₂, hclosed⟩
  refine ⟨b₁, ?_, ?_, ?_⟩
  · rw [hpatlen]
    exact hremove
  · rw [exists_raise_iff, hwlen, ← hroom]
    constructor
    · intro hok
      obtain ⟨b₂, hb₂⟩ := hok
      exact hsized.fits_of_insert hplace hw hb₂
    · intro hf
      obtain ⟨b₂, hb₂, -⟩ := hinserted hf
      exact ⟨b₂, hb₂⟩
  · intro b₂ hb₂
    rw [raise_eq_ok, hwlen] at hb₂
    obtain ⟨b₂', hok, hsized₂, hclosed⟩ := hinserted (hsized.fits_of_insert hplace hw hb₂)
    obtain rfl := Except.ok.inj (hb₂.symm.trans hok)
    exact ⟨hsized₂, hclosed⟩

/-- `Replace` needs room if the pattern is found. -/
theorem replace_refines [Malloc] (h : b.Sized c) (h0 : 0 ∉ c) (hclosed : b.Closed c)
    (hpat : pat ≠ []) (hw : (w.length : ℤ) ≤ intMax) :
    Refines (pat <:+: c → RoomFor b pat w) (fun b' r => b'.Sized r ∧ b'.Closed r)
      (replace b pat w) (Markup.replace pat w c) := by
  obtain ⟨b₁, hfind, hsized, hsize, hclosed₁⟩ := @search_ok _ _ _ h hpat 0 h0 (Nat.zero_le _)
  have htail : b₁.tail = b.tail := by rw [hsized.keeps.tail_eq, h.keeps.tail_eq]
  have hroom : RoomFor b₁ pat w ↔ RoomFor b pat w := by
    unfold RoomFor
    rw [htail, hsize]
  have hat : Markup.find c pat 0 = firstOcc pat c := by
    unfold Markup.find
    rw [List.drop_zero, strstr_of_zero_notMem h0]
    cases firstOcc pat c with
    | none => rfl
    | some k => exact congrArg some (Nat.zero_add k)
  unfold search at hfind
  rw [List.drop_zero] at hfind
  unfold replace Markup.replace
  rw [Nat.cast_zero] at hfind
  rw [hfind, hat]
  cases hk : firstOcc pat c with
  | none =>
    have hnot : ¬ pat <:+: c := by
      rw [← occursIn_iff hpat]
      unfold occursIn
      rw [hk]
      exact Bool.false_ne_true
    rw [markup_ok_bind]
    dsimp only [Option.elim_none]
    rw [if_pos rfl]
    refine .congr (.of_ok rfl rfl ⟨hsized, hclosed₁ (.inr hclosed)⟩) fun _ _ => ?_
    exact ⟨fun _ hin => absurd hin hnot, fun _ => trivial⟩
  | some k =>
    have hin : pat <:+: c := by
      rw [← occursIn_iff hpat]
      unfold occursIn
      rw [hk]
      rfl
    have hend := firstOcc_le pat hk
    obtain ⟨b₂, hremove, hiff, hresult⟩ := replaceAt hsized hpat hw hend
    have hplace : ((0+k : ℕ) : ℤ) = k := by rw [Nat.zero_add]
    have hfound : ¬ (k : ℤ) = -1 := by omega
    rw [markup_ok_bind]
    dsimp only [Option.elim_some]
    rw [hplace, if_neg hfound, hremove, Markup.remove_ok hend, markup_ok_bind, markup_ok_bind,
      insert_removed w hend]
    refine .of_iff rfl ?_ hresult
    rw [hiff, hroom]
    exact ⟨fun hr _ => hr, fun hr => hr hin⟩

/-! ### The loop of `ReplaceAll` -/

/-- The loop of `ReplaceAll` on a text `c`: `u` is edited and `s` is the rest, with the place of its
first occurrence. -/
structure ReplaceState (pat w c : Bytes) (ends : Prop) (u s : Bytes) (x : ℤ × Buffer) : Prop where
  sized : x.2.Sized (u ++ s)
  free : 0 ∉ s
  place : x.1 = (firstOcc pat s).elim (-1) fun k => ((u.length+k : ℕ) : ℤ)
  result : ∀ r, Replaced pat w s r → Replaced pat w c (u ++ r)
  closed : ends → x.2.Closed (u ++ s)

/-- A round has room for its replacement. -/
def RoundRoom (pPattern pWith : Bytes) (x : ℤ × Buffer) : Prop :=
  x.1 ≠ -1 → RoomFor x.2 pPattern pWith

/-- Every round that `ReplaceAll` comes to has room. -/
def ReplaceRoom [Malloc] (b : Buffer) (pPattern pWith : Bytes) : Prop :=
  ∀ x x', search b pPattern 0 = .ok x →
    Relation.ReflTransGen (Next (replaceRound pPattern pWith)) x x' → RoundRoom pPattern pWith x'

theorem remove_unchecked {i n : ℤ} (h : remove b i n = .ok b') :
    ∃ code, b.remove i n = .ok (code, b') := by
  obtain ⟨_, -, h⟩ := markup_bind_eq_ok.mp h
  obtain ⟨r, hr, h⟩ := markup_bind_eq_ok.mp h
  obtain rfl := Except.ok.inj h
  exact ⟨r.1, raise_eq_ok.mp hr⟩

theorem replaceAllLoop_unchecked [Malloc] {n : ℕ} {idx : ℤ} {x y : ℤ × Buffer}
    (hx : search b pat idx = .ok x) (hy : Markup.rounds (replaceRound pat w) n x = .ok y) :
    Buffer.replaceAllLoop pat w (int32 pat.length) (int32 w.length) n b idx = .ok (some y.2) := by
  induction n generalizing b idx x with
  | zero => cases hy
  | succ n ih =>
    unfold Buffer.replaceAllLoop
    rw [raise_eq_ok.mp hx, ok_bind]
    dsimp only
    by_cases hleft : x.1 = -1
    · have hround : replaceRound pat w x = .ok none := if_pos hleft
      rw [Markup.rounds_succ_of_left hround] at hy
      obtain rfl := Except.ok.inj hy
      rw [if_pos hleft]
      rfl
    · obtain ⟨o, ho, hy⟩ := markup_bind_eq_ok.mp hy
      unfold replaceRound at ho
      rw [if_neg hleft] at ho
      obtain ⟨b₁, hremove, ho⟩ := markup_bind_eq_ok.mp ho
      obtain ⟨b₂, hinsert, ho⟩ := markup_bind_eq_ok.mp ho
      obtain ⟨x', hx', ho⟩ := markup_bind_eq_ok.mp ho
      obtain rfl := Except.ok.inj ho
      obtain ⟨code, hremove⟩ := remove_unchecked hremove
      rw [if_neg hleft, hremove, ok_bind]
      dsimp only
      rw [raise_eq_ok.mp hinsert, ok_bind]
      exact ih hx' hy

/-- A call whose regions are all inside the content is a call of `ReplaceAll`. -/
theorem replaceAll_unchecked [Malloc] (h : replaceAll b pat w = .ok b') :
    ∃ n, b.replaceAll n pat w = .ok (some b') := by
  obtain ⟨x, hx, h⟩ := markup_bind_eq_ok.mp h
  obtain ⟨y, hy, h⟩ := markup_bind_eq_ok.mp h
  obtain rfl := Except.ok.inj h
  exact ⟨_, replaceAllLoop_unchecked hx hy⟩

/-- What is left to be searched. -/
def replaceMeasure (x : ℤ × Buffer) : ℕ := if x.1 = -1 then 0 else (x.2.tail-x.1).toNat

section
variable {u s : Bytes} {ends : Prop} {x x' : ℤ × Buffer}

theorem ReplaceState.of_search (hsized : b.Sized (u ++ s)) (h0 : 0 ∉ s) (hpat : pat ≠ [])
    (hresult : ∀ r, Replaced pat w s r → Replaced pat w c (u ++ r))
    (hends : ends → u ++ s ≠ [] ∨ b.Closed (u ++ s)) :
    ∃ x, search b pat u.length = .ok x ∧ ReplaceState pat w c ends u s x := by
  have hrest : (u ++ s).drop u.length = s := List.drop_left
  obtain ⟨b', hok, hsized', -, hclosed⟩ := search_ok hsized hpat (hrest.symm ▸ h0)
    (show u.length ≤ (u ++ s).length from (List.prefix_append u s).length_le)
  rw [hrest] at hok
  exact ⟨_, hok, hsized', h0, rfl, hresult, fun hend => hclosed (hends hend)⟩

theorem ReplaceState.left (h : ReplaceState pat w c ends u s x) (hleft : firstOcc pat s = none) :
    x.1 = -1 := by
  rw [h.place, hleft]
  rfl

theorem ReplaceState.place_eq (h : ReplaceState pat w c ends u s x) {k : ℕ}
    (hk : firstOcc pat s = some k) : x.1 = ((u.length+k : ℕ) : ℤ) := by
  rw [h.place, hk]
  rfl

theorem replacedAt_append (u s w : Bytes) (k : ℕ) :
    replacedAt (u ++ s) pat w (u.length+k) = u ++ s.take k ++ w ++ s.drop (k+pat.length) := by
  unfold replacedAt
  rw [List.take_length_add_append, Nat.add_assoc, List.drop_length_add_append]

/-- A round with room goes on behind the replacement. -/
theorem ReplaceState.round [Malloc] (h : ReplaceState pat w c ends u s x) (hpat : pat ≠ [])
    (hw : (w.length : ℤ) ≤ intMax) {k : ℕ} (hk : firstOcc pat s = some k) :
    ((∃ o, replaceRound pat w x = .ok o) ↔ RoomFor x.2 pat w) ∧
      ∀ o, replaceRound pat w x = .ok o → ∃ x', o = some x' ∧
        ReplaceState pat w c ends (u ++ s.take k ++ w) (s.drop (k+pat.length)) x' := by
  have hle := firstOcc_le pat hk
  have hplace := h.place_eq hk
  have hin : u.length+k+pat.length ≤ (u ++ s).length := by
    rw [List.length_append]
    omega
  obtain ⟨b₁, hremove, hiff, hresult⟩ := replaceAt h.sized hpat hw hin
  rw [replacedAt_append] at hresult
  have hwlen : int32 (w.length : ℤ) = w.length := int32_eq (by omega) hw
  have hnext (b₂ : Buffer) (hb₂ : raise (b₁.insert (u.length+k : ℕ) w (int32 w.length)) = .ok b₂) :
      ∃ x', search b₂ pat (int32 (((u.length+k : ℕ) : ℤ)+int32 w.length)) = .ok x' ∧
        ReplaceState pat w c ends (u ++ s.take k ++ w) (s.drop (k+pat.length)) x' := by
    obtain ⟨hsized, hclosed⟩ := hresult b₂ hb₂
    have hlong := hsized.keeps.length_lt
    have hlen : (u ++ s.take k ++ w).length = u.length+k+w.length := by
      rw [List.length_append, List.length_append, List.length_take_of_le (by omega)]
    have hoff : int32 (((u.length+k : ℕ) : ℤ)+int32 w.length) = (u ++ s.take k ++ w).length := by
      rw [hwlen, hlen, Nat.cast_add (u.length+k)]
      rw [List.length_append, hlen] at hlong
      exact int32_eq (by omega) (by omega)
    rw [hoff]
    refine ReplaceState.of_search hsized (fun hin => h.free (List.mem_of_mem_drop hin)) hpat
      (fun r hr => ?_) fun _ => .inr hclosed
    have hwhole := h.result _ (.some hk hr)
    simpa only [List.append_assoc] using hwhole
  have hfound : ¬ ((u.length+k : ℕ) : ℤ) = -1 := by omega
  unfold replaceRound
  rw [hplace, if_neg hfound, hremove, markup_ok_bind]
  constructor
  · rw [← hiff]
    constructor
    · intro hok
      obtain ⟨o, ho⟩ := hok
      obtain ⟨b₂, hb₂, -⟩ := markup_bind_eq_ok.mp ho
      exact ⟨b₂, hb₂⟩
    · intro hok
      obtain ⟨b₂, hb₂⟩ := hok
      obtain ⟨x', hx', -⟩ := hnext b₂ hb₂
      rw [hb₂, markup_ok_bind, hx', markup_ok_bind]
      exact ⟨_, rfl⟩
  · intro o ho
    obtain ⟨b₂, hb₂, ho⟩ := markup_bind_eq_ok.mp ho
    obtain ⟨x', hx', hstate⟩ := hnext b₂ hb₂
    rw [hx', markup_ok_bind] at ho
    exact ⟨x', (Except.ok.inj ho).symm, hstate⟩

/-- A state of the loop, whatever part is edited. -/
def InLoop (pat w c : Bytes) (ends : Prop) (x : ℤ × Buffer) : Prop :=
  ∃ u s, ReplaceState pat w c ends u s x

/-- Each round that returns has less left to search. -/
theorem InLoop.next [Malloc] (hpat : pat ≠ []) (hw : (w.length : ℤ) ≤ intMax)
    (h : InLoop pat w c ends x) (hnext : Next (replaceRound pat w) x x') :
    InLoop pat w c ends x' ∧ replaceMeasure x' < replaceMeasure x := by
  obtain ⟨u, s, hstate⟩ := h
  have hround : replaceRound pat w x = .ok (some x') := hnext
  cases hk : firstOcc pat s with
  | none =>
    unfold replaceRound at hround
    rw [if_pos (hstate.left hk)] at hround
    cases hround
  | some k =>
    obtain ⟨x₁, heq, hstate'⟩ := (hstate.round hpat hw hk).2 _ hround
    obtain rfl := Option.some.inj heq
    refine ⟨⟨_, _, hstate'⟩, ?_⟩
    have hpos := List.length_pos_iff.mpr hpat
    have hle := firstOcc_le pat hk
    have htail := hstate.sized.keeps.tail_eq
    have htail' := hstate'.sized.keeps.tail_eq
    have hfound : ¬ ((u.length+k : ℕ) : ℤ) = -1 := by omega
    rw [List.length_append] at htail htail'
    unfold replaceMeasure
    rw [hstate.place_eq hk, if_neg hfound, htail]
    split_ifs with hleft
    · omega
    · cases hk' : firstOcc pat (s.drop (k+pat.length)) with
      | none => exact absurd (hstate'.left hk') hleft
      | some k' =>
        rw [hstate'.place_eq hk', htail', List.length_drop]
        omega

theorem InLoop.round_iff [Malloc] (hpat : pat ≠ []) (hw : (w.length : ℤ) ≤ intMax)
    (h : InLoop pat w c ends x) :
    (∃ o, replaceRound pat w x = .ok o) ↔ RoundRoom pat w x := by
  obtain ⟨u, s, hstate⟩ := h
  cases hk : firstOcc pat s with
  | none =>
    have hleft := hstate.left hk
    unfold replaceRound
    rw [if_pos hleft]
    exact ⟨fun _ hne => absurd hleft hne, fun _ => ⟨none, rfl⟩⟩
  | some k =>
    have hne : x.1 ≠ -1 := by
      rw [hstate.place_eq hk]
      omega
    rw [(hstate.round hpat hw hk).1]
    exact ⟨fun hroom _ => hroom, fun hroom => hroom hne⟩

theorem InLoop.of_left [Malloc] (h : InLoop pat w c ends x)
    (hleft : replaceRound pat w x = .ok none) :
    ∃ r, Replaced pat w c r ∧ x.2.Sized r ∧ (ends → x.2.Closed r) := by
  obtain ⟨u, s, hstate⟩ := h
  cases hk : firstOcc pat s with
  | none => exact ⟨u ++ s, hstate.result s (.none hk), hstate.sized, hstate.closed⟩
  | some k =>
    have hfound : ¬ x.1 = -1 := by
      rw [hstate.place_eq hk]
      omega
    unfold replaceRound at hleft
    rw [if_neg hfound] at hleft
    obtain ⟨b₁, -, hleft⟩ := markup_bind_eq_ok.mp hleft
    obtain ⟨b₂, -, hleft⟩ := markup_bind_eq_ok.mp hleft
    obtain ⟨x', -, hleft⟩ := markup_bind_eq_ok.mp hleft
    cases hleft

end

/-- `ReplaceAll` needs room in each of its rounds. -/
theorem replaceAll_refines [Malloc] (h : b.Sized c) (h0 : 0 ∉ c) (hpat : pat ≠ [])
    (hw : (w.length : ℤ) ≤ intMax) :
    Refines (ReplaceRoom b pat w)
      (fun b' r => b'.Sized r ∧ (c ≠ [] ∨ b.Closed c → b'.Closed r)) (replaceAll b pat w)
      (Markup.replaceAll pat w c) := by
  obtain ⟨r, hr, hreplaced⟩ := Markup.replaceAll_ok hpat w h0
  obtain ⟨x, hsearch, hstate⟩ := @ReplaceState.of_search b c w pat [] c
    (c ≠ [] ∨ b.Closed c) h h0 hpat (fun _ hr => hr) fun hends => hends
  have hloop : InLoop pat w c (c ≠ [] ∨ b.Closed c) x := ⟨[], c, hstate⟩
  have hreach (x') (hx' : Relation.ReflTransGen (Next (replaceRound pat w)) x x') :
      InLoop pat w c (c ≠ [] ∨ b.Closed c) x' :=
    Markup.invariant_of_reaches (fun _ _ hin hnext => (hin.next hpat hw hnext).1) hloop hx'
  have hroom : ReplaceRoom b pat w ↔ ∀ x', Relation.ReflTransGen (Next (replaceRound pat w)) x x' →
      RoundRoom pat w x' := by
    constructor
    · exact fun hr x' => hr x x' hsearch
    · intro hr y x' hy
      obtain rfl := Except.ok.inj (hsearch.symm.trans hy)
      exact hr x'
  have hstart : search b pat 0 = .ok x := hsearch
  refine .of_iff hr ?_ fun b' hb' => ?_
  · rw [hroom]
    unfold replaceAll
    rw [hstart, markup_ok_bind]
    constructor
    · intro hok x' hx'
      obtain ⟨b', hb'⟩ := hok
      obtain ⟨y, hrounds, -⟩ := markup_bind_eq_ok.mp hb'
      exact ((hreach x' hx').round_iff hpat hw).mp (Markup.ok_of_rounds hrounds hx')
    · intro hrooms
      have hless : replaceMeasure x < b.tail.toNat+1 := by
        have htail := hstate.sized.keeps.tail_eq
        rw [List.nil_append, ← h.keeps.tail_eq] at htail
        unfold replaceMeasure
        split_ifs with hleft
        · omega
        · have hplace := hstate.place
          cases hk : firstOcc pat c with
          | none => exact absurd (hstate.left hk) hleft
          | some k =>
            rw [hstate.place_eq hk, htail]
            omega
      obtain ⟨y, hy⟩ := Markup.exists_rounds_ok (fun _ _ hin hnext => hin.next hpat hw hnext) hloop
        (fun x' hx' => ((hreach x' hx').round_iff hpat hw).mpr (hrooms x' hx')) hless
      rw [hy]
      exact ⟨_, rfl⟩
  · unfold replaceAll at hb'
    rw [hstart, markup_ok_bind] at hb'
    obtain ⟨y, hrounds, hb'⟩ := markup_bind_eq_ok.mp hb'
    obtain ⟨hy, hleft⟩ := Markup.reaches_of_rounds hrounds
    obtain ⟨r', hreplaced', hsized, hclosed⟩ := (hreach y hy).of_left hleft
    obtain rfl := hreplaced.unique hreplaced'
    obtain rfl := Except.ok.inj hb'
    exact ⟨hsized, hclosed⟩

/-- A replacement that is not longer than the pattern always has room. -/
theorem replaceRoom_short [Malloc] (h : b.Sized c) (h0 : 0 ∉ c) (hpat : pat ≠ [])
    (hw : (w.length : ℤ) ≤ intMax) (hshort : w.length ≤ pat.length) : ReplaceRoom b pat w := by
  intro x x' hx hreach hne
  obtain ⟨x₁, hsearch, hstate⟩ := @ReplaceState.of_search b c w pat [] c False h h0 hpat
    (fun _ hr => hr) fun hends => hends.elim
  obtain rfl := Except.ok.inj (hsearch.symm.trans hx)
  have hloop : InLoop pat w c False x' :=
    Markup.invariant_of_reaches (fun _ _ hin hnext => (hin.next hpat hw hnext).1)
      ⟨[], c, hstate⟩ hreach
  obtain ⟨u, s, hstate'⟩ := hloop
  refine roomFor_short hstate'.sized (fun hnil => ?_) hshort
  cases hk : firstOcc pat s with
  | none => exact hne (hstate'.left hk)
  | some k =>
    have hle := firstOcc_le pat hk
    have hpos := List.length_pos_iff.mpr hpat
    have hlen := congrArg List.length hnil
    rw [List.length_append, List.length_nil] at hlen
    omega

end RegionCheck
end MsgCourier
