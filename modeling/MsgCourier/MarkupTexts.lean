import MsgCourier.MarkupRoom

/-! The texts that `cParseMarkup::Parse` copies from one buffer to another, and `Cleanup`. -/
namespace MsgCourier
open ListSearch CText

namespace RegionCheck

variable {b b' into : Buffer} {c d s : Bytes}

/-! ### Texts of C -/

/-- The block of a buffer behind its call of `MakeString`, if there is one. -/
inductive GetsBlock (b : Buffer) (c : Bytes) : Option Bytes × Buffer → Prop
  | none (hb : b.pBuffer = none) (hc : c = []) (h : b.Sized c) : GetsBlock b c (none, b)
  | some {b' : Buffer} (junk : Bytes) (hb : b.pBuffer ≠ none) (h : b'.Sized c)
      (hclosed : b'.Closed c) : GetsBlock b c (some (c ++ 0 :: junk), b')

theorem getBuffer_ok (h : b.Sized c) : ∃ r, b.getBuffer = .ok r ∧ GetsBlock b c r := by
  unfold Buffer.getBuffer
  rcases h.keeps.makeString with ⟨rfl, rfl⟩ | ⟨b', hok, hclosed⟩
  · exact ⟨_, rfl, .none rfl rfl h⟩
  · obtain ⟨junk, hblock⟩ := hclosed.pBuffer_eq
    refine ⟨_, ?_, .some junk ?_ ⟨hclosed.keeps, h.block.makeString hok⟩ hclosed⟩
    · rw [hok, ok_bind, hblock]
      rfl
    · intro hnone
      -- without a block nothing is written, and nothing is closed
      unfold Buffer.makeString at hok
      rw [hnone] at hok
      obtain rfl := Except.ok.inj hok
      rw [hnone] at hblock
      cases hblock

/-- `c_str()` needs a block. -/
theorem cText_iff (h : b.Sized c) : (∃ r, cText b = .ok r) ↔ b.pBuffer ≠ none := by
  obtain ⟨r, hget, hblock⟩ := getBuffer_ok h
  unfold cText
  rw [hget]
  cases hblock with
  | none hb =>
    refine ⟨fun hr => ?_, fun hne => absurd hb hne⟩
    obtain ⟨r, hr⟩ := hr
    cases hr
  | some junk hb => exact ⟨fun _ => hb, fun _ => ⟨_, rfl⟩⟩

theorem cText_sized (h : b.Sized c) {r : Bytes × Buffer} (hr : cText b = .ok r) :
    r.1 = cstr c ∧ r.2.Sized c ∧ r.2.Closed c := by
  obtain ⟨x, hget, hblock⟩ := getBuffer_ok h
  unfold cText at hr
  rw [hget] at hr
  cases hblock with
  | none => cases hr
  | some junk hb hsized hclosed =>
    obtain rfl := Except.ok.inj hr
    exact ⟨cstr_append_zero _ _, hsized, hclosed⟩

theorem cText_result (h : b.Sized c) (h0 : 0 ∉ c) {r : Bytes × Buffer} (hr : cText b = .ok r) :
    r.1 = c ∧ r.2.Sized c ∧ r.2.Closed c := by
  obtain ⟨htext, hsized⟩ := cText_sized h hr
  exact ⟨htext.trans (cstr_eq_self h0), hsized⟩

theorem cText_closed (h : b.Sized c) (hclosed : b.Closed c) (h0 : 0 ∉ c) :
    ∃ r, cText b = .ok r ∧ r.1 = c ∧ r.2.Sized c ∧ r.2.Closed c := by
  obtain ⟨junk, hblock⟩ := hclosed.pBuffer_eq
  obtain ⟨r, hr⟩ := (cText_iff h).mpr (hblock ▸ Option.some_ne_none _)
  exact ⟨r, hr, cText_result h h0 hr⟩

/-! ### Regions of another buffer -/

/-- `ReplaceWith` of a region needs room for it. -/
theorem copyRegion_refines [Malloc] (h : b.Sized c) (hinto : into.Sized d) (i : ℕ) (n : ℤ) :
    Refines (into.reset.Fits n)
      (fun r s => r.1.Sized c ∧ r.2.Sized s ∧ (s ≠ [] → r.2.Closed s))
      (copyRegion b into i n) (Markup.region c i n) := by
  obtain ⟨r, hget, hblock⟩ := getBuffer_ok h
  have hsized : r.2.Sized c := by
    cases hblock with
    | none hb hc h => exact h
    | some junk hb h hclosed => exact h
  unfold copyRegion
  rw [hget]
  dsimp only [raise, Except.mapError]
  rw [markup_ok_bind]
  by_cases hin : Markup.InContent c i n
  · obtain ⟨m, rfl⟩ := Int.eq_ofNat_of_zero_le hin.2.1
    have hle : i+m ≤ c.length := by
      have hend := hin.2.2
      omega
    have hlong := h.keeps.length_lt
    have hmax : (m : ℤ) ≤ intMax := by omega
    rw [checkRegion_ok hsized hin, markup_ok_bind, Int.toNat_natCast, Markup.region_ok hle]
    cases hblock with
    | none hb hc =>
      -- nothing is copied from no block
      obtain rfl : m = 0 := by
        rw [hc, List.length_nil] at hle
        omega
      refine .congr (.of_ok rfl rfl ⟨h, ?_, fun hne => absurd rfl hne⟩) fun _ _ => ?_
      · exact hinto.reset
      · exact ⟨fun _ => hinto.reset.keeps.fits_zero, fun _ => trivial⟩
    | some junk hb h' hclosed =>
      have hcopy : ((c ++ 0 :: junk).drop i).take m = (c.drop i).take m := by
        rw [List.drop_append_of_le_length (by omega), List.take_append_of_le_length]
        rw [List.length_drop]
        omega
      have hlen : m ≤ ((c ++ 0 :: junk).drop i).length := by
        rw [List.length_drop, List.length_append]
        omega
      refine .of_iff rfl ⟨fun hok => ?_, fun hfits => ?_⟩ fun r hr => ?_
      · obtain ⟨r, hr⟩ := hok
        obtain ⟨x, hx, -⟩ := markup_bind_eq_ok.mp hr
        exact hinto.fits_of_replaceWith hlen hmax (raise_eq_ok.mp hx)
      · obtain ⟨x, hx, -⟩ := hinto.replaceWith hlen hfits
        rw [Option.map_some, hx]
        exact ⟨_, rfl⟩
      · obtain ⟨x, hx, hr⟩ := markup_bind_eq_ok.mp hr
        have hx' := raise_eq_ok.mp hx
        obtain ⟨x', hok, hsized', hclosed'⟩ :=
          hinto.replaceWith hlen (hinto.fits_of_replaceWith hlen hmax hx')
        obtain rfl := Except.ok.inj (hx'.symm.trans hok)
        obtain rfl := Except.ok.inj hr
        rw [hcopy] at hsized' hclosed'
        refine ⟨h', hsized', fun hne => hclosed' ?_⟩
        have hpos := List.length_pos_iff.mpr hne
        rw [List.length_take] at hpos
        omega
  · refine .of_error (fun r hr => ?_) fun s hs => ?_
    · rw [checkRegion_fault hsized hin] at hr
      cases hr
    · unfold Markup.region at hs
      rw [if_neg hin] at hs
      cases hs

/-! ### Whole texts -/

/-- What is received of a text, whose length becomes an `int`. -/
def received (s : Bytes) : Bytes := s.take (int32 s.length).toNat

theorem received_free (h0 : 0 ∉ s) : 0 ∉ received s := fun hin => h0 (List.mem_of_mem_take hin)

theorem int32_length_le (h : 0 ≤ int32 (s.length : ℤ)) : int32 (s.length : ℤ) ≤ s.length := by
  unfold int32 at h ⊢
  rw [Int.bmod_def] at h ⊢
  push_cast at h ⊢
  split_ifs at h ⊢ <;> omega

/-- The length of a text is an `int` that the buffer has room for. -/
structure TextRoom (b : Buffer) (s : Bytes) : Prop where
  length : 0 ≤ int32 s.length
  fits : b.Fits (int32 s.length)

theorem appendText_refines [Malloc] (h : b.Sized c) (s : Bytes) :
    Refines (TextRoom b s) (fun b' t => b'.Sized t ∧ (received s ≠ [] → b'.Closed t))
      (appendText b s) (.ok (c ++ received s) : Markup Bytes) := by
  unfold appendText
  dsimp only
  by_cases hneg : int32 (s.length : ℤ) < 0
  · rw [if_pos hneg]
    refine .of_iff rfl ⟨fun hok => ?_, fun hroom => absurd hroom.length (by omega)⟩ fun r hr => ?_
    · obtain ⟨r, hr⟩ := hok
      cases hr
    · cases hr
  rw [if_neg hneg]
  have hle := int32_length_le (not_lt.mp hneg)
  have hmax := int32_le (s.length : ℤ)
  unfold received
  obtain ⟨n, hn⟩ := Int.eq_ofNat_of_zero_le (not_lt.mp hneg)
  rw [hn] at hle hmax ⊢
  have hlen : n ≤ (s ++ [0]).length := by
    rw [List.length_append]
    omega
  have hcopy : (s ++ [0]).take n = s.take n := List.take_append_of_le_length (by omega)
  refine .of_iff rfl ⟨fun hok => ?_, fun hroom => ?_⟩ fun r hr => ?_
  · obtain ⟨r, hr⟩ := hok
    obtain ⟨x, hx, -⟩ := markup_bind_eq_ok.mp hr
    exact ⟨by omega, hn ▸ h.fits_of_append hlen hmax (raise_eq_ok.mp hx)⟩
  · obtain ⟨x, hx, -⟩ := h.append hlen (hn ▸ hroom.fits)
    rw [hx]
    exact ⟨_, rfl⟩
  · obtain ⟨x, hx, hr⟩ := markup_bind_eq_ok.mp hr
    have hx' := raise_eq_ok.mp hx
    obtain ⟨x', hok, hsized, hclosed⟩ := h.append hlen (h.fits_of_append hlen hmax hx')
    obtain rfl := Except.ok.inj (hx'.symm.trans hok)
    obtain rfl := Except.ok.inj hr
    rw [hcopy] at hsized hclosed
    rw [Int.toNat_natCast]
    refine ⟨hsized, fun hne => hclosed ?_⟩
    have hpos := List.length_pos_iff.mpr hne
    rw [List.length_take] at hpos
    omega

/-- `ReplaceWith` appends to an empty content. -/
theorem replaceWithText_refines [Malloc] (h : b.Sized c) (s : Bytes) :
    Refines (TextRoom b.reset s) (fun b' t => b'.Sized t ∧ (t ≠ [] → b'.Closed t))
      (replaceWithText b s) (.ok (received s) : Markup Bytes) := by
  have happend := appendText_refines h.reset s
  rw [List.nil_append] at happend
  unfold appendText at happend
  unfold replaceWithText
  dsimp only at happend ⊢
  by_cases hneg : int32 (s.length : ℤ) < 0
  · rw [if_pos hneg]
    refine .of_iff rfl ⟨fun hok => ?_, fun hroom => absurd hroom.length (by omega)⟩ fun r hr => ?_
    · obtain ⟨r, hr⟩ := hok
      cases hr
    · cases hr
  rw [if_neg hneg] at happend ⊢
  obtain ⟨n, hn⟩ := Int.eq_ofNat_of_zero_le (not_lt.mp hneg)
  unfold Buffer.replaceWith
  dsimp only
  rw [hn] at happend ⊢
  rw [Buffer.lengthArg_natCast, ok_bind]
  refine happend.mono fun b' t _ ht hR => ⟨hR.1, fun hne => hR.2 ?_⟩
  rwa [Except.ok.inj ht]

/-- A text that is appended up to its NUL. -/
theorem appendString_refines [Malloc] (h : b.Sized c) (h0 : 0 ∉ s) (hs : s ≠ [])
    (hmax : (s.length : ℤ) ≤ intMax) :
    Refines (b.Fits s.length) (fun b' t => b'.Sized t ∧ b'.Closed t) (appendString b s)
      (.ok (c ++ s) : Markup Bytes) := by
  have hpos := List.length_pos_iff.mpr hs
  have hstrlen : strlen (s ++ [0]) = .ok (s.length : ℤ) := by
    unfold strlen
    rw [if_pos (by simp), cstr_append_zero, cstr_eq_self h0]
  have hsame : b.append (some (s ++ [0])) (-1) = b.append (some (s ++ [0])) (s.length : ℕ) := by
    unfold Buffer.append
    rw [if_neg (by decide), if_neg (by omega)]
    dsimp only
    rw [Buffer.lengthArg_natCast]
    unfold lengthArg
    rw [if_pos rfl, hstrlen]
  have hlen : s.length ≤ (s ++ [0]).length := (List.prefix_append _ _).length_le
  unfold appendString
  rw [hsame]
  refine .of_iff rfl ⟨fun hok => ?_, fun hfits => ?_⟩ fun r hr => ?_
  · obtain ⟨r, hr⟩ := hok
    obtain ⟨x, hx, -⟩ := markup_bind_eq_ok.mp hr
    exact h.fits_of_append hlen hmax (raise_eq_ok.mp hx)
  · obtain ⟨x, hx, -⟩ := h.append hlen hfits
    rw [hx]
    exact ⟨_, rfl⟩
  · obtain ⟨x, hx, hr⟩ := markup_bind_eq_ok.mp hr
    have hx' := raise_eq_ok.mp hx
    obtain ⟨x', hok, hsized, hclosed⟩ := h.append hlen (h.fits_of_append hlen hmax hx')
    obtain rfl := Except.ok.inj (hx'.symm.trans hok)
    obtain rfl := Except.ok.inj hr
    rw [List.take_left] at hsized hclosed
    exact ⟨hsized, hclosed hpos⟩

/-! ### Single calls -/

theorem toLower_sized (h : b.Sized c) : (toLower b).Sized (Markup.toLower c) := by
  obtain ⟨hkeeps, hblock⟩ := h
  have hlen (l : Bytes) : (Markup.toLower l).length = l.length := List.length_map _
  cases hkeeps with
  | null => exact Buffer.Sized.null
  | block c junk size hroom hsize hend hs =>
    have hfront : (c ++ junk).take (c.length : ℤ).toNat = c := List.take_left
    have hbehind : (c ++ junk).drop (c.length : ℤ).toNat = junk := List.drop_left
    have hsame : (Markup.toLower c ++ junk).length = (c ++ junk).length := by
      rw [List.length_append, List.length_append, hlen]
    have hkeeps := Buffer.Keeps.block (Markup.toLower c) junk size (hlen c ▸ hroom)
      (hsame ▸ hsize) (hsame ▸ hend) hs
    have heq : toLower ⟨some (c ++ junk), size, c.length⟩ =
        ⟨some (Markup.toLower c ++ junk), size, (Markup.toLower c).length⟩ := by
      unfold toLower
      dsimp only [Option.map_some]
      rw [hfront, hbehind, hlen]
    rw [heq]
    refine ⟨hkeeps, fun mem hmem => ?_⟩
    rw [← Option.some.inj hmem, hsame]
    exact hblock _ rfl

theorem truncate_sized (h : b.Sized c) {i : ℕ} (hi : i ≤ c.length) :
    (b.truncate (int32 (b.tail-i))).Sized (c.take i) := by
  have hlong := h.keeps.length_lt
  have htail := h.keeps.tail_eq
  have hcut : int32 (b.tail-i) = b.tail-i := int32_eq (by omega) (by omega)
  have hleft : int32 (b.tail-(b.tail-i)) = i := by
    rw [sub_sub_cancel]
    exact int32_eq (by omega) (by omega)
  have heq : b.truncate (int32 (b.tail-i)) = { b with tail := i } := by
    unfold Buffer.truncate
    rw [hcut, hleft]
  rw [heq]
  exact ⟨h.keeps.shorten hi, h.block⟩

theorem replaceAll_refines_short [Malloc] {w pat : Bytes} (h : b.Sized c) (h0 : 0 ∉ c)
    (hpat : pat ≠ []) (hw : (w.length : ℤ) ≤ intMax) (hshort : w.length ≤ pat.length) :
    Refines True (fun b' r => b'.Sized r ∧ (c ≠ [] ∨ b.Closed c → b'.Closed r))
      (replaceAll b pat w) (Markup.replaceAll pat w c) :=
  (replaceAll_refines h h0 hpat hw).congr fun _ _ =>
    iff_true_intro (replaceRoom_short h h0 hpat hw hshort)

theorem deleted_ok [Malloc] (h : b.Sized c) (hclosed : b.Closed c) (h0 : 0 ∉ c) (a : Byte) :
    ∃ b', replaceAll b [a] [] = .ok b' ∧ b'.Sized (c.filter (· ≠ a)) ∧
      b'.Closed (c.filter (· ≠ a)) := by
  have hdelete := Markup.replaceAll_delete h0 a
  have href := replaceAll_refines_short (w := []) h h0 (List.cons_ne_nil a []) (by decide)
    (Nat.zero_le _)
  obtain ⟨b', hb'⟩ := href.returns trivial _ hdelete
  obtain ⟨-, r, hr, hsized, hends⟩ := href.result b' hb'
  obtain rfl := Except.ok.inj (hdelete.symm.trans hr)
  exact ⟨b', hb', hsized, hends (.inr hclosed)⟩

/-- `Cleanup` of a terminated text needs no room. -/
theorem cleanup_refines [Malloc] (h : b.Sized c) (hclosed : b.Closed c) (h0 : 0 ∉ c) :
    Refines True (fun b' r => b'.Sized r ∧ b'.Closed r) (cleanup b) (Markup.cleanup c) := by
  have hfilter {t : Bytes} (ht : 0 ∉ t) (a : Byte) : 0 ∉ t.filter (· ≠ a) :=
    fun hin => ht (List.mem_of_mem_filter hin)
  obtain ⟨b₁, hb₁, hsized₁, hclosed₁⟩ := deleted_ok h hclosed h0 9
  obtain ⟨b₂, hb₂, hsized₂, hclosed₂⟩ := deleted_ok hsized₁ hclosed₁ (hfilter h0 9) 13
  obtain ⟨b₃, hb₃, hsized₃, hclosed₃⟩ :=
    deleted_ok hsized₂ hclosed₂ (hfilter (hfilter h0 9) 13) 10
  have htab : bytes "\t" = [9] := by decide
  have hreturn : bytes "\r" = [13] := by decide
  have hnewline : bytes "\n" = [10] := by decide
  have hfree : 0 ∉ Buffer.withoutControls c := Buffer.zero_notMem_withoutControls h0
  change b₃.Sized (Buffer.withoutControls c) at hsized₃
  change b₃.Closed (Buffer.withoutControls c) at hclosed₃
  have hcontent := Markup.cleanup_eq h0
  unfold cleanup
  rw [htab, hb₁, markup_ok_bind, hreturn, hb₂, markup_ok_bind, hnewline, hb₃, markup_ok_bind]
  rw [hcontent]
  dsimp only
  generalize Buffer.withoutControls c = t at *
  obtain ⟨b₄, hkeeps, hblock, htrim⟩ := hclosed₃.trimBlanks_eq hfree
  obtain ⟨junk, hmem⟩ := hclosed₃.pBuffer_eq
  have hlead : Buffer.leadingBlanks (t ++ 0 :: junk) =
      .ok (t.takeWhile Buffer.isBlank).length := Buffer.leadingBlanks_eq (.mk t junk hfree)
  have hle := (List.takeWhile_prefix Buffer.isBlank (l := t)).length_le
  have hregion : Markup.InContent t 0 (t.takeWhile Buffer.isBlank).length :=
    ⟨le_rfl, Int.natCast_nonneg _, by omega⟩
  obtain ⟨iTail, hiTail⟩ : ∃ iTail : ℤ, ((trimmed Buffer.isBlank t).length : ℤ)-
      (if (Buffer.oldEnd t).all Buffer.isBlank then (t.takeWhile Buffer.isBlank).length
        else 0 : ℕ) = iTail := ⟨_, rfl⟩
  rw [hiTail] at htrim ⊢
  rw [hmem]
  dsimp only
  rw [hlead]
  dsimp only [raise, Except.mapError]
  rw [markup_ok_bind, checkRegion_ok hsized₃ hregion, markup_ok_bind]
  split_ifs with hneg
  · -- the terminator goes in front of the block
    refine .of_error (fun b' hb' => ?_) fun r hr => ?_
    · have hok := raise_eq_ok.mp hb'
      rw [htrim] at hok
      unfold Buffer.makeString at hok
      cases hb : b₄.pBuffer with
      | none => exact hblock hb
      | some mem =>
        dsimp only at hok
        rw [hb] at hok
        obtain ⟨mem', hstore, -⟩ := bind_eq_ok.mp hok
        have hpos := (Buffer.store_length hstore).2.1
        omega
    · cases hr
  · obtain ⟨n, hn⟩ := Int.eq_ofNat_of_zero_le (not_lt.mp hneg)
    have hcut : n ≤ (t.dropWhile Buffer.isBlank).length := by
      have hfront := (List.rdropWhile_prefix Buffer.isBlank
        (l := t.dropWhile Buffer.isBlank)).length_le
      unfold trimmed at hiTail
      omega
    rw [hn] at htrim ⊢
    have hkeeps' := hkeeps.shorten hcut
    rcases hkeeps'.makeString with ⟨hnull, -⟩ | ⟨b', hb', hclosed'⟩
    · exact absurd (congrArg Buffer.pBuffer hnull) hblock
    · have hok : b₃.trimBlanks = .ok b' := htrim.trans hb'
      refine .of_ok (raise_eq_ok.mpr hok) rfl ⟨⟨hclosed'.keeps, ?_⟩, hclosed'⟩
      exact hsized₃.block.trimBlanks hok

end RegionCheck
end MsgCourier
