import MsgCourier.Markup

/-! When the loops of `cParseMarkup::Parse` end, and when the regions they hand to their buffers lie
inside the content. -/
namespace MsgCourier
open ListSearch CText

namespace Markup

variable {s t w pat : Bytes}

/-! ### The helpers -/

theorem singleton_prefix_drop_iff {a : Byte} {i : ℕ} : [a] <+: s.drop i ↔ s[i]? = some a := by
  rw [← List.head?_drop]
  cases s.drop i with
  | nil => simp
  | cons b t => simp [List.cons_prefix_cons, eq_comm]

theorem findChar_eq_some {ch : Byte} {i k : ℕ} (h : findChar s ch i = some k) :
    i ≤ k ∧ k < s.length ∧ s[k]? = some ch := by
  obtain ⟨j, hj, rfl⟩ := Option.map_eq_some_iff.mp h
  have hat := ((firstOcc_eq_some_iff (List.cons_ne_nil _ _)).mp hj).1
  have hle := firstOcc_le _ hj
  rw [List.length_drop, List.length_singleton] at hle
  rw [List.drop_drop] at hat
  exact ⟨Nat.le_add_right _ _, by omega, singleton_prefix_drop_iff.mp hat⟩

theorem findChar_isSome {ch : Byte} {i : ℕ} : (findChar s ch i).isSome ↔ ch ∈ s.drop i := by
  unfold findChar
  rw [Option.isSome_map]
  exact (occursIn_iff (List.cons_ne_nil _ _)).trans (List.singleton_infix_iff _ _)

theorem find_eq_some (hpat : pat ≠ []) {i k : ℕ} (h : find s pat i = some k) :
    i ≤ k ∧ k+pat.length ≤ s.length := by
  obtain ⟨j, hj, rfl⟩ := Option.map_eq_some_iff.mp h
  have hle := strstr_le hj
  have hpos := List.length_pos_iff.mpr hpat
  rw [List.length_drop] at hle
  exact ⟨Nat.le_add_right _ _, by omega⟩

theorem region_ok {i n : ℕ} (h : i+n ≤ s.length) : region s i n = .ok ((s.drop i).take n) := by
  have hin : InContent s i n := ⟨Int.natCast_nonneg _, Int.natCast_nonneg _, by omega⟩
  unfold region
  rw [if_pos hin]
  rfl

theorem remove_ok {i n : ℕ} (h : i+n ≤ s.length) :
    remove s i n = .ok (s.take i ++ s.drop (i+n)) := by
  have hin : InContent s i n := ⟨Int.natCast_nonneg _, Int.natCast_nonneg _, by omega⟩
  unfold remove
  rw [if_pos hin]
  rfl

/-- The loop behind the part that is done: the occurrences in the rest are replaced, from the
left. -/
theorem replaceAllRounds_ok (hpat : pat ≠ []) (w : Bytes) {n : ℕ} {u : Bytes} (h0 : 0 ∉ s)
    (hn : s.length < n) :
    ∃ r, replaceAllRounds pat w n u.length (u ++ s) = .ok (u ++ r) ∧ Replaced pat w s r := by
  induction n generalizing s u with
  | zero => exact absurd hn (Nat.not_lt_zero _)
  | succ n ih =>
    have hfind : find (u ++ s) pat u.length = (firstOcc pat s).map (u.length + ·) := by
      unfold find
      rw [List.drop_left, strstr_of_zero_notMem h0]
    unfold replaceAllRounds
    rw [hfind]
    cases hk : firstOcc pat s with
    | none => exact ⟨s, rfl, .none hk⟩
    | some k =>
      have hle := firstOcc_le _ hk
      have hpos := List.length_pos_iff.mpr hpat
      have hremove : remove (u ++ s) (u.length+k : ℕ) pat.length =
          .ok (u ++ s.take k ++ s.drop (k+pat.length)) := by
        have hin : u.length+k+pat.length ≤ (u ++ s).length := by
          rw [List.length_append]
          omega
        rw [remove_ok hin, List.take_length_add_append, Nat.add_assoc,
          List.drop_length_add_append]
      have hlen : (u ++ s.take k).length = u.length+k := by
        rw [List.length_append, List.length_take_of_le (by omega)]
      have hinsert : insert (u ++ s.take k ++ s.drop (k+pat.length)) (u.length+k) w =
          u ++ s.take k ++ w ++ s.drop (k+pat.length) := by
        unfold insert
        rw [← hlen, List.take_left, List.drop_left]
      have hidx : u.length+k+w.length = (u ++ s.take k ++ w).length := by
        rw [List.length_append, hlen]
      have hshort : (s.drop (k+pat.length)).length < n := by
        rw [List.length_drop]
        omega
      obtain ⟨r, hr, hreplaced⟩ := ih (u := u ++ s.take k ++ w)
        (fun hin => h0 (List.mem_of_mem_drop hin)) hshort
      refine ⟨s.take k ++ w ++ r, ?_, .some hk hreplaced⟩
      dsimp only [Option.map_some]
      rw [hremove]
      dsimp only [Except.bind, bind]
      rw [hinsert, hidx, hr]
      simp only [List.append_assoc]

theorem replaceAll_ok (hpat : pat ≠ []) (w : Bytes) (h0 : 0 ∉ s) :
    ∃ r, replaceAll pat w s = .ok r ∧ Replaced pat w s r := by
  obtain ⟨r, hr, hreplaced⟩ := replaceAllRounds_ok hpat w (u := []) h0 (Nat.lt_succ_self _)
  exact ⟨r, hr, hreplaced⟩

/-! ### Loops -/

section
variable {α : Type} {round : α → Markup (Option α)} {x y : α} {n m : ℕ}

def Next (round : α → Markup (Option α)) (x x' : α) : Prop := round x = .ok (some x')

theorem rounds_succ_of_next {x' : α} (h : Next round x x') :
    rounds round (n+1) x = rounds round n x' := by
  have hround : round x = .ok (some x') := h
  rw [rounds, hround]
  rfl

theorem rounds_succ_of_left (h : round x = .ok none) : rounds round (n+1) x = .ok x := by
  unfold rounds
  rw [h]
  rfl

/-- A loop that is left has gone from round to round up to the last one. -/
theorem reaches_of_rounds (h : rounds round n x = .ok y) :
    Relation.ReflTransGen (Next round) x y ∧ round y = .ok none := by
  induction n generalizing x with
  | zero => cases h
  | succ n ih =>
    unfold rounds at h
    cases hround : round x with
    | error e =>
      rw [hround] at h
      cases h
    | ok o =>
      rw [hround] at h
      cases o with
      | none =>
        obtain rfl := Except.ok.inj h
        exact ⟨.refl, hround⟩
      | some x' =>
        obtain ⟨hreach, hleft⟩ := ih h
        exact ⟨.head hround hreach, hleft⟩

theorem rounds_mono (h : rounds round n x = .ok y) (hm : n ≤ m) : rounds round m x = .ok y := by
  induction n generalizing m x with
  | zero => cases h
  | succ n ih =>
    obtain ⟨m, rfl⟩ := Nat.exists_eq_add_one.mpr (show 0 < m by omega)
    unfold rounds at h ⊢
    cases hround : round x with
    | error e =>
      rw [hround] at h
      cases h
    | ok o =>
      rw [hround] at h
      cases o with
      | none => exact h
      | some x' => exact ih h (Nat.le_of_succ_le_succ hm)

/-- A loop with a measure is left, if every round it reaches returns. -/
theorem exists_rounds_ok {I : α → Prop} {μ : α → ℕ}
    (hstep : ∀ x x', I x → Next round x x' → I x' ∧ μ x' < μ x) (hx : I x)
    (hok : ∀ x', Relation.ReflTransGen (Next round) x x' → ∃ o, round x' = .ok o) (hn : μ x < n) :
    ∃ y, rounds round n x = .ok y := by
  induction n generalizing x with
  | zero => exact absurd hn (Nat.not_lt_zero _)
  | succ n ih =>
    obtain ⟨o, ho⟩ := hok x .refl
    cases o with
    | none => exact ⟨x, rounds_succ_of_left ho⟩
    | some x' =>
      obtain ⟨hx', hless⟩ := hstep x x' hx ho
      obtain ⟨y, hy⟩ := ih hx' (fun x'' hreach => hok x'' (.head ho hreach)) (by omega)
      exact ⟨y, (rounds_succ_of_next ho).trans hy⟩

/-- Every round that a loop reaches before it is left returns. -/
theorem ok_of_rounds (h : rounds round n x = .ok y) {x' : α}
    (hreach : Relation.ReflTransGen (Next round) x x') : ∃ o, round x' = .ok o := by
  induction hreach using Relation.ReflTransGen.head_induction_on generalizing n with
  | refl =>
    cases n with
    | zero => cases h
    | succ n =>
      unfold rounds at h
      cases hround : round x' with
      | error e =>
        rw [hround] at h
        cases h
      | ok o => exact ⟨o, rfl⟩
  | head hnext _ ih =>
    cases n with
    | zero => cases h
    | succ n => exact ih ((rounds_succ_of_next hnext).symm.trans h)

/-- A loop is left at one place only. -/
theorem left_of_rounds (h : rounds round n x = .ok y) {x' : α}
    (hreach : Relation.ReflTransGen (Next round) x x') (hleft : round x' = .ok none) : x' = y := by
  induction hreach using Relation.ReflTransGen.head_induction_on generalizing n with
  | refl =>
    cases n with
    | zero => cases h
    | succ n => exact Except.ok.inj ((rounds_succ_of_left hleft).symm.trans h)
  | head hnext _ ih =>
    cases n with
    | zero => cases h
    | succ n => exact ih ((rounds_succ_of_next hnext).symm.trans h)

theorem invariant_of_reaches {I : α → Prop} (hstep : ∀ x x', I x → Next round x x' → I x')
    (hx : I x) (h : Relation.ReflTransGen (Next round) x y) : I y := by
  induction h with
  | refl => exact hx
  | tail _ hnext ih => exact hstep _ _ ih hnext

end

/-! ### What is replaced -/

section
variable {r : Bytes}

theorem notMem_of_replaced {a : Byte} (h : Replaced pat w s r) (hs : a ∉ s) (hw : a ∉ w) :
    a ∉ r := by
  induction h with
  | none => exact hs
  | some hk _ ih =>
    have hrest := ih fun hin => hs (List.mem_of_mem_drop hin)
    rw [List.mem_append, List.mem_append]
    exact fun hin => hin.elim
      (fun hin => hin.elim (fun hin => hs (List.mem_of_mem_take hin)) hw) hrest

/-- Taking an occurrence out makes the text shorter. -/
theorem length_lt_of_replaced (h : Replaced pat [] s r) (hpat : pat ≠ []) (hin : pat <:+: s) :
    r.length < s.length := by
  cases h with
  | none hs =>
    have hocc := (occursIn_iff hpat).mpr hin
    unfold occursIn at hocc
    rw [hs] at hocc
    cases hocc
  | @some _ r k hs hrest =>
    have hle := firstOcc_le _ hs
    have hpos := List.length_pos_iff.mpr hpat
    have hge := hrest.length_ge (Nat.zero_le _)
    rw [List.length_drop] at hge
    rw [List.append_nil, List.length_append, List.length_take]
    omega

/-- Each closing bracket has a blank behind it. -/
def BlankBehind (s : Bytes) : Prop := ∀ i : ℕ, s[i]? = some 62 → s[i+1]? = some 32

theorem blankBehind_of_replaced (h : Replaced [62] [62, 32] s r) : BlankBehind r := by
  induction h with
  | @none s hs =>
    intro i hi
    have hin := (occursIn_iff (List.cons_ne_nil _ _)).mpr
      ((List.singleton_infix_iff 62 s).mpr (List.mem_of_getElem? hi))
    unfold occursIn at hin
    rw [hs] at hin
    cases hin
  | @some s r k hs _ ih =>
    have hfront : ∀ i < k, (s.take k)[i]? ≠ some 62 := by
      intro i hi hat
      rw [List.getElem?_take_of_lt hi] at hat
      exact ((firstOcc_eq_some_iff (List.cons_ne_nil _ _)).mp hs).2 i hi
        (singleton_prefix_drop_iff.mpr hat)
    have hlen : (s.take k).length = k := by
      have hle := firstOcc_le _ hs
      rw [List.length_take]
      omega
    intro i hi
    rw [List.append_assoc] at hi ⊢
    rcases Nat.lt_trichotomy i k with hlt | rfl | hgt
    · rw [List.getElem?_append_left (by omega)] at hi
      exact absurd hi (hfront i hlt)
    · rw [List.getElem?_append_right (by omega), hlen, Nat.add_sub_cancel_left]
      rfl
    · obtain ⟨j, rfl⟩ := Nat.exists_eq_add_of_lt hgt
      have hj : k+j+1-k = j+1 := by omega
      have hj' : k+j+1+1-k = j+2 := by omega
      rw [List.getElem?_append_right (by omega), hlen, hj] at hi
      rw [List.getElem?_append_right (by omega), hlen, hj']
      cases j with
      | zero => exact absurd (Option.some.inj hi) (by decide)
      | succ j => exact ih j hi

/-- A tag that is taken out has no closing bracket in front of it. -/
theorem BlankBehind.of_replaced {mid : Bytes} (h : Replaced (60 :: mid) [] s r)
    (hs : BlankBehind s) : BlankBehind r := by
  induction h with
  | none => exact hs
  | @some s r k hk _ ih =>
    have hle := firstOcc_le _ hk
    rw [List.length_cons] at hle
    have hlen : (s.take k).length = k := List.length_take_of_le (by omega)
    have hrest : BlankBehind (s.drop (k+(60 :: mid).length)) := by
      intro i hi
      rw [List.getElem?_drop] at hi ⊢
      exact hs _ hi
    intro i hi
    rw [List.append_nil] at hi ⊢
    rcases Nat.lt_or_ge i k with hlt | hge
    · rw [List.getElem?_append_left (by omega), List.getElem?_take_of_lt hlt] at hi
      have hnext := hs i hi
      rcases Nat.lt_or_ge (i+1) k with hin | hout
      · rwa [List.getElem?_append_left (by omega), List.getElem?_take_of_lt hin]
      · -- the opening bracket of the tag would be behind this one
        obtain rfl : k = i+1 := by omega
        have hat := singleton_prefix_drop_iff.mp
          ((List.prefix_append [60] mid).trans ((firstOcc_eq_some_iff (by simp)).mp hk).1)
        rw [hnext] at hat
        exact absurd (Option.some.inj hat) (by decide)
    · obtain ⟨j, rfl⟩ := Nat.exists_eq_add_of_le hge
      rw [List.getElem?_append_right (by omega), hlen, Nat.add_sub_cancel_left] at hi
      have hj : k+j+1-k = j+1 := by omega
      rw [List.getElem?_append_right (by omega), hlen, hj]
      exact ih hrest j hi


end

/-! ### A token -/

/-- The first tag from the mark on, from its opening bracket to the next closing one. -/
structure TokenAt (text : Bytes) (mark loc1 loc2 : ℕ) : Prop where
  opening : findChar text 60 mark = some loc1
  closing : findChar text 62 loc1 = some loc2

def tokenOf (text : Bytes) (loc1 loc2 : ℕ) : Bytes := (text.drop loc1).take (loc2-loc1+1)

namespace TokenAt

variable {text : Bytes} {mark loc1 loc2 : ℕ}

theorem lt (h : TokenAt text mark loc1 loc2) : mark ≤ loc1 ∧ loc1 < loc2 ∧ loc2 < text.length := by
  obtain ⟨hmark, -, hopen⟩ := findChar_eq_some h.opening
  obtain ⟨hle, hlt, hclose⟩ := findChar_eq_some h.closing
  refine ⟨hmark, lt_of_le_of_ne hle ?_, hlt⟩
  rintro rfl
  rw [hopen] at hclose
  exact absurd (Option.some.inj hclose) (by decide)

theorem region_eq (h : TokenAt text mark loc1 loc2) :
    region text loc1 ((loc2 : ℤ)-loc1+1) = .ok (tokenOf text loc1 loc2) := by
  obtain ⟨-, hlt, hlen⟩ := h.lt
  have hint : (loc2 : ℤ)-loc1+1 = (loc2-loc1+1 : ℕ) := by omega
  rw [hint, region_ok (by omega)]
  rfl

theorem length_eq (h : TokenAt text mark loc1 loc2) :
    (tokenOf text loc1 loc2).length = loc2-loc1+1 := by
  obtain ⟨-, hlt, hlen⟩ := h.lt
  unfold tokenOf
  rw [List.length_take_of_le]
  rw [List.length_drop]
  omega

theorem token_eq (h : TokenAt text mark loc1 loc2) : ∃ mid, tokenOf text loc1 loc2 = 60 :: mid := by
  obtain ⟨-, -, hopen⟩ := findChar_eq_some h.opening
  obtain ⟨hlt, hget⟩ := List.getElem?_eq_some_iff.mp hopen
  unfold tokenOf
  rw [List.drop_eq_getElem_cons hlt, hget, List.take_succ_cons]
  exact ⟨_, rfl⟩

theorem token_ne_nil (h : TokenAt text mark loc1 loc2) : tokenOf text loc1 loc2 ≠ [] := by
  obtain ⟨mid, hmid⟩ := h.token_eq
  rw [hmid]
  exact List.cons_ne_nil _ _

end TokenAt

theorem tokenOf_within (text : Bytes) (loc1 loc2 : ℕ) : tokenOf text loc1 loc2 <:+: text :=
  (List.take_prefix _ _).isInfix.trans (List.drop_suffix _ _).isInfix

theorem zero_notMem_tokenOf {text : Bytes} (h0 : 0 ∉ text) (loc1 loc2 : ℕ) :
    0 ∉ tokenOf text loc1 loc2 := fun hin => h0 ((tokenOf_within text loc1 loc2).subset hin)

/-- A token is taken out wherever it stands, and the text gets shorter. -/
theorem TokenAt.replaceAll_ok {text : Bytes} {mark loc1 loc2 : ℕ} (h : TokenAt text mark loc1 loc2)
    (h0 : 0 ∉ text) : ∃ r, replaceAll (tokenOf text loc1 loc2) [] text = .ok r ∧ 0 ∉ r ∧
      r.length < text.length ∧ (BlankBehind text → BlankBehind r) := by
  obtain ⟨r, hr, hreplaced⟩ := Markup.replaceAll_ok h.token_ne_nil [] h0
  refine ⟨r, hr, notMem_of_replaced hreplaced h0 List.not_mem_nil,
    length_lt_of_replaced hreplaced h.token_ne_nil (tokenOf_within _ _ _), ?_⟩
  obtain ⟨mid, hmid⟩ := h.token_eq
  rw [hmid] at hreplaced
  exact fun hblank => hblank.of_replaced hreplaced

/-! ### The rounds of the first loop -/

/-- The value of the attribute with the keywords ends in the token. -/
def KeywordsClosed (token : Bytes) : Prop :=
  startsWith (bytes "<meta") token = true → strstr token (bytes "\"keywords\"") ≠ none →
    ∀ pContent, strstr token (bytes "content=\"") = some pContent → 34 ∈ token.drop (pContent+9)

/-- A tag follows a title, and keywords are closed. -/
def TitleOk (x : TitlePass) : Prop :=
  ∀ loc1 loc2, TokenAt x.text x.mark loc1 loc2 → isKept (tokenOf x.text loc1 loc2) = false →
    (tokenOf x.text loc1 loc2 = bytes "<title>" → 60 ∈ x.text.drop (loc2+1)) ∧
      KeywordsClosed (tokenOf x.text loc1 loc2)

theorem strstr_quote {token : Bytes} (h0 : 0 ∉ token) :
    (strstr token (bytes "\"")).isSome ↔ 34 ∈ token := by
  rw [strstr_of_zero_notMem h0]
  exact (occursIn_iff (List.cons_ne_nil _ _)).trans (List.singleton_infix_iff _ _)

theorem keywordsOf_ok_iff {token : Bytes} (h0 : 0 ∉ token) :
    (∃ k, keywordsOf token = .ok k) ↔ KeywordsClosed token := by
  unfold keywordsOf KeywordsClosed
  by_cases hmeta : startsWith (bytes "<meta") token = true ∧
      strstr token (bytes "\"keywords\"") ≠ none
  · rw [if_pos hmeta]
    cases hcontent : strstr token (bytes "content=\"") with
    | none => exact ⟨fun _ _ _ p hp => absurd hp (by simp), fun _ => ⟨[], rfl⟩⟩
    | some p =>
      have hquote : (strstr (token.drop (p+9)) (bytes "\"")).isSome ↔ 34 ∈ token.drop (p+9) :=
        strstr_quote fun hin => h0 (List.mem_of_mem_drop hin)
      dsimp only
      constructor
      · intro h hstart hkeywords q hq
        obtain rfl := Option.some.inj hq
        rw [← hquote]
        obtain ⟨k, hk⟩ := h
        cases hend : strstr (token.drop (p+9)) (bytes "\"") with
        | none =>
          rw [hend] at hk
          cases hk
        | some len => rfl
      · intro h
        obtain ⟨len, hlen⟩ := Option.isSome_iff_exists.mp
          (hquote.mpr (h hmeta.1 hmeta.2 p rfl))
        rw [hlen]
        exact ⟨_, rfl⟩
  · rw [if_neg hmeta]
    exact ⟨fun _ hstart hkeywords => absurd ⟨hstart, hkeywords⟩ hmeta, fun _ => ⟨[], rfl⟩⟩

theorem zero_notMem_keywordsOf {token k : Bytes} (h0 : 0 ∉ token) (h : keywordsOf token = .ok k) :
    0 ∉ k := by
  unfold keywordsOf at h
  split at h
  · split at h
    · obtain rfl := Except.ok.inj h
      exact List.not_mem_nil
    · split at h
      · cases h
      · obtain rfl := Except.ok.inj h
        exact fun hin => h0 (List.mem_of_mem_drop (List.mem_of_mem_take hin))
  · obtain rfl := Except.ok.inj h
    exact List.not_mem_nil

section
variable {x x' : TitlePass} {loc1 loc2 : ℕ}

/-- The text of the first loop: no NUL, and a blank behind each closing bracket. -/
structure TitlePass.Inv (x : TitlePass) : Prop where
  text : 0 ∉ x.text
  title : 0 ∉ x.title
  keywords : 0 ∉ x.metaContentKeywords
  blank : BlankBehind x.text

theorem titleOf_eq (h : TokenAt x.text x.mark loc1 loc2)
    (htitle : tokenOf x.text loc1 loc2 = bytes "<title>") {loc3 : ℕ}
    (hnext : findChar x.text 60 (loc2+1) = some loc3) (hblank : BlankBehind x.text) :
    titleOf x (tokenOf x.text loc1 loc2) loc1 =
      .ok (some ((x.text.drop (loc2+1)).take (loc3-(loc2+1)))) := by
  obtain ⟨-, hlt, -⟩ := h.lt
  obtain ⟨hle, hlen, hopen⟩ := findChar_eq_some hnext
  obtain ⟨-, -, hclose⟩ := findChar_eq_some h.closing
  have hstart : loc1+(tokenOf x.text loc1 loc2).length = loc2+1 := by
    rw [h.length_eq]
    omega
  -- the blank behind the tag belongs to the title
  have hne : loc3 ≠ loc2+1 := by
    rintro rfl
    rw [hblank loc2 hclose] at hopen
    exact absurd (Option.some.inj hopen) (by decide)
  have hint : (loc3 : ℤ)-(loc2+1 : ℕ) = (loc3-(loc2+1) : ℕ) := by omega
  have htext : ¬ ((x.text.drop (loc2+1)).take (loc3-(loc2+1))).length < 1 := by
    rw [List.length_take, List.length_drop]
    omega
  unfold titleOf
  rw [if_pos htitle]
  dsimp only
  rw [hstart, hnext, Option.elim_some, hint, region_ok (by omega)]
  dsimp only [Except.bind, bind]
  rw [if_neg htext]
  rfl

theorem titleOf_ok_iff (h : TokenAt x.text x.mark loc1 loc2) (hx : x.Inv) :
    (∃ o, titleOf x (tokenOf x.text loc1 loc2) loc1 = .ok o) ↔
      (tokenOf x.text loc1 loc2 = bytes "<title>" → 60 ∈ x.text.drop (loc2+1)) := by
  by_cases htitle : tokenOf x.text loc1 loc2 = bytes "<title>"
  · rw [← findChar_isSome, Option.isSome_iff_exists]
    constructor
    · intro h' _
      obtain ⟨o, ho⟩ := h'
      obtain ⟨-, hlt, -⟩ := h.lt
      have hstart : loc1+(tokenOf x.text loc1 loc2).length = loc2+1 := by
        rw [h.length_eq]
        omega
      cases hnext : findChar x.text 60 (loc2+1) with
      | some loc3 => exact ⟨loc3, rfl⟩
      | none =>
        -- `FindChar` is -1, and the length is negative
        have hout : ¬ InContent x.text (loc2+1 : ℕ) (-1-(loc2+1 : ℕ)) := by
          intro hin
          have hpos := hin.2.1
          omega
        unfold titleOf at ho
        rw [if_pos htitle] at ho
        dsimp only at ho
        rw [hstart, hnext, Option.elim_none, region, if_neg hout] at ho
        cases ho
    · intro h'
      obtain ⟨loc3, hnext⟩ := h' htitle
      exact ⟨_, titleOf_eq h htitle hnext hx.blank⟩
  · unfold titleOf
    rw [if_neg htitle]
    exact ⟨fun _ h' => absurd h' htitle, fun _ => ⟨_, rfl⟩⟩

theorem titleOf_inv (h : TokenAt x.text x.mark loc1 loc2) (hx : x.Inv) {o : Option Bytes}
    (ho : titleOf x (tokenOf x.text loc1 loc2) loc1 = .ok o) :
    ∃ title, o = some title ∧ 0 ∉ title := by
  by_cases htitle : tokenOf x.text loc1 loc2 = bytes "<title>"
  · have hnext := (titleOf_ok_iff h hx).mp ⟨o, ho⟩ htitle
    obtain ⟨loc3, hloc3⟩ := Option.isSome_iff_exists.mp (findChar_isSome.mpr hnext)
    rw [titleOf_eq h htitle hloc3 hx.blank] at ho
    exact ⟨_, (Except.ok.inj ho).symm,
      fun hin => hx.text (List.mem_of_mem_drop (List.mem_of_mem_take hin))⟩
  · unfold titleOf at ho
    rw [if_neg htitle] at ho
    exact ⟨x.title, (Except.ok.inj ho).symm, hx.title⟩

theorem titleRound_none (h : ∀ loc1 loc2, ¬ TokenAt x.text x.mark loc1 loc2) :
    titleRound x = .ok none := by
  unfold titleRound
  cases hopen : findChar x.text 60 x.mark with
  | none => rfl
  | some loc1 =>
    cases hclose : findChar x.text 62 loc1 with
    | none =>
      dsimp only
      rw [hclose]
      rfl
    | some loc2 => exact absurd ⟨hopen, hclose⟩ (h loc1 loc2)

theorem titleRound_kept (h : TokenAt x.text x.mark loc1 loc2)
    (hkept : isKept (tokenOf x.text loc1 loc2) = true) :
    titleRound x = .ok (some { x with mark := loc1+1 }) := by
  unfold titleRound
  rw [h.opening]
  dsimp only
  rw [h.closing]
  dsimp only
  rw [h.region_eq]
  dsimp only [Except.bind, bind]
  rw [if_pos hkept]
  rfl

theorem titleRound_token (h : TokenAt x.text x.mark loc1 loc2)
    (hkept : isKept (tokenOf x.text loc1 loc2) = false) :
    titleRound x = takeTag x (tokenOf x.text loc1 loc2) loc1 := by
  unfold titleRound
  rw [h.opening]
  dsimp only
  rw [h.closing]
  dsimp only
  rw [h.region_eq]
  dsimp only [Except.bind, bind]
  rw [hkept, if_neg Bool.false_ne_true]

/-- A round that takes the token out. -/
theorem titleRound_taken (h : TokenAt x.text x.mark loc1 loc2)
    (hkept : isKept (tokenOf x.text loc1 loc2) = false) (hx : x.Inv) {title keywords : Bytes}
    (htitle : titleOf x (tokenOf x.text loc1 loc2) loc1 = .ok (some title))
    (hkeywords : keywordsOf (tokenOf x.text loc1 loc2) = .ok keywords) :
    ∃ text, titleRound x = .ok (some ⟨text, 0, title, x.metaContentKeywords ++ keywords⟩) ∧
      0 ∉ text ∧ text.length < x.text.length ∧ BlankBehind text := by
  obtain ⟨text, htext, h0, hshort, hblank⟩ := h.replaceAll_ok hx.text
  refine ⟨text, ?_, h0, hshort, hblank hx.blank⟩
  rw [titleRound_token h hkept]
  unfold takeTag
  rw [htitle]
  dsimp only [Except.bind, bind]
  rw [hkeywords]
  dsimp only
  rw [htext]
  rfl

/-- A round returns when the title and the keywords do. -/
theorem parts_of_titleRound (h : TokenAt x.text x.mark loc1 loc2)
    (hkept : isKept (tokenOf x.text loc1 loc2) = false) (hx : x.Inv) {o : Option TitlePass}
    (ho : titleRound x = .ok o) : ∃ title keywords,
      titleOf x (tokenOf x.text loc1 loc2) loc1 = .ok (some title) ∧
      keywordsOf (tokenOf x.text loc1 loc2) = .ok keywords := by
  rw [titleRound_token h hkept] at ho
  unfold takeTag at ho
  cases htitle : titleOf x (tokenOf x.text loc1 loc2) loc1 with
  | error e =>
    rw [htitle] at ho
    cases ho
  | ok t =>
    rw [htitle] at ho
    obtain ⟨title, rfl, -⟩ := titleOf_inv h hx htitle
    cases hkeywords : keywordsOf (tokenOf x.text loc1 loc2) with
    | error e =>
      dsimp only [Except.bind, bind] at ho
      rw [hkeywords] at ho
      cases ho
    | ok keywords => exact ⟨title, keywords, rfl, rfl⟩

theorem titleRound_ok_iff (hx : x.Inv) : (∃ o, titleRound x = .ok o) ↔ TitleOk x := by
  constructor
  · intro hround loc1 loc2 h hkept
    obtain ⟨o, ho⟩ := hround
    obtain ⟨title, keywords, htitle, hkeywords⟩ := parts_of_titleRound h hkept hx ho
    exact ⟨(titleOf_ok_iff h hx).mp ⟨_, htitle⟩,
      (keywordsOf_ok_iff (zero_notMem_tokenOf hx.text _ _)).mp ⟨_, hkeywords⟩⟩
  · intro hok
    by_cases hat : ∃ loc1 loc2, TokenAt x.text x.mark loc1 loc2
    · obtain ⟨loc1, loc2, h⟩ := hat
      cases hkept : isKept (tokenOf x.text loc1 loc2) with
      | true => exact ⟨_, titleRound_kept h hkept⟩
      | false =>
        obtain ⟨htag, hclosed⟩ := hok loc1 loc2 h hkept
        obtain ⟨o, ho⟩ := (titleOf_ok_iff h hx).mpr htag
        obtain ⟨title, rfl, -⟩ := titleOf_inv h hx ho
        obtain ⟨keywords, hkeywords⟩ :=
          (keywordsOf_ok_iff (zero_notMem_tokenOf hx.text _ _)).mpr hclosed
        obtain ⟨text, hround, -⟩ := titleRound_taken h hkept hx ho hkeywords
        exact ⟨_, hround⟩
    · exact ⟨none, titleRound_none fun loc1 loc2 h => hat ⟨loc1, loc2, h⟩⟩

/-- A round moves the mark on, or makes the text shorter. -/
def TitlePass.measure (x : TitlePass) : ℕ :=
  x.text.length*(x.text.length+2)+(x.text.length+1-x.mark)

theorem TitlePass.Inv.next (hx : x.Inv) (h : Next titleRound x x') :
    x'.Inv ∧ x'.measure < x.measure := by
  have hround : titleRound x = .ok (some x') := h
  by_cases hat : ∃ loc1 loc2, TokenAt x.text x.mark loc1 loc2
  · obtain ⟨loc1, loc2, hat⟩ := hat
    obtain ⟨hmark, hlt, hlen⟩ := hat.lt
    cases hkept : isKept (tokenOf x.text loc1 loc2) with
    | true =>
      rw [titleRound_kept hat hkept] at hround
      obtain rfl := Option.some.inj (Except.ok.inj hround)
      refine ⟨⟨hx.text, hx.title, hx.keywords, hx.blank⟩, ?_⟩
      unfold TitlePass.measure
      dsimp only
      omega
    | false =>
      obtain ⟨title, keywords, htitle, hkeywords⟩ := parts_of_titleRound hat hkept hx hround
      obtain ⟨text, htaken, h0, hshort, hblank⟩ := titleRound_taken hat hkept hx htitle hkeywords
      rw [htaken] at hround
      obtain rfl := Option.some.inj (Except.ok.inj hround)
      obtain ⟨title', heq, htitle0⟩ := titleOf_inv hat hx htitle
      obtain rfl := Option.some.inj heq
      have hkeywords0 := zero_notMem_keywordsOf (zero_notMem_tokenOf hx.text loc1 loc2) hkeywords
      refine ⟨⟨h0, htitle0, ?_, hblank⟩, ?_⟩
      · rw [List.mem_append]
        exact fun hin => hin.elim hx.keywords hkeywords0
      · unfold TitlePass.measure
        dsimp only
        have hsquare : text.length*(text.length+2) ≤ (x.text.length-1)*(x.text.length+1) :=
          Nat.mul_le_mul (by omega) (by omega)
        obtain ⟨l, hl⟩ : ∃ l, x.text.length = l+1 := ⟨x.text.length-1, by omega⟩
        rw [hl] at hsquare ⊢
        have hexpand : (l+1)*(l+1+2) = l*(l+1+1)+(2*l+3) := by ring
        rw [Nat.add_sub_cancel] at hsquare
        omega
  · rw [titleRound_none fun loc1 loc2 h => hat ⟨loc1, loc2, h⟩] at hround
    cases hround

end

/-! ### Links -/

/-- The blanks that the second count of `Cleanup` takes too much are not more than what is left of
the text without the blanks at its ends. -/
def CleanupFits (s : Bytes) : Prop :=
  (Buffer.oldEnd (Buffer.withoutControls s)).all Buffer.isBlank = true →
    ((Buffer.withoutControls s).takeWhile Buffer.isBlank).length ≤
      (trimmed Buffer.isBlank (Buffer.withoutControls s)).length

theorem replaceAll_delete (h0 : 0 ∉ s) (a : Byte) :
    replaceAll [a] [] s = .ok (s.filter (· ≠ a)) := by
  obtain ⟨r, hr, hreplaced⟩ := replaceAll_ok (List.cons_ne_nil a []) [] h0
  rw [hr, hreplaced.filter]

/-- `Cleanup` as a whole: the blanks at the old end are taken off the trimmed text as well. -/
theorem cleanup_eq (h0 : 0 ∉ s) : cleanup s =
    (let t := Buffer.withoutControls s
    let iTail : ℤ := (trimmed Buffer.isBlank t).length-
      (if (Buffer.oldEnd t).all Buffer.isBlank then (t.takeWhile Buffer.isBlank).length else 0 : ℕ)
    if iTail < 0 then .error (.raised .undefined)
    else .ok ((t.dropWhile Buffer.isBlank).take iTail.toNat)) := by
  have hfilter {t : Bytes} (ht : 0 ∉ t) (a : Byte) : 0 ∉ t.filter (· ≠ a) :=
    fun hin => ht (List.mem_of_mem_filter hin)
  have htab : replaceAll (bytes "\t") [] s = .ok (s.filter (· ≠ 9)) := replaceAll_delete h0 9
  have hreturn : replaceAll (bytes "\r") [] (s.filter (· ≠ 9)) =
      .ok ((s.filter (· ≠ 9)).filter (· ≠ 13)) := replaceAll_delete (hfilter h0 9) 13
  have hnewline : replaceAll (bytes "\n") [] ((s.filter (· ≠ 9)).filter (· ≠ 13)) =
      .ok (Buffer.withoutControls s) := replaceAll_delete (hfilter (hfilter h0 9) 13) 10
  unfold cleanup
  rw [htab]
  dsimp only [Except.bind, bind]
  rw [hreturn]
  dsimp only
  rw [hnewline]
  dsimp only
  generalize Buffer.withoutControls s = t
  have hle := (List.takeWhile_prefix Buffer.isBlank (l := t)).length_le
  have hremove : remove t (0 : ℕ) (t.takeWhile Buffer.isBlank).length =
      .ok (t.dropWhile Buffer.isBlank) := by
    rw [remove_ok (by omega), List.take_zero, List.nil_append, Nat.zero_add, Buffer.drop_leading]
  rw [Nat.cast_zero] at hremove
  rw [hremove]
  dsimp only
  have hcount := Buffer.rtakeWhile_oldEnd t
  have hrest := length_rdropWhile Buffer.isBlank (t.dropWhile Buffer.isBlank)
  have htail : ((t.dropWhile Buffer.isBlank).length : ℤ)-
      ((t.dropWhile Buffer.isBlank ++ Buffer.oldEnd t).rtakeWhile Buffer.isBlank).length =
        ((trimmed Buffer.isBlank t).length : ℤ)-(if (Buffer.oldEnd t).all Buffer.isBlank then
          (t.takeWhile Buffer.isBlank).length else 0 : ℕ) := by
    rw [hcount, trimmed]
    split_ifs <;> omega
  unfold Buffer.oldEnd at htail ⊢
  rw [htail]
  rfl

theorem zero_notMem_cleanup (h0 : 0 ∉ s) {r : Bytes} (h : cleanup s = .ok r) : 0 ∉ r := by
  rw [cleanup_eq h0] at h
  dsimp only at h
  obtain ⟨n, rfl⟩ : ∃ n, r = ((Buffer.withoutControls s).dropWhile Buffer.isBlank).take n := by
    split_ifs at h <;> exact ⟨_, (Except.ok.inj h).symm⟩
  intro hin
  have hdrop := (List.dropWhile_suffix Buffer.isBlank).subset (List.mem_of_mem_take hin)
  exact Buffer.zero_notMem_withoutControls h0 hdrop

theorem cleanup_ok_iff (h0 : 0 ∉ s) : (∃ r, cleanup s = .ok r) ↔ CleanupFits s := by
  rw [cleanup_eq h0]
  unfold CleanupFits
  dsimp only
  split_ifs with hall hneg hneg
  · -- the blanks at the old end are counted
    refine ⟨fun h => ?_, fun h => ?_⟩
    · obtain ⟨r, hr⟩ := h
      cases hr
    · have hfits := h hall
      omega
  · exact ⟨fun _ _ => by omega, fun _ => ⟨_, rfl⟩⟩
  · omega
  · exact ⟨fun _ h => absurd h hall, fun _ => ⟨_, rfl⟩⟩

theorem zero_notMem_replaceAll (pat w : Bytes) (h0 : 0 ∉ s) (hpat : pat ≠ []) (hw : 0 ∉ w) :
    ∃ r, replaceAll pat w s = .ok r ∧ 0 ∉ r := by
  obtain ⟨r, hr, hreplaced⟩ := replaceAll_ok hpat w h0
  exact ⟨r, hr, notMem_of_replaced hreplaced h0 hw⟩

theorem zero_notMem_replace (pat w : Bytes) (h0 : 0 ∉ s) (hpat : pat ≠ []) (hw : 0 ∉ w) :
    ∃ r, replace pat w s = .ok r ∧ 0 ∉ r := by
  unfold replace
  cases hfind : find s pat 0 with
  | none => exact ⟨s, rfl, h0⟩
  | some k =>
    obtain ⟨-, hlen⟩ := find_eq_some hpat hfind
    dsimp only
    rw [remove_ok hlen]
    refine ⟨_, rfl, ?_⟩
    unfold insert
    have hrest : 0 ∉ s.take k ++ s.drop (k+pat.length) := by
      rw [List.mem_append]
      exact fun hin => hin.elim (fun hin => h0 (List.mem_of_mem_take hin))
        fun hin => h0 (List.mem_of_mem_drop hin)
    rw [List.mem_append, List.mem_append]
    exact fun hin => hin.elim (fun hin => hin.elim (fun hin => hrest (List.mem_of_mem_take hin)) hw)
      fun hin => hrest (List.mem_of_mem_drop hin)

theorem truncated_front (s : Bytes) : truncated s <+: s := by
  unfold truncated
  split
  · split_ifs
    · exact List.take_prefix _ _
    · exact List.prefix_rfl
  · exact List.prefix_rfl

theorem fillLink_ok {sBaseURL value : Bytes} (hbase : 0 ∉ sBaseURL) (h0 : 0 ∉ value) :
    ∃ t, fillLink sBaseURL value = .ok t ∧ 0 ∉ t := by
  unfold fillLink
  dsimp only
  generalize hlink : (if startsWith (bytes "http://") value = true then value
    else sBaseURL ++ value) = link
  have hlink0 : 0 ∉ link := by
    rw [← hlink]
    split_ifs
    · exact h0
    · rw [List.mem_append]
      exact fun hin => hin.elim hbase h0
  have hcut0 : 0 ∉ truncated link := fun hin => hlink0 ((truncated_front link).subset hin)
  exact zero_notMem_replaceAll (bytes "//") (bytes "/") hcut0 (by decide) (by decide)

theorem linkOf_ok {sBaseURL value : Bytes} (hbase : 0 ∉ sBaseURL) (h0 : 0 ∉ value) :
    ∃ t, linkOf sBaseURL value = .ok t ∧ 0 ∉ t := by
  obtain ⟨t₁, ht₁, h₁⟩ := fillLink_ok hbase h0
  obtain ⟨t₂, ht₂, h₂⟩ := zero_notMem_replace (bytes "http:/") (bytes "http://") h₁
    (by decide) (by decide)
  obtain ⟨t₃, ht₃, h₃⟩ := zero_notMem_replace (bytes "http:") (bytes " ") h₂
    (by decide) (by decide)
  obtain ⟨t₄, ht₄, h₄⟩ := zero_notMem_replace (bytes "www.www.") (bytes "www.") h₃
    (by decide) (by decide)
  refine ⟨t₄, ?_, h₄⟩
  unfold linkOf
  rw [ht₁]
  dsimp only [Except.bind, bind]
  rw [ht₂]
  dsimp only
  rw [ht₃]
  dsimp only
  rw [ht₄]

/-- The address of a link is found without a fault. -/
theorem linkText_ok {sBaseURL token : Bytes} (hbase : 0 ∉ sBaseURL) (h0 : 0 ∉ token) :
    ∃ o, linkText sBaseURL token = .ok o ∧ ∀ t, o = some t → 0 ∉ t := by
  unfold linkText
  cases strstr token (bytes "href=\"") with
  | none =>
    refine ⟨none, rfl, ?_⟩
    intro t ht
    cases ht
  | some p =>
    have hvalue : 0 ∉ token.drop (p+6) := fun hin => h0 (List.mem_of_mem_drop hin)
    obtain ⟨t, ht, ht0⟩ := linkOf_ok hbase hvalue
    refine ⟨some t, ?_, fun t' ht' => Option.some.inj ht' ▸ ht0⟩
    dsimp only
    rw [ht]
    rfl

/-! ### The rounds of the second loop -/

section
variable {sBaseURL : Bytes} {y y' : RemovalPass} {loc1 loc2 : ℕ}

/-- A style or a script without its end tag has seven characters behind its own tag, and the
address of a link fits its cleanup. -/
def TokenRemovable (sBaseURL text : Bytes) (loc1 loc2 : ℕ) (token : Bytes) : Prop :=
  if startsWith (bytes "<style") token then
    find text (bytes "</style>") loc1 = none → loc2+8 ≤ text.length
  else if startsWith (bytes "<script") token then
    find text (bytes "</script>") loc2 = none → loc2+8 ≤ text.length
  else if startsWith (bytes "<a ") token then
    ∀ temp, linkText sBaseURL token = .ok (some temp) → CleanupFits temp
  else True

def RemovalOk (sBaseURL : Bytes) (y : RemovalPass) : Prop :=
  ∀ loc1 loc2, TokenAt y.text y.mark loc1 loc2 →
    TokenRemovable sBaseURL y.text loc1 loc2 (tokenOf y.text loc1 loc2)

/-- What a removal leaves: a shorter text without NUL. -/
def Shortened (text text' : Bytes) : Prop := 0 ∉ text' ∧ text'.length < text.length

theorem remove_shortened {text : Bytes} (h0 : 0 ∉ text) {i n : ℕ} (hn : 0 < n)
    (h : i+n ≤ text.length) : ∃ text', remove text i n = .ok text' ∧ Shortened text text' := by
  refine ⟨_, remove_ok h, ?_, ?_⟩
  · rw [List.mem_append]
    exact fun hin => hin.elim (fun hin => h0 (List.mem_of_mem_take hin))
      fun hin => h0 (List.mem_of_mem_drop hin)
  · rw [List.length_append, List.length_take, List.length_drop]
    omega

/-- The element ends in the text, or its tag has seven characters behind it. -/
theorem removeElement_ok_iff {text endTag : Bytes} {iOffset : ℕ}
    (hlt : loc1 < loc2) (hoffset : loc1 ≤ iOffset) (htag : 8 ≤ endTag.length) :
    (∃ text', removeElement text loc1 loc2 iOffset endTag = .ok text') ↔
      (find text endTag iOffset = none → loc2+8 ≤ text.length) := by
  unfold removeElement
  cases hfind : find text endTag iOffset with
  | none =>
    rw [Option.getD_none]
    dsimp only
    have hlen : (loc2 : ℤ)-loc1+8 = (loc2-loc1+8 : ℕ) := by omega
    rw [hlen]
    constructor
    · intro h _
      obtain ⟨text', h⟩ := h
      by_contra hlong
      have hout : ¬ InContent text loc1 (loc2-loc1+8 : ℕ) := by
        intro hin
        have hend := hin.2.2
        omega
      rw [remove, if_neg hout] at h
      cases h
    · intro h
      have hend := h rfl
      exact ⟨_, remove_ok (by omega)⟩
  | some k =>
    have hne : endTag ≠ [] := List.length_pos_iff.mp (by omega)
    obtain ⟨hle, hend⟩ := find_eq_some hne hfind
    have hlen : (k : ℤ)-loc1+8 = (k-loc1+8 : ℕ) := by omega
    rw [Option.getD_some]
    dsimp only
    rw [hlen]
    refine ⟨fun _ h => ?_, fun _ => ⟨_, remove_ok (by omega)⟩⟩
    cases h

theorem removeElement_shortened {text endTag text' : Bytes} {iOffset : ℕ} (h0 : 0 ∉ text)
    (hlt : loc1 < loc2) (hoffset : loc1 ≤ iOffset) (htag : endTag ≠ [])
    (h : removeElement text loc1 loc2 iOffset endTag = .ok text') : Shortened text text' := by
  unfold removeElement at h
  obtain ⟨n, hn, hpos⟩ : ∃ n : ℕ,
      (((find text endTag iOffset).getD loc2 : ℕ) : ℤ)-loc1+8 = n ∧ 0 < n := by
    cases hfind : find text endTag iOffset with
    | none => exact ⟨loc2-loc1+8, by rw [Option.getD_none]; omega, by omega⟩
    | some k =>
      obtain ⟨hle, -⟩ := find_eq_some htag hfind
      exact ⟨k-loc1+8, by rw [Option.getD_some]; omega, by omega⟩
  dsimp only at h
  rw [hn] at h
  by_cases hin : InContent text loc1 n
  · obtain ⟨text'', hremove, hshort⟩ := remove_shortened h0 hpos
      (show loc1+n ≤ text.length by have hend := hin.2.2; omega)
    obtain rfl := Except.ok.inj (h.symm.trans hremove)
    exact hshort
  · rw [remove, if_neg hin] at h
    cases h

/-- The branches that take the token out wherever it stands. -/
theorem replaceAll_shortened (h : TokenAt y.text y.mark loc1 loc2) (h0 : 0 ∉ y.text) :
    ∃ text, replaceAll (tokenOf y.text loc1 loc2) [] y.text = .ok text ∧ Shortened y.text text := by
  obtain ⟨text, htext, htext0, hshort, -⟩ := h.replaceAll_ok h0
  exact ⟨text, htext, htext0, hshort⟩

theorem removeToken_ok_iff (h : TokenAt y.text y.mark loc1 loc2) (h0 : 0 ∉ y.text)
    (hbase : 0 ∉ sBaseURL) :
    (∃ o, removeToken sBaseURL y loc1 loc2 (tokenOf y.text loc1 loc2) = .ok o) ↔
      TokenRemovable sBaseURL y.text loc1 loc2 (tokenOf y.text loc1 loc2) := by
  obtain ⟨-, hlt, -⟩ := h.lt
  have hbind {text : Markup Bytes} {f : Bytes → RemovalPass} :
      (∃ o, (do
        let t ← text
        pure (some (f t)) : Markup (Option RemovalPass)) = .ok o) ↔ ∃ t, text = .ok t := by
    cases text with
    | error e =>
      constructor
      · intro h
        obtain ⟨o, ho⟩ := h
        cases ho
      · intro h
        obtain ⟨t, ht⟩ := h
        cases ht
    | ok t => exact ⟨fun _ => ⟨t, rfl⟩, fun _ => ⟨_, rfl⟩⟩
  unfold removeToken TokenRemovable
  split_ifs
  · exact hbind.trans (removeElement_ok_iff hlt le_rfl (by decide))
  · exact hbind.trans (removeElement_ok_iff hlt hlt.le (by decide))
  · obtain ⟨o, ho, hlink0⟩ := linkText_ok hbase (zero_notMem_tokenOf h0 loc1 loc2)
    obtain ⟨text, htext, -⟩ := replaceAll_shortened h h0
    rw [ho, htext]
    cases o with
    | none =>
      refine ⟨fun _ temp htemp => ?_, fun _ => ⟨_, rfl⟩⟩
      cases htemp
    | some temp =>
      have hcleanup := cleanup_ok_iff (hlink0 temp rfl)
      constructor
      · intro h' temp' htemp
        obtain rfl := Option.some.inj (Except.ok.inj htemp)
        rw [← hcleanup]
        obtain ⟨o, ho'⟩ := h'
        cases hclean : cleanup temp with
        | error e =>
          dsimp only [Except.bind, bind] at ho'
          rw [hclean] at ho'
          cases ho'
        | ok r => exact ⟨r, rfl⟩
      · intro h'
        obtain ⟨r, hr⟩ := hcleanup.mpr (h' temp rfl)
        dsimp only [Except.bind, bind]
        rw [hr]
        exact ⟨_, rfl⟩
  · obtain ⟨text, htext, -⟩ := replaceAll_shortened h h0
    rw [htext]
    exact ⟨fun _ => trivial, fun _ => ⟨_, rfl⟩⟩

theorem removeToken_shortened (h : TokenAt y.text y.mark loc1 loc2) (h0 : 0 ∉ y.text)
    {o : Option RemovalPass}
    (ho : removeToken sBaseURL y loc1 loc2 (tokenOf y.text loc1 loc2) = .ok o) :
    ∃ y', o = some y' ∧ Shortened y.text y'.text := by
  obtain ⟨-, hlt, -⟩ := h.lt
  obtain ⟨text, htext, hshort⟩ := replaceAll_shortened h h0
  unfold removeToken at ho
  split_ifs at ho
  · cases helement : removeElement y.text loc1 loc2 loc1 (bytes "</style>") with
    | error e =>
      rw [helement] at ho
      cases ho
    | ok text' =>
      rw [helement] at ho
      exact ⟨_, (Except.ok.inj ho).symm,
        removeElement_shortened h0 hlt le_rfl (by decide) helement⟩
  · cases helement : removeElement y.text loc1 loc2 loc2 (bytes "</script>") with
    | error e =>
      rw [helement] at ho
      cases ho
    | ok text' =>
      rw [helement] at ho
      exact ⟨_, (Except.ok.inj ho).symm,
        removeElement_shortened h0 hlt hlt.le (by decide) helement⟩
  · rw [htext] at ho
    cases hlink : linkText sBaseURL (tokenOf y.text loc1 loc2) with
    | error e =>
      rw [hlink] at ho
      cases ho
    | ok t =>
      rw [hlink] at ho
      cases t with
      | none => exact ⟨_, (Except.ok.inj ho).symm, hshort⟩
      | some temp =>
        dsimp only [Except.bind, bind] at ho
        cases hclean : cleanup temp with
        | error e =>
          rw [hclean] at ho
          cases ho
        | ok r =>
          rw [hclean] at ho
          exact ⟨_, (Except.ok.inj ho).symm, hshort⟩
  · rw [htext] at ho
    exact ⟨_, (Except.ok.inj ho).symm, hshort⟩

theorem removalRound_none (h : ∀ loc1 loc2, ¬ TokenAt y.text y.mark loc1 loc2) :
    removalRound sBaseURL y = .ok none := by
  unfold removalRound
  cases hopen : findChar y.text 60 y.mark with
  | none => rfl
  | some loc1 =>
    cases hclose : findChar y.text 62 loc1 with
    | none =>
      dsimp only
      rw [hclose]
      rfl
    | some loc2 => exact absurd ⟨hopen, hclose⟩ (h loc1 loc2)

theorem removalRound_token (h : TokenAt y.text y.mark loc1 loc2) : removalRound sBaseURL y =
    removeToken sBaseURL y loc1 loc2 (tokenOf y.text loc1 loc2) := by
  unfold removalRound
  rw [h.opening]
  dsimp only
  rw [h.closing]
  dsimp only
  rw [h.region_eq]
  rfl

theorem TokenAt.unique {text : Bytes} {mark loc1 loc2 : ℕ} (h : TokenAt text mark loc1 loc2)
    {loc1' loc2' : ℕ} (h' : TokenAt text mark loc1' loc2') : loc1' = loc1 ∧ loc2' = loc2 := by
  obtain rfl := Option.some.inj (h.opening.symm.trans h'.opening)
  exact ⟨rfl, (Option.some.inj (h.closing.symm.trans h'.closing)).symm⟩

theorem removalRound_ok_iff (h0 : 0 ∉ y.text) (hbase : 0 ∉ sBaseURL) :
    (∃ o, removalRound sBaseURL y = .ok o) ↔ RemovalOk sBaseURL y := by
  by_cases hat : ∃ loc1 loc2, TokenAt y.text y.mark loc1 loc2
  · obtain ⟨loc1, loc2, h⟩ := hat
    rw [removalRound_token h, removeToken_ok_iff h h0 hbase]
    constructor
    · intro hok loc1' loc2' h'
      obtain ⟨rfl, rfl⟩ := h.unique h'
      exact hok
    · exact fun hok => hok loc1 loc2 h
  · have hnone : ∀ loc1 loc2, ¬ TokenAt y.text y.mark loc1 loc2 := fun loc1 loc2 h =>
      hat ⟨loc1, loc2, h⟩
    exact ⟨fun _ loc1 loc2 h => absurd h (hnone loc1 loc2), fun _ => ⟨_, removalRound_none hnone⟩⟩

/-- Each round makes the text shorter. -/
theorem removalRound_next (h0 : 0 ∉ y.text) (h : Next (removalRound sBaseURL) y y') :
    0 ∉ y'.text ∧ y'.text.length < y.text.length := by
  have hround : removalRound sBaseURL y = .ok (some y') := h
  by_cases hat : ∃ loc1 loc2, TokenAt y.text y.mark loc1 loc2
  · obtain ⟨loc1, loc2, hat⟩ := hat
    rw [removalRound_token hat] at hround
    obtain ⟨y'', heq, hshort⟩ := removeToken_shortened hat h0 hround
    obtain rfl := Option.some.inj heq
    exact hshort
  · rw [removalRound_none fun loc1 loc2 h => hat ⟨loc1, loc2, h⟩] at hround
    cases hround

end

theorem replaceEach_ok (pairs : List (Bytes × Bytes))
    (h : ∀ pair ∈ pairs, pair.1 ≠ [] ∧ 0 ∉ pair.2) (h0 : 0 ∉ s) :
    ∃ r, replaceEach pairs s = .ok r ∧ 0 ∉ r := by
  unfold replaceEach
  induction pairs generalizing s with
  | nil => exact ⟨s, rfl, h0⟩
  | cons pair pairs ih =>
    obtain ⟨hpat, hw⟩ := h pair List.mem_cons_self
    obtain ⟨r, hr, hr0⟩ := zero_notMem_replaceAll pair.1 pair.2 h0 hpat hw
    obtain ⟨r', hr', hr0'⟩ := ih (fun pair hin => h pair (List.mem_cons_of_mem _ hin)) hr0
    refine ⟨r', ?_, hr0'⟩
    rw [List.foldlM_cons, hr]
    exact hr'

/-- There is a blank behind each closing bracket from the start. -/
theorem blankBehind_brackets (h0 : 0 ∉ s) {r : Bytes}
    (h : replaceAll (bytes ">") (bytes "> ") s = .ok r) : BlankBehind r := by
  have hbracket : bytes ">" = [62] := by decide
  have hblank : bytes "> " = [62, 32] := by decide
  obtain ⟨r', h', hreplaced⟩ := replaceAll_ok (show bytes ">" ≠ [] by decide) (bytes "> ") h0
  obtain rfl := Except.ok.inj (h.symm.trans h')
  rw [hbracket, hblank] at hreplaced
  exact blankBehind_of_replaced hreplaced

theorem zero_notMem_toLower (h0 : 0 ∉ s) : 0 ∉ toLower s := by
  unfold toLower
  intro hin
  obtain ⟨c, hc, hzero⟩ := List.mem_map.mp hin
  split_ifs at hzero with hupper
  · have hsum : (c+32).toNat = c.toNat+32 := by
      have hlt : c.toNat < 91 := UInt8.lt_iff_toNat_lt.mp hupper.2
      rw [UInt8.toNat_add]
      exact Nat.mod_eq_of_lt (by have h32 : (32 : UInt8).toNat = 32 := rfl; omega)
    rw [hzero] at hsum
    have h00 : (0 : UInt8).toNat = 0 := rfl
    omega
  · exact h0 (hzero ▸ hc)

end Markup

end MsgCourier
