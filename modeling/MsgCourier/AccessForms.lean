import MsgCourier.AccessRules
import MsgCourier.Url

/-! Which texts `cIPAccess::Add` takes for a rule. -/
namespace MsgCourier
open ListSearch CText

/-! ### The tokens of an address -/

/-- The number that a token is read as. -/
def octvalOf (pToken : Bytes) : ℤ := if pToken = bytes "*" then -1 else atoi pToken

/-- The tokens that end: in a text without a terminator, those in front of its last dot. -/
def endedTokens (ended : Bool) (s : Bytes) : List Bytes :=
  tokenizer (· = 46) (if ended then s else s.rdropWhile (· ≠ 46))

/-- The tokens that end within the bytes that are copied. -/
def copiedTokens (s : Bytes) : List Bytes := endedTokens (decide (s.length < 16)) (s.take 16)

theorem rdropWhile_append_dot (s r : Bytes) :
    (s ++ 46 :: r).rdropWhile (· ≠ 46) = s ++ 46 :: r.rdropWhile (· ≠ 46) := by
  induction r using List.reverseRecOn with
  | nil => rw [List.rdropWhile_concat_neg _ _ _ (by decide), List.rdropWhile_nil]
  | append_singleton r b ih =>
    rw [← List.cons_append, ← List.append_assoc]
    by_cases hb : b = 46
    · have hkept (t : Bytes) : (t ++ [b]).rdropWhile (· ≠ 46) = t ++ [b] :=
        List.rdropWhile_concat_neg _ _ _ (by simp [hb])
      rw [hkept, hkept, List.append_assoc, List.cons_append]
    · have hdropped (t : Bytes) : (t ++ [b]).rdropWhile (· ≠ 46) = t.rdropWhile (· ≠ 46) :=
        List.rdropWhile_concat_pos _ _ _ (decide_eq_true hb)
      rw [hdropped, hdropped, ih]

theorem rdropWhile_noDot {s : Bytes} (hs : 46 ∉ s) : s.rdropWhile (· ≠ 46) = [] := by
  rw [List.rdropWhile_eq_nil_iff]
  intro b hb
  exact decide_eq_true fun h => hs (h ▸ hb)

theorem tokenizer_noDot {s : Bytes} (hs : 46 ∉ s) :
    tokenizer (· = 46) s = [s].filter (· ≠ []) := by
  have hnone : ∀ b ∈ s, decide (b = 46) = false := fun b hb => decide_eq_false fun h => hs (h ▸ hb)
  rw [tokenizer, List.splitOnP_eq_singleton hnone]

theorem endedTokens_append_dot (ended : Bool) {s : Bytes} (hs : 46 ∉ s) (r : Bytes) :
    endedTokens ended (s ++ 46 :: r) = [s].filter (· ≠ []) ++ endedTokens ended r := by
  have hsplit (t : Bytes) : tokenizer (· = 46) (s ++ 46 :: t) =
      [s].filter (· ≠ []) ++ tokenizer (· = 46) t := by
    rw [tokenizer_append_cons s t (decide_eq_true rfl), tokenizer_noDot hs]
  unfold endedTokens
  cases ended with
  | false =>
    rw [if_neg Bool.false_ne_true, if_neg Bool.false_ne_true, rdropWhile_append_dot, hsplit]
  | true => rw [if_pos rfl, if_pos rfl, hsplit]

/-- The last token, in front of the terminator or without one. -/
theorem endedTokens_noDot (ended : Bool) {s : Bytes} (hs : 46 ∉ s) :
    endedTokens ended s = if ended then [s].filter (· ≠ []) else [] := by
  unfold endedTokens
  cases ended with
  | false =>
    rw [if_neg Bool.false_ne_true, if_neg Bool.false_ne_true, rdropWhile_noDot hs]
    rfl
  | true => rw [if_pos rfl, if_pos rfl, tokenizer_noDot hs]

/-! ### The octets that are read -/

/-- One step reads the next token, when there is one. -/
theorem nextOctet_eq (ended : Bool) (s : Bytes) :
    (endedTokens ended s = [] ∧ nextOctet ended s = .error .undefined) ∨
      ∃ t ts s', endedTokens ended s = t :: ts ∧ endedTokens ended s' = ts ∧
        nextOctet ended s =
          .ok (if 255 < octvalOf t then none else some (octvalOf t), s') := by
  induction s with
  | nil =>
    refine Or.inl ⟨?_, ?_⟩
    · rw [endedTokens_noDot ended List.not_mem_nil]
      cases ended <;> rfl
    · unfold nextOctet
      cases ended <;> rfl
  | cons b s ih =>
    by_cases hb : b = 46
    · subst hb
      have hskip : endedTokens ended (46 :: s) = endedTokens ended s :=
        endedTokens_append_dot ended List.not_mem_nil s
      rw [hskip]
      exact ih
    · have hstart : (b :: s).dropWhile (· = 46) = b :: s :=
        List.dropWhile_cons_of_neg (by simpa using hb)
      have hread {t r : Bytes} (ht : 46 ∉ t) (hts : b :: s = t ++ r) (hne : t ≠ [])
          (hr : r = [] ∨ ∃ u, r = 46 :: u) (hend : ¬ (ended = false ∧ 46 ∉ b :: s)) :
          nextOctet ended (b :: s) =
            .ok (if 255 < octvalOf t then none else some (octvalOf t), r.tail) := by
        unfold nextOctet
        rw [hstart, if_neg hend, hts, strtokDot_eq hne (fun c hc h => ht (h ▸ hc)) hr]
        rfl
      by_cases hdot : 46 ∈ b :: s
      · obtain ⟨t, r, hsplit, ht⟩ := List.eq_append_cons_of_mem hdot
        have hne : t ≠ [] := by
          rintro rfl
          exact hb (List.cons.inj hsplit).1
        refine Or.inr ⟨t, endedTokens ended r, r, ?_, rfl, ?_⟩
        · have hkept : [t].filter (· ≠ []) = [t] := by simp [hne]
          rw [hsplit, endedTokens_append_dot ended ht, hkept, List.singleton_append]
        · exact hread ht hsplit hne (Or.inr ⟨r, rfl⟩) fun h => h.2 hdot
      · cases ended with
        | false =>
          refine Or.inl ⟨endedTokens_noDot false hdot, ?_⟩
          unfold nextOctet
          rw [hstart, if_pos ⟨rfl, hdot⟩]
        | true =>
          refine Or.inr ⟨b :: s, [], [], endedTokens_noDot true hdot, rfl, ?_⟩
          exact hread hdot (List.append_nil _).symm (List.cons_ne_nil _ _) (Or.inl rfl)
            fun h => Bool.noConfusion h.1

/-- The tokens that `ParseIP` reads one after the other. -/
def readOctets (ended : Bool) : ℕ → Bytes → Cxx (Option (List ℤ))
  | 0, _ => pure (some [])
  | n+1, s => do
    let (octet, s) ← nextOctet ended s
    match octet with
    | none => pure none
    | some a => do
      let rest ← readOctets ended n s
      pure (rest.map (a :: ·))

/-- A number that is too large ends the reading, a token that is missing is not seen. -/
theorem readOctets_eq (ended : Bool) (n : ℕ) (s : Bytes) : readOctets ended n s =
    if ∃ t ∈ (endedTokens ended s).take n, 255 < octvalOf t then .ok none
    else if (endedTokens ended s).length < n then .error .undefined
    else .ok (some (((endedTokens ended s).take n).map octvalOf)) := by
  induction n generalizing s with
  | zero =>
    rw [List.take_zero, if_neg (fun h => by obtain ⟨t, ht, -⟩ := h; cases ht),
      if_neg (Nat.not_lt_zero _)]
    rfl
  | succ n ih =>
    unfold readOctets
    rcases nextOctet_eq ended s with ⟨htokens, hstep⟩ | ⟨t, ts, s', htokens, hrest, hstep⟩
    · rw [hstep, htokens, error_bind, List.take_nil,
        if_neg (fun h => by obtain ⟨t, ht, -⟩ := h; cases ht), List.length_nil,
          if_pos (Nat.succ_pos n)]
    · rw [hstep, htokens, ok_bind, List.take_succ_cons, List.length_cons]
      dsimp only
      by_cases hlarge : 255 < octvalOf t
      · rw [if_pos hlarge, if_pos ⟨t, List.mem_cons_self, hlarge⟩]
        rfl
      · have hiff : (∃ u ∈ t :: ts.take n, 255 < octvalOf u) ↔
            ∃ u ∈ ts.take n, 255 < octvalOf u := by
          rw [List.exists_mem_cons_iff, or_iff_right hlarge]
        rw [if_neg hlarge]
        dsimp only
        rw [ih s', hrest, if_congr hiff rfl rfl]
        by_cases hsome : ∃ u ∈ ts.take n, 255 < octvalOf u
        · rw [if_pos hsome, if_pos hsome]
          rfl
        · rw [if_neg hsome, if_neg hsome]
          by_cases hshort : ts.length < n
          · rw [if_pos hshort, if_pos (Nat.succ_lt_succ hshort)]
            rfl
          · rw [if_neg hshort, if_neg fun h => hshort (Nat.lt_of_succ_lt_succ h)]
            rfl

/-- The four steps of `ParseIP`. -/
theorem parseIP_eq (pLine : Bytes) : IPAccess.parseIP pLine = (do
    let octets ← readOctets (decide (pLine.tail.length < 16)) 4 (pLine.tail.take 16)
    pure (octets.map fun o =>
      { type := if pLine.head? = some 43 then EntryType.inclusion else .exclusion,
        octant := ![o.getD 0 0, o.getD 1 0, o.getD 2 0, o.getD 3 0] })) := by
  unfold IPAccess.parseIP
  dsimp only
  generalize decide (pLine.tail.length < 16) = ended
  generalize pLine.tail.take 16 = s
  simp only [readOctets]
  rcases nextOctet ended s with e | ⟨_ | a, s⟩
  · rfl
  · rfl
  simp only [ok_bind]
  rcases nextOctet ended s with e | ⟨_ | b, s⟩
  · rfl
  · rfl
  simp only [ok_bind]
  rcases nextOctet ended s with e | ⟨_ | c, s⟩
  · rfl
  · rfl
  simp only [ok_bind]
  rcases nextOctet ended s with e | ⟨_ | d, s⟩
  · rfl
  · rfl
  rfl

/-! ### Rules -/

/-- Four fields between dots, each a star or a number up to 255. -/
structure RuleFields where
  part : Fin 4 → Bytes
  form : ∀ i, part i = bytes "*" ∨
    part i ≠ [] ∧ (∀ b ∈ part i, isDigit b = true) ∧ digitsVal (part i) ≤ 255

theorem length_tokenizer_le (s : Bytes) : (tokenizer (· = 46) s).length ≤ s.count 46+1 := by
  have hfirst {s : Bytes} (hs : 46 ∉ s) : (tokenizer (· = 46) s).length ≤ 1 := by
    rw [tokenizer_noDot hs]
    exact List.length_filter_le _ _
  induction hn : s.count 46 generalizing s with
  | zero => exact hfirst (List.count_eq_zero.mp hn)
  | succ n ih =>
    have hdot : 46 ∈ s := List.count_pos_iff.mp (by omega)
    obtain ⟨t, r, rfl, ht⟩ := List.eq_append_cons_of_mem hdot
    rw [List.count_append, List.count_cons_self] at hn
    rw [tokenizer_append_cons t r (decide_eq_true rfl), List.length_append]
    have htoken := hfirst ht
    have hrest := ih r (by rw [List.count_eq_zero.mpr ht] at hn; omega)
    omega

/-- In a text without a terminator the tokens are those in front of the last dot. -/
theorem endedTokens_false (s : Bytes) : endedTokens false s = [] ∨
    ∃ u v, s = u ++ 46 :: v ∧ endedTokens false s = tokenizer (· = 46) u := by
  by_cases hdot : 46 ∈ s
  · obtain ⟨v, u, hsplit, hv⟩ := List.eq_append_cons_of_mem (List.mem_reverse.mpr hdot)
    have hs : s = u.reverse ++ 46 :: v.reverse := by
      rw [← s.reverse_reverse, hsplit, List.reverse_append, List.reverse_cons, List.append_assoc,
        List.singleton_append]
    refine Or.inr ⟨u.reverse, v.reverse, hs, ?_⟩
    have hlast : 46 ∉ v.reverse := fun h => hv (List.mem_reverse.mp h)
    rw [endedTokens, if_neg Bool.false_ne_true, hs, rdropWhile_append_dot, rdropWhile_noDot hlast,
      tokenizer_append_cons _ _ (decide_eq_true rfl)]
    exact List.append_nil _
  · exact Or.inl (endedTokens_noDot false hdot)

theorem length_endedTokens_false_le (s : Bytes) :
    (endedTokens false s).length ≤ s.count 46 := by
  rcases endedTokens_false s with h | ⟨u, v, hs, h⟩
  · rw [h]
    exact Nat.zero_le _
  · have hlen := length_tokenizer_le u
    rw [h, hs, List.count_append, List.count_cons_self]
    omega

/-- The tokens that are copied are the first ones of the text. -/
theorem copiedTokens_start (s : Bytes) : copiedTokens s <+: tokenizer (· = 46) s := by
  unfold copiedTokens
  by_cases hlen : s.length < 16
  · rw [decide_eq_true hlen, List.take_of_length_le hlen.le]
    exact List.prefix_rfl
  · rw [decide_eq_false hlen]
    rcases endedTokens_false (s.take 16) with h | ⟨u, v, hs, h⟩
    · rw [h]
      exact List.nil_prefix
    · have hsplit : s = u ++ 46 :: (v ++ s.drop 16) := by
        rw [← List.cons_append, ← List.append_assoc, ← hs, List.take_append_drop]
      rw [h, hsplit, tokenizer_append_cons _ _ (decide_eq_true rfl)]
      exact List.prefix_append _ _

namespace RuleFields

variable (f : RuleFields)

theorem neZero_four : NeZero 4 := ⟨by decide⟩

attribute [local instance] neZero_four in
def text : Bytes :=
  f.part 0 ++ 46 :: (f.part 1 ++ 46 :: (f.part 2 ++ 46 :: f.part 3))

/-- The addresses that the fields stand for. -/
def Accepts (addr : Fin 4 → UInt8) : Prop :=
  ∀ i, f.part i = bytes "*" ∨ digitsVal (f.part i) = (addr i).toNat

theorem part_ne_nil (i : Fin 4) : f.part i ≠ [] := by
  rcases f.form i with h | h
  · rw [h]
    decide
  · exact h.1

theorem dot_notMem_part (i : Fin 4) : 46 ∉ f.part i := by
  intro hmem
  rcases f.form i with h | h
  · rw [h] at hmem
    exact absurd hmem (by decide)
  · exact absurd (h.2.1 46 hmem) (by decide)

theorem octvalOf_part_le (i : Fin 4) : octvalOf (f.part i) ≤ 255 := by
  unfold octvalOf
  split_ifs with hstar
  · decide
  · obtain ⟨-, hdigits, hvalue⟩ := (f.form i).resolve_left hstar
    have hmax : (digitsVal (f.part i) : ℤ) ≤ intMax := by
      unfold intMax
      omega
    rw [atoi_of_digits hdigits hmax]
    omega

theorem tokenizer_text :
    tokenizer (· = 46) f.text = [f.part 0, f.part 1, f.part 2, f.part 3] := by
  have hpart (i : Fin 4) : tokenizer (· = 46) (f.part i) = [f.part i] := by
    rw [tokenizer_noDot (f.dot_notMem_part i)]
    simp [f.part_ne_nil i]
  have hdot : (fun b : Byte => decide (b = 46)) 46 = true := decide_eq_true rfl
  unfold text
  rw [tokenizer_append_cons _ _ hdot, tokenizer_append_cons _ _ hdot,
    tokenizer_append_cons _ _ hdot, hpart, hpart, hpart, hpart]
  rfl

theorem count_text : f.text.count 46 = 3 := by
  have hpart (i : Fin 4) : (f.part i).count 46 = 0 :=
    List.count_eq_zero.mpr (f.dot_notMem_part i)
  simp only [text, List.count_append, List.count_cons_self, hpart]

/-- No number of a rule is too large. -/
theorem octvalOf_copied_le {t : Bytes} (ht : t ∈ copiedTokens f.text) : octvalOf t ≤ 255 := by
  have hmem := (copiedTokens_start f.text).subset ht
  rw [tokenizer_text] at hmem
  simp only [List.mem_cons, List.not_mem_nil, or_false] at hmem
  rcases hmem with rfl | rfl | rfl | rfl
  · exact f.octvalOf_part_le 0
  · exact f.octvalOf_part_le 1
  · exact f.octvalOf_part_le 2
  · exact f.octvalOf_part_le 3

/-- Of a rule that is not copied whole, the last number does not end. -/
theorem length_copied_lt (h : 16 ≤ f.text.length) : (copiedTokens f.text).length < 4 := by
  have hcopied := length_endedTokens_false_le (f.text.take 16)
  have hcount := (List.take_sublist 16 f.text).count_le 46
  rw [copiedTokens, decide_eq_false (not_lt.mpr h)]
  rw [count_text] at hcount
  omega

theorem part_form (i : Fin 4) :
    f.part i = bytes "*" ∨ f.part i ≠ [] ∧ ∀ b ∈ f.part i, isDigit b = true :=
  (f.form i).imp_right fun hi => ⟨hi.1, hi.2.1⟩

variable {f} in
theorem parts_fit (h : f.text.length ≤ 15) :
    (f.part 0).length+(f.part 1).length+(f.part 2).length+(f.part 3).length ≤ 12 := by
  simp only [text, List.length_append, List.length_cons] at h
  omega

/-- A rule that is copied whole, as an address of the configuration. -/
def pattern (h : f.text.length ≤ 15) : AddrPattern := ⟨f.part, f.part_form, parts_fit h⟩

theorem pattern_octants (h : f.text.length ≤ 15) :
    (f.pattern h).octants = some (f.pattern h).octval := by
  apply if_pos
  intro i
  unfold AddrPattern.octval
  split_ifs with hstar
  · decide
  · have hvalue := ((f.form i).resolve_left hstar).2.2
    change (digitsVal (f.part i) : ℤ) ≤ 255
    omega

theorem mem_text {b : Byte} (hb : b ∈ f.text) : isDigit b = true ∨ b = 42 ∨ b = 46 := by
  have hpart {i : Fin 4} (hi : b ∈ f.part i) : isDigit b = true ∨ b = 42 ∨ b = 46 := by
    rcases f.form i with h | h
    · rw [h] at hi
      exact Or.inr (Or.inl (List.mem_singleton.mp hi))
    · exact Or.inl (h.2.1 b hi)
  simp only [text, List.mem_append, List.mem_cons] at hb
  rcases hb with hb | hb | hb | hb | hb | hb | hb
  · exact hpart hb
  · exact Or.inr (Or.inr hb)
  · exact hpart hb
  · exact Or.inr (Or.inr hb)
  · exact hpart hb
  · exact Or.inr (Or.inr hb)
  · exact hpart hb

end RuleFields

/-- A sign and four fields. -/
def IsRule (s : Bytes) : Prop :=
  ∃ (sign : Byte) (f : RuleFields), (sign = 43 ∨ sign = 45) ∧ s = sign :: f.text

/-- One of the first four tokens is a number over 255. -/
def TooLarge (s : Bytes) : Prop := ∃ t ∈ (copiedTokens s).take 4, 255 < octvalOf t

namespace IPAccess

/-- A rule is added with the type of its sign, for the addresses that its fields stand for, and
nothing else is. -/
structure AddsExactly (x : IPAccess) (pIPAddr : Bytes) : Prop where
  accepted : ∀ (sign : Byte) (f : RuleFields), sign = 43 ∨ sign = 45 →
    cstr pIPAddr = sign :: f.text → ∃ pEntry,
      x.add pIPAddr = .ok (.ok, { rulelist := x.rulelist ++ [pEntry] }) ∧
      pEntry.type = (if sign = 43 then EntryType.inclusion else .exclusion) ∧
      ∀ (type : EntryType) (addr : Fin 4 → UInt8),
        pEntry.matches ⟨type, fun i => ((addr i).toNat : ℤ)⟩ = true ↔ f.Accepts addr
  refused : ¬ IsRule (cstr pIPAddr) → x.add pIPAddr = .ok (.ipparseFailed, x)

/-- The texts that are read in all their parts: they fit the line, and have no sign, are a rule that
is copied whole, or have a number that is refused. -/
def ReadWhole (line : Bytes) : Prop :=
  line.length < 255 ∧ (line.head? ≠ some 43 ∧ line.head? ≠ some 45 ∨
    IsRule line ∧ line.tail.length < 16 ∨ TooLarge line.tail)

variable (x : IPAccess) {pIPAddr : Bytes}

theorem add_long (h : 255 ≤ (cstr pIPAddr).length) : x.add pIPAddr = .error .undefined := by
  unfold add
  dsimp only
  rw [if_pos h]

theorem add_unsigned (hlen : (cstr pIPAddr).length < 255)
    (h : (cstr pIPAddr).head? ≠ some 43 ∧ (cstr pIPAddr).head? ≠ some 45) :
    x.add pIPAddr = .ok (.ipparseFailed, x) := by
  unfold add
  dsimp only
  rw [if_neg (not_le.mpr hlen), if_pos h]
  rfl

/-- What becomes of a line with a sign depends on its first four tokens. -/
theorem add_signed (hlen : (cstr pIPAddr).length < 255)
    (h : ¬ ((cstr pIPAddr).head? ≠ some 43 ∧ (cstr pIPAddr).head? ≠ some 45)) :
    TooLarge (cstr pIPAddr).tail ∧ x.add pIPAddr = .ok (.ipparseFailed, x) ∨
      ¬ TooLarge (cstr pIPAddr).tail ∧ (copiedTokens (cstr pIPAddr).tail).length < 4 ∧
        x.add pIPAddr = .error .undefined ∨
      ¬ TooLarge (cstr pIPAddr).tail ∧ 4 ≤ (copiedTokens (cstr pIPAddr).tail).length ∧
        ∃ pEntry, x.add pIPAddr = .ok (.ok, { rulelist := x.rulelist ++ [pEntry] }) := by
  have hread := readOctets_eq (decide ((cstr pIPAddr).tail.length < 16)) 4
    ((cstr pIPAddr).tail.take 16)
  unfold add
  dsimp only
  rw [if_neg (not_le.mpr hlen), if_neg h, parseIP_eq]
  by_cases hlarge : TooLarge (cstr pIPAddr).tail
  · refine Or.inl ⟨hlarge, ?_⟩
    rw [hread.trans (if_pos hlarge)]
    rfl
  · have hread := hread.trans (if_neg hlarge)
    by_cases hshort : (copiedTokens (cstr pIPAddr).tail).length < 4
    · refine Or.inr (Or.inl ⟨hlarge, hshort, ?_⟩)
      rw [hread.trans (if_pos hshort)]
      rfl
    · refine Or.inr (Or.inr ⟨hlarge, not_lt.mp hshort, ?_⟩)
      rw [hread.trans (if_neg hshort)]
      exact ⟨_, rfl⟩

/-- A rule that is copied whole is added. -/
theorem add_rule {sign : Byte} {f : RuleFields} (hsign : sign = 43 ∨ sign = 45)
    (hline : cstr pIPAddr = sign :: f.text) (h : f.text.length ≤ 15) :
    x.add pIPAddr = .ok (.ok, { rulelist := x.rulelist ++
      [⟨if sign = 43 then EntryType.inclusion else .exclusion, (f.pattern h).octval⟩] }) := by
  have hlen : ¬ 255 ≤ (sign :: f.text).length := by
    rw [List.length_cons]
    omega
  have hhead : ¬ ((sign :: f.text).head? ≠ some 43 ∧ (sign :: f.text).head? ≠ some 45) := by
    rw [List.head?_cons]
    rintro ⟨h43, h45⟩
    rcases hsign with rfl | rfl
    · exact h43 rfl
    · exact h45 rfl
  have hparse : parseIP (sign :: f.text) = _ := (f.pattern h).parseIP_text sign
  unfold add
  dsimp only
  rw [hline, if_neg hlen, if_neg hhead, hparse, f.pattern_octants h]
  rfl

/-- Exactly the texts that are read in all their parts are added or refused as they should be. -/
theorem addsExactly_iff (pIPAddr : Bytes) :
    x.AddsExactly pIPAddr ↔ ReadWhole (cstr pIPAddr) := by
  constructor
  · intro hadds
    have hanswer : ∃ r, x.add pIPAddr = .ok r := by
      by_cases hrule : IsRule (cstr pIPAddr)
      · obtain ⟨sign, f, hsign, hline⟩ := hrule
        obtain ⟨pEntry, hadd, -⟩ := hadds.accepted sign f hsign hline
        exact ⟨_, hadd⟩
      · exact ⟨_, hadds.refused hrule⟩
    obtain ⟨r, hanswer⟩ := hanswer
    have hlen : (cstr pIPAddr).length < 255 := by
      by_contra hlong
      rw [x.add_long (not_lt.mp hlong)] at hanswer
      cases hanswer
    refine ⟨hlen, or_iff_not_imp_left.mpr ?_⟩
    intro hhead
    rcases x.add_signed hlen hhead with ⟨hlarge, -⟩ | ⟨-, -, hadd⟩ | ⟨-, hfour, pEntry, hadd⟩
    · exact Or.inr hlarge
    · rw [hadd] at hanswer
      cases hanswer
    · refine Or.inl ?_
      have hrule : IsRule (cstr pIPAddr) := by
        by_contra hno
        rw [hadds.refused hno] at hadd
        cases hadd
      refine ⟨hrule, ?_⟩
      obtain ⟨sign, f, -, hline⟩ := hrule
      rw [hline, List.tail_cons] at hfour ⊢
      by_contra hlong
      exact absurd (f.length_copied_lt (not_lt.mp hlong)) (not_lt.mpr hfour)
  · rintro ⟨hlen, hread⟩
    have hlarge_not {sign : Byte} {f : RuleFields} (hline : cstr pIPAddr = sign :: f.text) :
        ¬ TooLarge (cstr pIPAddr).tail := by
      rw [hline, List.tail_cons]
      rintro ⟨t, ht, hlarge⟩
      exact absurd (f.octvalOf_copied_le (List.mem_of_mem_take ht)) (not_le.mpr hlarge)
    have hsigned {sign : Byte} {f : RuleFields} (hsign : sign = 43 ∨ sign = 45)
        (hline : cstr pIPAddr = sign :: f.text) :
        ¬ ((cstr pIPAddr).head? ≠ some 43 ∧ (cstr pIPAddr).head? ≠ some 45) := by
      rw [hline, List.head?_cons]
      rintro ⟨h43, h45⟩
      rcases hsign with rfl | rfl
      · exact h43 rfl
      · exact h45 rfl
    constructor
    · intro sign f hsign hline
      have hshort : f.text.length ≤ 15 := by
        rcases hread with hhead | ⟨-, hshort⟩ | hlarge
        · exact absurd hhead (hsigned hsign hline)
        · rw [hline, List.tail_cons] at hshort
          omega
        · exact absurd hlarge (hlarge_not hline)
      exact ⟨_, x.add_rule hsign hline hshort, rfl, fun type addr =>
        (f.pattern hshort).matches_iff _ type addr⟩
    · intro hno
      rcases hread with hhead | ⟨hrule, -⟩ | hlarge
      · exact x.add_unsigned hlen hhead
      · exact absurd hrule hno
      · by_cases hhead : (cstr pIPAddr).head? ≠ some 43 ∧ (cstr pIPAddr).head? ≠ some 45
        · exact x.add_unsigned hlen hhead
        · rcases x.add_signed hlen hhead with ⟨-, hadd⟩ | ⟨hnot, -⟩ | ⟨hnot, -⟩
          · exact hadd
          · exact absurd hlarge hnot
          · exact absurd hlarge hnot

/-! ### A letter -/

/-- A field that is no number is taken for the number 0. -/
theorem add_letter : ({} : IPAccess).add (bytes "+10.0.0.x") =
    .ok (.ok, { rulelist := [⟨.inclusion, ![10, 0, 0, 0]⟩] }) := by decide

theorem letter_not_refused : ¬ ({} : IPAccess).AddsExactly (bytes "+10.0.0.x") := by
  intro hadds
  have hno : ¬ IsRule (cstr (bytes "+10.0.0.x")) := by
    rintro ⟨sign, f, -, hline⟩
    have hline : bytes "10.0.0.x" = f.text := (List.cons.inj hline).2
    have hmem : (120 : Byte) ∈ f.text := by
      rw [← hline]
      decide
    exact absurd (f.mem_text hmem) (by decide)
  have hadd := hadds.refused hno
  rw [add_letter] at hadd
  cases hadd

end IPAccess
end MsgCourier
