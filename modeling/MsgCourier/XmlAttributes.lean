import MsgCourier.XmlCursor
import MsgCourier.XmlRounds

/-! Attributes as they are written in a tag, and what `Parse` reads of them. -/
namespace MsgCourier
open ListSearch CText

/-! ### The written tag -/

/-- Letters, digits, some punctuation and everything outside ASCII. -/
def isNameChar (c : Byte) : Bool :=
  isDigit c || (65 ≤ c && c ≤ 90) || (97 ≤ c && c ≤ 122) || c = 95 || c = 45 || c = 46 || c = 58 ||
    128 ≤ c

def IsName (t : Bytes) : Prop := t ≠ [] ∧ ∀ c ∈ t, isNameChar c

/-- A value between double quotes. Its apostrophes may stay as they are. -/
structure WrittenAttribute where
  separator : Byte
  name : String
  value : Bytes
  apostrophes : Bool := false
  separates : separator = 32 ∨ separator = 9
  named : IsName (bytes name)
  printable : ∀ c ∈ value, 32 ≤ c ∧ c ≠ 127

/-- An escaped value, with or without its apostrophes. -/
def escapedWith (apostrophes : Bool) (v : Bytes) : Bytes :=
  v.flatMap fun c => if apostrophes ∧ c = 39 then [c] else escapeChar c

namespace WrittenAttribute

variable (a : WrittenAttribute)

def key : Bytes := bytes a.name

def escapedValue : Bytes := escapedWith a.apostrophes a.value

def body : Bytes := a.key ++ 61 :: 34 :: (a.escapedValue ++ [34])

def text : Bytes := a.separator :: a.body

end WrittenAttribute

/-- An open tag, or an empty element. -/
structure WrittenTag where
  name : Bytes
  attributes : List WrittenAttribute
  empty : Bool := false
  named : IsName name

namespace WrittenTag

variable (g : WrittenTag)

def closing : Bytes := if g.empty then [47, 62] else [62]

def text : Bytes := 60 :: (g.name ++ (g.attributes.flatMap WrittenAttribute.text ++ g.closing))

end WrittenTag

/-! ### What is kept of a value -/

/-- A question mark outside quotes is left out, and every apostrophe turns the quotes over. -/
def keptValue (apostrophes : Bool) : Bool → Bytes → Bytes
  | _, [] => []
  | qoute, c :: v =>
    let qoute := if apostrophes ∧ c = 39 then ! qoute else qoute
    if qoute = false ∧ c = 63 then keptValue apostrophes qoute v
    else c :: keptValue apostrophes qoute v

theorem keptValue_sublist (apostrophes qoute : Bool) (v : Bytes) :
    (keptValue apostrophes qoute v).Sublist v := by
  induction v generalizing qoute with
  | nil => exact List.Sublist.slnil
  | cons c v ih =>
    unfold keptValue
    dsimp only
    generalize (if apostrophes ∧ c = 39 then ! qoute else qoute) = q
    split_ifs
    · exact (ih q).cons c
    · exact (ih q).cons_cons c

/-- The quotes behind a piece of a value. -/
def quoteAfter (apostrophes qoute : Bool) (u : Bytes) : Bool :=
  u.foldl (fun q c => if apostrophes ∧ c = 39 then ! q else q) qoute

theorem quoteAfter_iff (apostrophes qoute : Bool) (u : Bytes) :
    quoteAfter apostrophes qoute u = qoute ↔ (apostrophes = true → Even (u.count 39)) := by
  cases apostrophes with
  | false =>
    have hsame : quoteAfter false qoute u = qoute := by
      induction u with
      | nil => rfl
      | cons c u ih => exact ih
    exact iff_of_true hsame fun h => absurd h Bool.noConfusion
  | true =>
    have hcount : quoteAfter true qoute u = if Even (u.count 39) then qoute else ! qoute := by
      induction u generalizing qoute with
      | nil => exact (if_pos Even.zero).symm
      | cons c u ih =>
        change quoteAfter true (if true ∧ c = 39 then ! qoute else qoute) u = _
        rw [ih, List.count_cons]
        by_cases hc : c = 39
        · have hturn : (if true = true ∧ c = 39 then ! qoute else qoute) = ! qoute :=
            if_pos ⟨rfl, hc⟩
          have hone : (if (c == 39) = true then 1 else 0) = 1 := if_pos (by simpa using hc)
          rw [hturn, hone, Bool.not_not]
          by_cases heven : Even (u.count 39)
          · rw [if_pos heven, if_neg fun h => Nat.even_add_one.mp h heven]
          · rw [if_neg heven, if_pos (Nat.even_add_one.mpr heven)]
        · have hstay : (if true = true ∧ c = 39 then ! qoute else qoute) = qoute :=
            if_neg fun h => hc h.2
          have hzero : (if (c == 39) = true then 1 else 0) = 0 := if_neg (by simpa using hc)
          rw [hstay, hzero, Nat.add_zero]
    rw [hcount]
    by_cases heven : Even (u.count 39)
    · exact iff_of_true (if_pos heven) fun _ => heven
    · rw [if_neg heven]
      exact iff_of_false (by cases qoute <;> decide) fun h => heven (h rfl)

/-- Nothing is left out if and only if every question mark is inside the quotes. -/
theorem keptValue_eq_iff (apostrophes qoute : Bool) (v : Bytes) :
    keptValue apostrophes qoute v = v ↔
      ∀ u w, v = u ++ 63 :: w → quoteAfter apostrophes qoute u = true := by
  induction v generalizing qoute with
  | nil => exact iff_of_true rfl fun u w h => by cases u <;> cases h
  | cons c v ih =>
    unfold keptValue
    dsimp only
    by_cases hout : (if apostrophes ∧ c = 39 then ! qoute else qoute) = false ∧ c = 63
    · obtain ⟨hq, rfl⟩ := hout
      have hstay : (if apostrophes = true ∧ (63 : Byte) = 39 then ! qoute else qoute) = qoute :=
        if_neg fun h => absurd h.2 (by decide)
      rw [hstay] at hq ⊢
      subst hq
      refine iff_of_false (fun h => ?_) fun h => absurd (h [] v rfl) Bool.noConfusion
      have hlen := (keptValue_sublist apostrophes false v).length_le
      rw [if_pos ⟨rfl, rfl⟩] at h
      rw [h, List.length_cons] at hlen
      omega
    · rw [if_neg hout, List.cons_inj_right, ih]
      constructor
      · intro h u w hv
        cases u with
        | nil =>
          obtain ⟨rfl, rfl⟩ := List.cons.inj hv
          rw [if_neg fun h => absurd h.2 (by decide)] at hout
          by_contra hq
          exact hout ⟨Bool.eq_false_of_not_eq_true hq, rfl⟩
        | cons b u =>
          obtain ⟨rfl, rfl⟩ := List.cons.inj hv
          exact h u w rfl
      · rintro h u w rfl
        exact h (c :: u) w rfl

/-! ### Escaped values -/

theorem escapedWith_cons (apostrophes : Bool) (c : Byte) (v : Bytes) :
    escapedWith apostrophes (c :: v) =
      (if apostrophes ∧ c = 39 then [c] else escapeChar c) ++ escapedWith apostrophes v :=
  List.flatMap_cons

theorem decoded_escapedWith (apostrophes : Bool) (v : Bytes) :
    decoded (escapedWith apostrophes v) = v := by
  induction v with
  | nil => rfl
  | cons c v ih =>
    rw [escapedWith_cons]
    split_ifs with hc
    · rw [List.singleton_append, decoded_cons (findEntity_none (by rw [hc.2]; decide) _), ih]
    · rw [decoded_escapeChar, ih]

/-- Only a space is written with a space in front. -/
theorem afterSpace_escapedWith (apostrophes : Bool) (v : Bytes) :
    afterSpace (escapedWith apostrophes v) = escapedWith apostrophes (afterSpace v) := by
  cases v with
  | nil => rfl
  | cons c v =>
    by_cases hc : c = 32
    · subst hc
      rw [escapedWith_cons, if_neg fun h => absurd h.2 (by decide)]
      rfl
    · have hhead : ∃ b r, (if apostrophes ∧ c = 39 then [c] else escapeChar c) = b :: r ∧
        b ≠ 32 := by
        split_ifs
        · exact ⟨c, [], rfl, hc⟩
        · unfold escapeChar
          cases hfind : xmlEntities.find? (·.2 = c) with
          | none => exact ⟨c, [], rfl, hc⟩
          | some e =>
            obtain ⟨p, hp, -⟩ := xmlEntities_shape e (List.mem_of_find?_eq_some hfind)
            exact ⟨38, p, hp, by decide⟩
      obtain ⟨b, r, hb, hne⟩ := hhead
      unfold afterSpace
      rw [escapedWith_cons, hb, List.cons_append, List.headD_cons, List.headD_cons, if_neg hne,
        if_neg hc, escapedWith_cons, hb, List.cons_append]

theorem escapedWith_eq_nil_iff (apostrophes : Bool) (v : Bytes) :
    escapedWith apostrophes v = [] ↔ v = [] := by
  constructor
  · intro h
    rw [← decoded_escapedWith apostrophes v, h]
    rfl
  · rintro rfl
    rfl

/-! ### What is kept of a written attribute -/

theorem nameChar_ne {c d : Byte} (hc : isNameChar c) (hd : ¬ isNameChar d) : c ≠ d := by
  rintro rfl
  exact hd hc

/-- No quote sign, nothing that is stripped. -/
def IsPlain (c : Byte) : Prop := isQuote c = false ∧ ∀ q, isStripped q c = false

theorem isPlain_of_nameChar {c : Byte} (hc : isNameChar c) : IsPlain c := by
  have hne (d : Byte) (hd : ¬ isNameChar d) : decide (c = d) = false :=
    decide_eq_false (nameChar_ne hc hd)
  unfold IsPlain isQuote isStripped
  rw [hne 34 (by decide), hne 39 (by decide), hne 60 (by decide), hne 62 (by decide),
    hne 13 (by decide), hne 10 (by decide), hne 9 (by decide), hne 63 (by decide)]
  exact ⟨rfl, fun q => by cases q <;> rfl⟩

theorem keptChars_append {u : Bytes} (hu : ∀ c ∈ u, IsPlain c) (qoute : Bool) (v : Bytes) :
    keptChars qoute (u ++ v) = u ++ keptChars qoute v := by
  induction u with
  | nil => rfl
  | cons c u ih =>
    obtain ⟨hquote, hstripped⟩ := hu c List.mem_cons_self
    rw [List.cons_append, keptChars, hquote, hstripped, if_neg Bool.noConfusion,
      if_neg Bool.noConfusion, ih fun b hb => hu b (List.mem_cons_of_mem c hb), List.cons_append]

theorem isPlain_entity : ∀ e ∈ xmlEntities, ∀ c ∈ e.1, IsPlain c := by
  intro e he c hc
  have hall : ∀ e ∈ xmlEntities, ∀ c ∈ e.1, isQuote c = false ∧ isStripped false c = false ∧
      isStripped true c = false := by decide +kernel
  obtain ⟨hquote, hfalse, htrue⟩ := hall e he c hc
  refine ⟨hquote, fun q => ?_⟩
  cases q with
  | false => exact hfalse
  | true => exact htrue

theorem keptChars_escapedWith (apostrophes : Bool) (qoute : Bool) {v : Bytes}
    (hv : ∀ c ∈ v, 32 ≤ c ∧ c ≠ 127) (w : Bytes) :
    keptChars qoute (escapedWith apostrophes v ++ w) =
      escapedWith apostrophes (keptValue apostrophes qoute v) ++
        keptChars (quoteAfter apostrophes qoute v) w := by
  induction v generalizing qoute with
  | nil => rfl
  | cons c v ih =>
    have hih (q : Bool) := ih q fun b hb => hv b (List.mem_cons_of_mem c hb)
    have hafter : quoteAfter apostrophes qoute (c :: v) =
        quoteAfter apostrophes (if apostrophes ∧ c = 39 then ! qoute else qoute) v := rfl
    rw [hafter, escapedWith_cons, List.append_assoc]
    unfold keptValue
    dsimp only
    by_cases hapos : apostrophes = true ∧ c = 39
    · obtain ⟨rfl, rfl⟩ := hapos
      have hturn : (if true = true ∧ (39 : Byte) = 39 then ! qoute else qoute) = ! qoute :=
        if_pos ⟨rfl, rfl⟩
      rw [hturn, if_pos ⟨rfl, rfl⟩, if_neg fun h => absurd h.2 (by decide), escapedWith_cons,
        if_pos ⟨rfl, rfl⟩, List.singleton_append, List.singleton_append, List.cons_append, ← hih]
      cases qoute <;> rfl
    · have hstay : (if apostrophes = true ∧ c = 39 then ! qoute else qoute) = qoute :=
        if_neg hapos
      rw [hstay, if_neg hapos]
      cases hfind : xmlEntities.find? (·.2 = c) with
      | some e =>
        -- an entity is kept as it is
        have hmem := List.mem_of_find?_eq_some hfind
        have hchar : e.2 = c := by simpa using List.find?_some hfind
        have hall : ∀ e ∈ xmlEntities, e.2 ≠ 63 := by decide
        have hesc : escapeChar c = e.1 := by rw [escapeChar, hfind]; rfl
        rw [if_neg fun h => hall e hmem (hchar.trans h.2), escapedWith_cons, if_neg hapos, hesc,
          keptChars_append (isPlain_entity e hmem), hih, List.append_assoc]
      | none =>
        have hesc : escapeChar c = [c] := by rw [escapeChar, hfind]; rfl
        have hspecial : ∀ e ∈ xmlEntities, c ≠ e.2 := fun e he h => by
          have hno := List.find?_eq_none.mp hfind e he
          exact hno (decide_eq_true h.symm)
        obtain ⟨hlow, -⟩ := hv c List.mem_cons_self
        have hhigh (d : Byte) (hd : d < 32) : c ≠ d :=
          fun h => absurd (h ▸ hlow) (UInt8.not_le.mpr hd)
        have hquote : isQuote c = false := by
          unfold isQuote
          rw [decide_eq_false (hspecial (bytes "&quot;", 34) (by decide)),
            decide_eq_false (hspecial (bytes "&apos;", 39) (by decide))]
          rfl
        have hstripped : isStripped qoute c = (! qoute && c = 63) := by
          unfold isStripped
          rw [decide_eq_false (hspecial (bytes "&lt;", 60) (by decide)),
            decide_eq_false (hspecial (bytes "&gt;", 62) (by decide)),
            decide_eq_false (hhigh 13 (by decide)), decide_eq_false (hhigh 10 (by decide)),
            decide_eq_false (hhigh 9 (by decide))]
          rfl
        have hsame : (if false = true then ! qoute else qoute) = qoute := if_neg Bool.noConfusion
        rw [hesc, List.singleton_append, keptChars, hquote, hsame, hstripped]
        by_cases hout : qoute = false ∧ c = 63
        · obtain ⟨rfl, rfl⟩ := hout
          rw [if_pos (show (! false && decide ((63 : Byte) = 63)) = true by decide),
            if_pos ⟨rfl, rfl⟩, hih]
        · rw [if_neg hout, if_neg (by simpa using hout), escapedWith_cons, if_neg hapos, hesc, hih,
            List.singleton_append, List.cons_append]

theorem rdropWhile_append_cons {p : Byte → Bool} {b : Byte} (hb : p b = false) (u : Bytes)
    {w : Bytes} (hw : ∀ c ∈ w, p c = true) : (u ++ b :: w).rdropWhile p = u ++ [b] := by
  induction w using List.reverseRecOn with
  | nil => exact List.rdropWhile_concat_neg _ _ _ (by simp [hb])
  | append_singleton w c ih =>
    have hassoc : u ++ b :: (w ++ [c]) = (u ++ b :: w) ++ [c] := by simp
    rw [hassoc, List.rdropWhile_concat_pos _ _ _ (hw c (by simp)),
      ih fun a ha => hw a (List.mem_append_left _ ha)]

/-- The signs of a quoted text are taken out, with what follows the last one. -/
theorem unquoted_quoted {u w : Bytes} (hne : u ≠ []) (hu : ∀ c ∈ u, isQuote c = false)
    (hw : ∀ c ∈ w, isQuote c = false) (v : Bytes) :
    unquoted (u ++ 34 :: (v ++ 34 :: w)) = u ++ v := by
  have hpos (c : Byte) (hc : c ∈ u) : (! isQuote c) = true := by rw [hu c hc]; rfl
  have hdrop : (u ++ 34 :: (v ++ 34 :: w)).dropWhile (fun c => ! isQuote c) =
      34 :: (v ++ 34 :: w) := by
    rw [List.dropWhile_append_of_pos hpos]
    exact List.dropWhile_cons_of_neg (by decide)
  have htake : (u ++ 34 :: (v ++ 34 :: w)).takeWhile (fun c => ! isQuote c) = u := by
    rw [List.takeWhile_append_of_pos hpos, List.takeWhile_cons_of_neg (by decide), List.append_nil]
  unfold unquoted
  rw [hdrop, htake]
  dsimp only
  cases u with
  | nil => exact absurd rfl hne
  | cons c u =>
    have hlast : (u ++ v ++ 34 :: w).rdropWhile (fun c => ! isQuote c) = u ++ v ++ [34] :=
      rdropWhile_append_cons (by decide) _ fun a ha => by rw [hw a ha]; rfl
    have hassoc : (c :: u ++ (v ++ 34 :: w)).tail = u ++ v ++ 34 :: w := by simp
    have hlen : (u ++ v ++ [34]).length = (c :: u ++ v).length := by
      simp only [List.length_append, List.length_cons, List.length_nil]
      omega
    rw [hassoc, hlast, hlen, ← List.append_assoc, List.take_left]

/-- What follows an attribute: a separator or the end of its tag. -/
def Follows (w : Bytes) : Prop := w = [32] ∨ w = [9] ∨ w = [62] ∨ w = [47, 62]

/-- A space behind the quotes is cut off again, and a slash stays. -/
theorem Follows.kept {w : Bytes} (hw : Follows w) (qoute : Bool) : ∃ k k',
    keptChars qoute (34 :: w) = 34 :: k ∧
      (∀ u : Bytes, (u ++ 34 :: k).rdropWhile isBlank = u ++ 34 :: k') ∧
      ∀ c ∈ k', isQuote c = false := by
  have hblank (w : Bytes) (hw : ∀ c ∈ w, isBlank c = true) (u : Bytes) :
      (u ++ 34 :: w).rdropWhile isBlank = u ++ [34] := rdropWhile_append_cons (by decide) u hw
  rcases hw with rfl | rfl | rfl | rfl
  · exact ⟨[32], [], by cases qoute <;> rfl, hblank [32] (by decide +kernel), by decide +kernel⟩
  · exact ⟨[], [], by cases qoute <;> rfl, hblank [] (by decide +kernel), by decide +kernel⟩
  · exact ⟨[], [], by cases qoute <;> rfl, hblank [] (by decide +kernel), by decide +kernel⟩
  · refine ⟨[47], [47], by cases qoute <;> rfl, fun u => ?_, by decide +kernel⟩
    have hslash := rdropWhile_append_cons (p := isBlank) (b := 47) (by decide) (u ++ [34])
      (w := []) (by decide +kernel)
    simpa using hslash

namespace WrittenAttribute

variable (a : WrittenAttribute)

/-- The value that is kept, still escaped. -/
def givenValue : Bytes := escapedWith a.apostrophes (keptValue a.apostrophes true a.value)

theorem cleaned_text {w : Bytes} (hw : Follows w) :
    cleaned (a.text ++ w) = a.key ++ 61 :: a.givenValue := by
  have hkey (c : Byte) (hc : c ∈ a.key) : IsPlain c := isPlain_of_nameChar (a.named.2 c hc)
  obtain ⟨k, k', hk, hback, hquote⟩ := hw.kept (quoteAfter a.apostrophes true a.value)
  have hkept : keptChars false (a.key ++ 61 :: 34 :: (a.escapedValue ++ 34 :: w)) =
      a.key ++ 61 :: 34 :: (a.givenValue ++ 34 :: k) := by
    rw [keptChars_append hkey, ← hk]
    exact congrArg (a.key ++ 61 :: 34 :: ·)
      (keptChars_escapedWith a.apostrophes true a.printable (34 :: w))
  -- a separator in front of the name is taken away, whichever it is
  have hfront : (keptChars false (a.text ++ w)).dropWhile isBlank =
      (keptChars false (a.key ++ 61 :: 34 :: (a.escapedValue ++ 34 :: w))).dropWhile isBlank := by
    have htext : a.text ++ w =
        a.separator :: (a.key ++ 61 :: 34 :: (a.escapedValue ++ 34 :: w)) := by
      unfold text body
      simp
    rw [htext]
    rcases a.separates with h | h
    · rw [h]
      rfl
    · rw [h]
      rfl
  unfold cleaned
  rw [hfront, hkept]
  cases hname : a.key with
  | nil => exact absurd hname a.named.1
  | cons c u =>
    have hin : c ∈ a.key := by
      rw [hname]
      exact List.mem_cons_self
    have hc : isBlank c = false := decide_eq_false (nameChar_ne (a.named.2 c hin) (by decide))
    have hassoc : u ++ 61 :: 34 :: (a.givenValue ++ 34 :: k) =
        (u ++ 61 :: 34 :: a.givenValue) ++ 34 :: k := by simp
    rw [List.cons_append, List.dropWhile_cons_of_neg (by rw [hc]; exact Bool.noConfusion)]
    unfold trimmedEnd
    dsimp only
    rw [hassoc, hback]
    have hwhole : c :: (u ++ 61 :: 34 :: a.givenValue ++ 34 :: k') =
        (c :: u ++ [61]) ++ 34 :: (a.givenValue ++ 34 :: k') := by simp
    rw [hwhole, unquoted_quoted (by simp) (fun b hb => ?_) hquote]
    · simp
    · rcases List.mem_append.mp hb with hb | hb
      · exact (hkey b (hname ▸ hb)).1
      · rw [List.mem_singleton.mp hb]
        rfl

/-- The value is not empty, it does not start with a space, and each question mark is behind an even
number of apostrophes that stay as they are. -/
structure Kept (a : WrittenAttribute) : Prop where
  nonempty : a.value ≠ []
  space : a.value.head? ≠ some 32
  question : a.apostrophes = true → ∀ u w, a.value = u ++ 63 :: w → Even (u.count 39)

theorem kept_iff : (afterSpace a.givenValue ≠ [] ∧ decoded (afterSpace a.givenValue) = a.value) ↔
    a.Kept := by
  have hquestion : keptValue a.apostrophes true a.value = a.value ↔
      (a.apostrophes = true → ∀ u w, a.value = u ++ 63 :: w → Even (u.count 39)) := by
    rw [keptValue_eq_iff]
    constructor
    · exact fun h hapos u w hv => (quoteAfter_iff _ _ _).mp (h u w hv) hapos
    · exact fun h u w hv => (quoteAfter_iff _ _ _).mpr fun hapos => h hapos u w hv
  unfold givenValue
  rw [afterSpace_escapedWith, decoded_escapedWith, Ne, escapedWith_eq_nil_iff]
  constructor
  · rintro ⟨hne, hvalue⟩
    have hsub := afterSpace_sublist (keptValue a.apostrophes true a.value)
    -- both steps leave something out or nothing
    have hkept : keptValue a.apostrophes true a.value = a.value := by
      refine (keptValue_sublist _ _ _).eq_of_length_le ?_
      rw [hvalue] at hsub
      exact hsub.length_le
    rw [hkept] at hne hvalue
    rw [hvalue] at hne
    refine ⟨hne, fun hspace => ?_, hquestion.mp hkept⟩
    cases hv : a.value with
    | nil => exact hne hv
    | cons c v =>
      rw [hv] at hspace hvalue
      obtain rfl := Option.some.inj hspace
      have hlen := congrArg List.length hvalue
      change v.length = (32 :: v).length at hlen
      rw [List.length_cons] at hlen
      omega
  · intro h
    rw [hquestion.mpr h.question]
    have hsame : afterSpace a.value = a.value := by
      unfold afterSpace
      rw [if_neg]
      intro hhead
      cases hv : a.value with
      | nil => exact h.nonempty hv
      | cons c v =>
        rw [hv] at hhead
        exact h.space (by rw [hv]; exact congrArg some hhead)
    rw [hsame]
    exact ⟨h.nonempty, rfl⟩

end WrittenAttribute

end MsgCourier
