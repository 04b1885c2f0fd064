import MsgCourier.TextBlock
import Mathlib.Data.List.DropRight

/-! The text helpers of `cXMLLiteParser`. Each works in place on a block of memory; on the text
that the block holds it is a function of the text alone. -/
namespace MsgCourier
open ListSearch CText

/-! ### The helpers -/

def isQuote (c : Byte) : Bool := c = 34 || c = 39

/-- Markup, CR, LF and tabs; a question mark outside quotes. -/
def isStripped (qoute : Bool) (c : Byte) : Bool :=
  c = 60 || c = 62 || c = 13 || c = 10 || c = 9 || (! qoute && c = 63)

/-- The loop of `StripChars` from index `i` on, with the length read again for every byte. -/
def stripCharsLoop : ℕ → Bytes → ℕ → ℕ → Bool → Cxx (Bytes × ℕ)
  | 0, _, _, _, _ => .error .undefined
  | fuel+1, pBuffer, i, k, qoute => do
    let n ← strlen pBuffer
    if (i : ℤ) < n+1 then do
      let c ← peek pBuffer i
      let qoute := if isQuote c then ! qoute else qoute
      if isStripped qoute c then stripCharsLoop fuel pBuffer (i+1) k qoute
      else do
        let pBuffer ← poke pBuffer k c
        stripCharsLoop fuel pBuffer (i+1) (k+1) qoute
    else pure (pBuffer, k)

/-- The terminator is one of the bytes copied, and another one is written behind it. -/
def stripChars (pBuffer : Bytes) : Cxx Bytes := do
  let (pBuffer, k) ← stripCharsLoop (pBuffer.length+1) pBuffer 0 0 false
  poke pBuffer k 0

/-- The common body of `StripLeadingSpaces` and `StripLeading`. -/
def stripFront (p : Byte → Bool) (pBuffer : Bytes) : Cxx Bytes := do
  let iLength ← strlen pBuffer
  let k ← scanWhile p pBuffer iLength.toNat 0
  let pBuffer ← memmove pBuffer 0 k (iLength.toNat-k)
  poke pBuffer (iLength.toNat-k) 0

/-- The common body of `StripTrailingSpaces` and `StripTrailing`, which keep the first byte. -/
def stripBack (p : Byte → Bool) (pBuffer : Bytes) : Cxx Bytes := do
  let iLength ← strlen pBuffer
  trimWhile p (iLength.toNat-1) pBuffer

def isBlank (c : Byte) : Bool := c = 32
def isWhite (c : Byte) : Bool := c = 32 || c = 10 || c = 13 || c = 9

def stripLeadingSpaces : Bytes → Cxx Bytes := stripFront isBlank
def stripLeading : Bytes → Cxx Bytes := stripFront isWhite
def stripTrailingSpaces : Bytes → Cxx Bytes := stripBack isBlank
def stripTrailing : Bytes → Cxx Bytes := stripBack isWhite

def stripBeginningAndEndingQoutes (pBuffer : Bytes) : Cxx Bytes := do
  let iLength ← strlen pBuffer
  let i ← scanWhile (fun c => ! isQuote c) pBuffer iLength.toNat 0
  if i = iLength then pure pBuffer
  else do
    let pBuffer ← memmove pBuffer i (i+1) (iLength.toNat-i)
    let iLength ← strlen pBuffer
    let i ← lastWhere isQuote pBuffer iLength.toNat
    let pBuffer ← memmove pBuffer i (i+1) (iLength.toNat-i)
    poke pBuffer i 0

def cleanInput (pBuffer : Bytes) : Cxx Bytes := do
  let pBuffer ← stripChars pBuffer
  let c ← peek pBuffer 0
  if c = 0 then pure pBuffer
  else do
    let pBuffer ← stripLeadingSpaces pBuffer
    let c ← peek pBuffer 0
    if c = 0 then pure pBuffer
    else do
      let pBuffer ← stripTrailingSpaces pBuffer
      let c ← peek pBuffer 0
      if c = 0 then pure pBuffer else stripBeginningAndEndingQoutes pBuffer

def terminateAtChar (pBuffer : Bytes) (ch : Byte) : Cxx Bytes := do
  let iLength ← strlen pBuffer
  let i ← scanWhile (· ≠ ch) pBuffer iLength.toNat 0
  if i < iLength then poke pBuffer i 0 else pure pBuffer

/-! ### What they do to the text -/

/-- The bytes that `StripChars` keeps. -/
def keptChars : Bool → Bytes → Bytes
  | _, [] => []
  | qoute, c :: t =>
    let qoute := if isQuote c then ! qoute else qoute
    if isStripped qoute c then keptChars qoute t else c :: keptChars qoute t

/-- The first quote is taken out, and the text ends before the last one of the others. Without
another one nothing is left. -/
def unquoted (t : Bytes) : Bytes :=
  match t.dropWhile (fun c => ! isQuote c) with
  | [] => t
  | _ :: v =>
    let u := t.takeWhile (fun c => ! isQuote c) ++ v
    u.take (u.tail.rdropWhile fun c => ! isQuote c).length

def cleaned (t : Bytes) : Bytes :=
  unquoted (trimmedEnd isBlank ((keptChars false t).dropWhile isBlank))

theorem keptChars_sublist (qoute : Bool) (t : Bytes) : (keptChars qoute t).Sublist t := by
  induction t generalizing qoute with
  | nil => exact List.Sublist.slnil
  | cons c t ih =>
    unfold keptChars
    dsimp only
    generalize (if isQuote c then ! qoute else qoute) = q
    by_cases hc : isStripped q c = true
    · rw [if_pos hc]
      exact (ih q).cons c
    · rw [if_neg hc]
      exact (ih q).cons_cons c

/-- A byte that is kept closes the gap from its left end. -/
theorem poke_gap (w g : Bytes) (c : Byte) (r : Bytes) :
    poke (w ++ (g ++ c :: r)) w.length c = .ok ((w ++ [c]) ++ ((g ++ [c]).tail ++ r)) := by
  cases g with
  | nil =>
    rw [List.nil_append, poke_append]
    simp
  | cons b g =>
    rw [List.cons_append, poke_append]
    simp

theorem length_gap (g : Bytes) (c : Byte) : (g ++ [c]).tail.length = g.length := by simp

theorem mem_gap {g : Bytes} {c a : Byte} (h : a ∈ (g ++ [c]).tail) : a ∈ g ∨ a = c := by
  have hin := List.mem_of_mem_tail h
  simpa using hin

/-- The loop behind `w` bytes that are kept, with the gap `g` up to the next byte to read. -/
theorem stripCharsLoop_eq {w g r : Bytes} (junk : Bytes) (h0 : 0 ∉ w ++ (g ++ r)) (qoute : Bool)
    {fuel : ℕ}
    (hfuel : r.length+2 ≤ fuel) : ∃ junk',
      (w ++ (g ++ (r ++ 0 :: junk))).length = (w ++ keptChars qoute r ++ 0 :: junk').length ∧
      stripCharsLoop fuel (w ++ (g ++ (r ++ 0 :: junk))) (w.length+g.length) w.length qoute =
        .ok (w ++ keptChars qoute r ++ 0 :: junk', w.length+(keptChars qoute r).length+1) := by
  induction r generalizing w g qoute fuel with
  | nil =>
    obtain ⟨fuel, rfl⟩ := Nat.exists_eq_add_of_le' hfuel
    rw [List.append_nil] at h0
    have hblock : TextBlock (w ++ (g ++ ([] ++ 0 :: junk))) (w ++ g) := by
      rw [List.nil_append, ← List.append_assoc]
      exact .mk _ _ h0
    have hpeek : peek (w ++ (g ++ ([] ++ 0 :: junk))) ((w.length+g.length : ℕ) : ℤ) = .ok 0 := by
      simpa using peek_append (w ++ g) 0 junk
    have hpoke := poke_gap w g 0 junk
    -- the terminator is copied, and the text has the length of what is kept
    have hshort : TextBlock ((w ++ [0]) ++ ((g ++ [0]).tail ++ junk)) w := by
      rw [List.append_assoc, List.singleton_append]
      exact .mk _ _ fun hin => h0 (List.mem_append_left _ hin)
    refine ⟨(g ++ [0]).tail ++ junk, ?_, ?_⟩
    · simp only [keptChars, List.length_append, List.length_cons, List.length_nil, length_gap]
      omega
    · rw [show fuel+([].length+2) = (fuel+1)+1 from rfl, stripCharsLoop, hblock.strlen_eq, ok_bind,
        if_pos (by rw [List.length_append]; omega), hpeek, ok_bind]
      dsimp only
      rw [if_neg (show ¬ isQuote 0 = true by decide),
        if_neg (show ¬ isStripped qoute 0 = true by cases qoute <;> decide),
        List.nil_append, hpoke, ok_bind, stripCharsLoop, hshort.strlen_eq, ok_bind,
        if_neg (by omega)]
      simp [keptChars, pure_eq_ok]
  | cons c r ih =>
    obtain ⟨fuel, rfl⟩ := Nat.exists_eq_add_of_le' hfuel
    have hblock : TextBlock (w ++ (g ++ (c :: r ++ 0 :: junk))) (w ++ (g ++ c :: r)) := by
      have hmk := TextBlock.mk _ junk h0
      simpa only [List.append_assoc] using hmk
    have hpeek : peek (w ++ (g ++ (c :: r ++ 0 :: junk))) ((w.length+g.length : ℕ) : ℤ) =
        .ok c := by
      simpa using peek_append (w ++ g) c (r ++ 0 :: junk)
    have hpoke := poke_gap w g c (r ++ 0 :: junk)
    rw [show fuel+((c :: r).length+2) = (fuel+(r.length+2))+1 from rfl, stripCharsLoop,
      hblock.strlen_eq, ok_bind,
      if_pos (by simp only [List.length_append, List.length_cons]; omega), hpeek, ok_bind]
    dsimp only
    unfold keptChars
    dsimp only
    generalize (if isQuote c then ! qoute else qoute) = q
    by_cases hc : isStripped q c = true
    · -- the gap grows by the byte that is left out
      have h0' : 0 ∉ w ++ ((g ++ [c]) ++ r) := by simpa using h0
      obtain ⟨junk', hlen, hloop⟩ := ih h0' q
        (show r.length+2 ≤ fuel+(r.length+2) by omega)
      rw [if_pos hc, if_pos hc]
      refine ⟨junk', ?_, ?_⟩
      · simpa using hlen
      · simpa [add_assoc] using hloop
    · have h0' : 0 ∉ (w ++ [c]) ++ ((g ++ [c]).tail ++ r) := by
        intro hin
        apply h0
        simp only [List.mem_append, List.mem_cons, List.not_mem_nil, or_false] at hin ⊢
        rcases hin with (h | h) | h | h
        · exact Or.inl h
        · exact Or.inr (Or.inr (Or.inl h))
        · rcases mem_gap h with h | h
          · exact Or.inr (Or.inl h)
          · exact Or.inr (Or.inr (Or.inl h))
        · exact Or.inr (Or.inr (Or.inr h))
      obtain ⟨junk', hlen, hloop⟩ := ih h0' q
        (show r.length+2 ≤ fuel+(r.length+2) by omega)
      rw [if_neg hc, if_neg hc, List.cons_append, hpoke, ok_bind]
      refine ⟨junk', ?_, ?_⟩
      · simp only [List.length_append, List.length_cons, List.length_nil, length_gap] at hlen ⊢
        omega
      · rw [length_gap, List.length_append, List.length_singleton, add_right_comm] at hloop
        rw [hloop, List.length_cons]
        simp [add_comm, add_left_comm]

/-- The block needs a byte behind the terminator of what is kept. -/
theorem stripChars_eq {mem t : Bytes} (h : TextBlock mem t) :
    if (keptChars false t).length+1 < mem.length then
      ∃ mem', stripChars mem = .ok mem' ∧ mem'.length = mem.length ∧
        TextBlock mem' (keptChars false t)
    else stripChars mem = .error .undefined := by
  cases h with
  | mk _ junk h0 =>
    have h0' : 0 ∉ [] ++ ([] ++ t) := by simpa using h0
    obtain ⟨junk', hlen, hloop⟩ := stripCharsLoop_eq junk h0' false
      (show t.length+2 ≤ (t ++ 0 :: junk).length+1 by simp)
    rw [List.nil_append, List.nil_append, List.nil_append, List.length_nil, Nat.zero_add] at hloop
    rw [List.nil_append, List.nil_append, List.nil_append] at hlen
    have hkept : 0 ∉ keptChars false t := fun hin => h0 ((keptChars_sublist false t).subset hin)
    unfold stripChars
    rw [hloop, ok_bind]
    dsimp only
    rw [hlen, Nat.zero_add]
    cases junk' with
    | nil =>
      rw [if_neg (by simp)]
      exact poke_fail _ (by simp)
    | cons b junk' =>
      rw [if_pos (by simp)]
      have hpoke := poke_append (keptChars false t ++ [0]) b junk' 0
      rw [List.append_assoc, List.singleton_append, List.length_append, List.length_singleton]
        at hpoke
      refine ⟨_, hpoke, by simp, ?_⟩
      rw [List.append_assoc, List.singleton_append]
      exact .mk _ _ hkept

section
variable {mem t : Bytes} (p : Byte → Bool)

theorem stripFront_eq (h : TextBlock mem t) : ∃ mem', stripFront p mem = .ok mem' ∧
    mem'.length = mem.length ∧ TextBlock mem' (t.dropWhile p) := by
  have hle : (t.takeWhile p).length ≤ t.length := (List.takeWhile_prefix p).length_le
  obtain ⟨moved, mem', hmove, hpoke, hlen, htext⟩ := h.shift hle
  have hdrop : t.drop (t.takeWhile p).length = t.dropWhile p := by
    calc
      t.drop (t.takeWhile p).length =
          (t.takeWhile p ++ t.dropWhile p).drop (t.takeWhile p).length := by
        rw [List.takeWhile_append_dropWhile]
      _ = t.dropWhile p := List.drop_left
  rw [hdrop] at htext
  refine ⟨mem', ?_, hlen, htext⟩
  unfold stripFront
  rw [h.strlen_eq, ok_bind, Int.toNat_natCast, h.scanWhile_eq, ok_bind, hmove, ok_bind, hpoke]

theorem stripBack_eq (h : TextBlock mem t) : ∃ mem', stripBack p mem = .ok mem' ∧
    mem'.length = mem.length ∧ TextBlock mem' (trimmedEnd p t) := by
  unfold stripBack
  rw [h.strlen_eq, ok_bind]
  exact h.trimWhile_eq p

theorem stripBeginningAndEndingQoutes_eq (h : TextBlock mem t) : ∃ mem',
    stripBeginningAndEndingQoutes mem = .ok mem' ∧ mem'.length = mem.length ∧
      TextBlock mem' (unquoted t) := by
  have hsplit := List.takeWhile_append_dropWhile (p := fun c => ! isQuote c) (l := t)
  unfold stripBeginningAndEndingQoutes
  rw [h.strlen_eq, ok_bind, Int.toNat_natCast, h.scanWhile_eq, ok_bind]
  unfold unquoted
  generalize t.takeWhile (fun c => ! isQuote c) = u at *
  cases hq : t.dropWhile (fun c => ! isQuote c) with
  | nil =>
    rw [hq, List.append_nil] at hsplit
    rw [if_pos (by rw [hsplit])]
    exact ⟨mem, rfl, rfl, h⟩
  | cons q v =>
    rw [hq] at hsplit
    have hne : ((u.length : ℕ) : ℤ) ≠ t.length := by
      rw [← hsplit, List.length_append, List.length_cons]
      omega
    rw [← hsplit] at h
    obtain ⟨mem₁, hmove₁, hlen₁, htext₁⟩ := h.take_out
    rw [hsplit] at hmove₁
    -- the text without its first quote is searched from the end
    have hlast : lastWhere isQuote mem₁ (u ++ v).length =
        .ok ((u ++ v).tail.rdropWhile fun c => ! isQuote c).length := by
      cases htext₁ with
      | mk _ junk _ =>
        cases u ++ v with
        | nil => rfl
        | cons a w =>
          have hlast := lastWhere_append isQuote a (w ++ [0]) junk
          rw [List.rdropWhile_concat_pos _ w 0 (by decide), List.length_append,
            List.length_singleton] at hlast
          simpa using hlast
    have hle : ((u ++ v).tail.rdropWhile fun c => ! isQuote c).length ≤ (u ++ v).length :=
      (List.rdropWhile_prefix _ _).length_le.trans (by simp)
    obtain ⟨moved, mem', hmove, hpoke, hlen, htext⟩ := htext₁.move_cut hle
    refine ⟨mem', ?_, hlen.trans hlen₁, htext⟩
    rw [if_neg hne, hmove₁, ok_bind, htext₁.strlen_eq, ok_bind, Int.toNat_natCast, hlast, ok_bind,
      hmove, ok_bind, hpoke]

theorem terminateAtChar_eq (h : TextBlock mem t) (ch : Byte) : ∃ mem',
    terminateAtChar mem ch = .ok mem' ∧ mem'.length = mem.length ∧
      TextBlock mem' (t.takeWhile (· ≠ ch)) := by
  have hstart := List.takeWhile_prefix (l := t) (· ≠ ch)
  have htake := List.prefix_iff_eq_take.mp hstart
  unfold terminateAtChar
  rw [h.strlen_eq, ok_bind, Int.toNat_natCast, h.scanWhile_eq, ok_bind]
  by_cases hlt : (t.takeWhile (· ≠ ch)).length < t.length
  · obtain ⟨mem', hpoke, hlen, htext⟩ := h.poke_zero hstart.length_le
    rw [← htake] at htext
    rw [if_pos (by exact_mod_cast hlt)]
    exact ⟨mem', hpoke, hlen, htext⟩
  · rw [if_neg (by exact_mod_cast hlt)]
    rw [hstart.eq_of_length_le (by omega)]
    exact ⟨mem, rfl, rfl, h⟩

end

theorem nil_of_headD_eq_zero {t : Bytes} (h0 : 0 ∉ t) (h : t.headD 0 = 0) : t = [] := by
  cases t with
  | nil => rfl
  | cons a t => exact absurd (h ▸ List.mem_cons_self) h0

/-- Whether the copy of a text is cleaned is a matter of the room behind what is kept. -/
theorem cleanInput_eq {mem t : Bytes} (h : TextBlock mem t) :
    if (keptChars false t).length+1 < mem.length then
      ∃ mem', cleanInput mem = .ok mem' ∧ mem'.length = mem.length ∧ TextBlock mem' (cleaned t)
    else cleanInput mem = .error .undefined := by
  have hstrip := stripChars_eq h
  unfold cleanInput cleaned
  split_ifs at hstrip ⊢ with hroom
  · obtain ⟨mem₁, hstrip, hlen₁, htext₁⟩ := hstrip
    rw [hstrip, ok_bind, htext₁.peek_zero, ok_bind]
    by_cases hnil : (keptChars false t).headD 0 = 0
    · have hempty := nil_of_headD_eq_zero htext₁.zero_notMem hnil
      rw [if_pos hnil]
      rw [hempty] at htext₁ ⊢
      exact ⟨mem₁, rfl, hlen₁, htext₁⟩
    · obtain ⟨mem₂, hfront, hlen₂, htext₂⟩ := stripFront_eq isBlank htext₁
      rw [if_neg hnil, stripLeadingSpaces, hfront, ok_bind, htext₂.peek_zero, ok_bind]
      by_cases hnil₂ : ((keptChars false t).dropWhile isBlank).headD 0 = 0
      · have hempty := nil_of_headD_eq_zero htext₂.zero_notMem hnil₂
        rw [if_pos hnil₂]
        rw [hempty] at htext₂ ⊢
        exact ⟨mem₂, rfl, hlen₂.trans hlen₁, htext₂⟩
      · obtain ⟨mem₃, hback, hlen₃, htext₃⟩ := stripBack_eq isBlank htext₂
        rw [if_neg hnil₂, stripTrailingSpaces, hback, ok_bind, htext₃.peek_zero, ok_bind]
        -- the first byte is not a space, so the text is not empty now
        have hne : (trimmedEnd isBlank ((keptChars false t).dropWhile isBlank)).headD 0 ≠ 0 := by
          cases hv : (keptChars false t).dropWhile isBlank with
          | nil => rw [hv] at hnil₂; exact absurd rfl hnil₂
          | cons a v => rw [hv] at hnil₂; exact hnil₂
        obtain ⟨mem₄, hquote, hlen₄, htext₄⟩ := stripBeginningAndEndingQoutes_eq htext₃
        rw [if_neg hne]
        exact ⟨mem₄, hquote, ((hlen₄.trans hlen₃).trans hlen₂).trans hlen₁, htext₄⟩
  · rw [hstrip, error_bind]

/-! ### Entities -/

def xmlEntities : List (Bytes × Byte) :=
  [(bytes "&lt;", 60), (bytes "&gt;", 62), (bytes "&apos;", 39), (bytes "&amp;", 38),
    (bytes "&quot;", 34)]

/-- The branch that `strncmp` takes. -/
def findEntity (t : Bytes) : Option (Bytes × Byte) :=
  xmlEntities.find? fun e => e.1 <+: t

/-- The loop, with `pLoc` as an index into the block or null. The length is an `int`, and a negative
one asks `memmove` for more bytes than there are. -/
def transformLoop : ℕ → Bytes → ℤ → Option ℕ → Cxx Bytes
  | 0, _, _, _ => .error .undefined
  | fuel+1, pBuffer, len, pLoc =>
    if 0 < len then
      match pLoc with
      | none => pure pBuffer
      | some pIdx => do
        match ← strstrAt pBuffer pIdx [38] with
        | none => transformLoop fuel pBuffer (len-1) none
        | some k =>
          match findEntity (cstr (pBuffer.drop (pIdx+k))) with
          | some (pattern, ch) => do
            let pBuffer ← poke pBuffer (pIdx+k) ch
            let n ← strlen (pBuffer.drop (pIdx+k))
            let len := int32 (n-(pattern.length-1))
            if len < 0 then .error .undefined
            else do
              let pBuffer ← memmove pBuffer (pIdx+k+1) (pIdx+k+pattern.length) len.toNat
              transformLoop fuel pBuffer len (some (pIdx+k+1))
          | none => transformLoop fuel pBuffer (len-1) (some (pIdx+k+1))
    else pure pBuffer

def transformXMLEntities (pBuffer : Bytes) : Cxx Bytes := do
  let n ← strlen pBuffer
  transformLoop (n.toNat+2) pBuffer (int32 n) (some 0)

/-- The decoding of a text of which the first `n` bytes belong to an entity already read. -/
def decodeFrom : ℕ → Bytes → Bytes
  | _, [] => []
  | n+1, _ :: t => decodeFrom n t
  | 0, c :: t =>
    match findEntity (c :: t) with
    | some (pattern, ch) => ch :: decodeFrom (pattern.length-1) t
    | none => c :: decodeFrom 0 t

def decoded (t : Bytes) : Bytes := decodeFrom 0 t

theorem decodeFrom_eq_drop (n : ℕ) (t : Bytes) : decodeFrom n t = decoded (t.drop n) := by
  induction n generalizing t with
  | zero => rfl
  | succ n ih =>
    cases t with
    | nil => rfl
    | cons c t => exact ih t

theorem mem_xmlEntities {t : Bytes} {e : Bytes × Byte} (h : findEntity t = some e) :
    e ∈ xmlEntities ∧ e.1 <+: t := by
  refine ⟨List.mem_of_find?_eq_some h, ?_⟩
  simpa using List.find?_some h

/-- Every entity begins with an ampersand and stands for a byte of text. -/
theorem xmlEntities_shape : ∀ e ∈ xmlEntities, ∃ p, e.1 = 38 :: p ∧ e.2 ≠ 0 := by
  intro e he
  simp only [xmlEntities, List.mem_cons, List.not_mem_nil, or_false] at he
  rcases he with rfl | rfl | rfl | rfl | rfl
  all_goals exact ⟨_, rfl, by decide⟩

theorem findEntity_none {c : Byte} (hc : c ≠ 38) (t : Bytes) : findEntity (c :: t) = none := by
  rw [findEntity, List.find?_eq_none]
  intro e he hstart
  obtain ⟨p, hp, -⟩ := xmlEntities_shape e he
  rw [decide_eq_true_iff, hp] at hstart
  exact hc (List.cons_prefix_cons.mp hstart).1.symm

theorem decoded_cons {c : Byte} {t : Bytes} (h : findEntity (c :: t) = none) :
    decoded (c :: t) = c :: decoded t := by
  unfold decoded
  rw [decodeFrom, h]

/-- What stands before the first ampersand stays. -/
theorem decoded_append {u : Bytes} (hu : 38 ∉ u) (t : Bytes) :
    decoded (u ++ t) = u ++ decoded t := by
  induction u with
  | nil => rfl
  | cons c u ih =>
    have hc : c ≠ 38 := fun h => hu (h ▸ List.mem_cons_self)
    rw [List.cons_append, decoded_cons (findEntity_none hc _),
      ih fun h => hu (List.mem_cons_of_mem c h), List.cons_append]

theorem decoded_of_notMem {t : Bytes} (ht : 38 ∉ t) : decoded t = t := by
  have happ := decoded_append ht []
  rwa [List.append_nil, show decoded [] = [] from rfl, List.append_nil] at happ

theorem decoded_entity {p v : Bytes} {ch : Byte}
    (h : findEntity (38 :: p ++ v) = some (38 :: p, ch)) :
    decoded (38 :: p ++ v) = ch :: decoded v := by
  rw [List.cons_append] at h
  rw [List.cons_append, decoded, decodeFrom, h]
  dsimp only
  rw [decodeFrom_eq_drop, List.length_cons, Nat.add_sub_cancel, List.drop_left]

theorem notMem_of_firstOcc {c : Byte} {t : Bytes} (h : firstOcc [c] t = none) : c ∉ t := by
  intro hc
  obtain ⟨u, v, rfl⟩ := List.append_of_mem hc
  apply (firstOcc_eq_none_iff (List.cons_ne_nil c [])).mp h u.length
  rw [List.drop_left]
  exact List.prefix_append [c] v

/-- The first place of a byte splits the text. -/
theorem split_of_firstOcc {c : Byte} {t : Bytes} {k : ℕ} (h : firstOcc [c] t = some k) :
    ∃ u v, t = u ++ c :: v ∧ u.length = k ∧ c ∉ u := by
  have hmatch := firstOcc_match (List.cons_ne_nil c []) h
  have hle := firstOcc_le _ h
  rw [List.append_assoc, List.singleton_append] at hmatch
  refine ⟨t.take k, _, hmatch, List.length_take_of_le (by omega), ?_⟩
  apply notMem_of_firstOcc
  exact firstOcc_take_none (List.cons_ne_nil c []) h (by simp)

/-- A null `pLoc` ends the loop. -/
theorem transformLoop_null (fuel : ℕ) (mem : Bytes) (len : ℤ) :
    transformLoop (fuel+1) mem len none = .ok mem := by
  unfold transformLoop
  split_ifs <;> rfl

/-- An entity is replaced: its byte is written over the ampersand, and what stands behind it is
moved up to that byte. -/
theorem replace_entity (x junk : Bytes) {q v : Bytes} {ch : Byte} (h0 : 0 ∉ q ++ v) (hch : ch ≠ 0) :
    ∃ pBuffer junk', poke (x ++ (38 :: q ++ v ++ 0 :: junk)) x.length ch = .ok pBuffer ∧
      strlen (pBuffer.drop x.length) = .ok ((v.length+1 : ℕ)+((38 :: q).length-1)) ∧
      memmove pBuffer (x.length+1) (x.length+(38 :: q).length) (v.length+1) =
        .ok ((x ++ [ch]) ++ (v ++ 0 :: junk')) ∧
      junk'.length = q.length+junk.length := by
  have hpoke := poke_append x 38 (q ++ v ++ 0 :: junk) ch
  have htext : TextBlock ((ch :: (q ++ v)) ++ 0 :: junk) (ch :: (q ++ v)) := by
    refine .mk _ _ fun hin => ?_
    rcases List.mem_cons.mp hin with h | h
    · exact hch h.symm
    · exact h0 h
  have hmove := memmove_append (x ++ [ch]) q (v ++ [0]) junk
  have hmoved : x ++ [ch] ++ (q ++ ((v ++ [0]) ++ junk)) = x ++ ch :: (q ++ v ++ 0 :: junk) := by
    simp
  have hdst : (x ++ [ch]).length = x.length+1 := by
    rw [List.length_append, List.length_singleton]
  have hsrc : x.length+1+q.length = x.length+(38 :: q).length := by
    rw [List.length_cons]
    omega
  rw [hmoved, hdst, hsrc, List.length_append, List.length_singleton] at hmove
  refine ⟨_, (q ++ (v ++ [0] ++ junk)).drop (v.length+1), hpoke, ?_, ?_, ?_⟩
  · rw [List.drop_left, ← List.cons_append, htext.strlen_eq]
    simp only [List.length_cons, List.length_append]
    push_cast
    congr 1
    omega
  · rw [hmove]
    simp
  · simp only [List.length_drop, List.length_append, List.length_singleton]
    omega

/-- The loop behind `w` bytes that are decoded. `len` stays at least the length of what follows, so
that no entity is left when it is used up. -/
theorem transformLoop_eq {fuel : ℕ} (w junk : Bytes) {t : Bytes} {len : ℤ} (h0 : 0 ∉ t)
    (hlen : (t.length : ℤ) ≤ len) (hmax : (t.length : ℤ) ≤ intMax) (hfuel : t.length+2 ≤ fuel) :
    ∃ junk', (decoded t).length+junk'.length = t.length+junk.length ∧
      transformLoop fuel (w ++ (t ++ 0 :: junk)) len (some w.length) =
        .ok (w ++ (decoded t ++ 0 :: junk')) := by
  induction fuel generalizing w t junk len with
  | zero => omega
  | succ fuel ih =>
    unfold transformLoop
    by_cases hpos : 0 < len
    · rw [if_pos hpos]
      dsimp only
      rw [(TextBlock.mk t junk h0).strstrAt_append, ok_bind]
      cases hocc : firstOcc [38] t with
      | none =>
        obtain ⟨fuel, rfl⟩ := Nat.exists_eq_add_of_le' (show 1 ≤ fuel by omega)
        rw [decoded_of_notMem (notMem_of_firstOcc hocc)]
        exact ⟨junk, rfl, transformLoop_null fuel _ _⟩
      | some k =>
        obtain ⟨u, v, rfl, rfl, hu⟩ := split_of_firstOcc hocc
        have h0v : 0 ∉ v := fun hin => h0 (by simp [hin])
        have hblock : w ++ (u ++ 38 :: v ++ 0 :: junk) = (w ++ u) ++ 38 :: (v ++ 0 :: junk) := by
          simp
        have hdrop (a : Byte) : ((w ++ u) ++ a :: (v ++ 0 :: junk)).drop (w.length+u.length) =
            (a :: v) ++ 0 :: junk := by
          rw [← List.length_append, List.drop_left, List.cons_append]
        have htext {a : Byte} (ha : 0 ≠ a) : TextBlock ((a :: v) ++ 0 :: junk) (a :: v) := by
          refine .mk _ _ fun hin => ?_
          rcases List.mem_cons.mp hin with h | h
          · exact ha h
          · exact h0v h
        dsimp only
        rw [hblock, hdrop, (htext (show (0 : Byte) ≠ 38 by decide)).cstr_eq, decoded_append hu]
        cases hfind : findEntity (38 :: v) with
        | none =>
          -- an ampersand that begins no entity stays
          have hlen' : (v.length : ℤ) ≤ len-1 := by
            rw [List.length_append, List.length_cons] at hlen
            push_cast at hlen
            omega
          have hmax' : (v.length : ℤ) ≤ intMax := by
            rw [List.length_append, List.length_cons] at hmax
            omega
          obtain ⟨junk', hcount, hloop⟩ := ih ((w ++ u) ++ [38]) junk h0v hlen' hmax'
            (by rw [List.length_append, List.length_cons] at hfuel; omega)
          rw [decoded_cons hfind]
          refine ⟨junk', ?_, ?_⟩
          · simp only [List.length_append, List.length_cons]
            omega
          · simpa [add_assoc] using hloop
        | some e =>
          obtain ⟨pattern, ch⟩ := e
          obtain ⟨hmem, v', hv'⟩ := mem_xmlEntities hfind
          obtain ⟨q, hq, hch⟩ := xmlEntities_shape _ hmem
          obtain rfl : pattern = 38 :: q := hq
          obtain rfl : q ++ v' = v := (List.cons.inj hv').2
          obtain ⟨pBuffer, junk₁, hpoke, hstrlen, hmove, hjunk⟩ :=
            replace_entity (w ++ u) junk h0v hch
          rw [List.cons_append, List.cons_append, List.length_append] at hpoke
          rw [List.length_append] at hstrlen hmove
          dsimp only
          have hmax' : ((v'.length+1 : ℕ) : ℤ) ≤ intMax := by
            simp only [List.length_append, List.length_cons] at hmax
            omega
          have hint : int32 ((v'.length+1 : ℕ) : ℤ) = (v'.length+1 : ℕ) :=
            int32_eq (by omega) hmax'
          rw [hpoke, ok_bind, hstrlen, ok_bind, add_sub_cancel_right, hint, if_neg (by omega),
            Int.toNat_natCast, hmove, ok_bind]
          have h0v' : 0 ∉ v' := fun hin => h0v (List.mem_append_right q hin)
          obtain ⟨junk', hcount', hloop⟩ := ih ((w ++ u) ++ [ch]) junk₁ h0v'
            (show (v'.length : ℤ) ≤ (v'.length+1 : ℕ) by omega) (by omega)
            (by simp only [List.length_append, List.length_cons] at hfuel; omega)
          have hentity := decoded_entity hfind
          rw [List.cons_append] at hentity
          rw [hentity]
          refine ⟨junk', ?_, ?_⟩
          · simp only [List.length_append, List.length_cons]
            omega
          · simpa [add_assoc] using hloop
    · obtain rfl : t = [] := List.length_eq_zero_iff.mp (by omega)
      rw [if_neg hpos]
      exact ⟨junk, rfl, rfl⟩

theorem zero_notMem_decodeFrom (n : ℕ) {t : Bytes} (h0 : 0 ∉ t) : 0 ∉ decodeFrom n t := by
  induction t generalizing n with
  | nil => cases n <;> exact h0
  | cons c t ih =>
    have h0t : 0 ∉ t := fun hin => h0 (List.mem_cons_of_mem c hin)
    cases n with
    | succ n => exact ih n h0t
    | zero =>
      unfold decodeFrom
      cases hfind : findEntity (c :: t) with
      | none =>
        intro hin
        rcases List.mem_cons.mp hin with h | h
        · exact h0 (h ▸ List.mem_cons_self)
        · exact ih 0 h0t h
      | some e =>
        obtain ⟨-, -, hch⟩ := xmlEntities_shape e (mem_xmlEntities hfind).1
        intro hin
        rcases List.mem_cons.mp hin with h | h
        · exact hch h.symm
        · exact ih _ h0t h

theorem transformXMLEntities_eq {mem t : Bytes} (h : TextBlock mem t)
    (hmax : (t.length : ℤ) ≤ intMax) : ∃ mem', transformXMLEntities mem = .ok mem' ∧
      mem'.length = mem.length ∧ TextBlock mem' (decoded t) := by
  cases h with
  | mk _ junk h0 =>
    have hblock : TextBlock (t ++ 0 :: junk) t := .mk t junk h0
    obtain ⟨junk', hlen, hloop⟩ := transformLoop_eq [] junk h0 le_rfl hmax
      (le_refl (t.length+2))
    have hint : int32 (t.length : ℤ) = t.length := int32_eq (by omega) hmax
    unfold transformXMLEntities
    rw [hblock.strlen_eq, ok_bind, Int.toNat_natCast, hint]
    refine ⟨_, hloop, ?_, .mk _ junk' (zero_notMem_decodeFrom 0 h0)⟩
    simp only [List.nil_append, List.length_append, List.length_cons]
    omega

/-! ### Escaping -/

/-- The standard escape of a byte. -/
def escapeChar (c : Byte) : Bytes := ((xmlEntities.find? (·.2 = c)).map Prod.fst).getD [c]

def escaped (t : Bytes) : Bytes := t.flatMap escapeChar

/-- No entity is the start of another one. -/
theorem findEntity_append {e : Bytes × Byte} (he : e ∈ xmlEntities) (v : Bytes) :
    findEntity (e.1 ++ v) = some e := by
  simp only [xmlEntities, List.mem_cons, List.not_mem_nil, or_false] at he
  rcases he with rfl | rfl | rfl | rfl | rfl
  all_goals rfl

theorem decoded_escapeChar (c : Byte) (v : Bytes) :
    decoded (escapeChar c ++ v) = c :: decoded v := by
  unfold escapeChar
  cases hfind : xmlEntities.find? (·.2 = c) with
  | none =>
    have hc : c ≠ 38 := by
      rintro rfl
      cases hfind
    rw [Option.map_none, Option.getD_none, List.singleton_append,
      decoded_cons (findEntity_none hc v)]
  | some e =>
    have hmem := List.mem_of_find?_eq_some hfind
    have hchar : e.2 = c := by simpa using List.find?_some hfind
    obtain ⟨q, hq, -⟩ := xmlEntities_shape e hmem
    have hentity := findEntity_append hmem v
    rw [Option.map_some, Option.getD_some, ← hchar, hq]
    rw [hq] at hentity
    exact decoded_entity (hentity.trans (congrArg some (Prod.ext hq rfl)))

theorem decoded_escaped (t : Bytes) : decoded (escaped t) = t := by
  induction t with
  | nil => rfl
  | cons c t ih => rw [escaped, List.flatMap_cons, decoded_escapeChar, ← escaped, ih]

/-- A text whose length is an `int` is decoded once, from left to right, and an escaped text comes
back. -/
theorem transformXMLEntities_decodes {s : Bytes} (h0 : 0 ∉ s) (hs : (s.length : ℤ) ≤ intMax)
    (junk : Bytes) : ∃ mem, transformXMLEntities (s ++ 0 :: junk) = .ok mem ∧
      mem.length = (s ++ 0 :: junk).length ∧ cstr mem = decoded s ∧
      ∀ t, s = escaped t → cstr mem = t := by
  obtain ⟨mem, hmem, hlen, htext⟩ := transformXMLEntities_eq (.mk s junk h0) hs
  refine ⟨mem, hmem, hlen, htext.cstr_eq, ?_⟩
  rintro t rfl
  rw [htext.cstr_eq, decoded_escaped]

theorem transformXMLEntities_decodes_amp : ∃ mem,
    transformXMLEntities (escaped (bytes "&lt;") ++ 0 :: []) = .ok mem ∧
      mem.length = (escaped (bytes "&lt;") ++ 0 :: []).length ∧
      cstr mem = decoded (escaped (bytes "&lt;")) ∧
      ∀ t, escaped (bytes "&lt;") = escaped t → cstr mem = t :=
  transformXMLEntities_decodes (by decide) (by decide) []

/-- The length of a longer text is negative as an `int`, and the loop does not begin. -/
theorem transformXMLEntities_long {s : Bytes} (h0 : 0 ∉ s) (hmin : intMax < s.length)
    (hmax : (s.length : ℤ) < 4294967296) : transformXMLEntities (s ++ [0]) = .ok (s ++ [0]) := by
  have hint : ¬ 0 < int32 (s.length : ℤ) := by
    rw [int32_of_gt hmin hmax]
    omega
  unfold transformXMLEntities
  rw [(TextBlock.mk s [] h0).strlen_eq, ok_bind, transformLoop, if_neg hint]
  rfl

/-- An entity with so many bytes behind it that the text has 2^31. -/
def longText : Bytes := bytes "&lt;" ++ List.replicate 2147483644 97

theorem longText_not_decoded : ¬ ∃ mem, transformXMLEntities (longText ++ [0]) = .ok mem ∧
    cstr mem = decoded longText := by
  unfold longText
  have hlen : (List.replicate 2147483644 (97 : Byte)).length = 2147483644 := List.length_replicate
  have h0 : 0 ∉ List.replicate 2147483644 (97 : Byte) :=
    fun h => absurd (List.eq_of_mem_replicate h) (by decide)
  generalize List.replicate 2147483644 (97 : Byte) = v at hlen h0 ⊢
  have hzero : 0 ∉ bytes "&lt;" ++ v := by
    rw [List.mem_append, not_or]
    exact ⟨by decide, h0⟩
  have hlength : (bytes "&lt;" ++ v).length = 2147483648 := by
    rw [List.length_append, hlen]
    rfl
  have hmin : intMax < ((bytes "&lt;" ++ v).length : ℤ) := by
    rw [hlength]
    decide
  have hmax : ((bytes "&lt;" ++ v).length : ℤ) < 4294967296 := by
    rw [hlength]
    decide
  rintro ⟨mem, hmem, htext⟩
  rw [transformXMLEntities_long hzero hmin hmax] at hmem
  have hdecoded : decoded (bytes "&lt;" ++ v) = 60 :: decoded v := decoded_escapeChar 60 v
  rw [← Except.ok.inj hmem, cstr_append_zero, cstr_eq_self hzero, hdecoded] at htext
  exact absurd (List.cons.inj htext).1 (by decide)

end MsgCourier
