import MsgCourier.BufferText

/-! `Cleanup`: the control characters are deleted by `ReplaceAll`, and then spaces are taken off
both ends. `Remove` leaves the end of the old text behind the content, and the second count goes by
the terminator. -/
namespace MsgCourier
open ListSearch CText ZeroFill

section Trimming

variable {α : Type*} (p : α → Bool)

theorem rtakeWhile_append (x y : List α) : (x ++ y).rtakeWhile p =
    if y.all p then x.rtakeWhile p ++ y else y.rtakeWhile p := by
  induction y using List.reverseRecOn with
  | nil => simp
  | append_singleton y a ih =>
    have hall : (y ++ [a]).all p = (y.all p && p a) := by simp
    rw [← List.append_assoc, List.rtakeWhile_concat, hall]
    by_cases ha : p a = true
    · rw [if_pos ha, ih, ha, Bool.and_true, List.rtakeWhile_concat_pos _ _ _ ha]
      split_ifs
      · rw [List.append_assoc]
      · rfl
    · rw [if_neg ha, List.rtakeWhile_concat_neg _ _ _ ha]
      simp [ha]

/-- The elements with `p` are taken off both ends. -/
def trimmed (l : List α) : List α := (l.dropWhile p).rdropWhile p

theorem length_rdropWhile (l : List α) :
    (l.rdropWhile p).length+(l.rtakeWhile p).length = l.length := by
  rw [← List.length_append, List.rdropWhile_append_rtakeWhile]

end Trimming

namespace Buffer

/-! ### The loops -/

def isBlank (d : Byte) : Bool := d == 32

/-- The loop from the start of the text; its `strlen` is the same in every round. -/
def leadingBlanks (mem : Bytes) : Cxx ℕ := do
  let n ← strlen mem
  scanWhile isBlank mem n.toNat 0

def countBack (mem : Bytes) : ℕ → Cxx ℕ
  | 0 => pure 0
  | i+1 => do
    let d ← peek mem i
    if isBlank d then do
      let j ← countBack mem i
      pure (j+1)
    else pure 0

/-- The loop from the end of the text. -/
def trailingBlanks (mem : Bytes) : Cxx ℕ := do
  let n ← strlen mem
  countBack mem n.toNat

def removeLeading (b : Buffer) (j : ℕ) : Cxx Buffer :=
  if j = 0 then pure b else Prod.snd <$> b.remove 0 j

def trimBlanks (b : Buffer) : Cxx Buffer :=
  match b.pBuffer with
  | none => pure b
  | some mem => do
    let j ← leadingBlanks mem
    let b ← b.removeLeading j
    let j ← trailingBlanks (b.pBuffer.getD [])
    (if j = 0 then b else b.truncate j).makeString

/-- The three calls of `ReplaceAll`. -/
def deleteControls [Malloc] (b : Buffer) (n : ℕ) : Cxx (Option Buffer) := do
  match ← b.replaceAll n (bytes "\t") [] with
  | none => pure none
  | some b =>
    match ← b.replaceAll n (bytes "\r") [] with
    | none => pure none
    | some b => b.replaceAll n (bytes "\n") []

def cleanup [Malloc] (b : Buffer) (n : ℕ) : Cxx (Option Buffer) := do
  match ← b.deleteControls n with
  | none => pure none
  | some b => some <$> b.trimBlanks

/-! ### The controls -/

variable {b : Buffer} {c s : Bytes}

/-- The content without tabs, carriage returns and newlines. -/
def withoutControls (c : Bytes) : Bytes :=
  ((c.filter (· ≠ 9)).filter (· ≠ 13)).filter (· ≠ 10)

theorem mem_withoutControls {a : Byte} :
    a ∈ withoutControls c ↔ a ∈ c ∧ a ≠ 9 ∧ a ≠ 13 ∧ a ≠ 10 := by
  unfold withoutControls
  rw [List.mem_filter, List.mem_filter, List.mem_filter, decide_eq_true_iff, decide_eq_true_iff,
    decide_eq_true_iff, and_assoc, and_assoc]

theorem withoutControls_sublist (c : Bytes) : List.Sublist (withoutControls c) c := by
  exact (List.filter_sublist.trans List.filter_sublist).trans List.filter_sublist

/-- Deleting one character leaves a terminated content, or nothing was there. -/
theorem Keeps.replaceAll_delete [Malloc] (h : b.Keeps c) (h0 : 0 ∉ c) {n : ℕ} (hn : c.length < n)
    (a : Byte) : ∃ b', b.replaceAll n [a] [] = .ok (some b') ∧ b'.Keeps (c.filter (· ≠ a)) ∧
      (b'.Closed (c.filter (· ≠ a)) ∨ c = [] ∧ b' = b) := by
  obtain ⟨r, hrep⟩ := exists_replaced (List.cons_ne_nil a []) [] c
  obtain rfl := hrep.filter
  have hle := hrep.length_ge (Nat.zero_le _)
  have hfit : (([] ++ c.filter (· ≠ a)).length : ℤ) < b.bufferSize ∨
      (([] ++ c.filter (· ≠ a)).length : ℤ)+10 ≤ intMax := by
    rw [List.nil_append]
    rcases eq_or_ne c [] with rfl | hc
    · right
      rw [List.filter_nil]
      decide
    · left
      have hsize := h.lt_size hc
      omega
  rw [← List.nil_append c] at h
  obtain ⟨b', hok, hkeeps, hends⟩ := h.replaceAllLoop (List.cons_ne_nil a []) hrep hn h0 hfit
  exact ⟨b', hok, hkeeps, hends⟩

theorem Keeps.deleteControls [Malloc] (h : b.Keeps c) (h0 : 0 ∉ c) {n : ℕ} (hn : c.length < n) :
    ∃ b', b.deleteControls n = .ok (some b') ∧
      (b'.Closed (withoutControls c) ∨ c = [] ∧ b' = b) := by
  have hshort (l : Bytes) (a : Byte) : (l.filter (· ≠ a)).length ≤ l.length :=
    List.length_filter_le _ _
  have hfree {l : Bytes} (hl : 0 ∉ l) (a : Byte) : 0 ∉ l.filter (· ≠ a) :=
    fun hin => hl (List.mem_filter.mp hin).1
  obtain ⟨b₁, hok₁, hkeeps₁, hends₁⟩ := h.replaceAll_delete h0 hn 9
  have hn₁ := lt_of_le_of_lt (hshort c 9) hn
  obtain ⟨b₂, hok₂, hkeeps₂, hends₂⟩ := hkeeps₁.replaceAll_delete (hfree h0 9) hn₁ 13
  have hn₂ := lt_of_le_of_lt (hshort (c.filter (· ≠ 9)) 13) hn₁
  obtain ⟨b₃, hok₃, hkeeps₃, hends₃⟩ :=
    hkeeps₂.replaceAll_delete (hfree (hfree h0 9) 13) hn₂ 10
  have hok : b.deleteControls n = .ok (some b₃) := by
    have htab : bytes "\t" = [9] := by decide
    have hreturn : bytes "\r" = [13] := by decide
    have hnewline : bytes "\n" = [10] := by decide
    unfold Buffer.deleteControls
    rw [htab, hok₁, ok_bind]
    dsimp only
    rw [hreturn, hok₂, ok_bind]
    dsimp only
    rw [hnewline, hok₃]
  refine ⟨b₃, hok, ?_⟩
  rcases hends₃ with hclosed | ⟨hnil₂, rfl⟩
  · exact Or.inl hclosed
  rcases hends₂ with hclosed | ⟨hnil₁, rfl⟩
  · -- the second call emptied the content and the third one left it
    left
    unfold withoutControls
    rw [hnil₂] at hclosed ⊢
    exact hclosed
  rcases hends₁ with hclosed | ⟨hnil, rfl⟩
  · left
    unfold withoutControls
    rw [hnil₁] at hclosed ⊢
    exact hclosed
  · exact Or.inr ⟨hnil, rfl⟩

/-! ### The blanks -/

theorem leadingBlanks_eq {mem : Bytes} (h : TextBlock mem s) :
    leadingBlanks mem = .ok (s.takeWhile isBlank).length := by
  unfold leadingBlanks
  rw [h.strlen_eq, ok_bind, Int.toNat_natCast, h.scanWhile_eq]

theorem countBack_append (s w : Bytes) :
    countBack (s ++ w) s.length = .ok (s.rtakeWhile isBlank).length := by
  induction s using List.reverseRecOn generalizing w with
  | nil => rfl
  | append_singleton s a ih =>
    rw [List.length_append, List.length_singleton, List.append_assoc, List.singleton_append]
    unfold countBack
    rw [peek_append, ok_bind]
    split_ifs with ha
    · rw [ih, ok_bind, List.rtakeWhile_concat_pos _ _ _ ha, List.length_append]
      rfl
    · rw [List.rtakeWhile_concat_neg _ _ _ ha]
      rfl

theorem trailingBlanks_eq {mem : Bytes} (h : TextBlock mem s) :
    trailingBlanks mem = .ok (s.rtakeWhile isBlank).length := by
  unfold trailingBlanks
  rw [h.strlen_eq, ok_bind, Int.toNat_natCast]
  cases h with
  | mk _ junk _ => exact countBack_append s (0 :: junk)

/-- The leading blanks are removed; as many bytes from the end of the old text stay between the
content and the terminator. -/
theorem Closed.removeLeading (h : b.Closed s) (h0 : 0 ∉ s) {j : ℕ} (hj : j ≤ s.length) :
    ∃ b' mem, b.removeLeading j = .ok b' ∧ b'.Keeps (s.drop j) ∧ b'.pBuffer = some mem ∧
      TextBlock mem (s.drop j ++ s.drop (s.length-j)) := by
  obtain ⟨s, junk, size, hroom, hsize, hend, hs⟩ := h
  unfold Buffer.removeLeading
  split_ifs with hzero
  · subst hzero
    refine ⟨_, _, rfl, Keeps.block s (0 :: junk) size hroom hsize hend hs, rfl, ?_⟩
    rw [Nat.sub_zero, List.drop_length, List.append_nil]
    exact .mk s junk h0
  · have hin : 0+j ≤ s.length := by omega
    have hremove := remove_block (0 :: junk) hroom hs (Nat.pos_of_ne_zero hzero) hin
    rw [List.take_zero, List.nil_append, zero_add] at hremove
    have hold : s.drop j ++ (s.drop (s.length-j) ++ 0 :: junk) =
        (s.drop j ++ s.drop (s.length-j)) ++ 0 :: junk := (List.append_assoc _ _ _).symm
    have hlen : (s.drop j ++ (s.drop (s.length-j) ++ 0 :: junk)).length =
        (s ++ 0 :: junk).length := by
      simp only [List.length_append, List.length_drop]
      omega
    refine ⟨_, _, ?_, Keeps.block (s.drop j) (s.drop (s.length-j) ++ 0 :: junk) size ?_
      (hlen ▸ hsize) (hlen ▸ hend) hs, rfl, ?_⟩
    · rw [Nat.cast_zero] at hremove
      rw [hremove]
      rfl
    · rw [List.length_drop]
      omega
    · rw [hold]
      refine .mk _ junk fun hin => h0 ?_
      rcases List.mem_append.mp hin with hin | hin
      · exact List.mem_of_mem_drop hin
      · exact List.mem_of_mem_drop hin

theorem drop_leading (s : Bytes) : s.drop (s.takeWhile isBlank).length = s.dropWhile isBlank := by
  have hsplit : s.takeWhile isBlank ++ s.dropWhile isBlank = s := List.takeWhile_append_dropWhile
  calc
    s.drop (s.takeWhile isBlank).length =
        (s.takeWhile isBlank ++ s.dropWhile isBlank).drop (s.takeWhile isBlank).length := by
      rw [hsplit]
    _ = s.dropWhile isBlank := List.drop_left

/-- As many bytes of the old text as there were leading blanks. -/
def oldEnd (s : Bytes) : Bytes := s.drop (s.length-(s.takeWhile isBlank).length)

theorem length_oldEnd (s : Bytes) : (oldEnd s).length = (s.takeWhile isBlank).length := by
  have hle := (List.takeWhile_prefix isBlank (l := s)).length_le
  rw [oldEnd, List.length_drop]
  omega

/-- Blanks at the old end are counted once more than those of the content. -/
theorem rtakeWhile_oldEnd (s : Bytes) :
    ((s.dropWhile isBlank ++ oldEnd s).rtakeWhile isBlank).length =
      ((s.dropWhile isBlank).rtakeWhile isBlank).length+
        if (oldEnd s).all isBlank then (s.takeWhile isBlank).length else 0 := by
  rw [rtakeWhile_append]
  split_ifs with hall
  · rw [List.length_append, length_oldEnd]
  · -- both are the blanks at the end of the whole text
    have hfirst : s.rtakeWhile isBlank = (oldEnd s).rtakeWhile isBlank := by
      have hsplit : s.take (s.length-(s.takeWhile isBlank).length) ++ oldEnd s = s :=
        List.take_append_drop _ s
      have happ := rtakeWhile_append isBlank (s.take (s.length-(s.takeWhile isBlank).length))
        (oldEnd s)
      rwa [hsplit, if_neg hall] at happ
    have hrest : ¬ (s.dropWhile isBlank).all isBlank = true := by
      intro hblank
      apply hall
      rw [List.all_eq_true] at hblank ⊢
      intro a ha
      have hin : a ∈ s.takeWhile isBlank ++ s.dropWhile isBlank := by
        rw [List.takeWhile_append_dropWhile]
        exact List.mem_of_mem_drop ha
      rcases List.mem_append.mp hin with hin | hin
      · exact List.mem_takeWhile_imp hin
      · exact hblank a hin
    have hsecond : s.rtakeWhile isBlank = (s.dropWhile isBlank).rtakeWhile isBlank := by
      have happ := rtakeWhile_append isBlank (s.takeWhile isBlank) (s.dropWhile isBlank)
      rwa [List.takeWhile_append_dropWhile, if_neg hrest] at happ
    rw [← hfirst, hsecond, add_zero]

/-- Fewer blanks at the end than at the start, or none at the start. -/
theorem fewer_trailing_iff (s : Bytes) :
    (s.takeWhile isBlank).length = 0 ∨
        (s.rtakeWhile isBlank).length < (s.takeWhile isBlank).length ↔
      (s.takeWhile isBlank).length = 0 ∨ ¬ (oldEnd s).all isBlank = true := by
  have hsplit : s.take (s.length-(s.takeWhile isBlank).length) ++ oldEnd s = s :=
    List.take_append_drop _ s
  have happ := rtakeWhile_append isBlank (s.take (s.length-(s.takeWhile isBlank).length)) (oldEnd s)
  rw [hsplit] at happ
  have hlen := length_oldEnd s
  by_cases hall : (oldEnd s).all isBlank = true
  · rw [if_pos hall] at happ
    have hle := congrArg List.length happ
    rw [List.length_append, hlen] at hle
    exact or_congr_right (iff_of_false (by omega) (not_not.mpr hall))
  · rw [if_neg hall] at happ
    refine or_congr_right (iff_of_true ?_ hall)
    rw [happ, ← hlen]
    apply lt_of_le_of_ne (List.rtakeWhile_suffix isBlank (l := oldEnd s)).length_le
    intro heq
    have hself := (List.rtakeWhile_suffix isBlank (l := oldEnd s)).eq_of_length heq
    rw [List.rtakeWhile_eq_self_iff] at hself
    exact hall (List.all_eq_true.mpr hself)

theorem makeString_tail {b' : Buffer} (h : b.makeString = .ok b') : b'.tail = b.tail := by
  unfold Buffer.makeString at h
  cases hb : b.pBuffer with
  | none =>
    rw [hb] at h
    rw [← Except.ok.inj h]
  | some mem =>
    rw [hb] at h
    obtain ⟨mem', _, h⟩ := bind_eq_ok.mp h
    rw [← Except.ok.inj h]

/-- The loops and what they take off: blanks at the old end are taken off the content as well. -/
theorem Closed.trimBlanks_eq (h : b.Closed s) (h0 : 0 ∉ s) :
    ∃ b₁ : Buffer, b₁.Keeps (s.dropWhile isBlank) ∧ b₁.pBuffer ≠ none ∧ b.trimBlanks =
      { b₁ with tail := ((trimmed isBlank s).length : ℤ)-
        (if (oldEnd s).all isBlank then (s.takeWhile isBlank).length else 0 : ℕ) :
          Buffer }.makeString := by
  have hle := (List.takeWhile_prefix isBlank (l := s)).length_le
  obtain ⟨b₁, mem, hremove, hkeeps, hmem, htext⟩ := h.removeLeading h0 hle
  rw [drop_leading] at hkeeps htext
  have hcount : trailingBlanks mem =
      .ok ((s.dropWhile isBlank ++ oldEnd s).rtakeWhile isBlank).length := trailingBlanks_eq htext
  have hends := rtakeWhile_oldEnd s
  have hmany := (List.rtakeWhile_suffix isBlank (l := s.dropWhile isBlank ++ oldEnd s)).length_le
  have hlong := h.keeps.length_lt
  have hrest := length_rdropWhile isBlank (s.dropWhile isBlank)
  have hdrop : (s.dropWhile isBlank).length ≤ s.length := List.length_dropWhile_le _ _
  rw [List.length_append, length_oldEnd] at hmany
  obtain ⟨m, hm⟩ : ∃ m, ((s.dropWhile isBlank ++ oldEnd s).rtakeWhile isBlank).length = m :=
    ⟨_, rfl⟩
  obtain ⟨old, hold⟩ : ∃ old, (if (oldEnd s).all isBlank then (s.takeWhile isBlank).length else 0) =
      old := ⟨_, rfl⟩
  have htail : b₁.tail-m = ((trimmed isBlank s).length : ℤ)-old := by
    rw [hkeeps.tail_eq, trimmed]
    omega
  have hrange : -2147483648 ≤ b₁.tail-m ∧ b₁.tail-m ≤ intMax := by
    rw [hkeeps.tail_eq]
    unfold intMax at hlong ⊢
    omega
  refine ⟨b₁, hkeeps, hmem ▸ Option.some_ne_none mem, ?_⟩
  obtain ⟨junk, hblock⟩ := h.pBuffer_eq
  have hlead : leadingBlanks (s ++ 0 :: junk) = .ok (s.takeWhile isBlank).length :=
    leadingBlanks_eq (.mk s junk h0)
  unfold Buffer.trimBlanks
  rw [hblock]
  dsimp only
  rw [hlead, ok_bind, hremove, ok_bind, hmem, Option.getD_some]
  rw [hcount, ok_bind, hm, hold, ← htail]
  split_ifs with hzero
  · rw [hzero, Nat.cast_zero, sub_zero, ← hmem]
  · unfold Buffer.truncate
    rw [int32_eq hrange.1 hrange.2, hmem]

theorem Closed.trimBlanks (h : b.Closed s) (h0 : 0 ∉ s)
    (hfew : (s.takeWhile isBlank).length = 0 ∨ ¬ (oldEnd s).all isBlank = true) :
    ∃ b', b.trimBlanks = .ok b' ∧ b'.Closed (trimmed isBlank s) := by
  obtain ⟨b₁, hkeeps, hblock, htrim⟩ := h.trimBlanks_eq h0
  have hnone : (if (oldEnd s).all isBlank then (s.takeWhile isBlank).length else 0) = 0 := by
    rcases hfew with hzero | hall
    · rw [hzero, ite_self]
    · exact if_neg hall
  rw [hnone, Nat.cast_zero, sub_zero] at htrim
  have hprefix := List.rdropWhile_prefix isBlank (l := s.dropWhile isBlank)
  have hkeeps' := hkeeps.shorten hprefix.length_le
  rw [← List.prefix_iff_eq_take.mp hprefix] at hkeeps'
  rw [htrim]
  rcases hkeeps'.makeString with ⟨hnull, hnil⟩ | ⟨b', hb', hclosed⟩
  · exact absurd (congrArg Buffer.pBuffer hnull) hblock
  · exact ⟨b', hb', hclosed⟩

/-- Otherwise the tail ends up in front of the end of the trimmed text. -/
theorem Closed.trimBlanks_short (h : b.Closed s) (h0 : 0 ∉ s)
    (hmany : (s.takeWhile isBlank).length ≠ 0) (hall : (oldEnd s).all isBlank = true) {b' : Buffer}
    (hok : b.trimBlanks = .ok b') : b'.tail < (trimmed isBlank s).length := by
  obtain ⟨b₁, _, _, htrim⟩ := h.trimBlanks_eq h0
  have htail := makeString_tail (htrim.symm.trans hok)
  rw [if_pos hall] at htail
  dsimp only at htail
  omega

/-! ### The normal form -/

/-- The content that `Cleanup` should leave. -/
def cleaned (c : Bytes) : Bytes := trimmed isBlank (withoutControls c)

/-- With enough rounds the call returns, the content is the cleaned one, the length is not
negative, and a second call changes nothing. -/
def Normalises [Malloc] (b : Buffer) : Prop :=
  ∀ n, b.content.length < n → ∃ b', b.cleanup n = .ok (some b') ∧ b'.content = cleaned b.content ∧
    0 ≤ b'.tail ∧ ∃ b'', b'.cleanup n = .ok (some b'') ∧ b''.content = b'.content

/-- Without controls, the text has fewer blanks at its end than at its start, or none at its start.
An empty content needs stale bytes with a terminator and no blank in front of it. -/
def CleanupSafe (b : Buffer) : Prop :=
  if b.content = [] then
    ∀ mem, b.pBuffer = some mem → 0 ∈ mem ∧ (cstr mem).rtakeWhile isBlank = []
  else
    ((withoutControls b.content).takeWhile isBlank).length = 0 ∨
      ((withoutControls b.content).rtakeWhile isBlank).length <
        ((withoutControls b.content).takeWhile isBlank).length

theorem zero_notMem_withoutControls (h0 : 0 ∉ c) : 0 ∉ withoutControls c := by
  intro hin
  exact h0 (mem_withoutControls.mp hin).1

/-- A terminated content is cleaned when its blanks allow it. -/
theorem Keeps.cleanup [Malloc] (h : b.Keeps c) (h0 : 0 ∉ c) {n : ℕ} (hn : c.length < n)
    (hstart : b.Closed c ∨ c ≠ []) (hfew : ((withoutControls c).takeWhile isBlank).length = 0 ∨
      ¬ (oldEnd (withoutControls c)).all isBlank = true) :
    ∃ b', b.cleanup n = .ok (some b') ∧ b'.Closed (cleaned c) := by
  obtain ⟨b₁, hdelete, hends⟩ := h.deleteControls h0 hn
  have hclosed : b₁.Closed (withoutControls c) := by
    rcases hends with hclosed | ⟨rfl, rfl⟩
    · exact hclosed
    · exact hstart.resolve_right fun hc => hc rfl
  obtain ⟨b', htrim, hclosed'⟩ := hclosed.trimBlanks (zero_notMem_withoutControls h0) hfew
  refine ⟨b', ?_, hclosed'⟩
  unfold Buffer.cleanup
  rw [hdelete, ok_bind]
  dsimp only
  rw [htrim]
  rfl

theorem withoutControls_eq_self (h : ∀ a ∈ s, a ≠ 9 ∧ a ≠ 13 ∧ a ≠ 10) : withoutControls s = s := by
  have hself {l : Bytes} {a : Byte} (hl : ∀ d ∈ l, d ≠ a) : l.filter (· ≠ a) = l :=
    List.filter_eq_self.mpr fun d hd => decide_eq_true (hl d hd)
  unfold withoutControls
  rw [hself fun d hd => (h d hd).1, hself fun d hd => (h d hd).2.1, hself fun d hd => (h d hd).2.2]

theorem cleaned_subset {a : Byte} (ha : a ∈ cleaned c) : a ∈ withoutControls c := by
  exact (List.dropWhile_suffix isBlank).subset ((List.rdropWhile_prefix isBlank _).subset ha)

/-- A cleaned text has nothing to delete and no blank to take off. -/
theorem cleaned_cleaned (c : Bytes) : withoutControls (cleaned c) = cleaned c ∧
    (cleaned c).takeWhile isBlank = [] ∧ cleaned (cleaned c) = cleaned c := by
  have hself : withoutControls (cleaned c) = cleaned c :=
    withoutControls_eq_self fun a ha => (mem_withoutControls.mp (cleaned_subset ha)).2
  have hstart : (cleaned c).takeWhile isBlank = [] := by
    have hprefix : cleaned c <+: (withoutControls c).dropWhile isBlank :=
      List.rdropWhile_prefix isBlank _
    cases hc : cleaned c with
    | nil => rfl
    | cons a t =>
      rw [hc] at hprefix
      obtain ⟨rest, hrest⟩ := hprefix
      have hnot := List.head_dropWhile_not isBlank
        (show (withoutControls c).dropWhile isBlank ≠ [] by
          rw [← hrest]; exact List.cons_ne_nil _ _)
      simp only [← hrest, List.cons_append, List.head_cons] at hnot
      rw [List.takeWhile_cons_of_neg (by simp [hnot])]
  refine ⟨hself, hstart, ?_⟩
  have hdrop : (cleaned c).dropWhile isBlank = cleaned c := by
    have hsplit := List.takeWhile_append_dropWhile (p := isBlank) (l := cleaned c)
    rwa [hstart, List.nil_append] at hsplit
  calc
    cleaned (cleaned c) = (cleaned c).rdropWhile isBlank := by
      rw [cleaned, hself, trimmed, hdrop]
    _ = cleaned c := List.rdropWhile_idempotent _ _

/-! ### The empty content -/

theorem textBlock_cstr {mem : Bytes} (h : 0 ∈ mem) : TextBlock mem (cstr mem) := by
  obtain ⟨t, junk, rfl, ht⟩ := List.eq_append_cons_of_mem h
  rw [cstr_append_zero, cstr_eq_self ht]
  exact .mk t junk ht

/-- `ReplaceAll` does not look at an empty content, nor terminate it. -/
theorem Keeps.deleteControls_nil [Malloc] (h : b.Keeps []) {n : ℕ} (hn : 0 < n) :
    b.deleteControls n = .ok (some b) := by
  have hnone (pat : Bytes) : b.replaceAll n pat [] = .ok (some b) := by
    obtain ⟨n, rfl⟩ := Nat.exists_eq_succ_of_ne_zero hn.ne'
    unfold Buffer.replaceAll Buffer.replaceAllLoop
    rw [h.find_nil]
    rfl
  unfold Buffer.deleteControls
  rw [hnone, ok_bind]
  dsimp only
  rw [hnone, ok_bind]
  dsimp only
  rw [hnone]

/-- The blanks are counted in the stale bytes, and the tail of 0 goes down by those at their end. -/
theorem Keeps.trimBlanks_nil (h : b.Keeps []) {mem : Bytes} (hmem : b.pBuffer = some mem)
    (h0 : 0 ∈ mem) : b.trimBlanks =
      { b with tail := -(((cstr mem).rtakeWhile isBlank).length : ℤ) : Buffer }.makeString := by
  have htail : b.tail = 0 := h.tail_eq
  have htext := textBlock_cstr h0
  have hremove (j : ℕ) : b.removeLeading j = .ok b := by
    unfold Buffer.removeLeading Buffer.remove
    rw [if_pos htail]
    split_ifs <;> rfl
  have hshort : (((cstr mem).rtakeWhile isBlank).length : ℤ) ≤ 2147483648 := by
    have hcount := (List.rtakeWhile_suffix isBlank (l := cstr mem)).length_le
    have hless := htext.length_lt
    cases h with
    | null => cases hmem
    | block _ junk size hroom hsize hend hs =>
      obtain rfl := Option.some.inj hmem
      unfold intMax at hs
      omega
  obtain ⟨m, hm⟩ : ∃ m, ((cstr mem).rtakeWhile isBlank).length = m := ⟨_, rfl⟩
  have hcount := trailingBlanks_eq htext
  rw [hm] at hcount hshort ⊢
  unfold Buffer.trimBlanks
  rw [hmem]
  dsimp only
  rw [leadingBlanks_eq htext, ok_bind, hremove, ok_bind, hmem, Option.getD_some, hcount, ok_bind]
  split_ifs with hzero
  · rw [hzero, Nat.cast_zero, neg_zero, ← htail, ← hmem]
  · unfold Buffer.truncate
    rw [htail, zero_sub, int32_eq (by omega) (by unfold intMax; omega), hmem]

theorem Keeps.safe_of_trimBlanks (h : b.Keeps []) {b' : Buffer} (hok : b.trimBlanks = .ok b')
    (htail : 0 ≤ b'.tail) {mem : Bytes} (hmem : b.pBuffer = some mem) :
    0 ∈ mem ∧ (cstr mem).rtakeWhile isBlank = [] := by
  by_cases h0 : 0 ∈ mem
  · refine ⟨h0, ?_⟩
    rw [h.trimBlanks_nil hmem h0] at hok
    have heq := makeString_tail hok
    dsimp only at heq
    apply List.eq_nil_of_length_eq_zero
    omega
  · -- the loop runs out of the block
    unfold Buffer.trimBlanks leadingBlanks strlen at hok
    rw [hmem] at hok
    dsimp only at hok
    rw [if_neg h0] at hok
    cases hok

theorem Keeps.trimBlanks_empty (h : b.Keeps [])
    (hsafe : ∀ mem, b.pBuffer = some mem → 0 ∈ mem ∧ (cstr mem).rtakeWhile isBlank = []) :
    b = {} ∨ ∃ b', b.trimBlanks = .ok b' ∧ b'.Closed [] := by
  cases hmem : b.pBuffer with
  | none =>
    cases h with
    | null => exact Or.inl rfl
    | block => cases hmem
  | some mem =>
    obtain ⟨h0, hnone⟩ := hsafe mem hmem
    have htrim := h.trimBlanks_nil hmem h0
    have htail : b.tail = 0 := h.tail_eq
    rw [hnone, List.length_nil, Nat.cast_zero, neg_zero, ← htail] at htrim
    rcases h.makeString with ⟨rfl, _⟩ | ⟨b', hb', hclosed⟩
    · exact Or.inl rfl
    · exact Or.inr ⟨b', htrim.trans hb', hclosed⟩

theorem normalises_empty_iff [Malloc] (h : b.Keeps []) : b.Normalises ↔ b.CleanupSafe := by
  have hcontent := h.content_eq
  have hcleanup {n : ℕ} (hn : 0 < n) : b.cleanup n = some <$> b.trimBlanks := by
    unfold Buffer.cleanup
    rw [h.deleteControls_nil hn]
    rfl
  unfold Normalises CleanupSafe
  rw [hcontent, if_pos rfl]
  constructor
  · intro hnorm mem hmem
    obtain ⟨b', hok, _, htail, _⟩ := hnorm 1 Nat.zero_lt_one
    rw [hcleanup Nat.zero_lt_one] at hok
    cases htrim : b.trimBlanks with
    | error e =>
      rw [htrim] at hok
      cases hok
    | ok b₁ =>
      rw [htrim] at hok
      obtain rfl : b₁ = b' := Option.some.inj (Except.ok.inj hok)
      exact h.safe_of_trimBlanks htrim htail hmem
  · intro hsafe n hn
    rcases h.trimBlanks_empty hsafe with rfl | ⟨b', htrim, hclosed⟩
    · have hok : Buffer.cleanup {} n = .ok (some {}) := hcleanup hn
      exact ⟨{}, hok, rfl, le_rfl, {}, hok, rfl⟩
    · have hok : b.cleanup n = .ok (some b') := by
        rw [hcleanup hn, htrim]
        rfl
      obtain ⟨b'', hok', hclosed'⟩ := hclosed.keeps.cleanup List.not_mem_nil hn (Or.inl hclosed)
        (Or.inl rfl)
      refine ⟨b', hok, hclosed.keeps.content_eq, hclosed.keeps.tail_eq.ge, b'', hok', ?_⟩
      exact hclosed'.keeps.content_eq.trans hclosed.keeps.content_eq.symm

/-! ### The result -/

/-- `Cleanup` normalises exactly the safe contents. -/
theorem normalises_iff [Malloc] (h : b.Keeps c) (h0 : 0 ∉ c) : b.Normalises ↔ b.CleanupSafe := by
  rcases eq_or_ne c [] with rfl | hc
  · exact normalises_empty_iff h
  unfold Normalises CleanupSafe
  rw [h.content_eq, if_neg hc, fewer_trailing_iff]
  constructor
  · intro hnorm
    obtain ⟨b', hok, hcontent, htail, _⟩ := hnorm (c.length+1) (Nat.lt_succ_self _)
    obtain ⟨b₁, hdelete, hends⟩ := h.deleteControls h0 (Nat.lt_succ_self _)
    have hclosed : b₁.Closed (withoutControls c) := hends.resolve_right fun hnil => hc hnil.1
    unfold Buffer.cleanup at hok
    rw [hdelete, ok_bind] at hok
    dsimp only at hok
    by_contra hmany
    obtain ⟨hstart, hall⟩ := not_or.mp hmany
    cases htrim : b₁.trimBlanks with
    | error e =>
      rw [htrim] at hok
      cases hok
    | ok b₂ =>
      rw [htrim] at hok
      obtain rfl : b₂ = b' := Option.some.inj (Except.ok.inj hok)
      have hshort := hclosed.trimBlanks_short (zero_notMem_withoutControls h0) hstart
        (not_not.mp hall) htrim
      -- the content is not longer than the tail
      have hlen := congrArg List.length hcontent
      rw [content, List.length_take, cleaned] at hlen
      omega
  · intro hfew n hn
    obtain ⟨b', hok, hclosed⟩ := h.cleanup h0 hn (Or.inr hc) hfew
    obtain ⟨hself, hstart, hagain⟩ := cleaned_cleaned c
    have h0' : 0 ∉ cleaned c := fun hin => zero_notMem_withoutControls h0 (cleaned_subset hin)
    have hn' : (cleaned c).length < n := by
      apply lt_of_le_of_lt _ hn
      exact (((List.rdropWhile_prefix isBlank _).sublist.trans
        (List.dropWhile_suffix isBlank).sublist).trans (withoutControls_sublist c)).length_le
    obtain ⟨b'', hok', hclosed'⟩ := hclosed.keeps.cleanup h0' hn' (Or.inl hclosed)
      (Or.inl (by rw [hself, hstart]; rfl))
    rw [hagain] at hclosed'
    refine ⟨b', hok, hclosed.keeps.content_eq, ?_, b'', hok', ?_⟩
    · rw [hclosed.keeps.tail_eq]
      exact Int.natCast_nonneg _
    · exact hclosed'.keeps.content_eq.trans hclosed.keeps.content_eq.symm

theorem normalises_inner_controls : (terminated (bytes "a\tb ")).Normalises := by
  have hkeeps := keeps_terminated (c := bytes "a\tb ") (by decide)
  refine (normalises_iff hkeeps (by decide)).mpr ?_
  unfold CleanupSafe
  rw [if_neg (by decide)]
  exact Or.inl (by decide)

/-- One blank on each side of a letter: the second count takes the letter off as well. -/
theorem cleanup_blank_both_sides : ¬ (terminated (bytes " a ")).Normalises := by
  have hok : (terminated (bytes " a ")).cleanup 4 =
      .ok (some ⟨some (0 :: bytes "  " ++ [0]), 4, 0⟩) := by decide
  have hcleaned : cleaned (terminated (bytes " a ")).content = bytes "a" := by decide
  intro hnorm
  obtain ⟨b', hok', hcontent, _⟩ := hnorm 4 (by decide)
  obtain rfl := Option.some.inj (Except.ok.inj (hok.symm.trans hok'))
  rw [hcleaned] at hcontent
  revert hcontent
  decide

end Buffer
end MsgCourier
