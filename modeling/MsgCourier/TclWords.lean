import MsgCourier.CText

/-! How Tcl reads a script of literal words: blanks stand between the words of a command, a newline
or a semicolon behind it, and braces quote what they enclose. -/
namespace TclWords
open CText

def isBlank (b : Byte) : Bool := b == 32 || b == 9 || b == 11 || b == 12 || b == 13

def isEnd (b : Byte) : Bool := b == 10 || b == 59

def isSep (b : Byte) : Bool := isBlank b || isEnd b

/-- The bytes that make a `$` in front of them a variable: a letter (any byte of a longer character
counts as one), a digit, `_`, `{`, `(` or `::`. -/
def startsName : Bytes → Bool
  | [] => false
  | b :: s => (48 ≤ b && b ≤ 57) || (65 ≤ b && b ≤ 90) || (97 ≤ b && b ≤ 122) || 128 ≤ b ||
      b == 95 || b == 123 || b == 40 || (b == 58 && s.head? == some 58)

def substitutes (b : Byte) (s : Bytes) : Bool := b == 91 || b == 92 || (b == 36 && startsName s)

def atBoundary : Bytes → Bool
  | [] => true
  | b :: _ => isSep b

/-! ### Words -/

/-- The word up to the next separator, with what follows it. -/
def bareWord : Bytes → Option (Bytes × Bytes)
  | [] => some ([], [])
  | b :: s =>
    if isSep b then some ([], b :: s)
    else if substitutes b s then none
    else (bareWord s).map fun (w, r) => (b :: w, r)

def deeper (d : ℕ) (b : Byte) : ℕ := if b = 123 then d+1 else if b = 125 then d-1 else d

/-- The word up to the brace that closes it, from behind its opening brace on. A backslash keeps the
byte behind it from counting; in front of a newline it is a substitution also between braces. -/
def bracedWord : ℕ → Bytes → Option (Bytes × Bytes)
  | _, [] => none
  | d, b :: s =>
    if b = 92 then
      match s with
      | [] => none
      | c :: t => if c = 10 then none else (bracedWord d t).map fun (w, r) => (b :: c :: w, r)
    else if b = 125 ∧ d = 0 then some ([], s)
    else (bracedWord (deeper d b) s).map fun (w, r) => (b :: w, r)

def readWord : Bytes → Option (Bytes × Bytes)
  | [] => none
  | b :: s =>
    if b = 123 then (bracedWord 0 s).filter fun (_, r) => atBoundary r
    else if b = 34 then none
    else bareWord (b :: s)

/-! ### Commands -/

def readWords : ℕ → Bytes → Option (List Bytes × Bytes)
  | 0, _ => none
  | n+1, s =>
    match s.dropWhile isBlank with
    | [] => some ([], [])
    | b :: t =>
      if isEnd b then some ([], t)
      else do
        let (w, r) ← readWord (b :: t)
        let (ws, r) ← readWords n r
        some (w :: ws, r)

def readCommands : ℕ → Bytes → Option (List (List Bytes))
  | 0, _ => none
  | n+1, s =>
    if s = [] then some []
    else if (s.dropWhile isSep).head? = some 35 then none
    else do
      let (ws, r) ← readWords (s.length+1) s
      let commands ← readCommands n r
      some (if ws = [] then commands else ws :: commands)

/-- The commands of a script as lists of words. A script with a comment, a quoted word or a
substitution has none, nor one that Tcl rejects. -/
def readScript (s : Bytes) : Option (List (List Bytes)) := readCommands (s.length+1) s

/-! ### Words that read back -/

def plainBytes : Bytes → Bool
  | [] => true
  | b :: s => !isSep b && !substitutes b s && plainBytes s

/-- Tcl takes the word as it stands. -/
def PlainWord (w : Bytes) : Prop :=
  plainBytes w = true ∧ w ≠ [] ∧ w.head? ≠ some 123 ∧ w.head? ≠ some 34

instance (w : Bytes) : Decidable (PlainWord w) := inferInstanceAs (Decidable (_ ∧ _))

/-- The depth at the end, if no brace is closed that was not opened. -/
def braceDepth : ℕ → Bytes → Option ℕ
  | d, [] => some d
  | d, b :: s =>
    if b = 92 then
      match s with
      | [] => none
      | c :: t => if c = 10 then none else braceDepth d t
    else if b = 125 ∧ d = 0 then none
    else braceDepth (deeper d b) s

/-- Between braces, Tcl takes the text as it stands. -/
def Balanced (s : Bytes) : Prop := braceDepth 0 s = some 0

instance (s : Bytes) : Decidable (Balanced s) := inferInstanceAs (Decidable (_ = _))

theorem isSep_iff {b : Byte} : isSep b = true ↔
    b = 32 ∨ b = 9 ∨ b = 11 ∨ b = 12 ∨ b = 13 ∨ b = 10 ∨ b = 59 := by
  simp only [isSep, isBlank, isEnd, Bool.or_eq_true, beq_iff_eq, or_assoc]

theorem startsName_append {s r : Bytes} (hr : atBoundary r = true) :
    startsName (s ++ r) = startsName s := by
  cases r with
  | nil => rw [List.append_nil]
  | cons b r =>
    have hb : isSep b = true := hr
    rcases s with _ | ⟨a, _ | ⟨c, s⟩⟩
    · rcases isSep_iff.mp hb with rfl | rfl | rfl | rfl | rfl | rfl | rfl <;> rfl
    · -- no separator is the second colon of a name
      have hne : (b == 58) = false := by
        rcases isSep_iff.mp hb with rfl | rfl | rfl | rfl | rfl | rfl | rfl <;> rfl
      simp [startsName, hne]
    · rfl

theorem bareWord_append {w r : Bytes} (hw : plainBytes w = true) (hr : atBoundary r = true) :
    bareWord (w ++ r) = some (w, r) := by
  induction w with
  | nil =>
    cases r with
    | nil => rfl
    | cons b r => exact if_pos hr
  | cons b w ih =>
    simp only [plainBytes, Bool.and_eq_true, Bool.not_eq_true'] at hw
    obtain ⟨⟨hsep, hsub⟩, hrest⟩ := hw
    have hsub' : substitutes b (w ++ r) = false := by
      rw [substitutes, startsName_append hr]
      exact hsub
    rw [List.cons_append, bareWord, hsep, hsub', ih hrest]
    rfl

theorem bareWord_inv {s w r : Bytes} (h : bareWord s = some (w, r)) :
    s = w ++ r ∧ plainBytes w = true ∧ atBoundary r = true := by
  induction s generalizing w with
  | nil =>
    obtain ⟨rfl, rfl⟩ := Prod.mk.inj (Option.some.inj h)
    exact ⟨rfl, rfl, rfl⟩
  | cons b s ih =>
    rw [bareWord] at h
    split_ifs at h with hsep hsub
    · obtain ⟨rfl, rfl⟩ := Prod.mk.inj (Option.some.inj h)
      exact ⟨rfl, rfl, hsep⟩
    · obtain ⟨⟨w', r'⟩, hrest, heq⟩ := Option.map_eq_some_iff.mp h
      obtain ⟨rfl, rfl⟩ := Prod.mk.inj heq
      obtain ⟨rfl, hplain, hr⟩ := ih hrest
      rw [substitutes, startsName_append hr] at hsub
      refine ⟨rfl, ?_, hr⟩
      rw [plainBytes, hplain, substitutes]
      simp only [Bool.not_eq_true] at hsep hsub
      rw [hsep, hsub]
      rfl

/-! ### Braces -/

theorem bracedWord_cons {b : Byte} (hb : b ≠ 92) (d : ℕ) (s : Bytes) :
    bracedWord d (b :: s) = if b = 125 ∧ d = 0 then some ([], s)
      else (bracedWord (deeper d b) s).map fun (w, r) => (b :: w, r) := by
  rw [bracedWord.eq_def]
  exact if_neg hb

theorem braceDepth_cons {b : Byte} (hb : b ≠ 92) (d : ℕ) (s : Bytes) :
    braceDepth d (b :: s) = if b = 125 ∧ d = 0 then none else braceDepth (deeper d b) s := by
  rw [braceDepth.eq_def]
  exact if_neg hb

theorem bracedWord_append {d : ℕ} {v : Bytes} (hv : braceDepth d v = some 0) (r : Bytes) :
    bracedWord d (v ++ 125 :: r) = some (v, r) := by
  fun_induction braceDepth d v with
  | case1 d =>
    obtain rfl := Option.some.inj hv
    exact (bracedWord_cons (by decide) 0 r).trans (if_pos ⟨rfl, rfl⟩)
  | case2 => cases hv
  | case3 => cases hv
  | case4 d t c hc ih =>
    rw [List.cons_append, List.cons_append, bracedWord, if_pos rfl]
    dsimp only
    rw [if_neg hc, ih hv]
    rfl
  | case5 => cases hv
  | case6 d b t hb hd ih =>
    rw [List.cons_append, bracedWord_cons hb, if_neg hd, ih hv]
    rfl

theorem bracedWord_inv {d : ℕ} {s v r : Bytes} (h : bracedWord d s = some (v, r)) :
    s = v ++ 125 :: r ∧ braceDepth d v = some 0 := by
  fun_induction bracedWord d s generalizing v with
  | case1 => cases h
  | case2 => cases h
  | case3 => cases h
  | case4 d c t hc ih =>
    obtain ⟨⟨v', r'⟩, hrest, heq⟩ := Option.map_eq_some_iff.mp h
    obtain ⟨rfl, rfl⟩ := Prod.mk.inj heq
    obtain ⟨rfl, hdepth⟩ := ih hrest
    refine ⟨rfl, ?_⟩
    rw [braceDepth, if_pos rfl]
    exact (if_neg hc).trans hdepth
  | case5 d b s hb hd =>
    obtain ⟨rfl, rfl⟩ := hd
    obtain ⟨rfl, rfl⟩ := Prod.mk.inj (Option.some.inj h)
    exact ⟨rfl, rfl⟩
  | case6 d b s hb hd ih =>
    obtain ⟨⟨v', r'⟩, hrest, heq⟩ := Option.map_eq_some_iff.mp h
    obtain ⟨rfl, rfl⟩ := Prod.mk.inj heq
    obtain ⟨rfl, hdepth⟩ := ih hrest
    refine ⟨rfl, ?_⟩
    rw [braceDepth_cons hb, if_neg hd, hdepth]

theorem deeper_add (d k : ℕ) (b : Byte) (h : ¬ (b = 125 ∧ d = 0)) :
    deeper (d+k) b = deeper d b + k := by
  unfold deeper
  split_ifs
  · omega
  · have hd : d ≠ 0 := fun hd => h ⟨by assumption, hd⟩
    omega
  · rfl

/-- A balanced text stays balanced deeper inside. -/
theorem braceDepth_add {d e : ℕ} {s : Bytes} (h : braceDepth d s = some e) (k : ℕ) :
    braceDepth (d+k) s = some (e+k) := by
  fun_induction braceDepth d s with
  | case1 d =>
    obtain rfl := Option.some.inj h
    rfl
  | case2 => cases h
  | case3 => cases h
  | case4 d t c hc ih =>
    rw [braceDepth, if_pos rfl]
    exact (if_neg hc).trans (ih h)
  | case5 => cases h
  | case6 d b t hb hd ih =>
    have hd' : ¬ (b = 125 ∧ d+k = 0) := fun hk => hd ⟨hk.1, by omega⟩
    rw [braceDepth_cons hb, if_neg hd', deeper_add d k b hd, ih h]

theorem braceDepth_append {d e : ℕ} {s : Bytes} (h : braceDepth d s = some e) (r : Bytes) :
    braceDepth d (s ++ r) = braceDepth e r := by
  fun_induction braceDepth d s with
  | case1 d =>
    obtain rfl := Option.some.inj h
    rfl
  | case2 => cases h
  | case3 => cases h
  | case4 d t c hc ih =>
    rw [List.cons_append, List.cons_append, braceDepth, if_pos rfl]
    exact (if_neg hc).trans (ih h)
  | case5 => cases h
  | case6 d b t hb hd ih => rw [List.cons_append, braceDepth_cons hb, if_neg hd, ih h]

/-- Without a backslash at its end, a text that closes too many braces does so whatever follows. -/
theorem braceDepth_append_none {d : ℕ} {s : Bytes} (hs : 92 ∉ s) (h : braceDepth d s = none)
    (r : Bytes) : braceDepth d (s ++ r) = none := by
  induction s generalizing d with
  | nil => cases h
  | cons b s ih =>
    have hb : b ≠ 92 := fun hb => hs (hb ▸ List.mem_cons_self)
    rw [braceDepth_cons hb] at h
    rw [List.cons_append, braceDepth_cons hb]
    split_ifs at h ⊢
    · rfl
    · exact ih (fun hmem => hs (List.mem_cons_of_mem _ hmem)) h

theorem backslash_notMem_of_plainBytes {w : Bytes} (hw : plainBytes w = true) : 92 ∉ w := by
  induction w with
  | nil => exact List.not_mem_nil
  | cons b w ih =>
    simp only [plainBytes, Bool.and_eq_true, Bool.not_eq_true'] at hw
    obtain ⟨⟨_, hsub⟩, hrest⟩ := hw
    intro hmem
    rcases List.mem_cons.mp hmem with rfl | hmem
    · cases hsub
    · exact ih hrest hmem

/-! ### Reading words -/

theorem not_isSep_head {b : Byte} {w : Bytes} (hw : plainBytes (b :: w) = true) :
    isSep b = false := by
  simp only [plainBytes, Bool.and_eq_true, Bool.not_eq_true'] at hw
  exact hw.1.1

theorem isBlank_of_not_isSep {b : Byte} (hb : isSep b = false) :
    isBlank b = false ∧ isEnd b = false := by
  simpa [isSep] using hb

theorem readWord_plain {w r : Bytes} (hw : PlainWord w) (hr : atBoundary r = true) :
    readWord (w ++ r) = some (w, r) := by
  obtain ⟨hplain, hne, h123, h34⟩ := hw
  obtain ⟨b, w, rfl⟩ := List.exists_cons_of_ne_nil hne
  have hb123 : b ≠ 123 := fun hb => h123 (hb ▸ rfl)
  have hb34 : b ≠ 34 := fun hb => h34 (hb ▸ rfl)
  rw [List.cons_append, readWord, if_neg hb123, if_neg hb34, ← List.cons_append]
  exact bareWord_append hplain hr

theorem readWord_braced {v r : Bytes} (hv : Balanced v) (hr : atBoundary r = true) :
    readWord (123 :: (v ++ 125 :: r)) = some (v, r) := by
  rw [readWord, if_pos rfl, bracedWord_append hv, Option.filter_some, if_pos hr]

/-- A word that is read stood there, in braces or without. -/
theorem readWord_inv {b : Byte} {s w r : Bytes} (hb : isSep b = false)
    (h : readWord (b :: s) = some (w, r)) : atBoundary r = true ∧
      ((b :: s = w ++ r ∧ PlainWord w) ∨ (b :: s = 123 :: (w ++ 125 :: r) ∧ Balanced w)) := by
  rw [readWord] at h
  split_ifs at h with h123 h34
  · obtain ⟨hword, hr⟩ := Option.filter_eq_some_iff.mp h
    obtain ⟨rfl, hdepth⟩ := bracedWord_inv hword
    exact ⟨hr, Or.inr ⟨h123 ▸ rfl, hdepth⟩⟩
  · obtain ⟨hs, hplain, hr⟩ := bareWord_inv h
    refine ⟨hr, Or.inl ⟨hs, hplain, ?_, ?_, ?_⟩⟩
    · rintro rfl
      rw [List.nil_append] at hs
      rw [← hs] at hr
      exact absurd hr (by simp [atBoundary, hb])
    · rcases w with _ | ⟨a, w⟩
      · simp
      · rw [(List.cons.inj hs).1] at h123
        simpa using h123
    · rcases w with _ | ⟨a, w⟩
      · simp
      · rw [(List.cons.inj hs).1] at h34
        simpa using h34

theorem readWords_blank (n : ℕ) (s : Bytes) : readWords n (32 :: s) = readWords n s := by
  cases n with
  | zero => rfl
  | succ n => rfl

theorem readWords_plain (n : ℕ) {w r : Bytes} (hw : PlainWord w) (hr : atBoundary r = true) :
    readWords (n+1) (w ++ r) = (readWords n r).map fun (ws, r) => (w :: ws, r) := by
  obtain ⟨b, t, rfl⟩ := List.exists_cons_of_ne_nil hw.2.1
  obtain ⟨hblank, hend⟩ := isBlank_of_not_isSep (not_isSep_head hw.1)
  have hword := readWord_plain hw hr
  rw [List.cons_append] at hword ⊢
  rw [readWords, List.dropWhile_cons_of_neg (by simp [hblank])]
  dsimp only
  rw [if_neg (by simp [hend]), hword]
  cases hrest : readWords n r with
  | none => simp [hrest]
  | some p => simp [hrest]

theorem readWords_cons_inv {n : ℕ} {s w r : Bytes} {ws : List Bytes}
    (h : readWords n s = some (w :: ws, r)) : ∃ gap word n' r', s = gap ++ (word ++ r') ∧
      (∀ b ∈ gap, isBlank b = true) ∧ atBoundary r' = true ∧ readWords n' r' = some (ws, r) ∧
      ((word = w ∧ PlainWord w) ∨ (word = 123 :: (w ++ [125]) ∧ Balanced w)) := by
  cases n with
  | zero => cases h
  | succ n =>
    rw [readWords] at h
    have hsplit := List.takeWhile_append_dropWhile (p := isBlank) (l := s)
    rcases hs : s.dropWhile isBlank with _ | ⟨b, t⟩
    · rw [hs] at h
      cases h
    · rw [hs] at h hsplit
      dsimp only at h
      split_ifs at h with hend
      · cases h
      · have hblank : isBlank b = false := by
          have hne : s.dropWhile isBlank ≠ [] := by
            rw [hs]
            exact List.cons_ne_nil _ _
          have := List.head_dropWhile_not isBlank hne
          simpa [hs] using this
        have hsep : isSep b = false := by simp [isSep, hblank, hend]
        obtain ⟨⟨w', r'⟩, hword, h⟩ := Option.bind_eq_some_iff.mp h
        obtain ⟨⟨ws', r''⟩, hrest, h⟩ := Option.bind_eq_some_iff.mp h
        have hres := Option.some.inj h
        dsimp only at hres
        obtain ⟨heq, rfl⟩ := Prod.mk.inj hres
        obtain ⟨rfl, rfl⟩ := List.cons.inj heq
        obtain ⟨hr', hcases⟩ := readWord_inv hsep hword
        have hgap : ∀ c ∈ s.takeWhile isBlank, isBlank c = true :=
          fun c hc => List.mem_takeWhile_imp hc
        rcases hcases with ⟨hw, hplain⟩ | ⟨hw, hbalanced⟩
        · exact ⟨_, w', n, r', by rw [← hw, hsplit], hgap, hr', hrest, Or.inl ⟨rfl, hplain⟩⟩
        · refine ⟨_, 123 :: (w' ++ [125]), n, r', ?_, hgap, hr', hrest, Or.inr ⟨rfl, hbalanced⟩⟩
          calc
            s = s.takeWhile isBlank ++ b :: t := hsplit.symm
            _ = _ := by rw [hw]; simp

theorem readWords_nil_inv {n : ℕ} {s r : Bytes} (h : readWords n s = some ([], r))
    (hr : ∀ b ∈ r, isSep b = true) : ∀ b ∈ s, isSep b = true := by
  cases n with
  | zero => cases h
  | succ n =>
    rw [readWords] at h
    have hsplit := List.takeWhile_append_dropWhile (p := isBlank) (l := s)
    have hblank : ∀ b ∈ s.takeWhile isBlank, isSep b = true := by
      intro b hb
      simp [isSep, List.mem_takeWhile_imp hb]
    have hdrop : ∀ b ∈ s.dropWhile isBlank, isSep b = true := by
      rcases hs : s.dropWhile isBlank with _ | ⟨b, t⟩
      · exact nofun
      · rw [hs] at h
        dsimp only at h
        split_ifs at h with hend
        · obtain ⟨_, rfl⟩ := Prod.mk.inj (Option.some.inj h)
          intro c hc
          rcases List.mem_cons.mp hc with rfl | hc
          · simp [isSep, hend]
          · exact hr c hc
        · obtain ⟨⟨w', r'⟩, _, h⟩ := Option.bind_eq_some_iff.mp h
          obtain ⟨⟨ws', r''⟩, _, h⟩ := Option.bind_eq_some_iff.mp h
          cases h
    intro b hb
    rw [← hsplit] at hb
    rcases List.mem_append.mp hb with hb | hb
    · exact hblank b hb
    · exact hdrop b hb

theorem readCommands_nil_inv {n : ℕ} {s : Bytes} (h : readCommands n s = some []) :
    ∀ b ∈ s, isSep b = true := by
  induction n generalizing s with
  | zero => cases h
  | succ n ih =>
    rw [readCommands] at h
    split_ifs at h with hs
    · rw [hs]
      exact nofun
    · obtain ⟨⟨ws, r⟩, hwords, h⟩ := Option.bind_eq_some_iff.mp h
      obtain ⟨commands, hrest, h⟩ := Option.bind_eq_some_iff.mp h
      have hres := Option.some.inj h
      split_ifs at hres with hws
      · subst hws hres
        exact readWords_nil_inv hwords (ih hrest)

/-! ### A command with a quoted last word -/

/-- The words `ws` and `name`, then `value` in braces. -/
def commandText (ws : List Bytes) (name value : Bytes) : Bytes :=
  (ws.map (· ++ [32])).flatten ++ (name ++ 32 :: 123 :: (value ++ [125]))

theorem readWords_commandText (n : ℕ) {ws : List Bytes} (hws : ∀ w ∈ ws, PlainWord w)
    (name value : Bytes) : readWords (ws.length+n) (commandText ws name value) =
      (readWords n (commandText [] name value)).map fun (l, r) => (ws ++ l, r) := by
  induction ws with
  | nil => simp
  | cons w ws ih =>
    have hrec := ih fun v hv => hws v (List.mem_cons_of_mem _ hv)
    have htext : commandText (w :: ws) name value = w ++ 32 :: commandText ws name value := by
      simp [commandText]
    have hlen : (w :: ws).length+n = (ws.length+n)+1 := by
      rw [List.length_cons]
      omega
    rw [htext, hlen, readWords_plain _ (hws w List.mem_cons_self) rfl, readWords_blank, hrec,
      Option.map_map]
    rfl

theorem readWords_quoted (n : ℕ) {name value : Bytes} (hname : PlainWord name)
    (hvalue : Balanced value) :
    readWords (n+3) (commandText [] name value) = some ([name, value], []) := by
  have hbraced : readWords (n+2) (123 :: (value ++ [125])) = some ([value], []) := by
    have hword := readWord_braced hvalue (r := []) rfl
    rw [readWords, List.dropWhile_cons_of_neg (by decide)]
    dsimp only
    rw [if_neg (by decide), hword]
    rfl
  rw [commandText, List.map_nil, List.flatten_nil, List.nil_append, readWords_plain _ hname rfl,
    readWords_blank, hbraced]
  rfl

/-- If the two words are what is read, each byte of the text has its place. -/
theorem of_readWords_quoted {n : ℕ} {name value r : Bytes}
    (h : readWords n (commandText [] name value) = some ([name, value], r))
    (hr : ∀ b ∈ r, isSep b = true) : PlainWord name ∧ Balanced value := by
  obtain ⟨g₁, w₁, n₁, r₁, hs₁, hg₁, hb₁, h₁, hw₁⟩ := readWords_cons_inv h
  obtain ⟨g₂, w₂, n₂, r₂, hs₂, hg₂, hb₂, h₂, hw₂⟩ := readWords_cons_inv h₁
  have hr₂ := readWords_nil_inv h₂ hr
  -- the words stand apart
  have hgap : g₂ ≠ [] := by
    rintro rfl
    have hhead : ∃ b t, w₂ ++ r₂ = b :: t ∧ isSep b = false := by
      rcases hw₂ with ⟨rfl, hplain⟩ | ⟨rfl, _⟩
      · obtain ⟨b, t, rfl⟩ := List.exists_cons_of_ne_nil hplain.2.1
        exact ⟨b, t ++ r₂, rfl, not_isSep_head hplain.1⟩
      · exact ⟨123, value ++ [125] ++ r₂, rfl, rfl⟩
    obtain ⟨b, t, ht, hb⟩ := hhead
    rw [hs₂, List.nil_append, ht, atBoundary, hb] at hb₁
    cases hb₁
  have hgap_pos := List.length_pos_iff.mpr hgap
  have htext : name ++ 32 :: 123 :: (value ++ [125]) = g₁ ++ (w₁ ++ (g₂ ++ (w₂ ++ r₂))) := by
    rw [← hs₂, ← hs₁]
    rfl
  have hlen := congrArg List.length htext
  simp only [List.length_append, List.length_cons, List.length_nil] at hlen
  rcases hw₂ with ⟨rfl, hplain⟩ | ⟨rfl, hbalanced⟩
  · -- a bare last word has the closing brace at its end, so it begins one byte too early
    obtain ⟨v, t, rfl⟩ := List.exists_cons_of_ne_nil hplain.2.1
    have hv := not_isSep_head hplain.1
    obtain rfl : r₂ = [] := by
      rcases List.eq_nil_or_concat r₂ with hnil | ⟨r₂, z, rfl⟩
      · exact hnil
      · have hlast := congrArg List.getLast? htext
        simp [List.getLast?_append, List.getLast?_cons] at hlast
        have hz := hr₂ z (by simp)
        rw [← hlast] at hz
        cases hz
    rcases List.eq_nil_or_concat g₂ with hnil | ⟨g₂, z, rfl⟩
    · exact absurd hnil hgap
    · have hsplit : (name ++ [32, 123] ++ [v]) ++ (t ++ [125]) =
        (g₁ ++ w₁ ++ g₂ ++ [z]) ++ (v :: t) := by
        simpa using htext
      have hfront := List.append_inj_left' hsplit (by simp)
      have hz := List.append_inj_right' hfront rfl
      have hblank := hg₂ z (by simp)
      rw [← (List.cons.inj hz).1, (isBlank_of_not_isSep hv).1] at hblank
      cases hblank
  · rw [List.length_cons, List.length_append] at hlen
    rcases hw₁ with ⟨rfl, hplain⟩ | ⟨rfl, _⟩
    · exact ⟨hplain, hbalanced⟩
    · simp only [List.length_cons, List.length_append] at hlen
      omega

theorem length_commandText_ge (ws : List Bytes) (name value : Bytes) :
    ws.length+3 ≤ (commandText ws name value).length := by
  induction ws with
  | nil =>
    simp only [commandText, List.map_nil, List.flatten_nil, List.length_append, List.length_cons,
      List.length_nil]
    omega
  | cons w ws ih =>
    simp only [commandText, List.map_cons, List.flatten_cons, List.length_append, List.length_cons,
      List.length_nil] at ih ⊢
    omega

/-- Tcl reads the text as the one command it was written as if and only if the word that stands bare
is plain and the text in braces is balanced. -/
theorem readScript_commandText_iff {w : Bytes} {ws : List Bytes} (hw : PlainWord w)
    (hws : ∀ v ∈ ws, PlainWord v) (hcomment : w.head? ≠ some 35) (name value : Bytes) :
    readScript (commandText (w :: ws) name value) = some [(w :: ws) ++ [name, value]] ↔
      PlainWord name ∧ Balanced value := by
  have hall : ∀ v ∈ w :: ws, PlainWord v := List.forall_mem_cons.mpr ⟨hw, hws⟩
  have hlen := length_commandText_ge (w :: ws) name value
  obtain ⟨k, hk⟩ : ∃ k, (commandText (w :: ws) name value).length+1 = (w :: ws).length+(k+3) :=
    ⟨(commandText (w :: ws) name value).length-((w :: ws).length+2), by omega⟩
  have hread := readWords_commandText (k+3) hall name value
  rw [← hk] at hread
  have hne : commandText (w :: ws) name value ≠ [] := by
    rw [← List.length_pos_iff]
    omega
  have hhead : ((commandText (w :: ws) name value).dropWhile isSep).head? ≠ some 35 := by
    obtain ⟨b, t, rfl⟩ := List.exists_cons_of_ne_nil hw.2.1
    rw [commandText, List.map_cons, List.flatten_cons, List.cons_append, List.cons_append,
      List.cons_append, List.dropWhile_cons_of_neg (by simp [not_isSep_head hw.1])]
    exact hcomment
  unfold readScript
  rw [readCommands, if_neg hne, if_neg hhead, hread]
  constructor
  · intro h
    obtain ⟨⟨l, r⟩, hmap, h⟩ := Option.bind_eq_some_iff.mp h
    obtain ⟨⟨l', r'⟩, hquoted, heq⟩ := Option.map_eq_some_iff.mp hmap
    obtain ⟨rfl, rfl⟩ := Prod.mk.inj heq
    obtain ⟨commands, hrest, h⟩ := Option.bind_eq_some_iff.mp h
    have hres := Option.some.inj h
    rw [if_neg (List.append_ne_nil_of_left_ne_nil (List.cons_ne_nil w ws) l')] at hres
    obtain ⟨hl, rfl⟩ := List.cons.inj hres
    obtain rfl := List.append_cancel_left hl
    exact of_readWords_quoted hquoted (readCommands_nil_inv hrest)
  · rintro ⟨hname, hvalue⟩
    obtain ⟨n, hn⟩ : ∃ n, (commandText (w :: ws) name value).length = n+1 :=
      ⟨(commandText (w :: ws) name value).length-1, by omega⟩
    rw [readWords_quoted k hname hvalue, hn]
    rfl

end TclWords
