import MsgCourier.Composition

/-! The walk of the three loops over a statement of nested expressions, and the statements whose
translation is compositional. -/
namespace MsgCourier
open ListSearch CText

/-! ### Statements with variables -/

def variableLetters (n : ℕ) : List Letter :=
  (createNewVariable n).attach.map fun c => ⟨c.1, symbolOf_createNewVariable c.2⟩

theorem variableLetters_val (n : ℕ) :
    (variableLetters n).map Subtype.val = createNewVariable n := by
  unfold variableLetters
  rw [List.map_map]
  exact List.attach_map_subtype_val _

namespace Forest

def ofLetters (ls : List Letter) (rest : Forest) : Forest := ls.foldr text rest

theorem render_ofLetters (ls : List Letter) (rest : Forest) :
    (ofLetters ls rest).render = ls.map Subtype.val ++ rest.render := by
  induction ls with
  | nil => rfl
  | cons c ls ih =>
    rw [List.map_cons, List.cons_append, ← ih]
    rfl

/-- Expressions of some kinds have become variables. -/
inductive Rewritten (K : ExprKind → Prop) (N : List ℕ) : Forest → Forest → Prop
  | nil : Rewritten K N nil nil
  | text {c : Letter} {rest rest' : Forest} :
      Rewritten K N rest rest' → Rewritten K N (text c rest) (text c rest')
  | declared {n : ℕ} {k : ExprKind} {name : ExprName} {inner rest rest' : Forest} :
      K k → n ∈ N → Rewritten K N rest rest' →
      Rewritten K N (expr k name inner rest) (ofLetters (variableLetters n) rest')
  | expr {k : ExprKind} {name : ExprName} {inner inner' rest rest' : Forest} :
      ¬ K k → Rewritten K N inner inner' → Rewritten K N rest rest' →
      Rewritten K N (expr k name inner rest) (expr k name inner' rest')

variable {K L : ExprKind → Prop} {M N : List ℕ} {F F' : Forest} {κ : ExprKind}

theorem Rewritten.mono (h : Rewritten K M F F') (hMN : M ⊆ N) : Rewritten K N F F' := by
  induction h with
  | nil => exact .nil
  | text _ ih => exact .text ih
  | declared hk hn _ ih => exact .declared hk (hMN hn) ih
  | expr hk _ _ ihinner ihrest => exact .expr hk ihinner ihrest

theorem Rewritten.of_ofLetters {ls : List Letter} (h : Rewritten K N (ofLetters ls F) F') :
    ∃ rest, F' = ofLetters ls rest ∧ Rewritten K N F rest := by
  induction ls generalizing F' with
  | nil => exact ⟨F', rfl, h⟩
  | cons c ls ih =>
    cases h with
    | text hrest =>
      obtain ⟨rest, rfl, hrewritten⟩ := ih hrest
      exact ⟨rest, rfl, hrewritten⟩

/-- Two loops one after the other. -/
theorem Rewritten.trans {F'' : Forest} (h : Rewritten K N F F') (h' : Rewritten L N F' F'') :
    Rewritten (fun k => K k ∨ L k) N F F'' := by
  induction h generalizing F'' with
  | nil =>
    cases h'
    exact .nil
  | text _ ih =>
    cases h' with
    | text hrest => exact .text (ih hrest)
  | declared hk hn _ ih =>
    obtain ⟨rest, rfl, hrest⟩ := h'.of_ofLetters
    exact .declared (.inl hk) hn (ih hrest)
  | expr hk _ _ ihinner ihrest =>
    cases h' with
    | declared hl hn hrest => exact .declared (.inr hl) hn (ihrest hrest)
    | expr hl hinner hrest =>
      exact .expr (fun h => h.elim hk hl) (ihinner hinner) (ihrest hrest)

/-- Behind all three loops. -/
theorem Rewritten.left (h : Rewritten K N F F') (hK : ∀ k, K k) : Left N F F'.render := by
  induction h with
  | nil => exact .nil
  | text _ ih => exact .text ih
  | declared _ hn _ ih =>
    rw [render_ofLetters, variableLetters_val]
    exact .declared hn ih
  | expr hk _ _ _ _ => exact absurd (hK _) hk

theorem above_ofLetters (ls : List Letter) (n : ℕ) : (ofLetters ls F).Above n ↔ F.Above n := by
  induction ls with
  | nil => exact Iff.rfl
  | cons c ls ih => exact ih

theorem rank_injective {k k' : ExprKind} (h : k.rank = k'.rank) : k = k' := by
  cases k <;> cases k' <;> first | rfl | exact absurd h (by decide)

/-- The loop of a kind leaves expressions of the later kinds only. -/
theorem Rewritten.above (h : Rewritten (· = κ) N F F') (hF : F.Above κ.rank) :
    F'.Above (κ.rank+1) := by
  induction h with
  | nil => exact trivial
  | text _ ih => exact ih hF
  | declared _ _ _ ih => exact (above_ofLetters _ _).mpr (ih hF.2.2)
  | @expr k _ _ _ _ _ hk _ _ ihinner ihrest =>
    refine ⟨?_, ihinner hF.2.1, ihrest hF.2.2⟩
    exact Nat.lt_of_le_of_ne hF.1 fun hrank => hk (rank_injective hrank.symm)

theorem quiet_render (hF : F.Above (κ.rank+1)) : Quiet κ.pattern F.render := by
  induction F with
  | nil => exact quiet_nil _
  | text c rest ih => exact (quiet_letter c).append (ih hF)
  | expr k name inner rest ihinner ihrest =>
    have hk : k ≠ κ := by
      rintro rfl
      exact absurd hF.1 (Nat.not_succ_le_self _)
    have hinner := (quiet_opening hk name).append (ihinner hF.2.1)
    exact hinner.append ((quiet_right k).append (ihrest hF.2.2))

end Forest

/-! ### What stands behind an expression -/

/-- The end of the statement or of an argument; `closed` if the right bracket there is one of the
kind. -/
structure Follow (κ : ExprKind) (closed : Bool) (v : Bytes) : Prop where
  ends : Ends v
  right : v.head? = some κ.pattern.right ↔ closed = true

theorem follow_nil (κ : ExprKind) : Follow κ false [] :=
  ⟨ends_nil, ⟨fun h => (nomatch h), fun h => (nomatch h)⟩⟩

theorem follow_right (k κ : ExprKind) (s : Bytes) :
    Follow κ (k.pattern.right == κ.pattern.right) (k.pattern.right :: s) := by
  refine ⟨ends_right k s, ?_⟩
  rw [beq_iff_eq]
  exact ⟨fun h => Option.some.inj h, fun h => congrArg some h⟩

namespace Follow

variable {κ : ExprKind} {closed : Bool} {v : Bytes}

theorem nameEnds_iff (h : Follow κ closed v) (rest : Forest) :
    NameEnds (rest.render ++ v) ↔ rest.startsWord = false := by
  cases rest with
  | nil =>
    refine ⟨fun _ => rfl, fun _ => ?_⟩
    intro c hc
    rcases h.ends c hc with rfl | rfl
    · decide
    · decide
  | text c rest =>
    constructor
    · intro hends
      exact hends c.1 rfl
    · intro hword c' hc'
      obtain rfl := Option.some.inj hc'
      exact hword
  | expr k name inner rest =>
    refine ⟨fun _ => rfl, fun _ => ?_⟩
    intro c hc
    obtain rfl := Option.some.inj hc
    exact isWord_sigil k

theorem behind_iff (h : Follow κ closed v) (rest : Forest) :
    (rest.render ++ v).head? ≠ some κ.pattern.right ↔ (closed = true → rest ≠ .nil) := by
  cases rest with
  | nil =>
    have hright : ((Forest.nil).render ++ v).head? = some κ.pattern.right ↔ closed = true := h.right
    rw [ne_eq, hright]
    exact ⟨fun hopen hclosed => absurd hclosed hopen, fun hne hclosed => hne hclosed rfl⟩
  | text c rest =>
    refine ⟨fun _ _ => Forest.noConfusion, fun _ hc => ?_⟩
    have hplain : κ.pattern.right ∉ (Forest.text c .nil).render :=
      Forest.IsText.right_notMem (F := .text c .nil) trivial κ
    exact hplain (List.mem_singleton.mpr (Option.some.inj hc).symm)
  | expr k name inner rest =>
    refine ⟨fun _ _ => Forest.noConfusion, fun _ hc => ?_⟩
    have hright := Forest.right_notMem_opening κ k name
    have hsigil : k.pattern.sigil = κ.pattern.right := Option.some.inj hc
    exact hright (hsigil ▸ List.mem_cons_self)

end Follow

/-! ### The walk of one loop -/

section
variable {indeterminate : Bytes → Option StatementType} {indentTabs : Bytes} {r : FragmentPattern}
  {x x' x'' y : Translation} {D D' : List Declaration} {κ : ExprKind}

/-- The rounds from `x` on are those with the declarations `D` and then the rounds from `x'` on. -/
def Leads (indeterminate : Bytes → Option StatementType) (indentTabs : Bytes) (r : FragmentPattern)
    (x : Translation) (D : List Declaration) (x' : Translation) : Prop :=
  ∀ E y, ComposedRounds indeterminate indentTabs r E x y ↔
    ∃ E', E = D ++ E' ∧ ComposedRounds indeterminate indentTabs r E' x' y

theorem Leads.refl (x : Translation) : Leads indeterminate indentTabs r x [] x := by
  intro E y
  refine ⟨fun h => ⟨E, rfl, h⟩, ?_⟩
  intro h
  obtain ⟨E', rfl, hrounds⟩ := h
  exact hrounds

theorem Leads.trans (h : Leads indeterminate indentTabs r x D x')
    (h' : Leads indeterminate indentTabs r x' D' x'') :
    Leads indeterminate indentTabs r x (D ++ D') x'' := by
  intro E y
  rw [h E y]
  constructor
  · intro hrounds
    obtain ⟨E', rfl, hrounds'⟩ := hrounds
    obtain ⟨E'', rfl, hrounds''⟩ := (h' E' y).mp hrounds'
    exact ⟨E'', (List.append_assoc _ _ _).symm, hrounds''⟩
  · intro hrounds
    obtain ⟨E'', rfl, hrounds⟩ := hrounds
    refine ⟨D' ++ E'', List.append_assoc _ _ _, ?_⟩
    exact (h' _ y).mpr ⟨E'', rfl, hrounds⟩

/-- At its end the loop has one result. -/
theorem Leads.unique (h : Leads indeterminate indentTabs r x D x')
    (hnone : r.search x'.sStatement = none) {E : List Declaration} :
    ComposedRounds indeterminate indentTabs r E x y ↔ E = D ∧ y = x' := by
  rw [h E y]
  constructor
  · intro hrounds
    obtain ⟨E', rfl, hrounds⟩ := hrounds
    cases hrounds with
    | done _ => exact ⟨List.append_nil D, rfl⟩
    | round _ hsearch _ _ _ =>
      rw [hnone] at hsearch
      cases hsearch
  · intro hsame
    obtain ⟨rfl, rfl⟩ := hsame
    exact ⟨[], (List.append_nil _).symm, .done hnone⟩

theorem RoundFits.leads (indeterminate : Bytes → Option StatementType) (indentTabs : Bytes)
    {name : ExprName} {inner : Forest} {w v : Bytes}
    (h : RoundFits κ name inner v) (hw : Quiet κ.pattern w)
    (hx : x.sStatement = w ++ ((Forest.expr κ name inner .nil).render ++ v))
    (hroom : (x.iVariableCount : ℤ) < intMax) :
    ∃ x', x'.sStatement = w ++ createNewVariable (x.iVariableCount+1) ++ v ∧
      x'.iVariableCount = x.iVariableCount+1 ∧
      Leads indeterminate indentTabs κ.pattern x [(x.iVariableCount+1, ⟨κ, name, inner⟩)] x' := by
  obtain ⟨x', hround, hleads⟩ := h.composed_iff hw hx hroom
  have hreplaced := replaced_of_ok hround
  refine ⟨x', ?_, hreplaced.count, hleads⟩
  rw [hreplaced.statement, hx, List.take_left, ← List.append_assoc, ← List.length_append,
    List.drop_left]

/-- The loop goes over a statement from the left: it comes through exactly if the expressions of its
kind are orderly and there are numbers for them, and then they have become variables. -/
theorem walk (indeterminate : Bytes → Option StatementType) (indentTabs : Bytes) {F : Forest}
    (hF : F.Above κ.rank) {closed : Bool} {w v : Bytes}
    (hw : Quiet κ.pattern w) (hv : Follow κ closed v) (hx : x.sStatement = w ++ (F.render ++ v)) :
    ((F.Orderly κ closed ∧ Numbered x.iVariableCount (F.replaced κ)) ∧
      ∃ D x' F', F.Rewritten (· = κ) (D.map Prod.fst) F' ∧
        x'.sStatement = w ++ (F'.render ++ v) ∧
        x'.iVariableCount = x.iVariableCount+F.replaced κ ∧
        Leads indeterminate indentTabs κ.pattern x D x') ∨
      (¬ (F.Orderly κ closed ∧ Numbered x.iVariableCount (F.replaced κ)) ∧
        ∀ E y, ¬ ComposedRounds indeterminate indentTabs κ.pattern E x y) := by
  induction F generalizing closed w v x with
  | nil => exact .inl ⟨⟨trivial, .inl rfl⟩, [], x, .nil, .nil, hx, rfl, .refl x⟩
  | text c rest ih =>
    have hx' : x.sStatement = w ++ [c.1] ++ (rest.render ++ v) := by
      rw [hx, List.append_assoc]
      rfl
    rcases ih hF (hw.append (quiet_letter c)) hv hx' with
      ⟨hgood, D, x', F', hF', hs, hcount, hleads⟩ | ⟨hbad, hnone⟩
    · left
      refine ⟨hgood, D, x', .text c F', .text hF', ?_, hcount, hleads⟩
      rw [hs, List.append_assoc]
      rfl
    · exact .inr ⟨hbad, hnone⟩
  | expr k name inner rest ihinner ihrest =>
    obtain ⟨hrank, hinner, hrest⟩ := hF
    rw [Forest.Orderly, if_neg (Nat.not_lt.mpr hrank), Forest.replaced,
      if_neg (Nat.not_lt.mpr hrank)]
    by_cases hk : k = κ
    · subst hk
      rw [if_pos rfl, if_pos rfl, numbered_succ]
      have hstatement : x.sStatement =
          w ++ ((Forest.expr k name inner .nil).render ++ (rest.render ++ v)) := by
        rw [hx, Forest.render_expr, Forest.render_expr]
        rfl
      have hfits : RoundFits k name inner (rest.render ++ v) ↔ inner.Fits k k ∧
          rest.startsWord = false ∧ (closed = true → rest ≠ .nil) := by
        rw [roundFits_iff hinner, hv.nameEnds_iff, hv.behind_iff]
      by_cases hround : RoundFits k name inner (rest.render ++ v) ∧
          (x.iVariableCount : ℤ) < intMax
      · obtain ⟨hround, hroom⟩ := hround
        obtain ⟨x₁, hx₁, hcount₁, hleads₁⟩ :=
          hround.leads indeterminate indentTabs hw hstatement hroom
        obtain ⟨hargument, hword, hclosed⟩ := hfits.mp hround
        rcases ihrest hrest (hw.append (quiet_variable _)) hv hx₁ with
          ⟨hgood, D, x', F', hF', hs, hcount, hleads⟩ | ⟨hbad, hnone⟩
        · left
          rw [hcount₁] at hgood
          refine ⟨⟨⟨hargument, hword, hclosed, hgood.1⟩, hroom, hgood.2⟩, _, x', _,
            .declared rfl List.mem_cons_self (hF'.mono (List.subset_cons_self _ _)), ?_, ?_,
            hleads₁.trans hleads⟩
          · rw [hs, Forest.render_ofLetters, variableLetters_val]
            simp only [List.append_assoc]
          · rw [hcount, hcount₁]
            omega
        · right
          rw [hcount₁] at hbad
          refine ⟨fun h => hbad ⟨h.1.2.2.2, h.2.2⟩, ?_⟩
          intro E y hrounds
          obtain ⟨E', -, hrounds'⟩ := (hleads₁ E y).mp hrounds
          exact hnone E' y hrounds'
      · right
        refine ⟨fun h => hround ⟨hfits.mpr ⟨h.1.1, h.1.2.1, h.1.2.2.1⟩, h.2.1⟩, ?_⟩
        intro E y hrounds
        exact hround (roundFits_of_composed hw hstatement hrounds)
    · rw [if_neg hk, if_neg hk, numbered_add]
      have hx₀ : x.sStatement = w ++ k.opening name ++
          (inner.render ++ k.pattern.right :: (rest.render ++ v)) := by
        rw [hx, Forest.render_expr, List.append_assoc]
      have hopening := hw.append (quiet_opening hk name)
      rcases ihinner hinner hopening (follow_right k κ (rest.render ++ v)) hx₀ with
        ⟨hgood₁, D₁, x₁, inner', hinner', hs₁, hcount₁, hleads₁⟩ | ⟨hbad, hnone⟩
      · have hquiet := (hopening.append (Forest.quiet_render (hinner'.above hinner))).append
          (quiet_right k)
        have hx₁ : x₁.sStatement = w ++ k.opening name ++ inner'.render ++ [k.pattern.right] ++
            (rest.render ++ v) := by
          rw [hs₁]
          simp only [List.append_assoc, List.singleton_append]
        rcases ihrest hrest hquiet hv hx₁ with
          ⟨hgood, D, x', F', hF', hs, hcount, hleads⟩ | ⟨hbad, hnone⟩
        · left
          rw [hcount₁] at hgood
          refine ⟨⟨⟨hgood₁.1, hgood.1⟩, hgood₁.2, hgood.2⟩, D₁ ++ D, x', .expr k name inner' F',
            ?_, ?_, ?_, hleads₁.trans hleads⟩
          · rw [List.map_append]
            exact .expr hk (hinner'.mono (List.subset_append_left _ _))
              (hF'.mono (List.subset_append_right _ _))
          · rw [hs, Forest.render_expr]
            simp only [List.append_assoc, List.singleton_append]
          · rw [hcount, hcount₁]
            omega
        · right
          rw [hcount₁] at hbad
          refine ⟨fun h => hbad ⟨h.1.2, h.2.2⟩, ?_⟩
          intro E y hrounds
          obtain ⟨E', -, hrounds'⟩ := (hleads₁ E y).mp hrounds
          exact hnone E' y hrounds'
      · exact .inr ⟨fun h => hbad ⟨h.1.1, h.2.1⟩, hnone⟩

end

/-! ### The loops before -/

namespace Forest

variable {N : List ℕ} {F F' : Forest} {κ L : ExprKind}

theorem flat_ofLetters (ls : List Letter) : (ofLetters ls F).Flat L ↔ F.Flat L := by
  induction ls with
  | nil => exact Iff.rfl
  | cons c ls ih => exact ih

theorem orderly_ofLetters (ls : List Letter) (closed : Bool) :
    (ofLetters ls F).Orderly L closed ↔ F.Orderly L closed := by
  induction ls with
  | nil => exact Iff.rfl
  | cons c ls ih => exact ih

theorem letters_ofLetters (ls : List Letter) :
    (ofLetters ls F).letters = ls.map Subtype.val ++ F.letters := by
  induction ls with
  | nil => rfl
  | cons c ls ih =>
    rw [List.map_cons, List.cons_append, ← ih]
    rfl

theorem variableLetters_cons (n : ℕ) : ∃ c ls, variableLetters n = c :: ls ∧ c.1 = 36 := by
  have hval := variableLetters_val n
  cases h : variableLetters n with
  | nil =>
    rw [h] at hval
    exact absurd hval.symm (by unfold createNewVariable; exact List.cons_ne_nil _ _)
  | cons c ls =>
    rw [h, List.map_cons] at hval
    exact ⟨c, ls, rfl, (List.cons.inj hval).1⟩

theorem notMem_variable {c : Byte} (hc : c = 44 ∨ c = 39 ∨ c = 34) (n : ℕ) :
    c ∉ createNewVariable n := by
  apply notMem_createNewVariable
  unfold IsBracket
  rcases hc with rfl | rfl | rfl <;> decide

theorem commaFits_variable (parent : ExprKind) (n : ℕ) (s : Bytes) :
    CommaFits parent (createNewVariable n ++ s) ↔ CommaFits parent s := by
  have hmem {c : Byte} (hc : c = 44 ∨ c = 39 ∨ c = 34) : c ∈ createNewVariable n ++ s ↔ c ∈ s :=
    ⟨fun hin => (List.mem_append.mp hin).resolve_left (notMem_variable hc n),
      fun hin => List.mem_append_right _ hin⟩
  unfold CommaFits
  rw [hmem (.inl rfl), hmem (.inr (.inl rfl)), hmem (.inr (.inr rfl))]

theorem Rewritten.flat_iff (h : Rewritten (· = κ) N F F') (hL : κ.rank < L.rank) :
    F'.Flat L ↔ F.Flat L := by
  induction h with
  | nil => exact Iff.rfl
  | text _ ih => exact ih
  | declared hk _ _ ih =>
    subst hk
    rw [flat_ofLetters, ih, Flat]
    exact ⟨fun hrest => ⟨hL, hrest⟩, fun hrest => hrest.2⟩
  | expr _ _ _ _ ihrest =>
    rw [Flat, Flat, ihrest]

/-- Variables have neither commas nor quotes. -/
theorem Rewritten.mem_letters_iff (h : Rewritten (· = κ) N F F') {c : Byte}
    (hc : c = 44 ∨ c = 39 ∨ c = 34) :
    c ∈ F'.letters ↔ c ∈ F.letters := by
  induction h with
  | nil => exact Iff.rfl
  | text _ ih =>
    rw [letters, letters, List.mem_cons, List.mem_cons, ih]
  | @declared n _ _ _ _ _ _ _ _ ih =>
    rw [letters_ofLetters, variableLetters_val, List.mem_append, ih, letters]
    exact ⟨fun hin => hin.resolve_left (notMem_variable hc n), fun hin => .inr hin⟩
  | expr _ _ _ _ ihrest =>
    rw [letters, letters, ihrest]

theorem Rewritten.commaFits_iff (h : Rewritten (· = κ) N F F') (parent : ExprKind) (s : Bytes) :
    CommaFits parent (s ++ F'.letters) ↔ CommaFits parent (s ++ F.letters) := by
  unfold CommaFits
  simp only [List.mem_append]
  rw [h.mem_letters_iff (.inl rfl), h.mem_letters_iff (.inr (.inl rfl)),
    h.mem_letters_iff (.inr (.inr rfl))]

theorem Rewritten.eq_nil_iff (h : Rewritten (· = κ) N F F') :
    F' = Forest.nil ↔ F = Forest.nil := by
  cases h with
  | nil => exact Iff.rfl
  | text _ => exact ⟨fun h => Forest.noConfusion h, fun h => Forest.noConfusion h⟩
  | @declared n _ _ _ _ _ _ _ _ =>
    obtain ⟨c, ls, hls, -⟩ := variableLetters_cons n
    rw [hls]
    exact ⟨fun h => Forest.noConfusion h, fun h => Forest.noConfusion h⟩
  | expr _ _ _ => exact ⟨fun h => Forest.noConfusion h, fun h => Forest.noConfusion h⟩

theorem Rewritten.startsWord_eq (h : Rewritten (· = κ) N F F') : F'.startsWord = F.startsWord := by
  cases h with
  | nil => rfl
  | text _ => rfl
  | @declared n _ _ _ _ _ _ _ _ =>
    obtain ⟨c, ls, hls, hc⟩ := variableLetters_cons n
    have hdollar : isWord c.1 = false := by
      rw [hc]
      decide
    rw [hls]
    exact hdollar
  | expr _ _ _ => rfl

theorem Rewritten.fits_iff (h : Rewritten (· = κ) N F F') (hL : κ.rank < L.rank)
    (parent : ExprKind) :
    F'.Fits L parent ↔ F.Fits L parent := by
  induction h generalizing parent with
  | nil => exact Iff.rfl
  | @text c _ _ hrest _ =>
    rw [Fits, Fits, hrest.flat_iff hL]
    have hcomma := hrest.commaFits_iff parent [c.1]
    rw [List.singleton_append, List.singleton_append] at hcomma
    rw [hcomma]
  | @declared n _ _ _ rest rest' hk _ hrest _ =>
    subst hk
    obtain ⟨c, ls, hls, -⟩ := variableLetters_cons n
    have hletters := variableLetters_val n
    rw [hls, List.map_cons] at hletters
    have hcomma := hrest.commaFits_iff parent []
    rw [List.nil_append, List.nil_append] at hcomma
    have hfits : (ofLetters (variableLetters n) rest').Fits L parent ↔
        (ofLetters ls rest').Flat L ∧ CommaFits parent (c.1 :: (ofLetters ls rest').letters) := by
      rw [hls]
      exact Iff.rfl
    rw [hfits, flat_ofLetters, hrest.flat_iff hL, letters_ofLetters, ← List.cons_append, hletters,
      commaFits_variable, hcomma, Fits, if_pos hL]
  | @expr k _ _ _ rest rest' _ _ hrest ihinner _ =>
    have hcomma := hrest.commaFits_iff parent []
    rw [List.nil_append, List.nil_append] at hcomma
    rw [Fits, Fits, hrest.flat_iff hL, hcomma, hrest.eq_nil_iff, ihinner]

/-- A loop leaves the later ones the same task. -/
theorem Rewritten.orderly_iff (h : Rewritten (· = κ) N F F') (hL : κ.rank < L.rank)
    (closed : Bool) :
    F'.Orderly L closed ↔ F.Orderly L closed := by
  induction h generalizing closed with
  | nil => exact Iff.rfl
  | text _ ih => exact ih closed
  | declared hk _ _ ih =>
    subst hk
    rw [orderly_ofLetters, ih, Orderly, if_pos hL]
  | expr _ hinner hrest ihinner ihrest =>
    rw [Orderly, Orderly, ihrest, ihinner, hinner.fits_iff hL, hrest.startsWord_eq,
      ne_eq, ne_eq, hrest.eq_nil_iff]

theorem replaced_ofLetters (ls : List Letter) (κ : ExprKind) :
    (ofLetters ls F).replaced κ = F.replaced κ := by
  induction ls with
  | nil => rfl
  | cons c ls ih => exact ih

/-- And the same number of expressions. -/
theorem Rewritten.replaced_eq (h : Rewritten (· = κ) N F F') (hL : κ.rank < L.rank) :
    F'.replaced L = F.replaced L := by
  induction h with
  | nil => rfl
  | text _ ih => exact ih
  | declared hk _ _ ih =>
    subst hk
    rw [replaced_ofLetters, ih, replaced, if_pos hL]
  | expr _ _ _ ihinner ihrest => rw [replaced, replaced, ihinner, ihrest]

end Forest

/-! ### The whole translation -/

section
variable {indeterminate : Bytes → Option StatementType} {indentTabs : Bytes} {r : FragmentPattern}
  {x y z : Translation} {D : List Declaration} {κ : ExprKind} {F : Forest}

theorem search_none {G : Forest} (hF : F.Above κ.rank) {N : List ℕ}
    (h : F.Rewritten (· = κ) N G) : κ.pattern.search G.render = none := by
  have hquiet := (Forest.quiet_render (h.above hF)).search [] noOpen_nil
  rw [List.append_nil] at hquiet
  rw [hquiet]
  rfl

/-- One loop over a whole statement. -/
theorem composed_loop (indeterminate : Bytes → Option StatementType) (indentTabs : Bytes)
    (κ : ExprKind) (hF : F.Above κ.rank) (hx : x.sStatement = F.render) :
    (F.Orderly κ false ∧ Numbered x.iVariableCount (F.replaced κ) →
      ∃ D y, ComposedRounds indeterminate indentTabs κ.pattern D x y) ∧
      ∀ D y, ComposedRounds indeterminate indentTabs κ.pattern D x y →
        (F.Orderly κ false ∧ Numbered x.iVariableCount (F.replaced κ)) ∧
        y.iVariableCount = x.iVariableCount+F.replaced κ ∧
        ∃ G, F.Rewritten (· = κ) (D.map Prod.fst) G ∧ y.sStatement = G.render := by
  have hx' : x.sStatement = [] ++ (F.render ++ []) := by
    rw [hx, List.append_nil, List.nil_append]
  rcases walk indeterminate indentTabs hF (quiet_nil _) (follow_nil κ) hx' with
    ⟨hgood, D, x', G, hG, hs, hcount, hleads⟩ | ⟨hbad, hnone⟩
  · rw [List.nil_append, List.append_nil] at hs
    have hend : κ.pattern.search x'.sStatement = none := by
      rw [hs]
      exact search_none hF hG
    refine ⟨fun _ => ⟨D, x', (hleads.unique hend).mpr ⟨rfl, rfl⟩⟩, ?_⟩
    intro E y hrounds
    obtain ⟨rfl, rfl⟩ := (hleads.unique hend).mp hrounds
    exact ⟨hgood, hcount, G, hG, hs⟩
  · refine ⟨fun hgood => absurd hgood hbad, ?_⟩
    intro E y hrounds
    exact absurd hrounds (hnone E y)

theorem numbered_variableCount (count : ℕ) (F : Forest) : Numbered count F.variableCount ↔
    Numbered count (F.replaced .call) ∧
      Numbered (count+F.replaced .call) (F.replaced .list) ∧
      Numbered (count+F.replaced .call+F.replaced .list) (F.replaced .map) := by
  unfold Forest.variableCount
  rw [numbered_add, numbered_add, and_assoc, Nat.add_assoc]

/-- The three loops come through exactly if the statement is translatable and there are numbers for
its variables. -/
theorem translatable_of_loops {calls lists maps : List Declaration} (hx : x.sStatement = F.render)
    {x' : Translation} (hcalls : ComposedRounds indeterminate indentTabs funcPattern calls x x')
    (hlists : ComposedRounds indeterminate indentTabs arrayPattern lists x' y)
    (hmaps : ComposedRounds indeterminate indentTabs mapPattern maps y z) :
    F.Translatable ∧ Numbered x.iVariableCount F.variableCount := by
  obtain ⟨hcall, hcount₁, F₁, h₁, hs₁⟩ :=
    (composed_loop indeterminate indentTabs .call (Forest.above_zero F) hx).2 calls x' hcalls
  have habove₁ := h₁.above (Forest.above_zero F)
  obtain ⟨hlist, hcount₂, F₂, h₂, hs₂⟩ :=
    (composed_loop indeterminate indentTabs .list habove₁ hs₁).2 lists y hlists
  have habove₂ := h₂.above habove₁
  obtain ⟨hmap, -⟩ :=
    (composed_loop indeterminate indentTabs .map habove₂ hs₂).2 maps z hmaps
  rw [h₁.orderly_iff (by decide), h₁.replaced_eq (by decide)] at hlist
  rw [h₂.orderly_iff (by decide), h₁.orderly_iff (by decide), h₂.replaced_eq (by decide),
    h₁.replaced_eq (by decide)] at hmap
  rw [h₁.replaced_eq (by decide)] at hcount₂
  rw [hcount₂, hcount₁] at hmap
  rw [hcount₁] at hlist
  exact ⟨⟨hcall.1, hlist.1, hmap.1⟩,
    (numbered_variableCount _ F).mpr ⟨hcall.2, hlist.2, hmap.2⟩⟩

theorem loops_of_translatable (indeterminate : Bytes → Option StatementType) (indentTabs : Bytes)
    (h : F.Translatable) (hnumbers : Numbered x.iVariableCount F.variableCount)
    (hx : x.sStatement = F.render) : ∃ calls lists maps x' y z,
      ComposedRounds indeterminate indentTabs funcPattern calls x x' ∧
      ComposedRounds indeterminate indentTabs arrayPattern lists x' y ∧
      ComposedRounds indeterminate indentTabs mapPattern maps y z ∧
      Left ((calls ++ lists ++ maps).map Prod.fst) F z.sStatement := by
  obtain ⟨hcall, hlist, hmap⟩ := h
  obtain ⟨hnumbers₁, hnumbers₂, hnumbers₃⟩ := (numbered_variableCount _ F).mp hnumbers
  have hloop₁ := composed_loop indeterminate indentTabs .call (Forest.above_zero F) hx
  obtain ⟨calls, x', hcalls⟩ := hloop₁.1 ⟨hcall, hnumbers₁⟩
  obtain ⟨-, hcount₁, F₁, h₁, hs₁⟩ := hloop₁.2 calls x' hcalls
  have habove₁ := h₁.above (Forest.above_zero F)
  have hloop₂ := composed_loop indeterminate indentTabs .list habove₁ hs₁
  rw [h₁.orderly_iff (by decide), h₁.replaced_eq (by decide), hcount₁] at hloop₂
  obtain ⟨lists, y, hlists⟩ := hloop₂.1 ⟨hlist, hnumbers₂⟩
  obtain ⟨-, hcount₂, F₂, h₂, hs₂⟩ := hloop₂.2 lists y hlists
  have habove₂ := h₂.above habove₁
  have hloop₃ := composed_loop indeterminate indentTabs .map habove₂ hs₂
  rw [h₂.orderly_iff (by decide), h₁.orderly_iff (by decide), h₂.replaced_eq (by decide),
    h₁.replaced_eq (by decide), hcount₂] at hloop₃
  obtain ⟨maps, z, hmaps⟩ := hloop₃.1 ⟨hmap, hnumbers₃⟩
  obtain ⟨-, -, F₃, h₃, hs₃⟩ := hloop₃.2 maps z hmaps
  refine ⟨calls, lists, maps, x', y, z, hcalls, hlists, hmaps, ?_⟩
  -- what the loops have rewritten one after the other
  have hall : F.Rewritten (fun k => (k = .call ∨ k = .list) ∨ k = .map)
      ((calls ++ lists ++ maps).map Prod.fst) F₃ := by
    rw [List.map_append, List.map_append]
    exact ((h₁.mono (List.subset_append_of_subset_left _ (List.subset_append_left _ _))).trans
      (h₂.mono (List.subset_append_of_subset_left _ (List.subset_append_right _ _)))).trans
        (h₃.mono (List.subset_append_right _ _))
  rw [hs₃]
  apply hall.left
  intro k
  cases k
  · exact .inl (.inl rfl)
  · exact .inl (.inr rfl)
  · exact .inr rfl

/-- What a loop writes into the declarations. -/
theorem ComposedRounds.declared (h : ComposedRounds indeterminate indentTabs r D x y) :
    y.variableDeclarations = x.variableDeclarations ++ D.flatMap (setCommand indentTabs) ∧
      D.map Prod.fst = List.range' (x.iVariableCount+1) D.length ∧
      y.iVariableCount = x.iVariableCount+D.length := by
  induction h with
  | done _ => exact ⟨(List.append_nil _).symm, rfl, rfl⟩
  | round _ _ _ hround hdeclared _ ih =>
    obtain ⟨hdeclarations, hnumbers, hcount⟩ := ih
    rw [(replaced_of_ok hround).count] at hnumbers hcount
    refine ⟨?_, ?_, ?_⟩
    · rw [hdeclarations, hdeclared, List.flatMap_cons, List.append_assoc]
    · rw [List.map_cons, List.length_cons, List.range'_succ, hnumbers]
    · rw [hcount, List.length_cons]
      omega

theorem ComposedRounds.rounds (h : ComposedRounds indeterminate indentTabs r D x y) :
    Rounds indeterminate indentTabs r D.length x (.ok y) := by
  induction h with
  | done hnone => exact .done hnone
  | round _ hsearch _ hround _ _ ih => exact .round hsearch hround ih

theorem Rounds.bTranslated {n : ℕ} {result : Cxx Translation}
    (h : Rounds indeterminate indentTabs r n x result) (hy : result = .ok y)
    (hx : x.bTranslated = true) : y.bTranslated = true := by
  induction h with
  | done _ => exact Except.ok.inj hy ▸ hx
  | leaves _ _ => cases hy
  | round _ hround _ ih => exact ih hy (replaced_of_ok hround).translated

/-- A loop after which nothing is translated had no round. -/
theorem Rounds.untranslated {n : ℕ} (h : Rounds indeterminate indentTabs r n x (.ok y))
    (hy : y.bTranslated = false) :
    x.bTranslated = false ∧ ComposedRounds indeterminate indentTabs r [] x y := by
  cases h with
  | done hnone => exact ⟨hy, .done hnone⟩
  | round _ hround hrest =>
    have htrue := hrest.bTranslated rfl (replaced_of_ok hround).translated
    exact Bool.noConfusion (hy.symm.trans htrue)

theorem ComposedRounds.loops {x' : Translation} {calls lists maps : List Declaration}
    (hcalls : ComposedRounds indeterminate indentTabs funcPattern calls x x')
    (hlists : ComposedRounds indeterminate indentTabs arrayPattern lists x' y)
    (hmaps : ComposedRounds indeterminate indentTabs mapPattern maps y z) : ∃ n,
    Loops indeterminate indentTabs fragmentPatterns n x (.ok z) :=
  ⟨_, .next hcalls.rounds (.next hlists.rounds (.next hmaps.rounds .done))⟩

end

/-- For every statement of nested and adjacent expressions: its translation is compositional exactly
if each loop meets orderly expressions only, and the numbers of the variables are `int`s. -/
theorem compositional_iff (indeterminate : Bytes → Option StatementType) (indentTabs : Bytes)
    (iVariableCount : ℕ) (F : Forest) :
    Compositional indeterminate indentTabs iVariableCount F ↔
      F.Translatable ∧ Numbered iVariableCount F.variableCount := by
  let start : Translation := { sStatement := F.render, iVariableCount }
  constructor
  · intro h
    obtain ⟨hdefined, h⟩ := h
    obtain ⟨n, result, hloops, -⟩ := exists_loops indeterminate indentTabs start
    have hresult := hloops.translateStatement
    have hsigils : ∀ r ∈ fragmentPatterns, symbolOf r.sigil = none := by decide
    rcases hloops.named hsigils F.named_render with rfl | ⟨z, rfl⟩
    · exact absurd hresult hdefined
    cases hloops with
    | next hx hrest =>
    cases hrest with
    | next hy hrest =>
    cases hrest with
    | next hz hrest =>
    cases hrest
    cases hok : z.bTranslated with
    | true =>
      rw [Except.map, hok] at hresult
      obtain ⟨D, hcomposed⟩ := h z hresult
      obtain ⟨calls, lists, maps, x', y', -, hcalls, hlists, hmaps⟩ := hcomposed.loops
      exact translatable_of_loops (x := start) rfl hcalls hlists hmaps
    | false =>
      -- no round at all
      obtain ⟨hyok, hmaps⟩ := hz.untranslated hok
      obtain ⟨hxok, hlists⟩ := hy.untranslated hyok
      exact translatable_of_loops (x := start) rfl (hx.untranslated hxok).2 hlists hmaps
  · intro h
    obtain ⟨htranslatable, hnumbers⟩ := h
    obtain ⟨calls, lists, maps, x, y, z', hcalls, hlists, hmaps, hleft⟩ :=
      loops_of_translatable indeterminate indentTabs (x := start) htranslatable hnumbers rfl
    obtain ⟨n, hloops⟩ := hcalls.loops hlists hmaps
    have hresult := hloops.translateStatement
    refine ⟨fun herr => (nomatch hresult.symm.trans herr), fun z hz => ?_⟩
    obtain ⟨-, rfl⟩ := Prod.mk.inj (Except.ok.inj (hz.symm.trans hresult))
    obtain ⟨hd₁, hn₁, hc₁⟩ := hcalls.declared
    obtain ⟨hd₂, hn₂, hc₂⟩ := hlists.declared
    obtain ⟨hd₃, hn₃, -⟩ := hmaps.declared
    refine ⟨calls ++ lists ++ maps, ⟨calls, lists, maps, x, y, rfl, hcalls, hlists, hmaps⟩,
      ?_, ?_, hleft⟩
    · rw [hd₃, hd₂, hd₁, List.flatMap_append, List.flatMap_append]
      rfl
    · -- the numbers go on from loop to loop
      have hall : (calls ++ lists ++ maps).map Prod.fst =
          List.range' (iVariableCount+1) (calls.length+lists.length+maps.length) := by
        have hy : y.iVariableCount+1 = iVariableCount+1+(calls.length+lists.length) := by
          rw [hc₂, hc₁]
          dsimp only [start]
          omega
        have hx : x.iVariableCount+1 = iVariableCount+1+calls.length := by
          rw [hc₁]
          dsimp only [start]
          omega
        have hstart : start.iVariableCount = iVariableCount := rfl
        rw [List.map_append, List.map_append, hn₁, hn₂, hn₃, hx, hy, hstart, List.range'_append_1,
          List.range'_append_1]
      rw [hall]
      exact List.nodup_range'

/-! ### Two arguments side by side -/

def nameOf (c : Byte) (h : isWord c = true) : ExprName := ⟨[c], List.forall_mem_singleton.mpr h⟩

def digitOf (c : Byte) (h : symbolOf c = none) : Forest := .text ⟨c, h⟩ .nil

/-- `$f($g(1)$h(2))` -/
def adjacentArguments : Forest :=
  .expr .call (nameOf 102 rfl)
    (.expr .call (nameOf 103 rfl) (digitOf 49 rfl)
      (.expr .call (nameOf 104 rfl) (digitOf 50 rfl) .nil)) .nil

/-- Both calls are taken with brackets that are not their own, so nothing is declared. -/
theorem adjacent_arguments_lost : ¬ ∀ (indeterminate : Bytes → Option StatementType)
    (indentTabs : Bytes) (iVariableCount : ℕ) (F : Forest),
    Compositional indeterminate indentTabs iVariableCount F := by
  intro h
  have hresult : translateStatement (fun _ => none) [] 0 adjacentArguments.render =
      .ok (.ok, ⟨bytes "$__variable1$__variable2", [], 2, true⟩) := by
    decide
  obtain ⟨D, hcomposed⟩ := (h (fun _ => none) [] 0 adjacentArguments).2 _ hresult
  -- two variables are left, and none is declared
  have hnone : D = [] := by
    cases D with
    | nil => rfl
    | cons d D =>
      have hdeclarations := hcomposed.declarations
      rw [List.flatMap_cons] at hdeclarations
      unfold setCommand at hdeclarations
      cases hdeclarations
  have hundeclared : ∀ s, ¬ Left [] adjacentArguments s := by
    intro s hs
    cases hs with
    | declared hn _ => cases hn
  have hleft := hcomposed.left
  rw [hnone] at hleft
  exact hundeclared _ hleft

end MsgCourier
