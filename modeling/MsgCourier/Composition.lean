import MsgCourier.NamedBrackets

/-! When `TranslateStatement` is compositional: each round of its loops replaces one expression by a
variable and declares the Tcl of it. -/
namespace MsgCourier
open ListSearch CText

/-! ### What is to hold -/

structure Expression where
  kind : ExprKind
  name : ExprName
  inner : Forest

def Expression.forest (e : Expression) : Forest := .expr e.kind e.name e.inner .nil

/-- The declaration of a variable: its number, and the expression that it stands for. -/
abbrev Declaration := ℕ × Expression

def setCommand (indentTabs : Bytes) (d : Declaration) : Bytes :=
  bytes "\n" ++ indentTabs ++ bytes "set " ++ (createNewVariable d.1).tail ++ bytes " " ++
    d.2.forest.tcl ++ bytes "\n"

/-- Tcl ends the name of a variable in front of this text. -/
def NameEnds (v : Bytes) : Prop := ∀ c ∈ v.head?, isWord c = false

/-- The rounds of one loop, each of which replaces the text of an expression by a new variable, and
declares that variable once, as the Tcl of the expression. -/
inductive ComposedRounds (indeterminate : Bytes → Option StatementType) (indentTabs : Bytes)
    (r : FragmentPattern) : List Declaration → Translation → Translation → Prop
  | done {x : Translation} :
      r.search x.sStatement = none → ComposedRounds indeterminate indentTabs r [] x x
  | round {D : List Declaration} {x x' y : Translation} {e : Expression} {u v : Bytes} :
      x.sStatement = u ++ (e.forest.render ++ v) →
      r.search x.sStatement = some (u.length, e.forest.render) → NameEnds v →
      processStatementFragment indeterminate indentTabs x u.length e.forest.render = .ok x' →
      x'.variableDeclarations =
        x.variableDeclarations ++ setCommand indentTabs (x.iVariableCount+1, e) →
      ComposedRounds indeterminate indentTabs r D x' y →
      ComposedRounds indeterminate indentTabs r ((x.iVariableCount+1, e) :: D) x y

/-- The texts of a statement, with a declared variable in the place of each expression. -/
inductive Left (N : List ℕ) : Forest → Bytes → Prop
  | nil : Left N .nil []
  | text {c : Letter} {rest : Forest} {s : Bytes} :
      Left N rest s → Left N (.text c rest) (c.1 :: s)
  | declared {n : ℕ} {k : ExprKind} {name : ExprName} {inner rest : Forest} {s : Bytes} :
      n ∈ N → Left N rest s →
      Left N (.expr k name inner rest) (createNewVariable n ++ s)

/-- A translation with its declarations: every variable has exactly one, each is the Tcl of the
expression that was replaced, and variables are all that is left of the expressions. -/
structure Composed (indeterminate : Bytes → Option StatementType) (indentTabs : Bytes)
    (iVariableCount : ℕ) (F : Forest) (D : List Declaration) (z : Translation) : Prop where
  loops : ∃ calls lists maps x y, D = calls ++ lists ++ maps ∧
    ComposedRounds indeterminate indentTabs funcPattern calls
      { sStatement := F.render, iVariableCount } x ∧
    ComposedRounds indeterminate indentTabs arrayPattern lists x y ∧
    ComposedRounds indeterminate indentTabs mapPattern maps y z
  declarations : z.variableDeclarations = D.flatMap (setCommand indentTabs)
  once : (D.map Prod.fst).Nodup
  left : Left (D.map Prod.fst) F z.sStatement

/-- The call does nothing undefined, and if it returns OK, the translation has its declarations. -/
def Compositional (indeterminate : Bytes → Option StatementType) (indentTabs : Bytes)
    (iVariableCount : ℕ) (F : Forest) : Prop :=
  translateStatement indeterminate indentTabs iVariableCount F.render ≠ .error .undefined ∧
  ∀ z, translateStatement indeterminate indentTabs iVariableCount F.render = .ok (.ok, z) →
    ∃ D, Composed indeterminate indentTabs iVariableCount F D z

/-! ### When it holds -/

/-- A comma stands between square brackets, and with a quote beside it. -/
def CommaFits (parent : ExprKind) (s : Bytes) : Prop :=
  44 ∈ s → parent ≠ .call ∧ (39 ∈ s ∨ 34 ∈ s)

namespace Forest

/-- Only letters and expressions whose loop comes before that of `κ`. -/
def Flat (κ : ExprKind) : Forest → Prop
  | nil => True
  | text _ rest => rest.Flat κ
  | expr k _ _ rest => k.rank < κ.rank ∧ rest.Flat κ

def letters : Forest → Bytes
  | nil => []
  | text c rest => c.1 :: rest.letters
  | expr _ _ _ rest => rest.letters

/-- The argument of an expression in the loop of `κ`: only one further expression, with no call
between square brackets, or a text in which the loops before have left variables. -/
def Fits (κ : ExprKind) : ExprKind → Forest → Prop
  | _, nil => True
  | parent, text c rest => rest.Flat κ ∧ CommaFits parent (c.1 :: rest.letters)
  | parent, expr k _ inner rest =>
    if k.rank < κ.rank then rest.Flat κ ∧ CommaFits parent rest.letters
    else rest = nil ∧ (k = .call → parent = .call) ∧ inner.Fits κ k

def startsWord : Forest → Bool
  | text c _ => isWord c.1
  | _ => false

/-- Each expression that the loop of `κ` meets has an argument that fits, and nothing behind it that
would make its variable's name or the run of its right brackets longer. -/
def Orderly (κ : ExprKind) : Bool → Forest → Prop
  | _, nil => True
  | closed, text _ rest => rest.Orderly κ closed
  | closed, expr k _ inner rest =>
    if k.rank < κ.rank then rest.Orderly κ closed
    else if k = κ then
      inner.Fits κ κ ∧ rest.startsWord = false ∧ (closed = true → rest ≠ nil) ∧
        rest.Orderly κ closed
    else inner.Orderly κ (k.pattern.right == κ.pattern.right) ∧ rest.Orderly κ closed

def Translatable (F : Forest) : Prop :=
  F.Orderly .call false ∧ F.Orderly .list false ∧ F.Orderly .map false

/-- The expressions that the loop of `κ` replaces. -/
def replaced (κ : ExprKind) : Forest → ℕ
  | nil => 0
  | text _ rest => rest.replaced κ
  | expr k _ inner rest =>
    if k.rank < κ.rank then rest.replaced κ
    else if k = κ then rest.replaced κ+1
    else inner.replaced κ+rest.replaced κ

/-- The variables that a translation makes. -/
def variableCount (F : Forest) : ℕ := F.replaced .call+F.replaced .list+F.replaced .map

end Forest

/-- The numbers of `n` variables behind `count` are `int`s. -/
def Numbered (count n : ℕ) : Prop := n = 0 ∨ ((count+n : ℕ) : ℤ) ≤ intMax

theorem numbered_succ {count n : ℕ} :
    Numbered count (n+1) ↔ (count : ℤ) < intMax ∧ Numbered (count+1) n := by
  unfold Numbered intMax
  omega

theorem numbered_add {count m n : ℕ} :
    Numbered count (m+n) ↔ Numbered count m ∧ Numbered (count+m) n := by
  unfold Numbered
  omega

/-! ### The leftmost match -/

theorem search_cons_of_none {r : FragmentPattern} {c : Byte} {s : Bytes}
    (h : r.matchAt (c :: s) = none) :
    r.search (c :: s) = (r.search s).map fun m => (m.1+1, m.2) := by
  rw [FragmentPattern.search, h]

theorem matchAt_none {r : FragmentPattern} {c : Byte} {s : Bytes}
    (h : c = r.sigil → ∀ u, s.dropWhile isWord ≠ r.left :: u) : r.matchAt (c :: s) = none := by
  unfold FragmentPattern.matchAt
  dsimp only
  by_cases hc : c = r.sigil
  · rw [if_pos hc]
    cases hdrop : s.dropWhile isWord with
    | nil => rfl
    | cons b u =>
      have hb : b ≠ r.left := by
        rintro rfl
        exact h hc u hdrop
      dsimp only
      rw [if_neg hb]
  · rw [if_neg hc]

theorem search_skip {r : FragmentPattern} {p : Bytes} (hp : ∀ c ∈ p, c ≠ r.sigil) (s : Bytes) :
    r.search (p ++ s) = (r.search s).map fun m => (p.length+m.1, m.2) := by
  induction p with
  | nil =>
    cases hsearch : r.search s with
    | none =>
      rw [List.nil_append, hsearch]
      rfl
    | some m => rw [List.nil_append, hsearch, Option.map_some, List.length_nil, Nat.zero_add]
  | cons c p ih =>
    have hnone : r.matchAt (c :: (p ++ s)) = none :=
      matchAt_none fun hc => absurd hc (hp c List.mem_cons_self)
    have hrest := ih fun c hc => hp c (List.mem_cons_of_mem _ hc)
    rw [List.cons_append, search_cons_of_none hnone, hrest, Option.map_map]
    congr 1
    funext m
    dsimp only [Function.comp_apply]
    rw [List.length_cons]
    congr 1
    omega

/-- No match begins in this text, whatever stands behind it. -/
structure Quiet (r : FragmentPattern) (w : Bytes) : Prop where
  noOpen : ∀ s, NoOpen s → NoOpen (w ++ s)
  search : ∀ s, NoOpen s →
    r.search (w ++ s) = (r.search s).map fun m => (w.length+m.1, m.2)

theorem quiet_nil (r : FragmentPattern) : Quiet r [] := by
  refine ⟨fun s hs => hs, ?_⟩
  exact fun s _ => search_skip (List.forall_mem_nil _) s

theorem Quiet.append {r : FragmentPattern} {w w' : Bytes} (h : Quiet r w) (h' : Quiet r w') :
    Quiet r (w ++ w') := by
  refine ⟨?_, ?_⟩
  · intro s hs
    rw [List.append_assoc]
    exact h.noOpen _ (h'.noOpen s hs)
  · intro s hs
    rw [List.append_assoc, h.search _ (h'.noOpen s hs), h'.search s hs, Option.map_map]
    congr 1
    funext m
    dsimp only [Function.comp_apply]
    rw [List.length_append, Nat.add_assoc]

section
variable {κ : ExprKind}

theorem quiet_byte {c : Byte} (hc : c ≠ 40 ∧ c ≠ 91) : Quiet κ.pattern [c] := by
  refine ⟨fun s hs => hs.cons hc, ?_⟩
  intro s hs
  have hnone : κ.pattern.matchAt (c :: s) = none := by
    apply matchAt_none
    intro _ u hdrop
    have hleft := hs _ _ hdrop
    cases κ
    · exact hleft.1 rfl
    · exact hleft.2 rfl
    · exact hleft.2 rfl
  rw [List.singleton_append, search_cons_of_none hnone]
  congr 1
  funext m
  rw [List.length_singleton, Nat.add_comm]

theorem quiet_of_no_left {w : Bytes} (hw : ∀ c ∈ w, c ≠ 40 ∧ c ≠ 91) : Quiet κ.pattern w := by
  induction w with
  | nil => exact quiet_nil _
  | cons c w ih =>
    exact (quiet_byte (hw c List.mem_cons_self)).append
      (ih fun c hc => hw c (List.mem_cons_of_mem _ hc))

/-- The beginning of an expression of another kind. -/
theorem quiet_opening {k : ExprKind} (hk : k ≠ κ) (name : ExprName) :
    Quiet κ.pattern (k.opening name) := by
  refine ⟨fun s _ => noOpen_opening k name s, ?_⟩
  intro s _
  have hnone : κ.pattern.matchAt (k.pattern.sigil :: (name.1 ++ k.pattern.left :: s)) = none := by
    apply matchAt_none
    intro hsigil u hdrop
    rw [List.dropWhile_append_of_pos name.2,
      List.dropWhile_cons_of_neg (Bool.not_eq_true _ ▸ isWord_left k)] at hdrop
    exact hk (ExprKind.eq_of_pattern hsigil (List.cons.inj hdrop).1)
  have hskip : ∀ c ∈ name.1 ++ [k.pattern.left], c ≠ κ.pattern.sigil := by
    intro c hc
    rcases List.mem_append.mp hc with hname | hleft
    · rintro rfl
      exact Bool.noConfusion ((isWord_sigil κ).symm.trans (name.2 _ hname))
    · obtain rfl := List.mem_singleton.mp hleft
      cases k <;> cases κ <;> decide
  have hwhole : k.opening name ++ s = k.pattern.sigil :: (name.1 ++ k.pattern.left :: s) := by
    unfold ExprKind.opening
    rw [List.cons_append, List.cons_append, List.append_assoc]
    rfl
  have hrest : name.1 ++ k.pattern.left :: s = name.1 ++ [k.pattern.left] ++ s := by
    rw [List.append_assoc]
    rfl
  rw [hwhole, search_cons_of_none hnone, hrest, search_skip hskip, Option.map_map]
  congr 1
  funext m
  dsimp only [Function.comp_apply]
  have hlen : (k.opening name).length = (name.1 ++ [k.pattern.left]).length+1 := rfl
  rw [hlen]
  congr 1
  omega

theorem quiet_letter (c : Letter) : Quiet κ.pattern [c.1] := quiet_byte (left_ne c)

theorem quiet_right (k : ExprKind) : Quiet κ.pattern [k.pattern.right] := by
  apply quiet_byte
  cases k <;> decide

theorem quiet_variable (n : ℕ) : Quiet κ.pattern (createNewVariable n) :=
  quiet_of_no_left fun c hc => left_ne ⟨c, symbolOf_createNewVariable hc⟩

end

/-! ### The match of an expression -/

/-- The right brackets of a kind stand at the end of a text. -/
def ClosesAtEnd (right : Byte) (t : Bytes) : Prop :=
  ∃ a j, t = a ++ List.replicate j right ∧ right ∉ a

/-- The match of an expression goes on to the run of its right brackets. -/
theorem matchAt_expr (k : ExprKind) (name : ExprName) (inner : Forest) (v : Bytes) :
    k.pattern.matchAt ((Forest.expr k name inner .nil).render ++ v) =
      some (k.opening name ++
        ((inner.render ++ k.pattern.right :: v).takeWhile (· ≠ k.pattern.right) ++
          ((inner.render ++ k.pattern.right :: v).dropWhile (· ≠ k.pattern.right)).takeWhile
            (· = k.pattern.right))) := by
  have hwhole : (Forest.expr k name inner .nil).render ++ v =
      k.pattern.sigil :: (name.1 ++ k.pattern.left :: (inner.render ++ k.pattern.right :: v)) := by
    rw [Forest.render_expr]
    unfold ExprKind.opening
    rw [List.cons_append, List.cons_append, List.append_assoc]
    rfl
  have htake : (name.1 ++ k.pattern.left :: (inner.render ++ k.pattern.right :: v)).takeWhile
      isWord = name.1 := by
    rw [List.takeWhile_append_of_pos name.2,
      List.takeWhile_cons_of_neg (Bool.not_eq_true _ ▸ isWord_left k), List.append_nil]
  have hdrop : (name.1 ++ k.pattern.left :: (inner.render ++ k.pattern.right :: v)).dropWhile
      isWord = k.pattern.left :: (inner.render ++ k.pattern.right :: v) := by
    rw [List.dropWhile_append_of_pos name.2,
      List.dropWhile_cons_of_neg (Bool.not_eq_true _ ▸ isWord_left k)]
  have hne : (inner.render ++ k.pattern.right :: v).dropWhile (· ≠ k.pattern.right) ≠ [] := by
    intro hnil
    have hall := List.dropWhile_eq_nil_iff.mp hnil k.pattern.right
      (List.mem_append_right _ List.mem_cons_self)
    exact absurd rfl (of_decide_eq_true hall)
  rw [hwhole]
  unfold FragmentPattern.matchAt
  dsimp only
  rw [if_pos rfl, htake, hdrop]
  dsimp only
  rw [if_pos rfl]
  split
  · rename_i hnil
    exact absurd hnil hne
  · unfold ExprKind.opening
    simp only [List.cons_append, List.append_assoc, List.nil_append]

theorem takeWhile_right {right : Byte} {a : Bytes} (ha : right ∉ a) (j : ℕ) {v : Bytes}
    (hv : v.head? ≠ some right) :
    (a ++ List.replicate (j+1) right ++ v).takeWhile (· ≠ right) = a ∧
      ((a ++ List.replicate (j+1) right ++ v).dropWhile (· ≠ right)).takeWhile (· = right) =
        List.replicate (j+1) right := by
  have hfront : ∀ c ∈ a, decide (c ≠ right) = true := by
    intro c hc
    exact decide_eq_true fun h => ha (h ▸ hc)
  have hstop : ¬ decide (right ≠ right) = true := by simp
  have hrun : ∀ c ∈ List.replicate (j+1) right, decide (c = right) = true := by
    intro c hc
    exact decide_eq_true (List.eq_of_mem_replicate hc)
  have hend : v.takeWhile (· = right) = [] := by
    cases v with
    | nil => rfl
    | cons c v =>
      apply List.takeWhile_cons_of_neg
      intro hc
      exact hv (congrArg some (of_decide_eq_true hc))
  have htake : (List.replicate (j+1) right ++ v).takeWhile (· ≠ right) = [] :=
    List.takeWhile_cons_of_neg hstop
  have hdrop : (List.replicate (j+1) right ++ v).dropWhile (· ≠ right) =
      List.replicate (j+1) right ++ v := List.dropWhile_cons_of_neg hstop
  rw [List.append_assoc, List.takeWhile_append_of_pos hfront, List.dropWhile_append_of_pos hfront,
    htake, hdrop, List.takeWhile_append_of_pos hrun, hend, List.append_nil, List.append_nil]
  exact ⟨rfl, rfl⟩

/-- The match ends at the expression's own right bracket exactly if all right brackets of its kind
stand at its end, with no further one behind. -/
theorem run_eq_iff {right : Byte} {t v : Bytes} :
    (t ++ right :: v).takeWhile (· ≠ right) ++
      ((t ++ right :: v).dropWhile (· ≠ right)).takeWhile (· = right) = t ++ [right] ↔
    ClosesAtEnd right t ∧ v.head? ≠ some right := by
  constructor
  · intro h
    set a := (t ++ right :: v).takeWhile (· ≠ right) with ha
    set run := ((t ++ right :: v).dropWhile (· ≠ right)).takeWhile (· = right) with hrun
    have hfront : right ∉ a := by
      intro hin
      have hnot := List.mem_takeWhile_imp (p := fun c => decide (c ≠ right)) hin
      exact absurd rfl (of_decide_eq_true hnot)
    have hall : run = List.replicate run.length right := by
      apply List.eq_replicate_of_mem
      intro c hc
      have hright := List.mem_takeWhile_imp (p := fun c => decide (c = right)) hc
      exact of_decide_eq_true hright
    have hne : run ≠ [] := by
      intro hnil
      rw [hnil, List.append_nil] at h
      exact hfront (h ▸ List.mem_append_right _ (List.mem_singleton_self _))
    obtain ⟨j, hj⟩ := Nat.exists_eq_succ_of_ne_zero (List.length_pos_iff.mpr hne).ne'
    have ht : t = a ++ List.replicate j right := by
      rw [hall, hj, List.replicate_succ', ← List.append_assoc] at h
      exact (List.append_cancel_right h).symm
    refine ⟨⟨a, j, ht, hfront⟩, ?_⟩
    -- what follows the run is the rest of the text
    have hrest : ((t ++ right :: v).dropWhile (· ≠ right)).dropWhile (· = right) = v := by
      have hsplit : t ++ [right] ++ v = t ++ [right] ++
          ((t ++ right :: v).dropWhile (· ≠ right)).dropWhile (· = right) := by
        conv_rhs => rw [← h]
        rw [List.append_assoc, List.append_assoc, hrun, List.takeWhile_append_dropWhile, ha,
          List.takeWhile_append_dropWhile]
        rfl
      exact (List.append_cancel_left hsplit).symm
    intro hhead
    have hnot := List.head?_dropWhile_not (· = right)
      ((t ++ right :: v).dropWhile (· ≠ right))
    rw [hrest, hhead] at hnot
    simp at hnot
  · intro h
    obtain ⟨⟨a, j, rfl, ha⟩, hv⟩ := h
    have hwhole : a ++ List.replicate j right ++ right :: v =
        a ++ List.replicate (j+1) right ++ v := by
      rw [List.replicate_succ']
      simp only [List.append_assoc, List.singleton_append]
    obtain ⟨htake, hrun⟩ := takeWhile_right ha j hv
    rw [hwhole, htake, hrun, List.replicate_succ', List.append_assoc]

section
variable {indeterminate : Bytes → Option StatementType} {indentTabs : Bytes} {κ : ExprKind}
  {name : ExprName} {inner : Forest} {x y : Translation} {w v : Bytes} {D : List Declaration}

/-- The leftmost match begins at the first expression of the kind. -/
theorem search_expr (hw : Quiet κ.pattern w) {subexpr : Bytes}
    (h : κ.pattern.matchAt ((Forest.expr κ name inner .nil).render ++ v) = some subexpr) :
    κ.pattern.search (w ++ ((Forest.expr κ name inner .nil).render ++ v)) =
      some (w.length, subexpr) := by
  have hopen : NoOpen ((Forest.expr κ name inner .nil).render ++ v) := by
    rw [Forest.render_expr]
    exact noOpen_opening κ name _
  have hsearch : κ.pattern.search ((Forest.expr κ name inner .nil).render ++ v) =
      some (0, subexpr) := by
    cases hs : (Forest.expr κ name inner .nil).render ++ v with
    | nil =>
      rw [hs] at h
      cases h
    | cons c t =>
      rw [hs] at h
      rw [FragmentPattern.search, h]
  rw [hw.search _ hopen, hsearch]
  rfl

theorem search_expr_iff (hw : Quiet κ.pattern w) :
    κ.pattern.search (w ++ ((Forest.expr κ name inner .nil).render ++ v)) =
        some (w.length, (Forest.expr κ name inner .nil).render) ↔
      ClosesAtEnd κ.pattern.right inner.render ∧ v.head? ≠ some κ.pattern.right := by
  have hrender : (Forest.expr κ name inner .nil).render =
      κ.opening name ++ (inner.render ++ [κ.pattern.right]) := by
    have h := Forest.render_expr κ name inner .nil []
    rw [List.append_nil] at h
    exact h
  rw [search_expr hw (matchAt_expr κ name inner v), ← run_eq_iff]
  constructor
  · intro h
    have hpair := (Prod.mk.inj (Option.some.inj h)).2
    rw [hrender] at hpair
    exact List.append_cancel_left hpair
  · intro h
    rw [h, hrender]

/-- What a round declares. -/
theorem declared_iff (index : ℕ) (k : ExprKind) :
    (∃ x', processStatementFragment indeterminate indentTabs x index
        (Forest.expr k name inner .nil).render = .ok x' ∧
      x'.variableDeclarations =
        x.variableDeclarations ++ setCommand indentTabs (x.iVariableCount+1, ⟨k, name, inner⟩)) ↔
    (x.iVariableCount : ℤ) < intMax ∧ inner.Straight k ∧
      CommaQuoted (Forest.expr k name inner .nil).render := by
  rw [← declares_iff indeterminate]
  unfold processStatementFragment setCommand Expression.forest
  by_cases hroom : intMax ≤ (x.iVariableCount : ℤ)
  · rw [if_pos hroom]
    refine iff_of_false (fun h => ?_) fun h => absurd h.1 (not_lt.mpr hroom)
    obtain ⟨x', herr, -⟩ := h
    cases herr
  rw [if_neg hroom, and_iff_right (not_le.mp hroom)]
  dsimp only
  cases parseNestedStatements (Forest.expr k name inner .nil).render with
  | error e =>
    constructor
    · intro h
      obtain ⟨x', hx', h⟩ := h
      obtain rfl := Except.ok.inj hx'
      have hnil := List.self_eq_append_right.mp h
      simp only [List.append_eq_nil_iff] at hnil
      exact absurd hnil.2 (by decide)
    · intro h
      obtain ⟨parts, hparts, -⟩ := h
      cases hparts
  | ok parts =>
    constructor
    · intro h
      obtain ⟨x', hx', h⟩ := h
      obtain ⟨sTemp, hnested, hx'⟩ := bind_eq_ok.mp hx'
      obtain rfl := Except.ok.inj hx'
      refine ⟨parts, rfl, ?_⟩
      simp only [List.append_assoc] at h
      have htail := List.append_cancel_left (List.append_cancel_left (List.append_cancel_left
        (List.append_cancel_left (List.append_cancel_left (List.append_cancel_left h)))))
      rw [hnested, List.append_cancel_right htail]
    · intro h
      obtain ⟨parts', hparts, htcl⟩ := h
      obtain rfl := Except.ok.inj hparts
      dsimp only
      rw [htcl]
      refine ⟨_, rfl, ?_⟩
      simp only [List.append_assoc]

/-- What a round needs of the expression that it meets. -/
structure RoundFits (κ : ExprKind) (name : ExprName) (inner : Forest) (v : Bytes) : Prop where
  straight : inner.Straight κ
  comma : CommaQuoted (Forest.expr κ name inner .nil).render
  closes : ClosesAtEnd κ.pattern.right inner.render
  behind : v.head? ≠ some κ.pattern.right
  ends : NameEnds v

theorem RoundFits.composed_iff (h : RoundFits κ name inner v) (hw : Quiet κ.pattern w)
    (hx : x.sStatement = w ++ ((Forest.expr κ name inner .nil).render ++ v))
    (hroom : (x.iVariableCount : ℤ) < intMax) : ∃ x',
    processStatementFragment indeterminate indentTabs x w.length
        (Forest.expr κ name inner .nil).render = .ok x' ∧
      ∀ D y, ComposedRounds indeterminate indentTabs κ.pattern D x y ↔
        ∃ D', D = (x.iVariableCount+1, ⟨κ, name, inner⟩) :: D' ∧
          ComposedRounds indeterminate indentTabs κ.pattern D' x' y := by
  have hsearch : κ.pattern.search x.sStatement =
      some (w.length, (Forest.expr κ name inner .nil).render) := by
    rw [hx]
    exact (search_expr_iff hw).mpr ⟨h.closes, h.behind⟩
  have hdeclares : (x.iVariableCount : ℤ) < intMax ∧ inner.Straight κ ∧
      CommaQuoted (Forest.expr κ name inner .nil).render := ⟨hroom, h.straight, h.comma⟩
  rw [← @declared_iff indeterminate indentTabs _ _ _ w.length] at hdeclares
  obtain ⟨x', hround, hdeclared⟩ := hdeclares
  refine ⟨x', hround, fun D y => ?_⟩
  constructor
  · intro hrounds
    cases hrounds with
    | done hnone =>
      rw [hsearch] at hnone
      cases hnone
    | @round D _ x'' _ e u v' hstatement hsearch' hends hround' hdeclared' hrest =>
      obtain ⟨hlen, hrender⟩ := Prod.mk.inj (Option.some.inj (hsearch.symm.trans hsearch'))
      have hexpr : e = ⟨κ, name, inner⟩ := by
        have hsame : (Forest.expr κ name inner .nil).render ++ [] =
            (Forest.expr e.kind e.name e.inner .nil).render ++ [] := by
          rw [List.append_nil, List.append_nil]
          exact hrender
        obtain ⟨hk, hname, hinner, -⟩ := Forest.expr_append_inj hsame
        rw [hk, hname, hinner]
      subst hexpr
      rw [← hlen] at hround'
      obtain rfl := Except.ok.inj (hround.symm.trans hround')
      exact ⟨D, rfl, hrest⟩
  · intro hrounds
    obtain ⟨D', rfl, hrest⟩ := hrounds
    exact .round (e := ⟨κ, name, inner⟩) hx hsearch h.ends hround hdeclared hrest

/-- No other round does what it should. -/
theorem roundFits_of_composed (hw : Quiet κ.pattern w)
    (hx : x.sStatement = w ++ ((Forest.expr κ name inner .nil).render ++ v))
    (h : ComposedRounds indeterminate indentTabs κ.pattern D x y) :
    RoundFits κ name inner v ∧ (x.iVariableCount : ℤ) < intMax := by
  have hsearch : κ.pattern.search x.sStatement = some (w.length, κ.opening name ++
        ((inner.render ++ κ.pattern.right :: v).takeWhile (· ≠ κ.pattern.right) ++
          ((inner.render ++ κ.pattern.right :: v).dropWhile (· ≠ κ.pattern.right)).takeWhile
            (· = κ.pattern.right))) := by
    rw [hx]
    exact search_expr hw (matchAt_expr κ name inner v)
  cases h with
  | done hnone =>
    rw [hsearch] at hnone
    cases hnone
  | @round D _ x' _ e u v' hstatement hsearch' hends hround hdeclared hrest =>
    obtain ⟨hlen, -⟩ := Prod.mk.inj (Option.some.inj (hsearch.symm.trans hsearch'))
    have hboth : w ++ ((Forest.expr κ name inner .nil).render ++ v) =
        u ++ (e.forest.render ++ v') := hx.symm.trans hstatement
    obtain ⟨rfl, hrest'⟩ := List.append_inj hboth hlen
    -- the fragment is an expression, so it ends where this one does
    obtain ⟨hk, hname, hinner, rfl⟩ := Forest.expr_append_inj hrest'
    have hexpr : e = ⟨κ, name, inner⟩ := by rw [hk, hname, hinner]
    subst hexpr
    rw [hstatement] at hsearch'
    obtain ⟨hcloses, hbehind⟩ := (search_expr_iff hw).mp hsearch'
    obtain ⟨hroom, hstraight, hcomma⟩ := (declared_iff w.length κ).mp ⟨x', hround, hdeclared⟩
    exact ⟨⟨hstraight, hcomma, hcloses, hbehind, hends⟩, hroom⟩

end

/-! ### Arguments that fit -/

namespace Forest

/-- All expressions belong to the loop of rank `n` or a later one. -/
def Above (n : ℕ) : Forest → Prop
  | nil => True
  | text _ rest => rest.Above n
  | expr k _ inner rest => n ≤ k.rank ∧ inner.Above n ∧ rest.Above n

/-- No call stands in a list or a map. -/
def Ordered : ExprKind → Forest → Prop
  | _, nil => True
  | _, text _ _ => True
  | parent, expr k _ inner _ => (k = .call → parent = .call) ∧ inner.Ordered k

variable {F : Forest} {κ : ExprKind}

theorem above_zero (F : Forest) : F.Above 0 := by
  induction F with
  | nil => exact trivial
  | text c rest ih => exact ih
  | expr k name inner rest ihinner ihrest => exact ⟨Nat.zero_le _, ihinner, ihrest⟩

theorem flat_iff (h : F.Above κ.rank) : F.Flat κ ↔ F.IsText := by
  induction F with
  | nil => exact Iff.rfl
  | text c rest ih => exact ih h
  | expr k name inner rest _ _ =>
    exact ⟨fun hflat => absurd hflat.1 (Nat.not_lt.mpr h.1), False.elim⟩

theorem IsText.letters_eq (h : F.IsText) : F.letters = F.render := by
  induction F with
  | nil => rfl
  | text c rest ih =>
    unfold letters render
    rw [ih h]
  | expr k name inner rest _ _ => exact h.elim

/-- The bytes of an argument beside names and brackets. -/
theorem mem_render_expr {c : Byte} (hword : isWord c = false) (hplain : symbolOf c = none)
    (hsigil : c ≠ 36 ∧ c ≠ 35) (k : ExprKind) (name : ExprName) (inner : Forest) :
    c ∈ (expr k name inner nil).render ↔ c ∈ inner.render := by
  have hname : c ∉ name.1 := by
    intro hin
    exact Bool.noConfusion (hword.symm.trans (name.2 c hin))
  have hbracket := symbolOf_eq_none_iff.mp hplain
  have hleft : c ≠ k.pattern.left := by
    cases k
    · exact hbracket.1
    · exact hbracket.2.2.1
    · exact hbracket.2.2.1
  have hright : c ≠ k.pattern.right := by
    cases k
    · exact hbracket.2.1
    · exact hbracket.2.2.2
    · exact hbracket.2.2.2
  have hfront : c ≠ k.pattern.sigil := by
    cases k
    · exact hsigil.1
    · exact hsigil.1
    · exact hsigil.2
  have hopening : c ∉ k.opening name := by
    unfold ExprKind.opening
    intro hin
    rcases List.mem_append.mp hin with hin | hin
    · rcases List.mem_cons.mp hin with hin | hin
      · exact hfront hin
      · exact hname hin
    · exact hleft (List.mem_singleton.mp hin)
  rw [render]
  constructor
  · intro hin
    rcases List.mem_append.mp hin with hin | hin
    · exact (List.mem_append.mp hin).resolve_left hopening
    · rcases List.mem_cons.mp hin with hin | hin
      · exact absurd hin hright
      · cases hin
  · intro hin
    exact List.mem_append_left _ (List.mem_append_right _ hin)

theorem commaQuoted_expr (k : ExprKind) (name : ExprName) (inner : Forest) :
    CommaQuoted (expr k name inner nil).render ↔ CommaQuoted inner.render := by
  unfold CommaQuoted
  rw [mem_render_expr (by decide) (by decide) (by decide),
    mem_render_expr (by decide) (by decide) (by decide),
    mem_render_expr (by decide) (by decide) (by decide)]

theorem fits_iff (h : F.Above κ.rank) (parent : ExprKind) :
    F.Fits κ parent ↔ F.Straight parent ∧ CommaQuoted F.render ∧ F.Ordered parent := by
  induction F generalizing parent with
  | nil =>
    refine ⟨fun _ => ⟨trivial, ?_, trivial⟩, fun _ => trivial⟩
    intro hcomma
    cases hcomma
  | text c rest _ =>
    have habove : rest.Above κ.rank := h
    have hcomma (hrest : rest.IsText) : CommaFits parent (c.1 :: rest.letters) ↔
        (parent = .call → 44 ∉ (text c rest).render) ∧ CommaQuoted (text c rest).render := by
      have hletters : c.1 :: rest.letters = (text c rest).render := by
        rw [hrest.letters_eq]
        rfl
      rw [hletters]
      unfold CommaFits CommaQuoted
      tauto
    rw [Fits, Straight, flat_iff habove]
    constructor
    · intro hfits
      obtain ⟨hcall, hquoted⟩ := (hcomma hfits.1).mp hfits.2
      exact ⟨⟨hfits.1, hcall⟩, hquoted, trivial⟩
    · intro hall
      exact ⟨hall.1.1, (hcomma hall.1.1).mpr ⟨hall.1.2, hall.2.1⟩⟩
  | expr k name inner rest ihinner _ =>
    rw [Fits, if_neg (Nat.not_lt.mpr h.1), ihinner h.2.1 k, Straight, Ordered]
    constructor
    · intro hfits
      obtain ⟨rfl, hcall, hstraight, hquoted, hordered⟩ := hfits
      exact ⟨⟨rfl, hstraight⟩, (commaQuoted_expr k name inner).mpr hquoted, hcall, hordered⟩
    · intro hall
      obtain ⟨⟨rfl, hstraight⟩, hquoted, hcall, hordered⟩ := hall
      exact ⟨rfl, hcall, hstraight, (commaQuoted_expr k name inner).mp hquoted, hordered⟩

end Forest

/-! ### The run of right brackets -/

theorem closesAtEnd_of_notMem {right : Byte} {t : Bytes} (h : right ∉ t) : ClosesAtEnd right t :=
  ⟨t, 0, (List.append_nil t).symm, h⟩

/-- Around an argument: a beginning without right brackets, and one right bracket. -/
theorem closesAtEnd_around {right : Byte} {p t : Bytes} (hp : right ∉ p) :
    ClosesAtEnd right (p ++ t ++ [right]) ↔ ClosesAtEnd right t := by
  constructor
  · intro h
    obtain ⟨a, j, heq, ha⟩ := h
    cases j with
    | zero =>
      rw [List.replicate_zero, List.append_nil] at heq
      exact absurd (heq ▸ List.mem_append_right _ (List.mem_singleton_self _)) ha
    | succ j =>
      rw [List.replicate_succ', ← List.append_assoc] at heq
      have hinner : p ++ t = a ++ List.replicate j right := List.append_cancel_right heq
      -- the beginning lies in front of the run
      obtain ⟨q, hq, hrun⟩ | ⟨q, hq, hrun⟩ := List.append_eq_append_iff.mp hinner
      · rw [hq] at ha
        exact ⟨q, j, hrun, fun hin => ha (List.mem_append_right _ hin)⟩
      · have hqnil : q = [] := by
          cases q with
          | nil => rfl
          | cons c q =>
            have hc : c ∈ List.replicate j right := hrun ▸ List.mem_cons_self
            have hcp : c ∈ p := hq ▸ List.mem_append_right _ List.mem_cons_self
            rw [List.eq_of_mem_replicate hc] at hcp
            exact absurd hcp hp
        subst hqnil
        rw [List.nil_append] at hrun
        exact ⟨[], j, hrun.symm, List.not_mem_nil⟩
  · intro h
    obtain ⟨a, j, rfl, ha⟩ := h
    refine ⟨p ++ a, j+1, ?_, ?_⟩
    · rw [List.replicate_succ']
      simp only [List.append_assoc]
    · intro hin
      rcases List.mem_append.mp hin with hin | hin
      · exact hp hin
      · exact ha hin

namespace Forest

variable {F : Forest} {κ : ExprKind}

theorem right_notMem_opening (k k' : ExprKind) (name : ExprName) :
    k.pattern.right ∉ k'.opening name := by
  have hword : isWord k.pattern.right = false := by cases k <;> decide
  unfold ExprKind.opening
  intro hin
  rcases List.mem_append.mp hin with hin | hin
  · rcases List.mem_cons.mp hin with hin | hin
    · revert hin
      cases k <;> cases k' <;> decide
    · exact Bool.noConfusion (hword.symm.trans (name.2 _ hin))
  · have hleft := List.mem_singleton.mp hin
    revert hleft
    cases k <;> cases k' <;> decide

theorem IsText.right_notMem (h : F.IsText) (k : ExprKind) : k.pattern.right ∉ F.render := by
  induction F with
  | nil => exact List.not_mem_nil
  | text c rest ih =>
    have hplain := symbolOf_eq_none_iff.mp c.2
    intro hin
    rcases List.mem_cons.mp hin with hin | hin
    · cases k
      · exact hplain.2.1 hin.symm
      · exact hplain.2.2.2 hin.symm
      · exact hplain.2.2.2 hin.symm
    · exact ih h hin
  | expr k' name inner rest _ _ => exact h.elim

theorem render_expr_nil (k : ExprKind) (name : ExprName) (inner : Forest) :
    (expr k name inner nil).render = k.opening name ++ inner.render ++ [k.pattern.right] := by
  rw [render]
  rfl

/-- In a list or a map, no call means no round bracket. -/
theorem notMem_iff_ordered {parent : ExprKind} (h : F.Straight parent) {k : ExprKind}
    (hk : k ≠ .call) : ExprKind.call.pattern.right ∉ F.render ↔ F.Ordered k := by
  induction F generalizing parent k with
  | nil => exact ⟨fun _ => trivial, fun _ => List.not_mem_nil⟩
  | text c rest _ =>
    have htext : (text c rest).IsText := h.1
    exact ⟨fun _ => trivial, fun _ => htext.right_notMem .call⟩
  | expr k' name inner rest ihinner _ =>
    obtain ⟨rfl, hinner⟩ := h
    rw [render_expr_nil, Ordered]
    by_cases hcall : k' = .call
    · subst hcall
      constructor
      · intro hnot
        exact absurd (List.mem_append_right _ (List.mem_singleton_self _)) hnot
      · intro hordered
        exact absurd (hordered.1 rfl) hk
    · have hright : ExprKind.call.pattern.right ∉ [k'.pattern.right] := by
        cases k'
        · exact absurd rfl hcall
        · decide
        · decide
      have hopening := right_notMem_opening .call k' name
      rw [← ihinner hinner hcall]
      constructor
      · intro hnot
        exact ⟨fun heq => absurd heq hcall, fun hin =>
          hnot (List.mem_append_left _ (List.mem_append_right _ hin))⟩
      · intro hordered hin
        rcases List.mem_append.mp hin with hin | hin
        · exact (List.mem_append.mp hin).elim hopening hordered.2
        · exact hright hin

theorem closes_call_iff {parent : ExprKind} (h : F.Straight parent) :
    ClosesAtEnd ExprKind.call.pattern.right F.render ↔ F.Ordered .call := by
  induction F generalizing parent with
  | nil => exact ⟨fun _ => trivial, fun _ => closesAtEnd_of_notMem List.not_mem_nil⟩
  | text c rest _ =>
    have htext : (text c rest).IsText := h.1
    exact ⟨fun _ => trivial, fun _ => closesAtEnd_of_notMem (htext.right_notMem .call)⟩
  | expr k name inner rest ihinner _ =>
    obtain ⟨rfl, hinner⟩ := h
    by_cases hcall : k = .call
    · subst hcall
      rw [render_expr_nil, closesAtEnd_around (right_notMem_opening .call .call name),
        ihinner hinner, Ordered]
      exact ⟨fun hordered => ⟨fun _ => rfl, hordered⟩, fun hordered => hordered.2⟩
    · have hends : ClosesAtEnd ExprKind.call.pattern.right (expr k name inner nil).render ↔
          ExprKind.call.pattern.right ∉ (expr k name inner nil).render := by
        refine ⟨?_, closesAtEnd_of_notMem⟩
        intro hcloses
        obtain ⟨a, j, heq, ha⟩ := hcloses
        cases j with
        | zero =>
          rw [List.replicate_zero, List.append_nil] at heq
          rw [heq]
          exact ha
        | succ j =>
          -- the last bracket would be round
          rw [render_expr_nil, List.replicate_succ', ← List.append_assoc] at heq
          have hlast := List.append_inj_right' heq rfl
          cases k
          · exact absurd rfl hcall
          · exact absurd hlast (by decide)
          · exact absurd hlast (by decide)
      have hstraight : (expr k name inner nil).Straight .call := ⟨rfl, hinner⟩
      have hinside := notMem_iff_ordered hstraight (k := k) hcall
      rw [hends, hinside, Ordered, Ordered]
      exact ⟨fun hordered => ⟨fun _ => rfl, hordered.2⟩,
        fun hordered => ⟨fun heq => heq, hordered.2⟩⟩

/-- Without calls all right brackets are square. -/
theorem closes_square {parent : ExprKind} (h : F.Straight parent) (habove : F.Above 1) :
    ClosesAtEnd 93 F.render ∧ ∀ k, F.Ordered k := by
  induction F generalizing parent with
  | nil => exact ⟨closesAtEnd_of_notMem List.not_mem_nil, fun _ => trivial⟩
  | text c rest _ =>
    have htext : (text c rest).IsText := h.1
    exact ⟨closesAtEnd_of_notMem (htext.right_notMem .list), fun _ => trivial⟩
  | expr k name inner rest ihinner _ =>
    obtain ⟨rfl, hinner⟩ := h
    obtain ⟨hcloses, hordered⟩ := ihinner hinner habove.2.1
    have hk : k ≠ .call := by
      rintro rfl
      exact absurd habove.1 (by decide)
    have hright : k.pattern.right = 93 := by
      cases k
      · exact absurd rfl hk
      · rfl
      · rfl
    refine ⟨?_, fun parent => ⟨fun heq => absurd heq hk, hordered k⟩⟩
    rw [render_expr_nil, hright]
    exact (closesAtEnd_around (right_notMem_opening .list k name)).mpr hcloses

theorem closes_iff (h : F.Straight κ) (habove : F.Above κ.rank) :
    ClosesAtEnd κ.pattern.right F.render ↔ F.Ordered κ := by
  cases κ with
  | call => exact closes_call_iff h
  | list =>
    obtain ⟨hcloses, hordered⟩ := closes_square h habove
    exact ⟨fun _ => hordered _, fun _ => hcloses⟩
  | map =>
    have hone : F.Above 1 := by
      clear h
      induction F with
      | nil => exact trivial
      | text c rest ih => exact ih habove
      | expr k name inner rest ihinner ihrest =>
        exact ⟨Nat.le_of_succ_le habove.1, ihinner habove.2.1, ihrest habove.2.2⟩
    obtain ⟨hcloses, hordered⟩ := closes_square h hone
    exact ⟨fun _ => hordered _, fun _ => hcloses⟩

end Forest

theorem roundFits_iff {κ : ExprKind} {name : ExprName} {inner : Forest} {v : Bytes}
    (h : inner.Above κ.rank) : RoundFits κ name inner v ↔
      inner.Fits κ κ ∧ NameEnds v ∧ v.head? ≠ some κ.pattern.right := by
  rw [Forest.fits_iff h]
  constructor
  · intro hfits
    exact ⟨⟨hfits.straight, (Forest.commaQuoted_expr κ name inner).mp hfits.comma,
      (Forest.closes_iff hfits.straight h).mp hfits.closes⟩, hfits.ends, hfits.behind⟩
  · intro hall
    obtain ⟨⟨hstraight, hcomma, hordered⟩, hends, hbehind⟩ := hall
    exact ⟨hstraight, (Forest.commaQuoted_expr κ name inner).mpr hcomma,
      (Forest.closes_iff hstraight h).mpr hordered, hbehind, hends⟩

end MsgCourier
