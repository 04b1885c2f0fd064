import MsgCourier.StatementRounds

/-! Nested expressions of MCScript: `$f(..)`, `$a[..]` and `#m[..]` in any nesting and order, with
texts around and inside them, and the Tcl they stand for. -/
namespace MsgCourier
open ListSearch CText

inductive ExprKind
  | call
  | list
  | map
  deriving DecidableEq, Repr

namespace ExprKind

def pattern : ExprKind → FragmentPattern
  | call => funcPattern
  | list => arrayPattern
  | map => mapPattern

/-- The place of its loop among the three. -/
def rank : ExprKind → ℕ
  | call => 0
  | list => 1
  | map => 2

end ExprKind

/-- A name: `[\w]*`. -/
abbrev ExprName := {s : Bytes // ∀ c ∈ s, isWord c = true}

/-- A byte that is no bracket. -/
abbrev Letter := {c : Byte // symbolOf c = none}

/-- Letters and expressions one after another. -/
inductive Forest
  | nil
  | text (c : Letter) (rest : Forest)
  | expr (kind : ExprKind) (name : ExprName) (inner rest : Forest)
  deriving DecidableEq

def ExprKind.opening (k : ExprKind) (name : ExprName) : Bytes :=
  k.pattern.sigil :: name.1 ++ [k.pattern.left]

/-- The Tcl of one expression around that of its argument. -/
def ExprKind.wrap (k : ExprKind) (name : ExprName) (sInner : Bytes) : Bytes :=
  match k with
  | .call => bytes "[" ++ name.1 ++ bytes " " ++ sInner ++ bytes "]"
  | .list => bytes "[lindex $" ++ name.1 ++ bytes " " ++ sInner ++ bytes "]"
  | .map => bytes "$" ++ name.1 ++ bytes "(" ++ sInner ++ bytes ")"

namespace Forest

/-- The statement that is written. -/
def render : Forest → Bytes
  | nil => []
  | text c rest => c.1 :: rest.render
  | expr k name inner rest =>
    k.opening name ++ inner.render ++ k.pattern.right :: rest.render

/-- The Tcl of a statement: each argument is the Tcl of what stands between the expression's own
brackets. -/
def tcl : Forest → Bytes
  | nil => []
  | text c rest => c.1 :: rest.tcl
  | expr k name inner rest => k.wrap name inner.tcl ++ rest.tcl

end Forest

theorem Forest.render_expr (k : ExprKind) (name : ExprName) (inner rest : Forest) (s : Bytes) :
    (expr k name inner rest).render ++ s =
      k.opening name ++ (inner.render ++ k.pattern.right :: (rest.render ++ s)) := by
  conv_lhs => unfold render
  rw [List.append_assoc, List.append_assoc]
  rfl

/-! ### Bytes -/

theorem isWord_sigil (k : ExprKind) : isWord k.pattern.sigil = false := by
  cases k <;> decide

theorem isWord_left (k : ExprKind) : isWord k.pattern.left = false := by
  cases k <;> decide

theorem symbolOf_eq_none_iff {c : Byte} :
    symbolOf c = none ↔ c ≠ 40 ∧ c ≠ 41 ∧ c ≠ 91 ∧ c ≠ 93 := by
  unfold symbolOf
  split_ifs <;> simp_all

theorem symbolOf_of_isWord {c : Byte} (h : isWord c = true) : symbolOf c = none := by
  rw [symbolOf_eq_none_iff]
  refine ⟨?_, ?_, ?_, ?_⟩ <;>
  · rintro rfl
    exact absurd h (by decide)

theorem symbolOf_sigil (k : ExprKind) : symbolOf k.pattern.sigil = none := by
  cases k <;> decide

/-- No bracket is part of a variable. -/
theorem symbolOf_createNewVariable {n : ℕ} {c : Byte} (h : c ∈ createNewVariable n) :
    symbolOf c = none := by
  have hplain (c : Byte) (hc : IsBracket c) : c ∉ createNewVariable n :=
    notMem_createNewVariable hc n
  rw [symbolOf_eq_none_iff]
  refine ⟨?_, ?_, ?_, ?_⟩ <;>
  · rintro rfl
    refine hplain _ ?_ h
    unfold IsBracket
    decide

/-! ### Reading a statement -/

/-- No left bracket stands directly behind the name at the beginning. -/
def NoOpen (s : Bytes) : Prop := ∀ b u, s.dropWhile isWord = b :: u → b ≠ 40 ∧ b ≠ 91

theorem NoOpen.cons {c : Byte} {s : Bytes} (hleft : c ≠ 40 ∧ c ≠ 91) (h : NoOpen s) :
    NoOpen (c :: s) := by
  intro b u hb
  cases hword : isWord c with
  | true =>
    rw [List.dropWhile_cons_of_pos hword] at hb
    exact h b u hb
  | false =>
    rw [List.dropWhile_cons_of_neg (Bool.not_eq_true _ ▸ hword)] at hb
    obtain ⟨rfl, -⟩ := List.cons.inj hb
    exact hleft

theorem noOpen_nil : NoOpen [] := by
  intro b u h
  cases h

theorem left_ne (c : Letter) : c.1 ≠ 40 ∧ c.1 ≠ 91 := by
  have hplain := symbolOf_eq_none_iff.mp c.2
  exact ⟨hplain.1, hplain.2.2.1⟩

/-- An expression begins with its sigil, which is neither part of a name nor a bracket. -/
theorem noOpen_opening (k : ExprKind) (name : ExprName) (s : Bytes) :
    NoOpen (k.opening name ++ s) := by
  intro b u h
  unfold ExprKind.opening at h
  rw [List.cons_append, List.cons_append,
    List.dropWhile_cons_of_neg (Bool.not_eq_true _ ▸ isWord_sigil k)] at h
  obtain ⟨rfl, -⟩ := List.cons.inj h
  cases k <;> decide

theorem Forest.noOpen_render {F : Forest} {s : Bytes} (h : NoOpen s) : NoOpen (F.render ++ s) := by
  induction F with
  | nil => exact h
  | text c rest ih => exact ih.cons (left_ne c)
  | expr k name inner rest ihinner ihrest =>
    rw [render_expr]
    exact noOpen_opening k name _

/-- A name and the bracket behind it are read in one way. -/
theorem name_append_inj {p q : Bytes} {b c : Byte} {s t : Bytes} (hp : ∀ a ∈ p, isWord a = true)
    (hq : ∀ a ∈ q, isWord a = true) (hb : isWord b = false) (hc : isWord c = false)
    (h : p ++ b :: s = q ++ c :: t) : p = q ∧ b = c ∧ s = t := by
  have htake {p : Bytes} {b : Byte} {s : Bytes} (hp : ∀ a ∈ p, isWord a = true)
      (hb : isWord b = false) : (p ++ b :: s).takeWhile isWord = p := by
    rw [List.takeWhile_append_of_pos hp, List.takeWhile_cons_of_neg (Bool.not_eq_true _ ▸ hb),
      List.append_nil]
  have hname : p = q := by
    rw [← htake hp hb, ← htake hq hc, h]
  subst hname
  obtain ⟨rfl, rfl⟩ := List.cons.inj (List.append_cancel_left h)
  exact ⟨rfl, rfl, rfl⟩

/-- What can stand behind an argument. -/
def Ends (s : Bytes) : Prop := ∀ c ∈ s.head?, c = 41 ∨ c = 93

theorem ends_nil : Ends [] := by
  intro c h
  cases h

theorem ends_right (k : ExprKind) (s : Bytes) : Ends (k.pattern.right :: s) := by
  intro c h
  obtain rfl := Option.some.inj h
  cases k <;> decide

theorem Ends.noOpen {s : Bytes} (h : Ends s) : NoOpen s := by
  cases s with
  | nil => exact noOpen_nil
  | cons c t =>
    intro b u hb
    have hc : c = 41 ∨ c = 93 := h c rfl
    have hword : isWord c = false := by
      rcases hc with rfl | rfl <;> decide
    rw [List.dropWhile_cons_of_neg (Bool.not_eq_true _ ▸ hword)] at hb
    obtain ⟨rfl, -⟩ := List.cons.inj hb
    rcases hc with rfl | rfl <;> decide

/-- No text of letters is the beginning of an expression. -/
theorem text_ne_opening {c : Byte} {k : ExprKind} {name : ExprName} {s t : Bytes} (hs : NoOpen s) :
    c :: s ≠ k.opening name ++ t := by
  intro h
  unfold ExprKind.opening at h
  rw [List.cons_append, List.cons_append, List.append_assoc] at h
  obtain ⟨-, rfl⟩ := List.cons.inj h
  have hdrop : (name.1 ++ ([k.pattern.left] ++ t)).dropWhile isWord = k.pattern.left :: t := by
    rw [List.dropWhile_append_of_pos name.2]
    exact List.dropWhile_cons_of_neg (Bool.not_eq_true _ ▸ isWord_left k)
  have hleft := hs _ _ hdrop
  cases k
  · exact hleft.1 rfl
  · exact hleft.2 rfl
  · exact hleft.2 rfl

theorem ExprKind.eq_of_pattern {k k' : ExprKind} (hsigil : k.pattern.sigil = k'.pattern.sigil)
    (hleft : k.pattern.left = k'.pattern.left) : k = k' := by
  cases k <;> cases k' <;> first | rfl | exact absurd hsigil (by decide) |
    exact absurd hleft (by decide)

theorem opening_append_inj {k k' : ExprKind} {name name' : ExprName} {s t : Bytes}
    (h : k.opening name ++ s = k'.opening name' ++ t) : k = k' ∧ name = name' ∧ s = t := by
  unfold ExprKind.opening at h
  rw [List.cons_append, List.cons_append, List.append_assoc, List.append_assoc] at h
  obtain ⟨hsigil, hrest⟩ := List.cons.inj h
  obtain ⟨hname, hleft, rfl⟩ :=
    name_append_inj name.2 name'.2 (isWord_left k) (isWord_left k') hrest
  exact ⟨ExprKind.eq_of_pattern hsigil hleft, Subtype.ext hname, rfl⟩

namespace Forest

theorem text_ne_ends {c : Letter} {s t : Bytes} (ht : Ends t) : c.1 :: s ≠ t := by
  rintro rfl
  have hplain := symbolOf_eq_none_iff.mp c.2
  rcases ht c.1 rfl with h | h
  · exact hplain.2.1 h
  · exact hplain.2.2.2 h

theorem opening_ne_ends {k : ExprKind} {name : ExprName} {s t : Bytes} (ht : Ends t) :
    k.opening name ++ s ≠ t := by
  rintro rfl
  have h : k.pattern.sigil = 41 ∨ k.pattern.sigil = 93 := ht k.pattern.sigil rfl
  cases k <;> revert h <;> decide

/-- A statement is read in one way. -/
theorem render_append_inj {F F' : Forest} {s s' : Bytes} (hs : Ends s) (hs' : Ends s')
    (h : F.render ++ s = F'.render ++ s') : F = F' ∧ s = s' := by
  induction F generalizing F' s s' with
  | nil =>
    cases F' with
    | nil => exact ⟨rfl, h⟩
    | text c rest => exact absurd h.symm (text_ne_ends hs)
    | expr k name inner rest =>
      rw [render_expr] at h
      exact absurd h.symm (opening_ne_ends hs)
  | text c rest ih =>
    cases F' with
    | nil => exact absurd h (text_ne_ends hs')
    | text c' rest' =>
      obtain ⟨hc, hrest⟩ := List.cons.inj h
      obtain ⟨rfl, rfl⟩ := ih hs hs' hrest
      exact ⟨by rw [Subtype.ext hc], rfl⟩
    | expr k name inner rest' =>
      rw [render_expr] at h
      exact absurd h (text_ne_opening (noOpen_render hs.noOpen))
  | expr k name inner rest ihinner ihrest =>
    cases F' with
    | nil =>
      rw [render_expr] at h
      exact absurd h (opening_ne_ends hs')
    | text c rest' =>
      rw [render_expr] at h
      exact absurd h.symm (text_ne_opening (noOpen_render hs'.noOpen))
    | expr k' name' inner' rest' =>
      rw [render_expr, render_expr] at h
      obtain ⟨rfl, rfl, hinner⟩ := opening_append_inj h
      obtain ⟨rfl, hright⟩ := ihinner (ends_right k _) (ends_right k _) hinner
      obtain ⟨rfl, rfl⟩ := ihrest hs hs' (List.cons.inj hright).2
      exact ⟨rfl, rfl⟩

/-- An expression ends at its own right bracket, whatever stands behind it. -/
theorem expr_append_inj {k k' : ExprKind} {name name' : ExprName} {inner inner' : Forest}
    {v v' : Bytes}
    (h : (expr k name inner nil).render ++ v = (expr k' name' inner' nil).render ++ v') :
    k = k' ∧ name = name' ∧ inner = inner' ∧ v = v' := by
  rw [render_expr, render_expr] at h
  obtain ⟨rfl, rfl, hinner⟩ := opening_append_inj h
  obtain ⟨rfl, hright⟩ := render_append_inj (ends_right k _) (ends_right k _) hinner
  exact ⟨rfl, rfl, rfl, (List.cons.inj hright).2⟩

end Forest

end MsgCourier
