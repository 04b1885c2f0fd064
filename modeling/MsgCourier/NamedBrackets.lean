import MsgCourier.FragmentTcl
import Mathlib.Data.List.Chain

/-! Statements in which every left bracket has a text in front of it: no round over them throws. -/
namespace MsgCourier
open ListSearch CText

def IsLeft (c : Byte) : Prop := c = 40 ∨ c = 91

/-- No left bracket stands at the beginning or behind another bracket. -/
def Named (s : Bytes) : Prop := (40 :: s).IsChain fun a b => IsLeft b → symbolOf a = none

theorem not_isLeft_of_plain {c : Byte} (h : symbolOf c = none) : ¬ IsLeft c := by
  have hplain := symbolOf_eq_none_iff.mp h
  rintro (rfl | rfl)
  · exact hplain.1 rfl
  · exact hplain.2.2.1 rfl

/-! ### The parts of a fragment -/

/-- `a` is the byte before the present one; behind a bracket the text is empty. -/
theorem parseNestedLoop_hasName {s : Bytes} {a : Byte}
    (hs : (a :: s).IsChain fun a b => IsLeft b → symbolOf a = none) {parts : StatementParts}
    (hparts : ∀ elm ∈ parts.stack, HasName elm) {text : Bytes}
    (htext : symbolOf a = none → text ≠ []) :
    ∀ elm ∈ (parseNestedLoop parts text s).stack, HasName elm := by
  induction s generalizing a parts text with
  | nil => exact hparts
  | cons ch rest ih =>
    obtain ⟨hfirst, hrest⟩ := List.isChain_cons_cons.mp hs
    unfold parseNestedLoop
    cases hsymbol : symbolOf ch with
    | none => exact ih hrest hparts fun _ => List.append_ne_nil_of_right_ne_nil _ (by simp)
    | some symbol =>
      have hbracket : symbolOf ch ≠ none := hsymbol ▸ Option.some_ne_none symbol
      refine ih hrest ?_ fun hplain => absurd hplain hbracket
      have hname (hleft : IsLeft ch) : text ≠ [] := htext (hfirst hleft)
      have hch : ch = 40 ∨ ch = 41 ∨ ch = 91 ∨ ch = 93 := by
        by_contra hnot
        push Not at hnot
        have hplain := symbolOf_eq_none_iff.mpr hnot
        rw [hsymbol] at hplain
        cases hplain
      unfold StatementParts.add
      rcases hch with rfl | rfl | rfl | rfl
      · obtain rfl := Option.some.inj hsymbol
        refine List.forall_mem_cons.mpr ⟨?_, hparts⟩
        by_cases hdollar : text.head? = some 36
        · left
          unfold statementTypeOf
          rw [if_pos hdollar]
        · right
          rw [if_neg hdollar]
          exact hname (.inl rfl)
      · obtain rfl := Option.some.inj hsymbol
        exact hparts
      · obtain rfl := Option.some.inj hsymbol
        exact List.forall_mem_cons.mpr ⟨.inr (hname (.inr rfl)), hparts⟩
      · obtain rfl := Option.some.inj hsymbol
        exact hparts

/-- A round over such a fragment fails only where the number of its variable is no `int`. -/
theorem processStatementFragment_named {indeterminate : Bytes → Option StatementType}
    {indentTabs : Bytes} {x : Translation} (hroom : (x.iVariableCount : ℤ) < intMax) (index : ℕ)
    {subexpr : Bytes} (h : Named subexpr) :
    ∃ y, processStatementFragment indeterminate indentTabs x index subexpr = .ok y := by
  unfold processStatementFragment
  rw [if_neg (not_le.mpr hroom)]
  dsimp only
  cases hparse : parseNestedStatements subexpr with
  | error e => exact ⟨_, rfl⟩
  | ok parts =>
    obtain ⟨-, rfl, hlen⟩ := parseNestedStatements_ok_iff.mp hparse
    have hparts : ∀ elm ∈ (parseNestedLoop {} [] subexpr).stack, HasName elm :=
      parseNestedLoop_hasName h (List.forall_mem_nil _) fun hplain => absurd hplain (by decide)
    obtain ⟨sTemp, hloop⟩ := @processNestedLoop_hasName indeterminate _
      (parseNestedLoop {} [] subexpr).queue hparts {}
    have hnested := (processNestedStatements_of_loop hlen).mpr hloop
    dsimp only
    rw [hnested]
    exact ⟨_, rfl⟩

/-! ### The rounds -/

theorem matchAt_head {r : FragmentPattern} {s subexpr : Bytes} (h : r.matchAt s = some subexpr) :
    subexpr.head? = some r.sigil := by
  unfold FragmentPattern.matchAt at h
  split at h
  · cases h
  · split_ifs at h with hc
    split at h
    · cases h
    · split_ifs at h
      split at h
      · cases h
      · obtain rfl := Option.some.inj h
        exact congrArg some hc

theorem search_head {r : FragmentPattern} {s subexpr : Bytes} {index : ℕ}
    (h : r.search s = some (index, subexpr)) : subexpr.head? = some r.sigil := by
  induction s generalizing index with
  | nil => cases h
  | cons c t ih =>
    unfold FragmentPattern.search at h
    split at h
    · rename_i sub hsub
      obtain ⟨-, rfl⟩ := Prod.mk.inj (Option.some.inj h)
      exact matchAt_head hsub
    · obtain ⟨⟨i, sub⟩, hrec, hm⟩ := Option.map_eq_some_iff.mp h
      obtain ⟨-, rfl⟩ := Prod.mk.inj hm
      exact ih hrec

section
variable {indeterminate : Bytes → Option StatementType} {indentTabs : Bytes} {r : FragmentPattern}

/-- A fragment of such a statement begins with its sigil. -/
theorem Named.fragment {s subexpr : Bytes} {index : ℕ} (h : Named s)
    (hr : symbolOf r.sigil = none) (hsearch : r.search s = some (index, subexpr)) :
    Named subexpr := by
  obtain ⟨u, v, hs, -, -⟩ := r.search_eq hsearch
  have hhead : ∀ c ∈ subexpr.head?, ¬ IsLeft c := by
    intro c hc
    rw [search_head hsearch] at hc
    exact Option.some.inj hc ▸ not_isLeft_of_plain hr
  unfold Named at h
  rw [List.isChain_cons, hs, List.append_assoc] at h
  unfold Named
  rw [List.isChain_cons]
  exact ⟨fun c hc hleft => absurd hleft (hhead c hc), h.2.right_of_append.left_of_append⟩

theorem isChain_plain {s : Bytes} (h : BracketFree s) :
    s.IsChain fun a b => IsLeft b → symbolOf a = none := by
  induction s with
  | nil => exact .nil
  | cons c t ih =>
    rw [List.isChain_cons]
    refine ⟨?_, ih fun c hc => h c (List.mem_cons_of_mem _ hc)⟩
    intro b hb hleft
    exact absurd hleft (not_isLeft_of_plain (h b (List.mem_cons_of_mem _ (List.mem_of_mem_head? hb))))

/-- A round puts a variable where the fragment was. -/
theorem Named.replaced {x y : Translation} {index : ℕ} {subexpr : Bytes} (h : Named x.sStatement)
    (hround : FragmentReplaced x index subexpr y)
    (hsearch : r.search x.sStatement = some (index, subexpr)) :
    Named y.sStatement := by
  obtain ⟨u, v, hs, -, hs'⟩ := hround.split hsearch
  have hplain : BracketFree (createNewVariable (x.iVariableCount+1)) := fun c hc =>
    symbolOf_createNewVariable hc
  unfold Named at h ⊢
  rw [hs, List.append_assoc, ← List.cons_append] at h
  rw [hs', List.append_assoc, ← List.cons_append, List.isChain_append]
  refine ⟨h.left_of_append, ?_, ?_⟩
  · rw [List.isChain_append]
    refine ⟨isChain_plain hplain, h.right_of_append.right_of_append, ?_⟩
    intro a ha b _ _
    exact hplain a (List.mem_of_mem_getLast? ha)
  · intro a _ b hb hleft
    obtain rfl : 36 = b := Option.some.inj hb
    exact absurd hleft (by unfold IsLeft; decide)

/-- So its rounds end, or come to the last of the `int`s. -/
theorem Rounds.named (hr : symbolOf r.sigil = none) {n : ℕ} {x : Translation}
    {result : Cxx Translation} (h : Rounds indeterminate indentTabs r n x result)
    (hx : Named x.sStatement) :
    result = .error .undefined ∨ ∃ y, result = .ok y ∧ Named y.sStatement := by
  induction h with
  | done _ => exact .inr ⟨_, rfl, hx⟩
  | @leaves x index subexpr e hsearch hround =>
    left
    by_cases hroom : (x.iVariableCount : ℤ) < intMax
    · obtain ⟨y, hy⟩ := @processStatementFragment_named indeterminate indentTabs _ hroom
        index _ (hx.fragment hr hsearch)
      rw [hy] at hround
      cases hround
    · unfold processStatementFragment at hround
      rw [if_pos (not_lt.mp hroom)] at hround
      exact hround ▸ rfl
  | round hsearch hround _ ih => exact ih (hx.replaced (replaced_of_ok hround) hsearch)

theorem Loops.named {rs : List FragmentPattern} (hrs : ∀ r ∈ rs, symbolOf r.sigil = none) {n : ℕ}
    {x : Translation} {result : Cxx Translation} (h : Loops indeterminate indentTabs rs n x result)
    (hx : Named x.sStatement) : result = .error .undefined ∨ ∃ y, result = .ok y := by
  induction h with
  | done => exact .inr ⟨_, rfl⟩
  | leaves hrounds =>
    rcases hrounds.named (hrs _ List.mem_cons_self) hx with herr | ⟨y, hy, -⟩
    · exact .inl herr
    · cases hy
  | next hrounds _ ih =>
    rcases hrounds.named (hrs _ List.mem_cons_self) hx with herr | ⟨y, hy, hnamed⟩
    · cases herr
    · obtain rfl := Except.ok.inj hy
      exact ih (fun r hr => hrs r (List.mem_cons_of_mem _ hr)) hnamed

end

/-! ### Statements of expressions -/

theorem isChain_behind_plain {s t : Bytes} (h : BracketFree s) {a b : Byte}
    (ha : symbolOf a = none) (ht : (b :: t).IsChain fun a b => IsLeft b → symbolOf a = none) :
    (a :: (s ++ b :: t)).IsChain fun a b => IsLeft b → symbolOf a = none := by
  induction s generalizing a with
  | nil => exact List.isChain_cons_cons.mpr ⟨fun _ => ha, ht⟩
  | cons c s ih =>
    have hc : symbolOf c = none := h c List.mem_cons_self
    refine List.isChain_cons_cons.mpr ⟨fun _ => ha, ?_⟩
    exact ih (fun d hd => h d (List.mem_cons_of_mem _ hd)) hc

theorem Forest.isChain_render (F : Forest) {v : Bytes}
    (hv : v.IsChain fun a b => IsLeft b → symbolOf a = none) (hhead : ∀ c ∈ v.head?, ¬ IsLeft c)
    (a : Byte) : (a :: (F.render ++ v)).IsChain fun a b => IsLeft b → symbolOf a = none := by
  induction F generalizing a v with
  | nil => exact List.isChain_cons.mpr ⟨fun c hc hleft => absurd hleft (hhead c hc), hv⟩
  | text c rest ih =>
    refine List.isChain_cons_cons.mpr ⟨fun hleft => ?_, ih hv hhead c.1⟩
    exact absurd hleft (not_isLeft_of_plain c.2)
  | expr k name inner rest ihinner ihrest =>
    have hsigil : symbolOf k.pattern.sigil = none := by cases k <;> decide
    have hright : ¬ IsLeft k.pattern.right := by cases k <;> unfold IsLeft <;> decide
    have hinner := ihinner (ihrest hv hhead k.pattern.right)
      (fun c hc => Option.some.inj hc ▸ hright) k.pattern.left
    rw [render_expr, ExprKind.opening]
    simp only [List.cons_append, List.append_assoc, List.nil_append]
    refine List.isChain_cons_cons.mpr ⟨fun hleft => ?_, ?_⟩
    · exact absurd hleft (not_isLeft_of_plain hsigil)
    · exact isChain_behind_plain (plain_word name.2) hsigil hinner

theorem Forest.named_render (F : Forest) : Named F.render := by
  have hchain := F.isChain_render .nil (fun c hc => nomatch hc) 40
  rwa [List.append_nil] at hchain

end MsgCourier
