import MsgCourier.Statement

/-! The rounds of the three loops of `TranslateStatement`, without a bound on their number. -/
namespace MsgCourier
open ListSearch CText

/-- `n` rounds of one of the loops, up to its end, where the pattern is not found any more, or to
the exception with which a round leaves it. A round replaces the leftmost match, whether its parts
fit or not. -/
inductive Rounds (indeterminate : Bytes → Option StatementType) (indentTabs : Bytes)
    (r : FragmentPattern) : ℕ → Translation → Cxx Translation → Prop
  | done {x : Translation} :
      r.search x.sStatement = none → Rounds indeterminate indentTabs r 0 x (.ok x)
  | leaves {x : Translation} {index : ℕ} {subexpr : Bytes} {e : Exn} :
      r.search x.sStatement = some (index, subexpr) →
      processStatementFragment indeterminate indentTabs x index subexpr = .error e →
      Rounds indeterminate indentTabs r 1 x (.error e)
  | round {n : ℕ} {x y : Translation} {result : Cxx Translation} {index : ℕ} {subexpr : Bytes} :
      r.search x.sStatement = some (index, subexpr) →
      processStatementFragment indeterminate indentTabs x index subexpr = .ok y →
      Rounds indeterminate indentTabs r n y result →
      Rounds indeterminate indentTabs r (n+1) x result

/-- `n` rounds of some of the loops one after another. -/
inductive Loops (indeterminate : Bytes → Option StatementType) (indentTabs : Bytes) :
    List FragmentPattern → ℕ → Translation → Cxx Translation → Prop
  | done {x : Translation} : Loops indeterminate indentTabs [] 0 x (.ok x)
  | leaves {r : FragmentPattern} {rs : List FragmentPattern} {n : ℕ} {x : Translation} {e : Exn} :
      Rounds indeterminate indentTabs r n x (.error e) →
      Loops indeterminate indentTabs (r :: rs) n x (.error e)
  | next {r : FragmentPattern} {rs : List FragmentPattern} {m n : ℕ} {x y : Translation}
      {result : Cxx Translation} :
      Rounds indeterminate indentTabs r m x (.ok y) →
      Loops indeterminate indentTabs rs n y result →
      Loops indeterminate indentTabs (r :: rs) (m+n) x result

variable {indeterminate : Bytes → Option StatementType} {indentTabs : Bytes} {r : FragmentPattern}

theorem isBracket_paren : IsBracket 40 := by
  unfold IsBracket
  decide

theorem isBracket_square : IsBracket 91 := by
  unfold IsBracket
  decide

/-! ### How a round can fail -/

theorem handleMap_error {leftElm rightElm : StatementParseElement} {x : NestedText} {e : Exn}
    (h : handleMap leftElm rightElm x = .error e) : e = .stdException := by
  unfold handleMap at h
  split at h
  · split at h <;> cases h
    rfl
  · split at h <;> cases h
    rfl
  · cases h
  · cases h

theorem processNestedLoop_error {stack queue : List StatementParseElement} {x : NestedText}
    {e : Exn} (h : processNestedLoop indeterminate stack queue x = .error e) :
    e = .stdException := by
  induction stack generalizing queue x with
  | nil => cases h
  | cons leftElm stack ih =>
    cases queue with
    | nil => cases h
    | cons rightElm queue =>
      unfold processNestedLoop at h
      split at h
      · exact ih h
      · cases hmap : handleMap leftElm rightElm x with
        | error e' =>
          rw [hmap, error_bind] at h
          obtain rfl := Except.error.inj h
          exact handleMap_error hmap
        | ok y =>
          rw [hmap, ok_bind] at h
          exact ih h
      · exact ih h

theorem processNestedStatements_error {parts : StatementParts} {e : Exn}
    (h : processNestedStatements indeterminate parts = .error e) : e = .charPtr := by
  unfold processNestedStatements at h
  split_ifs at h with hlen
  · cases h
  · split at h
    · exact (Except.error.inj h).symm
    · rename_i hother
      exact absurd h fun herr => hother (processNestedLoop_error herr ▸ herr)

/-- A round throws what `LOGALL` throws, unless the counter is at its end. -/
theorem processStatementFragment_error {x : Translation} {index : ℕ} {subexpr : Bytes} {e : Exn}
    (h : processStatementFragment indeterminate indentTabs x index subexpr = .error e) :
    e = .charPtr ∨ e = .undefined ∧ intMax ≤ x.iVariableCount := by
  unfold processStatementFragment at h
  split_ifs at h with hroom
  · exact .inr ⟨(Except.error.inj h).symm, hroom⟩
  · dsimp only at h
    split at h
    · cases h
    · rename_i parts _
      cases hnested : processNestedStatements indeterminate parts with
      | ok sTemp =>
        rw [hnested] at h
        cases h
      | error e' =>
        rw [hnested] at h
        obtain rfl := Except.error.inj h
        exact .inl (processNestedStatements_error hnested)

/-! ### The measure -/

/-- There are as many rounds as left brackets at most: the measure is their count. -/
theorem exists_rounds (indeterminate : Bytes → Option StatementType) (indentTabs : Bytes)
    (hr : IsBracket r.left) {k : ℕ} {x : Translation} (hk : x.sStatement.count r.left ≤ k) :
    ∃ n result, Rounds indeterminate indentTabs r n x result ∧ n ≤ k := by
  induction k generalizing x with
  | zero =>
    cases hsearch : r.search x.sStatement with
    | none => exact ⟨0, _, .done hsearch, le_refl 0⟩
    | some m =>
      obtain ⟨index, subexpr⟩ := m
      obtain ⟨u, v, hs, -, hleft⟩ := r.search_eq hsearch
      have hnone := List.count_eq_zero.mp (Nat.le_zero.mp hk)
      rw [hs] at hnone
      exact absurd (List.mem_append_left _ (List.mem_append_right _ hleft)) hnone
  | succ k ih =>
    cases hsearch : r.search x.sStatement with
    | none => exact ⟨0, _, .done hsearch, Nat.zero_le _⟩
    | some m =>
      obtain ⟨index, subexpr⟩ := m
      cases hround : processStatementFragment indeterminate indentTabs x index subexpr with
      | error e => exact ⟨1, _, .leaves hsearch hround, Nat.succ_le_succ (Nat.zero_le k)⟩
      | ok y =>
        have hless := (replaced_of_ok hround).count_lt hr hsearch
        obtain ⟨n, result, hrounds, hn⟩ := ih (Nat.lt_succ_iff.mp (hless.trans_le hk))
        exact ⟨n+1, result, .round hsearch hround hrounds, Nat.succ_le_succ hn⟩

/-- Brackets of either kind only become fewer. -/
theorem Rounds.count_le {c : Byte} (hc : IsBracket c) {n : ℕ} {x y : Translation}
    {result : Cxx Translation} (h : Rounds indeterminate indentTabs r n x result)
    (hy : result = .ok y) : y.sStatement.count c ≤ x.sStatement.count c := by
  induction h with
  | done _ => exact Except.ok.inj hy ▸ le_refl _
  | leaves _ _ => cases hy
  | round hsearch hround _ ih =>
    exact (ih hy).trans ((replaced_of_ok hround).count_le hc hsearch)

/-- A loop with two kinds of brackets to take: those that are left bound the next loop. -/
theorem Rounds.count_add_le (hr : IsBracket r.left) {n : ℕ} {x y : Translation}
    {result : Cxx Translation} (h : Rounds indeterminate indentTabs r n x result)
    (hy : result = .ok y) : n+y.sStatement.count r.left ≤ x.sStatement.count r.left := by
  induction h with
  | done _ => exact Except.ok.inj hy ▸ (Nat.zero_add _).le
  | leaves _ _ => cases hy
  | round hsearch hround _ ih =>
    have hless := (replaced_of_ok hround).count_lt hr hsearch
    have hrest := ih hy
    omega

theorem Rounds.le_count (hr : IsBracket r.left) {n : ℕ} {x : Translation}
    {result : Cxx Translation} (h : Rounds indeterminate indentTabs r n x result) :
    n ≤ x.sStatement.count r.left := by
  induction h with
  | done _ => exact Nat.zero_le _
  | leaves hsearch _ =>
    obtain ⟨u, v, hs, -, hleft⟩ := r.search_eq hsearch
    rw [hs]
    exact List.count_pos_iff.mpr (List.mem_append_left _ (List.mem_append_right _ hleft))
  | round hsearch hround _ ih =>
    have hless := (replaced_of_ok hround).count_lt hr hsearch
    omega

/-! ### The counter -/

theorem Rounds.count_eq {n : ℕ} {x y : Translation} {result : Cxx Translation}
    (h : Rounds indeterminate indentTabs r n x result) (hy : result = .ok y) :
    y.iVariableCount = x.iVariableCount+n := by
  induction h with
  | done _ => exact Except.ok.inj hy ▸ rfl
  | leaves _ _ => cases hy
  | round _ hround _ ih =>
    rw [ih hy, (replaced_of_ok hround).count]
    omega

/-- A loop leaves the `int`s only from the last of them. -/
theorem Rounds.error {n : ℕ} {x : Translation} {e : Exn} {result : Cxx Translation}
    (h : Rounds indeterminate indentTabs r n x result) (he : result = .error e) :
    e = .charPtr ∨ e = .undefined ∧ intMax < (x.iVariableCount+n : ℕ) := by
  induction h with
  | done _ => cases he
  | leaves _ hround =>
    obtain rfl := Except.error.inj he
    refine (processStatementFragment_error hround).imp_right fun h => ⟨h.1, ?_⟩
    have hlast := h.2
    push_cast
    omega
  | round _ hround _ ih =>
    refine (ih he).imp_right fun h => ⟨h.1, ?_⟩
    have hlast := h.2
    rw [(replaced_of_ok hround).count] at hlast
    push_cast at hlast ⊢
    omega

theorem Loops.count_eq {rs : List FragmentPattern} {n : ℕ} {x y : Translation}
    {result : Cxx Translation} (h : Loops indeterminate indentTabs rs n x result)
    (hy : result = .ok y) : y.iVariableCount = x.iVariableCount+n := by
  induction h with
  | done => exact Except.ok.inj hy ▸ rfl
  | leaves _ => cases hy
  | next hrounds _ ih =>
    rw [ih hy, hrounds.count_eq rfl]
    omega

theorem Loops.error {rs : List FragmentPattern} {n : ℕ} {x : Translation} {e : Exn}
    {result : Cxx Translation} (h : Loops indeterminate indentTabs rs n x result)
    (he : result = .error e) :
    e = .charPtr ∨ e = .undefined ∧ intMax < (x.iVariableCount+n : ℕ) := by
  induction h with
  | done => cases he
  | leaves hrounds => exact hrounds.error he
  | next hrounds _ ih =>
    refine (ih he).imp_right fun h => ⟨h.1, ?_⟩
    have hlast := h.2
    rw [hrounds.count_eq rfl] at hlast
    push_cast at hlast ⊢
    omega

/-! ### The loops of the model -/

/-- The loop of the model is these rounds. -/
theorem Rounds.rewriteLoop {n : ℕ} {x : Translation} {result : Cxx Translation}
    (h : Rounds indeterminate indentTabs r n x result) {fuel : ℕ} (hfuel : n < fuel) :
    rewriteLoop indeterminate indentTabs r fuel x = result := by
  induction h generalizing fuel with
  | done hsearch =>
    obtain ⟨fuel, rfl⟩ := Nat.exists_eq_succ_of_ne_zero hfuel.ne_bot
    unfold MsgCourier.rewriteLoop
    rw [hsearch]
    rfl
  | leaves hsearch hround =>
    obtain ⟨fuel, rfl⟩ := Nat.exists_eq_succ_of_ne_zero (Nat.ne_of_gt (Nat.zero_lt_of_lt hfuel))
    unfold MsgCourier.rewriteLoop
    rw [hsearch]
    dsimp only
    rw [hround, error_bind]
  | round hsearch hround _ ih =>
    obtain ⟨fuel, rfl⟩ := Nat.exists_eq_succ_of_ne_zero (Nat.ne_of_gt (Nat.zero_lt_of_lt hfuel))
    unfold MsgCourier.rewriteLoop
    rw [hsearch]
    dsimp only
    rw [hround, ok_bind]
    exact ih (Nat.lt_of_succ_lt_succ hfuel)

theorem Rounds.rewrite (hr : IsBracket r.left) {n : ℕ} {x : Translation}
    {result : Cxx Translation} (h : Rounds indeterminate indentTabs r n x result) :
    rewrite indeterminate indentTabs r x = result := by
  apply h.rewriteLoop
  have hbound := h.le_count hr
  have hlength : x.sStatement.count r.left ≤ x.sStatement.length := List.count_le_length
  omega

/-- The patterns of the three loops, in their order. -/
def fragmentPatterns : List FragmentPattern := [funcPattern, arrayPattern, mapPattern]

theorem Loops.translateStatement {iVariableCount n : ℕ} {sStatement : Bytes}
    {result : Cxx Translation}
    (h : Loops indeterminate indentTabs fragmentPatterns n { sStatement, iVariableCount } result) :
    translateStatement indeterminate indentTabs iVariableCount sStatement =
      result.map fun z => (if z.bTranslated then .ok else .statementWasnotTranslated, z) := by
  unfold MsgCourier.translateStatement
  cases h with
  | leaves hx =>
    rw [hx.rewrite isBracket_paren]
    rfl
  | next hx hrest =>
    rw [hx.rewrite isBracket_paren, ok_bind]
    cases hrest with
    | leaves hy =>
      rw [hy.rewrite isBracket_square]
      rfl
    | next hy hrest =>
      rw [hy.rewrite isBracket_square, ok_bind]
      cases hrest with
      | leaves hz =>
        rw [hz.rewrite isBracket_square]
        rfl
      | next hz hrest =>
        cases hrest
        rw [hz.rewrite isBracket_square]
        rfl

/-- The calls take at most a round for each `(`, the lists and maps together at most one for each
`[`. -/
theorem exists_loops (indeterminate : Bytes → Option StatementType) (indentTabs : Bytes)
    (x : Translation) : ∃ n result, Loops indeterminate indentTabs fragmentPatterns n x result ∧
      n ≤ x.sStatement.count 40+x.sStatement.count 91 := by
  obtain ⟨k, result, hx, hk⟩ := exists_rounds (r := funcPattern) indeterminate indentTabs
    isBracket_paren (x := x) (le_refl _)
  change k ≤ x.sStatement.count 40 at hk
  cases result with
  | error e => exact ⟨k, _, .leaves hx, by omega⟩
  | ok y =>
    have hsquare : y.sStatement.count 91 ≤ x.sStatement.count 91 := hx.count_le isBracket_square rfl
    obtain ⟨l, result, hy, hl⟩ := exists_rounds (r := arrayPattern) indeterminate indentTabs
      isBracket_square (x := y) (le_refl _)
    change l ≤ y.sStatement.count 91 at hl
    cases result with
    | error e => exact ⟨k+l, _, .next hx (.leaves hy), by omega⟩
    | ok z =>
      have hboth : l+z.sStatement.count 91 ≤ y.sStatement.count 91 :=
        hy.count_add_le isBracket_square rfl
      obtain ⟨m, result, hz, hm⟩ := exists_rounds (r := mapPattern) indeterminate indentTabs
        isBracket_square (x := z) (le_refl _)
      change m ≤ z.sStatement.count 91 at hm
      cases result with
      | error e => exact ⟨k+(l+m), _, .next hx (.next hy (.leaves hz)), by omega⟩
      | ok w => exact ⟨k+(l+(m+0)), _, .next hx (.next hy (.next hz .done)), by omega⟩

/-- The three loops end on every statement, whatever its brackets are and whether the parts of a
fragment fit, do not fit or throw: there is a round for each left bracket at most. They end without
a result only where a round throws, or where the number of a variable is no `int`. -/
theorem translateStatement_ends (indeterminate : Bytes → Option StatementType)
    (indentTabs : Bytes) (iVariableCount : ℕ) (sStatement : Bytes) :
    ∃ n result, Loops indeterminate indentTabs fragmentPatterns n { sStatement, iVariableCount }
        result ∧
      n ≤ sStatement.count 40+sStatement.count 91 ∧
      (∀ z, result = .ok z → z.iVariableCount = iVariableCount+n) ∧
      (∀ e, result = .error e →
        e = .charPtr ∨ e = .undefined ∧ intMax < (iVariableCount+n : ℕ)) ∧
      translateStatement indeterminate indentTabs iVariableCount sStatement =
        result.map fun z => (if z.bTranslated then .ok else .statementWasnotTranslated, z) := by
  obtain ⟨n, result, hloops, hn⟩ :=
    exists_loops indeterminate indentTabs { sStatement, iVariableCount }
  refine ⟨n, result, hloops, hn, ?_, ?_, hloops.translateStatement⟩
  · exact fun z hz => hloops.count_eq hz
  · exact fun e he => hloops.error he

end MsgCourier
