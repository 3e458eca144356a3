import TypedScript.Bound.Tree

/-!
# Induction on bound trees

Expressions hold lists of expressions, and statements lists of statements. The principles give a
hypothesis for every member of such a list.
-/

namespace TypedScript
namespace Bound

/-- Induction on expressions. A place that is assigned to gives its array and its index. -/
theorem Expr.induction {P : Expr → Prop}
    (literal : ∀ span v t, P (.literal span v t)) (symbol : ∀ span s, P (.symbol span s))
    (group : ∀ span name g, P (.group span name g)) (typeName : ∀ span t, P (.typeName span t))
    (assign : ∀ span target value,
      (∀ span' array index t, target = .index span' array index t → P array ∧ P index) →
      P value → P (.assign span target value))
    (compound : ∀ span target operator value,
      (∀ span' array index t, target = .index span' array index t → P array ∧ P index) →
      P value → P (.compound span target operator value))
    (binary : ∀ span operator left right t, P left → P right →
      P (.binary span operator left right t))
    (unary : ∀ span operator operand t, P operand → P (.unary span operator operand t))
    (call : ∀ span callable args t, (∀ e ∈ args, P e) → P (.call span callable args t))
    (convert : ∀ span kind operand t isExplicit, P operand →
      P (.convert span kind operand t isExplicit))
    (index : ∀ span target index t, P target → P index → P (.index span target index t))
    (length : ∀ span target, P target → P (.length span target))
    (newArray : ∀ span element size t, P size → P (.newArray span element size t))
    (invalid : ∀ span children, P (.invalid span children)) (e : Expr) : P e := by
  have hsize : ∀ n (e : Expr), sizeOf e < n → P e := by
    intro n
    induction n with
    | zero =>
      intro e he
      omega
    | succ n ih =>
      intro e he
      cases e with
      | literal span v t => exact literal span v t
      | symbol span s => exact symbol span s
      | group span name g => exact group span name g
      | typeName span t => exact typeName span t
      | assign span target value =>
        simp at he
        refine assign span target value ?_ (ih _ (by omega))
        rintro span' array index t rfl
        simp at he
        exact ⟨ih _ (by omega), ih _ (by omega)⟩
      | compound span target operator value =>
        simp at he
        refine compound span target operator value ?_ (ih _ (by omega))
        rintro span' array index t rfl
        simp at he
        exact ⟨ih _ (by omega), ih _ (by omega)⟩
      | binary span operator left right t =>
        simp at he
        exact binary span operator left right t (ih _ (by omega)) (ih _ (by omega))
      | unary span operator operand t =>
        simp at he
        exact unary span operator operand t (ih _ (by omega))
      | call span callable args t =>
        simp at he
        refine call span callable args t fun e hmem => ih _ ?_
        have := List.sizeOf_lt_of_mem hmem
        omega
      | convert span kind operand t isExplicit =>
        simp at he
        exact convert span kind operand t isExplicit (ih _ (by omega))
      | index span target i t =>
        simp at he
        exact index span target i t (ih _ (by omega)) (ih _ (by omega))
      | length span target =>
        simp at he
        exact length span target (ih _ (by omega))
      | newArray span element size t =>
        simp at he
        exact newArray span element size t (ih _ (by omega))
      | invalid span children => exact invalid span children
  exact hsize _ e (Nat.lt_succ_self _)

/-- Induction on statements. -/
theorem Stmt.induction {P : Stmt → Prop} (block : ∀ span body, (∀ s ∈ body, P s) → P (.block span body))
    (declare : ∀ d, P (.declare d)) (eval : ∀ e, P (.eval e))
    (ifThen : ∀ span cond yes, P yes → P (.ifThen span cond yes))
    (ifElse : ∀ span cond yes no, P yes → P no → P (.ifElse span cond yes no))
    (whileLoop : ∀ span cond body, P body → P (.whileLoop span cond body))
    (forLoop : ∀ span setup cond post body, P body → P (.forLoop span setup cond post body))
    (breakLoop : ∀ span, P (.breakLoop span)) (continueLoop : ∀ span, P (.continueLoop span))
    (returnStmt : ∀ span value, P (.returnStmt span value)) (s : Stmt) : P s := by
  have hsize : ∀ n (s : Stmt), sizeOf s < n → P s := by
    intro n
    induction n with
    | zero =>
      intro s hs
      omega
    | succ n ih =>
      intro s hs
      cases s with
      | block span body =>
        simp at hs
        refine block span body fun s hmem => ih _ ?_
        have := List.sizeOf_lt_of_mem hmem
        omega
      | declare d => exact declare d
      | eval e => exact eval e
      | ifThen span cond yes =>
        simp at hs
        exact ifThen span cond yes (ih _ (by omega))
      | ifElse span cond yes no =>
        simp at hs
        exact ifElse span cond yes no (ih _ (by omega)) (ih _ (by omega))
      | whileLoop span cond body =>
        simp at hs
        exact whileLoop span cond body (ih _ (by omega))
      | forLoop span setup cond post body =>
        simp at hs
        exact forLoop span setup cond post body (ih _ (by omega))
      | breakLoop span => exact breakLoop span
      | continueLoop span => exact continueLoop span
      | returnStmt span value => exact returnStmt span value
  exact hsize _ s (Nat.lt_succ_self _)

end Bound
end TypedScript
