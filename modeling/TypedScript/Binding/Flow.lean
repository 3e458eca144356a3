import TypedScript.Bound.Tree

/-!
# Flow of control

Whether the end of a statement can be reached, judged by its form alone: a condition counts as true
only if it is the literal. From this follow the statements that are never executed.
-/

namespace TypedScript
namespace Bound

/-- Whether an expression is the literal `true`. -/
def Expr.isTrue : Expr → Bool
  | .literal _ (.bool true) _ => true
  | _ => false

mutual

def Stmt.breaks : Stmt → Bool
  | .breakLoop _ => true
  | .block _ body => anyBreaks body
  | .ifThen _ _ yes => yes.breaks
  | .ifElse _ _ yes no => yes.breaks || no.breaks
  | _ => false

def anyBreaks : List Stmt → Bool
  | [] => false
  | s :: rest => s.breaks || anyBreaks rest

end

mutual

def Stmt.canComplete : Stmt → Bool
  | .returnStmt _ _ | .breakLoop _ | .continueLoop _ => false
  | .block _ body => allComplete body
  | .ifThen _ _ _ => true
  | .ifElse _ _ yes no => yes.canComplete || no.canComplete
  | .whileLoop _ cond body => !cond.isTrue || body.breaks
  | .forLoop _ _ (some cond) _ body => !cond.isTrue || body.breaks
  | .forLoop _ _ none _ body => body.breaks
  | .declare _ | .eval _ => true

/-- Whether control can reach the end of every one of the statements. -/
def allComplete : List Stmt → Bool
  | [] => true
  | s :: rest => s.canComplete && allComplete rest

end

mutual

/-- The first statement of each block that is never executed. -/
def Stmt.unreachable : Stmt → List Span
  | .block _ body => unreachableAfter false body
  | .ifThen _ _ yes => yes.unreachable
  | .ifElse _ _ yes no => yes.unreachable ++ no.unreachable
  | .whileLoop _ _ body => body.unreachable
  | .forLoop _ _ _ _ body => body.unreachable
  | _ => []

/-- The first statement of a block that is never executed, and those inside the statements before it;
`dead` says that control does not get here. -/
def unreachableAfter (dead : Bool) : List Stmt → List Span
  | [] => []
  | s :: rest =>
    if dead then
      if s.isEmptyBlock then unreachableAfter true rest else [s.span]
    else s.unreachable ++ unreachableAfter (!s.canComplete) rest

end

end Bound
end TypedScript
