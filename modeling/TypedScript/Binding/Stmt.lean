import TypedScript.Binding.Expr

/-!
# Binding statements

A statement is bound in the scopes that are open where it stands; blocks, counted loops and
declarations that are the whole body of something open one of their own.
-/

namespace TypedScript
namespace Binder

open TypedScript.Bound TypedScript.Binding

def bindDeclaration (d : Parsed.Declaration) : Binder (TypeId × Option Expr) := do
  let declared? ← d.type?.mapM valueType
  match d.init? with
  | none => return (declared?.getD .error, none)
  | some init =>
    let value ← bindValue init
    match declared? with
    | none => return (value.type, some value)
    | some declared =>
      return (declared, some (← convertImplicit value declared init.span))

/-- A local variable. It is not yet visible in its own initial value. -/
def bindLocal (d : Parsed.Declaration) : Binder Declaration := do
  let (type, value) ← bindDeclaration d
  let sym ← newSymbol d.name .localVariable type d.isConst
  if ← declare sym then
    modify fun s =>
      { s with context := { s.context with locals := s.context.locals.push (sym, d.span) } }
  else complain d.span (.alreadyDeclared d.name)
  return ⟨d.span, sym, value⟩

/-- An expression as a statement. It may be a call without result. -/
def bindEvaluation (e : Parsed.Evaluation) : Binder Evaluation := do
  let bound ← bindExpr e.expr
  match bound with
  | .group _ _ _ | .typeName _ _ => return ⟨e.span, ← requireValue bound⟩
  | _ => return ⟨e.span, bound⟩

/-- The first part of the header of a counted loop. -/
def bindSetup : Parsed.Setup → Binder Setup
  | .declare d => return .declare (← bindLocal d)
  | .eval e => return .eval (← bindEvaluation e)

def bindCondition (e : Parsed.Expr) : Binder Expr := do
  convertImplicit (← bindValue e) (.builtin .bool) e.span

def bindReturn (span : Span) (value? : Option Parsed.Expr) : Binder Stmt := do
  let result := (← get).context.result
  match value? with
  | none =>
    if result ≠ .builtin .void && result ≠ .error then
      complain span (.missingReturnValue (← fullName result))
    return .returnStmt span none
  | some e =>
    let value ← bindExpr e
    if result = .builtin .void then
      if !value.isError then complain e.span .unexpectedReturnValue
      return .returnStmt span none
    else
      let value ← requireValue value
      return .returnStmt span (some (← convertImplicit value result e.span))

def inLoop {α : Type} (body : Binder α) : Binder α := do
  modify fun s => { s with context := { s.context with loops := s.context.loops + 1 } }
  let a ← body
  modify fun s => { s with context := { s.context with loops := s.context.loops - 1 } }
  return a

/-- A statement that is only allowed in a loop; elsewhere it becomes an empty block. -/
def bindJump (word : String) (span : Span) (stmt : Stmt) : Binder Stmt := do
  if (← get).context.loops = 0 then
    complain span (.outsideLoop word)
    return .block span []
  else return stmt

/-- The body of a conditional or a loop. A declaration there gets a scope of its own; anything else is
bound as it is. -/
def nested (s : Parsed.Stmt) (bind : Binder Stmt) : Binder Stmt :=
  match s with
  | .declare d => do
    let bound ← inScope .block (bindLocal d)
    return .block d.span [.declare bound]
  | _ => bind

mutual

def bindStmt : Parsed.Stmt → Binder Stmt
  | .block span body => do
    return .block span (← inScope .block (bindStmts body))
  | .declare d => do return .declare (← bindLocal d)
  | .eval e => do return .eval (← bindEvaluation e)
  | .missing => return .block ⟨Position.zero, Position.zero⟩ []
  | .ifThen span cond yes => do
    let cond ← bindCondition cond
    return .ifThen span cond (← nested yes (bindStmt yes))
  | .ifElse span cond yes no => do
    let cond ← bindCondition cond
    let first ← nested yes (bindStmt yes)
    return .ifElse span cond first (← nested no (bindStmt no))
  | .whileLoop span cond body => do
    let cond ← bindCondition cond
    return .whileLoop span cond (← inLoop (nested body (bindStmt body)))
  | .forLoop span setup cond post body =>
    inScope .block do
      let setup ← setup.mapM bindSetup
      let cond ← cond.mapM bindCondition
      let post ← post.mapM bindExpr
      return .forLoop span setup cond post (← inLoop (nested body (bindStmt body)))
  | .breakLoop span => bindJump "break" span (.breakLoop span)
  | .continueLoop span => bindJump "continue" span (.continueLoop span)
  | .returnStmt span value => bindReturn span value

def bindStmts : List Parsed.Stmt → Binder (List Stmt)
  | [] => return []
  | s :: rest => do
    let bound ← bindStmt s
    return bound :: (← bindStmts rest)

end

end Binder
end TypedScript
