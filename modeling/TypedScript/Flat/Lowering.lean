import TypedScript.Flat.Tree

/-!
# Flattening

A bound routine is flattened from the inside out. Flattening an expression gives the statements that
must run before it, mostly none, and the flat expression. When an operand needs such statements, the
operands before it are stored in temporaries ahead of them, so that the order of evaluation stays
from left to right.
-/

namespace TypedScript
namespace Flat

/-- The labels and temporaries of a routine used so far. -/
structure Supply where
  labels : Nat
  temporaries : Nat

abbrev Lowering := StateT Supply (Except Defect)

/-- Statements that run first, and an expression. -/
structure Lowered where
  before : List Stmt
  expr : Expr

/-- The jump targets of the innermost loop. -/
structure LoopLabels where
  continueTo : Label
  breakTo : Label

namespace Lowering

def freshLabel : Lowering Label := do
  let n := (← get).labels + 1
  modify fun s => { s with labels := n }
  return n

def newTemporary (type : TypeId) : Lowering Symbol := do
  let n := (← get).temporaries + 1
  modify fun s => { s with temporaries := n }
  return ⟨.temporary n, "$t" ++ toString n, .localVariable, type, false⟩

def store (temporary : Symbol) (e : Expr) : List Stmt :=
  [.declare temporary, .eval (.assign temporary e)]

/-- Whether an expression has the same value wherever it is evaluated within a statement: constants,
temporaries, parameters and library fields. -/
def isStable : Expr → Bool
  | .literal _ _ => true
  | .symbol s =>
    match s.id, s.kind with
    | .temporary _, _ => true
    | _, .parameter _ => true
    | _, .libraryField _ => true
    | _, _ => false
  | _ => false

/-- Stores an expression in a temporary unless it is stable. -/
def hoist (e : Expr) : Lowering Lowered := do
  if isStable e then return ⟨[], e⟩
  else
    let t ← newTemporary e.type
    return ⟨store t e, .symbol t⟩

def hoistAll : List Expr → Lowering (List Stmt × List Expr)
  | [] => return ([], [])
  | e :: rest => do
    let first ← hoist e
    let (before, rest) ← hoistAll rest
    return (first.before ++ before, first.expr :: rest)

def nextOperand (before : List Stmt) (done : List Expr) (next : Lowered) :
    Lowering (List Stmt × List Expr) := do
  if next.before.isEmpty then return (before, done ++ [next.expr])
  else
    let (hoisted, done) ← hoistAll done
    return (before ++ hoisted ++ next.before, done ++ [next.expr])

def pair (first second : Lowering Lowered) (make : Expr → Expr → Expr) : Lowering Lowered := do
  let a ← first
  let b ← second
  if b.before.isEmpty then return ⟨a.before, make a.expr b.expr⟩
  else
    let kept ← hoist a.expr
    return ⟨a.before ++ kept.before ++ b.before, make kept.expr b.expr⟩

def triple (first second third : Lowering Lowered) : Lowering (List Stmt × Expr × Expr × Expr) := do
  let a ← first
  let b ← second
  let (before, x, y) ← if b.before.isEmpty then pure (a.before, a.expr, b.expr)
    else do
      let kept ← hoist a.expr
      pure (a.before ++ kept.before ++ b.before, kept.expr, b.expr)
  let c ← third
  if c.before.isEmpty then return (before, x, y, c.expr)
  else
    let x ← hoist x
    let y ← hoist y
    return (before ++ x.before ++ y.before ++ c.before, x.expr, y.expr, c.expr)

/-- The negation of a truth value; literals and double negations are folded. -/
def negate : Expr → Expr
  | .unary (some (.unary .not)) operand _ => operand
  | .literal (some (.bool v)) _ => .literal (some (.bool !v)) (.builtin .bool)
  | e => .unary (some (.unary .not)) e (.builtin .bool)

def zeroLiteral (t : TypeId) : Expr :=
  let value : Option Literal :=
    if t.isSigned then some (.int 0)
    else if t.isUnsigned then some (.uint 0)
    else if t.isFloat then some (.float .zero)
    else match t with
      | .builtin .bool => some (.bool false)
      | .builtin .char => some (.char '\x00')
      | .builtin .string => some (.string "")
      | _ => none
  .literal value t

/-- Stores an expression in a temporary, unless it is a variable or a constant. -/
def spill (e : Expr) : Lowering Lowered := do
  match e with
  | .symbol _ | .literal _ _ => return ⟨[], e⟩
  | _ =>
    let t ← newTemporary e.type
    return ⟨store t e, .symbol t⟩

def convert (r : Registry) (e : Expr) (target : TypeId) : Lowering Expr := do
  if e.type = target then return e
  match ← r.classify e.type target with
  | .identity => return e
  | kind => return .convert kind e target

/-- The right-hand side of a compound assignment: the operator applied to the old value. -/
def combined (r : Registry) (operator : TypeId) (old value : Expr) : Lowering Expr := do
  let info ← r.callable operator
  let left ← convert r old (info.params.headD old.type)
  let result := if info.isIntrinsic
    then Expr.binary info.op? (info.params.headD old.type) left value info.result
    else .call operator [left, value] info.result
  convert r result old.type

/-- An operator that evaluates its right operand only if the left one does not decide. The result is
kept in a temporary. -/
def shortCircuit (op : BinaryOperator) (left right : Lowering Lowered) : Lowering Lowered := do
  let t ← newTemporary (.builtin .bool)
  let left ← left
  let done ← freshLabel
  let decided := if op = .andAlso then negate (.symbol t) else .symbol t
  let right ← right
  return ⟨[.declare t] ++ left.before ++ [.eval (.assign t left.expr), .jumpIf decided done] ++
    right.before ++ [.eval (.assign t right.expr), .label done], .symbol t⟩

mutual

def lowerExpr (r : Registry) : Bound.Expr → Lowering Lowered
  | .literal _ v t => return ⟨[], .literal (some v) t⟩
  | .symbol _ s => return ⟨[], .symbol s⟩
  | .assign _ target value =>
    match target with
    | .index _ array index t => do
      let (before, array, index, value) ←
        triple (lowerExpr r array) (lowerExpr r index) (lowerExpr r value)
      return ⟨before, .assignElement array index t value⟩
    | .symbol _ s => do
      let value ← lowerExpr r value
      return ⟨value.before, .assign s value.expr⟩
    | _ => return ⟨[], .invalid⟩
  | .compound _ target operator value =>
    match target with
    | .symbol _ s => do
      let value ← lowerExpr r value
      return ⟨value.before, .assign s (← combined r operator (.symbol s) value.expr)⟩
    | .index _ array index t => do
      let (before, array, index, value) ←
        triple (lowerExpr r array) (lowerExpr r index) (lowerExpr r value)
      let array ← spill array
      let index ← spill index
      let result ← combined r operator (.index array.expr index.expr t) value
      return ⟨before ++ array.before ++ index.before,
        .assignElement array.expr index.expr t result⟩
    | _ => return ⟨[], .invalid⟩
  | .binary _ operator left right t => do
    let info ← r.callable operator
    match info.op? with
    | some (.binary .andAlso) => shortCircuit .andAlso (lowerExpr r left) (lowerExpr r right)
    | some (.binary .orElse) => shortCircuit .orElse (lowerExpr r left) (lowerExpr r right)
    | op? =>
      pair (lowerExpr r left) (lowerExpr r right) fun a b =>
        .binary op? (info.params.headD t) a b t
  | .unary _ operator operand t => do
    let info ← r.callable operator
    let operand ← lowerExpr r operand
    return ⟨operand.before, .unary info.op? operand.expr t⟩
  | .call _ callable args t => do
    let (before, args) ← lowerOperands r [] [] args
    return ⟨before, .call callable args t⟩
  | .convert _ kind operand t _ => do
    let operand ← lowerExpr r operand
    if kind = .identity then return operand
    else return ⟨operand.before, .convert kind operand.expr t⟩
  | .index _ target index t =>
    pair (lowerExpr r target) (lowerExpr r index) fun a b => .index a b t
  | .length _ target => do
    let target ← lowerExpr r target
    return ⟨target.before, .length target.expr⟩
  | .newArray _ element size t => do
    let size ← lowerExpr r size
    return ⟨size.before, .newArray element size.expr t⟩
  | .invalid _ _ | .group _ _ _ | .typeName _ _ => return ⟨[], .invalid⟩

def lowerOperands (r : Registry) (before : List Stmt) (done : List Expr) :
    List Bound.Expr → Lowering (List Stmt × List Expr)
  | [] => return (before, done)
  | e :: rest => do
    let next ← lowerExpr r e
    let (before, done) ← nextOperand before done next
    lowerOperands r before done rest

end

/-- Flattens a declaration. A variable without an initial value is set to zero each time. -/
def lowerDeclaration (r : Registry) (d : Bound.Declaration) : Lowering (List Stmt) := do
  match d.init? with
  | some init =>
    let value ← lowerExpr r init
    return .declare d.symbol :: value.before ++ [.eval (.assign d.symbol value.expr)]
  | none =>
    if d.symbol.type = .error then return [.declare d.symbol]
    else return [.declare d.symbol, .eval (.assign d.symbol (zeroLiteral d.symbol.type))]

def lowerEvaluation (r : Registry) (e : Bound.Expr) : Lowering (List Stmt) := do
  let value ← lowerExpr r e
  return value.before ++ [.eval value.expr]

def lowerJump (what : String) (target : LoopLabels → Label) (loop? : Option LoopLabels) :
    Lowering (List Stmt) :=
  match loop? with
  | some l => return [.jump (target l)]
  | none => throw (.outsideLoop what)

def jumpUnless (r : Registry) (cond : Bound.Expr) (target : Lowering Label) :
    Lowering (List Stmt × Label) := do
  let cond ← lowerExpr r cond
  let target ← target
  return (cond.before ++ [.jumpIf (negate cond.expr) target], target)

/-- Flattens the first part of the header of a counted loop. -/
def lowerSetup (r : Registry) : Option Bound.Setup → Lowering (List Stmt)
  | some (.declare d) => lowerDeclaration r d
  | some (.eval e) => lowerEvaluation r e.expr
  | none => return []

/-- Flattens the condition of a counted loop; without one the loop goes on. -/
def lowerTest (r : Registry) (done : Label) : Option Bound.Expr → Lowering (List Stmt)
  | some cond => Prod.fst <$> jumpUnless r cond (pure done)
  | none => return []

/-- Flattens what a counted loop evaluates after each turn. -/
def lowerPost (r : Registry) : Option Bound.Expr → Lowering (List Stmt)
  | some post => lowerEvaluation r post
  | none => return []

mutual

/-- Flattens a statement inside the given loop, if it is inside one. -/
def lowerStmt (r : Registry) (loop? : Option LoopLabels) : Bound.Stmt → Lowering (List Stmt)
  | .block _ body => lowerStmts r loop? body
  | .declare d => lowerDeclaration r d
  | .eval e => lowerEvaluation r e.expr
  | .ifThen _ cond yes => do
    let (test, done) ← jumpUnless r cond freshLabel
    let yes ← lowerStmt r loop? yes
    return test ++ yes ++ [.label done]
  | .ifElse _ cond yes no => do
    let cond ← lowerExpr r cond
    let done ← freshLabel
    let otherwise ← freshLabel
    let yes ← lowerStmt r loop? yes
    let no ← lowerStmt r loop? no
    return cond.before ++ [.jumpIf (negate cond.expr) otherwise] ++ yes ++
      [.jump done, .label otherwise] ++ no ++ [.label done]
  | .whileLoop _ cond body => do
    let top ← freshLabel
    let done ← freshLabel
    let (test, _) ← jumpUnless r cond (pure done)
    let body ← lowerStmt r (some ⟨top, done⟩) body
    return [.label top] ++ test ++ body ++ [.jump top, .label done]
  | .forLoop _ setup cond post body => do
    let setup ← lowerSetup r setup
    let top ← freshLabel
    let next ← freshLabel
    let done ← freshLabel
    let test ← lowerTest r done cond
    let body ← lowerStmt r (some ⟨next, done⟩) body
    let post ← lowerPost r post
    return setup ++ [.label top] ++ test ++ body ++ [.label next] ++ post ++
      [.jump top, .label done]
  | .breakLoop _ => lowerJump "break" LoopLabels.breakTo loop?
  | .continueLoop _ => lowerJump "continue" LoopLabels.continueTo loop?
  | .returnStmt _ none => return [.returnStmt none]
  | .returnStmt _ (some e) => do
    let value ← lowerExpr r e
    return value.before ++ [.returnStmt (some value.expr)]

def lowerStmts (r : Registry) (loop? : Option LoopLabels) :
    List Bound.Stmt → Lowering (List Stmt)
  | [] => return []
  | s :: rest => do
    let first ← lowerStmt r loop? s
    return first ++ (← lowerStmts r loop? rest)

end

/-- Ends the body of a routine with a return, if it does not end with one. -/
def terminated (result : TypeId) (body : List Stmt) : List Stmt :=
  if body.getLast?.any Stmt.isReturn then body
  else if result = .builtin .void || result = .error then body ++ [.returnStmt none]
  else body ++ [.returnStmt (some (zeroLiteral result))]

end Lowering

def Routine.ofBound (r : Registry) (f : Bound.Routine) : Except Defect Routine := do
  let body ← (Lowering.lowerStmts r none f.body).run' ⟨0, 0⟩
  return ⟨f.name, f.callable, f.params, f.result, Lowering.terminated f.result body⟩

/-- Flattens a program. Programs with mistakes are flattened too; what is invalid stays so. -/
def Program.ofBound (r : Registry) (p : Bound.Program) : Except Defect Program := do
  let initializer ← Routine.ofBound r p.initializer
  let functions ← p.functions.mapM (Routine.ofBound r)
  let script? ← p.script?.mapM (Routine.ofBound r)
  return ⟨p.globals, initializer, functions, script?, p.entry?⟩

end Flat
end TypedScript
