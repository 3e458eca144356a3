import TypedScript.Bound.Tree

/-!
# Flat programs

A routine as one list of statements: declarations, evaluations, returns, labels and jumps. There are
no structured statements any more, no compound assignments and no operators that skip an operand.
-/

namespace TypedScript
namespace Flat

/-- A jump target within a routine. -/
abbrev Label := Nat

/-- An expression. A literal without a value is the null reference. -/
inductive Expr
  | literal (value : Option Literal) (type : TypeId)
  | symbol (symbol : Symbol)
  | assign (target : Symbol) (value : Expr)
  | assignElement (array index : Expr) (type : TypeId) (value : Expr)
  | binary (op : Option Operator) (operand : TypeId) (left right : Expr) (type : TypeId)
  | unary (op : Option Operator) (operand : Expr) (type : TypeId)
  | call (callable : TypeId) (args : List Expr) (type : TypeId)
  | convert (kind : Conversion) (operand : Expr) (type : TypeId)
  | index (target index : Expr) (type : TypeId)
  | length (target : Expr)
  | newArray (element : TypeId) (size : Expr) (type : TypeId)
  | invalid
  deriving Repr

def Expr.type : Expr → TypeId
  | literal _ t | assignElement _ _ t _ | binary _ _ _ _ t | unary _ _ t | call _ _ t => t
  | convert _ _ t | index _ _ t | newArray _ _ t => t
  | symbol s | assign s _ => s.type
  | length _ => .builtin .i32
  | invalid => .error

/-- A statement. `jumpIf` jumps when its condition holds and goes on otherwise. -/
inductive Stmt
  | declare (symbol : Symbol)
  | eval (expr : Expr)
  | returnStmt (value : Option Expr)
  | jump (target : Label)
  | jumpIf (cond : Expr) (target : Label)
  | label (id : Label)
  deriving Repr

def Stmt.isReturn : Stmt → Bool
  | returnStmt _ => true
  | _ => false

structure Routine where
  name : String
  callable : TypeId
  params : List Symbol
  result : TypeId
  body : List Stmt
  deriving Repr

structure Program where
  globals : List Symbol
  initializer : Routine
  functions : List Routine
  script? : Option Routine
  entry? : Option Nat
  deriving Repr

def Program.routines (p : Program) : List Routine := p.initializer :: p.functions ++ p.script?.toList

end Flat
end TypedScript
