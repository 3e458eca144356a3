import TypedScript.Number.Double
import TypedScript.Operator
import TypedScript.Source.Position

/-!
# Parsed programs

The tree of a source text as it was written: names are not resolved and nothing has a type. Every
node knows its span.
-/

namespace TypedScript
namespace Parsed

/-- A written type: a name and the number of pairs of brackets behind it. -/
structure TypeName where
  span : Span
  name : String
  rank : Nat
  deriving DecidableEq, Repr

def TypeName.text (t : TypeName) : String :=
  t.name ++ String.join (List.replicate t.rank "[]")

/-- An expression. An integer literal is its magnitude; a minus before it is an operator. -/
inductive Expr
  | int (span : Span) (value : UInt64)
  | float (span : Span) (value : Double)
  | string (span : Span) (value : String)
  | char (span : Span) (value : Char)
  | bool (span : Span) (value : Bool)
  | name (span : Span) (name : String)
  | assign (span : Span) (op : Option BinaryOperator) (target value : Expr)
  | binary (span : Span) (op : BinaryOperator) (left right : Expr)
  | unary (span : Span) (op : UnaryOperator) (operand : Expr)
  | call (span : Span) (callee : Expr) (args : List Expr)
  | index (span : Span) (target index : Expr)
  | member (span : Span) (target : Expr) (name : String)
  | cast (span : Span) (operand : Expr) (type : TypeName)
  | newArray (span : Span) (element : TypeName) (size : Expr)
  deriving Repr

def Expr.span : Expr → Span
  | int s _ | float s _ | string s _ | char s _ | bool s _ | name s _ => s
  | assign s _ _ _ | binary s _ _ _ | unary s _ _ | call s _ _ | index s _ _ => s
  | member s _ _ | cast s _ _ | newArray s _ _ => s

/-- The declaration of a variable or a constant. -/
structure Declaration where
  span : Span
  name : String
  isConst : Bool
  type? : Option TypeName
  init? : Option Expr
  deriving Repr

/-- An expression that stands as a statement. -/
structure Evaluation where
  span : Span
  expr : Expr
  deriving Repr

/-- What may stand first in the header of a counted loop. -/
inductive Setup
  | declare (d : Declaration)
  | eval (e : Evaluation)
  deriving Repr

/-- A statement. A declaration that broke off before its name leaves `missing` behind. -/
inductive Stmt
  | eval (e : Evaluation)
  | declare (d : Declaration)
  | missing
  | block (span : Span) (body : List Stmt)
  | ifThen (span : Span) (cond : Expr) (yes : Stmt)
  | ifElse (span : Span) (cond : Expr) (yes no : Stmt)
  | whileLoop (span : Span) (cond : Expr) (body : Stmt)
  | forLoop (span : Span) (setup : Option Setup) (cond post : Option Expr) (body : Stmt)
  | breakLoop (span : Span)
  | continueLoop (span : Span)
  | returnStmt (span : Span) (value : Option Expr)
  deriving Repr

/-- A parameter of a function. -/
structure Param where
  span : Span
  name : String
  type : TypeName
  deriving Repr

structure Function where
  span : Span
  name : String
  params : List Param
  result? : Option TypeName
  bodySpan : Span
  body : List Stmt
  deriving Repr

/-- An import of a library name. With a signature only the overload with these parameters, and if
it is given this result, is imported. -/
structure Import where
  span : Span
  path : List String
  hasSignature : Bool
  params : List TypeName
  result? : Option TypeName
  deriving Repr

namespace Import

def qualified (i : Import) : String := String.intercalate "." i.path

def localName (i : Import) : String := i.path.getLast?.getD ""

end Import

/-- A source file: its declarations by kind and the statements outside functions, each in the order
written. -/
structure File where
  span : Span
  imports : List Import
  globals : List Declaration
  functions : List Function
  statements : List Stmt
  deriving Repr

end Parsed
end TypedScript
