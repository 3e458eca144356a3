import TypedScript.Number.Double
import TypedScript.Source.Position
import TypedScript.Symbol
import TypedScript.Types.Resolution

/-!
# Bound programs

The tree of a program after names and types are resolved: names have become symbols and operators
the callables they stand for. What could not be understood is an invalid expression of the error
type, which keeps the parts that were.
-/

namespace TypedScript

/-- A constant that is written in a program. -/
inductive Literal
  | int (v : Int64)
  | uint (v : UInt64)
  | float (v : Double)
  | bool (v : Bool)
  | char (v : Char)
  | string (v : String)
  deriving DecidableEq, Repr

namespace Bound

/-- An expression with its type. -/
inductive Expr
  | literal (span : Span) (value : Literal) (type : TypeId)
  | symbol (span : Span) (symbol : Symbol)
  | group (span : Span) (name : String) (group : TypeId)
  | typeName (span : Span) (type : TypeId)
  | assign (span : Span) (target value : Expr)
  | compound (span : Span) (target : Expr) (operator : TypeId) (value : Expr)
  | binary (span : Span) (operator : TypeId) (left right : Expr) (type : TypeId)
  | unary (span : Span) (operator : TypeId) (operand : Expr) (type : TypeId)
  | call (span : Span) (callable : TypeId) (args : List Expr) (type : TypeId)
  | convert (span : Span) (kind : Conversion) (operand : Expr) (type : TypeId) (isExplicit : Bool)
  | index (span : Span) (target index : Expr) (type : TypeId)
  | length (span : Span) (target : Expr)
  | newArray (span : Span) (element : TypeId) (size : Expr) (type : TypeId)
  | invalid (span : Span) (children : List Expr)
  deriving Repr

namespace Expr

def span : Expr → Span
  | literal s _ _ | symbol s _ | group s _ _ | typeName s _ | assign s _ _ => s
  | compound s _ _ _ | binary s _ _ _ _ | unary s _ _ _ | call s _ _ _ => s
  | convert s _ _ _ _ | index s _ _ _ | length s _ | newArray s _ _ _ | invalid s _ => s

def type : Expr → TypeId
  | literal _ _ t | typeName _ t | binary _ _ _ _ t | unary _ _ _ t | call _ _ _ t => t
  | convert _ _ _ t _ | index _ _ _ t | newArray _ _ _ t => t
  | symbol _ s => s.type
  | group _ _ g => g
  | assign _ target _ | compound _ target _ _ => target.type
  | length _ _ => .builtin .i32
  | invalid _ _ => .error

def category : Expr → Category
  | symbol _ s => s.category
  | group _ _ _ => .none
  | typeName _ _ => .typeName
  | call _ _ _ t => if t = .builtin .void then .none else .readable
  | index _ target _ _ => if target.type = .builtin .string then .readable else .modifiable
  | _ => .readable

def isError (e : Expr) : Bool := e.type = .error

end Expr

structure Declaration where
  span : Span
  symbol : Symbol
  init? : Option Expr
  deriving Repr

/-- An expression that is evaluated for its effect. -/
structure Evaluation where
  span : Span
  expr : Expr
  deriving Repr

/-- What stands first in the header of a counted loop. -/
inductive Setup
  | declare (d : Declaration)
  | eval (e : Evaluation)
  deriving Repr

inductive Stmt
  | block (span : Span) (body : List Stmt)
  | declare (d : Declaration)
  | eval (e : Evaluation)
  | ifThen (span : Span) (cond : Expr) (yes : Stmt)
  | ifElse (span : Span) (cond : Expr) (yes no : Stmt)
  | whileLoop (span : Span) (cond : Expr) (body : Stmt)
  | forLoop (span : Span) (setup : Option Setup) (cond post : Option Expr) (body : Stmt)
  | breakLoop (span : Span)
  | continueLoop (span : Span)
  | returnStmt (span : Span) (value : Option Expr)
  deriving Repr

namespace Stmt

def span : Stmt → Span
  | block s _ | ifThen s _ _ | ifElse s _ _ _ | whileLoop s _ _ | forLoop s _ _ _ _ => s
  | breakLoop s | continueLoop s | returnStmt s _ => s
  | declare d => d.span
  | eval e => e.span

def isEmptyBlock : Stmt → Bool
  | block _ [] => true
  | _ => false

end Stmt

def Setup.toStmt : Setup → Stmt
  | declare d => .declare d
  | eval e => .eval e

/-- A routine: a function of the program, or one of the two that are made for it. Those are no
callables. -/
structure Routine where
  span : Span
  name : String
  callable : TypeId
  params : List Symbol
  result : TypeId
  bodySpan : Span
  body : List Stmt
  deriving Repr

def initializerName : String := "<init>"

def scriptName : String := "<script>"

/-- The name of the function that a program without such statements starts with. -/
def mainName : String := "main"

structure Program where
  globals : List Symbol
  initializer : Routine
  functions : List Routine
  script? : Option Routine
  deriving Repr

namespace Program

def routines (p : Program) : List Routine := p.initializer :: p.functions ++ p.script?.toList

/-- The routine among them that the program starts with: the script, or else the first function
called main that has no parameters. -/
def entry? (p : Program) : Option Nat :=
  if p.script?.isSome then some (p.functions.length + 1)
  else (p.functions.findIdx? fun f => f.name == mainName && f.params.isEmpty).map (· + 1)

end Program
end Bound
end TypedScript
