import TypedScript.Binding.Complaint
import TypedScript.Bound.Tree
import TypedScript.Library
import TypedScript.Parsed.Tree
import TypedScript.Scope
import TypedScript.Types.Intrinsics
import TypedScript.Types.Resolution

/-!
# Binding

Binding resolves the names and types of a parsed program. It never stops at a mistake: the mistake is
reported and what cannot be understood becomes an invalid expression, whose error type every later
check accepts in silence.
-/

namespace TypedScript
namespace Binding

/-- What is known of the routine whose body is being bound. -/
structure Context where
  result : TypeId
  loops : Nat
  locals : Array (Symbol × Span)
  reads : List SymbolId

/-- How far binding has come. -/
structure State where
  registry : Registry
  library : Library
  intrinsics : Intrinsics
  report : Report
  scope : Scope
  context : Context
  nextSymbol : Nat

end Binding

/-- A step of binding. It fails only by a defect of the compiler. -/
abbrev Binder := StateT Binding.State (Except Defect)

namespace Binder

open Binding

/-- The state before a program is bound: the library and the operators are registered. -/
def initial : State :=
  let (library, registry) := Library.load .empty
  let (intrinsics, registry) := Intrinsics.load registry
  { registry, library, intrinsics
    report := .empty
    scope := .empty
    context := ⟨.builtin .void, 0, #[], []⟩
    nextSymbol := 0 }

def complain (span : Span) (c : Complaint) : Binder Unit :=
  modify fun s => { s with report := s.report.add (c.diagnostic span) }

def ask {α : Type} (f : Registry → Except Defect α) : Binder α := do
  f (← get).registry

def register {α : Type} (f : Registry → Except Defect (α × Registry)) : Binder α := do
  let (a, registry) ← f (← get).registry
  modify fun s => { s with registry }
  return a

def fullName (t : TypeId) : Binder String := ask (·.fullName t)

def newSymbol (name : String) (kind : SymbolKind) (type : TypeId) (readonly : Bool) :
    Binder Symbol := do
  let n := (← get).nextSymbol
  modify fun s => { s with nextSymbol := n + 1 }
  return ⟨.declared n, name, kind, type, readonly⟩

/-- Declares a symbol in the innermost scope, unless its name is taken there. -/
def declare (sym : Symbol) : Binder Bool := do
  match (← get).scope.declare? sym with
  | some scope =>
    modify fun s => { s with scope }
    return true
  | none => return false

/-- Declares a symbol in the global scope, unless its name is taken there. -/
def declareGlobal (sym : Symbol) : Binder Bool := do
  match (← get).scope.declareGlobal? sym with
  | some scope =>
    modify fun s => { s with scope }
    return true
  | none => return false

def inScope {α : Type} (kind : ScopeKind) (body : Binder α) : Binder α := do
  let inner := (← get).scope.inner
  modify fun s => { s with scope := s.scope.push kind }
  let a ← body
  modify fun s => { s with scope := { s.scope with inner } }
  return a

def markRead (sym : Symbol) : Binder Unit :=
  modify fun s =>
    if s.context.reads.contains sym.id then s
    else { s with context := { s.context with reads := sym.id :: s.context.reads } }

/-- Resolves a written type. An unknown name and an array of void are reported. -/
def resolveType (t : Parsed.TypeName) : Binder TypeId := do
  match Builtin.ofName? t.name with
  | none =>
    complain t.span (.unknownType t.name)
    return .error
  | some b =>
    if 0 < t.rank && b = .void then
      complain t.span .arrayOfVoid
      return .error
    else arrays t.rank (.builtin b)
where
  /-- The array type of a rank over an element type. -/
  arrays : Nat → TypeId → Binder TypeId
    | 0, t => return t
    | n + 1, t => do arrays n (← register (·.arrayOf t))

def valueType (t : Parsed.TypeName) : Binder TypeId := do
  let type ← resolveType t
  if type = .builtin .void then
    complain t.span .voidValue
    return .error
  else return type

end Binder
end TypedScript
