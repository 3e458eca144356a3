import TypedScript.Symbol

/-!
# Scopes

The scopes that are open at a place in a program: any number of inner ones, the innermost first, and
the global one around them all. A name means its declaration in the innermost scope that has one.
-/

namespace TypedScript

inductive ScopeKind
  | global | function | block
  deriving DecidableEq, Repr

def ScopeKind.name : ScopeKind → String
  | global => "global"
  | function => "function"
  | block => "block"

/-- One scope: the symbols declared in it, the latest first. -/
structure Frame where
  kind : ScopeKind
  symbols : List Symbol
  deriving DecidableEq, Repr

namespace Frame

def find? (f : Frame) (name : String) : Option Symbol :=
  f.symbols.find? fun s => s.name == name

/-- The scope with a symbol more, unless its name is taken. -/
def declare? (f : Frame) (s : Symbol) : Option Frame :=
  if (f.find? s.name).isSome then none else some { f with symbols := s :: f.symbols }

def names (f : Frame) : List String :=
  (f.symbols.map Symbol.name).mergeSort (· ≤ ·)

end Frame

structure Scope where
  inner : List Frame
  outermost : Frame
  deriving DecidableEq, Repr

namespace Scope

def empty : Scope := ⟨[], ⟨.global, []⟩⟩

def push (s : Scope) (kind : ScopeKind) : Scope := { s with inner := ⟨kind, []⟩ :: s.inner }

/-- Closes the innermost scope; the global one stays open. -/
def pop? (s : Scope) : Option Scope :=
  match s.inner with
  | [] => none
  | _ :: rest => some { s with inner := rest }

def current (s : Scope) : Frame := s.inner.head?.getD s.outermost

def lookup? (s : Scope) (name : String) : Option Symbol :=
  (s.inner.findSome? fun f => f.find? name) <|> s.outermost.find? name

def declareGlobal? (s : Scope) (sym : Symbol) : Option Scope := do
  return { s with outermost := ← s.outermost.declare? sym }

def declare? (s : Scope) (sym : Symbol) : Option Scope :=
  match s.inner with
  | [] => s.declareGlobal? sym
  | f :: rest => do return { s with inner := (← f.declare? sym) :: rest }

end Scope
end TypedScript
