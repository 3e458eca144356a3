import TypedScript.Types.Basic

/-!
# Symbols

What a name stands for: a variable, a parameter, a field of the library or a group of functions.
Two symbols with the same name are told apart by their identity.
-/

namespace TypedScript

/-- The identity of a symbol: its number among the declared ones, or among the temporaries of a
routine. -/
inductive SymbolId
  | declared (n : Nat)
  | temporary (n : Nat)
  deriving DecidableEq, Repr

/-- What kind of thing a symbol names. -/
inductive SymbolKind
  | localVariable
  | parameter (index : Nat)
  | globalVariable
  | libraryField (path : String)
  | overloads
  deriving DecidableEq, Repr

namespace SymbolKind

def name : SymbolKind → String
  | localVariable => "local"
  | parameter _ => "parameter"
  | globalVariable => "global"
  | libraryField _ => "field"
  | overloads => "function"

def index : SymbolKind → Nat
  | parameter i => i
  | _ => 0

def path : SymbolKind → String
  | libraryField p => p
  | _ => ""

end SymbolKind

/-- What may be done with an expression. -/
inductive Category
  | none | readable | modifiable | typeName
  deriving DecidableEq, Repr

namespace Category

def name : Category → String
  | none => "none"
  | readable => "readable"
  | modifiable => "modifiable"
  | typeName => "type name"

def isValue : Category → Bool
  | readable | modifiable => true
  | _ => false

end Category

/-- What a name stands for. -/
structure Symbol where
  id : SymbolId
  name : String
  kind : SymbolKind
  type : TypeId
  readonly : Bool
  deriving DecidableEq, Repr

namespace Symbol

def category (s : Symbol) : Category :=
  match s.kind with
  | .parameter _ => .readable
  | .localVariable | .globalVariable | .libraryField _ =>
    if s.readonly then .readable else .modifiable
  | .overloads => .none

end Symbol
end TypedScript
