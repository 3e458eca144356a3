import TypedScript.Types.Registry

/-!
# The library

What programs can import: groups of routines and fields, by qualified name. Here are only their
types; what the routines do is the machine's business, which knows them by their keys.
-/

namespace TypedScript

structure LibraryField where
  path : String
  type : TypeId
  readonly : Bool
  deriving DecidableEq, Repr

/-- A group of routines as it is described: where it is, and its overloads. -/
structure LibraryGroup where
  parent : String
  name : String
  overloads : List (Builtin × List Builtin)
  deriving DecidableEq, Repr

namespace LibraryGroup

def path (g : LibraryGroup) : String := g.parent ++ "." ++ g.name

def signatures (g : LibraryGroup) : List Signature :=
  g.overloads.map fun (result, params) => ⟨.builtin result, params.map .builtin⟩

end LibraryGroup

/-- The library of a compilation: its groups as registered, its fields, and the routines that
operators and casts go through. -/
structure Library where
  groups : List (String × TypeId)
  fields : List LibraryField
  concat : TypeId
  equals : TypeId
  toText : TypeId
  parsers : List (Builtin × TypeId)
  deriving Repr

namespace Library

def parserGroups : List (Builtin × LibraryGroup) :=
  (Builtin.scalars.filter (· ≠ .string)).map fun b =>
    (b, ⟨"std.convert", "parse_" ++ b.name, [(b, [.string])]⟩)

def concatGroup : LibraryGroup :=
  ⟨"std.runtime", "concat",
    [(.string, [.string, .string]), (.string, [.string, .object]), (.string, [.object, .string])]⟩

def equalsGroup : LibraryGroup :=
  ⟨"std.runtime", "equals", [(.bool, [.string, .string]), (.bool, [.object, .object])]⟩

def toTextGroup : LibraryGroup := ⟨"std.convert", "to_string", [(.string, [.object])]⟩

def plainGroups : List LibraryGroup :=
  [⟨"std.io", "print", [(.void, [.string]), (.void, [.object])]⟩,
    ⟨"std.io", "println", [(.void, []), (.void, [.string]), (.void, [.object])]⟩,
    ⟨"std.io", "input", [(.string, [])]⟩,
    ⟨"std.math", "random", [(.f64, []), (.i32, [.i32, .i32])]⟩,
    ⟨"std.math", "abs", [(.i32, [.i32]), (.i64, [.i64]), (.f64, [.f64])]⟩,
    ⟨"std.math", "sqrt", [(.f64, [.f64])]⟩,
    ⟨"std.sys", "exit", [(.void, [.i32])]⟩,
    ⟨"std.sys", "clock", [(.i64, [])]⟩]

def allFields : List LibraryField := [⟨"std.math.pi", .builtin .f64, true⟩]

def register (r : Registry) (g : LibraryGroup) : TypeId × Registry :=
  r.defineGroup g.name g.parent none g.signatures

def registerAll (r : Registry) : List LibraryGroup → List (String × TypeId) × Registry
  | [] => ([], r)
  | g :: rest =>
    let (t, r) := register r g
    let (found, r) := registerAll r rest
    ((g.path, t) :: found, r)

/-- The first overload of a group that was just registered: it stands behind the group itself. -/
def firstOverload : TypeId → TypeId
  | .derived i => .derived (i + 1)
  | t => t

def load (r : Registry) : Library × Registry :=
  let (plain, r) := registerAll r plainGroups
  let (concat, r) := register r concatGroup
  let (equals, r) := register r equalsGroup
  let (toText, r) := register r toTextGroup
  let (parsers, r) := registerAll r (parserGroups.map Prod.snd)
  let special :=
    [(concatGroup.path, concat), (equalsGroup.path, equals), (toTextGroup.path, toText)]
  ({ groups := plain ++ special ++ parsers
     fields := allFields
     concat, equals
     toText := firstOverload toText
     parsers :=
       (parserGroups.map Prod.fst).zip (parsers.map fun (_, t) => firstOverload t) }, r)

def group? (l : Library) (path : String) : Option TypeId :=
  (l.groups.find? fun g => g.1 == path).map Prod.snd

def field? (l : Library) (path : String) : Option LibraryField :=
  l.fields.find? fun f => f.path == path

def parser? (l : Library) : TypeId → Option TypeId
  | .builtin b => (l.parsers.find? fun p => p.1 = b).map Prod.snd
  | _ => none

def paths (l : Library) : List String :=
  (l.groups.map Prod.fst ++ l.fields.map LibraryField.path).mergeSort (· ≤ ·)

end Library

namespace Registry

/-- The key of a library routine: its qualified name and the types of its parameters. -/
def libraryKey (r : Registry) (callable : TypeId) : Except Defect String := do
  let c ← r.callable callable
  let group ← r.qualifiedName c.group
  let params ← r.joinNames c.params
  return group ++ "(" ++ String.ofList (params.toList.filter (· != ' ')) ++ ")"

end Registry
end TypedScript
