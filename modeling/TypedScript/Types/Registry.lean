import TypedScript.Defect
import TypedScript.Operator

/-!
# The type registry

A registry owns the derived types of one compilation. It only grows: an entry once made keeps its
place, and of a group only the list of members is extended, at its end. There is one array type for
an element type, so types are equal exactly when they are the same entry.
-/

namespace TypedScript

/-- What is known of a callable. An intrinsic one computes an operator. -/
structure Callable where
  group : TypeId
  result : TypeId
  params : List TypeId
  op? : Option Operator
  deriving DecidableEq, Repr

def Callable.isIntrinsic (c : Callable) : Bool := c.op?.isSome

/-- What is known of a group of overloads. The parent qualifies its name and may be empty. -/
structure Overloads where
  name : String
  parent : String
  members : List TypeId
  deriving DecidableEq, Repr

def Overloads.qualifiedName (g : Overloads) : String :=
  if g.parent.isEmpty then g.name else g.parent ++ "." ++ g.name

inductive TypeEntry
  | array (element : TypeId)
  | group (g : Overloads)
  | callable (c : Callable)
  deriving DecidableEq, Repr

/-- The parameters and the result of an overload. -/
structure Signature where
  result : TypeId
  params : List TypeId
  deriving DecidableEq, Repr

/-- The derived types of a compilation, each at its index. -/
structure Registry where
  entries : Array TypeEntry
  deriving Repr

namespace Registry

def empty : Registry := ⟨#[]⟩

/-- The number of types, the built-in ones and the error type included. -/
def size (r : Registry) : Nat := r.entries.size + (TypeId.firstDerived - 1)

def get? (r : Registry) : TypeId → Option TypeEntry
  | .derived i => r.entries[i]?
  | _ => none

def kind (r : Registry) (t : TypeId) : Except Defect TypeKind :=
  match t with
  | .builtin _ => .ok .builtin
  | .error => .ok .error
  | _ =>
    match r.get? t with
    | some (.array _) => .ok .array
    | some (.group _) => .ok .group
    | some (.callable _) => .ok .callable
    | none => .error (.unknownType t)

def kindDefect (r : Registry) (t : TypeId) (expected : TypeKind) : Defect :=
  match r.kind t with
  | .ok is => .wrongKind t is expected
  | .error d => d

def element (r : Registry) (t : TypeId) : Except Defect TypeId :=
  match r.get? t with
  | some (.array e) => .ok e
  | _ => .error (r.kindDefect t .array)

def group (r : Registry) (t : TypeId) : Except Defect Overloads :=
  match r.get? t with
  | some (.group g) => .ok g
  | _ => .error (r.kindDefect t .group)

def callable (r : Registry) (t : TypeId) : Except Defect Callable :=
  match r.get? t with
  | some (.callable c) => .ok c
  | _ => .error (r.kindDefect t .callable)

def members (r : Registry) (t : TypeId) : Except Defect (List TypeId) :=
  return (← r.group t).members

def qualifiedName (r : Registry) (t : TypeId) : Except Defect String :=
  return (← r.group t).qualifiedName

def push (r : Registry) (e : TypeEntry) : TypeId × Registry :=
  (.derived r.entries.size, ⟨r.entries.push e⟩)

def arrayOf (r : Registry) (element : TypeId) : Except Defect (TypeId × Registry) :=
  match r.entries.toList.findIdx? (· = .array element) with
  | some i => .ok (.derived i, r)
  | none => do
    let _ ← r.kind element
    return r.push (.array element)

def newGroup (r : Registry) (name parent : String) : TypeId × Registry :=
  r.push (.group ⟨name, parent, []⟩)

def extendGroup (r : Registry) (group member : TypeId) : Registry :=
  match group with
  | .derived i =>
    ⟨r.entries.modify i fun
      | .group g => .group { g with members := g.members ++ [member] }
      | e => e⟩
  | _ => r

def addCallable (r : Registry) (c : Callable) : Except Defect (TypeId × Registry) := do
  let _ ← r.group c.group
  let (t, r) := r.push (.callable c)
  return (t, r.extendGroup c.group t)

/-- Adds a callable that exists already to another group, unless it is there. -/
def adopt (r : Registry) (group callable : TypeId) : Except Defect Registry := do
  let _ ← r.callable callable
  let g ← r.group group
  if g.members.contains callable then return r else return r.extendGroup group callable

/-- Makes a new group with the given overloads, which all compute the same operator or none. -/
def defineGroup (r : Registry) (name parent : String) (op? : Option Operator)
    (overloads : List Signature) : TypeId × Registry :=
  let group := TypeId.derived r.entries.size
  let members := (List.range overloads.length).map fun i => TypeId.derived (r.entries.size + 1 + i)
  let callables := overloads.map fun s => TypeEntry.callable ⟨group, s.result, s.params, op?⟩
  (group, ⟨(r.entries.push (.group ⟨name, parent, members⟩)) ++ callables⟩)

/-- The short name of a type. An element type stands before its array type, so there are fewer
steps than entries. -/
def nameWithin (r : Registry) : Nat → TypeId → Except Defect String
  | _, .builtin b => .ok b.name
  | _, .error => .ok "?"
  | fuel, t =>
    match r.get? t, fuel with
    | some (.array e), fuel + 1 => return (← r.nameWithin fuel e) ++ "[]"
    | some (.array _), 0 => .ok "?"
    | some (.group g), _ => .ok g.name
    | some (.callable c), _ => return (← r.group c.group).name
    | none, _ => .error (.unknownType t)

def name (r : Registry) (t : TypeId) : Except Defect String := r.nameWithin (r.entries.size + 1) t

def joinNames (r : Registry) (ts : List TypeId) : Except Defect String :=
  return String.intercalate ", " (← ts.mapM r.name)

/-- The name of a type in messages: groups are qualified and callables show their signature. -/
def fullName (r : Registry) (t : TypeId) : Except Defect String :=
  match r.get? t with
  | some (.group g) => .ok g.qualifiedName
  | some (.callable c) => do
    let group ← r.qualifiedName c.group
    let params ← r.joinNames c.params
    let result ← r.name c.result
    return group ++ "(" ++ params ++ "): " ++ result
  | _ => r.name t

def isValue (r : Registry) (t : TypeId) : Except Defect Bool := do
  match ← r.kind t with
  | .builtin => return t ≠ .builtin .void
  | .array | .error => return true
  | _ => return false

def isReference (r : Registry) (t : TypeId) : Except Defect Bool :=
  if t = .builtin .object || t = .builtin .string then .ok true
  else return (← r.kind t) = .array

end Registry
end TypedScript
