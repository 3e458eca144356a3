/-!
# Trees of settings, and how they grow

What a settings file denotes: tables of named values, which may be tables again. A table that a file
writes element by element is a sequence of tables, of which the last is the current one.
-/

namespace TypedScript
namespace Toml

/-- A value of a settings file. Of numbers with a fraction and of dates only the kind is kept. -/
inductive Value
  | text (s : String)
  | int (v : Int)
  | float
  | bool (b : Bool)
  | date
  | array (items : List Value)
  | table (entries : List (String × Value))
  | tables (elements : List (List (String × Value)))
  deriving Repr, Inhabited

/-- A table: named values in the order in which they were set. -/
abbrev Table := List (String × Value)

/-- A key with its parts from the outermost table on. -/
abbrev Path := List String

namespace Table

def find? (t : Table) (key : String) : Option Value := (List.find? (fun e => e.1 == key) t).map Prod.snd

def set (t : Table) (key : String) (v : Value) : Table :=
  if (t.find? key).isSome then t.map fun e => if e.1 == key then (key, v) else e
  else t ++ [(key, v)]

/-- The table at a path; a sequence of tables stands for its last. -/
def at? (t : Table) : Path → Option Table
  | [] => some t
  | k :: rest =>
    match t.find? k with
    | some (.table inner) => at? inner rest
    | some (.tables elements) => elements.getLast?.bind fun last => at? last rest
    | _ => none

def update? (f : Table → Option Table) (t : Table) : Path → Option Table
  | [] => f t
  | k :: rest =>
    match t.find? k with
    | some (.table inner) => (update? f inner rest).map fun inner => t.set k (.table inner)
    | some (.tables elements) => do
      let last ← elements.getLast?
      let last ← update? f last rest
      return t.set k (.tables (elements.dropLast ++ [last]))
    | _ => none

def insert? (t : Table) (key : String) (v : Value) : Path → Option Table
  | [] => some (t.set key v)
  | k :: rest =>
    match t.find? k with
    | none => (insert? [] key v rest).map fun inner => t.set k (.table inner)
    | some (.table inner) => (insert? inner key v rest).map fun inner => t.set k (.table inner)
    | some _ => none

end Table

/-- Whether a character may stand in a key without quotes. -/
def isBareChar (c : Char) : Bool := c.isAlphanum || c = '_' || c = '-'

end Toml

/-!
## Growing documents

A settings file is a sequence of headers and assignments. Each extends the tree, and no value is set
twice. A table that was made only because a header or a dotted key mentions something in it may be
opened once more by its own header.
-/

namespace Toml

/-- What has been read so far: the tree, the tables that were made along the way, the keys whose value
is an array, all keys in reverse order, and the table that assignments go to. -/
structure Document where
  root : Table
  implied : List Path
  arrays : List Path
  keys : List Path
  current : Path

namespace Document

def empty : Document := ⟨[], [], [], [], []⟩

/-- Marks a table as made along the way. -/
def imply (d : Document) (p : Path) : Document := { d with implied := p :: d.implied }

def settle (d : Document) (p : Path) : Document := { d with implied := d.implied.filter (· != p) }

/-- Notes whether the value of a key is an array. The nameless key counts as its table, and at the
top as itself. -/
def noteKind (d : Document) (key : String) (isArray : Bool) : Document :=
  let p := if key.isEmpty then d.current else d.current ++ [key]
  let p := if p.isEmpty then [""] else p
  if isArray then { d with arrays := p :: d.arrays }
  else { d with arrays := d.arrays.filter (· != p) }

def noteKey (d : Document) (p : Path) : Document := { d with keys := p :: d.keys }

/-- Sets a value in the current table. An array of tables replaces the tables that were made while it
was read, and a table that was made along the way stays as it is. -/
def set? (d : Document) (key : String) (v : Value) : Option Document := do
  let p := d.current ++ [key]
  let table ← d.root.at? d.current
  let place : Option Document := do
    let root ← d.root.update? (fun t => some (t.set key v)) d.current
    return { d with root }
  if (table.find? key).isNone then place
  else if !d.implied.contains p then none
  else if d.arrays.contains p then place.map fun d => d.settle p
  else return d.settle p

/-- Makes the tables along a path that are not there; `done` is the part of the path that exists. -/
def openParents? (d : Document) (done : Path) : Path → Option Document
  | [] => some d
  | k :: rest => do
    let table ← d.root.at? done
    match table.find? k with
    | none =>
      let root ← d.root.update? (fun t => some (t.set k (.table []))) done
      ({ d with root }.imply (done ++ [k])).openParents? (done ++ [k]) rest
    | some (.table _) | some (.tables _) => d.openParents? (done ++ [k]) rest
    | some _ => none

def addElement? (key : String) (t : Table) : Option Table :=
  match t.find? key with
  | none => some (t.set key (.tables [[]]))
  | some (.tables elements) => some (t.set key (.tables (elements ++ [[]])))
  | some _ => none

def enter? (d : Document) (p : Path) (isElement : Bool) : Option Document := do
  let key := p.getLast?.getD ""
  let parents := p.dropLast
  let d ← d.openParents? [] parents
  let d := { d with current := parents }
  let d ←
    if isElement then
      (d.root.update? (addElement? key) parents).map fun root => { d with root }
    else d.set? key (.table [])
  return { d with current := p }

/-- Enters the tables that the front parts of a dotted key name. -/
def enterParts? (d : Document) : Path → Option Document
  | [] => some d
  | k :: rest => do
    let p := d.current ++ [k]
    ((← (d.imply p).enter? p false)).enterParts? rest

end Document
end Toml
end TypedScript
