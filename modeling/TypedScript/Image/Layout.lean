import TypedScript.Bytecode.Module
import TypedScript.Image.Cbor
import TypedScript.Text.Utf8

/-!
# Modules as items

A record is a map from the numbers of its fields to their contents. Fields that are empty or zero are
left out where they may be. Reading takes the fields in any order, the first of two for the same
number, and passes over numbers that it does not know; a null leaves a field as it is when nothing is
read.
-/

namespace TypedScript
namespace Layout

open Cbor

def ofText (s : String) : Item := .text [Text.bytes s]

def ofInt : Int → Item
  | .ofNat n => .unsigned n
  | .negSucc n => .negative n

/-- A record as an item: its fields with their numbers, without those that are left out. -/
def ofFields (fields : List (Nat × Option Item)) : Item :=
  .map (fields.flatMap fun (k, i?) => (i?.map fun i => [Item.unsigned k, i]).getD [])

def ofList {α : Type} (f : α → Item) (xs : List α) : Option Item :=
  if xs.isEmpty then none else some (.sequence (xs.map f))

def ofTextField (s : String) : Option Item := if s.isEmpty then none else some (ofText s)

def ofIntField (i : Int) : Option Item := if i = 0 then none else some (ofInt i)

def ofEntry (name type : String) : Item :=
  ofFields [(1, some (ofText name)), (2, some (ofText type))]

def ofInstruction (i : Instruction) : Item :=
  ofFields [(1, some (ofInt i.opcode.toNat)), (2, ofIntField i.operand.toInt),
    (3, ofIntField i.tagByte.toNat)]

def ofConstant (c : Constant) : Item :=
  ofFields [(1, some (ofInt c.kind.toNat)), (2, ofIntField c.bits.toNat), (3, ofTextField c.text)]

def ofMethod : Option Method → Item
  | none => .simple 22
  | some f =>
    ofFields [(1, some (ofText f.name)), (2, ofList ofText f.params.toList),
      (3, some (ofText f.result)), (4, ofList (fun s => ofEntry s.name s.type) f.locals.toList),
      (5, ofList ofInstruction f.code.toList)]

def ofModule (m : Module) : Item :=
  ofFields [(1, ofTextField m.id), (2, some (ofText m.name)),
    (3, ofList (fun f => ofEntry f.name f.type) m.fields.toList),
    (4, ofList ofMethod m.methods.toList), (5, ofList ofConstant m.constants.toList),
    (6, ofList ofText m.types.toList), (7, ofList ofText m.natives.toList),
    (8, some (ofInt m.initializer)), (9, some (ofInt m.entry))]

/-- The content of an item without tags. The tags of dates need the content that they are defined for,
and those of large numbers stand for the number. -/
def untagged? : Item → Option Item
  | .tagged 0 (.text chunks) => some (.text chunks)
  | .tagged 0 _ => none
  | .tagged 1 (.unsigned n) => some (.unsigned n)
  | .tagged 1 (.negative n) => some (.negative n)
  | .tagged 1 (.float width bits) => some (.float width bits)
  | .tagged 1 _ => none
  | .tagged 2 (.bytes chunks) =>
    let n := natOfBytes chunks.flatten
    if n < 0x10000000000000000 then some (.unsigned n) else none
  | .tagged 2 _ => none
  | .tagged 3 (.bytes chunks) =>
    let n := natOfBytes chunks.flatten
    if n < 0x8000000000000000 then some (.negative n) else none
  | .tagged 3 _ => none
  | .tagged _ content => untagged? content
  | i => some i

def isNull (n : Nat) : Bool := n == 22 || n == 23

/-- The text that chunks spell; each has to be well formed by itself. -/
def chunksText? (chunks : List (List UInt8)) : Option String :=
  (chunks.mapM Text.ofBytes?).map String.join

def text? (current : String) (i : Item) : Option String := do
  match ← untagged? i with
  | .text chunks => chunksText? chunks
  | .simple n => if isNull n then return current else none
  | _ => none

/-- Reads an integer between two bounds. A simple value other than null and the truth values counts as
its number. -/
def int? (low high : Int) (current : Int) (i : Item) : Option Int := do
  let within (v : Int) : Option Int := if low ≤ v ∧ v ≤ high then some v else none
  match ← untagged? i with
  | .unsigned n => within n
  | .negative n => within (-1 - n)
  | .simple n =>
    if isNull n then return current
    else if n = 20 ∨ n = 21 then none
    else within n
  | _ => none

def byte? (current : UInt8) (i : Item) : Option UInt8 :=
  (int? 0 255 current.toNat i).map fun v => UInt8.ofNat v.toNat

def list? {α : Type} (one : Item → Option α) (i : Item) : Option (List α) := do
  match ← untagged? i with
  | .sequence items => items.mapM one
  | .simple n => if isNull n then return [] else none
  | _ => none

/-- The field that a key of a map stands for; `some none` is a key that no field has. Numbers may also
be written as texts. -/
def key? : Item → Option (Option Nat)
  | .unsigned n => some (some n)
  | .negative n => if n < 0x8000000000000000 then some none else none
  | .text chunks => do
    let s ← chunksText? chunks
    return (List.range 10).find? fun k => toString k == s
  | _ => none

/-- Reads the entries of a map into a record, where `set` reads a field by its number. -/
def fields? {α : Type} (set : Nat → Item → α → Option α) (seen : List Nat) :
    List Item → α → Option α
  | key :: content :: rest, a => do
    match ← key? key with
    | none => fields? set seen rest a
    | some k =>
      if seen.contains k then fields? set seen rest a
      else fields? set (k :: seen) rest (← set k content a)
  | _, a => some a

def record? {α : Type} (set : Nat → Item → α → Option α) (start : α) (i : Item) : Option α := do
  match ← untagged? i with
  | .map items => fields? set [] items start
  | .simple n => if isNull n then return start else none
  | _ => none

def pair? (i : Item) : Option (String × String) :=
  record? (fun k i (name, type) => match k with
    | 1 => (text? name i).map fun name => (name, type)
    | 2 => (text? type i).map fun type => (name, type)
    | _ => some (name, type)) ("", "") i

def instruction? (i : Item) : Option Instruction :=
  record? (fun k i (ins : Instruction) => match k with
    | 1 => (byte? ins.opcode i).map fun opcode => { ins with opcode }
    | 2 =>
      (int? (-0x80000000) 0x7FFFFFFF ins.operand.toInt i).map fun v =>
        { ins with operand := Int32.ofInt v }
    | 3 => (byte? ins.tagByte i).map fun tagByte => { ins with tagByte }
    | _ => some ins) ⟨0, 0, 0⟩ i

def constant? (i : Item) : Option Constant :=
  record? (fun k i (c : Constant) => match k with
    | 1 => (byte? c.kind i).map fun kind => { c with kind }
    | 2 =>
      (int? 0 0xFFFFFFFFFFFFFFFF c.bits.toNat i).map fun v => { c with bits := UInt64.ofNat v.toNat }
    | 3 => (text? c.text i).map fun text => { c with text }
    | _ => some c) ⟨0, 0, ""⟩ i

/-- Reads a method; null stands for one that is not there. -/
def method? (i : Item) : Option (Option Method) :=
  let isAbsent := match i with
    | .simple n => isNull n
    | _ => false
  if isAbsent then some none
  else
    (record? (fun k i (f : Method) => match k with
      | 1 => (text? f.name i).map fun name => { f with name }
      | 2 => (list? (text? "") i).map fun params => { f with params := params.toArray }
      | 3 => (text? f.result i).map fun result => { f with result }
      | 4 =>
        (list? pair? i).map fun slots =>
          { f with locals := (slots.map fun (name, type) => ⟨name, type⟩).toArray }
      | 5 => (list? instruction? i).map fun code => { f with code := code.toArray }
      | _ => some f) ⟨"", #[], "", #[], #[]⟩ i).map some

def index? (current : Int) (i : Item) : Option Int := int? (-0x8000000000000000) 0x7FFFFFFFFFFFFFFF current i

def module? (i : Item) : Option Module :=
  record? (fun k i (m : Module) => match k with
    | 1 => (text? m.id i).map fun id => { m with id }
    | 2 => (text? m.name i).map fun name => { m with name }
    | 3 =>
      (list? pair? i).map fun fields =>
        { m with fields := (fields.map fun (name, type) => ⟨name, type⟩).toArray }
    | 4 => (list? method? i).map fun methods => { m with methods := methods.toArray }
    | 5 => (list? constant? i).map fun constants => { m with constants := constants.toArray }
    | 6 => (list? (text? "") i).map fun types => { m with types := types.toArray }
    | 7 => (list? (text? "") i).map fun natives => { m with natives := natives.toArray }
    | 8 => (index? m.initializer i).map fun initializer => { m with initializer }
    | 9 => (index? m.entry i).map fun entry => { m with entry }
    | _ => some m) { Module.empty "" with initializer := 0, entry := 0 } i

end Layout
end TypedScript
