import TypedScript.Machine.Fault
import TypedScript.Number.Format
import TypedScript.Number.Reading
import TypedScript.Text.Blank
import TypedScript.Value

/-!
# Natives

The routines and constants that the machine itself provides, by the key under which modules refer to
them: the qualified name and the types of the parameters.
-/

namespace TypedScript

inductive Routine
  | print (line : Bool)
  | newline
  | input
  | random
  | randomBetween
  | abs (t : Tag)
  | absFloat
  | sqrt
  | exit
  | clock
  | concat
  | equalTexts
  | equalObjects
  | toText
  | parse (t : Tag)
  deriving DecidableEq, Repr

def Routine.arity : Routine → Nat
  | newline | input | random | clock => 0
  | randomBetween | concat | equalTexts | equalObjects => 2
  | _ => 1

def Routine.returns : Routine → Bool
  | print _ | newline | exit => false
  | _ => true

/-- What a key refers to. -/
inductive NativeBody
  | routine (r : Routine)
  | constant (v : Value)
  deriving DecidableEq, Repr

/-- A routine or a constant with its key. -/
structure Native where
  key : String
  body : NativeBody
  deriving DecidableEq, Repr

namespace Native

/-- The number of arguments; a constant takes none. -/
def arity (n : Native) : Nat :=
  match n.body with
  | .routine r => r.arity
  | .constant _ => 0

def returns (n : Native) : Bool :=
  match n.body with
  | .routine r => r.returns
  | .constant _ => false

def readableTags : List Tag :=
  [.i8, .i16, .i32, .i64, .u8, .u16, .u32, .u64, .f32, .f64, .bool, .char]

def all : List Native :=
  [⟨"std.io.print(string)", .routine (.print false)⟩,
    ⟨"std.io.print(object)", .routine (.print false)⟩,
    ⟨"std.io.println()", .routine .newline⟩,
    ⟨"std.io.println(string)", .routine (.print true)⟩,
    ⟨"std.io.println(object)", .routine (.print true)⟩,
    ⟨"std.io.input()", .routine .input⟩,
    ⟨"std.math.random()", .routine .random⟩,
    ⟨"std.math.random(i32,i32)", .routine .randomBetween⟩,
    ⟨"std.math.abs(i32)", .routine (.abs .i32)⟩,
    ⟨"std.math.abs(i64)", .routine (.abs .i64)⟩,
    ⟨"std.math.abs(f64)", .routine .absFloat⟩,
    ⟨"std.math.sqrt(f64)", .routine .sqrt⟩,
    ⟨"std.math.pi", .constant (.float Double.pi)⟩,
    ⟨"std.sys.exit(i32)", .routine .exit⟩,
    ⟨"std.sys.clock()", .routine .clock⟩,
    ⟨"std.runtime.concat(string,string)", .routine .concat⟩,
    ⟨"std.runtime.concat(string,object)", .routine .concat⟩,
    ⟨"std.runtime.concat(object,string)", .routine .concat⟩,
    ⟨"std.runtime.equals(string,string)", .routine .equalTexts⟩,
    ⟨"std.runtime.equals(object,object)", .routine .equalObjects⟩,
    ⟨"std.convert.to_string(object)", .routine .toText⟩] ++
  readableTags.map fun t =>
    ⟨"std.convert.parse_" ++ t.name ++ "(string)", .routine (.parse t)⟩

def find? (key : String) : Option Native := all.find? fun n => n.key == key

def keys : List String := (all.map Native.key).mergeSort (· ≤ ·)

end Native

/-- The value of a tag that a text stands for. Blanks around numbers and truth values do not count;
a character has to be the whole text. -/
def Value.parse? (t : Tag) (text : String) : Option Value :=
  let s := Text.trimBlanks text.toList
  match t with
  | .i8 | .i16 | .i32 | .i64 => (Number.signed? t.bits s).map fun v => .int (Int64.ofInt v)
  | .u8 | .u16 | .u32 | .u64 => (Number.unsigned? t.bits s).map fun v => .uint (UInt64.ofNat v)
  | .f32 => (Number.float .single s).toOption.map .float
  | .f64 => (Number.float .double s).toOption.map .float
  | .bool =>
    if s = "true".toList then some (.bool true)
    else if s = "false".toList then some (.bool false)
    else none
  | .char =>
    match text.toList with
    | [c] => if c = '\uFFFD' then none else some (.char (Int32.ofNat c.toNat))
    | _ => none
  | _ => none

end TypedScript
