import TypedScript.Bytecode.Operation
import TypedScript.Text.Quoted
import TypedScript.Value

/-!
# Modules

An executable unit: fields, methods, and the tables that instructions refer to by index. A module that
was read from an image may lack a method that its table has a place for.
-/

namespace TypedScript

/-- An entry of the table of constants, as it is stored: a kind, 64 bits, and a text. -/
structure Constant where
  kind : UInt8
  bits : UInt64
  text : String
  deriving DecidableEq, Repr, Inhabited

namespace Constant

def null : Constant := ⟨0, 0, ""⟩

def int (v : Int64) : Constant := ⟨1, v.toUInt64, ""⟩

def uint (v : UInt64) : Constant := ⟨2, v, ""⟩

def float (v : Double) : Constant := ⟨3, v.bits, ""⟩

def bool (v : Bool) : Constant := ⟨4, if v then 1 else 0, ""⟩

/-- A character, or any 32 bits in its place. -/
def char (v : Int32) : Constant := ⟨5, v.toUInt32.toUInt64, ""⟩

def string (v : String) : Constant := ⟨6, 0, v⟩

/-- The value of a constant; kinds that do not exist are null. -/
def value (c : Constant) : Value :=
  match c.kind with
  | 1 => .int c.bits.toInt64
  | 2 => .uint c.bits
  | 3 => .float ⟨c.bits⟩
  | 4 => .bool (c.bits != 0)
  | 5 => .char c.bits.toUInt32.toInt32
  | 6 => .string c.text
  | _ => .null

def display (c : Constant) : String :=
  match c.value with
  | .string v => Text.quote v
  | .char v => Text.quoteChar (codePointChar v)
  | .null => if c.kind = 0 then "null" else "<nil>"
  | v => (v.format? #[]).getD ""

end Constant

structure Field where
  name : String
  type : String
  deriving DecidableEq, Repr, Inhabited

/-- A local variable of a method. -/
structure Slot where
  name : String
  type : String
  deriving DecidableEq, Repr, Inhabited

structure Method where
  name : String
  params : Array String
  result : String
  locals : Array Slot
  code : Array Instruction
  deriving DecidableEq, Repr, Inhabited

def Method.returns (m : Method) : Bool := m.result != "void"

/-- An executable unit. The initializer and the entry point are indexes of methods; a negative number
stands for none. -/
structure Module where
  id : String
  name : String
  fields : Array Field
  methods : Array (Option Method)
  constants : Array Constant
  types : Array String
  natives : Array String
  initializer : Int
  entry : Int
  deriving DecidableEq, Repr, Inhabited

namespace Module

def empty (name : String) : Module := ⟨"", name, #[], #[], #[], #[], #[], -1, -1⟩

def method? (m : Module) (i : Nat) : Option Method := m.methods[i]?.join

def methodIndex? (m : Module) (name : String) : Option Nat :=
  m.methods.findIdx? fun f => f.any fun f => f.name == name

end Module

def Value.zero (typeName : String) : Value :=
  match Tag.ofTypeName typeName with
  | .i8 | .i16 | .i32 | .i64 => .int 0
  | .u8 | .u16 | .u32 | .u64 => .uint 0
  | .f32 | .f64 => .float .zero
  | .bool => .bool false
  | .char => .char 0
  | .string => .string ""
  | _ => .null

def elementType? (typeName : String) : Option String :=
  match typeName.toList.reverse with
  | ']' :: '[' :: rest => some (String.ofList rest.reverse)
  | _ => none

end TypedScript
