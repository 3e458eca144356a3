/-!
# Tags

How the machine represents the values of a type. Arrays and objects have one tag in common.
-/

namespace TypedScript

/-- The representation of a type. -/
inductive Tag
  | none
  | i8 | i16 | i32 | i64
  | u8 | u16 | u32 | u64
  | f32 | f64
  | bool | char | string
  | reference
  | unassigned
  deriving DecidableEq, Repr

namespace Tag

def numbered : List Tag :=
  [none, i8, i16, i32, i64, u8, u16, u32, u64, f32, f64, bool, char, string, reference]

def ofByte (b : UInt8) : Tag := (numbered[b.toNat]?).getD unassigned

def toByte : Tag → UInt8
  | none => 0
  | i8 => 1
  | i16 => 2
  | i32 => 3
  | i64 => 4
  | u8 => 5
  | u16 => 6
  | u32 => 7
  | u64 => 8
  | f32 => 9
  | f64 => 10
  | bool => 11
  | char => 12
  | string => 13
  | reference => 14
  | unassigned => 255

def name : Tag → String
  | none => "none"
  | i8 => "i8"
  | i16 => "i16"
  | i32 => "i32"
  | i64 => "i64"
  | u8 => "u8"
  | u16 => "u16"
  | u32 => "u32"
  | u64 => "u64"
  | f32 => "f32"
  | f64 => "f64"
  | bool => "bool"
  | char => "char"
  | string => "string"
  | reference => "ref"
  | unassigned => "tag?"

def scalars : List Tag :=
  [i8, i16, i32, i64, u8, u16, u32, u64, f32, f64, bool, char, string]

def ofTypeName (typeName : String) : Tag :=
  match scalars.find? fun t => t.name == typeName with
  | some t => t
  | .none => if typeName == "void" || typeName == "" then none else reference

def isSigned : Tag → Bool
  | i8 | i16 | i32 | i64 => true
  | _ => false

def isUnsigned : Tag → Bool
  | u8 | u16 | u32 | u64 => true
  | _ => false

def isFloat : Tag → Bool
  | f32 | f64 => true
  | _ => false

def bits : Tag → Nat
  | i8 | u8 => 8
  | i16 | u16 => 16
  | i32 | u32 | f32 => 32
  | _ => 64

end Tag
end TypedScript
