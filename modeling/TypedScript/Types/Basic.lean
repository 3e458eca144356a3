/-!
# Types

The built-in types, the type of what could not be understood, and the types that a program
derives: arrays, groups of overloads and callables. A derived type is known by its place in a
registry. All types are numbered, from zero for none; the built-in ones have the same numbers in
every registry.
-/

namespace TypedScript

/-- The built-in types. -/
inductive Builtin
  | i8 | i16 | i32 | i64
  | u8 | u16 | u32 | u64
  | f32 | f64
  | bool | char | string | object | void
  deriving DecidableEq, Repr

namespace Builtin

def all : List Builtin :=
  [i8, i16, i32, i64, u8, u16, u32, u64, f32, f64, bool, char, string, object, void]

def name : Builtin → String
  | i8 => "i8"
  | i16 => "i16"
  | i32 => "i32"
  | i64 => "i64"
  | u8 => "u8"
  | u16 => "u16"
  | u32 => "u32"
  | u64 => "u64"
  | f32 => "f32"
  | f64 => "f64"
  | bool => "bool"
  | char => "char"
  | string => "string"
  | object => "object"
  | void => "void"

def ofName? (name : String) : Option Builtin := all.find? fun b => b.name == name

def number : Builtin → Nat
  | i8 => 1
  | i16 => 2
  | i32 => 3
  | i64 => 4
  | u8 => 5
  | u16 => 6
  | u32 => 7
  | u64 => 8
  | f32 => 9
  | f64 => 10
  | bool => 11
  | char => 12
  | string => 13
  | object => 14
  | void => 15

def isSigned : Builtin → Bool
  | i8 | i16 | i32 | i64 => true
  | _ => false

def isUnsigned : Builtin → Bool
  | u8 | u16 | u32 | u64 => true
  | _ => false

def isInteger (b : Builtin) : Bool := b.isSigned || b.isUnsigned

def isFloat : Builtin → Bool
  | f32 | f64 => true
  | _ => false

def isNumeric (b : Builtin) : Bool := b.isInteger || b.isFloat

def isScalar : Builtin → Bool
  | object | void => false
  | _ => true

def bits : Builtin → Nat
  | i8 | u8 => 8
  | i16 | u16 => 16
  | i32 | u32 | f32 => 32
  | i64 | u64 | f64 => 64
  | _ => 0

/-- The built-in types whose values are plain data. -/
def scalars : List Builtin := all.filter isScalar

end Builtin

/-- A type. `absent` stands where there is none, and `error` is the type of what could not be
understood. -/
inductive TypeId
  | absent
  | builtin (b : Builtin)
  | error
  | derived (index : Nat)
  deriving DecidableEq, Repr, Inhabited

namespace TypeId

def firstDerived : Nat := 17

def number : TypeId → Nat
  | absent => 0
  | builtin b => b.number
  | error => 16
  | derived index => firstDerived + index

def ofNumber (n : Nat) : TypeId :=
  if n = 0 then absent
  else if n = 16 then error
  else if firstDerived ≤ n then derived (n - firstDerived)
  else ((Builtin.all[n - 1]?).map builtin).getD absent

def label : TypeId → String
  | builtin b => b.name
  | error => "error"
  | t => "type#" ++ toString t.number

def satisfies (p : Builtin → Bool) : TypeId → Bool
  | builtin b => p b
  | _ => false

def isSigned : TypeId → Bool := satisfies Builtin.isSigned

def isUnsigned : TypeId → Bool := satisfies Builtin.isUnsigned

def isInteger : TypeId → Bool := satisfies Builtin.isInteger

def isFloat : TypeId → Bool := satisfies Builtin.isFloat

def isNumeric : TypeId → Bool := satisfies Builtin.isNumeric

def isScalar : TypeId → Bool := satisfies Builtin.isScalar

def bits : TypeId → Nat
  | builtin b => b.bits
  | _ => 0

end TypeId
end TypedScript
