import TypedScript.Machine.Fault
import TypedScript.Value

/-!
# Arithmetic

The operators of the machine. All integers are held in 64 bits; a result is cut to the width of its
tag and so is the value in the tag's range that is congruent to the exact one.
-/

namespace TypedScript
namespace Arithmetic

def wrapSigned (t : Tag) (v : Int64) : Int64 :=
  match t with
  | .i8 => v.toInt8.toInt64
  | .i16 => v.toInt16.toInt64
  | .i32 => v.toInt32.toInt64
  | _ => v

def wrapUnsigned (t : Tag) (v : UInt64) : UInt64 :=
  match t with
  | .u8 => v.toUInt8.toUInt64
  | .u16 => v.toUInt16.toUInt64
  | .u32 => v.toUInt32.toUInt64
  | _ => v

def roundTo (t : Tag) (v : Double) : Double :=
  match t with
  | .f32 => v.toSingle
  | _ => v

/-- Shift to the left by a count that is not negative; all bits may leave. -/
def shiftLeftSigned (x : Int64) (count : Nat) : Int64 :=
  if count < 64 then x <<< Int64.ofNat count else 0

def shiftRightSigned (x : Int64) (count : Nat) : Int64 :=
  if count < 64 then x >>> Int64.ofNat count else if x < 0 then -1 else 0

def shiftLeft (x : UInt64) (count : Nat) : UInt64 :=
  if count < 64 then x <<< UInt64.ofNat count else 0

def shiftRight (x : UInt64) (count : Nat) : UInt64 :=
  if count < 64 then x >>> UInt64.ofNat count else 0

def signed (op : Operation) (t : Tag) (x y : Int64) : Except Cause Value :=
  let wrapped (v : Int64) : Except Cause Value := .ok (.int (wrapSigned t v))
  match op with
  | .add => wrapped (x + y)
  | .sub => wrapped (x - y)
  | .mul => wrapped (x * y)
  | .div => if y = 0 then .error .divisionByZero else wrapped (x / y)
  | .rem => if y = 0 then .error .divisionByZero else wrapped (x % y)
  | .and => .ok (.int (x &&& y))
  | .or => .ok (.int (x ||| y))
  | .xor => .ok (.int (x ^^^ y))
  | .shl =>
    if y < 0 then .error (.negativeShift y.toInt)
    else wrapped (shiftLeftSigned x y.toInt.toNat)
  | .shr =>
    if y < 0 then .error (.negativeShift y.toInt)
    else .ok (.int (shiftRightSigned x y.toInt.toNat))
  | .ceq => .ok (.bool (x == y))
  | .clt => .ok (.bool (x < y))
  | .cgt => .ok (.bool (y < x))
  | op => .error (.notDefined op t)

def unsigned (op : Operation) (t : Tag) (x y : UInt64) : Except Cause Value :=
  let wrapped (v : UInt64) : Except Cause Value := .ok (.uint (wrapUnsigned t v))
  match op with
  | .add => wrapped (x + y)
  | .sub => wrapped (x - y)
  | .mul => wrapped (x * y)
  | .div => if y = 0 then .error .divisionByZero else .ok (.uint (x / y))
  | .rem => if y = 0 then .error .divisionByZero else .ok (.uint (x % y))
  | .and => .ok (.uint (x &&& y))
  | .or => .ok (.uint (x ||| y))
  | .xor => .ok (.uint (x ^^^ y))
  | .shl => wrapped (shiftLeft x y.toNat)
  | .shr => .ok (.uint (shiftRight x y.toNat))
  | .ceq => .ok (.bool (x == y))
  | .clt => .ok (.bool (x < y))
  | .cgt => .ok (.bool (y < x))
  | op => .error (.notDefined op t)

def float (op : Operation) (t : Tag) (x y : Double) : Except Cause Value :=
  let rounded (v : Double) : Except Cause Value := .ok (.float (roundTo t v))
  match op with
  | .add => rounded (x.add y)
  | .sub => rounded (x.sub y)
  | .mul => rounded (x.mul y)
  | .div => rounded (x.div y)
  | .rem => rounded (x.rem y)
  | .ceq => .ok (.bool (x.equals y))
  | .clt => .ok (.bool (x.less y))
  | .cgt => .ok (.bool (y.less x))
  | op => .error (.notDefined op t)

def logical (op : Operation) (t : Tag) (x y : Bool) : Except Cause Value :=
  match op with
  | .and => .ok (.bool (x && y))
  | .or => .ok (.bool (x || y))
  | .xor => .ok (.bool (x != y))
  | .ceq => .ok (.bool (x == y))
  | op => .error (.notDefined op t)

def character (op : Operation) (t : Tag) (x y : Int32) : Except Cause Value :=
  match op with
  | .ceq => .ok (.bool (x == y))
  | .clt => .ok (.bool (x < y))
  | .cgt => .ok (.bool (y < x))
  | op => .error (.notDefined op t)

def textual (op : Operation) (t : Tag) (x y : String) : Except Cause Value :=
  match op with
  | .ceq => .ok (.bool (x == y))
  | .clt => .ok (.bool (x < y))
  | .cgt => .ok (.bool (y < x))
  | .add => .ok (.string (x ++ y))
  | op => .error (.notDefined op t)

def binary (op : Operation) (t : Tag) (a b : Value) : Except Cause Value :=
  let mismatch : Except Cause Value := .error (.mismatch op t a.representation)
  match t with
  | .i8 | .i16 | .i32 | .i64 =>
    match a, b with
    | .int x, .int y => signed op t x y
    | _, _ => mismatch
  | .u8 | .u16 | .u32 | .u64 =>
    match a, b with
    | .uint x, .uint y => unsigned op t x y
    | _, _ => mismatch
  | .f32 | .f64 =>
    match a, b with
    | .float x, .float y => float op t x y
    | _, _ => mismatch
  | .bool =>
    match a, b with
    | .bool x, .bool y => logical op t x y
    | _, _ => mismatch
  | .char =>
    match a, b with
    | .char x, .char y => character op t x y
    | _, _ => mismatch
  | .string =>
    match a, b with
    | .string x, .string y => textual op t x y
    | _, _ => mismatch
  | .reference =>
    if op = .ceq then .ok (.bool (a.objectEquals b)) else .error (.notDefined op t)
  | _ => .error (.notDefined op t)

/-- Negation, and the complement of all bits. What they do is decided by the value; the tag only
gives the width. -/
def unary (op : Operation) (t : Tag) (v : Value) : Except Cause Value :=
  match v, op with
  | .int x, .neg => .ok (.int (wrapSigned t (-x)))
  | .int x, _ => .ok (.int (~~~x))
  | .uint x, .compl => .ok (.uint (wrapUnsigned t (~~~x)))
  | .float x, .neg => .ok (.float x.neg)
  | _, _ => .error (.mismatch op t v.representation)

/-- A number in the three representations that a conversion can choose from. -/
structure Views where
  signed : Int64
  unsigned : UInt64
  float : Double
  deriving DecidableEq, Repr

/-- A floating-point number as an integer: cut off towards zero, NaN as zero, and what is too large as
the word of all ones. -/
def integerBits (x : Double) : UInt64 :=
  if x.isNaN then 0
  else if x.isInfinite then if x.isNegative then 0x8000000000000000 else 0xFFFFFFFFFFFFFFFF
  else
    let v := x.truncate
    if x.isNegative then
      if v < -0x8000000000000000 then 0x8000000000000000 else (Int64.ofInt v).toUInt64
    else if 0x10000000000000000 ≤ v then 0xFFFFFFFFFFFFFFFF
    else UInt64.ofNat v.toNat

def views? : Value → Option Views
  | .int x => some ⟨x, x.toUInt64, Double.ofInt x.toInt⟩
  | .uint x => some ⟨x.toInt64, x, Double.ofInt x.toNat⟩
  | .float x => some ⟨(integerBits x).toInt64, integerBits x, x⟩
  | .char x => some ⟨x.toInt64, x.toInt64.toUInt64, Double.ofInt x.toInt⟩
  | _ => none

def convert (source target : Tag) (v : Value) : Except Cause Value :=
  match views? v with
  | none => .error (.conversionMismatch source target v.representation)
  | some w =>
    match target with
    | .i8 | .i16 | .i32 | .i64 => .ok (.int (wrapSigned target w.signed))
    | .u8 | .u16 | .u32 | .u64 => .ok (.uint (wrapUnsigned target w.unsigned))
    | .f32 | .f64 => .ok (.float (roundTo target w.float))
    | .char => .ok (.char w.signed.toInt32)
    | _ => .error (.conversionUnsupported source target)

end Arithmetic
end TypedScript
