/-!
# Rounding to a binary format, and double precision

A positive number is given exactly, as a ratio of two natural numbers, and rounded to a multiple of
a power of two: to the nearest one, and a number halfway between two goes to the even one. The
power is the least for which the result has at most `precision` bits, but never below that of the
format's smallest number.
-/

namespace TypedScript

/-- A binary floating-point format: the bits of its significands, and the power of two that all its
numbers stay below. -/
structure BinaryFormat where
  precision : Nat
  limit : Nat
  deriving DecidableEq, Repr

namespace BinaryFormat

def double : BinaryFormat := ⟨53, 1024⟩

def single : BinaryFormat := ⟨24, 128⟩

def leastExponent (f : BinaryFormat) : Int := 3 - (f.limit : Int) - (f.precision : Int)

end BinaryFormat

/-- The number `significand * 2 ^ exponent`. -/
structure Scaled where
  significand : Nat
  exponent : Int
  deriving DecidableEq, Repr

/-- The quotient rounded to the nearest integer; halfway goes to the even one. -/
def roundedQuotient (num den : Nat) : Nat :=
  let q := num / den
  let twice := 2 * (num % den)
  if twice < den then q
  else if den < twice then q + 1
  else if q % 2 = 0 then q else q + 1

namespace Scaled

/-- The quotient of `num / den` and `2 ^ e` as a ratio of natural numbers. -/
def descale (num den : Nat) (e : Int) : Nat × Nat :=
  match e with
  | .ofNat k => (num, den * Nat.pow 2 k)
  | .negSucc k => (num * Nat.pow 2 (k + 1), den)

/-- The exponent to which the positive ratio `num / den` is rounded: its quotient by that power of
two has `precision` bits before the point, unless the format does not reach that low. -/
def targetExponent (f : BinaryFormat) (num den : Nat) : Int :=
  let guess : Int := (num.log2 : Int) - (den.log2 : Int) - (f.precision : Int)
  let (n, d) := descale num den guess
  let exact := if n < d * Nat.pow 2 f.precision then guess else guess + 1
  max exact f.leastExponent

/-- The positive ratio `num / den` rounded to the format; nothing when it is too large for it. -/
def round? (f : BinaryFormat) (num den : Nat) : Option Scaled :=
  let e := targetExponent f num den
  let (n, d) := descale num den e
  let m := roundedQuotient n d
  let top := Nat.pow 2 (f.precision - 1)
  let r : Scaled := if m = 2 * top then ⟨top, e + 1⟩ else ⟨m, e⟩
  if (f.limit : Int) < r.exponent + (f.precision : Int) && top ≤ r.significand then none
  else some r

def ratio (s : Scaled) : Nat × Nat :=
  match s.exponent with
  | .ofNat k => (s.significand * Nat.pow 2 k, 1)
  | .negSucc k => (s.significand, Nat.pow 2 (k + 1))

end Scaled

/-!
## Double-precision numbers

A floating-point number is its 64 bits: a sign, an eleven-bit exponent and a fraction. Comparison,
negation, rounding to single precision, the remainder and the conversions from and to integers are
defined on the bits and so on exact integers; the four operations of arithmetic are those of the
processor.
-/

/-- A double-precision number, given by its bits. -/
structure Double where
  bits : UInt64
  deriving DecidableEq, Repr, Inhabited

namespace Double

def zero : Double := ⟨0⟩

def infinity : Double := ⟨0x7FF0000000000000⟩

/-- The number that is none, as reading one from a text gives it. -/
def nan : Double := ⟨0x7FF8000000000001⟩

def pi : Double := ⟨0x400921FB54442D18⟩

/-- The leading bit of a significand, which the bits leave out: two to the power 52. -/
def hiddenBit : Nat := 0x10000000000000

/-- The weight of the sign among the bits: two to the power 63. -/
def signBit : Nat := 0x8000000000000000

def isNegative (x : Double) : Bool := 0x8000000000000000 ≤ x.bits

def magnitudeBits (x : Double) : UInt64 := x.bits &&& 0x7FFFFFFFFFFFFFFF

def isNaN (x : Double) : Bool := 0x7FF0000000000000 < x.magnitudeBits

def isInfinite (x : Double) : Bool := x.magnitudeBits == 0x7FF0000000000000

def isZero (x : Double) : Bool := x.magnitudeBits == 0

def neg (x : Double) : Double := ⟨x.bits ^^^ 0x8000000000000000⟩

def abs (x : Double) : Double := ⟨x.magnitudeBits⟩

def magnitude (x : Double) : Scaled :=
  let m := x.magnitudeBits.toNat
  let e : Nat := m / hiddenBit
  if e = 0 then ⟨m, -1074⟩ else ⟨m % hiddenBit + hiddenBit, (e : Int) - 1075⟩

/-- The number with the given sign and a magnitude that the format holds. -/
def ofScaled (negative : Bool) (s : Scaled) : Double :=
  let magnitude :=
    if s.significand < hiddenBit then s.significand
    else (s.exponent + 1075).toNat * hiddenBit + (s.significand - hiddenBit)
  ⟨UInt64.ofNat (if negative then magnitude + signBit else magnitude)⟩

def infinityOf (negative : Bool) : Double := if negative then infinity.neg else infinity

def zeroOf (negative : Bool) : Double := if negative then zero.neg else zero

/-- The ratio `num / den`, rounded to single or double precision; nothing when it is too large for
that. -/
def ofRatio? (f : BinaryFormat) (negative : Bool) (num den : Nat) : Option Double :=
  if num = 0 then some (zeroOf negative)
  else do
    let s ← Scaled.round? f num den
    if s.significand = 0 then return zeroOf negative
    let (n, d) := s.ratio
    let exact ← Scaled.round? .double n d
    return ofScaled negative exact

/-- The ratio `num / den`, rounded; infinity when it is too large. -/
def ofRatio (f : BinaryFormat) (negative : Bool) (num den : Nat) : Double :=
  (ofRatio? f negative num den).getD (infinityOf negative)

def ofInt (i : Int) : Double := ofRatio .double (i < 0) i.natAbs 1

def toSingle (x : Double) : Double :=
  if x.isNaN || x.isInfinite then x
  else
    let (n, d) := x.magnitude.ratio
    ofRatio .single x.isNegative n d

/-- The integer part of a finite number, cut off towards zero. -/
def truncate (x : Double) : Int :=
  let (n, d) := x.magnitude.ratio
  if x.isNegative then -((n / d : Nat) : Int) else (n / d : Nat)

/-- A key that orders all numbers but NaN; the two zeros have the same. -/
def orderKey (x : Double) : Int :=
  if x.isNegative then -(x.magnitudeBits.toNat : Int) else x.magnitudeBits.toNat

/-- Equality of numbers: NaN equals nothing, and the two zeros are equal. -/
def equals (x y : Double) : Bool :=
  !x.isNaN && !y.isNaN && x.orderKey == y.orderKey

/-- The order of numbers: NaN is neither less nor greater than anything. -/
def less (x y : Double) : Bool :=
  !x.isNaN && !y.isNaN && x.orderKey < y.orderKey

def toFloat (x : Double) : Float := Float.ofBits x.bits

def ofFloat (x : Float) : Double := ⟨x.toBits⟩

def add (x y : Double) : Double := ofFloat (x.toFloat + y.toFloat)

def sub (x y : Double) : Double := ofFloat (x.toFloat - y.toFloat)

def mul (x y : Double) : Double := ofFloat (x.toFloat * y.toFloat)

def div (x y : Double) : Double := ofFloat (x.toFloat / y.toFloat)

def sqrt (x : Double) : Double := ofFloat x.toFloat.sqrt

/-- Brings two scaled numbers to the smaller of their exponents. -/
def aligned (s t : Scaled) : Nat × Nat × Int :=
  let e := min s.exponent t.exponent
  (s.significand * Nat.pow 2 (s.exponent - e).toNat,
    t.significand * Nat.pow 2 (t.exponent - e).toNat, e)

/-- The remainder of a division whose quotient is cut off towards zero. It is exact and has the sign
of the dividend. -/
def rem (x y : Double) : Double :=
  if x.isNaN || y.isNaN || x.isInfinite || y.isZero then nan
  else if y.isInfinite || x.isZero then x
  else
    let (m, n, e) := aligned x.magnitude y.magnitude
    let (num, den) := (Scaled.mk (m % n) e).ratio
    ofRatio .double x.isNegative num den

end Double
end TypedScript
