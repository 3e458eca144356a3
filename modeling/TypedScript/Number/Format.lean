import TypedScript.Number.Double

/-!
# Shortest decimals, and the text of a number

Of the decimals that read back as a given number, the shortest are sought, and of those the nearest
to it. On each grid of decimals, from one digit on, only the two neighbours of the number have to be
tried.
-/

namespace TypedScript
namespace Double

/-- A decimal: its digits, without zeros at the end, and the power of ten of the first digit. -/
structure Decimal where
  digits : List Char
  exponent : Int
  deriving DecidableEq, Repr

/-- The interval of reals that are read as a given number, in units of a quarter of its last place:
the number itself, the ends, and whether the ends belong to it. -/
structure Interval where
  low : Nat
  value : Nat
  high : Nat
  closed : Bool
  deriving DecidableEq, Repr

/-- The interval around a positive number. Below a power of two the neighbour is half as far. -/
def interval (s : Scaled) : Interval :=
  let narrow := s.significand = hiddenBit && s.exponent != -1074
  { low := 4 * s.significand - (if narrow then 1 else 2)
    value := 4 * s.significand
    high := 4 * s.significand + 2
    closed := s.significand % 2 = 0 }

/-- Factors `(a, b)` with which `k * 10 ^ t` and `n * 2 ^ e` compare as `k * a` and `n * b`. -/
def scales (t e : Int) : Nat × Nat :=
  (Nat.pow 10 t.toNat * Nat.pow 2 (-e).toNat, Nat.pow 10 (-t).toNat * Nat.pow 2 e.toNat)

/-- Whether `k * 10 ^ t` lies in an interval whose unit is `2 ^ e`. -/
def Interval.holds (i : Interval) (t e : Int) (k : Nat) : Bool :=
  let (a, b) := scales t e
  let x := k * a
  if i.closed then i.low * b ≤ x && x ≤ i.high * b else i.low * b < x && x < i.high * b

/-- The decimal with the power of ten `t` at its last digit that is in the interval and nearest to
the value, if there is one. -/
def Interval.neighbour? (i : Interval) (t e : Int) : Option Nat :=
  let (a, b) := scales t e
  let below := i.value * b / a
  let above := below + 1
  match i.holds t e below, i.holds t e above with
  | true, true =>
    let shortfall := i.value * b - below * a
    let excess := above * a - i.value * b
    if shortfall < excess then some below
    else if excess < shortfall then some above
    else some (if below % 2 = 0 then below else above)
  | true, false => some below
  | false, true => some above
  | false, false => none

/-- The power of ten of the first digit of a positive number `n * 2 ^ e`. -/
def leadingPower (n : Nat) (e : Int) : Int :=
  let estimate := Int.fdiv (((n.log2 : Int) + e) * 1233) 4096
  let reaches (t : Int) : Bool :=
    let (a, b) := scales t e
    a ≤ n * b
  if reaches (estimate + 1) then estimate + 1
  else if reaches estimate then estimate
  else estimate - 1

/-- Tries decimals of more and more digits: those with the power of ten `t` at the last digit, then
`t - 1`, and so on. -/
def searchFrom (i : Interval) (e : Int) : Nat → Int → Nat × Int
  | 0, t => (i.value, t)
  | tries + 1, t =>
    match i.neighbour? t e with
    | some k => (k, t)
    | none => searchFrom i e tries (t - 1)

/-- The shortest decimal that reads back as a positive finite number. Seventeen digits always
suffice. -/
def shortest (x : Double) : Decimal :=
  let s := x.magnitude
  let i := interval s
  let e := s.exponent - 2
  let (k, t) := searchFrom i e 17 (leadingPower i.value e)
  let digits := Nat.toDigits 10 k
  { digits := (digits.reverse.dropWhile (· == '0')).reverse
    exponent := t + (digits.length : Int) - 1 }

end Double

/-!
## The text of a number

Numbers are written with the fewest digits that read back. From a ten-thousandth up to below a
million the point is set among the digits; outside that range an exponent of at least two digits
and with its sign follows.
-/

namespace Double

def needsExponent (exponent : Int) : Bool := exponent < -4 || 6 ≤ exponent

def pointed : List Char → List Char
  | [] => []
  | [d] => [d]
  | d :: rest => d :: '.' :: rest

def exponentText (e : Int) : List Char :=
  let digits := Nat.toDigits 10 e.natAbs
  'e' :: (if e < 0 then '-' else '+') :: (if digits.length < 2 then '0' :: digits else digits)

/-- Digits with a point set so that the first digit has the given power of ten. -/
def positional (digits : List Char) (e : Int) : List Char :=
  if e < 0 then '0' :: '.' :: List.replicate (e.natAbs - 1) '0' ++ digits
  else
    let whole := e.toNat + 1
    let before := digits.take whole ++ List.replicate (whole - digits.length) '0'
    let behind := digits.drop whole
    if behind.isEmpty then before else before ++ '.' :: behind

def Decimal.text (d : Decimal) : List Char :=
  if needsExponent d.exponent then pointed d.digits ++ exponentText d.exponent
  else positional d.digits d.exponent

def format (x : Double) : String :=
  if x.isNaN then "NaN"
  else if x.isInfinite then (if x.isNegative then "-Inf" else "+Inf")
  else
    let digits := if x.isZero then ['0'] else x.shortest.text
    String.ofList (if x.isNegative then '-' :: digits else digits)

end Double
end TypedScript
