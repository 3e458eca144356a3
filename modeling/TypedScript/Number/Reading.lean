import TypedScript.Number.Double
import TypedScript.Number.Integer

/-!
# Reading floating-point numbers

A number is an optional sign, digits with at most one point among them, and an optional exponent,
all decimal, or behind `0x` hexadecimal with a binary exponent that must not be left out; or it is
infinity or NaN by name. Underscores may separate digits. The value is exact and rounded once.
-/

namespace TypedScript
namespace Number

def lowered (c : Char) : Char := c.toLower

def isDigitOf (hexadecimal : Bool) (c : Char) : Bool :=
  ('0' ≤ c && c ≤ '9') || (hexadecimal && 'a' ≤ lowered c && lowered c ≤ 'f')

/-- The digits of a number before its exponent: all digits in a row, and how many of them stand
behind the point. -/
structure Digits where
  digits : List Char
  behindPoint : Nat
  sawPoint : Bool
  deriving DecidableEq, Repr

def mantissa (hexadecimal : Bool) (soFar : Digits) : List Char → Digits × List Char
  | [] => (soFar, [])
  | c :: rest =>
    if c = '_' then mantissa hexadecimal soFar rest
    else if c = '.' && !soFar.sawPoint then
      mantissa hexadecimal { soFar with sawPoint := true } rest
    else if isDigitOf hexadecimal c then
      mantissa hexadecimal
        { soFar with
          digits := c :: soFar.digits
          behindPoint := if soFar.sawPoint then soFar.behindPoint + 1 else soFar.behindPoint }
        rest
    else (soFar, c :: rest)

/-- The value of the digits of an exponent. It stops growing at five digits: no number is that far
from one. -/
def exponentDigits (soFar : Nat) : List Char → Nat × List Char
  | [] => (soFar, [])
  | c :: rest =>
    if c = '_' then exponentDigits soFar rest
    else if '0' ≤ c && c ≤ '9' then
      exponentDigits
        (if soFar < 10000 then soFar * 10 + (c.toNat - '0'.toNat) else soFar) rest
    else (soFar, c :: rest)

def exponentValue? (cs : List Char) : Option (Int × List Char) :=
  let (negative, cs) := match cs with
    | '+' :: rest => (false, rest)
    | '-' :: rest => (true, rest)
    | _ => (false, cs)
  match cs with
  | [] => none
  | c :: _ =>
    if '0' ≤ c && c ≤ '9' then
      let (e, rest) := exponentDigits 0 cs
      some (if negative then -(e : Int) else e, rest)
    else none

/-- What stood last in a number, for the rule on underscores. -/
inductive Separation
  | start | digit | underscore | other
  deriving DecidableEq, Repr

def underscoresFrom (hexadecimal : Bool) (last : Separation) : List Char → Bool
  | [] => last != .underscore
  | c :: rest =>
    if isDigitOf hexadecimal c then underscoresFrom hexadecimal .digit rest
    else if c = '_' then last == .digit && underscoresFrom hexadecimal .underscore rest
    else last != .underscore && underscoresFrom hexadecimal .other rest

/-- Whether all underscores of an unsigned number separate digits; the mark of a base counts as a
digit. -/
def underscoresSeparate : List Char → Bool
  | '0' :: mark :: rest =>
    let m := lowered mark
    if m == 'x' then underscoresFrom true .digit rest
    else if m == 'b' || m == 'o' then underscoresFrom false .digit rest
    else underscoresFrom false .start ('0' :: mark :: rest)
  | cs => underscoresFrom false .start cs

def digitsValue (base : Nat) : List Char → Nat
  | [] => 0
  | c :: rest => digitsValue base rest * base + (digitValue? c).getD 0

/-- A number `m * 10 ^ e` rounded to a format. Exponents far outside the format's range are decided
without computing the power. -/
def decimalValue (f : BinaryFormat) (negative : Bool) (m : Nat) (e : Int) :
    Except Fault Double :=
  let size : Int := ((Nat.toDigits 10 m).length : Int) + e
  if m = 0 || size < -400 then .ok (Double.zeroOf negative)
  else if 400 < size then .error .outOfRange
  else
    let (num, den) := match e with
      | .ofNat k => (m * Nat.pow 10 k, 1)
      | .negSucc k => (m, Nat.pow 10 (k + 1))
    match Double.ofRatio? f negative num den with
    | some x => .ok x
    | none => .error .outOfRange

/-- A number `m * 2 ^ e` rounded to a format. -/
def binaryValue (f : BinaryFormat) (negative : Bool) (m : Nat) (e : Int) : Except Fault Double :=
  let size : Int := (m.log2 : Int) + e
  if m = 0 || size < -2000 then .ok (Double.zeroOf negative)
  else if 2000 < size then .error .outOfRange
  else
    let (num, den) := (Scaled.mk m e).ratio
    match Double.ofRatio? f negative num den with
    | some x => .ok x
    | none => .error .outOfRange

def named? (signed negative : Bool) (cs : List Char) : Option Double :=
  let word := String.ofList (cs.map lowered)
  if word == "inf" || word == "infinity" then some (Double.infinityOf negative)
  else if word == "nan" && !signed then some Double.nan
  else none

def unsignedFloat (f : BinaryFormat) (negative : Bool) (cs : List Char) :
    Except Fault Double :=
  let (hexadecimal, body) := match cs with
    | '0' :: mark :: c :: rest => if lowered mark == 'x' then (true, c :: rest) else (false, cs)
    | _ => (false, cs)
  let (d, rest) := mantissa hexadecimal ⟨[], 0, false⟩ body
  let mark := if hexadecimal then 'p' else 'e'
  if d.digits.isEmpty then .error .malformed
  else
    let exponent : Option (Int × List Char) := match rest with
      | [] => if hexadecimal then none else some (0, [])
      | c :: more =>
        if lowered c == mark then exponentValue? more
        else if hexadecimal then none else some (0, rest)
    match exponent with
    | some (e, []) =>
      if cs.contains '_' && !underscoresSeparate cs then .error .malformed
      else if hexadecimal then
        binaryValue f negative (digitsValue 16 d.digits) (e - 4 * (d.behindPoint : Int))
      else decimalValue f negative (digitsValue 10 d.digits) (e - (d.behindPoint : Int))
    | _ => .error .malformed

/-- Reads a floating-point number from a whole text and rounds it to the format. -/
def float (f : BinaryFormat) (cs : List Char) : Except Fault Double :=
  let (signed, negative, body) := match cs with
    | '+' :: rest => (true, false, rest)
    | '-' :: rest => (true, true, rest)
    | _ => (false, false, cs)
  match named? signed negative body with
  | some x => .ok x
  | none => unsignedFloat f negative body

/-- A floating-point literal of the source, underscores and all. What is too large counts as
infinity and is reported. -/
def floatLiteral (text : String) : Double × Bool :=
  match float .double (text.toList.filter (· != '_')) with
  | .ok x => (x, true)
  | .error .outOfRange => (Double.infinity, false)
  | .error .malformed => (Double.zero, false)

end Number
end TypedScript
