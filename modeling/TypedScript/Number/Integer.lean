/-!
# Reading integers

Integers are read in two ways: literals of the source, which name their base, and texts that are
converted while a program runs, which are decimal and may have to fit a width.
-/

namespace TypedScript
namespace Number

/-- Why a text is no number of the wanted kind. -/
inductive Fault
  | malformed
  | outOfRange
  deriving DecidableEq, Repr

def digitValue? (c : Char) : Option Nat :=
  if '0' ≤ c && c ≤ '9' then some (c.toNat - '0'.toNat)
  else if 'a' ≤ c && c ≤ 'z' then some (c.toNat - 'a'.toNat + 10)
  else if 'A' ≤ c && c ≤ 'Z' then some (c.toNat - 'A'.toNat + 10)
  else none

/-- Reads digits of a base, from left to right, behind the number `soFar`; the first digit that is
none or makes the number exceed `most` ends the reading. -/
def digitsFrom (base most : Nat) (soFar : Nat) : List Char → Except Fault Nat
  | [] => .ok soFar
  | c :: rest =>
    match digitValue? c with
    | none => .error .malformed
    | some d =>
      if base ≤ d then .error .malformed
      else if most < soFar * base + d then .error .outOfRange
      else digitsFrom base most (soFar * base + d) rest

/-- Reads a number up to `most` from at least one digit of a base. -/
def natural (base most : Nat) (cs : List Char) : Except Fault Nat :=
  if cs.isEmpty then .error .malformed else digitsFrom base most 0 cs

/-- The largest 64-bit number. -/
def maxWord : Nat := 0xFFFFFFFFFFFFFFFF

/-- Reads an integer literal without its underscores: `0x` announces base sixteen, `0b` base two, and
any other leading zero base eight. -/
def literalValue : List Char → Except Fault Nat
  | '0' :: mark :: d :: rest =>
    if mark == 'x' || mark == 'X' then natural 16 maxWord (d :: rest)
    else if mark == 'b' || mark == 'B' then natural 2 maxWord (d :: rest)
    else if mark == 'o' || mark == 'O' then natural 8 maxWord (d :: rest)
    else digitsFrom 8 maxWord 0 (mark :: d :: rest)
  | '0' :: rest => digitsFrom 8 maxWord 0 rest
  | cs => natural 10 maxWord cs

/-- An integer literal, underscores and all. What is too large counts as the largest word and what is
malformed as zero; both are reported. -/
def literal (text : String) : UInt64 × Bool :=
  match literalValue (text.toList.filter (· != '_')) with
  | .ok v => (UInt64.ofNat v, true)
  | .error .outOfRange => (UInt64.ofNat maxWord, false)
  | .error .malformed => (0, false)

def unsigned? (width : Nat) (cs : List Char) : Option Nat :=
  (natural 10 (Nat.pow 2 width - 1) cs).toOption

/-- Reads a signed decimal integer of the given width; either sign may be written. -/
def signed? (width : Nat) : List Char → Option Int
  | '-' :: cs => do
    let n ← (natural 10 (Nat.pow 2 (width - 1)) cs).toOption
    return -(n : Int)
  | '+' :: cs => do
    let n ← (natural 10 (Nat.pow 2 (width - 1) - 1) cs).toOption
    return n
  | cs => do
    let n ← (natural 10 (Nat.pow 2 (width - 1) - 1) cs).toOption
    return n

end Number
end TypedScript
