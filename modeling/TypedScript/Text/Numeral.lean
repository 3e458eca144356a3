/-!
# Numerals of fixed width

Numbers written with leading zeros: positions in listings, escapes of characters, bytes.
-/

namespace TypedScript
namespace Text

def zeroPadded (width : Nat) (digits : List Char) : List Char :=
  List.replicate (width - digits.length) '0' ++ digits

/-- A number in lower-case hexadecimal with at least `width` digits. -/
def hexadecimal (width n : Nat) : String :=
  String.ofList (zeroPadded width (Nat.toDigits 16 n))

/-- An integer in decimal with at least `width` characters; the sign stands before the zeros and
counts towards the width. -/
def paddedDecimal (width : Nat) : Int → String
  | .ofNat n => String.ofList (zeroPadded width (Nat.toDigits 10 n))
  | .negSucc n => String.ofList ('-' :: zeroPadded (width - 1) (Nat.toDigits 10 (n + 1)))

def hexadecimalBytes (bytes : List UInt8) : String :=
  String.join (bytes.map fun b => hexadecimal 2 b.toNat)

end Text
end TypedScript
