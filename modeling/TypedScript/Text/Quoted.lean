import TypedScript.Text.Glyph
import TypedScript.Text.Numeral
import TypedScript.Text.Printable

/-!
# Quoted text

Texts inside messages and listings stand between quotes. A printable character is written as
itself, the quote and the backslash with a backslash before them, and all else as an escape: a
letter for the seven control characters that have one, `\x` for the other control characters of
ASCII and for bytes that are no text, and the code point for the rest.
-/

namespace TypedScript
namespace Text

def controlLetter? (c : Char) : Option Char :=
  match c.toNat with
  | 7 => some 'a'
  | 8 => some 'b'
  | 9 => some 't'
  | 10 => some 'n'
  | 11 => some 'v'
  | 12 => some 'f'
  | 13 => some 'r'
  | _ => none

def escaped (mark c : Char) : String :=
  if c = mark || c = '\\' then String.ofList ['\\', c]
  else if isPrintable c then String.singleton c
  else match controlLetter? c with
    | some letter => String.ofList ['\\', letter]
    | none =>
      if c.toNat < 0x20 || c.toNat = 0x7F then "\\x" ++ hexadecimal 2 c.toNat
      else if c.toNat < 0x10000 then "\\u" ++ hexadecimal 4 c.toNat
      else "\\U" ++ hexadecimal 8 c.toNat

def quote (s : String) : String :=
  "\"" ++ String.join (s.toList.map (escaped '"')) ++ "\""

def quoteChar (c : Char) : String :=
  "'" ++ escaped '\'' c ++ "'"

/-- A sequence of bytes between double quotes; bytes that are no text are written in
hexadecimal. -/
def quoteBytes (bytes : List UInt8) : String :=
  let written := (Glyph.splitFrom 0 bytes).map fun (g, b) =>
    if g = Glyph.stray then "\\x" ++ hexadecimal 2 b.toNat else escaped '"' g.char
  "\"" ++ String.join written ++ "\""

end Text
end TypedScript
