import TypedScript.Text.Letter
import TypedScript.Token.Basic

/-!
# Reading tokens

The text is read from left to right by a cursor, which knows its position and what is left. Blanks
and comments are skipped, and the longest word at the cursor is taken. A NUL character ends the
text.
-/

namespace TypedScript

/-- A place in a text and the glyphs from there on. -/
structure Cursor where
  position : Position
  rest : List Glyph
  deriving DecidableEq, Repr

namespace Cursor

def current? (c : Cursor) : Option Char := c.rest.head?.map Glyph.char

def following? (c : Cursor) : Option Char := c.rest.tail.head?.map Glyph.char

/-- The cursor one character further; at the end it stays. -/
def next (c : Cursor) : Cursor :=
  match c.rest with
  | [] => c
  | g :: rest => ⟨c.position.after g, rest⟩

/-- The characters from the given place on that satisfy `p`, and the cursor behind them. -/
def takeFrom (p : Char → Bool) : Position → List Glyph → List Char × Cursor
  | here, [] => ([], ⟨here, []⟩)
  | here, g :: rest =>
    if p g.char then
      let (cs, c) := takeFrom p (here.after g) rest
      (g.char :: cs, c)
    else ([], ⟨here, g :: rest⟩)

/-- The characters at the cursor that satisfy `p`, and the cursor behind them. -/
def takeWhile (p : Char → Bool) (c : Cursor) : List Char × Cursor :=
  takeFrom p c.position c.rest

/-- The cursor `n` characters further. -/
def advance : Nat → Cursor → Cursor
  | 0, c => c
  | n + 1, c => advance n c.next

def startsWith (word : List Char) (c : Cursor) : Bool :=
  word.isPrefixOf ((c.rest.take word.length).map Glyph.char)

end Cursor

namespace Lexer

def isDigit (c : Char) : Bool := '0' ≤ c && c ≤ '9'

def isHexDigit (c : Char) : Bool :=
  isDigit c || ('a' ≤ c && c ≤ 'f') || ('A' ≤ c && c ≤ 'F')

/-- Whether a character can stand in a number between its sign and its exponent. -/
def isDigitOrUnderscore (c : Char) : Bool := isDigit c || c == '_'

def isNameStart (c : Char) : Bool := Text.isLetter c || c == '_'

def isNameChar (c : Char) : Bool := Text.isLetter c || isDigit c || c == '_'

def isSpace (c : Char) : Bool := c == ' ' || c == '\t' || c == '\n' || c == '\r'

/-- Where the reader is between two tokens. -/
inductive Gap
  | blank
  | lineComment
  | blockComment (start : Position)
  deriving DecidableEq, Repr

/-- Skips blanks and comments. The result is the cursor at the next token, or where a comment
started that is never closed, with the cursor at the end. -/
def skipFrom : Gap → Position → List Glyph → Except (Position × Cursor) Cursor
  | .blockComment start, here, [] => .error (start, ⟨here, []⟩)
  | _, here, [] => .ok ⟨here, []⟩
  | .lineComment, here, g :: rest =>
    skipFrom (if g.char = '\n' then .blank else .lineComment) (here.after g) rest
  | .blockComment start, here, [g] =>
    skipFrom (.blockComment start) (here.after g) []
  | .blockComment start, here, g :: h :: rest =>
    if g.char = '*' && h.char = '/' then skipFrom .blank ((here.after g).after h) rest
    else skipFrom (.blockComment start) (here.after g) (h :: rest)
  | .blank, here, [g] =>
    if isSpace g.char then skipFrom .blank (here.after g) [] else .ok ⟨here, [g]⟩
  | .blank, here, g :: h :: rest =>
    if isSpace g.char then skipFrom .blank (here.after g) (h :: rest)
    else if g.char = '/' && h.char = '/' then
      skipFrom .lineComment ((here.after g).after h) rest
    else if g.char = '/' && h.char = '*' then
      skipFrom (.blockComment here) ((here.after g).after h) rest
    else .ok ⟨here, g :: h :: rest⟩

def skip (c : Cursor) : Except (Position × Cursor) Cursor :=
  skipFrom .blank c.position c.rest

def escape? : Char → Option Char
  | 'n' => some '\n'
  | 't' => some '\t'
  | 'r' => some '\r'
  | '0' => some '\x00'
  | '\\' => some '\\'
  | '"' => some '"'
  | '\'' => some '\''
  | _ => none

/-- The result of reading a word: what it is, its literal, and the cursor behind it. -/
structure Reading where
  kind : Token.Kind
  literal : String
  cursor : Cursor
  deriving DecidableEq, Repr

namespace Reading

def fault (f : LexicalFault) (c : Cursor) : Reading := ⟨.invalid f, f.message, c⟩

end Reading

/-- Reads a string from behind its opening quote; `soFar` holds what was read, last first. -/
def stringFrom (soFar : List Char) : Position → List Glyph → Reading
  | here, [] => .fault .unterminatedString ⟨here, []⟩
  | here, [g] =>
    if g.char = '"' then ⟨.string, String.ofList soFar.reverse, ⟨here.after g, []⟩⟩
    else if g.char = '\n' then .fault .unterminatedString ⟨here, [g]⟩
    else if g.char = '\\' then .fault (.invalidEscape '\x00') ⟨here.after g, []⟩
    else .fault .unterminatedString ⟨here.after g, []⟩
  | here, g :: h :: rest =>
    if g.char = '"' then ⟨.string, String.ofList soFar.reverse, ⟨here.after g, h :: rest⟩⟩
    else if g.char = '\n' then .fault .unterminatedString ⟨here, g :: h :: rest⟩
    else if g.char = '\\' then
      match escape? h.char with
      | some c => stringFrom (c :: soFar) ((here.after g).after h) rest
      | none => .fault (.invalidEscape h.char) ⟨here.after g, h :: rest⟩
    else stringFrom (g.char :: soFar) (here.after g) (h :: rest)

def closeCharacter (c : Char) (cursor : Cursor) : Reading :=
  if cursor.current? = some '\'' then ⟨.character, String.singleton c, cursor.next⟩
  else .fault .unterminatedCharacter cursor

def character (cursor : Cursor) : Reading :=
  match cursor.current? with
  | none => .fault .missingCharacter cursor
  | some '\n' => .fault .missingCharacter cursor
  | some '\\' =>
    let cursor := cursor.next
    match cursor.current? with
    | none => .fault (.invalidEscape '\x00') cursor
    | some e =>
      match escape? e with
      | some c => closeCharacter c cursor.next
      | none => .fault (.invalidEscape e) cursor
  | some c => closeCharacter c cursor.next

/-- Whether a character behind a leading zero announces another base. -/
def isBaseMark (c : Char) : Bool := c == 'x' || c == 'X' || c == 'b' || c == 'B'

/-- Reads the digits behind `0x` or `0b`. -/
def basedNumber (mark : Char) (cursor : Cursor) : Reading :=
  let (digits, behind) := cursor.takeWhile fun c => isHexDigit c || c == '_'
  let text := String.ofList ('0' :: mark :: digits)
  if digits.isEmpty then .fault (.malformedNumber text) behind
  else ⟨.integer, text, behind⟩

/-- Reads the exponent of a number whose earlier part is given. -/
def exponent (isFloat : Bool) (read : List Char) (cursor : Cursor) : Reading :=
  let plain : Reading :=
    ⟨if isFloat then .float else .integer, String.ofList read, cursor⟩
  match cursor.current?, cursor.following? with
  | some e, some f =>
    if (e == 'e' || e == 'E') && (isDigit f || f == '+' || f == '-') then
      let signed := f == '+' || f == '-'
      let read := if signed then read ++ [e, f] else read ++ [e]
      let (digits, behind) := (cursor.advance (if signed then 2 else 1)).takeWhile isDigit
      if digits.isEmpty then .fault (.malformedExponent (String.ofList read)) behind
      else ⟨.float, String.ofList (read ++ digits), behind⟩
    else plain
  | _, _ => plain

def decimalNumber (cursor : Cursor) : Reading :=
  let (whole, cursor) := cursor.takeWhile isDigitOrUnderscore
  if cursor.current? = some '.' && cursor.following?.any isDigit then
    let (fraction, cursor) := cursor.next.takeWhile isDigitOrUnderscore
    exponent true (whole ++ '.' :: fraction) cursor
  else exponent false whole cursor

def number (cursor : Cursor) : Reading :=
  match cursor.following? with
  | some mark =>
    if cursor.current? = some '0' && isBaseMark mark then basedNumber mark (cursor.advance 2)
    else decimalNumber cursor
  | none => decimalNumber cursor

def word (cursor : Cursor) : Reading :=
  let (cs, behind) := cursor.takeWhile isNameChar
  let text := String.ofList cs
  ⟨Token.Kind.ofWord text, text, behind⟩

def operator? (cursor : Cursor) : Option Token.Kind :=
  Token.Kind.operators.find? fun k => cursor.startsWith k.name.toList

def wordAt (cursor : Cursor) : Reading :=
  match cursor.current? with
  | none => ⟨.endOfInput, "", cursor⟩
  | some c =>
    if c = '"' then stringFrom [] cursor.next.position cursor.next.rest
    else if c = '\'' then character cursor.next
    else if isDigit c then number cursor
    else if isNameStart c then word cursor
    else match operator? cursor with
      | some k => ⟨k, k.name, cursor.advance k.name.length⟩
      | none => .fault (.unexpectedCharacter c) cursor.next

def token (cursor : Cursor) : Token × Cursor :=
  match skip cursor with
  | .ok start =>
    let r := wordAt start
    (⟨r.kind, r.literal, ⟨start.position, r.cursor.position⟩⟩, r.cursor)
  | .error (start, stop) =>
    let f := LexicalFault.unterminatedComment
    (⟨.invalid f, f.message, ⟨start, stop.position⟩⟩, stop)

/-- At most `fuel` tokens from the cursor on, up to the end of the text. -/
def tokensFrom : Nat → Cursor → List Token
  | 0, _ => []
  | fuel + 1, cursor =>
    let (t, behind) := token cursor
    if t.kind = .endOfInput then [t] else t :: tokensFrom fuel behind

/-- The part of a text that is read: it ends before the first NUL. -/
def readable (source : List Glyph) : List Glyph :=
  source.takeWhile fun g => g.char != '\x00'

end Lexer

/-- All tokens of a source text; the last one marks its end. Every other token takes up at least
one glyph, so there are at most as many of them as glyphs. -/
def tokenize (source : List Glyph) : List Token :=
  let text := Lexer.readable source
  Lexer.tokensFrom (text.length + 1) ⟨Position.start, text⟩

end TypedScript
