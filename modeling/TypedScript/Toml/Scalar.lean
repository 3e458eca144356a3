import TypedScript.Number.Reading
import TypedScript.Text.Blank
import TypedScript.Text.Letter
import TypedScript.Text.Split
import TypedScript.Toml.Document

/-!
# Texts, numbers and dates

The values of a settings file that have no parts, and the rules for writing them.
-/

namespace TypedScript
namespace Toml

def isSpace (c : Char) : Bool := c = ' ' || c = '\t'

def isNewline (c : Char) : Bool := c = '\n' || c = '\r'

def isHexDigit (c : Char) : Bool := Number.isDigitOf true c

def scalarChar? (n : Nat) : Option Char :=
  if h : n.isValidChar then some (Char.ofNatAux n h) else none

/-- Reads a fixed number of hexadecimal digits as a character. -/
def hexEscape? (width : Nat) (cs : List Char) : Option (Char × List Char) :=
  let digits := cs.take width
  if digits.length < width || !digits.all isHexDigit then none
  else (scalarChar? (Number.digitsValue 16 digits.reverse)).map fun c => (c, cs.drop width)

def escape? : List Char → Option (Char × List Char)
  | 'b' :: rest => some ('\x08', rest)
  | 't' :: rest => some ('\t', rest)
  | 'n' :: rest => some ('\n', rest)
  | 'f' :: rest => some ('\x0C', rest)
  | 'r' :: rest => some ('\r', rest)
  | 'e' :: rest => some ('\x1B', rest)
  | '"' :: rest => some ('"', rest)
  | '\\' :: rest => some ('\\', rest)
  | 'x' :: rest => hexEscape? 2 rest
  | 'u' :: rest => hexEscape? 4 rest
  | 'U' :: rest => hexEscape? 8 rest
  | _ => none

/-- The rest of a text in double quotes, read with fuel. -/
def basicText? : Nat → List Char → Option (List Char × List Char)
  | 0, _ => none
  | fuel + 1, cs =>
    match cs with
    | [] => none
    | '"' :: rest => some ([], rest)
    | '\\' :: rest => do
      let (c, rest) ← escape? rest
      let (more, rest) ← basicText? fuel rest
      return (c :: more, rest)
    | c :: rest =>
      if isNewline c then none
      else do
        let (more, rest) ← basicText? fuel rest
        return (c :: more, rest)

def rawText? : List Char → Option (List Char × List Char)
  | [] => none
  | c :: rest =>
    if c = '\'' then some ([], rest)
    else if isNewline c then none
    else (rawText? rest).map fun (more, rest) => (c :: more, rest)

/-- What a row of quotes means in a text of several lines: fewer than three belong to the text, and of
more the last three end it. -/
inductive QuoteRow
  | inside
  | closing (kept : Nat)
  | tooMany

def QuoteRow.ofLength (n : Nat) : QuoteRow :=
  if n < 3 then inside else if n < 6 then closing (n - 3) else tooMany

/-- The rest of a text of several lines in the given quotes, read with fuel; `escapes` says whether
backslashes have a meaning. A backslash at the end of a line takes the blanks and line ends behind it
away. -/
def longText? (mark : Char) (escapes : Bool) : Nat → List Char → Option (List Char × List Char)
  | 0, _ => none
  | fuel + 1, cs =>
    match cs with
    | [] => none
    | c :: rest =>
      if c = mark then
        let row := cs.takeWhile (· = mark)
        match QuoteRow.ofLength row.length with
        | .inside => do
          let (more, rest) ← longText? mark escapes fuel (cs.drop row.length)
          return (row ++ more, rest)
        | .closing kept => some (List.replicate kept mark, cs.drop row.length)
        | .tooMany => none
      else if c = '\\' && escapes then
        let blanks := rest.takeWhile fun c => isSpace c || isNewline c
        if blanks.contains '\n' then longText? mark escapes fuel (rest.drop blanks.length)
        else do
          let (c, rest) ← escape? rest
          let (more, rest) ← longText? mark escapes fuel rest
          return (c :: more, rest)
      else do
        let (more, rest) ← longText? mark escapes fuel rest
        return (c :: more, rest)

def withoutFirstLineEnd : List Char → List Char
  | '\n' :: rest => rest
  | '\r' :: '\n' :: rest => rest
  | cs => cs

def text? (cs : List Char) : Option (String × List Char) :=
  let fuel := cs.length + 1
  let result := match cs with
    | '"' :: '"' :: '"' :: rest => longText? '"' true fuel (withoutFirstLineEnd rest)
    | '"' :: rest => basicText? fuel rest
    | '\'' :: '\'' :: '\'' :: rest => longText? '\'' false fuel (withoutFirstLineEnd rest)
    | '\'' :: rest => rawText? rest
    | _ => none
  result.map fun (text, rest) => (String.ofList text, rest)

/-- Whether every underscore has digits or letters like digits on both sides. -/
def underscoresOk (last : Bool) : List Char → Bool
  | [] => last
  | c :: rest => (c != '_' || last) && underscoresOk (isHexDigit c) rest

def hasLeadingZero : List Char → Bool
  | '0' :: c :: _ => !(c = 'b' || c = 'o' || c = 'x')
  | '+' :: '0' :: _ :: _ => true
  | '-' :: '0' :: _ :: _ => true
  | _ => false

def integer? (cs : List Char) : Option Int :=
  if !underscoresOk false cs || hasLeadingZero cs then none
  else match cs.filter (· != '_') with
    | '-' :: digits => do
      let n ← (Number.natural 10 0x8000000000000000 digits).toOption
      return -(n : Int)
    | '+' :: digits => do
      let n ← (Number.natural 10 0x7FFFFFFFFFFFFFFF digits).toOption
      return n
    | digits => do
      let n ← (Number.literalValue digits).toOption
      if n < 0x8000000000000000 then return n else none

/-- The pieces of a number with a fraction or an exponent, without empty ones. -/
def floatParts (cs : List Char) : List (List Char) :=
  let marks (c : Char) : Bool := c = '.' || c = 'e' || c = 'E'
  (Text.splitChars '.' (cs.map fun c => if marks c then '.' else c)).filter fun p => !p.isEmpty

def pointsOk : List Char → Bool
  | [] => true
  | ['.'] => false
  | '.' :: c :: rest => c.isDigit && pointsOk (c :: rest)
  | _ :: rest => pointsOk rest

/-- Whether a text is a number with a fraction or an exponent, or one of the named numbers. -/
def isFloat (cs : List Char) : Bool :=
  let parts := floatParts cs
  let named := ["nan", "+nan", "-nan", "inf", "+inf", "-inf"].map String.toList
  named.contains cs ||
    (parts.all (underscoresOk false) && !(parts.head?.any hasLeadingZero) && pointsOk cs &&
      (Number.float .double (cs.filter (· != '_'))).toOption.isSome)

def digits? (width : Nat) (cs : List Char) : Option (Nat × List Char) :=
  let taken := cs.take width
  if taken.length = width && taken.all Char.isDigit then
    some (Number.digitsValue 10 taken.reverse, cs.drop width)
  else none

def daysIn (year month : Nat) : Nat :=
  if month = 2 then
    if year % 4 = 0 && (year % 100 != 0 || year % 400 = 0) then 29 else 28
  else if month = 4 || month = 6 || month = 9 || month = 11 then 30
  else 31

def calendarDay? (cs : List Char) : Option (List Char) := do
  let (year, cs) ← digits? 4 cs
  let '-' :: cs := cs | none
  let (month, cs) ← digits? 2 cs
  let '-' :: cs := cs | none
  let (day, cs) ← digits? 2 cs
  if 1 ≤ month && month ≤ 12 && 1 ≤ day && day ≤ daysIn year month then return cs else none

/-- Reads a time of day; seconds may be left out, and may have a fraction. -/
def timeOfDay? (cs : List Char) : Option (List Char) := do
  let (hour, cs) ← digits? 2 cs
  let ':' :: cs := cs | none
  let (minute, cs) ← digits? 2 cs
  if 24 ≤ hour || 60 ≤ minute then none
  match cs with
  | ':' :: cs =>
    let (second, cs) ← digits? 2 cs
    if 60 ≤ second then none
    match cs with
    | '.' :: cs =>
      let fraction := cs.takeWhile Char.isDigit
      if fraction.isEmpty then none else return cs.drop fraction.length
    | cs => return cs
  | cs => return cs

def isOffset : List Char → Bool
  | ['Z'] => true
  | mark :: cs =>
    (mark = '+' || mark = '-') &&
      ((do
        let (hour, cs) ← digits? 2 cs
        let ':' :: cs := cs | none
        let (minute, cs) ← digits? 2 cs
        if hour ≤ 24 && minute ≤ 60 && cs.isEmpty then some () else none) : Option Unit).isSome
  | [] => false

/-- Whether a text is a date, a time of day, or both, with a difference from universal time or
without. -/
def isDate (cs : List Char) : Bool :=
  let cs := cs.map fun c => if c = 't' || c = ' ' then 'T' else if c = 'z' then 'Z' else c
  match calendarDay? cs with
  | some [] => true
  | some ('T' :: time) =>
    match timeOfDay? time with
    | some rest => rest.isEmpty || isOffset rest
    | none => false
  | some _ => false
  | none => timeOfDay? cs == some []

def isDateChar (c : Char) : Bool := c.isDigit || ['-', ':', 'T', 't', ' ', '.', 'Z', 'z', '+'].contains c

/-- The characters that a number with a fraction or an exponent is read up to. -/
def isFloatChar (c : Char) : Bool := c.isDigit || ['_', '.', '-', '+', 'e', 'E'].contains c

def trimSpaces (cs : List Char) : List Char :=
  ((cs.dropWhile isSpace).reverse.dropWhile isSpace).reverse

def basedNumber? (mark : Char) (isDigit : Char → Bool) (cs : List Char) :
    Option (Value × List Char) := do
  let c ← cs.head?
  if !isDigit c then none
  let body := cs.takeWhile fun c => isDigit c || c = '_'
  let v ← integer? ('0' :: mark :: body)
  return (.int v, cs.drop body.length)

/-- Reads a number or, if dates are allowed, a date. What kind it is shows at the first character
behind its leading digits. -/
def decimal? (dates : Bool) (cs : List Char) : Option (Value × List Char) :=
  let (sign, body) := match cs with
    | '+' :: rest => (['+'], rest)
    | '-' :: rest => (['-'], rest)
    | _ => ([], cs)
  let lead := body.takeWhile Char.isDigit
  let behind := body.drop lead.length
  let whole := if behind.head? = some '_' then body.takeWhile fun c => c.isDigit || c = '_' else lead
  let next := (body.drop whole.length).head?
  if dates && 2 ≤ lead.length && (behind.head? = some '-' || behind.head? = some ':') then
    let text := body.takeWhile isDateChar
    if isDate (trimSpaces text) then some (.date, body.drop text.length) else none
  else if dates && lead != ['0'] && (behind.head? = some '-' || behind.head? = some ':') then none
  else if next = some '.' || next = some 'e' || next = some 'E' then
    let text := whole ++ (body.drop whole.length).takeWhile isFloatChar
    if isFloat (sign ++ text) then some (.float, body.drop text.length) else none
  else (integer? (sign ++ whole)).map fun v => (.int v, body.drop whole.length)

def scalar? (cs : List Char) : Option (Value × List Char) :=
  match cs with
  | '0' :: 'x' :: rest => basedNumber? 'x' isHexDigit rest
  | '0' :: 'o' :: rest => basedNumber? 'o' (fun c => '0' ≤ c && c ≤ '7') rest
  | '0' :: 'b' :: rest => basedNumber? 'b' (fun c => c = '0' || c = '1') rest
  | 'i' :: 'n' :: 'f' :: rest => some (.float, rest)
  | 'n' :: 'a' :: 'n' :: rest => some (.float, rest)
  | c :: rest =>
    if c.isDigit then decimal? true cs
    else if c = '+' || c = '-' then
      match rest with
      | 'i' :: 'n' :: 'f' :: rest => some (.float, rest)
      | 'n' :: 'a' :: 'n' :: rest => some (.float, rest)
      | '0' :: mark :: _ =>
        if mark = 'b' || mark = 'o' || mark = 'x' then none else decimal? false cs
      | d :: _ => if d.isDigit then decimal? false cs else none
      | [] => none
    else
      let word := cs.takeWhile Text.isLetter
      if word = "true".toList then some (.bool true, cs.drop 4)
      else if word = "false".toList then some (.bool false, cs.drop 5)
      else none
  | [] => none

end Toml
end TypedScript
