import TypedScript.Toml.Document
import TypedScript.Toml.Scalar

/-!
# Reading settings files

The grammar of settings files: lines with headers and assignments, comments, arrays and tables written
in braces.
-/

namespace TypedScript
namespace Toml

def behindComment (cs : List Char) : List Char := cs.dropWhile fun c => !isNewline c

/-- The rest of a text behind blanks, line ends and comments, read with fuel. -/
def behindFiller : Nat → List Char → List Char
  | 0, cs => cs
  | fuel + 1, cs =>
    match cs with
    | '#' :: rest => behindFiller fuel (behindComment rest)
    | c :: rest => if isSpace c || isNewline c then behindFiller fuel rest else cs
    | [] => []

def keyPart? (cs : List Char) : Option (String × List Char) :=
  match cs with
  | '"' :: rest => (basicText? (cs.length + 1) rest).map fun (s, rest) => (String.ofList s, rest)
  | '\'' :: rest => (rawText? rest).map fun (s, rest) => (String.ofList s, rest)
  | _ =>
    let name := cs.takeWhile isBareChar
    if name.isEmpty then none else some (String.ofList name, cs.drop name.length)

def key? (ending : Char) : Nat → List Char → Option (Path × List Char)
  | 0, _ => none
  | fuel + 1, cs => do
    let (part, cs) ← keyPart? (cs.dropWhile isSpace)
    match cs.dropWhile isSpace with
    | [] => none
    | c :: rest =>
      if c = ending then return ([part], rest)
      else if c = '.' then
        let (parts, rest) ← key? ending fuel rest
        return (part :: parts, rest)
      else none

mutual

/-- Reads a value of the key `key` in the current table; `isElement` says that it is an element of an
array. -/
def value? (key : String) (isElement : Bool) :
    Nat → Document → List Char → Option (Value × Document × List Char)
  | 0, _, _ => none
  | fuel + 1, d, cs =>
    let cs := cs.dropWhile isSpace
    match cs with
    | '[' :: rest => do
      let (items, d, rest) ← items? key fuel (d.noteKind key true) rest
      return (.array items, d, rest)
    | '\x7b' :: rest => do
      let outer := d.current
      let p := outer ++ [key]
      let d ← (d.imply p).enter? p isElement
      let (table, d, rest) ← entries? p fuel d [] rest
      return (.table table, { d with current := outer }, rest)
    | '"' :: _ | '\'' :: _ => (text? cs).map fun (s, rest) => (.text s, d, rest)
    | _ => (scalar? cs).map fun (v, rest) => (v, d, rest)

def items? (key : String) :
    Nat → Document → List Char → Option (List Value × Document × List Char)
  | 0, _, _ => none
  | fuel + 1, d, cs =>
    match behindFiller cs.length cs with
    | ']' :: rest => some ([], d, rest)
    | cs => do
      let (v, d, cs) ← value? key true fuel d cs
      match behindFiller cs.length cs with
      | ']' :: rest => return ([v], d, rest)
      | ',' :: rest =>
        let (items, d, rest) ← items? key fuel d rest
        return (v :: items, d, rest)
      | _ => none

/-- Reads the entries of a table in braces and its end; `p` is the path of the table and `table` what it
holds so far. -/
def entries? (p : Path) :
    Nat → Document → Table → List Char → Option (Table × Document × List Char)
  | 0, _, _, _ => none
  | fuel + 1, d, table, cs =>
    match behindFiller cs.length cs with
    | '\x7d' :: rest => some (table, d, rest)
    | cs => do
      let (parts, cs) ← key? '=' (cs.length + 1) cs
      let key := parts.getLast?.getD ""
      let d ← { d with current := p }.enterParts? parts.dropLast
      let d := d.noteKey (d.current ++ [key])
      let (v, d, cs) ← value? key false fuel d cs
      let d := (← d.set? key v).noteKind key false
      let d := match v with
        | .array _ => d.noteKind key true
        | _ => d
      let table ← table.insert? key v parts.dropLast
      match behindFiller cs.length cs with
      | '\x7d' :: rest => return (table, d, rest)
      | ',' :: rest => entries? p fuel d table rest
      | _ => none

end

/-- The rest of a text behind the end of a line, where only blanks and a comment may stand. -/
def behindLine? (cs : List Char) : Option (List Char) :=
  match cs.dropWhile isSpace with
  | [] => some []
  | '#' :: rest => some (behindComment rest)
  | c :: rest => if isNewline c then some rest else none

def header? (d : Document) (isElement : Bool) (cs : List Char) : Option (Document × List Char) := do
  let (p, cs) ← key? ']' (cs.length + 1) cs
  let cs ← if isElement then (if cs.head? = some ']' then some cs.tail else none) else some cs
  let d ← d.enter? p isElement
  return ((d.noteKind "" false).noteKey p, cs)

def assignment? (d : Document) (cs : List Char) : Option (Document × List Char) := do
  let outer := d.current
  let (parts, cs) ← key? '=' (cs.length + 1) cs
  let key := parts.getLast?.getD ""
  let d ← d.enterParts? parts.dropLast
  let d := d.noteKey (d.current ++ [key])
  let (v, d, cs) ← value? key false (cs.length + 1) d cs
  let d ← d.set? key v
  let isArray := match v with
    | .array _ => true
    | _ => false
  return ({ d.noteKind key isArray with current := outer }, cs)

def lines? : Nat → Document → List Char → Option Document
  | 0, _, _ => none
  | fuel + 1, d, cs =>
    match behindFiller (cs.length + 1) cs with
    | [] => some d
    | '[' :: '[' :: rest => do
      let (d, cs) ← header? d true rest
      lines? fuel d (← behindLine? cs)
    | '[' :: rest => do
      let (d, cs) ← header? d false rest
      lines? fuel d (← behindLine? cs)
    | cs => do
      let (d, cs) ← assignment? d cs
      lines? fuel d (← behindLine? cs)

/-- Whether a text has only characters that may stand in a file: no control characters but blanks and
line ends, and no carriage return except before a line feed. -/
def isClean : List Char → Bool
  | [] => true
  | '\r' :: rest => rest.head? = some '\n' && isClean rest
  | c :: rest => (0x20 ≤ c.toNat || c = '\t' || c = '\n') && c.toNat != 0x7F && isClean rest

/-- The document of a settings file. A mark of the byte order at the start does not count. -/
def parse? (text : String) : Option Document :=
  let cs := match text.toList with
    | '\uFEFF' :: rest => rest
    | cs => cs
  if isClean cs then lines? (cs.length + 1) .empty cs else none

end Toml
end TypedScript
