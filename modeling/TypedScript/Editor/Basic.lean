import TypedScript.Source.Position
import TypedScript.Text.Letter
import TypedScript.Text.Utf8
import TypedScript.Compile

/-!
# The word at the cursor, and editor support

Editors ask about a line and a column, both counted from zero. The column counts bytes, and a byte
belongs to a word if the character with its number is a letter, a digit or an underscore.
-/

namespace TypedScript
namespace Editor

/-- A place in a document, counted from zero. -/
structure Cursor where
  line : Nat
  column : Nat
  deriving DecidableEq, Repr

/-- A stretch of a document. -/
structure CursorRange where
  start : Cursor
  stop : Cursor
  deriving DecidableEq, Repr

def Cursor.ofPosition (p : Position) : Cursor := ⟨p.line - 1, p.column - 1⟩

def CursorRange.ofSpan (s : Span) : CursorRange := ⟨.ofPosition s.start, .ofPosition s.stop⟩

def isWordByte (b : UInt8) : Bool :=
  let c := Char.ofNat b.toNat
  Text.isLetter c || c.isDigit || c = '_'

def lines : List UInt8 → List (List UInt8)
  | [] => [[]]
  | b :: rest =>
    if b = 10 then [] :: lines rest
    else match lines rest with
      | [] => [[b]]
      | line :: others => (b :: line) :: others

def around? (text : String) (c : Cursor) : Option (List UInt8 × List UInt8) :=
  (lines (Text.bytes text))[c.line]?.map fun line => (line.take c.column, line.drop c.column)

def trailing (p : UInt8 → Bool) (line : List UInt8) : List UInt8 :=
  (line.reverse.takeWhile p).reverse

/-- The word that the cursor is in or next to; empty if there is none. -/
def wordAt (text : String) (c : Cursor) : List UInt8 :=
  match around? text c with
  | none => []
  | some (before, behind) => trailing isWordByte before ++ behind.takeWhile isWordByte

/-- The words and dots before the cursor; empty if there are none. -/
def pathBefore (text : String) (c : Cursor) : List UInt8 :=
  match around? text c with
  | none => []
  | some (before, _) => trailing (fun b => isWordByte b || b = 46) before

end Editor

/-!
## Editor support

The open documents of an editor, each with the compilation of its text. From them come the problems
that are shown in a document, the declaration of a name, the place of its definition, and what may
complete a word.
-/

structure Editor.Document where
  text : String
  compilation : Compilation

/-- The open documents. -/
structure Editor where
  warningsAsErrors : Bool
  documents : List (String × Editor.Document)

namespace Editor

def serverName : String := "tern-lsp"

def serverVersion : String := "0.1.0"

/-- The characters after which an editor asks for completions. -/
def triggers : List String := ["."]

/-- A problem that is shown in a document. -/
structure Problem where
  range : CursorRange
  isWarning : Bool
  message : String
  deriving DecidableEq, Repr

inductive CompletionKind
  | keyword | function | variable | library
  deriving DecidableEq, Repr

/-- A way to complete a word. -/
structure Completion where
  label : String
  kind : CompletionKind
  detail : String
  deriving DecidableEq, Repr

/-- A change of a document: its whole text, or a part of it. -/
inductive Change
  | whole (text : String)
  | part (text : String)
  deriving DecidableEq, Repr

def document? (e : Editor) (uri : String) : Option Document :=
  (e.documents.find? fun d => d.1 == uri).map Prod.snd

def close (e : Editor) (uri : String) : Editor :=
  { e with documents := e.documents.filter fun d => d.1 != uri }

def update (e : Editor) (uri text : String) : Except Defect (Document × Editor) := do
  let c ← compile (Glyph.ofString text) ⟨uri, "", e.warningsAsErrors⟩
  let d : Document := ⟨text, c⟩
  return (d, { e.close uri with documents := (uri, d) :: (e.close uri).documents })

/-- Takes over changes of a document. Only the last counts, and only if it gives the whole text. -/
def change (e : Editor) (uri : String) (changes : List Change) :
    Except Defect (Option Document × Editor) :=
  match changes.getLast? with
  | some (.whole text) => do
    let (d, e) ← e.update uri text
    return (some d, e)
  | _ => return (none, e)

/-- A diagnostic as it is shown. One without a place is shown at the start. -/
def Problem.ofDiagnostic (d : Diagnostic) : Problem :=
  ⟨(d.span?.map CursorRange.ofSpan).getD ⟨⟨0, 0⟩, ⟨0, 0⟩⟩, d.severity = .warning,
    d.message ++ " [" ++ d.topic.label ++ "]"⟩

def Document.problems (d : Document) : List Problem :=
  d.compilation.report.items.toList.map Problem.ofDiagnostic

def describe (r : Registry) (s : Symbol) : Except Defect String :=
  match s.kind with
  | .overloads => do
    let members ← r.members s.type
    let lines ← members.mapM fun m => return "func " ++ (← r.fullName m)
    return String.intercalate "\n" lines
  | .libraryField path => return "import " ++ path ++ ": " ++ (← r.name s.type)
  | _ =>
    return (if s.readonly then "const " else "var ") ++ s.name ++ ": " ++ (← r.name s.type)

def globalNamed? (f : Frame) (word : List UInt8) : Option Symbol :=
  f.symbols.find? fun s => Text.bytes s.name == word

def hover (e : Editor) (uri : String) (c : Cursor) : Except Defect (Option String) := do
  match e.document? uri with
  | none => return none
  | some d =>
    match d.compilation.analysis? with
    | none => return none
    | some a =>
      match globalNamed? a.globals (wordAt d.text c) with
      | none => return none
      | some s => return some (← describe a.registry s)

def hoverText (declaration : String) : String := "```tern\n" ++ declaration ++ "\n```"

def definition (e : Editor) (uri : String) (c : Cursor) : Option CursorRange := do
  let d ← e.document? uri
  let word := wordAt d.text c
  let file := d.compilation.file
  if word.isEmpty then none
  let named (name : String) : Bool := Text.bytes name == word
  let span ←
    ((file.functions.find? fun f => named f.name).map (·.span)) <|>
      ((file.globals.find? fun g => named g.name).map (·.span))
  return CursorRange.ofSpan span

def keywords : List String :=
  ["as", "break", "const", "continue", "else", "false", "for", "func", "if", "import", "new",
    "return", "true", "var", "while"]

def globalCompletions (a : Analysis) : Except Defect (List Completion) :=
  a.globals.names.filterMapM fun name => do
    match a.globals.find? name with
    | none => return none
    | some s =>
      let kind := if s.kind = .overloads then CompletionKind.function else .variable
      return some ⟨name, kind, ← describe a.registry s⟩

/-- All completions of a compilation: keywords, global names, and the names of the library. -/
def allCompletions (c : Compilation) : Except Defect (List Completion) := do
  let words := keywords.map fun k => Completion.mk k .keyword ""
  match c.analysis? with
  | none => return words
  | some a =>
    let globals ← globalCompletions a
    return words ++ globals ++ a.library.paths.map fun p => ⟨p, .library, ""⟩

def complete (e : Editor) (uri : String) (c : Cursor) : Except Defect (List Completion) := do
  match e.document? uri with
  | none => return []
  | some d =>
    let start := pathBefore d.text c
    if start.isEmpty then return []
    else return (← allCompletions d.compilation).filter fun x => start.isPrefixOf (Text.bytes x.label)

end Editor
end TypedScript
