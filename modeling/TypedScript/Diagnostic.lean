import TypedScript.Source.Position

/-!
# Diagnostics

What is reported about a program: how bad it is, what kind of thing it is, a message, and the span it
is about. A report keeps its diagnostics in the order in which they were found.
-/

namespace TypedScript

/-- How bad a diagnostic is. Only an error keeps a program from being compiled. -/
inductive Severity
  | error
  | warning
  | other (code : UInt8)
  deriving DecidableEq, Repr

namespace Severity

def ofCode (code : UInt8) : Severity :=
  if code = 0 then error else if code = 1 then warning else other code

def name : Severity → String
  | warning => "warning"
  | _ => "error"

end Severity

/-- What kind of thing a diagnostic is about. -/
inductive Topic
  | grammar
  | name
  | type
  | assignment
  | importing
  | flow
  | unreachable
  | unused
  | other (code : UInt8)
  deriving DecidableEq, Repr

namespace Topic

def numbered : List Topic :=
  [grammar, name, type, assignment, importing, flow, unreachable, unused]

def ofCode (code : UInt8) : Topic := (numbered[code.toNat]?).getD (other code)

def label : Topic → String
  | grammar => "syntax"
  | name => "name"
  | type => "type"
  | assignment => "assignment"
  | importing => "import"
  | flow => "flow"
  | unreachable => "unreachable"
  | unused => "unused"
  | other code => "code(" ++ toString code ++ ")"

end Topic

/-- A single thing that is reported. -/
structure Diagnostic where
  severity : Severity
  topic : Topic
  message : String
  span? : Option Span
  deriving DecidableEq, Repr

namespace Diagnostic

def isError (d : Diagnostic) : Bool := d.severity = .error

def text (d : Diagnostic) : String :=
  let body := d.severity.name ++ "[" ++ d.topic.label ++ "]: " ++ d.message
  match d.span? with
  | none => body
  | some s => toString s.start.line ++ ":" ++ toString s.start.column ++ ": " ++ body

end Diagnostic

/-- The diagnostics of a compilation, in the order in which they were found. -/
structure Report where
  items : Array Diagnostic
  deriving DecidableEq, Repr

namespace Report

def empty : Report := ⟨#[]⟩

def add (r : Report) (d : Diagnostic) : Report := ⟨r.items.push d⟩

def error (r : Report) (topic : Topic) (span : Span) (message : String) : Report :=
  r.add ⟨.error, topic, message, some span⟩

def warn (r : Report) (topic : Topic) (span : Span) (message : String) : Report :=
  r.add ⟨.warning, topic, message, some span⟩

def size (r : Report) : Nat := r.items.size

def hasErrors (r : Report) : Bool := r.items.any Diagnostic.isError

def errors (r : Report) : List Diagnostic := r.items.toList.filter Diagnostic.isError

def count (r : Report) (topic : Topic) : Nat := (r.items.toList.filter (·.topic = topic)).length

def promote (r : Report) : Report := ⟨r.items.map fun d => { d with severity := .error }⟩

def text (r : Report) : String :=
  String.intercalate "\n" (r.items.toList.map Diagnostic.text)

end Report
end TypedScript
