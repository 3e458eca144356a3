import TypedScript.Compile
import TypedScript.Bytecode.Listing
import TypedScript.Flat.Printer
import TypedScript.Machine.Run
import TypedScript.Text.Blank
import TypedScript.Text.Split

/-!
# Interactive sessions

Inputs are taken one after the other. Declarations are kept if they compile and stand before every
later input; anything else is run. Inputs that start with a colon are commands to the session itself.
-/

namespace TypedScript

/-- The declarations that have been kept, in order. -/
structure Session where
  declarations : List String
  deriving DecidableEq, Repr

/-- What an input brings forth: output of the program, and what the session itself writes. -/
structure Reply where
  program : String
  out : String
  err : String
  deriving DecidableEq, Repr

/-- How many braces and parentheses are open at the end of a text. It is negative if more are
closed. -/
def openBrackets (source : List Glyph) : Int :=
  (tokenize source).foldl (fun n t =>
    match t.kind with
    | .leftBrace | .leftParen => n + 1
    | .rightBrace | .rightParen => n - 1
    | _ => n) 0

namespace Session

def start : Session := ⟨[]⟩

def silence : Reply := ⟨"", "", ""⟩

def fullText (s : Session) (input : String) : String :=
  String.intercalate "\n" (s.declarations ++ [input])

def compileInput (s : Session) (input : String) : Except Defect Compilation :=
  compile (Glyph.ofString (s.fullText input)) ⟨"repl", "repl", false⟩

def complaints (c : Compilation) : String :=
  String.join (c.report.items.toList.map fun d => d.text ++ "\n")

def isDeclaration (input : String) : Bool :=
  let (file, errors) := Parsed.parse (Glyph.ofString input)
  errors.isEmpty && file.statements.isEmpty

def runReply (err : String) : RunResult × Machine → Option Reply
  | (.ended _ (some f), m) => some ⟨m.output, "", err ++ f.text ++ "\n"⟩
  | (.ended code none, m) =>
    some ⟨m.output, if code = 0 then "" else "exit " ++ toString code ++ "\n", err⟩
  | _ => none

/-- Takes an input that is no command. Nothing comes of a program that does not end within the
fuel. -/
def evaluate (fuel : Nat) (s : Session) (input : String) :
    Except Defect (Option (Reply × Session)) := do
  let c ← s.compileInput input
  let err := complaints c
  match c.module? with
  | none => return some (⟨"", "", err⟩, s)
  | some m =>
    if isDeclaration input then
      return some (⟨"", "", err⟩, { s with declarations := s.declarations ++ [input] })
    else if m.entry < 0 then return some (⟨"", "", err⟩, s)
    else
      match Machine.load m .standard with
      | .error f => return f.message?.map fun text => (⟨"", "", err ++ text ++ "\n"⟩, s)
      | .ok machine => return (runReply err (machine.run fuel)).map fun reply => (reply, s)

def help : String :=
  "  :decls          list the declarations kept so far\n" ++
  "  :reset          forget all declarations\n" ++
  "  :lowered <src>  show the lowered form of an input\n" ++
  "  :asm <src>      show the disassembly of an input\n" ++
  "  :quit           exit\n"

/-- The forms in which a command can show an input. -/
inductive Form
  | lowered | assembly
  deriving DecidableEq, Repr

def view (s : Session) (form : Form) (input : String) : Except Defect Reply := do
  let c ← s.compileInput input
  let err := complaints c
  match form, c.analysis?, c.module? with
  | .lowered, some a, _ => return ⟨"", ← a.flat.listing a.registry, err⟩
  | .assembly, some _, some m => return ⟨"", m.listing?.getD "", err⟩
  | _, _, _ => return ⟨"", "", err⟩

def firstWord (text : String) : String :=
  String.ofList ((text.toList.dropWhile Text.isBlank).takeWhile fun c => !Text.isBlank c)

def behind (word text : String) : String :=
  Text.trim (if Text.startsWith text word then String.ofList (text.toList.drop word.length) else text)

/-- Takes a command, of which the first word decides; a text without words is none. There is no
session left after the command to end it. -/
def command (s : Session) (text : String) : Except Defect (Option (Reply × Option Session)) := do
  let word := firstWord text
  match word with
  | "" => return none
  | ":quit" | ":q" => return some (silence, none)
  | ":help" | ":h" | ":?" => return some (⟨"", help, ""⟩, some s)
  | ":decls" => return some (⟨"", String.join (s.declarations.map (· ++ "\n")), ""⟩, some s)
  | ":reset" => return some (silence, some start)
  | ":lowered" => return some (← s.view .lowered (behind word text), some s)
  | ":asm" => return some (← s.view .assembly (behind word text), some s)
  | _ =>
    return some (⟨"", "unknown command " ++ word ++ ". Type :help for a list.\n", ""⟩, some s)

end Session
end TypedScript
