import TypedScript.Host.Basic
import TypedScript.Path
import TypedScript.Session
import TypedScript.Text.Utf8

/-!
# Sessions on a host

An interactive session reads inputs from a host line by line. An input goes on while brackets are
open. What was entered is kept in a history from one session to the next.
-/

namespace TypedScript
namespace Interactive

def greeting : String := "Tern REPL (:help for commands, :quit to exit)\n"

def firstPrompt : String := "tern> "

def nextPrompt : String := "....> "

def historyName : String := ".tern_history"

def historyLimit : Nat := 1000

abbrev History := List String

namespace History

/-- The history with an entry more. The oldest goes when there are too many. -/
def add (history : History) (entry : String) : History := (entry :: history).take historyLimit

/-- The history with an input more, unless it repeats the latest. -/
def record (history : History) (input : String) : History :=
  let entry := String.ofList (input.toList.map fun c => if c = '\n' then ' ' else c)
  if history.head? = some entry then history else history.add entry

def bytes (history : History) : List UInt8 :=
  (history.reverse.map fun entry => Text.bytes (entry ++ "\n")).flatten

/-- The lines of a file, without a carriage return before the end. -/
def fileLines : List UInt8 → List (List UInt8)
  | [] => []
  | b :: rest =>
    if b = 10 then [] :: fileLines rest
    else match rest, fileLines rest with
      | 10 :: _, line :: others => (if b = 13 then line else b :: line) :: others
      | _, line :: others => (b :: line) :: others
      | _, [] => [[b]]

def longestLine : Nat := 4095

/-- The history in a file, up to the first line that is too long or no text. -/
def ofFile (content : List UInt8) : History :=
  go [] (fileLines content)
where
  go (history : History) : List (List UInt8) → History
    | [] => history
    | line :: rest =>
      if longestLine < line.length then history
      else match Text.ofBytes? line with
        | none => history
        | some entry => go (history.add entry) rest

end History

def withoutEnd (line : String) : String :=
  match line.toList.reverse with
  | '\n' :: '\r' :: rest => String.ofList rest.reverse
  | '\n' :: rest => String.ofList rest.reverse
  | _ => line

section Hosted

variable {m : Type → Type} [Monad m] (h : Host m)

/-- Reads an input behind the lines that it has so far. There is none when the lines end before it
does. -/
def readInput : Nat → String → m (Option String)
  | 0, _ => return none
  | fuel + 1, soFar => do
    h.print (if soFar.isEmpty then firstPrompt else nextPrompt)
    match ← h.readLine with
    | none => return none
    | some line =>
      let text := if soFar.isEmpty then withoutEnd line else soFar ++ "\n" ++ withoutEnd line
      if openBrackets (Glyph.ofString text) ≤ 0 then return some text else readInput fuel text

def say (r : Reply) : m Unit := do
  h.complain r.err
  h.print (r.program ++ r.out)

def take (fuel : Nat) (s : Session) (input : String) : m (Option Session) := do
  let trimmed := Text.trim input
  if Text.startsWith trimmed ":" then
    match s.command trimmed with
    | .error d => h.complain (d.message ++ "\n"); return none
    | .ok none => return some s
    | .ok (some (reply, s?)) => say h reply; return s?
  else
    match s.evaluate fuel input with
    | .error d => h.complain (d.message ++ "\n"); return none
    | .ok none => return some s
    | .ok (some (reply, s)) => say h reply; return some s

/-- Takes inputs until there are no more or one ends the session, and gives the history. -/
def loop (fuel : Nat) : Nat → Session → History → m History
  | 0, _, history => return history
  | n + 1, s, history => do
    match ← readInput h fuel "" with
    | none =>
      h.print "\n"
      return history
    | some input =>
      if (Text.trim input).isEmpty then loop fuel n s history
      else
        let history := history.record input
        match ← take h fuel s input with
        | none => return history
        | some s => loop fuel n s history

def session (fuel : Nat) : m Int := do
  h.print greeting
  let path := Path.join [← h.homeDirectory, historyName]
  let history ← match ← h.readFile path with
    | .ok content => pure (History.ofFile content)
    | .error _ => pure []
  let history ← loop h fuel fuel .start history
  let _ ← h.writeFile path history.bytes
  return 0

end Hosted
end Interactive
end TypedScript
