import TypedScript.Command
import TypedScript.Interactive

/-!
# Choosing a command

The first argument names the command; it gets the others.
-/

namespace TypedScript
namespace Command

variable {m : Type → Type} [Monad m] (h : Host m)

/-- Carries out a command and gives its exit code. The language server has no client here, so it ends
at once. -/
def perform (fuel : Nat) (command : String) (arguments : List String) : m Int := do
  match command with
  | "build" => withFlags h command buildFlags arguments (build h)
  | "run" => withFlags h command runFlags arguments (run h)
  | "check" => withFlags h command checkFlags arguments (check h)
  | "dump" => withFlags h command dumpFlags arguments (dump h)
  | "lsp" => withFlags h command checkFlags arguments fun _ _ => return 0
  | "repl" => Interactive.session h fuel
  | "help" | "-h" | "--help" =>
    h.complain usage
    return 0
  | _ =>
    h.complain ("unknown command " ++ Text.quote command ++ "\n\n" ++ usage)
    return 2

/-- Carries out what the arguments of a process say and gives its status. -/
def dispatch (fuel : Nat) : List String → m Nat
  | [] => do
    h.complain usage
    return 2
  | command :: arguments => return status (← perform h fuel command arguments)

end Command
end TypedScript
