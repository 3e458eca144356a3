import TypedScript.Dispatch

/-!
# The program

The commands on the system that the process runs on.
-/

namespace TypedScript

def FileFault.ofSystem : IO.Error → FileFault
  | .noFileOrDirectory _ _ _ => .missing
  | .inappropriateType _ _ _ => .isDirectory
  | .permissionDenied _ _ _ => .denied
  | e => .other (toString e)

def attempt {α : Type} (operation : IO α) : IO (Except FileFault α) := do
  match ← operation.toBaseIO with
  | .ok a => return .ok a
  | .error e => return .error (.ofSystem e)

def Host.system : Host IO where
  readFile path := attempt do
    return (← IO.FS.readBinFile path).toList
  isThere path := do
    match ← attempt (IO.FS.readBinFile path) with
    | .error .missing => return false
    | _ => return true
  writeFile path content := attempt (IO.FS.writeBinFile path ⟨content.toArray⟩)
  workingDirectory := return (← IO.currentDir).toString
  homeDirectory := return (← IO.getEnv "HOME").getD ""
  print s := do
    let out ← IO.getStdout
    out.putStr s
    out.flush
  complain s := do
    (← IO.getStderr).putStr s
  readLine := do
    let line ← (← IO.getStdin).getLine
    return if line.isEmpty then none else some line
  now := IO.monoMsNow

end TypedScript

def main (arguments : List String) : IO UInt32 := do
  return UInt32.ofNat (← TypedScript.Command.dispatch TypedScript.Host.system 0x1000000000000000 arguments)
