/-!
# Hosts

What a command needs of the system that it runs on: files, a working directory, standard streams and a
clock. The commands are written against this interface, so that they can run on files held in memory.
-/

namespace TypedScript

/-- Why a file cannot be read. -/
inductive FileFault
  | missing
  | notDirectory
  | isDirectory
  | denied
  | other (reason : String)
  deriving DecidableEq, Repr

def FileFault.message (path : String) : FileFault → String
  | missing => "open " ++ path ++ ": no such file or directory"
  | notDirectory => "open " ++ path ++ ": not a directory"
  | isDirectory => "read " ++ path ++ ": is a directory"
  | denied => "open " ++ path ++ ": permission denied"
  | other reason => "read " ++ path ++ ": " ++ reason

/-- A system to run on. A line is read with the character that ends it, and nothing is left to read
when there is none. -/
structure Host (m : Type → Type) where
  readFile : String → m (Except FileFault (List UInt8))
  isThere : String → m Bool
  writeFile : String → List UInt8 → m (Except FileFault Unit)
  workingDirectory : m String
  homeDirectory : m String
  print : String → m Unit
  complain : String → m Unit
  readLine : m (Option String)
  now : m Nat

end TypedScript
