import TypedScript.Host.Basic
import TypedScript.Path
import TypedScript.Text.Utf8

/-!
# A host in memory

Files, streams and the clock as plain data. A directory is there when it is named or a file lies
below it.
-/

namespace TypedScript

/-- The state of a host in memory. The names of files and directories are the steps from the root. -/
structure World where
  files : List (List String × List UInt8)
  directories : List (List String)
  workingDirectory : String
  homeDirectory : String
  input : List Char
  output : String
  complaints : String

namespace World

def file? (w : World) (steps : List String) : Option (List UInt8) :=
  (w.files.find? fun f => f.1 == steps).map Prod.snd

def isDirectory (w : World) (steps : List String) : Bool :=
  steps.isEmpty || w.directories.any (steps.isPrefixOf ·) ||
    w.files.any fun f => steps.isPrefixOf f.1 && f.1 != steps

/-- Follows a path from a place, step by step; only directories can be gone through. -/
def follow (w : World) (place : List String) : List String → Except FileFault (List String)
  | [] => .ok place
  | step :: rest =>
    if w.isDirectory place then
      if step == "" || step == "." then w.follow place rest
      else if step == ".." then w.follow place.dropLast rest
      else w.follow (place ++ [step]) rest
    else if (w.file? place).isSome then .error .notDirectory
    else .error .missing

def locate (w : World) (path : String) : Except FileFault (List String) :=
  if path.isEmpty then .error .missing
  else
    let full := if Path.isAbsolute path then path else w.workingDirectory ++ "/" ++ path
    w.follow [] (Text.split '/' full)

def readFile (w : World) (path : String) : Except FileFault (List UInt8) := do
  let steps ← w.locate path
  match w.file? steps with
  | some content => return content
  | none => if w.isDirectory steps then throw .isDirectory else throw .missing

def isThere (w : World) (path : String) : Bool :=
  match w.locate path with
  | .ok steps => (w.file? steps).isSome || w.isDirectory steps
  | .error _ => false

def writeFile (w : World) (path : String) (content : List UInt8) : Except FileFault World := do
  let steps ← w.locate path
  if w.isDirectory steps then throw .isDirectory
  else if !w.isDirectory steps.dropLast then throw .missing
  else return { w with files := (steps, content) :: w.files.filter fun f => f.1 != steps }

def takeLine (w : World) : Option String × World :=
  if w.input.isEmpty then (none, w)
  else
    let line := w.input.takeWhile (· != '\n')
    let ending := (w.input.drop line.length).take 1
    (some (String.ofList (line ++ ending)), { w with input := w.input.drop (line.length + 1) })

end World

/-- The host in memory. Its clock stands still. -/
def Host.memory : Host (StateM World) where
  readFile path := return (← get).readFile path
  isThere path := return (← get).isThere path
  writeFile path content := do
    match (← get).writeFile path content with
    | .ok w => set w; return .ok ()
    | .error f => return .error f
  workingDirectory := return (← get).workingDirectory
  homeDirectory := return (← get).homeDirectory
  print s := modify fun w => { w with output := w.output ++ s }
  complain s := modify fun w => { w with complaints := w.complaints ++ s }
  readLine := modifyGet World.takeLine
  now := return 0

end TypedScript
