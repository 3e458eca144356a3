import TypedScript.Bound.Printer
import TypedScript.Flags
import TypedScript.Host.Basic
import TypedScript.Image.Basic
import TypedScript.Manifest
import TypedScript.Session

/-!
# The command line

The commands compile, run, check and show programs, and hold interactive sessions. A source file
belongs to the project whose file is nearest above it; without a source file the entry of the project
is used.
-/

namespace TypedScript
namespace Command

def usage : String :=
  "Usage: tern <command> [options] [file]\n\n" ++
  "Commands:\n" ++
  "  build   compile a source file to a module image\n" ++
  "  run     compile and run a source file, or run an image\n" ++
  "  check   report diagnostics only\n" ++
  "  dump    print the bound tree, lowered form or disassembly\n" ++
  "  lsp     start the language server on stdio\n" ++
  "  repl    start an interactive session\n" ++
  "\nWithout a file, the entry of the nearest " ++ Manifest.fileName ++ " is used.\n" ++
  "\nExamples:\n" ++
  "  tern run hello.tern\n" ++
  "  tern build -o out.ternc hello.tern\n" ++
  "  tern dump -lowered -asm hello.tern\n"

/-- The option that makes warnings count as errors. -/
def strictFlag : Flag := ⟨"W", .switch, "treat warnings as errors"⟩

def verboseFlag : Flag := ⟨"v", .switch, "verbose logging"⟩

def buildFlags : List Flag := [⟨"o", .text, "output image path"⟩, strictFlag, verboseFlag]

def runFlags : List Flag :=
  [⟨"seed", .int, "seed for std.math.random (0 uses the manifest or the clock)"⟩, strictFlag,
    verboseFlag]

def checkFlags : List Flag := [strictFlag, verboseFlag]

def dumpFlags : List Flag :=
  [⟨"bound", .switch, "print the bound tree"⟩, ⟨"lowered", .switch, "print the lowered form"⟩,
    ⟨"asm", .switch, "print the disassembled module"⟩, verboseFlag]

/-- A source file and the project that it belongs to. -/
structure Project where
  source : String
  manifest? : Option Manifest
  deriving DecidableEq, Repr

namespace Project

/-- Whether the source file is the entry of the project; `path` is its absolute path. -/
def isEntry (p : Project) (path : String) : Bool :=
  p.manifest?.any fun m => m.entryPath == path

def options (p : Project) (path : String) (strict : Bool) : CompileOptions :=
  ⟨p.source, if p.isEntry path then (p.manifest?.map Manifest.name).getD "" else "",
    strict || p.manifest?.any Manifest.warningsAsErrors⟩

def output (p : Project) (path : String) (wish : String) : String :=
  if !wish.isEmpty then wish
  else if p.isEntry path then (p.manifest?.map Manifest.outputPath).getD ""
  else Text.dropEnding p.source (Path.extension p.source) ++ Manifest.imageEnding

end Project

def ancestors (steps : List String) : List String :=
  (List.range (steps.length + 1)).reverse.map fun n =>
    "/" ++ String.intercalate "/" (steps.take n)

def formsText (c : Compilation) (bound lowered assembly : Bool) : Except Defect String := do
  let trees ← match c.analysis? with
    | none => pure ""
    | some a => do
      let first ← if bound then pure ("; bound\n" ++ (← a.bound.listing a.registry)) else pure ""
      let second ←
        if lowered then pure ("; lowered\n" ++ (← a.flat.listing a.registry)) else pure ""
      pure (first ++ second)
  let code := match c.module? with
    | some m => if assembly then "; module\n" ++ m.stamped.listing?.getD "" else ""
    | none => ""
  return trees ++ code

def isImage (argument : String) : Bool := Text.endsWith argument Manifest.imageEnding

def imageArgument? : List String → Option String
  | [argument] => if isImage argument then some argument else none
  | _ => none

def status (code : Int) : Nat := (code % 256).toNat

section Hosted

variable {m : Type → Type} [Monad m] (h : Host m)

def refuse (message : String) : m Int := do
  h.complain ("Error: " ++ message ++ "\n")
  return 1

def reportDefect (d : Defect) : m Int := do
  h.complain (d.message ++ "\n")
  return 2

def absolute (path : String) : m String := do
  if Path.isAbsolute path then return Path.clean path
  else return Path.join [← h.workingDirectory, path]

def loadManifest (directory : String) : m (Except String Manifest) := do
  let path := Path.join [directory, Manifest.fileName]
  match ← h.readFile path with
  | .error f => return .error ("cannot read " ++ path ++ ": " ++ f.message path)
  | .ok bytes =>
    let parsed := match Text.ofBytes? bytes with
      | some text => Manifest.parse text
      | none => .error .malformed
    match parsed with
    | .ok manifest => return .ok { manifest with directory }
    | .error f => return .error ("parse error in " ++ path ++ ": " ++ f.message)

def firstManifest : List String → m (Except String (Option Manifest))
  | [] => return .ok none
  | directory :: rest => do
    if ← h.isThere (Path.join [directory, Manifest.fileName]) then
      return (← loadManifest h directory).map some
    else firstManifest rest

def findManifest (directory : String) : m (Except String (Option Manifest)) := do
  let place ← absolute h directory
  firstManifest h (ancestors ((Text.split '/' place).filter (· != "")))

def resolveProject (arguments : List String) : m (Except String Project) := do
  match arguments with
  | [] =>
    match ← findManifest h "." with
    | .error e => return .error e
    | .ok none =>
      return .error ("no source file given and no " ++ Manifest.fileName ++ " found")
    | .ok (some manifest) => return .ok ⟨manifest.entryPath, some manifest⟩
  | [source] =>
    match ← findManifest h (Path.directory source) with
    | .error e => return .error e
    | .ok manifest? => return .ok ⟨source, manifest?⟩
  | _ =>
    return .error ("expected one source file, got " ++ toString arguments.length)

def compileFile (p : Project) (strict : Bool) : m (Except (m Int) (Compilation × String)) := do
  match ← h.readFile p.source with
  | .error f => return .error (refuse h (f.message p.source))
  | .ok bytes =>
    let path ← absolute h p.source
    match compile (Glyph.ofBytes bytes) (p.options path strict) with
    | .error d => return .error (reportDefect h d)
    | .ok c =>
      h.complain (String.join (c.report.items.toList.map fun d =>
        p.source ++ ":" ++ d.text ++ "\n"))
      return .ok (c, path)

def compileProject (arguments : List String) (strict : Bool)
    (next : Project → Compilation → String → m Int) : m Int := do
  match ← resolveProject h arguments with
  | .error e => refuse h e
  | .ok p =>
    match ← compileFile h p strict with
    | .error failed => failed
    | .ok (c, path) => next p c path

def printForms (c : Compilation) (bound lowered assembly : Bool) (next : m Int) : m Int := do
  match formsText c bound lowered assembly with
  | .error d => reportDefect h d
  | .ok text =>
    h.print text
    next

/-- Compiles a source file to a module image. -/
def build (values : FlagValues) (arguments : List String) : m Int :=
  compileProject h arguments (values.isOn "W") fun p c path => do
    match c.module? with
    | none => return 1
    | some module =>
      let asked (form : String) : Bool := p.manifest?.any fun manifest => manifest.dumps form
      printForms h c (asked "bound") (asked "lowered") (asked "asm") do
        let output := p.output path (values.text "o")
        match ← h.writeFile output module.image with
        | .error f => refuse h ("vm: save image: " ++ f.message output)
        | .ok () =>
          if values.isOn "v" then
            h.print ("Wrote " ++ output ++ " (module " ++ module.contentId ++ ")\n")
          return 0

def loadImage (path : String) : m (Except String Module) := do
  match ← h.readFile path with
  | .error f => return .error ("vm: load image: " ++ f.message path)
  | .ok bytes =>
    match Module.ofImage bytes with
    | .ok module => return .ok module
    | .error f => return .error (path ++ ": " ++ f.message?.getD "vm: decode image")

/-- How many steps a program takes before its output is written and its clock is set. -/
def slice : Nat := 100000

/-- Writes what a program has put out so far, and sets its clock. -/
def synchronize (started : Nat) (machine : Machine) : m Machine := do
  let (text, machine) := machine.takeOutput
  h.print text
  let now ← h.now
  return { machine with clock := { machine.clock with now := (now : Int) - started } }

/-- Gives a program the next line of the input. -/
def feed (machine : Machine) : m Machine := do
  match ← h.readLine with
  | none => return { machine with input := { machine.input with ended := true } }
  | some line =>
    return { machine with
      input := { machine.input with pending := machine.input.pending ++ line.toList } }

def follow (started : Nat) : Nat → RunResult × Machine → m Int
  | 0, _ => return 1
  | fuel + 1, (result, machine) => do
    let machine ← synchronize h started machine
    match result with
    | .ended code fault? =>
      match fault? with
      | some f => h.complain (f.text ++ "\n")
      | none => pure ()
      return code
    | .crashed message? =>
      h.complain ("panic: " ++ message?.getD "invalid module" ++ "\n")
      return 2
    | .unfinished awaitsInput current rest =>
      let machine ← if awaitsInput then feed h machine else pure machine
      follow started fuel (machine.proceed slice current rest)

def execute (module : Module) (seed? : Option Int) (maxDepth? : Option Int) : m Int := do
  let started ← h.now
  let seed := UInt64.ofInt (seed?.getD started)
  match Machine.load module ⟨⟨[], false⟩, 0, maxDepth?.getD defaultMaxDepth, seed⟩ with
  | .error f => refuse h (f.message?.getD "invalid module")
  | .ok machine => follow h started 0x1000000000000000 (machine.run slice)

/-- Compiles and runs a source file, or runs a module image. -/
def run (values : FlagValues) (arguments : List String) : m Int := do
  let wish := values.int "seed"
  let seed? (other : Option Int) : Option Int := if wish = 0 then other else some wish
  match imageArgument? arguments with
  | some path =>
    match ← loadImage h path with
    | .error e => refuse h e
    | .ok module => execute h module (seed? none) none
  | none =>
    compileProject h arguments (values.isOn "W") fun p c _ => do
      match c.module? with
      | none => return 1
      | some module =>
        let depth? := (p.manifest?.map Manifest.maxDepth).bind fun d =>
          if 0 < d then some d else none
        execute h module (seed? (p.manifest?.bind Manifest.seed?)) depth?

def check (values : FlagValues) (arguments : List String) : m Int :=
  compileProject h arguments (values.isOn "W") fun _ c _ =>
    return if c.report.hasErrors then 1 else 0

/-- Shows the forms of a source file, or the listing of a module image. -/
def dump (values : FlagValues) (arguments : List String) : m Int := do
  let bound := values.isOn "bound"
  let lowered := values.isOn "lowered"
  let assembly := values.isOn "asm" || (!bound && !lowered)
  match imageArgument? arguments with
  | some path =>
    match ← loadImage h path with
    | .error e => refuse h e
    | .ok module =>
      h.print (module.listing?.getD "")
      return 0
  | none =>
    compileProject h arguments false fun _ c _ =>
      printForms h c bound lowered assembly do
        return if c.report.hasErrors then 1 else 0

def withFlags (name : String) (flags : List Flag) (arguments : List String)
    (next : FlagValues → List String → m Int) : m Int := do
  match readFlags flags [] arguments with
  | .ok (values, rest) => next values rest
  | .error f =>
    h.complain ((f.message?.map (· ++ "\n")).getD "" ++ commandUsage name flags)
    return 2

end Hosted
end Command
end TypedScript
