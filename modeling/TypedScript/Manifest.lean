import TypedScript.Path
import TypedScript.Text.Quoted
import TypedScript.Text.Utf8
import TypedScript.Toml.Reader

/-!
# Project files

A project file names the project, says what is compiled to where, and how it is run. Names of settings
are not sensitive to case; a setting that does not exist is refused.
-/

namespace TypedScript

/-- The settings of a project. The directory is where the project file is. -/
structure Manifest where
  name : String
  version : String
  entry : String
  output : String
  warningsAsErrors : Bool
  dump : List String
  seed? : Option Int
  maxDepth : Int
  directory : String
  deriving DecidableEq, Repr

/-- Why a text is no project file. -/
inductive ManifestFault
  | malformed
  | unknownKey (key : String)
  | unknownForm (form : String)
  deriving DecidableEq, Repr

def ManifestFault.message : ManifestFault → String
  | malformed => "malformed settings"
  | unknownKey key => "unknown key " ++ key
  | unknownForm form => "build.dump: unknown form " ++ Text.quote form

namespace Manifest

def fileName : String := "tern.toml"

def imageEnding : String := ".ternc"

/-- The settings of a project file that says nothing. -/
def blank : Manifest := ⟨"", "", "", "", false, [], none, 0, ""⟩

/-- A character without regard to case; two characters outside of ASCII count as letters of it. -/
def foldChar (c : Char) : Char :=
  if c = '\u017F' then 's' else if c = '\u212A' then 'k' else c.toLower

def foldCase (s : String) : String := String.ofList (s.toList.map foldChar)

def known : List (String × List String) :=
  [("project", ["name", "version"]),
    ("build", ["entry", "output", "warnings-as-errors", "dump"]),
    ("run", ["seed", "max-depth"])]

/-- Whether a key names a section or a setting that exists. -/
def isKnown (p : Toml.Path) : Bool :=
  match p.map foldCase with
  | [section_] => known.any fun s => s.1 == section_
  | [section_, name] => known.any fun s => s.1 == section_ && s.2.contains name
  | _ => false

def partText (part : String) : String :=
  let escapedChar (c : Char) : String :=
    if c = '"' then "\\\""
    else if c = '\\' then "\\\\"
    else if c.toNat < 0x20 || c.toNat = 0x7F then
      match c.toNat with
      | 8 => "\\b"
      | 9 => "\\t"
      | 10 => "\\n"
      | 12 => "\\f"
      | 13 => "\\r"
      | n => "\\u" ++ Text.hexadecimal 4 n
    else String.singleton c
  if !part.isEmpty && part.toList.all Toml.isBareChar then part
  else "\"" ++ String.join (part.toList.map escapedChar) ++ "\""

def keyText (p : Toml.Path) : String := String.intercalate "." (p.map partText)

def texts? : List Toml.Value → Option (List String)
  | [] => some []
  | .text s :: rest => (texts? rest).map (s :: ·)
  | _ => none

/-- Takes over a setting; the value has to be of its type. -/
def set? (m : Manifest) (section_ name : String) (v : Toml.Value) : Option Manifest :=
  match foldCase section_, foldCase name, v with
  | "project", "name", .text s => some { m with name := s }
  | "project", "version", .text s => some { m with version := s }
  | "build", "entry", .text s => some { m with entry := s }
  | "build", "output", .text s => some { m with output := s }
  | "build", "warnings-as-errors", .bool b => some { m with warningsAsErrors := b }
  | "build", "dump", .array items => (texts? items).map fun dump => { m with dump }
  | "run", "seed", .int v => some { m with seed? := some v }
  | "run", "max-depth", .int v => some { m with maxDepth := v }
  | _, _, _ => if isKnown [section_, name] then none else some m

def setAll? (section_ : String) : Manifest → Toml.Table → Option Manifest
  | m, [] => some m
  | m, (name, v) :: rest => do
    setAll? section_ (← m.set? section_ name v) rest

/-- Takes over the sections; those that exist have to be tables. -/
def ofTable? : Manifest → Toml.Table → Option Manifest
  | m, [] => some m
  | m, (section_, v) :: rest =>
    match v with
    | .table entries => do
      ofTable? (← setAll? section_ m entries) rest
    | _ => if isKnown [section_] then none else ofTable? m rest

def forms : List String := ["bound", "lowered", "asm"]

def withDefaults (m : Manifest) : Manifest :=
  let name := if m.name.isEmpty then "main" else m.name
  { m with
    name
    entry := if m.entry.isEmpty then "main.tern" else m.entry
    output := if m.output.isEmpty then name ++ imageEnding else m.output }

def parse (text : String) : Except ManifestFault Manifest :=
  match Toml.parse? text with
  | none => .error .malformed
  | some d =>
    match ofTable? blank d.root with
    | none => .error .malformed
    | some m =>
      match d.keys.reverse.find? fun p => !isKnown p with
      | some p => .error (.unknownKey (keyText p))
      | none =>
        match m.dump.find? fun f => !forms.contains f with
        | some f => .error (.unknownForm f)
        | none => .ok m.withDefaults

def resolve (m : Manifest) (path : String) : String :=
  if Path.isAbsolute path then path else Path.join [m.directory, path]

def entryPath (m : Manifest) : String := m.resolve m.entry

def outputPath (m : Manifest) : String := m.resolve m.output

def dumps (m : Manifest) (form : String) : Bool := m.dump.contains form

end Manifest
end TypedScript
