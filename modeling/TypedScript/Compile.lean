import TypedScript.Binding.Program
import TypedScript.Bytecode.Emission
import TypedScript.Flat.Lowering
import TypedScript.Parsed.Parser
import TypedScript.Path

/-!
# Compilation

A source text is read, bound, flattened and, if nothing is wrong with it, turned into a module. What
each stage found stays available for tools.
-/

namespace TypedScript

/-- How to compile. The module's name is taken from the file's if it is not given. -/
structure CompileOptions where
  fileName : String
  moduleName : String
  warningsAsErrors : Bool
  deriving DecidableEq, Repr

def CompileOptions.name (o : CompileOptions) : String :=
  if !o.moduleName.isEmpty then o.moduleName
  else if o.fileName.isEmpty then "main"
  else Path.stem o.fileName

/-- What binding and flattening found. -/
structure Analysis where
  registry : Registry
  library : Library
  globals : Frame
  bound : Bound.Program
  flat : Flat.Program

/-- The outcome of a compilation. There is an analysis unless the text has mistakes of grammar, and a
module unless the report has errors. -/
structure Compilation where
  report : Report
  file : Parsed.File
  analysis? : Option Analysis
  module? : Option Module

def grammarReport (errors : Array Parsed.Error) : Report :=
  ⟨errors.map fun e => ⟨.error, .grammar, e.message, some e.span⟩⟩

def analyze (options : CompileOptions) (file : Parsed.File) : Except Defect (Report × Analysis) := do
  let (bound, s) ← (Binder.bindProgram file).run Binder.initial
  let report := if options.warningsAsErrors then s.report.promote else s.report
  let flat ← Flat.Program.ofBound s.registry bound
  return (report, ⟨s.registry, s.library, s.scope.outermost, bound, flat⟩)

def compile (source : List Glyph) (options : CompileOptions) : Except Defect Compilation := do
  let (file, errors) := Parsed.parse source
  if !errors.isEmpty then return ⟨grammarReport errors, file, none, none⟩
  else
    let (report, analysis) ← analyze options file
    if report.hasErrors then return ⟨report, file, some analysis, none⟩
    else
      let module ← Module.ofFlat options.name analysis.registry analysis.flat
      return ⟨report, file, some analysis, some module⟩

end TypedScript
