import TypedScript.Bytecode.Operation
import TypedScript.Text.Quoted

/-!
# Run-time faults

Why a program cannot go on, and where it was. A fault outside of any method has no place.
-/

namespace TypedScript

/-- Why a program cannot go on. Names of representations stand for the values that did not fit. -/
inductive Cause
  | noEntryPoint
  | argumentCount (expected given : Nat)
  | stackOverflow (method : String)
  | fellOffEnd (method : String)
  | unknownOperation (name : String)
  | notField (key : String)
  | notCallable (key : String)
  | mismatch (op : Operation) (tag : Tag) (representation : String)
  | notDefined (op : Operation) (tag : Tag)
  | divisionByZero
  | negativeShift (count : Int)
  | conversionMismatch (source target : Tag) (representation : String)
  | conversionUnsupported (source target : Tag)
  | unboxFailed (found wanted : String)
  | indexRepresentation (representation : String)
  | indexOutOfRange (index : Int) (size : Nat)
  | indexOfNull
  | notIndexable (representation : String)
  | notStorable (representation : String)
  | negativeSize (size : Int)
  | lengthOfNull
  | noLength (representation : String)
  | branchOnNonBool
  | unreadable (key text : String) (tag : Tag)
  | emptyRange (key : String) (low high : Int)
  deriving DecidableEq, Repr

def Cause.message : Cause → String
  | noEntryPoint => "module has no entry point"
  | argumentCount expected given =>
    "expected " ++ toString expected ++ " arguments, got " ++ toString given
  | stackOverflow method => "stack overflow calling " ++ method
  | fellOffEnd method => "fell off the end of " ++ method
  | unknownOperation name => "unknown opcode " ++ name
  | notField key => key ++ " is not a field"
  | notCallable key => key ++ " is not callable"
  | mismatch op tag representation =>
    op.name ++ "." ++ tag.name ++ " applied to " ++ representation
  | notDefined op tag => op.name ++ " is not defined for " ++ tag.name
  | divisionByZero => "integer division by zero"
  | negativeShift count => "negative shift count " ++ toString count
  | conversionMismatch source target representation =>
    "conv " ++ source.name ++ " -> " ++ target.name ++ " applied to " ++ representation
  | conversionUnsupported source target =>
    "conv " ++ source.name ++ " -> " ++ target.name ++ " is not supported"
  | unboxFailed found wanted => "cannot unbox " ++ found ++ " as " ++ wanted
  | indexRepresentation representation => "index of type " ++ representation
  | indexOutOfRange index size =>
    "index " ++ toString index ++ " out of range [0, " ++ toString size ++ ")"
  | indexOfNull => "index of null"
  | notIndexable representation => "cannot index " ++ representation
  | notStorable representation => "cannot store into " ++ representation
  | negativeSize size => "negative array size " ++ toString size
  | lengthOfNull => "length of null"
  | noLength representation => "length of " ++ representation
  | branchOnNonBool => "branch on a non-bool value"
  | unreadable key text tag => key ++ ": cannot parse " ++ Text.quote text ++ " as " ++ tag.name
  | emptyRange key low high =>
    key ++ ": empty range [" ++ toString low ++ ", " ++ toString high ++ ")"

/-- A fault with the method and the instruction at which it arose. -/
structure RuntimeFault where
  method : String
  pc : Int
  cause : Cause
  deriving DecidableEq, Repr

def RuntimeFault.text (f : RuntimeFault) : String :=
  if f.method.isEmpty then "runtime error: " ++ f.cause.message
  else
    "runtime error in " ++ f.method ++ " at " ++ Text.paddedDecimal 4 f.pc ++ ": " ++
      f.cause.message

/-- Why the machine stopped: a fault, the program's own wish, a rule broken that nothing checks, no
line of input where one is wanted, or the end of the steps that it was given. -/
inductive Stop
  | fault (f : RuntimeFault)
  | exit (code : Int)
  | crash (message? : Option String)
  | awaitInput
  | paused
  deriving DecidableEq, Repr

end TypedScript
