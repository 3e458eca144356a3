import TypedScript.Text.Quoted
import TypedScript.Types.Basic

/-!
# Defects

A defect is a state that the compiler's own stages should never reach: one stage handed another
something that it had promised not to. It is no fault of the program that is compiled, and no
module comes of it.
-/

namespace TypedScript

/-- The kinds of types that a registry tells apart. -/
inductive TypeKind
  | builtin | error | array | group | callable
  deriving DecidableEq, Repr

def TypeKind.name : TypeKind → String
  | builtin => "builtin"
  | error => "error"
  | array => "array"
  | group => "group"
  | callable => "callable"

/-- What went wrong between the stages. -/
inductive Defect
  | unknownType (t : TypeId)
  | wrongKind (t : TypeId) (is expected : TypeKind)
  | noParseRoutine (type : String)
  | outsideLoop (what : String)
  | untypedCode (t : TypeId)
  | undefinedLabel (routine : String) (label : Nat)
  | duplicateLabel (routine : String) (label : Nat)
  | invalidExpression (routine : String)
  | cannotLoad (kind name : String)
  | cannotStore (kind name : String)
  | undeclaredGlobal (name : String)
  | notBinary (symbol : String)
  | notUnary (symbol : String)
  | intrinsicCall (callable : String)
  | conversionInCode (kind : String)
  deriving DecidableEq, Repr

namespace Defect

def reason : Defect → String
  | unknownType t => "types: invalid type id " ++ toString t.number
  | wrongKind t is expected =>
    "types: type " ++ toString t.number ++ " is " ++ is.name ++ ", not " ++ expected.name
  | noParseRoutine type => "binder: no parse routine for " ++ type
  | outsideLoop what => "lower: " ++ what ++ " outside a loop"
  | untypedCode t => "codegen: " ++ t.label ++ " type reached code generation"
  | undefinedLabel routine label =>
    "codegen: " ++ routine ++ ": jump to undefined label L" ++ toString label
  | duplicateLabel routine label =>
    "codegen: " ++ routine ++ ": label L" ++ toString label ++ " defined twice"
  | invalidExpression routine =>
    "codegen: " ++ routine ++ ": invalid expression reached code generation"
  | cannotLoad kind name => "codegen: cannot load " ++ kind ++ " " ++ Text.quote name
  | cannotStore kind name => "codegen: cannot store to " ++ kind ++ " " ++ Text.quote name
  | undeclaredGlobal name => "codegen: global " ++ Text.quote name ++ " was never declared"
  | notBinary symbol => "codegen: " ++ symbol ++ " is not a binary operator"
  | notUnary symbol => "codegen: " ++ symbol ++ " is not a unary operator"
  | intrinsicCall callable => "codegen: intrinsic " ++ callable ++ " lowered as a call"
  | conversionInCode kind => "codegen: " ++ kind ++ " conversion reached code generation"

def message (d : Defect) : String := "internal compiler error: " ++ d.reason

end Defect
end TypedScript
