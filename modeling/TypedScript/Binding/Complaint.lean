import TypedScript.Diagnostic
import TypedScript.Text.Quoted

/-!
# Complaints

What can be wrong with the names and types of a program. Types are given by the names that messages
show.
-/

namespace TypedScript
namespace Binding

/-- What is wrong, or at least worth a warning. -/
inductive Complaint
  | undeclared (name : String)
  | alreadyDeclared (name : String)
  | functionDeclared (name params : String)
  | unknownType (name : String)
  | arrayOfVoid
  | voidValue
  | signatureOfField (path : String)
  | unknownLibraryName (path : String)
  | noSuchOverload (path signature : String)
  | severalOverloads (path signature : String) (count : Nat)
  | needsConversion (source target : String)
  | cannotUse (source target : String)
  | cannotConvert (source target : String)
  | functionAsValue (name : String)
  | typeAsValue (name : String)
  | noValue (callable : String)
  | literalOverflow (magnitude : UInt64)
  | cannotAssign (target : String)
  | cannotStore (op result target : String)
  | undefinedOperator (op operands : String)
  | ambiguous (name args first second : String)
  | notAFunction (type : String)
  | noOverload (name args : String)
  | cannotIndex (type : String)
  | noMember (type member : String)
  | outsideLoop (word : String)
  | missingReturn (function : String)
  | missingReturnValue (type : String)
  | unexpectedReturnValue
  | unreachableCode
  | unusedLocal (name : String)
  deriving DecidableEq, Repr

namespace Complaint

def severity : Complaint → Severity
  | unreachableCode | unusedLocal _ => .warning
  | _ => .error

def topic : Complaint → Topic
  | undeclared _ | alreadyDeclared _ | functionDeclared _ _ | unknownType _ | noMember _ _ => .name
  | signatureOfField _ | unknownLibraryName _ | noSuchOverload _ _ | severalOverloads _ _ _ =>
    .importing
  | cannotAssign _ => .assignment
  | outsideLoop _ | missingReturn _ => .flow
  | unreachableCode => .unreachable
  | unusedLocal _ => .unused
  | _ => .type

def message : Complaint → String
  | undeclared name => "undeclared identifier " ++ Text.quote name
  | alreadyDeclared name => Text.quote name ++ " is already declared in this scope"
  | functionDeclared name params =>
    "function " ++ name ++ "(" ++ params ++ ") is already declared"
  | unknownType name => "unknown type " ++ Text.quote name
  | arrayOfVoid => "cannot make an array of void"
  | voidValue => "void is not a value type"
  | signatureOfField path => path ++ " is a field and takes no signature"
  | unknownLibraryName path => "unknown library symbol " ++ Text.quote path
  | noSuchOverload path signature => path ++ " has no overload " ++ signature
  | severalOverloads path signature count =>
    path ++ signature ++ " matches " ++ toString count ++ " overloads"
  | needsConversion source target =>
    "cannot use " ++ source ++ " as " ++ target ++ " without an explicit conversion"
  | cannotUse source target => "cannot use " ++ source ++ " as " ++ target
  | cannotConvert source target => "cannot convert " ++ source ++ " to " ++ target
  | functionAsValue name => "function " ++ name ++ " used as a value"
  | typeAsValue name => "type name " ++ name ++ " used as a value"
  | noValue callable => callable ++ " does not produce a value"
  | literalOverflow magnitude =>
    "integer literal -" ++ toString magnitude.toNat ++ " overflows i64"
  | cannotAssign target => "cannot assign to " ++ target
  | cannotStore op result target =>
    op ++ "= produces " ++ result ++ ", which cannot be stored in " ++ target
  | undefinedOperator op operands => "operator " ++ op ++ " is not defined for " ++ operands
  | ambiguous name args first second =>
    name ++ "(" ++ args ++ ") is ambiguous between " ++ first ++ " and " ++ second
  | notAFunction type => type ++ " is not a function"
  | noOverload name args => "no overload of " ++ name ++ " accepts (" ++ args ++ ")"
  | cannotIndex type => "cannot index a value of type " ++ type
  | noMember type member => type ++ " has no member " ++ Text.quote member
  | outsideLoop word => word ++ " outside a loop"
  | missingReturn function => "missing return in function " ++ function
  | missingReturnValue type => "missing return value of type " ++ type
  | unexpectedReturnValue => "unexpected return value in a void routine"
  | unreachableCode => "unreachable code"
  | unusedLocal name => "local " ++ Text.quote name ++ " is declared but never read"

def diagnostic (c : Complaint) (span : Span) : Diagnostic :=
  ⟨c.severity, c.topic, c.message, some span⟩

end Complaint
end Binding
end TypedScript
