/-!
# Operators

The operators of the language and their spelling. An operator also has a number, by which a
callable is marked as intrinsic; zero marks a callable that is none.
-/

namespace TypedScript

/-- The operators between two operands. -/
inductive BinaryOperator
  | add | sub | mul | div | rem
  | and | or | xor | shiftLeft | shiftRight
  | equal | notEqual | less | greater | lessEqual | greaterEqual
  | andAlso | orElse
  deriving DecidableEq, Repr

namespace BinaryOperator

def symbol : BinaryOperator → String
  | add => "+"
  | sub => "-"
  | mul => "*"
  | div => "/"
  | rem => "%"
  | and => "&"
  | or => "|"
  | xor => "^"
  | shiftLeft => "<<"
  | shiftRight => ">>"
  | equal => "=="
  | notEqual => "!="
  | less => "<"
  | greater => ">"
  | lessEqual => "<="
  | greaterEqual => ">="
  | andAlso => "&&"
  | orElse => "||"

/-- How tightly an operator binds; a greater level binds tighter. -/
def precedence : BinaryOperator → Nat
  | orElse => 1
  | andAlso => 2
  | or => 3
  | xor => 4
  | and => 5
  | equal | notEqual => 6
  | less | lessEqual | greater | greaterEqual => 7
  | shiftLeft | shiftRight => 8
  | add | sub => 9
  | mul | div | rem => 10

def isComparison : BinaryOperator → Bool
  | equal | notEqual | less | greater | lessEqual | greaterEqual => true
  | _ => false

/-- Whether the right operand is evaluated only when the left one does not decide the result. -/
def isShortCircuit : BinaryOperator → Bool
  | andAlso | orElse => true
  | _ => false

end BinaryOperator

/-- The operators before one operand. -/
inductive UnaryOperator
  | negate | plus | not | complement
  deriving DecidableEq, Repr

namespace UnaryOperator

def symbol : UnaryOperator → String
  | negate => "-"
  | plus => "+"
  | not => "!"
  | complement => "~"

end UnaryOperator

/-- What an intrinsic callable computes. -/
inductive Operator
  | binary (op : BinaryOperator)
  | unary (op : UnaryOperator)
  | unassigned (code : UInt8)
  deriving DecidableEq, Repr

namespace Operator

def numbered : List Operator :=
  [.binary .add, .binary .sub, .binary .mul, .binary .div, .binary .rem, .binary .and, .binary .or,
    .binary .xor, .binary .shiftLeft, .binary .shiftRight, .binary .equal, .binary .notEqual,
    .binary .less, .binary .greater, .binary .lessEqual, .binary .greaterEqual, .binary .andAlso,
    .binary .orElse, .unary .negate, .unary .plus, .unary .not, .unary .complement]

/-- The operator with a number; zero stands for none. -/
def ofCode (code : UInt8) : Option Operator :=
  if code = 0 then none
  else some ((numbered[code.toNat - 1]?).getD (.unassigned code))

def symbol : Operator → String
  | binary op => op.symbol
  | unary op => op.symbol
  | unassigned _ => "op?"

def isComparison : Operator → Bool
  | binary op => op.isComparison
  | _ => false

/-- Whether the right operand is evaluated only when the left one does not decide the result. -/
def isShortCircuit : Operator → Bool
  | binary op => op.isShortCircuit
  | _ => false

def isUnary : Operator → Bool
  | binary _ => false
  | _ => true

end Operator
end TypedScript
