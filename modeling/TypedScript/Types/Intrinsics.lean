import TypedScript.Types.Registry

/-!
# Intrinsic operators

Every operator is a group with one overload for each type of operand, so that what an operator means
and how its operands are promoted is decided by overload resolution.
-/

namespace TypedScript

/-- The groups of the operators. -/
structure Intrinsics where
  groups : List (Operator × TypeId)
  deriving Repr

namespace Intrinsics

def integers : List Builtin := [.i8, .i16, .i32, .i64, .u8, .u16, .u32, .u64]

def numbers : List Builtin := integers ++ [.f32, .f64]

def signedNumbers : List Builtin := [.i8, .i16, .i32, .i64, .f32, .f64]

def operands : BinaryOperator → List Builtin
  | .add | .sub | .mul | .div | .rem => numbers
  | .and | .or | .xor => integers ++ [.bool]
  | .shiftLeft | .shiftRight => integers
  | .andAlso | .orElse => [.bool]
  | .equal | .notEqual => numbers ++ [.bool, .char]
  | .less | .greater | .lessEqual | .greaterEqual => numbers ++ [.char]

def operand : UnaryOperator → List Builtin
  | .negate => signedNumbers
  | .plus => numbers
  | .not => [.bool]
  | .complement => integers

/-- The overload of a binary operator for operands of a type: a comparison yields a truth value, all
others the type of the operands. -/
def binarySignature (op : BinaryOperator) (b : Builtin) : Signature :=
  ⟨.builtin (if op.isComparison then .bool else b), [.builtin b, .builtin b]⟩

def unarySignature (b : Builtin) : Signature := ⟨.builtin b, [.builtin b]⟩

def signatures : Operator → List Signature
  | .binary op => (operands op).map (binarySignature op)
  | .unary op => (operand op).map unarySignature
  | .unassigned _ => []

def all : List Operator :=
  [.binary .add, .binary .sub, .binary .mul, .binary .div, .binary .rem, .binary .and, .binary .or,
    .binary .xor, .binary .shiftLeft, .binary .shiftRight, .binary .andAlso, .binary .orElse,
    .binary .equal, .binary .notEqual, .binary .less, .binary .greater, .binary .lessEqual,
    .binary .greaterEqual, .unary .negate, .unary .plus, .unary .not, .unary .complement]

def registerAll (r : Registry) : List Operator → List (Operator × TypeId) × Registry
  | [] => ([], r)
  | op :: rest =>
    let (t, r) := r.defineGroup op.symbol "" (some op) (signatures op)
    let (found, r) := registerAll r rest
    ((op, t) :: found, r)

def load (r : Registry) : Intrinsics × Registry :=
  let (groups, r) := registerAll r all
  (⟨groups⟩, r)

def group (i : Intrinsics) (op : Operator) : TypeId :=
  ((i.groups.find? fun g => g.1 = op).map Prod.snd).getD .absent

end Intrinsics
end TypedScript
