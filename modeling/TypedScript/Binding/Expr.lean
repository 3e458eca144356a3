import TypedScript.Binding.Operators

/-!
# Binding expressions

Every form of expression, from the leaves up. Operands are bound from left to right, which is the
order in which their mistakes are reported.
-/

namespace TypedScript
namespace Binder

open TypedScript.Bound TypedScript.Binding

/-- An integer literal: of the narrowest of three types that holds it. -/
def intLiteral (span : Span) (magnitude : UInt64) : Expr :=
  if 0x7FFFFFFFFFFFFFFF < magnitude then .literal span (.uint magnitude) (.builtin .u64)
  else .literal span (.int magnitude.toInt64) (Literal.signedType magnitude.toInt64)

def negativeLiteral (span : Span) (magnitude : UInt64) : Binder Expr := do
  if 0x8000000000000000 < magnitude then
    complain span (.literalOverflow magnitude)
    return .invalid span []
  else
    let v := -magnitude.toInt64
    return .literal span (.int v) (Literal.signedType v)

/-- A name. A plain assignment to it does not count as reading it. -/
def bindName (span : Span) (name : String) (read : Bool) : Binder Expr := do
  match (← get).scope.lookup? name with
  | some sym =>
    if sym.kind = .overloads then return .group span sym.name sym.type
    if read then markRead sym
    return .symbol span sym
  | none =>
    match Builtin.ofName? name with
    | some b => return .typeName span (.builtin b)
    | none =>
      complain span (.undeclared name)
      return .invalid span []

def applyIndex (target index : Expr) (targetSpan span : Span) : Binder Expr := do
  if target.isError || index.isError then return .invalid span [target, index]
  let t := target.type
  if (← ask (·.kind t)) = .array then
    return .index span target index (← ask (·.element t))
  else if t = .builtin .string then
    return .index span target index (.builtin .char)
  else
    complain targetSpan (.cannotIndex (← fullName t))
    return .invalid span [target, index]

/-- A member of a value; there is only the length of arrays and texts. -/
def applyMember (target : Expr) (name : String) (span : Span) : Binder Expr := do
  if target.isError then return .invalid span [target]
  let t := target.type
  if name == "length" && (t = .builtin .string || (← ask (·.kind t)) = .array) then
    return .length span target
  else
    complain span (.noMember (← fullName t) name)
    return .invalid span [target]

/-- A cast. Casts from and to texts go through the library. -/
def applyCast (operand : Expr) (target : TypeId) (span : Span) : Binder Expr := do
  if operand.isError || target = .error then return .invalid span [operand]
  match ← ask (·.classify operand.type target) with
  | .none =>
    complain span (.cannotConvert (← fullName operand.type) (← fullName target))
    return .invalid span [operand]
  | .toText =>
    let callable := (← get).library.toText
    let info ← ask (·.callable callable)
    return .call span callable (← coerceAll [operand] info.params) (.builtin .string)
  | .parse =>
    match (← get).library.parser? target with
    | some callable => return .call span callable [operand] target
    | none => throw (.noParseRoutine (← ask (·.name target)))
  | kind => return .convert span kind operand target true

def applyNewArray (element : TypeId) (size : Expr) (span : Span) : Binder Expr := do
  if element = .error || size.isError then return .invalid span [size]
  else return .newArray span element size (← register (·.arrayOf element))

mutual

def bindExpr : Parsed.Expr → Binder Expr
  | .int span v => return intLiteral span v
  | .float span v => return .literal span (.float v) (.builtin .f64)
  | .string span v => return .literal span (.string v) (.builtin .string)
  | .char span v => return .literal span (.char v) (.builtin .char)
  | .bool span v => return .literal span (.bool v) (.builtin .bool)
  | .name span name => bindName span name true
  | .assign span op target value => do
    let bound ← match target with
      | .name s name => bindName s name op.isSome
      | _ => bindExpr target
    let rhs ← bindExpr value
    let rhs ← requireValue rhs
    applyAssignment op bound rhs target.span value.span span
  | .binary span op left right => do
    let left ← bindExpr left
    let left ← requireValue left
    let right ← bindExpr right
    let right ← requireValue right
    applyBinary op left right span
  | .unary span op operand =>
    match op, operand with
    | .negate, .int _ v => negativeLiteral span v
    | .negate, .float _ v => return .literal span (.float v.neg) (.builtin .f64)
    | _, _ => do
      let operand ← bindExpr operand
      let operand ← requireValue operand
      applyUnary op operand span
  | .call span callee args => do
    let bound ← bindExpr callee
    let args ← bindValues args
    applyCall bound args callee.span span
  | .index span target index => do
    let bound ← bindExpr target
    let bound ← requireValue bound
    let position ← bindExpr index
    let position ← requireValue position
    let position ← convertImplicit position (.builtin .i32) index.span
    applyIndex bound position target.span span
  | .member span target name => do
    let target ← bindExpr target
    let target ← requireValue target
    applyMember target name span
  | .cast span operand type => do
    let operand ← bindExpr operand
    let operand ← requireValue operand
    let target ← valueType type
    applyCast operand target span
  | .newArray span element size => do
    let element ← valueType element
    let bound ← bindExpr size
    let bound ← requireValue bound
    let bound ← convertImplicit bound (.builtin .i32) size.span
    applyNewArray element bound span

def bindValues : List Parsed.Expr → Binder (List Expr)
  | [] => return []
  | e :: rest => do
    let bound ← bindExpr e
    let bound ← requireValue bound
    return bound :: (← bindValues rest)

end

def bindValue (e : Parsed.Expr) : Binder Expr := do
  requireValue (← bindExpr e)

end Binder
end TypedScript
