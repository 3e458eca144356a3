import TypedScript.Binding.Basic

/-!
# Implicit conversions, operators and calls

An expression that is used where another type is expected is converted if that can be done unasked.
A numeric literal needs no conversion: it takes on the expected type if its value fits.
-/

namespace TypedScript

namespace Literal

def fitsSigned (v : Int64) (bits : Nat) : Bool :=
  64 ≤ bits || (-(Nat.pow 2 (bits - 1) : Int) ≤ v.toInt && v.toInt < (Nat.pow 2 (bits - 1) : Int))

def fitsUnsigned (v : Nat) (bits : Nat) : Bool := 64 ≤ bits || v < Nat.pow 2 bits

def retype? (v : Literal) (target : TypeId) : Option Literal :=
  match v with
  | .int v =>
    if target.isSigned && fitsSigned v target.bits then some (.int v)
    else if target.isUnsigned && 0 ≤ v && fitsUnsigned v.toInt.toNat target.bits then
      some (.uint v.toUInt64)
    else if target.isFloat then some (.float (.ofInt v.toInt))
    else none
  | .uint v => if target.isFloat then some (.float (.ofInt v.toNat)) else none
  | .float v => if target = .builtin .f32 then some (.float v) else none
  | _ => none

/-- The type of a signed integer literal: the narrower of two that holds it. -/
def signedType (v : Int64) : TypeId := .builtin (if fitsSigned v 32 then .i32 else .i64)

end Literal

namespace Bound

/-- A literal as one of another type, if the expression is a literal that can be. -/
def Expr.retype? (e : Expr) (target : TypeId) : Option Expr :=
  match e with
  | .literal span v _ => (v.retype? target).map fun v => .literal span v target
  | _ => none

end Bound

namespace Binder

open TypedScript.Bound TypedScript.Binding

def convertImplicit (e : Expr) (target : TypeId) (span : Span) : Binder Expr := do
  let source := e.type
  if source = target || source = .error || target = .error then return e
  match e.retype? target with
  | some e => return e
  | none =>
    let conversion ← ask (·.classify source target)
    if conversion.isImplicit then return .convert e.span conversion e target false
    else
      let source ← fullName source
      let target ← fullName target
      complain span
        (if conversion.isPossible then .needsConversion source target
          else .cannotUse source target)
      return .invalid span [e]

/-- Adapts an argument to a parameter that is known to accept it. -/
def coerce (e : Expr) (param : TypeId) : Binder Expr := do
  if e.type = param then return e
  else return .convert e.span (← ask (·.classify e.type param)) e param false

/-- Adapts arguments to parameters that are known to accept them. -/
def coerceAll : List Expr → List TypeId → Binder (List Expr)
  | e :: es, p :: ps => do
    let e ← coerce e p
    return e :: (← coerceAll es ps)
  | _, _ => return []

end Binder

/-!
## Operators and calls

What an operator or a call means for operands of given types. Where no intrinsic overload of `+`,
`==` or `!=` applies, the library's routines for texts and objects are tried.
-/

namespace Binder

open TypedScript.Bound TypedScript.Binding

/-- Rejects names of functions and types and calls without result where a value is needed. -/
def requireValue (e : Expr) : Binder Expr := do
  match e with
  | .group span name _ =>
    complain span (.functionAsValue name)
    return .invalid span []
  | .typeName span t =>
    complain span (.typeAsValue (← ask (·.name t)))
    return .invalid span []
  | .call span callable _ t =>
    if t = .builtin .void then
      complain span (.noValue (← fullName callable))
      return .invalid span []
    else return e
  | _ => return e

/-- Reports a tie between the first two of several overloads. -/
def complainAmbiguous (span : Span) (name : String) (args tied : List TypeId) : Binder Unit := do
  match tied with
  | first :: second :: _ =>
    complain span
      (.ambiguous name (← ask (·.joinNames args)) (← fullName first) (← fullName second))
  | _ => return

def fallback? (op : BinaryOperator) : Binder (Option TypeId) := do
  match op with
  | .add => return some (← get).library.concat
  | .equal | .notEqual => return some (← get).library.equals
  | _ => return none

def resolveBinary (op : BinaryOperator) (args : List TypeId) (span : Span) :
    Binder (Option TypeId) := do
  match ← ask (·.resolve ((← get).intrinsics.group (.binary op)) args) with
  | .resolved c => return some c
  | .ambiguous tied =>
    complainAmbiguous span op.symbol args tied
    return none
  | .notApplicable =>
    let outcome ← match ← fallback? op with
      | some group => ask (·.resolve group args)
      | none => pure .notApplicable
    match outcome with
    | .resolved c => return some c
    | .ambiguous tied =>
      complainAmbiguous span op.symbol args tied
      return none
    | .notApplicable =>
      let operands ← ask (·.joinNames args)
      complain span (.undefinedOperator op.symbol ("(" ++ operands ++ ")"))
      return none

def negation : Binder TypeId := do
  let members ← ask (·.members ((← get).intrinsics.group (.unary .not)))
  return members.headD .absent

def applyBinary (op : BinaryOperator) (left right : Expr) (span : Span) : Binder Expr := do
  if left.isError || right.isError then return .invalid span [left, right]
  match ← resolveBinary op [left.type, right.type] span with
  | none => return .invalid span [left, right]
  | some c =>
    let info ← ask (·.callable c)
    let operands ← coerceAll [left, right] info.params
    match info.isIntrinsic, operands with
    | true, [left, right] => return .binary span c left right info.result
    | _, _ =>
      let call := Expr.call span c operands info.result
      if op = .notEqual then
        return .unary span (← negation) call (.builtin .bool)
      else return call

def applyUnary (op : UnaryOperator) (operand : Expr) (span : Span) : Binder Expr := do
  if operand.isError then return .invalid span [operand]
  let args := [operand.type]
  match ← ask (·.resolve ((← get).intrinsics.group (.unary op)) args) with
  | .resolved c =>
    let info ← ask (·.callable c)
    let operand ← coerce operand (info.params.headD operand.type)
    return .unary span c operand info.result
  | .ambiguous tied =>
    complainAmbiguous span op.symbol args tied
    return .invalid span [operand]
  | .notApplicable =>
    complain span (.undefinedOperator op.symbol (← fullName operand.type))
    return .invalid span [operand]

/-- Stores the result of an operator back into its first operand. -/
def applyCompound (op : BinaryOperator) (target value : Expr) (span : Span) : Binder Expr := do
  let value := (value.retype? target.type).getD value
  match ← resolveBinary op [target.type, value.type] span with
  | none => return .invalid span [target, value]
  | some c =>
    let info ← ask (·.callable c)
    let operands ← coerceAll [target, value] info.params
    let storable ← if info.result = target.type then pure true
      else ask (·.isImplicitlyConvertible info.result target.type)
    if storable then
      return .compound span target c (operands.getLast?.getD value)
    else
      complain span
        (.cannotStore op.symbol (← fullName info.result) (← fullName target.type))
      return .invalid span [target, value]

/-- How messages name something that cannot be assigned to. -/
def describeTarget : Expr → String
  | .symbol _ s =>
    match s.kind with
    | .parameter _ => "parameter " ++ s.name
    | .libraryField path => "readonly field " ++ path
    | _ => "constant " ++ s.name
  | .literal _ _ _ => "a literal"
  | .group _ name _ => "function " ++ name
  | .index _ _ _ _ => "a character of a string"
  | _ => "this expression"

def applyAssignment (op : Option BinaryOperator) (target value : Expr)
    (targetSpan valueSpan span : Span) : Binder Expr := do
  if target.isError then return .invalid span [target, value]
  if target.category ≠ .modifiable then
    complain targetSpan (.cannotAssign (describeTarget target))
    return .invalid span [target, value]
  if value.isError then return .invalid span [target, value]
  match op with
  | none => return .assign span target (← convertImplicit value target.type valueSpan)
  | some op => applyCompound op target value span

def applyCall (callee : Expr) (args : List Expr) (calleeSpan span : Span) : Binder Expr := do
  if callee.isError then return .invalid span args
  match callee with
  | .group _ name group =>
    if args.any Expr.isError then return .invalid span args
    let types := args.map Expr.type
    match ← ask (·.resolve group types) with
    | .resolved c =>
      let info ← ask (·.callable c)
      return .call span c (← coerceAll args info.params) info.result
    | .ambiguous tied =>
      complainAmbiguous span name types tied
      return .invalid span args
    | .notApplicable =>
      complain span (.noOverload name (← ask (·.joinNames types)))
      return .invalid span args
  | _ =>
    complain calleeSpan (.notAFunction (← fullName callee.type))
    return .invalid span args

end Binder
end TypedScript
