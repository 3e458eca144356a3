import TypedScript.Types.Registry

/-!
# Conversions and overload resolution

How a value of one type becomes a value of another. Where an implicit and an explicit way exist the
implicit one is taken.
-/

namespace TypedScript

/-- How a value of one type becomes one of another: not at all, by staying what it is, by a lossless
widening, as an object, by a numeric conversion that may lose something, out of an object, or
through a text. -/
inductive Conversion
  | none | identity | widen | box | numeric | unbox | toText | parse
  deriving DecidableEq, Repr

namespace Conversion

def name : Conversion → String
  | none => "none"
  | identity => "identity"
  | widen => "widen"
  | box => "box"
  | numeric => "numeric"
  | unbox => "unbox"
  | toText => "tostring"
  | parse => "parse"

def isImplicit : Conversion → Bool
  | identity | widen | box => true
  | _ => false

def isPossible : Conversion → Bool
  | none => false
  | _ => true

end Conversion

namespace Builtin

/-- Whether every value of the first type has an exact counterpart in the second to which it is
converted unasked: wider integers of the same sign, and of integers and single precision the doubles. -/
def widens (source target : Builtin) : Bool :=
  if source.isSigned && target.isSigned then source.bits < target.bits
  else if source.isUnsigned && target.isUnsigned then source.bits < target.bits
  else target = f64 && (source.isInteger || source = f32)

/-- Whether the type takes part in numeric conversions. -/
def isNumberLike (b : Builtin) : Bool := b.isNumeric || b = char

end Builtin

namespace Registry

def classifyValues : TypeId → TypeId → Conversion
  | _, .builtin .object => .box
  | .builtin s, .builtin t =>
    if s.widens t then .widen
    else if s.isNumberLike && t.isNumberLike then .numeric
    else if s = .object then .unbox
    else if s = .string && t.isScalar then .parse
    else if t = .string && s.isScalar then .toText
    else .none
  | .builtin .object, _ => .unbox
  | _, _ => .none

/-- The conversion from one type to another. The error type goes with everything. -/
def classify (r : Registry) (source target : TypeId) : Except Defect Conversion := do
  if source = target || source = .error || target = .error then return .identity
  else if !(← r.isValue source) then return .none
  else if !(← r.isValue target) then return .none
  else return classifyValues source target

def isImplicitlyConvertible (r : Registry) (source target : TypeId) : Except Defect Bool :=
  return (← r.classify source target).isImplicit

def isExplicitlyConvertible (r : Registry) (source target : TypeId) : Except Defect Bool :=
  return (← r.classify source target).isPossible

end Registry

/-!
## Overload resolution

Of the overloads of a group that accept the types of the arguments, the one that needs the fewest
conversions is chosen, if there is only one.
-/

/-- The outcome of choosing an overload. -/
inductive Resolution
  | resolved (callable : TypeId)
  | notApplicable
  | ambiguous (tied : List TypeId)
  deriving DecidableEq, Repr

namespace Resolution

def name : Resolution → String
  | resolved _ => "resolved"
  | notApplicable => "not applicable"
  | ambiguous _ => "ambiguous"

def ofCheapest : List TypeId → Resolution
  | [] => notApplicable
  | [c] => resolved c
  | tied => ambiguous tied

end Resolution

namespace Registry

/-- The number of conversions needed to pass arguments to parameters, if they can be passed. -/
def conversionCost (r : Registry) : List TypeId → List TypeId → Except Defect (Option Nat)
  | [], [] => .ok (some 0)
  | p :: ps, a :: as =>
    if as.length ≠ ps.length then .ok none
    else if a = p then r.conversionCost ps as
    else do
      if ← r.isImplicitlyConvertible a p then
        return (← r.conversionCost ps as).map (· + 1)
      else return none
  | _, _ => .ok none

/-- The candidates of the least cost, in order, behind those found so far. -/
def cheapestFrom (r : Registry) (args : List TypeId) :
    Option (Nat × List TypeId) → List TypeId → Except Defect (List TypeId)
  | best, [] => .ok ((best.map Prod.snd).getD [])
  | best, c :: rest => do
    match best, ← r.conversionCost (← r.callable c).params args with
    | best, none => r.cheapestFrom args best rest
    | none, some cost => r.cheapestFrom args (some (cost, [c])) rest
    | some (least, tied), some cost =>
      if cost < least then r.cheapestFrom args (some (cost, [c])) rest
      else if cost = least then r.cheapestFrom args (some (least, tied ++ [c])) rest
      else r.cheapestFrom args (some (least, tied)) rest

def resolve (r : Registry) (group : TypeId) (args : List TypeId) : Except Defect Resolution :=
  return .ofCheapest (← r.cheapestFrom args none (← r.members group))

end Registry
end TypedScript
