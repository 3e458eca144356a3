import Mathlib.Logic.Function.Basic
import TypedScript.Machine.Step
import TypedScript.Proofs.Bytecode.Codes

/-!
# What programs do

The effects that bound and flat programs have in common: reading and writing variables, operators,
arrays, conversions and calls. A program acts on the variables of a routine and on what all routines
share. It ends with a value or halts; an operation on a value that is not of its type is stuck.
-/

namespace TypedScript
namespace Execution

/-- What all routines share: global variables, arrays, and the streams. -/
structure Shared where
  globals : Symbol → Value
  heap : Heap
  boxes : Nat
  input : Input
  output : String
  clock : Clock
  generator : Generator

/-- The variables of a routine, and what it shares with others. -/
structure State where
  locals : Symbol → Value
  shared : Shared

/-- Why there is no value: a fault in a routine, an operation on a value that is not of its type, the
wish of the program, a rule broken that nothing checks, no line of input where one is wanted, or the
end of the turns that a routine was given. -/
inductive Halt
  | fault (routine : String) (cause : Cause)
  | stuck
  | exit (code : Int)
  | crash (message? : Option String)
  | awaitInput
  | unfinished
  deriving DecidableEq, Repr

def isConfusion : Cause → Bool
  | .mismatch _ _ _ | .conversionMismatch _ _ _ | .indexRepresentation _ | .notIndexable _ => true
  | .notStorable _ | .noLength _ | .branchOnNonBool => true
  | _ => false

namespace Halt

def ofCause (routine : String) (c : Cause) : Halt :=
  if isConfusion c then stuck else fault routine c

def ofStop (routine : String) : Stop → Halt
  | .fault f => ofCause routine f.cause
  | .exit code => exit code
  | .crash message? => crash message?
  | .awaitInput => awaitInput
  | .paused => unfinished

end Halt

/-- An effect on what is shared. -/
abbrev Effect := EStateM Halt Shared

abbrev Run := EStateM Halt State

def perform {α : Type} (e : Effect α) : Run α := fun s =>
  match e s.shared with
  | .ok a w => .ok a { s with shared := w }
  | .error h w => .error h { s with shared := w }

instance : MonadLift Effect Run := ⟨perform⟩

/-- What a routine runs in: the types, its name, its arguments, and what calls do. -/
structure Environment where
  registry : Registry
  routine : String
  args : List Value
  invoke : TypeId → List Value → Effect Value

namespace Shared

def machine (s : Shared) : Machine where
  module := Module.empty ""
  natives := #[]
  statics? := none
  cells := #[]
  top := 0
  calls := []
  heap := s.heap
  boxes := s.boxes
  input := s.input
  output := s.output
  clock := s.clock
  generator := s.generator
  maxDepth := 0

def update (s : Shared) (m : Machine) : Shared :=
  { s with
    heap := m.heap, boxes := m.boxes, input := m.input, output := m.output, clock := m.clock
    generator := m.generator }

end Shared

/-- The effect of an action of the machine that leaves stack and calls alone. -/
def ofAction {α : Type} (routine : String) (a : Action α) : Effect α := fun s =>
  match a s.machine with
  | .ok v m => .ok v (s.update m)
  | .error stop m => .error (.ofStop routine stop) (s.update m)

def nameOf (r : Registry) (t : TypeId) : String :=
  match Emission.typeName r t with
  | .ok n => n
  | .error _ => ""

def fieldValue (path : String) : Value :=
  match Native.find? path with
  | some ⟨_, .constant v⟩ => v
  | _ => .null

def crash {α : Type} : Effect α := throw (.crash none)

def callNative (routine key : String) (args : List Value) : Effect Value :=
  match Native.find? key with
  | some ⟨_, .routine r⟩ => ofAction routine (Action.callRoutine key r args)
  | some ⟨_, .constant _⟩ => throw (.fault routine (.notCallable key))
  | none => crash

namespace Environment

def fail {α : Type} (x : Environment) (c : Cause) : Effect α := throw (.ofCause x.routine c)

/-- A result or a fault in the routine. -/
def orFail {α : Type} (x : Environment) : Except Cause α → Effect α
  | .ok a => pure a
  | .error c => x.fail c

def tag (x : Environment) (t : TypeId) : Tag := .ofTypeName (nameOf x.registry t)

def zero (x : Environment) (t : TypeId) : Value := .zero (nameOf x.registry t)

def read (x : Environment) (s : Symbol) : Run Value :=
  match s.kind with
  | .localVariable => return (← get).locals s
  | .parameter i => return x.args.getD i .null
  | .globalVariable => return (← get).shared.globals s
  | .libraryField path => return fieldValue path
  | .overloads => crash (α := Value)

def negation (x : Environment) (v : Value) : Effect Value :=
  x.orFail (Arithmetic.binary .ceq .bool v (.bool false))

def binary (x : Environment) (op? : Option Operator) (operand : TypeId) (a b : Value) :
    Effect Value :=
  match op? with
  | some (.binary op) =>
    match Emission.operation? op with
    | some (o, negated) => do
      let v ← x.orFail (Arithmetic.binary o (x.tag operand) a b)
      if negated then x.negation v else return v
    | none => crash
  | _ => crash

def unary (x : Environment) (op? : Option Operator) (operand : TypeId) (v : Value) :
    Effect Value :=
  match op? with
  | some (.unary .negate) => x.orFail (Arithmetic.unary .neg (x.tag operand) v)
  | some (.unary .plus) => return v
  | some (.unary .not) => x.negation v
  | some (.unary .complement) => x.orFail (Arithmetic.unary .compl (x.tag operand) v)
  | _ => crash

def conversion (x : Environment) (kind : Conversion) (source target : TypeId) (v : Value) :
    Effect Value :=
  match kind with
  | .widen | .numeric => x.orFail (Arithmetic.convert (x.tag source) (x.tag target) v)
  | .box => fun s =>
    .ok (.boxed s.boxes (nameOf x.registry source) v) { s with boxes := s.boxes + 1 }
  | .unbox => ofAction x.routine (Action.unbox (nameOf x.registry target) v)
  | _ => crash

def element (x : Environment) (target index : Value) : Effect Value := fun s =>
  x.orFail (s.machine.element target index) s

def setElement (x : Environment) (target index v : Value) : Effect Unit := fun s =>
  match s.machine.place target index with
  | .ok (ref, i) => .ok () (s.update (s.machine.setElement ref i v))
  | .error c => x.fail c s

def length (x : Environment) (target : Value) : Effect Value := fun s =>
  match s.machine.length target with
  | .ok n => .ok (.int (Int64.ofNat n)) s
  | .error c => x.fail c s

def newArray (x : Environment) (element : TypeId) (size : Value) : Effect Value := do
  let n ← x.orFail size.index
  if n < 0 then x.fail (.negativeSize n)
  else if mostElements < n then crash
  else
    let type := nameOf x.registry element
    fun s => .ok (.array s.heap.size)
      { s with heap := s.heap.push ⟨type, Array.replicate n.toNat (.zero type)⟩ }

def condition (x : Environment) : Value → Effect Bool
  | .bool b => return b
  | _ => x.fail .branchOnNonBool

/-- Runs a routine: its variables are zero at first and forgotten at the end. -/
def activate {α : Type} (x : Environment) (m : Run α) : Effect α := fun s =>
  match m ⟨fun v => x.zero v.type, s⟩ with
  | .ok a σ => .ok a σ.shared
  | .error h σ => .error h σ.shared

end Environment

/-- What calls do that are nested at most to a depth: those of routines of the program, and those of
natives. A call that is nested too deep is a fault of the caller. -/
def callAt {F : Type} (r : Registry) (find? : TypeId → Option F) (name : F → String)
    (run : F → (TypeId → List Value → Effect Value) → List Value → Effect Value) :
    Nat → String → TypeId → List Value → Effect Value
  | depth, caller, callable, args =>
    match find? callable with
    | some f =>
      match depth with
      | 0 => throw (.fault caller (.stackOverflow (name f)))
      | depth + 1 => run f (callAt r find? name run depth (name f)) args
    | none =>
      match r.libraryKey callable with
      | .ok key => callNative caller key args
      | .error _ => crash

def write (s : Symbol) (v : Value) : Run Unit :=
  match s.kind with
  | .localVariable => modify fun σ => { σ with locals := Function.update σ.locals s v }
  | .globalVariable => modify fun σ =>
    { σ with shared := { σ.shared with globals := Function.update σ.shared.globals s v } }
  | _ => crash (α := Unit)

end Execution
end TypedScript
