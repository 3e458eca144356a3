import TypedScript.Bytecode.Module
import TypedScript.Machine.Native

/-!
# The state of the machine

The machine runs the methods of one module on a stack of values. The arguments and locals of a call
lie on the stack below its operands, from the base of its activation on. Cells above the top keep
what was last stored there, and a value that is taken off leaves null behind.
-/

namespace TypedScript

/-- A call in progress: the method, the next instruction, and where its arguments begin. -/
structure Activation where
  method : Int
  next : Int
  base : Int
  deriving DecidableEq, Repr

/-- What a program can still read, and whether no more will come. -/
structure Input where
  pending : List Char
  ended : Bool
  deriving DecidableEq, Repr

namespace Input

def ofString (s : String) : Input := ⟨s.toList, true⟩

/-- The line without its end; a carriage return before the end belongs to it. -/
def withoutReturn (line : List Char) : String :=
  match line.reverse with
  | '\r' :: rest => String.ofList rest.reverse
  | _ => String.ofList line

/-- The next line and what comes after it; nothing when the line is not complete and more may come. At
the end of the input the line is empty. -/
def line? (i : Input) : Option (String × Input) :=
  let line := i.pending.takeWhile (· != '\n')
  match i.pending.dropWhile (· != '\n') with
  | _ :: rest => some (withoutReturn line, { i with pending := rest })
  | [] => if i.ended then some (withoutReturn line, { i with pending := [] }) else none

end Input

/-- The clock that programs read, in milliseconds since the machine was made. It moves on by `tick`
whenever it is read. -/
structure Clock where
  now : Int
  tick : Int
  deriving DecidableEq, Repr

/-- A source of random bits. -/
structure Generator where
  state : UInt64
  deriving DecidableEq, Repr

/-- The next 64 random bits: a counter in large steps whose value is mixed. -/
def Generator.next (g : Generator) : UInt64 × Generator :=
  let s := g.state + 0x9E3779B97F4A7C15
  let z := (s ^^^ (s >>> 30)) * 0xBF58476D1CE4E5B9
  let z := (z ^^^ (z >>> 27)) * 0x94D049BB133111EB
  (z ^^^ (z >>> 31), ⟨s⟩)

/-- How to run a module. -/
structure Settings where
  input : Input
  tick : Int
  maxDepth : Int
  seed : UInt64
  deriving DecidableEq, Repr

/-- How deep calls may be nested unless it is said. -/
def defaultMaxDepth : Int := 1024

/-- No input, a clock that stands, and the usual depth. -/
def Settings.standard : Settings := ⟨⟨[], true⟩, 0, defaultMaxDepth, 0⟩

/-- A machine with a module. The static fields exist from the first call on. -/
structure Machine where
  module : Module
  natives : Array Native
  statics? : Option (Array Value)
  cells : Array Value
  top : Int
  calls : List Activation
  heap : Heap
  boxes : Nat
  input : Input
  output : String
  clock : Clock
  generator : Generator
  maxDepth : Int

/-- Why a module cannot be loaded. -/
inductive LoadFault
  | unknownNative (module key : String)
  | operandOutOfRange (module : String) (index : Nat) (method op : String) (operand : Int) (pc : Nat)
  | missingMethod
  deriving DecidableEq, Repr

def LoadFault.message? : LoadFault → Option String
  | unknownNative module key => some ("module " ++ module ++ ": unknown native " ++ Text.quote key)
  | operandOutOfRange module index method op operand pc =>
    some ("module " ++ module ++ ": method " ++ toString index ++ ": " ++ method ++ ": " ++ op ++
      " operand " ++ toString operand ++ " out of range at " ++ Text.paddedDecimal 4 pc)
  | missingMethod => none

namespace Module

/-- The number of entries in the table that a kind of operand refers to. -/
def limit? (m : Module) (f : Method) : OperandKind → Option Nat
  | .constant => some m.constants.size
  | .argument => some f.params.size
  | .slot => some f.locals.size
  | .field => some m.fields.size
  | .native => some m.natives.size
  | .method => some m.methods.size
  | .type => some m.types.size
  | .target => some f.code.size
  | .none | .tag => none

def inRange (m : Module) (f : Method) (i : Instruction) : Bool :=
  match i.operation?.bind fun op => m.limit? f op.operand with
  | none => true
  | some limit => 0 ≤ i.operand.toInt && i.operand.toInt < limit

def badOperand? (m : Module) (f : Method) : Option (Nat × Instruction) := do
  let pc ← f.code.findIdx? fun i => !m.inRange f i
  return (pc, ← f.code[pc]?)

def checkMethods (m : Module) (index : Nat) : List (Option Method) → Except LoadFault Unit
  | [] => .ok ()
  | none :: _ => .error .missingMethod
  | some f :: rest =>
    match m.badOperand? f with
    | some (pc, i) =>
      .error (.operandOutOfRange m.name index f.name i.name i.operand.toInt pc)
    | none => m.checkMethods (index + 1) rest

def linkNatives (m : Module) : Except LoadFault (List Native) :=
  m.natives.toList.mapM fun key =>
    match Native.find? key with
    | some n => .ok n
    | none => .error (.unknownNative m.name key)

end Module

namespace Machine

def firstCells : Nat := 1024

/-- Prepares a module for execution. All natives have to be known, and all operands in range. -/
def load (m : Module) (s : Settings) : Except LoadFault Machine := do
  let natives ← m.linkNatives
  m.checkMethods 0 m.methods.toList
  return {
    module := m
    natives := natives.toArray
    statics? := none
    cells := Array.replicate firstCells .null
    top := 0
    calls := []
    heap := #[]
    boxes := 0
    input := s.input
    output := ""
    clock := ⟨0, s.tick⟩
    generator := ⟨s.seed⟩
    maxDepth := s.maxDepth }

def locate (m : Machine) (c : Cause) : RuntimeFault :=
  match m.calls with
  | [] => ⟨"", 0, c⟩
  | f :: _ => ⟨((m.module.method? f.method.toNat).map Method.name).getD "", f.next - 1, c⟩

def freshStatics (m : Machine) : Array Value := m.module.fields.map fun f => Value.zero f.type

def resetStatics (m : Machine) : Machine := { m with statics? := some m.freshStatics }

def addArray (m : Machine) (a : ArrayObject) : Value × Machine :=
  (.array m.heap.size, { m with heap := m.heap.push a })

def box (m : Machine) (type : String) (v : Value) : Value × Machine :=
  (.boxed m.boxes type v, { m with boxes := m.boxes + 1 })

end Machine

/-- What an instruction does: it changes the machine and may stop it. What it changed before it
stopped stays. -/
abbrev Action := EStateM Stop Machine

namespace Action

def crash {α : Type} : Action α := throw (.crash none)

def fail {α : Type} (c : Cause) : Action α := fun m => .error (.fault (m.locate c)) m

def orFail {α : Type} : Except Cause α → Action α
  | .ok a => pure a
  | .error c => fail c

def orCrash {α : Type} : Option α → Action α
  | some a => pure a
  | none => crash

/-- Puts a value on the stack, which grows to twice its size when it is full. -/
def push (v : Value) : Action Unit := fun m =>
  if m.top < 0 then .error (.crash none) m
  else
    let i := m.top.toNat
    if i < m.cells.size then .ok () { m with cells := m.cells.set! i v, top := m.top + 1 }
    else
      .ok () { m with
        cells := (m.cells ++ Array.replicate m.cells.size Value.null).set! i v
        top := m.top + 1 }

def pop : Action Value := fun m =>
  let top := m.top - 1
  if top < 0 then .error (.crash none) { m with top }
  else match m.cells[top.toNat]? with
    | none => .error (.crash none) { m with top }
    | some v => .ok v { m with cells := m.cells.set! top.toNat .null, top }

/-- Takes several values off the stack. -/
def popMany : Nat → Action Unit
  | 0 => pure ()
  | n + 1 => do
    let _ ← pop
    popMany n

/-- Takes the arguments of a call off the stack; the last is on top. -/
def popArgs (n : Nat) : Action (List Value) :=
  go n []
where
  go : Nat → List Value → Action (List Value)
    | 0, args => pure args
    | n + 1, args => do
      let v ← pop
      go n (v :: args)

def cell (i : Int) : Action Value := fun m =>
  if i < 0 then .error (.crash none) m
  else match m.cells[i.toNat]? with
    | none => .error (.crash none) m
    | some v => .ok v m

def setCell (i : Int) (v : Value) : Action Unit := fun m =>
  if i < 0 ∨ (m.cells.size : Int) ≤ i then .error (.crash none) m
  else .ok () { m with cells := m.cells.set! i.toNat v }

def peek : Action Value := fun m => cell (m.top - 1) m

/-- An entry of a table; outside of it nothing is checked. -/
def entry {α : Type} (table : Array α) (i : Int) : Action α :=
  if i < 0 then crash else orCrash table[i.toNat]?

def methodAt (i : Int) : Action Method := do
  let m ← get
  orCrash (← entry m.module.methods i)

/-- Begins a call of a method whose arguments are on the stack. -/
def enter (method : Int) : Action Unit := do
  let f ← methodAt method
  let m ← get
  if m.maxDepth ≤ m.calls.length then fail (.stackOverflow f.name)
  else
    let base := m.top - f.params.size
    f.locals.toList.forM fun slot => push (Value.zero slot.type)
    modify fun m => { m with calls := ⟨method, 0, base⟩ :: m.calls }

/-- Ends the current call and takes its arguments and locals off the stack. -/
def leave : Action Unit := do
  let m ← get
  match m.calls with
  | [] => crash
  | f :: rest =>
    popMany (m.top - f.base).toNat
    modify fun m => { m with calls := rest }

end Action
end TypedScript
