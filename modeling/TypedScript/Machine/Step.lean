import TypedScript.Machine.Arithmetic
import TypedScript.Machine.State

/-!
# Steps

What each instruction does.
-/

namespace TypedScript

def Value.index : Value → Except Cause Int
  | .int v => .ok v.toInt
  | .uint v => .ok v.toInt64.toInt
  | v => .error (.indexRepresentation v.representation)

def mostElements : Int := 0x100000000000

def entryAt {α : Type} (items : Array α) (i : Int) : Except Cause α :=
  if i < 0 then .error (.indexOutOfRange i items.size)
  else match items[i.toNat]? with
    | some a => .ok a
    | none => .error (.indexOutOfRange i items.size)

namespace Machine

def items (m : Machine) (ref : Nat) : Array Value := (m.heap[ref]?.map ArrayObject.items).getD #[]

def element (m : Machine) (target index : Value) : Except Cause Value := do
  let i ← index.index
  match target with
  | .array ref => entryAt (m.items ref) i
  | .string s =>
    let c ← entryAt s.toList.toArray i
    return .char (Int32.ofNat c.toNat)
  | .null => throw .indexOfNull
  | v => throw (.notIndexable v.representation)

def place (m : Machine) (target index : Value) : Except Cause (Nat × Nat) := do
  let i ← index.index
  match target with
  | .array ref =>
    let _ ← entryAt (m.items ref) i
    return (ref, i.toNat)
  | .null => throw .indexOfNull
  | v => throw (.notStorable v.representation)

def setElement (m : Machine) (ref i : Nat) (v : Value) : Machine :=
  { m with heap := m.heap.modify ref fun a => { a with items := a.items.set! i v } }

def length (m : Machine) : Value → Except Cause Nat
  | .array ref => .ok (m.items ref).size
  | .string s => .ok s.length
  | .null => .error .lengthOfNull
  | v => .error (.noLength v.representation)

def write (m : Machine) (s : String) : Machine := { m with output := m.output ++ s }

end Machine

namespace Action

def apply (f : Machine → Value × Machine) : Action Value := fun m =>
  let (v, m) := f m
  .ok v m

def jump (target : Int) : Action Unit :=
  modify fun m => match m.calls with
    | [] => m
    | f :: rest => { m with calls := { f with next := target } :: rest }

/-- Waits for input before the instruction that was just taken. -/
def await {α : Type} : Action α := do
  modify fun m => match m.calls with
    | [] => m
    | f :: rest => { m with calls := { f with next := f.next - 1 } :: rest }
  throw .awaitInput

/-- The text of a value. Writing an array that contains itself never comes to an end. -/
def text (v : Value) : Action String := do
  orCrash (v.format? (← get).heap)

def unbox (wanted : String) : Value → Action Value
  | .boxed _ type content =>
    if type = wanted then pure content else fail (.unboxFailed type wanted)
  | v => do fail (.unboxFailed (← text v) wanted)

def randomBits : Action UInt64 := fun m =>
  let (bits, generator) := m.generator.next
  .ok bits { m with generator }

/-- A random integer from `low` on below `high`. The size of the range has to fit 64 bits. -/
def randomBetween (key : String) (low high : Int64) : Action Value := do
  if high < low then fail (.emptyRange key low.toInt high.toInt)
  else if high = low then return .int low
  else if high - low ≤ 0 then throw (.crash (some "invalid argument to Int63n"))
  else
    let bits ← randomBits
    return .int (low + Int64.ofNat (bits.toNat % (high - low).toInt.toNat))

/-- What a routine does. Arguments of a kind that it does not take are not checked for. -/
def callRoutine (key : String) (r : Routine) (args : List Value) : Action Value := do
  match r, args with
  | .print line, [v] =>
    let s ← text v
    modify fun m => m.write (if line then s ++ "\n" else s)
    return .null
  | .newline, [] =>
    modify fun m => m.write "\n"
    return .null
  | .input, [] =>
    match (← get).input.line? with
    | none => await
    | some (line, input) =>
      modify fun m => { m with input }
      return .string line
  | .random, [] =>
    let bits ← randomBits
    return .float (Double.ofRatio .double false (bits.toNat / 0x800) 0x20000000000000)
  | .randomBetween, [.int low, .int high] => randomBetween key low high
  | .abs t, [.int v] => return .int (if v < 0 then Arithmetic.wrapSigned t (-v) else v)
  | .absFloat, [.float v] => return .float v.abs
  | .sqrt, [.float v] => return .float v.sqrt
  | .exit, [.int code] => throw (.exit code.toInt)
  | .clock, [] =>
    let m ← get
    let now := m.clock.now + m.clock.tick
    modify fun m => { m with clock := { m.clock with now } }
    return .int (Int64.ofInt now)
  | .concat, [a, b] => return .string ((← text a) ++ (← text b))
  | .equalTexts, [.string a, .string b] => return .bool (a == b)
  | .equalObjects, [a, b] => return .bool (a.objectEquals b)
  | .toText, [v] => return .string (← text v)
  | .parse t, [.string s] =>
    match Value.parse? t s with
    | some v => return v
    | none => fail (.unreadable key s t)
  | _, _ => crash

def callNative (i : Int) : Action Unit := do
  let m ← get
  let native ← entry m.natives i
  match native.body with
  | .constant _ => fail (.notCallable native.key)
  | .routine r =>
    let args ← popArgs r.arity
    let v ← callRoutine native.key r args
    if r.returns then push v

def loadNative (i : Int) : Action Unit := do
  let m ← get
  let native ← entry m.natives i
  match native.body with
  | .constant v => push v
  | .routine _ => fail (.notField native.key)

def loadStatic (i : Int) : Action Unit := do
  let m ← get
  push (← entry (m.statics?.getD #[]) i)

def storeStatic (i : Int) : Action Unit := do
  let v ← peek
  let m ← get
  let _ ← entry (m.statics?.getD #[]) i
  modify fun m => { m with statics? := m.statics?.map fun s => s.set! i.toNat v }

def newArray (type : String) : Action Unit := do
  let n ← orFail (← pop).index
  if n < 0 then fail (.negativeSize n)
  else if mostElements < n then crash
  else push (← apply fun m => m.addArray ⟨type, Array.replicate n.toNat (Value.zero type)⟩)

/-- What an instruction does that is no return, in the call `f` of a method. -/
def perform (op : Operation) (i : Instruction) (f : Activation) (method : Method) :
    Action Unit := do
  let a := i.operand.toInt
  match op with
  | .nop => return
  | .pop => let _ ← pop
  | .dup => push (← peek)
  | .push =>
    let m ← get
    push (← entry m.module.constants a).value
  | .loadArg => push (← cell (f.base + a))
  | .loadLocal => push (← cell (f.base + method.params.size + a))
  | .storeLocal => setCell (f.base + method.params.size + a) (← peek)
  | .loadStatic => loadStatic a
  | .storeStatic => storeStatic a
  | .loadNative => loadNative a
  | .neg | .compl =>
    let v ← pop
    push (← orFail (Arithmetic.unary op i.tag v))
  | .convert =>
    let v ← pop
    push (← orFail (Arithmetic.convert (Tag.ofByte i.operand.toUInt32.toUInt8) i.tag v))
  | .box =>
    let type ← entry (← get).module.types a
    let v ← pop
    push (← apply fun m => m.box type v)
  | .unbox =>
    let wanted ← entry (← get).module.types a
    let v ← pop
    push (← unbox wanted v)
  | .newArray => newArray (← entry (← get).module.types a)
  | .loadElem =>
    let index ← pop
    let target ← pop
    push (← orFail ((← get).element target index))
  | .storeElem =>
    let v ← pop
    let index ← pop
    let target ← pop
    let (ref, i) ← orFail ((← get).place target index)
    modify fun m => m.setElement ref i v
    push v
  | .length =>
    let v ← pop
    push (.int (Int64.ofNat (← orFail ((← get).length v))))
  | .call => enter a
  | .callNative => callNative a
  | .jump => jump a
  | .jumpTrue =>
    match ← pop with
    | .bool true => jump a
    | .bool false => return
    | _ => fail .branchOnNonBool
  | .ret | .retVoid => return
  | .add | .sub | .mul | .div | .rem | .and | .or | .xor | .shl | .shr | .ceq | .clt | .cgt =>
    let y ← pop
    let x ← pop
    push (← orFail (Arithmetic.binary op i.tag x y))

/-- The instruction to be taken next, with its call and its method. The call moves on to the
instruction after it. -/
def fetch : Action (Activation × Method × Instruction) := do
  let m ← get
  match m.calls with
  | [] => crash
  | f :: rest =>
    let method ← methodAt f.method
    if f.next < 0 then crash
    else match method.code[f.next.toNat]? with
      | none => fail (.fellOffEnd method.name)
      | some i =>
        modify fun m => { m with calls := { f with next := f.next + 1 } :: rest }
        return (f, method, i)

/-- One step. It gives the result when it ends the call above the `depth` lowest ones. -/
def step (depth : Nat) : Action (Option Value) := do
  let (f, method, i) ← fetch
  match i.operation? with
  | none => fail (.unknownOperation i.name)
  | some .ret =>
    let v ← pop
    leave
    if (← get).calls.length = depth then return some v
    else
      push v
      return none
  | some .retVoid =>
    leave
    if (← get).calls.length = depth then return some .null else return none
  | some op =>
    perform op i f method
    return none

end Action
end TypedScript
