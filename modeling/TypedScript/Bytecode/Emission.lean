import TypedScript.Bytecode.Builder
import TypedScript.Flat.Tree
import TypedScript.Library

/-!
# Code of flat programs

The code of a routine is first a list of lines: instructions, branches to labels, and the labels
themselves. Then every label is the number of instructions before it, and the branches get their
targets. A variable gets its slot when it is first met.
-/

namespace TypedScript

/-- A line of code before its labels are resolved. -/
inductive CodeLine
  | instruction (i : Instruction)
  | branch (op : Operation) (target : Flat.Label)
  | label (id : Flat.Label)
  deriving DecidableEq, Repr

/-- What is shared by the routines of a program, and the variables of the current one. -/
structure Emitting where
  module : Module
  locals : Array (SymbolId × Slot)

abbrev Emission := StateT Emitting (Except Defect)

/-- What stays the same during emission: the types, the fields of the global variables, and the methods
of the functions. -/
structure EmissionContext where
  registry : Registry
  statics : List (SymbolId × Nat)
  methods : List (TypeId × Nat)

namespace Emission

def typeName (r : Registry) (t : TypeId) : Except Defect String :=
  if t = .error || t = .absent then .error (.untypedCode t) else r.name t

def tagOf (r : Registry) (t : TypeId) : Except Defect Tag := return .ofTypeName (← typeName r t)

def inModule {α : Type} (f : Module → α × Module) : Emission α := do
  let (a, module) := f (← get).module
  modify fun s => { s with module }
  return a

def slotOf (r : Registry) (sym : Symbol) : Emission Nat := do
  match (← get).locals.findIdx? fun l => l.1 = sym.id with
  | some i => return i
  | none =>
    let type ← typeName r sym.type
    let i := (← get).locals.size
    modify fun s => { s with locals := s.locals.push (sym.id, ⟨sym.name, type⟩) }
    return i

def plain (op : Operation) (a : Nat) : CodeLine := .instruction (.plain op a)

def typed (op : Operation) (t : Tag) : CodeLine := .instruction (.typed op t)

def pushConstant (c : Constant) : Emission (List CodeLine) :=
  return [plain .push (← inModule (·.internConstant c))]

def constantOf (value : Option Literal) (t : TypeId) : Constant :=
  match value with
  | none => .null
  | some (.bool v) => .bool v
  | some (.char v) => .char v.val.toInt32
  | some (.string v) => .string v
  | some (.float v) => .float (if t = .builtin .f32 then v.toSingle else v)
  | some (.int v) =>
    if t.isUnsigned then .uint v.toUInt64
    else if t.isFloat then .float (.ofInt v.toInt)
    else .int v
  | some (.uint v) =>
    if t.isSigned then .int v.toInt64
    else if t.isFloat then .float (.ofInt v.toNat)
    else .uint v

def staticOf (c : EmissionContext) (sym : Symbol) : Except Defect Nat :=
  match c.statics.find? fun s => s.1 = sym.id with
  | some s => .ok s.2
  | none => .error (.undeclaredGlobal sym.name)

def load (c : EmissionContext) (sym : Symbol) : Emission (List CodeLine) := do
  match sym.kind with
  | .localVariable => return [plain .loadLocal (← slotOf c.registry sym)]
  | .parameter i => return [plain .loadArg i]
  | .globalVariable => return [plain .loadStatic (← staticOf c sym)]
  | .libraryField path => return [plain .loadNative (← inModule (·.internNative path))]
  | .overloads => throw (.cannotLoad sym.kind.name sym.name)

def storeInto (c : EmissionContext) (sym : Symbol) : Emission (List CodeLine) := do
  match sym.kind with
  | .localVariable => return [plain .storeLocal (← slotOf c.registry sym)]
  | .globalVariable => return [plain .storeStatic (← staticOf c sym)]
  | _ => throw (.cannotStore sym.kind.name sym.name)

/-- Negates the truth value on top of the stack by comparing it with false. -/
def negation : Emission (List CodeLine) :=
  return (← pushConstant (.bool false)) ++ [typed .ceq .bool]

/-- Applies a binary operator to the two values on top of the stack. -/
def binary (op? : Option Operator) (t : Tag) : Emission (List CodeLine) := do
  match op? with
  | some (.binary op) =>
    match op with
    | .add => return [typed .add t]
    | .sub => return [typed .sub t]
    | .mul => return [typed .mul t]
    | .div => return [typed .div t]
    | .rem => return [typed .rem t]
    | .and => return [typed .and t]
    | .or => return [typed .or t]
    | .xor => return [typed .xor t]
    | .shiftLeft => return [typed .shl t]
    | .shiftRight => return [typed .shr t]
    | .equal => return [typed .ceq t]
    | .notEqual => return typed .ceq t :: (← negation)
    | .less => return [typed .clt t]
    | .greater => return [typed .cgt t]
    | .lessEqual => return typed .cgt t :: (← negation)
    | .greaterEqual => return typed .clt t :: (← negation)
    | .andAlso | .orElse => throw (.notBinary op.symbol)
  | some op => throw (.notBinary op.symbol)
  | none => throw (.notBinary "none")

def unary (op? : Option Operator) (t : Tag) : Emission (List CodeLine) := do
  match op? with
  | some (.unary .negate) => return [typed .neg t]
  | some (.unary .plus) => return []
  | some (.unary .not) => negation
  | some (.unary .complement) => return [typed .compl t]
  | some op => throw (.notUnary op.symbol)
  | none => throw (.notUnary "none")

def call (c : EmissionContext) (callable : TypeId) : Emission (List CodeLine) := do
  match c.methods.find? fun m => m.1 = callable with
  | some m => return [plain .call m.2]
  | none =>
    if (← c.registry.callable callable).isIntrinsic then
      throw (.intrinsicCall (← c.registry.fullName callable))
    else
      let key ← c.registry.libraryKey callable
      return [plain .callNative (← inModule (·.internNative key))]

def conversion (c : EmissionContext) (kind : Conversion) (source target : TypeId) :
    Emission (List CodeLine) := do
  match kind with
  | .widen | .numeric =>
    let after ← tagOf c.registry target
    let before ← tagOf c.registry source
    return [.instruction ⟨Operation.convert.code, Int32.ofNat before.toByte.toNat, after.toByte⟩]
  | .box =>
    let name ← typeName c.registry source
    return [plain .box (← inModule (·.internType name))]
  | .unbox =>
    let name ← typeName c.registry target
    return [plain .unbox (← inModule (·.internType name))]
  | _ => throw (.conversionInCode kind.name)

mutual

/-- The code of an expression: it leaves one value, or none if the expression has none. -/
def expr (c : EmissionContext) (routine : String) : Flat.Expr → Emission (List CodeLine)
  | .literal v t => pushConstant (constantOf v t)
  | .symbol s => load c s
  | .assign target value => do
    let value ← expr c routine value
    return value ++ (← storeInto c target)
  | .assignElement array index _ value => do
    let array ← expr c routine array
    let index ← expr c routine index
    let value ← expr c routine value
    return array ++ index ++ value ++ [plain .storeElem 0]
  | .binary op operand left right _ => do
    let left ← expr c routine left
    let right ← expr c routine right
    return left ++ right ++ (← binary op (← tagOf c.registry operand))
  | .unary op operand _ => do
    let code ← expr c routine operand
    return code ++ (← unary op (← tagOf c.registry operand.type))
  | .call callable args _ => do
    let args ← exprs c routine args
    return args ++ (← call c callable)
  | .convert kind operand t => do
    let code ← expr c routine operand
    return code ++ (← conversion c kind operand.type t)
  | .index target index _ => do
    let target ← expr c routine target
    let index ← expr c routine index
    return target ++ index ++ [plain .loadElem 0]
  | .length target => do
    let target ← expr c routine target
    return target ++ [plain .length 0]
  | .newArray element size _ => do
    let size ← expr c routine size
    let name ← typeName c.registry element
    return size ++ [plain .newArray (← inModule (·.internType name))]
  | .invalid => throw (.invalidExpression routine)

def exprs (c : EmissionContext) (routine : String) : List Flat.Expr → Emission (List CodeLine)
  | [] => return []
  | e :: rest => do
    let first ← expr c routine e
    return first ++ (← exprs c routine rest)

end

/-- The code of a statement. It leaves the stack as it was. -/
def stmt (c : EmissionContext) (routine : String) : Flat.Stmt → Emission (List CodeLine)
  | .declare s => do
    let _ ← slotOf c.registry s
    return []
  | .eval e => do
    let code ← expr c routine e
    return if e.type = .builtin .void then code else code ++ [plain .pop 0]
  | .returnStmt none => return [plain .retVoid 0]
  | .returnStmt (some e) => return (← expr c routine e) ++ [plain .ret 0]
  | .jump target => return [.branch .jump target]
  | .jumpIf cond target => return (← expr c routine cond) ++ [.branch .jumpTrue target]
  | .label id => return [.label id]

def stmts (c : EmissionContext) (routine : String) : List Flat.Stmt → Emission (List CodeLine)
  | [] => return []
  | s :: rest => do
    let first ← stmt c routine s
    return first ++ (← stmts c routine rest)

/-- The number of instructions before each label, behind those found so far. -/
def labelsFrom (routine : String) (position : Nat) (found : List (Flat.Label × Nat)) :
    List CodeLine → Except Defect (List (Flat.Label × Nat))
  | [] => .ok found
  | .label id :: rest =>
    if found.any fun l => l.1 = id then .error (.duplicateLabel routine id)
    else labelsFrom routine position (found ++ [(id, position)]) rest
  | _ :: rest => labelsFrom routine (position + 1) found rest

def resolved (routine : String) (labels : List (Flat.Label × Nat)) :
    List CodeLine → Except Defect (List Instruction)
  | [] => .ok []
  | .label _ :: rest => resolved routine labels rest
  | .instruction i :: rest => return i :: (← resolved routine labels rest)
  | .branch op target :: rest =>
    match labels.find? fun l => l.1 = target with
    | some l => return .plain op l.2 :: (← resolved routine labels rest)
    | none => .error (.undefinedLabel routine target)

def assemble (routine : String) (lines : List CodeLine) : Except Defect (List Instruction) := do
  resolved routine (← labelsFrom routine 0 [] lines) lines

def routine (c : EmissionContext) (index : Nat) (f : Flat.Routine) : Emission Unit := do
  modify fun s => { s with locals := #[] }
  let lines ← stmts c f.name f.body
  let code ← assemble f.name lines
  let locals := (← get).locals.map Prod.snd
  modify fun s =>
    { s with
      module := { s.module with
        methods := s.module.methods.modify index fun m =>
          m.map fun m => { m with locals, code := code.toArray } } }

/-- Emits the bodies of routines whose methods stand in order from an index on. -/
def routinesFrom (c : EmissionContext) : Nat → List Flat.Routine → Emission Unit
  | _, [] => return
  | i, f :: rest => do
    routine c i f
    routinesFrom c (i + 1) rest

def fieldOf (r : Registry) (sym : Symbol) : Except Defect Field :=
  return ⟨sym.name, ← typeName r sym.type⟩

def methodOf (r : Registry) (f : Flat.Routine) : Except Defect Method := do
  let params ← f.params.mapM fun p => typeName r p.type
  return ⟨f.name, params.toArray, ← typeName r f.result, #[], #[]⟩

end Emission

/-- The module of a flat program. Fields and methods are declared first, so that code may refer to
what comes later. -/
def Module.ofFlat (name : String) (r : Registry) (p : Flat.Program) : Except Defect Module := do
  let fields ← p.globals.mapM (Emission.fieldOf r)
  let methods ← p.routines.mapM (Emission.methodOf r)
  let context : EmissionContext :=
    { registry := r
      statics := (p.globals.map Symbol.id).zipIdx
      methods := (p.routines.map Flat.Routine.callable).zipIdx.filter fun m => m.1 ≠ .absent }
  let module : Module :=
    { Module.empty name with
      fields := fields.toArray
      methods := (methods.map some).toArray
      initializer := 0
      entry := (p.entry?.map Int.ofNat).getD (-1) }
  let ((), s) ← (Emission.routinesFrom context 0 p.routines).run ⟨module, #[]⟩
  return s.module

end TypedScript
