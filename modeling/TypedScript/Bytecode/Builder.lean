import TypedScript.Bytecode.Module

/-!
# Building modules

A module is built step by step. Constants, type names and natives are entered once: a second request
for the same entry gives the same index. Methods are filled in any order after they are declared.
-/

namespace TypedScript

def intern {α : Type} [DecidableEq α] (table : Array α) (a : α) : Nat × Array α :=
  match table.findIdx? (· = a) with
  | some i => (i, table)
  | none => (table.size, table.push a)

/-- A step that the module being built does not allow. -/
inductive BuildFault
  | noSuchMethod
  | patchOutOfRange (index : Int) (method : String)
  | patchOfNonBranch (opcode : String) (index : Int) (method : String)
  deriving DecidableEq, Repr

def BuildFault.message? : BuildFault → Option String
  | noSuchMethod => none
  | patchOutOfRange index method =>
    some ("vm: patch index " ++ toString index ++ " out of range in " ++ method)
  | patchOfNonBranch opcode index method =>
    some ("vm: patch of non-branch " ++ opcode ++ " at " ++ toString index ++ " in " ++ method)

namespace Module

def declareField (m : Module) (name type : String) : Nat × Module :=
  (m.fields.size, { m with fields := m.fields.push ⟨name, type⟩ })

def declareMethod (m : Module) (name : String) (params : Array String) (result : String) :
    Nat × Module :=
  (m.methods.size, { m with methods := m.methods.push (some ⟨name, params, result, #[], #[]⟩) })

def internConstant (m : Module) (c : Constant) : Nat × Module :=
  let (i, constants) := intern m.constants c
  (i, { m with constants })

def internType (m : Module) (name : String) : Nat × Module :=
  let (i, types) := intern m.types name
  (i, { m with types })

def internNative (m : Module) (key : String) : Nat × Module :=
  let (i, natives) := intern m.natives key
  (i, { m with natives })

def updateMethod {α : Type} (m : Module) (index : Int) (f : Method → Except BuildFault (α × Method)) :
    Except BuildFault (α × Module) :=
  if index < 0 then .error .noSuchMethod
  else match m.method? index.toNat with
    | none => .error .noSuchMethod
    | some method => do
      let (a, method) ← f method
      return (a, { m with methods := m.methods.set! index.toNat (some method) })

end Module

namespace Method

def declareLocal (f : Method) (name type : String) : Nat × Method :=
  (f.locals.size, { f with locals := f.locals.push ⟨name, type⟩ })

def append (f : Method) (i : Instruction) : Nat × Method :=
  (f.code.size, { f with code := f.code.push i })

def patch (f : Method) (index : Int) (target : Int) : Except BuildFault Method :=
  if index < 0 then .error (.patchOutOfRange index f.name)
  else match f.code[index.toNat]? with
    | none => .error (.patchOutOfRange index f.name)
    | some i =>
      if i.operation?.any Operation.isJump then
        .ok { f with code := f.code.set! index.toNat { i with operand := Int32.ofInt target } }
      else .error (.patchOfNonBranch i.name index f.name)

end Method
end TypedScript
