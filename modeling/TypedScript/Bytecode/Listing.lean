import TypedScript.Bytecode.Module

/-!
# Listings of modules

Fields, methods and instructions, one a line. An operand that refers to a table is followed by what it
refers to.
-/

namespace TypedScript
namespace Module

def describeOperand (m : Module) (kind : OperandKind) (a : Int) : String :=
  if a < 0 then ""
  else
    let i := a.toNat
    match kind with
    | .constant => (m.constants[i]?.map Constant.display).getD ""
    | .field => (m.fields[i]?.map Field.name).getD ""
    | .native => m.natives[i]?.getD ""
    | .method => ((m.method? i).map Method.name).getD ""
    | .type => m.types[i]?.getD ""
    | _ => ""

def instructionText (m? : Option Module) (position : Int) (i : Instruction) : String :=
  let place := Text.paddedDecimal 4 position ++ "  "
  let kind := (i.operation?.map Operation.operand).getD .none
  let suffix := match i.operation? with
    | some .convert => ""
    | some op => if op.isTyped then "." ++ i.tag.name else ""
    | none => ""
  let head := place ++ i.name ++ suffix
  let a := i.operand.toInt
  match kind with
  | .none => head
  | .target => head ++ " " ++ Text.paddedDecimal 4 a
  | .tag => head ++ " " ++ (Tag.ofByte (UInt8.ofInt a)).name ++ " -> " ++ i.tag.name
  | _ =>
    let detail := (m?.map fun m => m.describeOperand kind a).getD ""
    if detail.isEmpty then head ++ " " ++ toString a
    else head ++ " " ++ toString a ++ " ; " ++ detail

def codeLines (m : Module) (code : Array Instruction) : List String :=
  code.toList.zipIdx.map fun (ins, i) => instructionText (some m) i ins

def codeListing (m : Module) (code : Array Instruction) : String :=
  String.intercalate "\n" (m.codeLines code)

def methodListing (m : Module) (index : Nat) (f : Method) : String :=
  let marks := (if m.initializer = index then " .init" else "") ++
    (if m.entry = index then " .entry" else "")
  let head := ".method " ++ toString index ++ " " ++ f.name ++ "(" ++
    String.intercalate ", " f.params.toList ++ "): " ++ f.result ++ marks ++ "\n"
  let locals := f.locals.toList.zipIdx.map fun (l, i) =>
    "  .local " ++ toString i ++ " " ++ l.name ++ ": " ++ l.type ++ "\n"
  let code := (m.codeLines f.code).map fun line => "  " ++ line ++ "\n"
  head ++ String.join locals ++ String.join code

def listing? (m : Module) : Option String := do
  let id := if m.id.isEmpty then "" else "; module " ++ m.id ++ "\n"
  let fields := m.fields.toList.zipIdx.map fun (f, i) =>
    ".field " ++ toString i ++ " " ++ f.name ++ ": " ++ f.type ++ "\n"
  let methods ← m.methods.toList.zipIdx.mapM fun (f?, i) => f?.map (m.methodListing i)
  return id ++ String.join fields ++ String.join methods

end Module
end TypedScript
