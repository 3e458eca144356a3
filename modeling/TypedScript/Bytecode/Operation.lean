import TypedScript.Bytecode.Tag
import TypedScript.Text.Numeral

/-!
# Operations

The operations of the stack machine: their codes, their names, and what their operand means.
-/

namespace TypedScript

/-- What the operand of an instruction refers to. -/
inductive OperandKind
  | none | constant | argument | slot | field | native | method | type | tag | target
  deriving DecidableEq, Repr

def OperandKind.number : OperandKind → Nat
  | none => 0
  | constant => 1
  | argument => 2
  | slot => 3
  | field => 4
  | native => 5
  | method => 6
  | type => 7
  | tag => 8
  | target => 9

/-- An operation of the machine. Stores leave the stored value on the stack. -/
inductive Operation
  | nop | pop | dup
  | push
  | loadArg | loadLocal | storeLocal | loadStatic | storeStatic | loadNative
  | add | sub | mul | div | rem | neg | and | or | xor | shl | shr | compl
  | ceq | clt | cgt
  | convert | box | unbox
  | newArray | loadElem | storeElem | length
  | call | callNative
  | jump | jumpTrue
  | ret | retVoid
  deriving DecidableEq, Repr

namespace Operation

def code : Operation → UInt8
  | nop => 0x00
  | pop => 0x01
  | dup => 0x02
  | push => 0x10
  | loadArg => 0x20
  | loadLocal => 0x21
  | storeLocal => 0x22
  | loadStatic => 0x23
  | storeStatic => 0x24
  | loadNative => 0x25
  | add => 0x30
  | sub => 0x31
  | mul => 0x32
  | div => 0x33
  | rem => 0x34
  | neg => 0x35
  | and => 0x36
  | or => 0x37
  | xor => 0x38
  | shl => 0x39
  | shr => 0x3A
  | compl => 0x3B
  | ceq => 0x40
  | clt => 0x41
  | cgt => 0x42
  | convert => 0x50
  | box => 0x51
  | unbox => 0x52
  | newArray => 0x60
  | loadElem => 0x61
  | storeElem => 0x62
  | length => 0x63
  | call => 0x70
  | callNative => 0x71
  | jump => 0x80
  | jumpTrue => 0x81
  | ret => 0x90
  | retVoid => 0x91

def ofCode? (c : UInt8) : Option Operation :=
  match c with
  | 0x00 => some nop
  | 0x01 => some pop
  | 0x02 => some dup
  | 0x10 => some push
  | 0x20 => some loadArg
  | 0x21 => some loadLocal
  | 0x22 => some storeLocal
  | 0x23 => some loadStatic
  | 0x24 => some storeStatic
  | 0x25 => some loadNative
  | 0x30 => some add
  | 0x31 => some sub
  | 0x32 => some mul
  | 0x33 => some div
  | 0x34 => some rem
  | 0x35 => some neg
  | 0x36 => some and
  | 0x37 => some or
  | 0x38 => some xor
  | 0x39 => some shl
  | 0x3A => some shr
  | 0x3B => some compl
  | 0x40 => some ceq
  | 0x41 => some clt
  | 0x42 => some cgt
  | 0x50 => some convert
  | 0x51 => some box
  | 0x52 => some unbox
  | 0x60 => some newArray
  | 0x61 => some loadElem
  | 0x62 => some storeElem
  | 0x63 => some length
  | 0x70 => some call
  | 0x71 => some callNative
  | 0x80 => some jump
  | 0x81 => some jumpTrue
  | 0x90 => some ret
  | 0x91 => some retVoid
  | _ => none

def name : Operation → String
  | nop => "nop"
  | pop => "pop"
  | dup => "dup"
  | push => "push"
  | loadArg => "ldarg"
  | loadLocal => "ldloc"
  | storeLocal => "stloc"
  | loadStatic => "ldsfld"
  | storeStatic => "stsfld"
  | loadNative => "ldnative"
  | add => "add"
  | sub => "sub"
  | mul => "mul"
  | div => "div"
  | rem => "rem"
  | neg => "neg"
  | and => "and"
  | or => "or"
  | xor => "xor"
  | shl => "shl"
  | shr => "shr"
  | compl => "compl"
  | ceq => "ceq"
  | clt => "clt"
  | cgt => "cgt"
  | convert => "conv"
  | box => "box"
  | unbox => "unbox"
  | newArray => "newarr"
  | loadElem => "ldelem"
  | storeElem => "stelem"
  | length => "len"
  | call => "call"
  | callNative => "callnative"
  | jump => "br"
  | jumpTrue => "brtrue"
  | ret => "ret"
  | retVoid => "retvoid"

def all : List Operation :=
  [nop, pop, dup, push, loadArg, loadLocal, storeLocal, loadStatic, storeStatic, loadNative, add,
    sub, mul, div, rem, neg, and, or, xor, shl, shr, compl, ceq, clt, cgt, convert, box, unbox,
    newArray, loadElem, storeElem, length, call, callNative, jump, jumpTrue, ret, retVoid]

def ofName? (name : String) : Option Operation := all.find? fun o => o.name == name

def operand : Operation → OperandKind
  | push => .constant
  | loadArg => .argument
  | loadLocal | storeLocal => .slot
  | loadStatic | storeStatic => .field
  | loadNative | callNative => .native
  | convert => .tag
  | box | unbox | newArray => .type
  | call => .method
  | jump | jumpTrue => .target
  | _ => .none

def isTyped : Operation → Bool
  | add | sub | mul | div | rem | neg | and | or | xor | shl | shr | compl | ceq | clt | cgt
  | convert => true
  | _ => false

/-- By how much the stack grows; for calls that depends on what is called, and a number stands there
that no other operation has. -/
def stackEffect : Operation → Int
  | dup | push | loadArg | loadLocal | loadStatic | loadNative => 1
  | pop | add | sub | mul | div | rem | and | or | xor | shl | shr | ceq | clt | cgt => -1
  | loadElem | jumpTrue | ret => -1
  | storeElem => -2
  | call | callNative => -99
  | _ => 0

def isJump : Operation → Bool
  | jump | jumpTrue => true
  | _ => false

end Operation

/-- An instruction as it is stored: any byte can stand for the operation and for the tag. -/
structure Instruction where
  opcode : UInt8
  operand : Int32
  tagByte : UInt8
  deriving DecidableEq, Repr

namespace Instruction

def operation? (i : Instruction) : Option Operation := Operation.ofCode? i.opcode

def tag (i : Instruction) : Tag := Tag.ofByte i.tagByte

def opcodeName (code : UInt8) : String :=
  match Operation.ofCode? code with
  | some op => op.name
  | none => "unknown_" ++ Text.hexadecimal 2 code.toNat

def name (i : Instruction) : String := opcodeName i.opcode

def plain (op : Operation) (a : Int) : Instruction := ⟨op.code, Int32.ofInt a, 0⟩

def typed (op : Operation) (t : Tag) : Instruction := ⟨op.code, 0, t.toByte⟩

end Instruction
end TypedScript
