import TypedScript.Number.Format

/-!
# Run-time values

What a running program computes with. Arrays are shared and mutable, so a value holds only a
reference to one; their contents are on the heap. A boxed value is a value seen as an object: it
remembers its static type, and has an identity of its own.
-/

namespace TypedScript

/-- A run-time value. Integers of all widths are kept in 64 bits. -/
inductive Value
  | null
  | int (v : Int64)
  | uint (v : UInt64)
  | float (v : Double)
  | bool (v : Bool)
  | char (v : Int32)
  | string (v : String)
  | array (ref : Nat)
  | boxed (id : Nat) (type : String) (content : Value)
  deriving DecidableEq, Repr, Inhabited

structure ArrayObject where
  element : String
  items : Array Value
  deriving Repr, Inhabited

/-- The arrays that a program has made; a reference is an index. -/
abbrev Heap := Array ArrayObject

/-- The text of a code point; what is none counts as the replacement character. -/
def codePointChar (v : Int32) : Char :=
  if h : v.toInt.toNat.isValidChar then
    if 0 ≤ v then Char.ofNatAux v.toInt.toNat h else '\uFFFD'
  else '\uFFFD'

namespace Value

def representation : Value → String
  | null => "<nil>"
  | int _ => "int64"
  | uint _ => "uint64"
  | float _ => "float64"
  | bool _ => "bool"
  | char _ => "int32"
  | string _ => "string"
  | array _ => "*vm.Array"
  | boxed _ _ _ => "*vm.Boxed"

def formatWith? (arrayText? : Nat → Option String) : Value → Option String
  | null => some "null"
  | int v => some (toString v.toInt)
  | uint v => some (toString v.toNat)
  | float v => some v.format
  | bool v => some (if v then "true" else "false")
  | char v => some (String.singleton (codePointChar v))
  | string v => some v
  | array ref => arrayText? ref
  | boxed _ _ content => content.formatWith? arrayText?

/-- The text of a value in which arrays are nested at most to the given depth. -/
def formatWithin? (heap : Heap) : Nat → Value → Option String
  | 0, v => v.formatWith? fun _ => none
  | depth + 1, v =>
    v.formatWith? fun ref => do
      let items := (heap[ref]?.map ArrayObject.items).getD #[]
      let texts ← items.toList.mapM (formatWithin? heap depth)
      return "[" ++ String.intercalate ", " texts ++ "]"

/-- The text of a value. An array that contains itself has none; in any other value the arrays are
nested at most as deep as there are arrays. -/
def format? (heap : Heap) (v : Value) : Option String := v.formatWithin? heap (heap.size + 1)

/-- Whether two values are the same: of one representation and equal in it, arrays and boxed values by
identity. -/
def identical : Value → Value → Bool
  | null, null => true
  | int a, int b => a == b
  | uint a, uint b => a == b
  | float a, float b => a.equals b
  | bool a, bool b => a == b
  | char a, char b => a == b
  | string a, string b => a == b
  | array a, array b => a == b
  | boxed a _ _, boxed b _ _ => a == b
  | _, _ => false

/-- Equality of objects: boxed values are equal when their types are and their contents are the
same. -/
def objectEquals : Value → Value → Bool
  | boxed _ s a, boxed _ t b => s == t && identical a b
  | a, b => identical a b

end Value
end TypedScript
