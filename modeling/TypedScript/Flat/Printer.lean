import TypedScript.Bound.Printer
import TypedScript.Flat.Tree

/-!
# Listings of flat programs

One line a statement; labels stand at the margin.
-/

namespace TypedScript
namespace Flat

def operatorText (op : Option Operator) : String := (op.map Operator.symbol).getD "none"

mutual

def Expr.text (r : Registry) : Expr → Except Defect String
  | .literal none _ => .ok "null"
  | .literal (some v) _ => .ok v.text
  | .symbol s => .ok s.name
  | .assign target value => do return target.name ++ " = " ++ (← value.text r)
  | .assignElement array index _ value => do
    return (← array.text r) ++ "[" ++ (← index.text r) ++ "] = " ++ (← value.text r)
  | .binary op _ left right _ => do
    return "(" ++ (← left.text r) ++ " " ++ operatorText op ++ " " ++ (← right.text r) ++ ")"
  | .unary op operand _ => do return operatorText op ++ (← operand.text r)
  | .call callable args _ => do
    let args ← textAll r args
    let name ← r.qualifiedName (← r.callable callable).group
    return name ++ "(" ++ String.intercalate ", " args ++ ")"
  | .convert _ operand t => do return "(" ++ (← operand.text r) ++ " as " ++ (← r.name t) ++ ")"
  | .index target index _ => do return (← target.text r) ++ "[" ++ (← index.text r) ++ "]"
  | .length target => do return (← target.text r) ++ ".length"
  | .newArray element size _ => do
    return "new " ++ (← r.name element) ++ "[" ++ (← size.text r) ++ "]"
  | .invalid => .ok "<invalid>"

def textAll (r : Registry) : List Expr → Except Defect (List String)
  | [] => .ok []
  | e :: rest => do return (← e.text r) :: (← textAll r rest)

end

def Stmt.text (r : Registry) : Stmt → Except Defect String
  | .declare s => return "declare " ++ (← Bound.typedName r s)
  | .eval e => e.text r
  | .returnStmt none => .ok "return"
  | .returnStmt (some e) => return "return " ++ (← e.text r)
  | .jump target => .ok ("goto L" ++ toString target)
  | .jumpIf cond target => return "goto L" ++ toString target ++ " if " ++ (← cond.text r)
  | .label id => .ok ("L" ++ toString id ++ ":")

def Stmt.line (r : Registry) (s : Stmt) : Except Defect String := do
  let margin := match s with
    | .label _ => ""
    | _ => "    "
  return margin ++ (← s.text r) ++ "\n"

def Routine.lines (r : Registry) (f : Routine) : Except Defect String := do
  let head ← Bound.routineHead r f.name f.params f.result
  let body ← f.body.mapM (Stmt.line r)
  return head ++ "\n" ++ String.join body

def Program.listing (r : Registry) (p : Program) : Except Defect String := do
  let globals ← p.globals.mapM fun g => return "global " ++ (← Bound.typedName r g) ++ "\n"
  let routines ← p.routines.mapM (Routine.lines r)
  return String.join globals ++ String.join routines

end Flat
end TypedScript
