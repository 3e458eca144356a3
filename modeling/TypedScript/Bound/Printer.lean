import TypedScript.Bound.Tree
import TypedScript.Number.Format
import TypedScript.Text.Quoted

/-!
# Listings of bound programs

One line a statement, indented by two blanks for each level of nesting.
-/

namespace TypedScript

def Literal.text : Literal → String
  | int v => toString v.toInt
  | uint v => toString v.toNat
  | float v => v.format
  | bool v => if v then "true" else "false"
  | char v => Text.quoteChar v
  | string v => Text.quote v

namespace Bound

def operatorText (r : Registry) (callable : TypeId) : Except Defect String :=
  return match (← r.callable callable).op? with
    | some op => op.symbol
    | none => "none"

mutual

def Expr.text (r : Registry) : Expr → Except Defect String
  | .literal _ v _ => .ok v.text
  | .symbol _ s => .ok s.name
  | .group _ name _ => .ok name
  | .typeName _ t => r.name t
  | .assign _ target value => do
    return "(" ++ (← target.text r) ++ " = " ++ (← value.text r) ++ ")"
  | .compound _ target op value => do
    let target ← target.text r
    return "(" ++ target ++ " " ++ (← operatorText r op) ++ "= " ++ (← value.text r) ++ ")"
  | .binary _ op left right _ => do
    let left ← left.text r
    return "(" ++ left ++ " " ++ (← operatorText r op) ++ " " ++ (← right.text r) ++ ")"
  | .unary _ op operand _ => do
    return "(" ++ (← operatorText r op) ++ (← operand.text r) ++ ")"
  | .call _ callable args _ => do
    let args ← textAll r args
    let name ← r.qualifiedName (← r.callable callable).group
    return name ++ "(" ++ String.intercalate ", " args ++ ")"
  | .convert _ kind operand t _ => do
    return kind.name ++ "(" ++ (← operand.text r) ++ " -> " ++ (← r.name t) ++ ")"
  | .index _ target index _ => do
    return (← target.text r) ++ "[" ++ (← index.text r) ++ "]"
  | .length _ target => do return (← target.text r) ++ ".length"
  | .newArray _ element size _ => do
    return "new " ++ (← r.name element) ++ "[" ++ (← size.text r) ++ "]"
  | .invalid _ _ => .ok "<invalid>"

def textAll (r : Registry) : List Expr → Except Defect (List String)
  | [] => .ok []
  | e :: rest => do return (← e.text r) :: (← textAll r rest)

end

def indented (level : Nat) (text : String) : String :=
  String.join (List.replicate level "  ") ++ text ++ "\n"

def Declaration.text (r : Registry) (d : Declaration) : Except Defect String := do
  let word := if d.symbol.readonly then "const " else "var "
  let head := word ++ d.symbol.name ++ ": " ++ (← r.name d.symbol.type)
  match d.init? with
  | none => return head
  | some e => return head ++ " = " ++ (← e.text r)

/-- The line of the first part of a loop's header. -/
def Setup.text (r : Registry) : Setup → Except Defect String
  | .declare d => d.text r
  | .eval e => e.expr.text r

def headerLine (r : Registry) (level : Nat) (word : String) :
    Option Expr → Except Defect String
  | none => .ok ""
  | some e => return indented level (word ++ (← e.text r))

/-- The level of a statement inside another one: a block stands where its owner does. -/
def nestedLevel (level : Nat) : Stmt → Nat
  | .block _ _ => level
  | _ => level + 1

mutual

def Stmt.lines (r : Registry) (level : Nat) : Stmt → Except Defect String
  | .block _ body => do
    let inside ← linesAll r (level + 1) body
    return indented level "\x7b" ++ inside ++ indented level "\x7d"
  | .declare d => do return indented level (← d.text r)
  | .eval e => do return indented level (← e.expr.text r)
  | .ifThen _ cond yes => do
    let head := indented level ("if " ++ (← cond.text r))
    return head ++ (← yes.lines r (nestedLevel level yes))
  | .ifElse _ cond yes no => do
    let head := indented level ("if " ++ (← cond.text r))
    let yes ← yes.lines r (nestedLevel level yes)
    return head ++ yes ++ indented level "else" ++ (← no.lines r (nestedLevel level no))
  | .whileLoop _ cond body => do
    let head := indented level ("while " ++ (← cond.text r))
    return head ++ (← body.lines r (nestedLevel level body))
  | .forLoop _ setup cond post body => do
    let setup ← match setup with
      | none => pure ""
      | some s => do pure (indented (level + 1) (← s.text r))
    let cond ← headerLine r (level + 1) "cond " cond
    let post ← headerLine r (level + 1) "post " post
    let body ← body.lines r (nestedLevel level body)
    return indented level "for" ++ setup ++ cond ++ post ++ body
  | .breakLoop _ => .ok (indented level "break")
  | .continueLoop _ => .ok (indented level "continue")
  | .returnStmt _ none => .ok (indented level "return")
  | .returnStmt _ (some e) => do return indented level ("return " ++ (← e.text r))

def linesAll (r : Registry) (level : Nat) : List Stmt → Except Defect String
  | [] => .ok ""
  | s :: rest => do return (← s.lines r level) ++ (← linesAll r level rest)

end

def typedName (r : Registry) (s : Symbol) : Except Defect String :=
  return s.name ++ ": " ++ (← r.name s.type)

def routineHead (r : Registry) (name : String) (params : List Symbol) (result : TypeId) :
    Except Defect String := do
  let params ← params.mapM (typedName r)
  return "func " ++ name ++ "(" ++ String.intercalate ", " params ++ "): " ++ (← r.name result)

def Routine.lines (r : Registry) (f : Routine) : Except Defect String := do
  let head ← routineHead r f.name f.params f.result
  return head ++ "\n" ++ (← (Stmt.block f.bodySpan f.body).lines r 1)

def Program.listing (r : Registry) (p : Program) : Except Defect String := do
  let globals ← p.globals.mapM fun g => return "global " ++ (← typedName r g) ++ "\n"
  let routines ← p.routines.mapM (Routine.lines r)
  let entry := match p.entry?.bind (p.routines[·]?) with
    | some f => "entry " ++ f.name ++ "\n"
    | none => ""
  return String.join globals ++ String.join routines ++ entry

end Bound
end TypedScript
