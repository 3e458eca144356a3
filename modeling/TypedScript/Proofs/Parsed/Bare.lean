import TypedScript.Parsed.Parser

/-!
# Trees without their spans

Two trees are the same up to where their parts stand if they are the same with all spans set to one.
-/

namespace TypedScript
namespace Parsed

def nowhere : Span := ⟨Position.zero, Position.zero⟩

def TypeName.bare (t : TypeName) : TypeName := { t with span := nowhere }

mutual

def Expr.bare : Expr → Expr
  | .int _ v => .int nowhere v
  | .float _ v => .float nowhere v
  | .string _ v => .string nowhere v
  | .char _ v => .char nowhere v
  | .bool _ v => .bool nowhere v
  | .name _ n => .name nowhere n
  | .assign _ op target value => .assign nowhere op target.bare value.bare
  | .binary _ op left right => .binary nowhere op left.bare right.bare
  | .unary _ op operand => .unary nowhere op operand.bare
  | .call _ callee args => .call nowhere callee.bare (bareAll args)
  | .index _ target index => .index nowhere target.bare index.bare
  | .member _ target n => .member nowhere target.bare n
  | .cast _ operand t => .cast nowhere operand.bare t.bare
  | .newArray _ t size => .newArray nowhere t.bare size.bare

def bareAll : List Expr → List Expr
  | [] => []
  | e :: es => e.bare :: bareAll es

end

def Declaration.bare (d : Declaration) : Declaration :=
  ⟨nowhere, d.name, d.isConst, d.type?.map TypeName.bare, d.init?.map Expr.bare⟩

/-- The first part of the header of a counted loop without spans. -/
def Setup.bare : Setup → Setup
  | .declare d => .declare d.bare
  | .eval e => .eval ⟨nowhere, e.expr.bare⟩

mutual

def Stmt.bare : Stmt → Stmt
  | .eval e => .eval ⟨nowhere, e.expr.bare⟩
  | .declare d => .declare d.bare
  | .missing => .missing
  | .block _ body => .block nowhere (bareStmts body)
  | .ifThen _ cond yes => .ifThen nowhere cond.bare yes.bare
  | .ifElse _ cond yes no => .ifElse nowhere cond.bare yes.bare no.bare
  | .whileLoop _ cond body => .whileLoop nowhere cond.bare body.bare
  | .forLoop _ first cond post body =>
    .forLoop nowhere (first.map Setup.bare) (cond.map Expr.bare) (post.map Expr.bare) body.bare
  | .breakLoop _ => .breakLoop nowhere
  | .continueLoop _ => .continueLoop nowhere
  | .returnStmt _ value => .returnStmt nowhere (value.map Expr.bare)

def bareStmts : List Stmt → List Stmt
  | [] => []
  | st :: rest => st.bare :: bareStmts rest

end

def Param.bare (p : Param) : Param := ⟨nowhere, p.name, p.type.bare⟩

def Function.bare (f : Function) : Function :=
  ⟨nowhere, f.name, f.params.map Param.bare, f.result?.map TypeName.bare, nowhere, bareStmts f.body⟩

def Import.bare (i : Import) : Import :=
  ⟨nowhere, i.path, i.hasSignature, i.params.map TypeName.bare, i.result?.map TypeName.bare⟩

/-- A source file without spans. -/
def File.bare (f : File) : File :=
  ⟨nowhere, f.imports.map Import.bare, f.globals.map Declaration.bare, f.functions.map Function.bare,
    bareStmts f.statements⟩

namespace Reader

/-- A part of a source file without spans. -/
def Item.bare : Item → Item
  | .import i => .import i.bare
  | .global d => .global d.bare
  | .function f => .function f.bare
  | .statement s => .statement s.bare

theorem sortItems_bare (span : Span) (is : List Item) :
    (sortItems span is).bare = sortItems nowhere (is.map Item.bare) := by
  induction is with
  | nil => rfl
  | cons i is ih =>
    cases i <;>
    · simp only [List.map_cons, Item.bare, sortItems, ← ih]
      rfl

end Reader
end Parsed
end TypedScript
