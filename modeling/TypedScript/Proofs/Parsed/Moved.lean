import TypedScript.Proofs.Parsed.Outline
import TypedScript.Proofs.Source.Positions

/-!
# Moved trees

A tree is moved to another place of a text with all its parts. Only the places of its outlines count.
-/

namespace TypedScript

namespace Parsed

variable (m : Move)

def Fault.moved : Fault → Fault
  | .expected what got => .expected what (got.moved m)
  | .unexpected got => .unexpected (got.moved m)
  | fault => fault

def Error.moved (e : Error) : Error := ⟨e.span.moved m, e.fault.moved m⟩

def TypeName.moved (t : TypeName) : TypeName := { t with span := t.span.moved m }

mutual

def Expr.moved (m : Move) : Expr → Expr
  | .int span v => .int (span.moved m) v
  | .float span v => .float (span.moved m) v
  | .string span v => .string (span.moved m) v
  | .char span v => .char (span.moved m) v
  | .bool span v => .bool (span.moved m) v
  | .name span n => .name (span.moved m) n
  | .assign span op target value => .assign (span.moved m) op (target.moved m) (value.moved m)
  | .binary span op left right => .binary (span.moved m) op (left.moved m) (right.moved m)
  | .unary span op operand => .unary (span.moved m) op (operand.moved m)
  | .call span callee args => .call (span.moved m) (callee.moved m) (movedAll m args)
  | .index span target index => .index (span.moved m) (target.moved m) (index.moved m)
  | .member span target n => .member (span.moved m) (target.moved m) n
  | .cast span operand t => .cast (span.moved m) (operand.moved m) (t.moved m)
  | .newArray span t size => .newArray (span.moved m) (t.moved m) (size.moved m)

def movedAll (m : Move) : List Expr → List Expr
  | [] => []
  | e :: es => e.moved m :: movedAll m es

end

def Declaration.moved (d : Declaration) : Declaration :=
  ⟨d.span.moved m, d.name, d.isConst, d.type?.map (TypeName.moved m), d.init?.map (Expr.moved m)⟩

/-- An expression that stands as a statement at another place. -/
def Evaluation.moved (e : Evaluation) : Evaluation := ⟨e.span.moved m, e.expr.moved m⟩

/-- The first part of the header of a counted loop at another place. -/
def Setup.moved : Setup → Setup
  | .declare d => .declare (d.moved m)
  | .eval e => .eval (e.moved m)

mutual

def Stmt.moved (m : Move) : Stmt → Stmt
  | .eval e => .eval (e.moved m)
  | .declare d => .declare (d.moved m)
  | .missing => .missing
  | .block span body => .block (span.moved m) (movedStmts m body)
  | .ifThen span cond yes => .ifThen (span.moved m) (cond.moved m) (yes.moved m)
  | .ifElse span cond yes no => .ifElse (span.moved m) (cond.moved m) (yes.moved m) (no.moved m)
  | .whileLoop span cond body => .whileLoop (span.moved m) (cond.moved m) (body.moved m)
  | .forLoop span first cond post body =>
    .forLoop (span.moved m) (first.map (Setup.moved m)) (cond.map (Expr.moved m))
      (post.map (Expr.moved m)) (body.moved m)
  | .breakLoop span => .breakLoop (span.moved m)
  | .continueLoop span => .continueLoop (span.moved m)
  | .returnStmt span value => .returnStmt (span.moved m) (value.map (Expr.moved m))

def movedStmts (m : Move) : List Stmt → List Stmt
  | [] => []
  | st :: rest => st.moved m :: movedStmts m rest

end

def Param.moved (p : Param) : Param := ⟨p.span.moved m, p.name, p.type.moved m⟩

def Function.moved (f : Function) : Function :=
  ⟨f.span.moved m, f.name, f.params.map (Param.moved m), f.result?.map (TypeName.moved m),
    f.bodySpan.moved m, movedStmts m f.body⟩

def Import.moved (i : Import) : Import :=
  ⟨i.span.moved m, i.path, i.hasSignature, i.params.map (TypeName.moved m),
    i.result?.map (TypeName.moved m)⟩

/-- A source file at another place. -/
def File.moved (f : File) : File :=
  ⟨f.span.moved m, f.imports.map (Import.moved m), f.globals.map (Declaration.moved m),
    f.functions.map (Function.moved m), movedStmts m f.statements⟩

namespace Reader

/-- A part of a source file at another place. -/
def Item.moved : Item → Item
  | .import i => .import (i.moved m)
  | .global d => .global (d.moved m)
  | .function f => .function (f.moved m)
  | .statement s => .statement (s.moved m)

end Reader

/-! ## What stays where it is -/

theorem TypeName.moved_stay (t : TypeName) : t.moved .stay = t := rfl

mutual

theorem Expr.moved_stay : (e : Expr) → e.moved .stay = e
  | .int .. | .float .. | .string .. | .char .. | .bool .. | .name .. => rfl
  | .assign span op target value => by
    rw [Expr.moved, Expr.moved_stay target, Expr.moved_stay value]
    rfl
  | .binary span op left right => by
    rw [Expr.moved, Expr.moved_stay left, Expr.moved_stay right]
    rfl
  | .unary span op operand => by
    rw [Expr.moved, Expr.moved_stay operand]
    rfl
  | .call span callee args => by
    rw [Expr.moved, Expr.moved_stay callee, movedAll_stay args]
    rfl
  | .index span target index => by
    rw [Expr.moved, Expr.moved_stay target, Expr.moved_stay index]
    rfl
  | .member span target n => by
    rw [Expr.moved, Expr.moved_stay target]
    rfl
  | .cast span operand t => by
    rw [Expr.moved, Expr.moved_stay operand]
    rfl
  | .newArray span t size => by
    rw [Expr.moved, Expr.moved_stay size]
    rfl

theorem movedAll_stay : (es : List Expr) → movedAll .stay es = es
  | [] => rfl
  | e :: es => by rw [movedAll, Expr.moved_stay e, movedAll_stay es]

end

theorem Declaration.moved_stay (d : Declaration) : d.moved .stay = d := by
  rw [Declaration.moved, funext Expr.moved_stay, funext TypeName.moved_stay]
  simp [Span.moved, Move.stay]

theorem Evaluation.moved_stay (e : Evaluation) : e.moved .stay = e := by
  rw [Evaluation.moved, Expr.moved_stay]
  rfl

theorem Setup.moved_stay (v : Setup) : v.moved .stay = v := by
  cases v with
  | declare d => rw [Setup.moved, Declaration.moved_stay]
  | eval e => rw [Setup.moved, Evaluation.moved_stay]

mutual

theorem Stmt.moved_stay : (st : Stmt) → st.moved .stay = st
  | .eval e => by rw [Stmt.moved, Evaluation.moved_stay]
  | .declare d => by rw [Stmt.moved, Declaration.moved_stay]
  | .missing | .breakLoop _ | .continueLoop _ => rfl
  | .block span body => by
    rw [Stmt.moved, movedStmts_stay body]
    rfl
  | .ifThen span cond yes => by
    rw [Stmt.moved, Expr.moved_stay, Stmt.moved_stay yes]
    rfl
  | .ifElse span cond yes no => by
    rw [Stmt.moved, Expr.moved_stay, Stmt.moved_stay yes, Stmt.moved_stay no]
    rfl
  | .whileLoop span cond body => by
    rw [Stmt.moved, Expr.moved_stay, Stmt.moved_stay body]
    rfl
  | .forLoop span first cond post body => by
    rw [Stmt.moved, funext Setup.moved_stay, funext Expr.moved_stay, Stmt.moved_stay body]
    simp [Span.moved, Move.stay]
  | .returnStmt span value => by
    rw [Stmt.moved, funext Expr.moved_stay]
    simp [Span.moved, Move.stay]

theorem movedStmts_stay : (ss : List Stmt) → movedStmts .stay ss = ss
  | [] => rfl
  | st :: rest => by rw [movedStmts, Stmt.moved_stay st, movedStmts_stay rest]

end

theorem Param.moved_stay (p : Param) : p.moved .stay = p := rfl

theorem Function.moved_stay (f : Function) : f.moved .stay = f := by
  rw [Function.moved, funext Param.moved_stay, funext TypeName.moved_stay, movedStmts_stay]
  simp [Span.moved, Move.stay]

theorem Import.moved_stay (i : Import) : i.moved .stay = i := by
  rw [Import.moved, funext TypeName.moved_stay]
  simp [Span.moved, Move.stay]

theorem Reader.Item.moved_stay (i : Reader.Item) : i.moved .stay = i := by
  cases i with
  | «import» i => rw [Item.moved, Import.moved_stay]
  | global d => rw [Item.moved, Declaration.moved_stay]
  | function f => rw [Item.moved, Function.moved_stay]
  | statement st => rw [Item.moved, Stmt.moved_stay]

theorem File.moved_stay (f : File) : f.moved .stay = f := by
  rw [File.moved, funext Import.moved_stay, funext Declaration.moved_stay,
    funext Function.moved_stay, movedStmts_stay]
  simp [Span.moved, Move.stay]

theorem File.statements_moved (f : File) : (f.moved m).statements = [] ↔ f.statements = [] := by
  obtain ⟨_, _, _, _, ss⟩ := f
  cases ss <;> simp [File.moved, movedStmts]

/-! ## Two moves that agree on a tree -/

namespace Outline

def Agree (m m' : Move) (os : List Outline) : Prop :=
  ∀ o ∈ allOf os, o.span.moved m = o.span.moved m'

variable {m} {m' : Move} {span : Span} {parts os ps : List Outline}

theorem agree_node : Agree m m' (node span parts :: os) ↔
    span.moved m = span.moved m' ∧ Agree m m' parts ∧ Agree m m' os := by
  simp only [Agree, allOf, all, List.cons_append, List.forall_mem_cons, List.forall_mem_append]
  rfl

theorem agree_append : Agree m m' (os ++ ps) ↔ Agree m m' os ∧ Agree m m' ps := by
  simp only [Agree, mem_allOf, List.mem_append]
  grind

theorem agree_cons {o : Outline} : Agree m m' (o :: os) ↔ Agree m m' [o] ∧ Agree m m' os := by
  rw [← agree_append, List.singleton_append]

theorem map_congr_of_agree {α β : Type} {outline : α → Outline} {f g : α → β} {xs : List α}
    (hfg : ∀ x, Agree m m' [outline x] → f x = g x) (h : Agree m m' (xs.map outline)) :
    xs.map f = xs.map g := by
  induction xs with
  | nil => rfl
  | cons x xs ih =>
    rw [List.map_cons, agree_cons] at h
    rw [List.map_cons, List.map_cons, hfg x h.1, ih h.2]

theorem optionMap_congr_of_agree {α β : Type} {outline : α → Outline} {f g : α → β} {o : Option α}
    (hfg : ∀ x, Agree m m' [outline x] → f x = g x) (h : Agree m m' (o.toList.map outline)) :
    o.map f = o.map g := by
  cases o with
  | none => rfl
  | some x => exact congrArg some (hfg x h)

end Outline

open Outline

section

variable {m} {m' : Move}

theorem TypeName.moved_congr (t : TypeName) (h : Agree m m' [t.outline]) : t.moved m = t.moved m' := by
  rw [TypeName.outline, agree_node] at h
  rw [TypeName.moved, TypeName.moved, h.1]

mutual

theorem Expr.moved_congr : (e : Expr) → Agree m m' [e.outline] → e.moved m = e.moved m'
  | .int span _, h | .float span _, h | .string span _, h | .char span _, h | .bool span _, h
  | .name span _, h => by
    rw [Expr.outline, agree_node] at h
    simp only [Expr.moved, h.1]
  | .assign span op target value, h => by
    rw [Expr.outline, agree_node, agree_cons] at h
    simp only [Expr.moved, h.1, Expr.moved_congr target h.2.1.1, Expr.moved_congr value h.2.1.2]
  | .binary span op left right, h => by
    rw [Expr.outline, agree_node, agree_cons] at h
    simp only [Expr.moved, h.1, Expr.moved_congr left h.2.1.1, Expr.moved_congr right h.2.1.2]
  | .unary span op operand, h => by
    rw [Expr.outline, agree_node] at h
    simp only [Expr.moved, h.1, Expr.moved_congr operand h.2.1]
  | .call span callee args, h => by
    rw [Expr.outline, agree_node, agree_cons] at h
    simp only [Expr.moved, h.1, Expr.moved_congr callee h.2.1.1, movedAll_congr args h.2.1.2]
  | .index span target index, h => by
    rw [Expr.outline, agree_node, agree_cons] at h
    simp only [Expr.moved, h.1, Expr.moved_congr target h.2.1.1, Expr.moved_congr index h.2.1.2]
  | .member span target n, h => by
    rw [Expr.outline, agree_node] at h
    simp only [Expr.moved, h.1, Expr.moved_congr target h.2.1]
  | .cast span operand t, h => by
    rw [Expr.outline, agree_node, agree_cons] at h
    simp only [Expr.moved, h.1, Expr.moved_congr operand h.2.1.1, t.moved_congr h.2.1.2]
  | .newArray span t size, h => by
    rw [Expr.outline, agree_node, agree_cons] at h
    simp only [Expr.moved, h.1, t.moved_congr h.2.1.1, Expr.moved_congr size h.2.1.2]

theorem movedAll_congr : (es : List Expr) → Agree m m' (outlineAll es) → movedAll m es = movedAll m' es
  | [], _ => rfl
  | e :: es, h => by
    rw [outlineAll, agree_cons] at h
    rw [movedAll, movedAll, Expr.moved_congr e h.1, movedAll_congr es h.2]

end

theorem Declaration.moved_congr (d : Declaration) (h : Agree m m' [d.outline]) :
    d.moved m = d.moved m' := by
  rw [Declaration.outline, agree_node, agree_append] at h
  simp only [Declaration.moved, h.1, optionMap_congr_of_agree TypeName.moved_congr h.2.1.1,
    optionMap_congr_of_agree Expr.moved_congr h.2.1.2]

theorem Evaluation.moved_congr (e : Evaluation) (h : Agree m m' [e.outline]) :
    e.moved m = e.moved m' := by
  rw [Evaluation.outline, agree_node] at h
  simp only [Evaluation.moved, h.1, e.expr.moved_congr h.2.1]

theorem Setup.moved_congr (v : Setup) (h : Agree m m' [v.outline]) : v.moved m = v.moved m' := by
  cases v with
  | declare d => exact congrArg Setup.declare (d.moved_congr h)
  | eval e => exact congrArg Setup.eval (e.moved_congr h)

mutual

theorem Stmt.moved_congr : (st : Stmt) → Agree m m' st.outlines → st.moved m = st.moved m'
  | .eval e, h => by simp only [Stmt.moved, e.moved_congr h]
  | .declare d, h => by simp only [Stmt.moved, d.moved_congr h]
  | .missing, _ => rfl
  | .block span body, h => by
    rw [Stmt.outlines, agree_node] at h
    simp only [Stmt.moved, h.1, movedStmts_congr body h.2.1]
  | .ifThen span cond yes, h => by
    rw [Stmt.outlines, agree_node, agree_cons] at h
    simp only [Stmt.moved, h.1, cond.moved_congr h.2.1.1, Stmt.moved_congr yes h.2.1.2]
  | .ifElse span cond yes no, h => by
    rw [Stmt.outlines, agree_node, agree_cons, agree_append] at h
    simp only [Stmt.moved, h.1, cond.moved_congr h.2.1.1, Stmt.moved_congr yes h.2.1.2.1,
      Stmt.moved_congr no h.2.1.2.2]
  | .whileLoop span cond body, h => by
    rw [Stmt.outlines, agree_node, agree_cons] at h
    simp only [Stmt.moved, h.1, cond.moved_congr h.2.1.1, Stmt.moved_congr body h.2.1.2]
  | .forLoop span first cond post body, h => by
    rw [Stmt.outlines, agree_node, agree_append, agree_append, agree_append] at h
    simp only [Stmt.moved, h.1, optionMap_congr_of_agree Setup.moved_congr h.2.1.1.1.1,
      optionMap_congr_of_agree Expr.moved_congr h.2.1.1.1.2,
      optionMap_congr_of_agree Expr.moved_congr h.2.1.1.2, Stmt.moved_congr body h.2.1.2]
  | .breakLoop span, h | .continueLoop span, h => by
    rw [Stmt.outlines, agree_node] at h
    simp only [Stmt.moved, h.1]
  | .returnStmt span value, h => by
    rw [Stmt.outlines, agree_node] at h
    simp only [Stmt.moved, h.1, optionMap_congr_of_agree Expr.moved_congr h.2.1]

theorem movedStmts_congr : (ss : List Stmt) → Agree m m' (outlinesOf ss) →
    movedStmts m ss = movedStmts m' ss
  | [], _ => rfl
  | st :: rest, h => by
    rw [outlinesOf, agree_append] at h
    rw [movedStmts, movedStmts, Stmt.moved_congr st h.1, movedStmts_congr rest h.2]

end

theorem Param.moved_congr (p : Param) (h : Agree m m' [p.outline]) : p.moved m = p.moved m' := by
  rw [Param.outline, agree_node] at h
  simp only [Param.moved, h.1, p.type.moved_congr h.2.1]

theorem Function.moved_congr (f : Function) (h : Agree m m' [f.outline]) :
    f.moved m = f.moved m' := by
  rw [Function.outline, agree_node, agree_append, agree_append, agree_node] at h
  simp only [Function.moved, h.1, map_congr_of_agree Param.moved_congr h.2.1.1.1,
    optionMap_congr_of_agree TypeName.moved_congr h.2.1.1.2, h.2.1.2.1,
    movedStmts_congr f.body h.2.1.2.2.1]

theorem Import.moved_congr (i : Import) (h : Agree m m' [i.outline]) : i.moved m = i.moved m' := by
  rw [Import.outline, agree_node, agree_append] at h
  simp only [Import.moved, h.1, map_congr_of_agree TypeName.moved_congr h.2.1.1,
    optionMap_congr_of_agree TypeName.moved_congr h.2.1.2]

end

end Parsed
end TypedScript
