import TypedScript.Parsed.Parser

/-!
# Outlines of trees

The outline of a tree is where it stands and the outlines of its parts, from left to right. It is the
same notion for all kinds of nodes, so that what holds of spans is said once.
-/

namespace TypedScript
namespace Parsed

/-- A span with the parts that it is divided into. -/
inductive Outline
  | node (span : Span) (parts : List Outline)

namespace Outline

def span : Outline → Span
  | node span _ => span

def parts : Outline → List Outline
  | node _ parts => parts

mutual

def all : Outline → List Outline
  | node span parts => node span parts :: allOf parts

/-- Outlines with all their direct and indirect parts. -/
def allOf : List Outline → List Outline
  | [] => []
  | o :: os => o.all ++ allOf os

end

theorem mem_allOf {o : Outline} {os : List Outline} : o ∈ allOf os ↔ ∃ p ∈ os, o ∈ p.all := by
  induction os with
  | nil => simp [allOf]
  | cons p os ih => simp [allOf, ih]

def ofToken (t : Token) : Outline := node t.span []

/-- The first of two outlines ends before the second one starts. -/
def Before (o p : Outline) : Prop := o.span.stop.offset ≤ p.span.start.offset

/-- A stretch that is not empty and contains its parts, which are disjoint and in order. -/
structure Proper (limit : Nat) (o : Outline) : Prop where
  nonempty : o.span.start.offset < o.span.stop.offset
  inside : o.span.stop.offset ≤ limit
  contains : ∀ p ∈ o.parts, o.span.start.offset ≤ p.span.start.offset ∧
    p.span.stop.offset ≤ o.span.stop.offset
  ordered : o.parts.Pairwise Before

/-- Outlines between two offsets, one behind the other, and so the parts of each. -/
inductive Ordered : Nat → List Outline → Nat → Prop
  | nil {a b : Nat} : Ordered a [] b
  | cons {a b : Nat} {span : Span} {parts rest : List Outline} : a ≤ span.start.offset →
    span.start.offset < span.stop.offset → span.stop.offset ≤ b →
    Ordered span.start.offset parts span.stop.offset → Ordered span.stop.offset rest b →
    Ordered a (node span parts :: rest) b

namespace Ordered

variable {a b c d : Nat} {os ps : List Outline}

theorem one {span : Span} (hstart : a ≤ span.start.offset)
    (hspan : span.start.offset < span.stop.offset) (hstop : span.stop.offset ≤ b)
    (hparts : Ordered span.start.offset os span.stop.offset) : Ordered a [node span os] b :=
  .cons hstart hspan hstop hparts .nil

theorem mono (h : Ordered a os b) (ha : c ≤ a) (hb : b ≤ d) : Ordered c os d := by
  induction h generalizing c with
  | nil => exact .nil
  | cons hstart hspan hstop hparts _ _ ih =>
    exact .cons (Nat.le_trans ha hstart) hspan (Nat.le_trans hstop hb) hparts (ih (Nat.le_refl _) hb)

theorem append (h : Ordered a os b) (h' : Ordered c ps d) (hac : a ≤ c) (hbc : b ≤ c) (hbd : b ≤ d) :
    Ordered a (os ++ ps) d := by
  induction h with
  | nil => exact h'.mono hac (Nat.le_refl d)
  | cons hstart hspan hstop hparts _ _ ih =>
    exact .cons hstart hspan (Nat.le_trans hstop hbd) hparts (ih (Nat.le_trans hstop hbc) hbc hbd)

/-- Leaving some out keeps the order of the others. -/
theorem sublist (h : Ordered a os b) (hps : ps.Sublist os) : Ordered a ps b := by
  induction h generalizing ps with
  | nil =>
    rw [List.sublist_nil.mp hps]
    exact .nil
  | @cons a b span parts rest hstart hspan hstop hparts hrest _ ih =>
    cases hps with
    | cons _ hps => exact (ih hps).mono (Nat.le_trans hstart (Nat.le_of_lt hspan)) (Nat.le_refl b)
    | cons_cons _ hps => exact .cons hstart hspan hstop hparts (ih hps)

theorem bounds (h : Ordered a os b) : ∀ o ∈ os, a ≤ o.span.start.offset ∧ o.span.stop.offset ≤ b := by
  induction h with
  | nil => simp
  | cons hstart hspan hstop _ _ _ ih =>
    refine List.forall_mem_cons.mpr ⟨⟨hstart, hstop⟩, fun o ho => ?_⟩
    exact ⟨Nat.le_trans hstart (Nat.le_trans (Nat.le_of_lt hspan) (ih o ho).1), (ih o ho).2⟩

theorem pairwise (h : Ordered a os b) : os.Pairwise Before := by
  induction h with
  | nil => exact .nil
  | cons _ _ _ _ hrest _ ih => exact .cons (fun o ho => (hrest.bounds o ho).1) ih

/-- All parts are proper, on every level. -/
theorem proper {limit : Nat} (h : Ordered a os b) (hlimit : b ≤ limit) :
    ∀ o ∈ allOf os, o.Proper limit := by
  induction h with
  | nil => simp [allOf]
  | @cons a b span parts rest hstart hspan hstop hparts hrest ihparts ihrest =>
    rw [allOf, all, List.cons_append, List.forall_mem_cons]
    refine ⟨⟨hspan, Nat.le_trans hstop hlimit, hparts.bounds, hparts.pairwise⟩, fun o ho => ?_⟩
    obtain ho | ho := List.mem_append.mp ho
    · exact ihparts (Nat.le_trans hstop hlimit) o ho
    · exact ihrest hlimit o ho

end Ordered
end Outline

def TypeName.outline (t : TypeName) : Outline := .node t.span []

mutual

def Expr.outline : Expr → Outline
  | .int span _ | .float span _ | .string span _ | .char span _ | .bool span _ | .name span _ =>
    .node span []
  | .assign span _ left right | .binary span _ left right | .index span left right =>
    .node span [left.outline, right.outline]
  | .unary span _ operand | .member span operand _ => .node span [operand.outline]
  | .call span callee args => .node span (callee.outline :: outlineAll args)
  | .cast span operand t => .node span [operand.outline, t.outline]
  | .newArray span t size => .node span [t.outline, size.outline]

def outlineAll : List Expr → List Outline
  | [] => []
  | e :: es => e.outline :: outlineAll es

end

def Declaration.outline (d : Declaration) : Outline :=
  .node d.span (d.type?.toList.map TypeName.outline ++ d.init?.toList.map Expr.outline)

def Evaluation.outline (e : Evaluation) : Outline := .node e.span [e.expr.outline]

/-- The outline of the first part of the header of a counted loop. -/
def Setup.outline : Setup → Outline
  | .declare d => d.outline
  | .eval e => e.outline

mutual

/-- The outline of a statement, if it stands somewhere: what a declaration leaves behind that broke off
does not. -/
def Stmt.outlines : Stmt → List Outline
  | .eval e => [e.outline]
  | .declare d => [d.outline]
  | .missing => []
  | .block span body => [.node span (outlinesOf body)]
  | .ifThen span cond yes => [.node span (cond.outline :: yes.outlines)]
  | .ifElse span cond yes no => [.node span (cond.outline :: (yes.outlines ++ no.outlines))]
  | .whileLoop span cond body => [.node span (cond.outline :: body.outlines)]
  | .forLoop span first cond post body =>
    [.node span (first.toList.map Setup.outline ++ cond.toList.map Expr.outline ++
      post.toList.map Expr.outline ++ body.outlines)]
  | .breakLoop span | .continueLoop span => [.node span []]
  | .returnStmt span value => [.node span (value.toList.map Expr.outline)]

/-- The outlines of statements. -/
def outlinesOf : List Stmt → List Outline
  | [] => []
  | s :: rest => s.outlines ++ outlinesOf rest

end

def Param.outline (p : Param) : Outline := .node p.span [p.type.outline]

def Function.outline (f : Function) : Outline :=
  .node f.span (f.params.map Param.outline ++ f.result?.toList.map TypeName.outline ++
    [.node f.bodySpan (outlinesOf f.body)])

def Import.outline (i : Import) : Outline :=
  .node i.span (i.params.map TypeName.outline ++ i.result?.toList.map TypeName.outline)

end Parsed
end TypedScript
