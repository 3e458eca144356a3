import TypedScript.Parsed.Tree
import TypedScript.Parsed.Parser

/-!
# Proper parsed programs, and what reading gives

What later stages take for granted of a program whose text has no mistakes: a compound assignment has
an operator that evaluates both operands, and a declaration has a type or an initial value.
-/

namespace TypedScript
namespace Parsed

mutual

/-- The compound assignments in an expression evaluate both of their operands. -/
def Expr.Proper : Expr → Prop
  | .assign _ op target value =>
    (∀ o, op = some o → o.isShortCircuit = false) ∧ target.Proper ∧ value.Proper
  | .binary _ _ left right => left.Proper ∧ right.Proper
  | .unary _ _ operand => operand.Proper
  | .call _ callee args => callee.Proper ∧ properAll args
  | .index _ target index => target.Proper ∧ index.Proper
  | .member _ target _ => target.Proper
  | .cast _ operand _ => operand.Proper
  | .newArray _ _ size => size.Proper
  | .int _ _ | .float _ _ | .string _ _ | .char _ _ | .bool _ _ | .name _ _ => True

def properAll : List Expr → Prop
  | [] => True
  | e :: rest => e.Proper ∧ properAll rest

end

/-- A declaration says its type or gives an initial value from which it follows. -/
def Declaration.Proper (d : Declaration) : Prop :=
  (d.type?.isSome ∨ d.init?.isSome) ∧ ∀ e, d.init? = some e → e.Proper

def Setup.Proper : Setup → Prop
  | .declare d => d.Proper
  | .eval e => e.expr.Proper

mutual

def Stmt.Proper : Stmt → Prop
  | .eval e => e.expr.Proper
  | .declare d => d.Proper
  | .block _ body => properStmts body
  | .ifThen _ cond yes => cond.Proper ∧ yes.Proper
  | .ifElse _ cond yes no => cond.Proper ∧ yes.Proper ∧ no.Proper
  | .whileLoop _ cond body => cond.Proper ∧ body.Proper
  | .forLoop _ setup cond post body =>
    (∀ s, setup = some s → s.Proper) ∧ (∀ e, cond = some e → e.Proper) ∧
      (∀ e, post = some e → e.Proper) ∧ body.Proper
  | .returnStmt _ value => ∀ e, value = some e → e.Proper
  | .missing | .breakLoop _ | .continueLoop _ => True

def properStmts : List Stmt → Prop
  | [] => True
  | s :: rest => s.Proper ∧ properStmts rest

end

structure File.Proper (f : File) : Prop where
  globals : ∀ d ∈ f.globals, d.Proper
  functions : ∀ g ∈ f.functions, properStmts g.body
  statements : properStmts f.statements

end Parsed

/-!
## What reading a program gives

A mistake once recorded stays. So where reading ends without mistakes there were none on the way, and
what each reader returned is proper.
-/

namespace Parsed
namespace Reader

/-- If no mistake is recorded in the end, there was none before, and the result is as said. -/
def Reads {α : Type} (m : Reader α) (P : α → Prop) : Prop :=
  ∀ s : State, (m State.recover s).2.errors = #[] → s.errors = #[] ∧ P (m State.recover s).1

def Maybe {α : Type} (P : α → Prop) (o : Option α) : Prop := ∀ a, o = some a → P a

section

variable {α β : Type}

theorem maybe_none {P : α → Prop} : Maybe P none := by simp [Maybe]

theorem maybe_some {P : α → Prop} {a : α} (h : P a) : Maybe P (some a) := by
  rintro _ ⟨⟩
  exact h

theorem Maybe.map {P : α → Prop} {Q : β → Prop} {f : α → β} {o : Option α} (h : Maybe P o)
    (hf : ∀ a, P a → Q (f a)) : Maybe Q (o.map f) := by
  cases o with
  | none => exact maybe_none
  | some a => exact maybe_some (hf a (h a rfl))

theorem Reads.pure {a : α} {P : α → Prop} (h : P a) : Reads (Pure.pure a) P := fun _ hs => ⟨hs, h⟩

/-- What the first reader promises may be used for what the second one promises, but not for its
keeping mistakes. -/
theorem Reads.bind {m : Reader α} {f : α → Reader β} {P : α → Prop} {Q : β → Prop}
    (hm : Reads m P) (hf : ∀ a, Reads (f a) fun b => P a → Q b) : Reads (m >>= f) Q := by
  intro s hs
  obtain ⟨hmid, hq⟩ := hf (m State.recover s).1 (m State.recover s).2 hs
  obtain ⟨hstart, hp⟩ := hm s hmid
  exact ⟨hstart, hq hp⟩

/-- Where nothing of what the first reader promises is needed. -/
theorem Reads.after {m : Reader α} {f : α → Reader β} {P : α → Prop} {Q : β → Prop}
    (hm : Reads m P) (hf : ∀ a, Reads (f a) Q) : Reads (m >>= f) Q := by
  intro s hs
  obtain ⟨hmid, hq⟩ := hf (m State.recover s).1 (m State.recover s).2 hs
  exact ⟨(hm s hmid).1, hq⟩

theorem Reads.imp {m : Reader α} {P Q : α → Prop} (hm : Reads m P) (h : ∀ a, P a → Q a) :
    Reads m Q := fun s hs => ⟨(hm s hs).1, h _ (hm s hs).2⟩

/-- A reader that gives up if the one before it does. -/
theorem Reads.optional {m : Reader (Option α)} {f : Option α → Reader (Option β)} {P : α → Prop}
    {Q : β → Prop} (hm : Reads m (Maybe P)) (hnone : f none = Pure.pure none)
    (hf : ∀ a, Reads (f (some a)) (Maybe fun b => P a → Q b)) : Reads (m >>= f) (Maybe Q) := by
  refine Reads.bind hm fun o => ?_
  cases o with
  | none =>
    rw [hnone]
    exact Reads.pure fun _ => maybe_none
  | some a => exact (hf a).imp fun _ h hp b hb => h b hb (hp a rfl)

theorem Reads.some {a : α} {P : α → Prop} (h : P a) : Reads (Pure.pure (some a)) (Maybe P) :=
  Reads.pure (maybe_some h)

theorem Reads.none {P : α → Prop} : Reads (Pure.pure none) (Maybe P) := Reads.pure maybe_none

/-- A reader that only looks. -/
theorem Reads.look {m : Reader α} (h : ∀ s, (m State.recover s).2 = s) : Reads m fun _ => True := by
  intro s hs
  rw [h s] at hs
  exact ⟨hs, trivial⟩

theorem Reads.map {m : Reader α} {f : α → β} {P : α → Prop} {Q : β → Prop} (hm : Reads m P)
    (h : ∀ a, P a → Q (f a)) : Reads (f <$> m) Q := fun s hs => ⟨(hm s hs).1, h _ (hm s hs).2⟩

end

theorem errors_of_fetch {last : Token} {errors : Array Error} {tokens : List Token}
    (h : (fetch last errors tokens).2.2 = #[]) : errors = #[] := by
  induction tokens generalizing errors with
  | nil => exact h
  | cons t rest ih =>
    unfold fetch at h
    split at h
    · have hpush := ih h
      simp at hpush
    · exact h

theorem reads_advance : Reads advance fun _ => True := fun _ hs => ⟨errors_of_fetch hs, trivial⟩

theorem reads_kind : Reads kind fun _ => True := Reads.look fun _ => rfl

theorem reads_at (k : Token.Kind) : Reads (at? k) fun _ => True := Reads.look fun _ => rfl

theorem reads_ahead (k : Token.Kind) : Reads (ahead? k) fun _ => True := Reads.look fun _ => rfl

theorem reads_position : Reads position fun _ => True := Reads.look fun _ => rfl

theorem reads_literal : Reads literal fun _ => True := Reads.look fun _ => rfl

theorem reads_spanFrom (start : Position) : Reads (spanFrom start) fun _ => True :=
  Reads.look fun _ => rfl

theorem reads_get : Reads (get : Reader State) fun _ => True := Reads.look fun _ => rfl

/-- Behind a mistake nothing is promised. -/
theorem reads_reportAt (span : Span) (f : Fault) : Reads (reportAt span f) fun _ => False := by
  intro s hs
  have hpush : s.errors.push ⟨span, f⟩ = #[] := hs
  simp at hpush

theorem reads_report (f : Fault) : Reads (report f) fun _ => False :=
  Reads.bind reads_get fun _ => (reads_reportAt _ f).imp fun _ h _ => h

theorem reads_reportExpected (what : Expectation) : Reads (reportExpected what) fun _ => False :=
  Reads.bind reads_get fun _ => (reads_report _).imp fun _ h _ => h

theorem reads_expect (k : Token.Kind) : Reads (expect k) fun _ => True := by
  refine Reads.after (reads_at k) fun b => ?_
  cases b with
  | true => exact Reads.after reads_advance fun _ => Reads.pure trivial
  | false => exact Reads.after (reads_reportExpected _) fun _ => Reads.pure trivial

theorem errors_of_recoverWithin {fuel : Nat} {s : State} (h : (s.recoverWithin fuel).errors = #[]) :
    s.errors = #[] := by
  induction fuel generalizing s with
  | zero => exact h
  | succ fuel ih =>
    unfold State.recoverWithin at h
    split at h
    · exact h
    · split at h
      · exact errors_of_fetch h
      · split at h
        · exact h
        · exact errors_of_fetch (ih h)

theorem reads_recover : Reads recover fun _ => True :=
  fun _ hs => ⟨errors_of_recoverWithin hs, trivial⟩

theorem reads_ranksWithin (fuel : Nat) : Reads (ranksWithin fuel) fun _ => True := by
  induction fuel with
  | zero => exact Reads.pure trivial
  | succ fuel ih =>
    refine Reads.after (reads_at _) fun _ => Reads.after (reads_ahead _) fun _ => ?_
    split
    · refine Reads.after reads_advance fun _ => Reads.after reads_advance fun _ => ?_
      exact Reads.after ih fun _ => Reads.pure trivial
    · exact Reads.pure trivial

theorem reads_ranks : Reads ranks fun _ => True :=
  Reads.after reads_get fun _ => reads_ranksWithin _

theorem reads_typeName : Reads typeName fun _ => True := by
  refine Reads.after reads_position fun start => Reads.after (reads_at _) fun b => ?_
  cases b with
  | true =>
    refine Reads.after reads_literal fun _ => Reads.after reads_advance fun _ => ?_
    refine Reads.after reads_ranks fun _ => Reads.after (reads_spanFrom start) fun _ => ?_
    exact Reads.pure trivial
  | false => exact Reads.after (reads_reportExpected _) fun _ => Reads.pure trivial

theorem reads_optionalType : Reads optionalType fun _ => True := by
  refine Reads.after (reads_at _) fun b => ?_
  cases b with
  | true => exact Reads.after reads_advance fun _ => reads_typeName
  | false => exact Reads.pure trivial

/-- The operators of compound assignments evaluate both operands. -/
theorem not_shortCircuit_of_assignment? {k : Token.Kind} {op : Option BinaryOperator}
    (h : assignment? k = some op) : ∀ o, op = some o → o.isShortCircuit = false := by
  rintro o rfl
  unfold assignment? at h
  split at h <;> cases h <;> rfl

theorem reads_literalExpr (t : Token) : Reads (literalExpr t) (Maybe Expr.Proper) := by
  refine Reads.after reads_advance fun _ => Reads.after (reads_spanFrom _) fun span => ?_
  have hleaf : ∀ {e : Expr}, e.Proper → Reads (Pure.pure (some e)) (Maybe Expr.Proper) :=
    fun h => Reads.pure (maybe_some h)
  split
  · dsimp only
    split
    · exact Reads.after (reads_reportAt _ _) fun _ => hleaf trivial
    · exact hleaf trivial
  · dsimp only
    split
    · exact Reads.after (reads_reportAt _ _) fun _ => hleaf trivial
    · exact hleaf trivial
  all_goals exact hleaf trivial

/-- What the readers of expressions promise with some fuel. -/
structure ReadsExpr (fuel : Nat) : Prop where
  expression : Reads (expression fuel) (Maybe Expr.Proper)
  binary : ∀ level, Reads (binary fuel level) (Maybe Expr.Proper)
  binaryTail : ∀ level start left,
    Reads (binaryTail fuel level start left) (Maybe fun e => left.Proper → e.Proper)
  unary : Reads (unary fuel) (Maybe Expr.Proper)
  postfixed : Reads (postfixed fuel) (Maybe Expr.Proper)
  postfixedTail : ∀ start head,
    Reads (postfixedTail fuel start head) (Maybe fun e => head.Proper → e.Proper)
  arguments : Reads (arguments fuel) (Maybe properAll)
  primary : Reads (primary fuel) (Maybe Expr.Proper)
  newArray : Reads (newArray fuel) (Maybe Expr.Proper)

theorem readsExpr_zero : ReadsExpr 0 where
  expression := Reads.none
  binary _ := Reads.none
  binaryTail _ _ _ := Reads.none
  unary := Reads.none
  postfixed := Reads.none
  postfixedTail _ _ := Reads.none
  arguments := Reads.none
  primary := Reads.none
  newArray := Reads.none

namespace ReadsExpr

variable {fuel : Nat} (ih : ReadsExpr fuel)

include ih

theorem expression_succ : Reads (Reader.expression (fuel + 1)) (Maybe Expr.Proper) := by
  refine Reads.after reads_position fun start => Reads.optional (ih.binary 1) rfl fun left => ?_
  refine Reads.after reads_kind fun k => ?_
  split
  · exact Reads.some id
  · rename_i op hop
    refine Reads.after reads_advance fun _ => Reads.optional ih.expression rfl fun value => ?_
    refine Reads.after (reads_spanFrom start) fun _ => Reads.some ?_
    intro hvalue hleft
    exact ⟨not_shortCircuit_of_assignment? hop, hleft, hvalue⟩

theorem binary_succ (level : Nat) :
    Reads (Reader.binary (fuel + 1) level) (Maybe Expr.Proper) := by
  refine Reads.after reads_position fun start => Reads.optional ih.unary rfl fun left => ?_
  exact ih.binaryTail level start left

theorem binaryTail_succ (level : Nat) (start : Position) (left : Expr) :
    Reads (Reader.binaryTail (fuel + 1) level start left)
      (Maybe fun e => left.Proper → e.Proper) := by
  refine Reads.after reads_kind fun k => ?_
  split
  · exact Reads.some id
  · split
    · exact Reads.some id
    · refine Reads.after reads_advance fun _ => Reads.optional (ih.binary _) rfl fun right => ?_
      refine Reads.after (reads_spanFrom start) fun _ => (ih.binaryTail _ _ _).imp ?_
      intro o ho e he hright hleft
      exact ho e he ⟨hleft, hright⟩

theorem unary_succ : Reads (Reader.unary (fuel + 1)) (Maybe Expr.Proper) := by
  refine Reads.after reads_kind fun k => ?_
  split
  · exact ih.postfixed
  · refine Reads.after reads_position fun start => Reads.after reads_advance fun _ => ?_
    refine Reads.optional ih.unary rfl fun operand => ?_
    exact Reads.after (reads_spanFrom start) fun _ => Reads.some id

theorem postfixed_succ : Reads (Reader.postfixed (fuel + 1)) (Maybe Expr.Proper) := by
  refine Reads.after reads_position fun start => Reads.optional ih.primary rfl fun head => ?_
  exact ih.postfixedTail start head

theorem postfixedTail_succ (start : Position) (head : Expr) :
    Reads (Reader.postfixedTail (fuel + 1) start head)
      (Maybe fun e => head.Proper → e.Proper) := by
  refine Reads.after reads_kind fun k => ?_
  split
  · refine Reads.after reads_advance fun _ => Reads.optional ih.arguments rfl fun args => ?_
    refine Reads.after (reads_expect _) fun b => ?_
    split
    · exact Reads.none
    · refine Reads.after (reads_spanFrom start) fun _ => (ih.postfixedTail _ _).imp ?_
      intro o ho e he hargs hhead
      exact ho e he ⟨hhead, hargs⟩
  · refine Reads.after reads_advance fun _ => Reads.optional ih.expression rfl fun index => ?_
    refine Reads.after (reads_expect _) fun b => ?_
    split
    · exact Reads.none
    · refine Reads.after (reads_spanFrom start) fun _ => (ih.postfixedTail _ _).imp ?_
      intro o ho e he hindex hhead
      exact ho e he ⟨hhead, hindex⟩
  · refine Reads.after reads_advance fun _ => Reads.after (reads_at _) fun b => ?_
    split
    · refine Reads.after reads_literal fun name => Reads.after reads_advance fun _ => ?_
      refine Reads.after (reads_spanFrom start) fun _ => ?_
      exact ih.postfixedTail _ _
    · exact Reads.after (reads_reportExpected _) fun _ => Reads.none
  · refine Reads.after reads_advance fun _ => ?_
    refine Reads.optional (reads_typeName.imp fun _ _ _ _ => trivial) rfl fun type => ?_
    refine Reads.after (reads_spanFrom start) fun _ => (ih.postfixedTail _ _).imp ?_
    intro o ho e he _ hhead
    exact ho e he hhead
  · exact Reads.some id

theorem newArray_succ : Reads (Reader.newArray (fuel + 1)) (Maybe Expr.Proper) := by
  refine Reads.after reads_position fun start => Reads.after reads_advance fun _ => ?_
  refine Reads.after reads_get fun s => ?_
  dsimp only
  split
  · refine Reads.after reads_advance fun _ => Reads.after (reads_expect _) fun b => ?_
    split
    · exact Reads.none
    · refine Reads.optional ih.expression rfl fun size => Reads.after (reads_expect _) fun b => ?_
      split
      · exact Reads.none
      · refine Reads.after reads_ranks fun rank => Reads.after (reads_spanFrom start) fun _ => ?_
        exact Reads.some id
  · exact Reads.after (reads_reportExpected _) fun _ => Reads.none

theorem arguments_succ : Reads (Reader.arguments (fuel + 1)) (Maybe properAll) := by
  refine Reads.after (reads_at _) fun _ => Reads.after (reads_at _) fun _ => ?_
  split
  · exact Reads.some trivial
  · refine Reads.optional ih.expression rfl fun arg => Reads.after (reads_at _) fun b => ?_
    split
    · refine Reads.after reads_advance fun _ => Reads.optional ih.arguments rfl fun args => ?_
      exact Reads.some fun hargs harg => ⟨harg, hargs⟩
    · exact Reads.some fun harg => ⟨harg, trivial⟩

theorem primary_succ : Reads (Reader.primary (fuel + 1)) (Maybe Expr.Proper) := by
  refine Reads.after reads_get fun s => ?_
  dsimp only
  split
  case h_8 => exact ih.newArray
  case h_9 =>
    refine Reads.after reads_advance fun _ => Reads.optional ih.expression rfl fun e => ?_
    refine Reads.after (reads_expect _) fun b => ?_
    split
    · exact Reads.some id
    · exact Reads.none
  case h_10 => exact Reads.after (reads_report _) fun _ => Reads.none
  all_goals exact reads_literalExpr _

end ReadsExpr

theorem readsExpr (fuel : Nat) : ReadsExpr fuel := by
  induction fuel with
  | zero => exact readsExpr_zero
  | succ fuel ih =>
    exact ⟨ih.expression_succ, ih.binary_succ, ih.binaryTail_succ, ih.unary_succ,
      ih.postfixed_succ, ih.postfixedTail_succ, ih.arguments_succ, ih.primary_succ,
      ih.newArray_succ⟩

theorem reads_terminate : Reads terminate fun _ => True := by
  refine Reads.after (reads_expect _) fun b => ?_
  split
  · exact reads_recover
  · exact Reads.pure trivial

/-- A mistake is recorded for a declaration that has neither a type nor an initial value. -/
theorem reads_declared (start : Position) (name : String) (isConst : Bool)
    (type? : Option TypeName) (init? : Option Expr) :
    Reads (do
      if type?.isNone && init?.isNone then report (.untypedDeclaration name)
      if isConst && init?.isNone then report (.uninitializedConstant name)
      terminate
      return some (Declaration.mk (← spanFrom start) name isConst type? init?))
      (Maybe fun d : Declaration => Maybe Expr.Proper init? → d.Proper) := by
  have hend : Reads (do
      terminate
      return some (Declaration.mk (← spanFrom start) name isConst type? init?))
      (Maybe fun d : Declaration =>
        type? ≠ none ∨ init? ≠ none → Maybe Expr.Proper init? → d.Proper) := by
    refine Reads.after reads_terminate fun _ => Reads.after (reads_spanFrom start) fun _ => ?_
    refine Reads.some fun hsome hinit => ⟨?_, hinit⟩
    simpa only [Option.isSome_iff_ne_none] using hsome
  have hconst : Reads (do
      if isConst && init?.isNone then report (.uninitializedConstant name)
      terminate
      return some (Declaration.mk (← spanFrom start) name isConst type? init?))
      (Maybe fun d : Declaration =>
        type? ≠ none ∨ init? ≠ none → Maybe Expr.Proper init? → d.Proper) := by
    dsimp only
    split
    · exact Reads.after (reads_report _) fun _ => hend
    · exact hend
  dsimp only
  split
  · exact Reads.bind (reads_report _) fun _ => hconst.imp fun _ _ h => h.elim
  · rename_i hneither
    refine hconst.imp fun _ h d hd => h d hd ?_
    simp only [Bool.and_eq_true, Option.isNone_iff_eq_none] at hneither
    exact Decidable.not_and_iff_or_not.mp hneither

theorem reads_declaration (fuel : Nat) : Reads (declaration fuel) (Maybe Declaration.Proper) := by
  refine Reads.after reads_position fun start => Reads.after (reads_at _) fun isConst => ?_
  refine Reads.after reads_advance fun _ => Reads.after (reads_at _) fun b => ?_
  split
  · refine Reads.after reads_literal fun name => Reads.after reads_advance fun _ => ?_
    refine Reads.after reads_optionalType fun type? => Reads.after (reads_at _) fun b => ?_
    have hdeclared := reads_declared start name isConst type?
    dsimp only
    split
    · refine Reads.after reads_advance fun _ => Reads.bind (readsExpr fuel).expression ?_
      exact fun init? => (hdeclared init?).imp fun _ h hinit d hd => h d hd hinit
    · exact (hdeclared none).imp fun _ h d hd => h d hd maybe_none
  · refine Reads.after (reads_reportExpected _) fun _ => ?_
    exact Reads.after reads_recover fun _ => Reads.none

theorem reads_condition (fuel : Nat) : Reads (condition fuel) (Maybe Expr.Proper) := by
  refine Reads.after (reads_expect _) fun b => ?_
  split
  · refine Reads.bind (readsExpr fuel).expression fun cond => ?_
    exact Reads.after (reads_expect _) fun _ => Reads.pure id
  · exact Reads.none

theorem reads_setup (fuel : Nat) : Reads (setup fuel) (Maybe Setup.Proper) := by
  refine Reads.after reads_kind fun k => ?_
  have hdeclare : Reads (do return (← declaration fuel).map Setup.declare) (Maybe Setup.Proper) :=
    Reads.bind (reads_declaration fuel) fun _ => Reads.pure fun h => h.map fun _ h => h
  split
  · exact hdeclare
  · exact hdeclare
  · exact Reads.after reads_advance fun _ => Reads.none
  · refine Reads.after reads_position fun start => ?_
    refine Reads.bind (readsExpr fuel).expression fun e => ?_
    refine Reads.after (reads_spanFrom start) fun span => ?_
    exact Reads.after (reads_expect _) fun _ => Reads.pure fun h => h.map fun _ h => h

theorem reads_optionalBefore (stop : Token.Kind) (fuel : Nat) :
    Reads (optionalBefore stop fuel) (Maybe Expr.Proper) := by
  refine Reads.after (reads_at _) fun b => ?_
  split
  · exact Reads.none
  · exact (readsExpr fuel).expression

theorem reads_evaluation (fuel : Nat) : Reads (evaluation fuel) (Maybe Stmt.Proper) := by
  refine Reads.after reads_position fun start => ?_
  refine Reads.bind (readsExpr fuel).expression fun e => ?_
  cases e with
  | none => exact Reads.after reads_recover fun _ => Reads.pure fun _ => maybe_none
  | some e =>
    refine Reads.after reads_terminate fun _ => Reads.after (reads_spanFrom start) fun _ => ?_
    exact Reads.pure fun h => maybe_some (h e rfl)

theorem reads_jump {make : Span → Stmt} (h : ∀ span, (make span).Proper) :
    Reads (jump make) (Maybe Stmt.Proper) := by
  refine Reads.after reads_position fun start => Reads.after reads_advance fun _ => ?_
  refine Reads.after (reads_expect _) fun _ => Reads.after (reads_spanFrom start) fun span => ?_
  exact Reads.some (h span)

theorem reads_returning (fuel : Nat) : Reads (returning fuel) (Maybe Stmt.Proper) := by
  refine Reads.after reads_position fun start => Reads.after reads_advance fun _ => ?_
  refine Reads.bind (reads_optionalBefore _ fuel) fun value => ?_
  refine Reads.after reads_terminate fun _ => Reads.after (reads_spanFrom start) fun span => ?_
  exact Reads.pure fun h => maybe_some h

theorem reads_atBlockEnd : Reads atBlockEnd fun _ => True := Reads.look fun _ => rfl

/-- Passing over a token has no say in what was found. -/
theorem reads_progressing {α : Type} {ended : Reader Bool} {part : Reader (Option α)}
    {P : Option α → Prop} (hended : Reads ended fun _ => True) (hpart : Reads part P) :
    Reads (progressing ended part) P := by
  refine Reads.after reads_position fun _ => Reads.bind hpart fun found => ?_
  refine Reads.after reads_position fun _ => Reads.after hended fun _ => ?_
  dsimp only
  split
  · exact Reads.after reads_advance fun _ => Reads.pure id
  · exact Reads.pure id

/-- What the readers of statements promise with some fuel. -/
structure ReadsStmt (fuel : Nat) : Prop where
  statement : Reads (statement fuel) (Maybe Stmt.Proper)
  block : Reads (block fuel) fun b => properStmts b.2
  statements : Reads (statements fuel) properStmts
  conditional : Reads (conditional fuel) (Maybe Stmt.Proper)
  whileLoop : Reads (whileLoop fuel) (Maybe Stmt.Proper)
  forLoop : Reads (forLoop fuel) (Maybe Stmt.Proper)

theorem readsStmt_zero : ReadsStmt 0 where
  statement := Reads.none
  block := Reads.pure trivial
  statements := Reads.pure trivial
  conditional := Reads.none
  whileLoop := Reads.none
  forLoop := Reads.none

namespace ReadsStmt

variable {fuel : Nat} (ih : ReadsStmt fuel)

include ih

theorem statement_succ : Reads (Reader.statement (fuel + 1)) (Maybe Stmt.Proper) := by
  refine Reads.after reads_kind fun k => ?_
  have hdeclare : Reads (do return some (((← declaration fuel).map Stmt.declare).getD .missing))
      (Maybe Stmt.Proper) := by
    refine Reads.bind (reads_declaration fuel) fun d => Reads.pure fun h => maybe_some ?_
    cases d with
    | none => trivial
    | some d => exact h d rfl
  split
  · exact Reads.bind ih.block fun b => Reads.pure fun h => maybe_some h
  · exact hdeclare
  · exact hdeclare
  · exact ih.conditional
  · exact ih.whileLoop
  · exact ih.forLoop
  · exact reads_jump fun _ => trivial
  · exact reads_jump fun _ => trivial
  · exact reads_returning fuel
  · exact Reads.after (reads_report _) fun _ => Reads.after reads_advance fun _ => Reads.none
  · exact reads_evaluation fuel

theorem block_succ : Reads (Reader.block (fuel + 1)) fun b => properStmts b.2 := by
  refine Reads.after reads_position fun start => Reads.after reads_advance fun _ => ?_
  refine Reads.bind ih.statements fun body => Reads.after (reads_expect _) fun _ => ?_
  exact Reads.after (reads_spanFrom start) fun _ => Reads.pure id

theorem statements_succ : Reads (Reader.statements (fuel + 1)) properStmts := by
  refine Reads.after reads_atBlockEnd fun _ => ?_
  split
  · exact Reads.pure trivial
  · refine Reads.bind (reads_progressing reads_atBlockEnd ih.statement) fun stmt => ?_
    refine Reads.bind ih.statements fun ss => Reads.pure fun hss hstmt => ?_
    cases stmt with
    | none => exact hss
    | some s => exact ⟨hstmt s rfl, hss⟩

theorem conditional_succ : Reads (Reader.conditional (fuel + 1)) (Maybe Stmt.Proper) := by
  refine Reads.after reads_position fun start => Reads.after reads_advance fun _ => ?_
  refine Reads.bind (reads_condition fuel) fun cond? => Reads.bind ih.statement fun yes? => ?_
  split
  · rename_i cond yes
    have hthen : Reads (do return some (Stmt.ifThen (← spanFrom start) cond yes))
        fun o => Maybe Stmt.Proper (some yes) → Maybe Expr.Proper (some cond) →
          Maybe Stmt.Proper o :=
      Reads.after (reads_spanFrom start) fun _ => Reads.pure fun hyes hcond =>
        maybe_some ⟨hcond cond rfl, hyes yes rfl⟩
    refine Reads.after (reads_at _) fun b => ?_
    split
    · refine Reads.after reads_advance fun _ => Reads.bind ih.statement fun no? => ?_
      cases no? with
      | none => exact hthen.imp fun _ h _ => h
      | some no =>
        refine Reads.after (reads_spanFrom start) fun _ => Reads.pure fun hno hyes hcond => ?_
        exact maybe_some ⟨hcond cond rfl, hyes yes rfl, hno no rfl⟩
    · exact hthen
  · exact Reads.pure fun _ _ => maybe_none

theorem whileLoop_succ : Reads (Reader.whileLoop (fuel + 1)) (Maybe Stmt.Proper) := by
  refine Reads.after reads_position fun start => Reads.after reads_advance fun _ => ?_
  refine Reads.bind (reads_condition fuel) fun cond? => Reads.bind ih.statement fun body? => ?_
  split
  · rename_i cond body
    refine Reads.after (reads_spanFrom start) fun _ => Reads.pure fun hbody hcond => ?_
    exact maybe_some ⟨hcond cond rfl, hbody body rfl⟩
  · exact Reads.pure fun _ _ => maybe_none

theorem forLoop_succ : Reads (Reader.forLoop (fuel + 1)) (Maybe Stmt.Proper) := by
  refine Reads.after reads_position fun start => Reads.after reads_advance fun _ => ?_
  refine Reads.after (reads_expect _) fun b => ?_
  split
  · refine Reads.bind (reads_setup fuel) fun first => ?_
    refine Reads.bind (reads_optionalBefore _ fuel) fun cond => Reads.after (reads_expect _) ?_
    refine fun _ => Reads.bind (reads_optionalBefore _ fuel) fun post => ?_
    refine Reads.after (reads_expect _) fun b => ?_
    split
    · refine Reads.bind ih.statement fun body? => ?_
      cases body? with
      | none => exact Reads.pure fun _ _ _ _ => maybe_none
      | some body =>
        refine Reads.after (reads_spanFrom start) fun _ => Reads.pure ?_
        intro hbody hpost hcond hfirst
        exact maybe_some ⟨hfirst, hcond, hpost, hbody body rfl⟩
    · exact Reads.after reads_recover fun _ => Reads.pure fun _ _ _ => maybe_none
  · exact Reads.after reads_recover fun _ => Reads.none

end ReadsStmt

theorem readsStmt (fuel : Nat) : ReadsStmt fuel := by
  induction fuel with
  | zero => exact readsStmt_zero
  | succ fuel ih =>
    exact ⟨ih.statement_succ, ih.block_succ, ih.statements_succ, ih.conditional_succ,
      ih.whileLoop_succ, ih.forLoop_succ⟩

theorem reads_qualifiersWithin (fuel : Nat) : Reads (qualifiersWithin fuel) fun _ => True := by
  induction fuel with
  | zero => exact Reads.pure trivial
  | succ fuel ih =>
    refine Reads.after (reads_at _) fun _ => Reads.after (reads_ahead _) fun _ => ?_
    split
    · refine Reads.after reads_advance fun _ => Reads.after reads_literal fun _ => ?_
      exact Reads.after reads_advance fun _ => Reads.after ih fun _ => Reads.pure trivial
    · exact Reads.pure trivial

theorem reads_qualifiedName : Reads qualifiedName fun _ => True := by
  refine Reads.after (reads_at _) fun b => ?_
  split
  · refine Reads.after reads_literal fun _ => Reads.after reads_advance fun _ => ?_
    refine Reads.after reads_get fun _ => Reads.after (reads_qualifiersWithin _) fun _ => ?_
    exact Reads.pure trivial
  · exact Reads.after (reads_reportExpected _) fun _ => Reads.pure trivial

section

variable {α : Type} {item : Reader (Option α)} (h : Reads item fun _ => True)

include h

theorem reads_itemsWithin (fuel : Nat) : Reads (itemsWithin item fuel) fun _ => True := by
  induction fuel with
  | zero => exact Reads.pure trivial
  | succ fuel ih =>
    refine Reads.after (reads_at _) fun _ => Reads.after (reads_at _) fun _ => ?_
    split
    · exact Reads.pure trivial
    · refine Reads.after h fun x? => ?_
      split
      · refine Reads.after (reads_at _) fun _ => ?_
        split
        · refine Reads.after reads_advance fun _ => Reads.after ih fun xs? => ?_
          split
          · exact Reads.pure trivial
          · exact Reads.pure trivial
        · exact Reads.pure trivial
      · exact Reads.pure trivial

theorem reads_parenthesized : Reads (parenthesized item) fun _ => True := by
  refine Reads.after reads_get fun s => Reads.after (reads_itemsWithin h s.remaining) fun xs? => ?_
  split
  · refine Reads.after (reads_expect _) fun _ => ?_
    split
    · exact Reads.pure trivial
    · exact Reads.pure trivial
  · exact Reads.pure trivial

end

theorem reads_importDecl : Reads importDecl fun _ => True := by
  refine Reads.after reads_position fun start => Reads.after reads_advance fun _ => ?_
  refine Reads.after reads_qualifiedName fun path? => ?_
  split
  · refine Reads.after (reads_at _) fun _ => ?_
    split
    · refine Reads.after reads_advance fun _ => ?_
      refine Reads.after (reads_parenthesized reads_typeName) fun params? => ?_
      split
      · refine Reads.after reads_optionalType fun _ => Reads.after (reads_expect _) fun _ => ?_
        exact Reads.after (reads_spanFrom start) fun _ => Reads.pure trivial
      · exact Reads.after reads_recover fun _ => Reads.pure trivial
    · refine Reads.after (reads_expect _) fun _ => ?_
      exact Reads.after (reads_spanFrom start) fun _ => Reads.pure trivial
  · exact Reads.after reads_recover fun _ => Reads.pure trivial

theorem reads_param : Reads param fun _ => True := by
  refine Reads.after reads_position fun start => Reads.after (reads_at _) fun _ => ?_
  split
  · refine Reads.after reads_literal fun _ => Reads.after reads_advance fun _ => ?_
    refine Reads.after (reads_expect _) fun _ => ?_
    split
    · exact Reads.pure trivial
    · refine Reads.after reads_typeName fun type? => ?_
      split
      · exact Reads.after (reads_spanFrom start) fun _ => Reads.pure trivial
      · exact Reads.pure trivial
  · exact Reads.after (reads_reportExpected _) fun _ => Reads.pure trivial

theorem reads_signature : Reads signature fun _ => True := by
  refine Reads.after (reads_expect _) fun _ => ?_
  split
  · exact Reads.pure trivial
  · refine Reads.after (reads_parenthesized reads_param) fun params? => ?_
    split
    · refine Reads.after reads_optionalType fun _ => Reads.after (reads_at _) fun _ => ?_
      split
      · exact Reads.pure trivial
      · exact Reads.after (reads_reportExpected _) fun _ => Reads.pure trivial
    · exact Reads.pure trivial

theorem reads_function (fuel : Nat) :
    Reads (function fuel) (Maybe fun g => properStmts g.body) := by
  refine Reads.after reads_position fun start => Reads.after reads_advance fun _ => ?_
  refine Reads.after (reads_at _) fun _ => ?_
  split
  · refine Reads.after reads_literal fun _ => Reads.after reads_advance fun _ => ?_
    refine Reads.after reads_signature fun parts? => ?_
    split
    · refine Reads.bind (readsStmt fuel).block fun body => ?_
      exact Reads.after (reads_spanFrom start) fun _ => Reads.pure fun h => maybe_some h
    · exact Reads.after reads_recover fun _ => Reads.none
  · refine Reads.after (reads_reportExpected _) fun _ => ?_
    exact Reads.after reads_recover fun _ => Reads.none

def Item.Proper : Item → Prop
  | .import _ => True
  | .global d => d.Proper
  | .function g => properStmts g.body
  | .statement s => s.Proper

theorem reads_item (fuel : Nat) : Reads (item fuel) (Maybe Item.Proper) := by
  refine Reads.after reads_kind fun k => ?_
  have hglobal : Reads (do return (← declaration fuel).map Item.global) (Maybe Item.Proper) :=
    Reads.bind (reads_declaration fuel) fun _ => Reads.pure fun h => h.map fun _ h => h
  split
  · refine Reads.bind reads_importDecl fun i => Reads.pure fun _ => ?_
    exact Maybe.map (fun _ _ => trivial) fun _ h => h
  · exact Reads.bind (reads_function fuel) fun _ => Reads.pure fun h => h.map fun _ h => h
  · exact hglobal
  · exact hglobal
  · refine Reads.bind (readsStmt fuel).statement fun _ => ?_
    exact Reads.pure fun h => h.map fun _ h => h

theorem reads_items (fuel : Nat) : Reads (items fuel) fun is => ∀ i ∈ is, i.Proper := by
  induction fuel with
  | zero => exact Reads.pure (by simp)
  | succ fuel ih =>
    refine Reads.after (reads_at _) fun _ => ?_
    split
    · exact Reads.pure (by simp)
    · refine Reads.bind (reads_progressing (reads_at _) (reads_item fuel)) fun found => ?_
      refine Reads.bind ih fun is => Reads.pure fun his hfound i hi => ?_
      rcases List.mem_append.mp hi with hi | hi
      · exact hfound i (Option.mem_toList.mp hi)
      · exact his i hi

theorem sortItems_proper {span : Span} {is : List Item} (h : ∀ i ∈ is, i.Proper) :
    (sortItems span is).Proper := by
  induction is with
  | nil => exact ⟨by simp [sortItems], by simp [sortItems], trivial⟩
  | cons i is ih =>
    have hrest := ih fun i hi => h i (List.mem_cons_of_mem _ hi)
    have hi : i.Proper := h i List.mem_cons_self
    cases i with
    | «import» i => exact ⟨hrest.globals, hrest.functions, hrest.statements⟩
    | global d =>
      exact ⟨List.forall_mem_cons.mpr ⟨hi, hrest.globals⟩, hrest.functions, hrest.statements⟩
    | function g =>
      exact ⟨hrest.globals, List.forall_mem_cons.mpr ⟨hi, hrest.functions⟩, hrest.statements⟩
    | statement s => exact ⟨hrest.globals, hrest.functions, hi, hrest.statements⟩

theorem reads_file (fuel : Nat) : Reads (file fuel) File.Proper := by
  refine Reads.after reads_position fun start => Reads.bind (reads_items fuel) fun is => ?_
  exact Reads.after (reads_spanFrom start) fun _ => Reads.pure fun h => sortItems_proper h

end Reader

theorem Reader.Reads.readWith {α : Type} {reader : Nat → Reader α} {P : α → Prop}
    (h : ∀ fuel, Reads (reader fuel) P) {source : List Glyph}
    (herrors : (readWith reader source).2 = #[]) : P (readWith reader source).1 :=
  (h _ (State.ofTokens (tokenize source)) herrors).2

theorem parse_of_isEmpty {source : List Glyph} (h : (parse source).2.isEmpty = true) :
    parse source = ((parse source).1, #[]) :=
  Prod.ext rfl (Array.isEmpty_iff.mp h)

/-- A source text without mistakes gives a proper program. -/
theorem proper_of_parse {source : List Glyph} {file : File} (h : parse source = (file, #[])) :
    file.Proper := by
  have hfile : (parse source).1 = file := congrArg Prod.fst h
  have herrors : (parse source).2 = #[] := congrArg Prod.snd h
  rw [← hfile]
  exact Reader.Reads.readWith Reader.reads_file herrors

end Parsed
end TypedScript
