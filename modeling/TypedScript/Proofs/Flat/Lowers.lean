import TypedScript.Flat.Lowering
import TypedScript.Proofs.Bound.Typing

/-!
# How bound programs are flattened

Flattening as a relation: for each form of expression and statement, what its flat form is made of
and which labels and temporaries it takes from the supply. On programs that make sense flattening
never fails, with or without mistakes in them, and what it gives is in the relation.
-/

namespace TypedScript
namespace Flat

def temporary (n : Nat) (type : TypeId) : Symbol :=
  ⟨.temporary n, "$t" ++ toString n, .localVariable, type, false⟩

namespace Supply

def nextTemporary (s : Supply) : Supply := ⟨s.labels, s.temporaries + 1⟩

def nextLabels (s : Supply) (n : Nat) : Supply := ⟨s.labels + n, s.temporaries⟩

@[simp] theorem labels_nextTemporary (s : Supply) : s.nextTemporary.labels = s.labels := rfl

@[simp] theorem temporaries_nextTemporary (s : Supply) :
    s.nextTemporary.temporaries = s.temporaries + 1 := rfl

@[simp] theorem labels_nextLabels (s : Supply) (n : Nat) :
    (s.nextLabels n).labels = s.labels + n := rfl

@[simp] theorem temporaries_nextLabels (s : Supply) (n : Nat) :
    (s.nextLabels n).temporaries = s.temporaries := rfl

end Supply

open Lowering

/-- Expressions are kept for later: those that are not stable are stored in temporaries. -/
inductive Hoists : List Expr → Supply → List Stmt → List Expr → Supply → Prop
  | nil {s : Supply} : Hoists [] s [] [] s
  | stable {e : Expr} {es : List Expr} {s s' : Supply} {before : List Stmt} {kept : List Expr} :
    isStable e → Hoists es s before kept s' → Hoists (e :: es) s before (e :: kept) s'
  | store {e : Expr} {es : List Expr} {s s' : Supply} {before : List Stmt} {kept : List Expr} :
    isStable e = false → Hoists es s.nextTemporary before kept s' →
      Hoists (e :: es) s (store (temporary (s.temporaries + 1) e.type) e ++ before)
        (.symbol (temporary (s.temporaries + 1) e.type) :: kept) s'

/-- The next operand joins those that are done. If something must run before it, they are kept. -/
inductive Joins (before : List Stmt) (done : List Expr) (next : Lowered) (s : Supply) :
    List Stmt → List Expr → Supply → Prop
  | plain : next.before = [] → Joins before done next s before (done ++ [next.expr]) s
  | keep {hoisted : List Stmt} {kept : List Expr} {s' : Supply} :
    next.before ≠ [] → Hoists done s hoisted kept s' →
      Joins before done next s (before ++ hoisted ++ next.before) (kept ++ [next.expr]) s'

/-- An array or an index is kept for its second use, unless it is a variable or a constant. -/
inductive Spills : Expr → Supply → Lowered → Supply → Prop
  | symbol {sym : Symbol} {s : Supply} : Spills (.symbol sym) s ⟨[], .symbol sym⟩ s
  | literal {v : Option Literal} {t : TypeId} {s : Supply} :
    Spills (.literal v t) s ⟨[], .literal v t⟩ s
  | store {e : Expr} {s : Supply} : (∀ sym, e ≠ .symbol sym) → (∀ v t, e ≠ .literal v t) →
    Spills e s ⟨store (temporary (s.temporaries + 1) e.type) e,
      .symbol (temporary (s.temporaries + 1) e.type)⟩ s.nextTemporary

/-- An expression becomes one of another type. -/
inductive Converts (r : Registry) (e : Expr) (target : TypeId) : Expr → Prop
  | same : e.type = target ∨ r.classify e.type target = .ok .identity → Converts r e target e
  | convert {kind : Conversion} : e.type ≠ target → r.classify e.type target = .ok kind →
    kind ≠ .identity → Converts r e target (.convert kind e target)

def applied (info : Callable) (operator : TypeId) (old left value : Expr) : Expr :=
  if info.isIntrinsic then .binary info.op? (info.params.headD old.type) left value info.result
  else .call operator [left, value] info.result

/-- The right-hand side of a compound assignment. -/
def Merges (r : Registry) (operator : TypeId) (old value result : Expr) : Prop :=
  ∃ info left, r.callable operator = .ok info ∧
    Converts r old (info.params.headD old.type) left ∧
    Converts r (applied info operator old left value) old.type result

def decided (op : BinaryOperator) (t : Symbol) : Expr :=
  if op = .andAlso then negate (.symbol t) else .symbol t

mutual

/-- An expression is flattened. -/
inductive Lowers (r : Registry) : Bound.Expr → Supply → Lowered → Supply → Prop
  | literal {span : Span} {v : Literal} {t : TypeId} {s : Supply} :
    Lowers r (.literal span v t) s ⟨[], .literal (some v) t⟩ s
  | symbol {span : Span} {sym : Symbol} {s : Supply} :
    Lowers r (.symbol span sym) s ⟨[], .symbol sym⟩ s
  | assign {span span' : Span} {sym : Symbol} {value : Bound.Expr} {s s' : Supply} {v : Lowered} :
    Lowers r value s v s' →
      Lowers r (.assign span (.symbol span' sym) value) s ⟨v.before, .assign sym v.expr⟩ s'
  | assignElement {span span' : Span} {array index value : Bound.Expr} {t : TypeId}
    {s s' : Supply} {before : List Stmt} {a i v : Expr} :
    LowersAll r [] [] [array, index, value] s before [a, i, v] s' →
      Lowers r (.assign span (.index span' array index t) value) s
        ⟨before, .assignElement a i t v⟩ s'
  | compound {span span' : Span} {sym : Symbol} {operator : TypeId} {value : Bound.Expr}
    {s s' : Supply} {v : Lowered} {result : Expr} :
    Lowers r value s v s' → Merges r operator (.symbol sym) v.expr result →
      Lowers r (.compound span (.symbol span' sym) operator value) s
        ⟨v.before, .assign sym result⟩ s'
  | compoundElement {span span' : Span} {array index value : Bound.Expr} {t operator : TypeId}
    {s s₁ s₂ s' : Supply} {before : List Stmt} {a i v : Expr} {a' i' : Lowered} {result : Expr} :
    LowersAll r [] [] [array, index, value] s before [a, i, v] s₁ → Spills a s₁ a' s₂ →
      Spills i s₂ i' s' → Merges r operator (.index a'.expr i'.expr t) v result →
      Lowers r (.compound span (.index span' array index t) operator value) s
        ⟨before ++ a'.before ++ i'.before, .assignElement a'.expr i'.expr t result⟩ s'
  | shortCircuit {span : Span} {operator t : TypeId} {left right : Bound.Expr} {info : Callable}
    {op : BinaryOperator} {s s₁ s' : Supply} {a b : Lowered} :
    r.callable operator = .ok info → info.op? = some (.binary op) → op.isShortCircuit →
      Lowers r left s.nextTemporary a s₁ → Lowers r right (s₁.nextLabels 1) b s' →
      Lowers r (.binary span operator left right t) s
        ⟨[.declare (temporary (s.temporaries + 1) (.builtin .bool))] ++ a.before ++
          [.eval (.assign (temporary (s.temporaries + 1) (.builtin .bool)) a.expr),
            .jumpIf (decided op (temporary (s.temporaries + 1) (.builtin .bool)))
              (s₁.labels + 1)] ++
          b.before ++
          [.eval (.assign (temporary (s.temporaries + 1) (.builtin .bool)) b.expr),
            .label (s₁.labels + 1)],
          .symbol (temporary (s.temporaries + 1) (.builtin .bool))⟩ s'
  | binary {span : Span} {operator t : TypeId} {left right : Bound.Expr} {info : Callable}
    {s s' : Supply} {before : List Stmt} {a b : Expr} :
    r.callable operator = .ok info →
      (∀ op, info.op? = some (.binary op) → op.isShortCircuit = false) →
      LowersAll r [] [] [left, right] s before [a, b] s' →
      Lowers r (.binary span operator left right t) s
        ⟨before, .binary info.op? (info.params.headD t) a b t⟩ s'
  | unary {span : Span} {operator t : TypeId} {operand : Bound.Expr} {info : Callable}
    {s s' : Supply} {v : Lowered} :
    r.callable operator = .ok info → Lowers r operand s v s' →
      Lowers r (.unary span operator operand t) s ⟨v.before, .unary info.op? v.expr t⟩ s'
  | call {span : Span} {callable t : TypeId} {args : List Bound.Expr} {s s' : Supply}
    {before : List Stmt} {flat : List Expr} :
    LowersAll r [] [] args s before flat s' →
      Lowers r (.call span callable args t) s ⟨before, .call callable flat t⟩ s'
  | keep {span : Span} {operand : Bound.Expr} {t : TypeId} {isExplicit : Bool} {s s' : Supply}
    {v : Lowered} :
    Lowers r operand s v s' → Lowers r (.convert span .identity operand t isExplicit) s v s'
  | convert {span : Span} {kind : Conversion} {operand : Bound.Expr} {t : TypeId}
    {isExplicit : Bool} {s s' : Supply} {v : Lowered} :
    kind ≠ .identity → Lowers r operand s v s' →
      Lowers r (.convert span kind operand t isExplicit) s ⟨v.before, .convert kind v.expr t⟩ s'
  | index {span : Span} {target index : Bound.Expr} {t : TypeId} {s s' : Supply}
    {before : List Stmt} {a i : Expr} :
    LowersAll r [] [] [target, index] s before [a, i] s' →
      Lowers r (.index span target index t) s ⟨before, .index a i t⟩ s'
  | length {span : Span} {target : Bound.Expr} {s s' : Supply} {v : Lowered} :
    Lowers r target s v s' → Lowers r (.length span target) s ⟨v.before, .length v.expr⟩ s'
  | newArray {span : Span} {element t : TypeId} {size : Bound.Expr} {s s' : Supply} {v : Lowered} :
    Lowers r size s v s' →
      Lowers r (.newArray span element size t) s ⟨v.before, .newArray element v.expr t⟩ s'
  | invalid {span : Span} {children : List Bound.Expr} {s : Supply} :
    Lowers r (.invalid span children) s ⟨[], .invalid⟩ s
  | group {span : Span} {name : String} {g : TypeId} {s : Supply} :
    Lowers r (.group span name g) s ⟨[], .invalid⟩ s
  | typeName {span : Span} {t : TypeId} {s : Supply} :
    Lowers r (.typeName span t) s ⟨[], .invalid⟩ s

/-- Operands are flattened from left to right, behind those that are done. -/
inductive LowersAll (r : Registry) : List Stmt → List Expr → List Bound.Expr → Supply →
    List Stmt → List Expr → Supply → Prop
  | nil {before : List Stmt} {done : List Expr} {s : Supply} :
    LowersAll r before done [] s before done s
  | cons {before before' before'' : List Stmt} {done done' done'' : List Expr} {e : Bound.Expr}
    {rest : List Bound.Expr} {s s₁ s₂ s' : Supply} {next : Lowered} :
    Lowers r e s next s₁ → Joins before done next s₁ before' done' s₂ →
      LowersAll r before' done' rest s₂ before'' done'' s' →
      LowersAll r before done (e :: rest) s before'' done'' s'

end

/-- A declaration is flattened. A variable without an initial value is set to zero. -/
inductive LowersDeclaration (r : Registry) (d : Bound.Declaration) :
    Supply → List Stmt → Supply → Prop
  | init {e : Bound.Expr} {s s' : Supply} {v : Lowered} : d.init? = some e → Lowers r e s v s' →
    LowersDeclaration r d s (.declare d.symbol :: v.before ++ [.eval (.assign d.symbol v.expr)]) s'
  | zero {s : Supply} : d.init? = none → d.symbol.type ≠ .error →
    LowersDeclaration r d s
      [.declare d.symbol, .eval (.assign d.symbol (zeroLiteral d.symbol.type))] s
  | unset {s : Supply} : d.init? = none → d.symbol.type = .error →
    LowersDeclaration r d s [.declare d.symbol] s

/-- The first part of the header of a counted loop is flattened. -/
inductive LowersSetup (r : Registry) : Option Bound.Setup → Supply → List Stmt → Supply → Prop
  | none {s : Supply} : LowersSetup r none s [] s
  | declare {d : Bound.Declaration} {s s' : Supply} {out : List Stmt} :
    LowersDeclaration r d s out s' → LowersSetup r (some (.declare d)) s out s'
  | eval {e : Bound.Evaluation} {s s' : Supply} {v : Lowered} : Lowers r e.expr s v s' →
    LowersSetup r (some (.eval e)) s (v.before ++ [.eval v.expr]) s'

/-- The condition of a counted loop is flattened. -/
inductive LowersTest (r : Registry) (done : Label) :
    Option Bound.Expr → Supply → List Stmt → Supply → Prop
  | none {s : Supply} : LowersTest r done none s [] s
  | some {cond : Bound.Expr} {s s' : Supply} {v : Lowered} : Lowers r cond s v s' →
    LowersTest r done (some cond) s (v.before ++ [.jumpIf (negate v.expr) done]) s'

/-- What a counted loop evaluates after each turn is flattened. -/
inductive LowersPost (r : Registry) : Option Bound.Expr → Supply → List Stmt → Supply → Prop
  | none {s : Supply} : LowersPost r none s [] s
  | some {post : Bound.Expr} {s s' : Supply} {v : Lowered} : Lowers r post s v s' →
    LowersPost r (some post) s (v.before ++ [.eval v.expr]) s'

mutual

/-- A statement is flattened. -/
inductive LowersStmt (r : Registry) : Option LoopLabels → Bound.Stmt → Supply →
    List Stmt → Supply → Prop
  | block {loop? : Option LoopLabels} {span : Span} {body : List Bound.Stmt} {s s' : Supply}
    {out : List Stmt} :
    LowersStmts r loop? body s out s' → LowersStmt r loop? (.block span body) s out s'
  | declare {loop? : Option LoopLabels} {d : Bound.Declaration} {s s' : Supply} {out : List Stmt} :
    LowersDeclaration r d s out s' → LowersStmt r loop? (.declare d) s out s'
  | eval {loop? : Option LoopLabels} {e : Bound.Evaluation} {s s' : Supply} {v : Lowered} :
    Lowers r e.expr s v s' → LowersStmt r loop? (.eval e) s (v.before ++ [.eval v.expr]) s'
  | ifThen {loop? : Option LoopLabels} {span : Span} {cond : Bound.Expr} {yes : Bound.Stmt}
    {s s₁ s' : Supply} {v : Lowered} {out : List Stmt} :
    Lowers r cond s v s₁ → LowersStmt r loop? yes (s₁.nextLabels 1) out s' →
      LowersStmt r loop? (.ifThen span cond yes) s
        (v.before ++ [.jumpIf (negate v.expr) (s₁.labels + 1)] ++ out ++ [.label (s₁.labels + 1)]) s'
  | ifElse {loop? : Option LoopLabels} {span : Span} {cond : Bound.Expr} {yes no : Bound.Stmt}
    {s s₁ s₂ s' : Supply} {v : Lowered} {out out' : List Stmt} :
    Lowers r cond s v s₁ → LowersStmt r loop? yes (s₁.nextLabels 2) out s₂ →
      LowersStmt r loop? no s₂ out' s' →
      LowersStmt r loop? (.ifElse span cond yes no) s
        (v.before ++ [.jumpIf (negate v.expr) (s₁.labels + 2)] ++ out ++
          [.jump (s₁.labels + 1), .label (s₁.labels + 2)] ++ out' ++ [.label (s₁.labels + 1)]) s'
  | whileLoop {loop? : Option LoopLabels} {span : Span} {cond : Bound.Expr} {body : Bound.Stmt}
    {s s₁ s' : Supply} {v : Lowered} {out : List Stmt} :
    Lowers r cond (s.nextLabels 2) v s₁ →
      LowersStmt r (some ⟨s.labels + 1, s.labels + 2⟩) body s₁ out s' →
      LowersStmt r loop? (.whileLoop span cond body) s
        ([.label (s.labels + 1)] ++ (v.before ++ [.jumpIf (negate v.expr) (s.labels + 2)]) ++ out ++
          [.jump (s.labels + 1), .label (s.labels + 2)]) s'
  | forLoop {loop? : Option LoopLabels} {span : Span} {setup : Option Bound.Setup}
    {cond post : Option Bound.Expr} {body : Bound.Stmt} {s s₁ s₂ s₃ s' : Supply}
    {first test out last : List Stmt} :
    LowersSetup r setup s first s₁ →
      LowersTest r (s₁.labels + 3) cond (s₁.nextLabels 3) test s₂ →
      LowersStmt r (some ⟨s₁.labels + 2, s₁.labels + 3⟩) body s₂ out s₃ →
      LowersPost r post s₃ last s' →
      LowersStmt r loop? (.forLoop span setup cond post body) s
        (first ++ [.label (s₁.labels + 1)] ++ test ++ out ++ [.label (s₁.labels + 2)] ++ last ++
          [.jump (s₁.labels + 1), .label (s₁.labels + 3)]) s'
  | breakLoop {l : LoopLabels} {span : Span} {s : Supply} :
    LowersStmt r (some l) (.breakLoop span) s [.jump l.breakTo] s
  | continueLoop {l : LoopLabels} {span : Span} {s : Supply} :
    LowersStmt r (some l) (.continueLoop span) s [.jump l.continueTo] s
  | returnNone {loop? : Option LoopLabels} {span : Span} {s : Supply} :
    LowersStmt r loop? (.returnStmt span none) s [.returnStmt none] s
  | returnSome {loop? : Option LoopLabels} {span : Span} {e : Bound.Expr} {s s' : Supply}
    {v : Lowered} :
    Lowers r e s v s' →
      LowersStmt r loop? (.returnStmt span (some e)) s (v.before ++ [.returnStmt (some v.expr)]) s'

/-- Statements are flattened in order. -/
inductive LowersStmts (r : Registry) : Option LoopLabels → List Bound.Stmt → Supply →
    List Stmt → Supply → Prop
  | nil {loop? : Option LoopLabels} {s : Supply} : LowersStmts r loop? [] s [] s
  | cons {loop? : Option LoopLabels} {stmt : Bound.Stmt} {rest : List Bound.Stmt}
    {s s₁ s' : Supply} {out out' : List Stmt} :
    LowersStmt r loop? stmt s out s₁ → LowersStmts r loop? rest s₁ out' s' →
      LowersStmts r loop? (stmt :: rest) s (out ++ out') s'

end

/-- A step of flattening succeeds, with a result and a supply as said. -/
def Gives {α : Type} (m : Lowering α) (s : Supply) (P : α → Supply → Prop) : Prop :=
  ∃ a s', m s = .ok (a, s') ∧ P a s'

namespace Gives

variable {α β : Type} {s : Supply}

theorem pure {a : α} {P : α → Supply → Prop} (h : P a s) : Gives (Pure.pure a) s P :=
  ⟨a, s, rfl, h⟩

theorem bind {m : Lowering α} {f : α → Lowering β} {P : α → Supply → Prop} {Q : β → Supply → Prop}
    (hm : Gives m s P) (hf : ∀ a s', P a s' → Gives (f a) s' Q) : Gives (m >>= f) s Q := by
  obtain ⟨a, s', hrun, hp⟩ := hm
  obtain ⟨b, s'', hrun', hq⟩ := hf a s' hp
  refine ⟨b, s'', ?_, hq⟩
  change (m s >>= fun x => f x.1 x.2) = _
  rw [hrun]
  exact hrun'

theorem imp {m : Lowering α} {P Q : α → Supply → Prop} (hm : Gives m s P)
    (h : ∀ a s', P a s' → Q a s') : Gives m s Q := by
  obtain ⟨a, s', hrun, hp⟩ := hm
  exact ⟨a, s', hrun, h a s' hp⟩

theorem map {m : Lowering α} {f : α → β} {P : α → Supply → Prop} {Q : β → Supply → Prop}
    (hm : Gives m s P) (h : ∀ a s', P a s' → Q (f a) s') : Gives (f <$> m) s Q := by
  obtain ⟨a, s', hrun, hp⟩ := hm
  refine ⟨f a, s', ?_, h a s' hp⟩
  change (m s >>= fun x => Pure.pure (f x.1, x.2)) = _
  rw [hrun]
  rfl

/-- What is asked of the registry does not use the supply. -/
theorem lift {m : Except Defect α} {a : α} (hm : m = .ok a) :
    Gives (liftM m : Lowering α) s fun b s' => a = b ∧ s = s' := by
  subst hm
  exact ⟨a, s, rfl, rfl, rfl⟩

theorem newTemporary (t : TypeId) :
    Gives (Lowering.newTemporary t) s fun sym s' =>
      sym = temporary (s.temporaries + 1) t ∧ s' = s.nextTemporary :=
  ⟨_, _, rfl, rfl, rfl⟩

theorem freshLabel : Gives Lowering.freshLabel s fun l s' =>
    l = s.labels + 1 ∧ s' = s.nextLabels 1 :=
  ⟨_, _, rfl, rfl, rfl⟩

theorem hoist (e : Expr) : Gives (Lowering.hoist e) s fun out s' =>
    Hoists [e] s out.before [out.expr] s' := by
  unfold Lowering.hoist
  split
  · rename_i hstable
    exact pure (.stable hstable .nil)
  · rename_i hstable
    refine bind (newTemporary e.type) ?_
    rintro _ _ ⟨rfl, rfl⟩
    have hstore : isStable e = false := by simpa using hstable
    refine pure ?_
    simpa using Hoists.store hstore (.nil (s := s.nextTemporary))

end Gives

theorem Hoists.cons {e : Expr} {es : List Expr} {s s₁ s' : Supply} {first : Lowered}
    {before : List Stmt} {kept : List Expr} (h : Hoists [e] s first.before [first.expr] s₁)
    (hrest : Hoists es s₁ before kept s') :
    Hoists (e :: es) s (first.before ++ before) (first.expr :: kept) s' := by
  obtain ⟨b, x⟩ := first
  dsimp only at h ⊢
  cases h with
  | stable hstable hnil =>
    cases hnil
    exact .stable hstable hrest
  | store hstable hnil =>
    cases hnil
    simpa using Hoists.store hstable hrest

theorem Gives.hoistAll (es : List Expr) {s : Supply} : Gives (Lowering.hoistAll es) s
    fun out s' => Hoists es s out.1 out.2 s' := by
  induction es generalizing s with
  | nil => exact Gives.pure .nil
  | cons e es ih =>
    refine Gives.bind (Gives.hoist e) fun first s₁ hfirst => ?_
    exact Gives.bind ih fun rest s₂ hrest => Gives.pure (hfirst.cons hrest)

theorem Gives.nextOperand (before : List Stmt) (done : List Expr) (next : Lowered) {s : Supply} :
    Gives (Lowering.nextOperand before done next) s
      fun out s' => Joins before done next s out.1 out.2 s' := by
  unfold Lowering.nextOperand
  split
  · rename_i hempty
    exact Gives.pure (.plain (List.isEmpty_iff.mp hempty))
  · rename_i hempty
    refine Gives.bind (Gives.hoistAll done) fun kept s' hkept => Gives.pure ?_
    exact .keep (fun hnil => hempty (List.isEmpty_iff.mpr hnil)) hkept

theorem Gives.spill (e : Expr) {s : Supply} :
    Gives (Lowering.spill e) s fun out s' => Spills e s out s' := by
  unfold Lowering.spill
  split
  · exact Gives.pure .symbol
  · exact Gives.pure .literal
  · rename_i hsym hlit
    refine Gives.bind (Gives.newTemporary e.type) ?_
    rintro _ _ ⟨rfl, rfl⟩
    exact Gives.pure (.store hsym hlit)

section

variable {r : Registry} {s : Supply}

theorem Gives.convert {e : Expr} {target : TypeId}
    (h : r.Adapts e.type target) :
    Gives (Lowering.convert r e target) s fun out s' => Converts r e target out ∧ s' = s := by
  unfold Lowering.convert
  split
  · rename_i hsame
    exact Gives.pure ⟨.same (.inl hsame), rfl⟩
  · rename_i hne
    obtain hsame | ⟨k, hk, -⟩ := h
    · exact absurd hsame hne
    · refine Gives.bind (Gives.lift hk) ?_
      rintro _ _ ⟨rfl, rfl⟩
      split
      · exact Gives.pure ⟨.same (.inr hk), rfl⟩
      · rename_i hkind
        exact Gives.pure ⟨.convert hne hk hkind, rfl⟩

/-- The operand of a compound assignment is of the type of the place. -/
theorem Gives.combined {operator param result : TypeId} {old value : Expr} {t : TypeId}
    (hc : r.Combines operator ⟨result, [param, t]⟩) (hold : r.Adapts old.type param)
    (hresult : r.Adapts result old.type) :
    Gives (Lowering.combined r operator old value) s
      fun out s' => Merges r operator old value out ∧ s' = s := by
  obtain ⟨info, hinfo, hres, hpar⟩ := hc.callable
  have hhead : info.params.headD old.type = param := by rw [hpar]; rfl
  refine Gives.bind (Gives.lift hinfo) ?_
  rintro _ _ ⟨rfl, rfl⟩
  refine Gives.bind (Gives.convert (hhead ▸ hold)) ?_
  rintro left _ ⟨hleft, rfl⟩
  refine (Gives.convert ?_).imp ?_
  · split
    · exact hres ▸ hresult
    · exact hres ▸ hresult
  · rintro out _ ⟨hout, rfl⟩
    exact ⟨⟨info, left, hinfo, hleft, hout⟩, rfl⟩

theorem Gives.shortCircuit {span : Span} {operator t : TypeId} {left right : Bound.Expr}
    {info : Callable} {op : BinaryOperator} (hinfo : r.callable operator = .ok info)
    (hop : info.op? = some (.binary op)) (hshort : op.isShortCircuit)
    (hleft : ∀ s, Gives (lowerExpr r left) s (Lowers r left s))
    (hright : ∀ s, Gives (lowerExpr r right) s (Lowers r right s)) :
    Gives (Lowering.shortCircuit op (lowerExpr r left) (lowerExpr r right)) s
      (Lowers r (.binary span operator left right t) s) := by
  refine Gives.bind (Gives.newTemporary _) ?_
  rintro _ _ ⟨rfl, rfl⟩
  refine Gives.bind (hleft _) fun a s₁ ha => Gives.bind Gives.freshLabel ?_
  rintro _ _ ⟨rfl, rfl⟩
  refine Gives.bind (hright _) fun b s' hb => Gives.pure ?_
  exact .shortCircuit hinfo hop hshort ha hb

/-- The first operand joins an empty list. -/
theorem Joins.first (next : Lowered) (s : Supply) : Joins [] [] next s next.before [next.expr] s := by
  by_cases h : next.before = []
  · have hplain : Joins [] [] next s [] ([] ++ [next.expr]) s := .plain h
    simpa only [h, List.nil_append] using hplain
  · have hkeep : Joins [] [] next s ([] ++ [] ++ next.before) ([] ++ [next.expr]) s := .keep h .nil
    simpa only [List.nil_append] using hkeep

theorem Gives.pair {first second : Bound.Expr} {make : Expr → Expr → Expr}
    (hfirst : ∀ s, Gives (lowerExpr r first) s (Lowers r first s))
    (hsecond : ∀ s, Gives (lowerExpr r second) s (Lowers r second s)) :
    Gives (Lowering.pair (lowerExpr r first) (lowerExpr r second) make) s
      fun out s' => ∃ a b, LowersAll r [] [] [first, second] s out.before [a, b] s' ∧
        out.expr = make a b := by
  refine Gives.bind (hfirst s) fun a s₁ ha => Gives.bind (hsecond s₁) fun b s₂ hb => ?_
  split
  · rename_i hempty
    refine Gives.pure ⟨a.expr, b.expr, ?_, rfl⟩
    exact .cons ha (.first a s₁) (.cons hb (.plain (List.isEmpty_iff.mp hempty)) .nil)
  · rename_i hempty
    refine Gives.bind (Gives.hoist a.expr) fun kept s₃ hkept => Gives.pure ?_
    refine ⟨kept.expr, b.expr, ?_, rfl⟩
    exact .cons ha (.first a s₁)
      (.cons hb (.keep (fun hnil => hempty (List.isEmpty_iff.mpr hnil)) hkept) .nil)

theorem Gives.triple {first second third : Bound.Expr}
    (hfirst : ∀ s, Gives (lowerExpr r first) s (Lowers r first s))
    (hsecond : ∀ s, Gives (lowerExpr r second) s (Lowers r second s))
    (hthird : ∀ s, Gives (lowerExpr r third) s (Lowers r third s)) :
    Gives (Lowering.triple (lowerExpr r first) (lowerExpr r second) (lowerExpr r third)) s
      fun out s' => LowersAll r [] [] [first, second, third] s out.1
        [out.2.1, out.2.2.1, out.2.2.2] s' := by
  refine Gives.bind (hfirst s) fun a s₁ ha => Gives.bind (hsecond s₁) fun b s₂ hb => ?_
  have hlast : ∀ {before : List Stmt} {x y : Expr} {s₃ : Supply},
      Joins a.before [a.expr] b s₂ before [x, y] s₃ →
      Gives (do
        let c ← lowerExpr r third
        if c.before.isEmpty then return (before, x, y, c.expr)
        else
          let x ← Lowering.hoist x
          let y ← Lowering.hoist y
          return (before ++ x.before ++ y.before ++ c.before, x.expr, y.expr, c.expr)) s₃
        fun out s' => LowersAll r [] [] [first, second, third] s out.1
          [out.2.1, out.2.2.1, out.2.2.2] s' := by
    intro before x y s₃ hjoin
    refine Gives.bind (hthird s₃) fun c s₄ hc => ?_
    split
    · rename_i hempty
      refine Gives.pure (.cons ha (.first a s₁) (.cons hb hjoin (.cons hc ?_ .nil)))
      exact .plain (List.isEmpty_iff.mp hempty)
    · rename_i hempty
      refine Gives.bind (Gives.hoist x) fun x' s₅ hx => ?_
      refine Gives.bind (Gives.hoist y) fun y' s₆ hy => ?_
      refine Gives.pure (.cons ha (.first a s₁) (.cons hb hjoin (.cons hc ?_ .nil)))
      have hkeep : Joins before [x, y] c s₄ (before ++ (x'.before ++ y'.before) ++ c.before)
          ([x'.expr, y'.expr] ++ [c.expr]) s₆ :=
        .keep (fun hnil => hempty (List.isEmpty_iff.mpr hnil)) (hx.cons hy)
      simpa using hkeep
  dsimp only
  split
  · rename_i hempty
    exact hlast (.plain (List.isEmpty_iff.mp hempty))
  · rename_i hempty
    refine Gives.bind (Gives.hoist a.expr) fun kept s₃ hkept => ?_
    exact hlast (.keep (fun hnil => hempty (List.isEmpty_iff.mpr hnil)) hkept)

end

section

variable {c : Typing}

mutual

/-- Flattening an expression that makes sense succeeds, also when there are mistakes in it. -/
theorem gives_lowerExpr : (e : Bound.Expr) → e.Typed c → (s : Supply) →
    Gives (lowerExpr c.registry e) s (Lowers c.registry e s)
  | .literal _ _ _, _, s => by
    simp only [lowerExpr]
    exact Gives.pure .literal
  | .symbol _ _, _, s => by
    simp only [lowerExpr]
    exact Gives.pure .symbol
  | .group _ _ _, h, _ | .typeName _ _, h, _ => h.elim
  | .assign _ target value, h, s => by
    simp only [Bound.Expr.Typed] at h
    obtain ⟨hplace, htarget, hvalue, -⟩ := h
    have ihv := gives_lowerExpr value hvalue
    cases target with
    | symbol span sym =>
      simp only [lowerExpr]
      exact Gives.bind (ihv s) fun v s' hv => Gives.pure (.assign hv)
    | index span array index t =>
      simp only [Bound.Expr.Typed] at htarget
      have iha := gives_lowerExpr array htarget.1
      have ihi := gives_lowerExpr index htarget.2.1
      simp only [lowerExpr]
      exact Gives.bind (Gives.triple iha ihi ihv) fun out s' hout => Gives.pure (.assignElement hout)
    | _ => exact hplace.elim
  | .compound _ target operator value, h, s => by
    simp only [Bound.Expr.Typed] at h
    obtain ⟨hplace, htarget, hvalue, param, result, hc, hold, hresult⟩ := h
    have ihv := gives_lowerExpr value hvalue
    cases target with
    | symbol span sym =>
      simp only [lowerExpr]
      refine Gives.bind (ihv s) fun v s' hv => Gives.bind (Gives.combined hc hold hresult) ?_
      rintro out _ ⟨hout, rfl⟩
      exact Gives.pure (.compound hv hout)
    | index span array index t =>
      simp only [Bound.Expr.Typed] at htarget
      have iha := gives_lowerExpr array htarget.1
      have ihi := gives_lowerExpr index htarget.2.1
      simp only [lowerExpr]
      refine Gives.bind (Gives.triple iha ihi ihv) fun out s₁ hout => ?_
      refine Gives.bind (Gives.spill _) fun a s₂ ha => Gives.bind (Gives.spill _) fun i s₃ hi => ?_
      refine Gives.bind (Gives.combined hc hold hresult) ?_
      rintro merged _ ⟨hmerged, rfl⟩
      exact Gives.pure (.compoundElement hout ha hi hmerged)
    | _ => exact hplace.elim
  | .binary _ operator left right t, h, s => by
    simp only [Bound.Expr.Typed] at h
    obtain ⟨hleft, hright, op, ⟨g, hg⟩, -⟩ := h
    have ihl := gives_lowerExpr left hleft
    have ihr := gives_lowerExpr right hright
    simp only [lowerExpr]
    refine Gives.bind (Gives.lift hg) ?_
    rintro _ _ ⟨rfl, rfl⟩
    dsimp only
    split
    · rename_i hop
      exact Gives.shortCircuit hg hop rfl ihl ihr
    · rename_i hop
      exact Gives.shortCircuit hg hop rfl ihl ihr
    · rename_i hand hor
      refine (Gives.pair ihl ihr).imp ?_
      rintro ⟨before, e⟩ s' ⟨a, b, hab, rfl⟩
      refine .binary hg ?_ hab
      rintro op' ⟨⟩
      cases op <;> first | rfl | exact (hand rfl).elim | exact (hor rfl).elim
  | .unary _ operator operand t, h, s => by
    simp only [Bound.Expr.Typed] at h
    obtain ⟨hoperand, op, ⟨g, hg⟩, -⟩ := h
    simp only [lowerExpr]
    refine Gives.bind (Gives.lift hg) ?_
    rintro _ _ ⟨rfl, rfl⟩
    refine Gives.bind (gives_lowerExpr operand hoperand _) fun v s' hv => ?_
    exact Gives.pure (.unary hg hv)
  | .call _ callable args t, h, s => by
    simp only [Bound.Expr.Typed] at h
    simp only [lowerExpr]
    refine Gives.bind (gives_lowerOperands args h.1 [] [] s) fun out s' hout => ?_
    exact Gives.pure (.call hout)
  | .convert _ kind operand t _, h, s => by
    simp only [Bound.Expr.Typed] at h
    simp only [lowerExpr]
    refine Gives.bind (gives_lowerExpr operand h.1 s) fun v s' hv => ?_
    split
    · rename_i hkind
      subst hkind
      exact Gives.pure (.keep hv)
    · rename_i hkind
      exact Gives.pure (.convert hkind hv)
  | .index _ target index t, h, s => by
    simp only [Bound.Expr.Typed] at h
    simp only [lowerExpr]
    refine (Gives.pair (gives_lowerExpr target h.1) (gives_lowerExpr index h.2.1)).imp ?_
    rintro ⟨before, e⟩ s' ⟨a, i, hai, rfl⟩
    exact .index hai
  | .length _ target, h, s => by
    simp only [Bound.Expr.Typed] at h
    simp only [lowerExpr]
    exact Gives.bind (gives_lowerExpr target h.1 s) fun v s' hv => Gives.pure (.length hv)
  | .newArray _ element size t, h, s => by
    simp only [Bound.Expr.Typed] at h
    simp only [lowerExpr]
    exact Gives.bind (gives_lowerExpr size h.1 s) fun v s' hv => Gives.pure (.newArray hv)
  | .invalid _ _, _, s => by
    simp only [lowerExpr]
    exact Gives.pure .invalid

theorem gives_lowerOperands : (es : List Bound.Expr) → Bound.typedAll c es →
    (before : List Stmt) → (done : List Expr) → (s : Supply) →
    Gives (lowerOperands c.registry before done es) s
      fun out s' => LowersAll c.registry before done es s out.1 out.2 s'
  | [], _, before, done, s => by
    simp only [lowerOperands]
    exact Gives.pure .nil
  | e :: rest, h, before, done, s => by
    simp only [Bound.typedAll] at h
    simp only [lowerOperands]
    refine Gives.bind (gives_lowerExpr e h.1 s) fun next s₁ hnext => ?_
    refine Gives.bind (Gives.nextOperand before done next) fun joined s₂ hjoined => ?_
    refine (gives_lowerOperands rest h.2 joined.1 joined.2 s₂).imp fun out s' hout => ?_
    exact .cons hnext hjoined hout

end

/-- A bare name has no value; flattening it gives an invalid expression. -/
theorem gives_lowerExpr_name {e : Bound.Expr} (h : e.isName) (s : Supply) :
    Gives (lowerExpr c.registry e) s (Lowers c.registry e s) := by
  cases e with
  | group span name g =>
    simp only [lowerExpr]
    exact Gives.pure .group
  | typeName span t =>
    simp only [lowerExpr]
    exact Gives.pure .typeName
  | _ => cases h

theorem gives_lowerDeclaration {d : Bound.Declaration} (h : d.Typed c) (s : Supply) :
    Gives (lowerDeclaration c.registry d) s (LowersDeclaration c.registry d s) := by
  unfold lowerDeclaration
  split
  · rename_i e hinit
    refine Gives.bind (gives_lowerExpr e (h.init e hinit).1 s) fun v s' hv => ?_
    exact Gives.pure (.init hinit hv)
  · rename_i hinit
    split
    · rename_i herror
      exact Gives.pure (.unset hinit herror)
    · rename_i herror
      exact Gives.pure (.zero hinit herror)

theorem gives_jumpUnless {cond : Bound.Expr} {target : Lowering Label} {s : Supply}
    {P : Label → Supply → Supply → Prop} (h : cond.Typed c) (ht : ∀ s, Gives target s (P · s)) :
    Gives (jumpUnless c.registry cond target) s fun out s' => ∃ v l s₁,
      Lowers c.registry cond s v s₁ ∧ P l s₁ s' ∧
        out = (v.before ++ [Stmt.jumpIf (negate v.expr) l], l) := by
  refine Gives.bind (gives_lowerExpr cond h s) fun v s₁ hv => ?_
  exact Gives.bind (ht s₁) fun l s' hl => Gives.pure ⟨v, l, s₁, hv, hl, rfl⟩

theorem gives_lowerSetup {setup : Option Bound.Setup} (h : ∀ x, setup = some x → x.Typed c)
    (s : Supply) :
    Gives (lowerSetup c.registry setup) s (LowersSetup c.registry setup s) := by
  unfold lowerSetup
  split
  · exact (gives_lowerDeclaration (h _ rfl) s).imp fun out s' hout => .declare hout
  · rename_i e
    exact Gives.bind (gives_lowerExpr e.expr (h _ rfl) s) fun v s' hv => Gives.pure (.eval hv)
  · exact Gives.pure .none

theorem gives_lowerTest {cond : Option Bound.Expr} {done : Label}
    (h : ∀ e, cond = some e → e.IsCondition c) (s : Supply) :
    Gives (lowerTest c.registry done cond) s (LowersTest c.registry done cond s) := by
  unfold lowerTest
  split
  · rename_i e
    have hdone : ∀ s, Gives (pure done : Lowering Label) s fun l s' => l = done ∧ s' = s :=
      fun s => Gives.pure ⟨rfl, rfl⟩
    refine Gives.map (gives_jumpUnless (h e rfl).1 hdone) ?_
    rintro _ s' ⟨v, l, s₁, hv, ⟨rfl, rfl⟩, rfl⟩
    exact .some hv
  · exact Gives.pure .none

theorem gives_lowerPost {post : Option Bound.Expr}
    (h : ∀ e, post = some e → e.Typed c ∨ e.isName) (s : Supply) :
    Gives (lowerPost c.registry post) s (LowersPost c.registry post s) := by
  unfold lowerPost
  split
  · rename_i e
    have hgives : Gives (lowerExpr c.registry e) s (Lowers c.registry e s) := by
      obtain ht | hn := h e rfl
      · exact gives_lowerExpr e ht s
      · exact gives_lowerExpr_name hn s
    exact Gives.bind hgives fun v s' hv => Gives.pure (.some hv)
  · exact Gives.pure .none

mutual

/-- Flattening a statement that makes sense succeeds: a jump stands in a loop, whose labels are
known. -/
theorem gives_lowerStmt {result : TypeId} {looping : Bool} {loop? : Option LoopLabels}
    (hl : looping → loop?.isSome) : (stmt : Bound.Stmt) → stmt.Typed c result looping →
    (s : Supply) → Gives (lowerStmt c.registry loop? stmt) s (LowersStmt c.registry loop? stmt s)
  | .block _ body, h, s => by
    simp only [Bound.Stmt.Typed] at h
    simp only [lowerStmt]
    exact (gives_lowerStmts hl body h s).imp fun out s' hout => .block hout
  | .declare d, h, s => by
    simp only [Bound.Stmt.Typed] at h
    simp only [lowerStmt]
    exact (gives_lowerDeclaration h s).imp fun out s' hout => .declare hout
  | .eval e, h, s => by
    simp only [Bound.Stmt.Typed] at h
    simp only [lowerStmt]
    exact Gives.bind (gives_lowerExpr e.expr h s) fun v s' hv => Gives.pure (.eval hv)
  | .ifThen _ cond yes, h, s => by
    simp only [Bound.Stmt.Typed] at h
    simp only [lowerStmt]
    refine Gives.bind (gives_jumpUnless h.1.1 fun _ => Gives.freshLabel) ?_
    rintro _ s₂ ⟨v, _, s₁, hv, ⟨rfl, rfl⟩, rfl⟩
    exact Gives.bind (gives_lowerStmt hl yes h.2 _) fun out s' hout => Gives.pure (.ifThen hv hout)
  | .ifElse _ cond yes no, h, s => by
    simp only [Bound.Stmt.Typed] at h
    simp only [lowerStmt]
    refine Gives.bind (gives_lowerExpr cond h.1.1 s) fun v s₁ hv => Gives.bind Gives.freshLabel ?_
    rintro _ _ ⟨rfl, rfl⟩
    refine Gives.bind Gives.freshLabel ?_
    rintro _ _ ⟨rfl, rfl⟩
    refine Gives.bind (gives_lowerStmt hl yes h.2.1 _) fun out s₂ hyes => ?_
    refine Gives.bind (gives_lowerStmt hl no h.2.2 _) fun out' s' hno => ?_
    exact Gives.pure (.ifElse hv hyes hno)
  | .whileLoop _ cond body, h, s => by
    simp only [Bound.Stmt.Typed] at h
    simp only [lowerStmt]
    refine Gives.bind Gives.freshLabel ?_
    rintro _ _ ⟨rfl, rfl⟩
    refine Gives.bind Gives.freshLabel ?_
    rintro _ _ ⟨rfl, rfl⟩
    have hdone : ∀ s', Gives (pure (s.labels + 2) : Lowering Label) s'
        fun l s'' => l = s.labels + 2 ∧ s'' = s' := fun s' => Gives.pure ⟨rfl, rfl⟩
    refine Gives.bind (gives_jumpUnless h.1.1 hdone) ?_
    rintro _ s₁ ⟨v, _, _, hv, ⟨rfl, rfl⟩, rfl⟩
    refine Gives.bind (gives_lowerStmt (fun _ => rfl) body h.2 _) fun out s' hout => ?_
    exact Gives.pure (.whileLoop hv hout)
  | .forLoop _ setup cond post body, h, s => by
    simp only [Bound.Stmt.Typed] at h
    obtain ⟨hsetup, hcond, hpost, hbody⟩ := h
    simp only [lowerStmt]
    refine Gives.bind (gives_lowerSetup hsetup s) fun first s₁ hfirst => ?_
    refine Gives.bind Gives.freshLabel ?_
    rintro _ _ ⟨rfl, rfl⟩
    refine Gives.bind Gives.freshLabel ?_
    rintro _ _ ⟨rfl, rfl⟩
    refine Gives.bind Gives.freshLabel ?_
    rintro _ _ ⟨rfl, rfl⟩
    refine Gives.bind (gives_lowerTest hcond _) fun test s₂ htest => ?_
    refine Gives.bind (gives_lowerStmt (fun _ => rfl) body hbody _) fun out s₃ hout => ?_
    refine Gives.bind (gives_lowerPost hpost _) fun last s' hlast => ?_
    exact Gives.pure (.forLoop hfirst htest hout hlast)
  | .breakLoop _, h, s => by
    obtain ⟨l, rfl⟩ := Option.isSome_iff_exists.mp (hl h)
    exact Gives.pure .breakLoop
  | .continueLoop _, h, s => by
    obtain ⟨l, rfl⟩ := Option.isSome_iff_exists.mp (hl h)
    exact Gives.pure .continueLoop
  | .returnStmt _ none, h, s => by
    simp only [lowerStmt]
    exact Gives.pure .returnNone
  | .returnStmt _ (some e), h, s => by
    simp only [Bound.Stmt.Typed] at h
    simp only [lowerStmt]
    exact Gives.bind (gives_lowerExpr e h.1 s) fun v s' hv => Gives.pure (.returnSome hv)

theorem gives_lowerStmts {result : TypeId} {looping : Bool} {loop? : Option LoopLabels}
    (hl : looping → loop?.isSome) : (stmts : List Bound.Stmt) →
    Bound.typedStmts c result looping stmts → (s : Supply) →
    Gives (lowerStmts c.registry loop? stmts) s (LowersStmts c.registry loop? stmts s)
  | [], _, s => by
    simp only [lowerStmts]
    exact Gives.pure .nil
  | stmt :: rest, h, s => by
    simp only [Bound.typedStmts] at h
    simp only [lowerStmts]
    refine Gives.bind (gives_lowerStmt hl stmt h.1 s) fun out s₁ hout => ?_
    refine Gives.bind (gives_lowerStmts hl rest h.2 s₁) fun out' s' hrest => ?_
    exact Gives.pure (.cons hout hrest)

end

end

end Flat
end TypedScript
