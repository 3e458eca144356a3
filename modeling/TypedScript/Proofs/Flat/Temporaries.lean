import Mathlib.Data.List.Induction
import TypedScript.Proofs.Binding.Routine
import TypedScript.Proofs.Flat.Symbols
import TypedScript.Proofs.Parsed.Reading

/-!
# The temporaries of flat programs

A temporary is taken from the supply where it is declared, and only statements behind that declaration
mention it, also where operands are stored ahead of statements that were made before. Operators that
skip an operand do not survive. With the labels this is all that the later stages ask of the form of a
routine, and every bound program has such a flat form, with or without mistakes in it.
-/

namespace TypedScript
namespace Flat

def Stmt.expr? : Stmt → Option Expr
  | .eval e | .jumpIf e _ => some e
  | .returnStmt value => value
  | .declare _ | .jump _ | .label _ => none

def Stmt.temporary? : Stmt → Option Nat
  | .declare ⟨.temporary n, _, _, _, _⟩ => some n
  | _ => none

def temporariesOf (ss : List Stmt) : List Nat := ss.filterMap Stmt.temporary?

mutual

def Expr.Strict : Expr → Prop
  | .assign _ value => value.Strict
  | .assignElement array index _ value => array.Strict ∧ index.Strict ∧ value.Strict
  | .binary op _ left right _ =>
    (∀ o, op = some (.binary o) → o.isShortCircuit = false) ∧ left.Strict ∧ right.Strict
  | .unary _ operand _ | .convert _ operand _ => operand.Strict
  | .call _ args _ => strictAll args
  | .index target index _ => target.Strict ∧ index.Strict
  | .length target => target.Strict
  | .newArray _ size _ => size.Strict
  | .literal _ _ | .symbol _ | .invalid => True

def strictAll : List Expr → Prop
  | [] => True
  | e :: rest => e.Strict ∧ strictAll rest

end

/-- What every flat routine is like: each label is defined once and each jump goes to a label of the
routine, the last statement is a return, no operator skips an operand, a temporary is declared in front
of the statements that mention it, and no two temporaries have the same number. -/
structure Routine.WellFormed (f : Routine) : Prop where
  labels : Resolvable f.body
  ends : f.body.getLast?.any Stmt.isReturn
  strict : ∀ s ∈ f.body, ∀ e, s.expr? = some e → e.Strict
  declared : ∀ a s b, f.body = a ++ s :: b → ∀ e, s.expr? = some e → ∀ x ∈ e.symbols,
    ∀ n, x.id = .temporary n → .declare x ∈ a
  distinct : (temporariesOf f.body).Nodup

/-- An expression can be evaluated behind some statements: its temporaries are declared there. -/
structure Expr.Ready (before : List Stmt) (e : Expr) : Prop where
  strict : e.Strict
  declared : ∀ x ∈ e.symbols, ∀ n, x.id = .temporary n → .declare x ∈ before

def Closed (ss : List Stmt) : Prop :=
  ∀ a s b, ss = a ++ s :: b → ∀ e, s.expr? = some e → e.Ready a

/-- Numbers that were taken from the supply between two states of it, each of them once. -/
structure Numbered (lo hi : Nat) (ns : List Nat) : Prop where
  le : lo ≤ hi
  range : ∀ n ∈ ns, lo < n ∧ n ≤ hi
  nodup : ns.Nodup

section

variable {lo mid hi : Nat} {ns ms : List Nat}

theorem Numbered.nil (n : Nat) : Numbered n n [] := ⟨Nat.le_refl n, by simp, by simp⟩

theorem Numbered.append (h : Numbered lo mid ns) (h' : Numbered mid hi ms) :
    Numbered lo hi (ns ++ ms) := by
  obtain ⟨hle, hrange, hnodup⟩ := h
  obtain ⟨hle', hrange', hnodup'⟩ := h'
  refine ⟨Nat.le_trans hle hle', by grind, ?_⟩
  rw [List.nodup_append]
  grind

/-- In which order the numbers stand does not matter. -/
theorem Numbered.perm (h : Numbered lo hi ns) (hp : ns.Perm ms) : Numbered lo hi ms :=
  ⟨h.le, fun n hn => h.range n (hp.mem_iff.mpr hn), hp.nodup_iff.mp h.nodup⟩

end

@[simp] theorem temporariesOf_nil : temporariesOf [] = [] := rfl

@[simp] theorem temporariesOf_append (a b : List Stmt) :
    temporariesOf (a ++ b) = temporariesOf a ++ temporariesOf b :=
  List.filterMap_append

theorem temporariesOf_cons (s : Stmt) (ss : List Stmt) :
    temporariesOf (s :: ss) = s.temporary?.toList ++ temporariesOf ss := by
  rw [temporariesOf, List.filterMap_cons]
  cases s.temporary? <;> rfl

theorem temporary?_of_isDeclared {s : Symbol} (h : s.IsDeclared) :
    (Stmt.declare s).temporary? = none := by
  obtain ⟨n, hn⟩ := h
  obtain ⟨id, name, kind, type, readonly⟩ := s
  cases hn
  rfl

section

variable {a b : List Stmt} {e : Expr}

theorem Expr.Ready.mono (h : e.Ready a) (hsub : ∀ s ∈ a, s ∈ b) : e.Ready b :=
  ⟨h.strict, fun x hx n hn => hsub _ (h.declared x hx n hn)⟩

theorem Expr.Ready.append (h : e.Ready a) (b : List Stmt) : e.Ready (a ++ b) :=
  h.mono fun _ hs => List.mem_append_left b hs

theorem Closed.nil : Closed [] := by
  intro a s b h
  simp at h

/-- One more statement is executed behind the others. -/
theorem Closed.snoc (h : Closed a) {s : Stmt} (hs : ∀ e, s.expr? = some e → e.Ready a) :
    Closed (a ++ [s]) := by
  intro c t d heq e he
  rcases List.eq_nil_or_concat d with rfl | ⟨d', last, rfl⟩
  · obtain ⟨rfl, hst⟩ := List.append_inj' heq rfl
    obtain rfl : s = t := by simpa using hst
    exact hs e he
  · rw [List.concat_eq_append, ← List.cons_append, ← List.append_assoc] at heq
    exact h c t d' (List.append_inj' heq rfl).1 e he

theorem Closed.append (ha : Closed a) (hb : Closed b) : Closed (a ++ b) := by
  induction b using List.reverseRecOn with
  | nil => simpa using ha
  | append_singleton b s ih =>
    have hfront : Closed b := by
      intro c t d heq e he
      exact hb c t (d ++ [s]) (by simp [heq]) e he
    rw [← List.append_assoc]
    refine (ih hfront).snoc fun e he => ?_
    exact (hb b s [] rfl e he).mono fun t ht => List.mem_append_right a ht

end

/-- What flattening an expression gives: statements that declare what they use, and an expression that
can be evaluated behind them. -/
structure Lowered.Tidy (lo hi : Nat) (out : Lowered) : Prop where
  numbered : Numbered lo hi (temporariesOf out.before)
  closed : Closed out.before
  ready : out.expr.Ready out.before

structure Tidy (lo hi : Nat) (ss : List Stmt) : Prop where
  numbered : Numbered lo hi (temporariesOf ss)
  closed : Closed ss

section

variable {lo mid hi : Nat} {a b : List Stmt}

theorem Tidy.nil (n : Nat) : Tidy n n [] := ⟨.nil n, .nil⟩

theorem Tidy.append (ha : Tidy lo mid a) (hb : Tidy mid hi b) : Tidy lo hi (a ++ b) :=
  ⟨by simpa using ha.numbered.append hb.numbered, ha.closed.append hb.closed⟩

theorem Tidy.snoc (h : Tidy lo hi a) {s : Stmt} (ht : s.temporary? = none)
    (hs : ∀ e, s.expr? = some e → e.Ready a) : Tidy lo hi (a ++ [s]) :=
  ⟨by simpa [temporariesOf_cons, ht] using h.numbered, h.closed.snoc hs⟩

/-- A statement that evaluates nothing. -/
theorem Tidy.single (n : Nat) {s : Stmt} (ht : s.temporary? = none) (he : s.expr? = none) :
    Tidy n n [s] := by
  have hs : Tidy n n ([] ++ [s]) := (Tidy.nil n).snoc ht fun e h => by
    rw [he] at h
    cases h
  exact hs

theorem Lowered.Tidy.statements {out : Lowered} (h : out.Tidy lo hi) : Flat.Tidy lo hi out.before :=
  ⟨h.numbered, h.closed⟩

/-- Behind the statements the expression is evaluated for its value. -/
theorem Lowered.Tidy.eval {out : Lowered} (h : out.Tidy lo hi) {s : Stmt} (ht : s.temporary? = none)
    (hs : ∀ e, s.expr? = some e → out.expr.Ready out.before → e.Ready out.before) :
    Flat.Tidy lo hi (out.before ++ [s]) :=
  h.statements.snoc ht fun e he => hs e he h.ready

end

theorem strictAll_iff {es : List Expr} : strictAll es ↔ ∀ e ∈ es, e.Strict := by
  induction es with
  | nil => simp [strictAll]
  | cons e rest ih => simp [strictAll, ih]

theorem mem_symbolsAll {x : Symbol} {es : List Expr} :
    x ∈ symbolsAll es ↔ ∃ e ∈ es, x ∈ e.symbols := by
  induction es with
  | nil => simp [symbolsAll]
  | cons e rest ih => simp [symbolsAll, ih]

section

variable {before : List Stmt}

theorem Expr.Ready.of_symbols {e f : Expr} (h : e.Ready before) (hf : f.Strict)
    (hsymbols : ∀ x ∈ f.symbols, x ∈ e.symbols ∨ x.IsDeclared) : f.Ready before := by
  refine ⟨hf, fun x hx n hn => ?_⟩
  rcases hsymbols x hx with hx | ⟨m, hm⟩
  · exact h.declared x hx n hn
  · rw [hm] at hn
    cases hn

/-- An expression is ready if its parts are. -/
theorem Expr.Ready.of_parts {es : List Expr} {f : Expr} (h : ∀ e ∈ es, e.Ready before)
    (hf : strictAll es → f.Strict) (hsymbols : ∀ x ∈ f.symbols, x ∈ symbolsAll es) :
    f.Ready before := by
  refine ⟨hf (strictAll_iff.mpr fun e he => (h e he).strict), fun x hx n hn => ?_⟩
  obtain ⟨e, he, hx⟩ := mem_symbolsAll.mp (hsymbols x hx)
  exact (h e he).declared x hx n hn

theorem Expr.ready_symbol {s : Symbol} (h : s.IsDeclared ∨ .declare s ∈ before) :
    (Expr.symbol s).Ready before := by
  refine ⟨trivial, fun x hx n hn => ?_⟩
  obtain rfl : x = s := by simpa [Expr.symbols] using hx
  rcases h with ⟨m, hm⟩ | h
  · rw [hm] at hn
    cases hn
  · exact h

theorem Expr.ready_literal {v : Option Literal} {t : TypeId} : (Expr.literal v t).Ready before :=
  ⟨trivial, by simp [Expr.symbols]⟩

theorem Expr.ready_invalid : Expr.invalid.Ready before := ⟨trivial, by simp [Expr.symbols]⟩

theorem Expr.Ready.negate {e : Expr} (h : e.Ready before) : (Lowering.negate e).Ready before := by
  refine h.of_symbols ?_ fun x hx => .inl (by rwa [symbols_negate] at hx)
  have hstrict := h.strict
  unfold Lowering.negate
  split
  · simpa [Expr.Strict] using hstrict
  · trivial
  · simpa [Expr.Strict] using hstrict

theorem Expr.Ready.assign {e : Expr} (h : e.Ready before) {s : Symbol}
    (hs : s.IsDeclared ∨ .declare s ∈ before) : (Expr.assign s e).Ready before := by
  refine ⟨h.strict, fun x hx n hn => ?_⟩
  rcases List.mem_cons.mp hx with rfl | hx
  · exact (Expr.ready_symbol hs).declared x (by simp [Expr.symbols]) n hn
  · exact h.declared x hx n hn

end

theorem ready_of_expr? {s : Stmt} {e : Expr} {before : List Stmt} (hs : s.expr? = some e)
    (h : e.Ready before) : ∀ f, s.expr? = some f → f.Ready before := by
  intro f hf
  rw [hs] at hf
  cases hf
  exact h

theorem temporariesOf_store (n : Nat) (t : TypeId) (e : Expr) :
    temporariesOf (Lowering.store (temporary n t) e) = [n] := rfl

/-- An expression that is ready can be stored in a new temporary. -/
theorem Closed.store {before : List Stmt} (h : Closed before) {e : Expr} (he : e.Ready before) (n : Nat)
    (t : TypeId) : Closed (before ++ Lowering.store (temporary n t) e) := by
  have hdeclare : Closed (before ++ [Stmt.declare (temporary n t)]) := h.snoc fun f hf => by cases hf
  have hstore := hdeclare.snoc (s := .eval (.assign (temporary n t) e))
    (ready_of_expr? rfl ((he.append _).assign (.inr (by simp))))
  simpa [Lowering.store] using hstore

theorem Hoists.numbered {es kept : List Expr} {s s' : Supply} {before : List Stmt}
    (h : Hoists es s before kept s') :
    Numbered s.temporaries s'.temporaries (temporariesOf before) := by
  induction h with
  | nil => exact .nil _
  | stable _ _ ih => exact ih
  | @store e es s s' before kept _ _ ih =>
    rw [temporariesOf_append, temporariesOf_store]
    have hfirst : Numbered s.temporaries (s.temporaries + 1) [s.temporaries + 1] :=
      ⟨Nat.le_succ _, by simp, by simp⟩
    exact hfirst.append ih

/-- Kept expressions are stored one after the other, behind the statements that they need. -/
theorem Hoists.closed {es kept : List Expr} {s s' : Supply} {before : List Stmt}
    (h : Hoists es s before kept s') {first : List Stmt} (hfirst : Closed first)
    (hes : ∀ e ∈ es, e.Ready first) :
    Closed (first ++ before) ∧ ∀ e ∈ kept, e.Ready (first ++ before) := by
  induction h generalizing first with
  | nil => exact ⟨by simpa using hfirst, by simp⟩
  | stable _ _ ih =>
    rw [List.forall_mem_cons] at hes
    obtain ⟨hclosed, hkept⟩ := ih hfirst hes.2
    exact ⟨hclosed, List.forall_mem_cons.mpr ⟨hes.1.append _, hkept⟩⟩
  | @store e es s s' before kept _ _ ih =>
    rw [List.forall_mem_cons] at hes
    obtain ⟨hclosed, hkept⟩ := ih (hfirst.store hes.1 (s.temporaries + 1) e.type)
      fun f hf => (hes.2 f hf).append _
    rw [List.append_assoc] at hclosed hkept
    refine ⟨hclosed, List.forall_mem_cons.mpr ⟨Expr.ready_symbol (.inr ?_), hkept⟩⟩
    simp [Lowering.store]

theorem Spills.tidy {e : Expr} {s s' : Supply} {out : Lowered} (h : Spills e s out s')
    {first : List Stmt} {lo : Nat} (hfirst : Tidy lo s.temporaries first) (he : e.Ready first) :
    Tidy lo s'.temporaries (first ++ out.before) ∧ out.expr.Ready (first ++ out.before) := by
  cases h with
  | symbol | literal => exact ⟨by simpa using hfirst, by simpa using he⟩
  | store =>
    refine ⟨⟨?_, hfirst.closed.store he _ _⟩, Expr.ready_symbol (.inr (by simp [Lowering.store]))⟩
    rw [temporariesOf_append, temporariesOf_store]
    refine hfirst.numbered.append ⟨Nat.le_succ _, ?_, by simp⟩
    simp

theorem Joins.tidy {before before' : List Stmt} {done done' : List Expr} {next : Lowered}
    {s s₁ s' : Supply} (h : Joins before done next s₁ before' done' s') {lo : Nat}
    (hb : Tidy lo s.temporaries before) (hdone : ∀ e ∈ done, e.Ready before)
    (hn : next.Tidy s.temporaries s₁.temporaries) :
    Tidy lo s'.temporaries before' ∧ ∀ e ∈ done', e.Ready before' := by
  cases h with
  | plain hempty =>
    obtain ⟨hnumbered, -, hready⟩ := hn
    rw [hempty] at hnumbered hready
    refine ⟨⟨by simpa using hb.numbered.append hnumbered, hb.closed⟩, ?_⟩
    rw [List.forall_mem_append, List.forall_mem_singleton]
    exact ⟨hdone, hready.mono (by simp)⟩
  | @keep hoisted kept _ _ hoists =>
    obtain ⟨hclosed, hkept⟩ := hoists.closed hb.closed hdone
    refine ⟨⟨?_, hclosed.append hn.closed⟩, ?_⟩
    · have hall := (hb.numbered.append hn.numbered).append hoists.numbered
      refine hall.perm ?_
      simp only [temporariesOf_append, List.append_assoc]
      exact List.Perm.append_left _ List.perm_append_comm
    · rw [List.forall_mem_append, List.forall_mem_singleton]
      refine ⟨fun e he => (hkept e he).append _, hn.ready.mono fun x hx => ?_⟩
      exact List.mem_append_right _ hx

section

variable {c : Typing}

theorem LowersAll.tidy {r : Registry} {es : List Bound.Expr}
    (hes : ∀ e ∈ es, ∀ {s s' out}, Lowers r e s out s' → out.Tidy s.temporaries s'.temporaries)
    {before before' : List Stmt} {done done' : List Expr} {lo : Nat} {s s' : Supply}
    (h : LowersAll r before done es s before' done' s') (hb : Tidy lo s.temporaries before)
    (hdone : ∀ e ∈ done, e.Ready before) :
    Tidy lo s'.temporaries before' ∧ ∀ e ∈ done', e.Ready before' := by
  induction es generalizing before done s with
  | nil =>
    cases h
    exact ⟨hb, hdone⟩
  | cons e rest ih =>
    cases h with
    | cons he hjoin hrest =>
      obtain ⟨hb', hdone'⟩ := hjoin.tidy hb hdone (hes e List.mem_cons_self he)
      exact ih (fun x hx => hes x (List.mem_cons_of_mem e hx)) hrest hb' hdone'

/-- Operands with nothing in front of them. -/
theorem LowersAll.tidy_start {r : Registry} {es : List Bound.Expr}
    (hes : ∀ e ∈ es, ∀ {s s' out}, Lowers r e s out s' → out.Tidy s.temporaries s'.temporaries)
    {before : List Stmt} {done : List Expr} {s s' : Supply}
    (h : LowersAll r [] [] es s before done s') :
    Tidy s.temporaries s'.temporaries before ∧ ∀ e ∈ done, e.Ready before :=
  h.tidy hes (.nil _) (by simp)

theorem Converts.ready {r : Registry} {e out : Expr} {target : TypeId} (h : Converts r e target out)
    {before : List Stmt} (he : e.Ready before) : out.Ready before := by
  refine he.of_symbols ?_ fun x hx => .inl (by rwa [h.symbols] at hx)
  cases h with
  | same => exact he.strict
  | convert => exact he.strict

/-- The operator of a compound assignment evaluates both operands. -/
theorem Merges.ready {operator : TypeId} {sig : Signature} (hc : c.registry.Combines operator sig)
    {old value result : Expr} (h : Merges c.registry operator old value result) {before : List Stmt}
    (hold : old.Ready before) (hvalue : value.Ready before) : result.Ready before := by
  obtain ⟨info, left, hinfo, hleft, hresult⟩ := h
  refine hresult.ready ?_
  have hparts : ∀ e ∈ [left, value], e.Ready before := by simpa using ⟨hleft.ready hold, hvalue⟩
  have hstrict : ∀ o, info.op? = some (.binary o) → o.isShortCircuit = false := by
    intro o ho
    obtain ⟨op, hop, ⟨g, hg⟩, -⟩ | ⟨⟨g, hg⟩, -⟩ := hc
    · obtain rfl := Except.ok.inj (hinfo.symm.trans hg)
      cases ho
      exact hop
    · obtain rfl := Except.ok.inj (hinfo.symm.trans hg)
      cases ho
  unfold applied
  split
  · exact Expr.Ready.of_parts hparts (fun h => ⟨hstrict, by simpa [strictAll] using h⟩)
      (by simp [Expr.symbols, symbolsAll])
  · exact Expr.Ready.of_parts hparts id (by simp [Expr.symbols])

/-- A flat expression uses temporaries that the statements in front of it declare. -/
theorem Lowers.tidy {e : Bound.Expr} (he : e.Typed c) {s s' : Supply} {out : Lowered}
    (h : Lowers c.registry e s out s') : out.Tidy s.temporaries s'.temporaries := by
  induction e using Bound.Expr.induction generalizing s s' out with
  | literal =>
    cases h
    exact ⟨.nil _, .nil, Expr.ready_literal⟩
  | symbol span sym =>
    simp only [Bound.Expr.Typed] at he
    cases h
    exact ⟨.nil _, .nil, Expr.ready_symbol (.inl he.2)⟩
  | group | typeName => exact he.elim
  | invalid =>
    cases h
    exact ⟨.nil _, .nil, Expr.ready_invalid⟩
  | assign span target value ihparts ihv =>
    simp only [Bound.Expr.Typed] at he
    obtain ⟨-, htarget, hvalue, -⟩ := he
    cases h with
    | assign hv =>
      simp only [Bound.Expr.Typed] at htarget
      have hout := ihv hvalue hv
      exact ⟨hout.numbered, hout.closed, hout.ready.assign (.inl htarget.2)⟩
    | assignElement hall =>
      simp only [Bound.Expr.Typed] at htarget
      obtain ⟨iha, ihi⟩ := ihparts _ _ _ _ rfl
      obtain ⟨hbefore, hparts⟩ := hall.tidy_start
        (by simpa using ⟨iha htarget.1, ihi htarget.2.1, ihv hvalue⟩)
      refine ⟨hbefore.numbered, hbefore.closed, .of_parts hparts ?_ ?_⟩
      · simp [Expr.Strict, strictAll]
      · simp [Expr.symbols, symbolsAll]
  | compound span target operator value ihparts ihv =>
    simp only [Bound.Expr.Typed] at he
    obtain ⟨-, htarget, hvalue, param, result, hc, -⟩ := he
    cases h with
    | compound hv hm =>
      simp only [Bound.Expr.Typed] at htarget
      have hout := ihv hvalue hv
      have hmerged := hm.ready hc (Expr.ready_symbol (.inl htarget.2)) hout.ready
      exact ⟨hout.numbered, hout.closed, hmerged.assign (.inl htarget.2)⟩
    | @compoundElement _ _ _ _ _ t _ _ _ _ _ before a i v a' i' result hall ha hi hm =>
      simp only [Bound.Expr.Typed] at htarget
      obtain ⟨iha, ihi⟩ := ihparts _ _ _ _ rfl
      obtain ⟨hbefore, hparts⟩ := hall.tidy_start
        (by simpa using ⟨iha htarget.1, ihi htarget.2.1, ihv hvalue⟩)
      simp only [List.forall_mem_cons] at hparts
      obtain ⟨hready, hindex, hv, -⟩ := hparts
      obtain ⟨harray, ha'⟩ := ha.tidy hbefore hready
      obtain ⟨hboth, hi'⟩ := hi.tidy harray (hindex.append _)
      have hplaces : ∀ e ∈ [a'.expr, i'.expr], e.Ready (before ++ a'.before ++ i'.before) :=
        List.forall_mem_cons.mpr ⟨ha'.append _, List.forall_mem_singleton.mpr hi'⟩
      have hold : (Expr.index a'.expr i'.expr t).Ready (before ++ a'.before ++ i'.before) :=
        .of_parts hplaces (by simp [Expr.Strict, strictAll]) (by simp [Expr.symbols, symbolsAll])
      have hmerged := hm.ready hc hold ((hv.append _).append _)
      refine ⟨hboth.numbered, hboth.closed, .of_parts (List.forall_mem_cons.mpr ⟨ha'.append _,
        List.forall_mem_cons.mpr ⟨hi', List.forall_mem_singleton.mpr hmerged⟩⟩) ?_ ?_⟩
      · simp [Expr.Strict, strictAll]
      · simp [Expr.symbols, symbolsAll]
  | binary span operator left right t ihl ihr =>
    simp only [Bound.Expr.Typed] at he
    cases h with
    | @shortCircuit _ _ _ _ _ _ op _ s₁ _ a b _ _ _ ha hb =>
      have hleft := ihl he.1 ha
      have hright := ihr he.2.1 hb
      rw [Supply.temporaries_nextLabels] at hright
      have hfresh : Tidy s.temporaries (s.temporaries + 1)
          [.declare (temporary (s.temporaries + 1) (.builtin .bool))] := by
        refine ⟨⟨Nat.le_succ _, ?_, ?_⟩, by simpa using Closed.nil.snoc fun e h => by cases h⟩
        · simp [temporariesOf, Stmt.temporary?, temporary]
        · simp [temporariesOf, Stmt.temporary?, temporary]
      generalize ht : temporary (s.temporaries + 1) (.builtin .bool) = x at *
      have hx : ∀ {ss : List Stmt}, (Stmt.declare x) ∈ ss → (decided op x).Ready ss := by
        intro ss hmem
        unfold decided
        split
        · exact (Expr.ready_symbol (.inr hmem)).negate
        · exact Expr.ready_symbol (.inr hmem)
      have hfirst := hfresh.append hleft.statements
      have hassign := hfirst.snoc (s := .eval (.assign x a.expr)) rfl (ready_of_expr? rfl
        ((hleft.ready.mono fun _ hs => List.mem_append_right _ hs).assign (.inr (by simp))))
      have hskip := hassign.snoc (s := .jumpIf (decided op x) (s₁.labels + 1)) rfl
        (ready_of_expr? rfl (hx (by simp)))
      have hsecond := hskip.append hright.statements
      have hlast := hsecond.snoc (s := .eval (.assign x b.expr)) rfl (ready_of_expr? rfl
        ((hright.ready.mono fun _ hs => List.mem_append_right _ hs).assign (.inr (by simp))))
      have hend := hlast.snoc (s := .label (s₁.labels + 1)) rfl fun e h => by cases h
      have hout : Tidy s.temporaries s'.temporaries ([Stmt.declare x] ++ a.before ++
          [Stmt.eval (.assign x a.expr), .jumpIf (decided op x) (s₁.labels + 1)] ++ b.before ++
          [Stmt.eval (.assign x b.expr), .label (s₁.labels + 1)]) := by simpa using hend
      exact ⟨hout.numbered, hout.closed, Expr.ready_symbol (.inr (by simp))⟩
    | binary _ hop hall =>
      obtain ⟨hbefore, hparts⟩ := hall.tidy_start (by simpa using ⟨ihl he.1, ihr he.2.1⟩)
      refine ⟨hbefore.numbered, hbefore.closed, .of_parts hparts (fun h => ⟨hop, ?_⟩) ?_⟩
      · simpa [strictAll] using h
      · simp [Expr.symbols, symbolsAll]
  | unary span operator operand t ih =>
    simp only [Bound.Expr.Typed] at he
    cases h with
    | unary _ hv =>
      have hout := ih he.1 hv
      exact ⟨hout.numbered, hout.closed, hout.ready.of_symbols hout.ready.strict fun x hx => .inl hx⟩
  | call span callable args t ih =>
    simp only [Bound.Expr.Typed, Bound.typedAll_iff] at he
    cases h with
    | call hall =>
      obtain ⟨hbefore, hparts⟩ := hall.tidy_start fun e hmem {_ _ _} h => ih e hmem (he.1 e hmem) h
      exact ⟨hbefore.numbered, hbefore.closed, .of_parts hparts id (by simp [Expr.symbols])⟩
  | convert span kind operand t isExplicit ih =>
    simp only [Bound.Expr.Typed] at he
    cases h with
    | keep hv => exact ih he.1 hv
    | convert _ hv =>
      have hout := ih he.1 hv
      exact ⟨hout.numbered, hout.closed, hout.ready.of_symbols hout.ready.strict fun x hx => .inl hx⟩
  | index span target index t iht ihi =>
    simp only [Bound.Expr.Typed] at he
    cases h with
    | index hall =>
      obtain ⟨hbefore, hparts⟩ := hall.tidy_start (by simpa using ⟨iht he.1, ihi he.2.1⟩)
      refine ⟨hbefore.numbered, hbefore.closed, .of_parts hparts ?_ ?_⟩
      · simp [Expr.Strict, strictAll]
      · simp [Expr.symbols, symbolsAll]
  | length span target ih =>
    simp only [Bound.Expr.Typed] at he
    cases h with
    | length hv =>
      have hout := ih he.1 hv
      exact ⟨hout.numbered, hout.closed, hout.ready.of_symbols hout.ready.strict fun x hx => .inl hx⟩
  | newArray span element size t ih =>
    simp only [Bound.Expr.Typed] at he
    cases h with
    | newArray hv =>
      have hout := ih he.1 hv
      exact ⟨hout.numbered, hout.closed, hout.ready.of_symbols hout.ready.strict fun x hx => .inl hx⟩

theorem LowersDeclaration.tidy {d : Bound.Declaration} (hd : d.Typed c) {s s' : Supply}
    {out : List Stmt} (h : LowersDeclaration c.registry d s out s') :
    Tidy s.temporaries s'.temporaries out := by
  have hdeclare : Tidy s.temporaries s.temporaries [.declare d.symbol] :=
    .single _ (temporary?_of_isDeclared hd.declared) rfl
  cases h with
  | init hinit hv =>
    have hout := hv.tidy (hd.init _ hinit).1
    have hstore := hout.eval (s := .eval (.assign d.symbol _)) rfl
      fun e he hready => ready_of_expr? rfl (hready.assign (.inl hd.declared)) e he
    exact hdeclare.append hstore
  | zero =>
    exact hdeclare.snoc (s := .eval (.assign d.symbol _)) rfl
      (ready_of_expr? rfl (Expr.ready_literal.assign (.inl hd.declared)))
  | unset => exact hdeclare

/-- An expression that is evaluated for its effect, as a condition, or for the result. -/
theorem Lowers.tidy_eval {e : Bound.Expr} (he : e.Typed c) {s s' : Supply} {out : Lowered}
    (h : Lowers c.registry e s out s') {last : Stmt} (ht : last.temporary? = none)
    (hl : last.expr? = some out.expr ∨ last.expr? = some (Lowering.negate out.expr)) :
    Tidy s.temporaries s'.temporaries (out.before ++ [last]) := by
  refine (h.tidy he).eval ht fun f hf hready => ?_
  rcases hl with hl | hl
  · exact ready_of_expr? hl hready f hf
  · exact ready_of_expr? hl hready.negate f hf

theorem LowersSetup.tidy {setup : Option Bound.Setup} (hs : ∀ x, setup = some x → x.Typed c)
    {s s' : Supply} {out : List Stmt} (h : LowersSetup c.registry setup s out s') :
    Tidy s.temporaries s'.temporaries out := by
  cases h with
  | none => exact .nil _
  | declare hd => exact hd.tidy (hs _ rfl)
  | eval hv => exact hv.tidy_eval (hs _ rfl) rfl (.inl rfl)

theorem LowersTest.tidy {cond : Option Bound.Expr} {done : Label}
    (hc : ∀ e, cond = Option.some e → e.Typed c) {s s' : Supply} {out : List Stmt}
    (h : LowersTest c.registry done cond s out s') : Tidy s.temporaries s'.temporaries out := by
  cases h with
  | none => exact .nil _
  | some hv => exact hv.tidy_eval (hc _ rfl) rfl (.inr rfl)

theorem LowersPost.tidy {post : Option Bound.Expr}
    (hp : ∀ e, post = Option.some e → e.Typed c ∨ e.isName) {s s' : Supply} {out : List Stmt}
    (h : LowersPost c.registry post s out s') : Tidy s.temporaries s'.temporaries out := by
  cases h with
  | none => exact .nil _
  | some hv =>
    rcases hp _ rfl with he | hname
    · exact hv.tidy_eval he rfl (.inl rfl)
    · have hinvalid : ∀ {n : Nat}, Tidy n n [.eval .invalid] := fun {n} =>
        (Tidy.nil n).snoc (s := .eval .invalid) rfl (ready_of_expr? rfl Expr.ready_invalid)
      cases hv with
      | group | typeName => exact hinvalid
      | _ => cases hname

theorem LowersStmts.tidy {r : Registry} {loop? : Option LoopLabels} {stmts : List Bound.Stmt}
    (hstmts : ∀ stmt ∈ stmts, ∀ {s s' out}, LowersStmt r loop? stmt s out s' →
      Tidy s.temporaries s'.temporaries out)
    {s s' : Supply} {out : List Stmt} (h : LowersStmts r loop? stmts s out s') :
    Tidy s.temporaries s'.temporaries out := by
  induction stmts generalizing s out with
  | nil =>
    cases h
    exact .nil _
  | cons stmt rest ih =>
    cases h with
    | cons hfirst hrest =>
      have htail := ih (fun x hx => hstmts x (List.mem_cons_of_mem _ hx)) hrest
      exact (hstmts stmt List.mem_cons_self hfirst).append htail

/-- Flat statements declare the temporaries that they use. -/
theorem LowersStmt.tidy {result : TypeId} {looping : Bool} {loop? : Option LoopLabels}
    {stmt : Bound.Stmt} (hs : stmt.Typed c result looping) {s s' : Supply} {out : List Stmt}
    (h : LowersStmt c.registry loop? stmt s out s') : Tidy s.temporaries s'.temporaries out := by
  have hmark : ∀ {n : Nat} (l : Label), Tidy n n [.label l] := fun l => .single _ rfl rfl
  have hjump : ∀ {n : Nat} (l l' : Label), Tidy n n [.jump l, .label l'] :=
    fun l l' => (Tidy.single _ rfl rfl).append (hmark l')
  induction stmt using Bound.Stmt.induction generalizing looping loop? s s' out with
  | block span body ih =>
    simp only [Bound.Stmt.Typed, Bound.typedStmts_iff] at hs
    cases h with
    | block hbody => exact hbody.tidy fun stmt hmem {_ _ _} h => ih stmt hmem (hs stmt hmem) h
  | declare d =>
    simp only [Bound.Stmt.Typed] at hs
    cases h with
    | declare hd => exact hd.tidy hs
  | eval e =>
    simp only [Bound.Stmt.Typed] at hs
    cases h with
    | eval hv => exact hv.tidy_eval hs rfl (.inl rfl)
  | ifThen span cond yes ih =>
    simp only [Bound.Stmt.Typed] at hs
    cases h with
    | @ifThen _ _ _ _ _ s₁ _ v _ hv hyes =>
      have htest : Tidy s.temporaries s₁.temporaries
          (v.before ++ [Stmt.jumpIf (Lowering.negate v.expr) (s₁.labels + 1)]) :=
        hv.tidy_eval hs.1.1 rfl (.inr rfl)
      have hout := ih hs.2 hyes
      rw [Supply.temporaries_nextLabels] at hout
      exact (htest.append hout).append (hmark _)
  | ifElse span cond yes no ihyes ihno =>
    simp only [Bound.Stmt.Typed] at hs
    cases h with
    | @ifElse _ _ _ _ _ _ s₁ _ _ v _ _ hv hyes hno =>
      have htest : Tidy s.temporaries s₁.temporaries
          (v.before ++ [Stmt.jumpIf (Lowering.negate v.expr) (s₁.labels + 2)]) :=
        hv.tidy_eval hs.1.1 rfl (.inr rfl)
      have hout := ihyes hs.2.1 hyes
      rw [Supply.temporaries_nextLabels] at hout
      exact (((htest.append hout).append (hjump _ _)).append (ihno hs.2.2 hno)).append (hmark _)
  | whileLoop span cond body ih =>
    simp only [Bound.Stmt.Typed] at hs
    cases h with
    | @whileLoop _ _ _ _ _ s₁ _ v _ hv hbody =>
      have htest : Tidy (s.nextLabels 2).temporaries s₁.temporaries
          (v.before ++ [Stmt.jumpIf (Lowering.negate v.expr) (s.labels + 2)]) :=
        hv.tidy_eval hs.1.1 rfl (.inr rfl)
      rw [Supply.temporaries_nextLabels] at htest
      exact (((hmark _).append htest).append (ih hs.2 hbody)).append (hjump _ _)
  | forLoop span setup cond post body ih =>
    simp only [Bound.Stmt.Typed] at hs
    obtain ⟨hsetup, hcond, hpost, hbody⟩ := hs
    cases h with
    | @forLoop _ _ _ _ _ _ _ s₁ _ _ _ _ _ _ _ hfirst htest hout hlast =>
      have htest := htest.tidy fun e he => (hcond e he).1
      rw [Supply.temporaries_nextLabels] at htest
      have hturn := htest.append (ih hbody hout)
      have hend := (hmark (s₁.labels + 2)).append (hlast.tidy hpost)
      have hall := ((hfirst.tidy hsetup).append (hmark (s₁.labels + 1))).append (hturn.append hend)
      simpa using hall.append (hjump (s₁.labels + 1) (s₁.labels + 3))
  | breakLoop span | continueLoop span =>
    cases h
    exact .single _ rfl rfl
  | returnStmt span value =>
    cases h with
    | returnNone => exact .single _ rfl rfl
    | returnSome hv =>
      simp only [Bound.Stmt.Typed] at hs
      exact hv.tidy_eval hs.1 rfl (.inl rfl)

end

/-- The return that ends a routine uses no temporaries. -/
theorem Tidy.terminated {lo hi : Nat} {body : List Stmt} (h : Tidy lo hi body) (result : TypeId) :
    Tidy lo hi (Lowering.terminated result body) := by
  unfold Lowering.terminated
  split
  · exact h
  · split
    · exact h.snoc rfl fun e he => by cases he
    · exact h.snoc (s := .returnStmt (some _)) rfl (ready_of_expr? rfl Expr.ready_literal)

/-- A routine that flattening makes of a bound one that makes sense is well formed. -/
theorem LowersRoutine.wellFormed {r : Registry} {globals : List Symbol} {lenient : Prop}
    {f : Bound.Routine} {g : Routine} (hf : f.Typed r globals lenient) (h : LowersRoutine r f g) :
    g.WellFormed := by
  obtain ⟨hbody⟩ := h
  have htyped := Bound.typedStmts_iff.mp hf.body
  have htidy := (hbody.tidy fun stmt hmem {_ _ _} h =>
    h.tidy (c := ⟨r, globals, f.params, lenient⟩) (htyped stmt hmem)).terminated f.result
  refine ⟨hbody.resolvable f.result, isReturn_terminated f.result _, fun s hs e he => ?_,
    fun a s b heq e he => (htidy.closed a s b heq e he).declared, htidy.numbered.nodup⟩
  obtain ⟨a, b, heq⟩ := List.append_of_mem hs
  exact (htidy.closed a s b heq e he).strict

/-- Binding a source file that the reader has no complaint about gives a program, and flattening it
gives one, mistakes of types and names or not, in which every routine is well formed. -/
theorem flattening_wellFormed {source : List Glyph} {file : Parsed.File}
    (hparse : Parsed.parse source = (file, #[])) :
    ∃ p s q, Binder.bindProgram file Binder.initial = .ok (p, s) ∧
      Program.ofBound s.registry p = .ok q ∧ q.routines.length = p.routines.length ∧
      ∀ g ∈ q.routines, g.WellFormed := by
  obtain ⟨p, s, hbind, -, hp⟩ := Binder.bindProgram_typed (Parsed.proper_of_parse hparse)
  obtain ⟨q, hq, hlowers⟩ := exists_program hp
  refine ⟨p, s, q, hbind, hq, hlowers.routines.length_eq.symm, fun g hg => ?_⟩
  obtain ⟨f, hf, hroutine⟩ := exists_left hlowers.routines hg
  exact hroutine.wellFormed (hp.routines f hf)

/-- A loop that calls a function with an operand that may be skipped, and a name that nobody declared. -/
def skipping : List Glyph :=
  "func g(a: i32, b: bool): bool { return b; } while (g(1 + 2, g(1, true) && y)) { break; }".toList.map
    Glyph.ofChar

theorem flattening_wellFormed_skipping : ∃ file, Parsed.parse skipping = (file, #[]) ∧
    ∃ p s q, Binder.bindProgram file Binder.initial = .ok (p, s) ∧
      Program.ofBound s.registry p = .ok q ∧ q.routines.length = p.routines.length ∧
      ∀ g ∈ q.routines, g.WellFormed := by
  have hparse := Parsed.parse_of_isEmpty (show (Parsed.parse skipping).2.isEmpty = true by decide +kernel)
  exact ⟨_, hparse, flattening_wellFormed hparse⟩

end Flat
end TypedScript
