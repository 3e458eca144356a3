import TypedScript.Proofs.Bound.Induction
import TypedScript.Proofs.Flat.Labels

/-!
# Well-typed flat programs

When a flat program makes sense. Flattening keeps this: what comes out of a bound program without
mistakes is well typed, and each expression keeps its type. The only exception are the bare names that
a counted loop may evaluate after each turn, which become invalid expressions.
-/

namespace TypedScript
namespace Flat

mutual

/-- An expression makes sense in a context. -/
def Expr.Typed (c : Typing) : Expr → Prop
  | .literal v t =>
    c.registry.IsType t ∧ t ≠ .error ∧ t ≠ .builtin .void ∧ (∀ l, v = some l → l.Fits t) ∧
      (v = none → t.satisfies Builtin.isScalar = false)
  | .symbol s => c.Declares s
  | .assign target value =>
    (target.kind = .localVariable ∨ target.kind = .globalVariable) ∧ c.Declares target ∧
      value.Typed c ∧ value.type = target.type
  | .assignElement array index t value =>
    array.Typed c ∧ index.Typed c ∧ value.Typed c ∧ c.registry.element array.type = .ok t ∧
      index.type = .builtin .i32 ∧ value.type = t
  | .binary op operand left right t =>
    left.Typed c ∧ right.Typed c ∧ operand = left.type ∧
      ∃ o : BinaryOperator, op = some (.binary o) ∧ o.isShortCircuit = false ∧
        ⟨t, [left.type, right.type]⟩ ∈ Intrinsics.signatures (.binary o)
  | .unary op operand t =>
    operand.Typed c ∧ ∃ o : UnaryOperator, op = some (.unary o) ∧
      ⟨t, [operand.type]⟩ ∈ Intrinsics.signatures (.unary o)
  | .call callable args t =>
    typedAll c args ∧ c.registry.Invokes callable ⟨t, args.map Expr.type⟩ ∧ t ≠ .error
  | .convert kind operand t =>
    operand.Typed c ∧ operand.type ≠ .builtin .void ∧ c.registry.IsType t ∧ t ≠ .builtin .void ∧
      t ≠ .error ∧ c.registry.classify operand.type t = .ok kind ∧ kind.isPlain ∧ kind ≠ .identity
  | .index target index t =>
    target.Typed c ∧ index.Typed c ∧ index.type = .builtin .i32 ∧
      (target.type = .builtin .string ∧ t = .builtin .char ∨ c.registry.element target.type = .ok t)
  | .length target =>
    target.Typed c ∧ (target.type = .builtin .string ∨ ∃ t, c.registry.element target.type = .ok t)
  | .newArray element size t =>
    size.Typed c ∧ size.type = .builtin .i32 ∧ c.registry.element t = .ok element
  | .invalid => False

def typedAll (c : Typing) : List Expr → Prop
  | [] => True
  | e :: rest => e.Typed c ∧ typedAll c rest

end

mutual

def Expr.symbols : Expr → List Symbol
  | .symbol s => [s]
  | .assign target value => target :: value.symbols
  | .assignElement array index _ value => array.symbols ++ index.symbols ++ value.symbols
  | .binary _ _ left right _ => left.symbols ++ right.symbols
  | .unary _ operand _ | .convert _ operand _ => operand.symbols
  | .call _ args _ => symbolsAll args
  | .index target index _ => target.symbols ++ index.symbols
  | .length target => target.symbols
  | .newArray _ size _ => size.symbols
  | .literal _ _ | .invalid => []

def symbolsAll : List Expr → List Symbol
  | [] => []
  | e :: rest => e.symbols ++ symbolsAll rest

end

def Stmt.symbols : Stmt → List Symbol
  | .declare s => [s]
  | .eval e | .returnStmt (some e) | .jumpIf e _ => e.symbols
  | .returnStmt none | .jump _ | .label _ => []

def symbolsOf (ss : List Stmt) : List Symbol := ss.flatMap Stmt.symbols

/-- Induction on expressions, with a hypothesis for every argument of a call. -/
theorem Expr.induction {P : Expr → Prop} (literal : ∀ v t, P (.literal v t))
    (symbol : ∀ s, P (.symbol s)) (assign : ∀ target value, P value → P (.assign target value))
    (assignElement : ∀ array index t value, P array → P index → P value →
      P (.assignElement array index t value))
    (binary : ∀ op operand left right t, P left → P right → P (.binary op operand left right t))
    (unary : ∀ op operand t, P operand → P (.unary op operand t))
    (call : ∀ callable args t, (∀ e ∈ args, P e) → P (.call callable args t))
    (convert : ∀ kind operand t, P operand → P (.convert kind operand t))
    (index : ∀ target index t, P target → P index → P (.index target index t))
    (length : ∀ target, P target → P (.length target))
    (newArray : ∀ element size t, P size → P (.newArray element size t)) (invalid : P .invalid)
    (e : Expr) : P e := by
  have hsize : ∀ n (e : Expr), sizeOf e < n → P e := by
    intro n
    induction n with
    | zero =>
      intro e he
      omega
    | succ n ih =>
      intro e he
      cases e with
      | literal v t => exact literal v t
      | symbol s => exact symbol s
      | assign target value =>
        simp at he
        exact assign target value (ih _ (by omega))
      | assignElement array index t value =>
        simp at he
        exact assignElement array index t value (ih _ (by omega)) (ih _ (by omega)) (ih _ (by omega))
      | binary op operand left right t =>
        simp at he
        exact binary op operand left right t (ih _ (by omega)) (ih _ (by omega))
      | unary op operand t =>
        simp at he
        exact unary op operand t (ih _ (by omega))
      | call callable args t =>
        simp at he
        refine call callable args t fun e hmem => ih _ ?_
        have := List.sizeOf_lt_of_mem hmem
        omega
      | convert kind operand t =>
        simp at he
        exact convert kind operand t (ih _ (by omega))
      | index target i t =>
        simp at he
        exact index target i t (ih _ (by omega)) (ih _ (by omega))
      | length target =>
        simp at he
        exact length target (ih _ (by omega))
      | newArray element size t =>
        simp at he
        exact newArray element size t (ih _ (by omega))
      | invalid => exact invalid
  exact hsize _ e (Nat.lt_succ_self _)

/-- A statement makes sense in a routine with the given result. -/
def Stmt.Typed (c : Typing) (result : TypeId) : Stmt → Prop
  | .declare s => c.Declares s ∧ s.kind = .localVariable
  | .eval e => e.Typed c
  | .returnStmt none => result = .builtin .void
  | .returnStmt (some e) => e.Typed c ∧ e.type = result ∧ result ≠ .builtin .void
  | .jumpIf cond _ => cond.Typed c ∧ cond.type = .builtin .bool
  | .jump _ | .label _ => True

def typedStmts (c : Typing) (result : TypeId) (ss : List Stmt) : Prop := ∀ s ∈ ss, s.Typed c result

attribute [local simp] Expr.Typed typedAll

theorem typedAll_iff {c : Typing} {es : List Expr} : typedAll c es ↔ ∀ e ∈ es, e.Typed c := by
  induction es with
  | nil => simp [typedAll]
  | cons e es ih => simp [typedAll, ih]

section

variable {c : Typing} (hr : c.registry.WellFormed)

include hr

theorem Expr.Typed.isType {e : Expr} (h : e.Typed c) : c.registry.IsType e.type := by
  cases e with
  | literal v t => exact h.1
  | symbol s => exact Typing.Declares.isType h
  | assign target value =>
    simp only [Expr.Typed] at h
    exact h.2.1.isType
  | assignElement array index t value =>
    simp only [Expr.Typed] at h
    exact (hr.isElement h.2.2.2.1).1
  | binary op operand left right t =>
    simp only [Expr.Typed] at h
    obtain ⟨-, -, -, o, -, -, hs⟩ := h
    obtain ⟨b, hb⟩ := (Intrinsics.isBuiltin_of_mem_signatures hs).1
    simp only [Expr.type, show t = .builtin b from hb, Registry.isType_builtin]
  | unary op operand t =>
    simp only [Expr.Typed] at h
    obtain ⟨-, o, -, hs⟩ := h
    obtain ⟨b, hb⟩ := (Intrinsics.isBuiltin_of_mem_signatures hs).1
    simp only [Expr.type, show t = .builtin b from hb, Registry.isType_builtin]
  | call callable args t =>
    simp only [Expr.Typed] at h
    obtain ⟨-, ⟨g, hg⟩, -⟩ := h
    exact hr.callable_result hg
  | convert kind operand t =>
    simp only [Expr.Typed] at h
    exact h.2.2.1
  | index target index t =>
    simp only [Expr.Typed] at h
    obtain ⟨-, -, -, ⟨-, rfl⟩ | he⟩ := h
    · trivial
    · exact (hr.isElement he).1
  | length target => trivial
  | newArray element size t =>
    simp only [Expr.Typed] at h
    exact Registry.isType_of_element h.2.2
  | invalid => exact h.elim

theorem Expr.Typed.ne_error (hc : ¬c.lenient) {e : Expr} (h : e.Typed c) : e.type ≠ .error := by
  cases e with
  | literal v t => exact h.2.1
  | symbol s => exact fun he => hc (Typing.Declares.error h he)
  | assign target value =>
    simp only [Expr.Typed] at h
    exact fun he => hc (h.2.1.error he)
  | assignElement array index t value =>
    simp only [Expr.Typed] at h
    exact (hr.isElement h.2.2.2.1).2.1
  | binary op operand left right t =>
    simp only [Expr.Typed] at h
    obtain ⟨-, -, -, o, -, -, hs⟩ := h
    obtain ⟨b, hb⟩ := (Intrinsics.isBuiltin_of_mem_signatures hs).1
    simp [Expr.type, show t = .builtin b from hb]
  | unary op operand t =>
    simp only [Expr.Typed] at h
    obtain ⟨-, o, -, hs⟩ := h
    obtain ⟨b, hb⟩ := (Intrinsics.isBuiltin_of_mem_signatures hs).1
    simp [Expr.type, show t = .builtin b from hb]
  | call callable args t =>
    simp only [Expr.Typed] at h
    exact h.2.2
  | convert kind operand t =>
    simp only [Expr.Typed] at h
    exact h.2.2.2.2.1
  | index target index t =>
    simp only [Expr.Typed] at h
    obtain ⟨-, -, -, ⟨-, rfl⟩ | he⟩ := h
    · simp [Expr.type]
    · exact (hr.isElement he).2.1
  | length target => simp [Expr.type]
  | newArray element size t =>
    simp only [Expr.Typed] at h
    rintro he
    rw [show t = .error from he] at h
    simp [Registry.element, Registry.get?] at h
  | invalid => exact h.elim

/-- Only a call can be without a value. -/
theorem Expr.Typed.ne_void {e : Expr} (h : e.Typed c)
    (hcall : ∀ callable args, e ≠ .call callable args (.builtin .void)) :
    e.type ≠ .builtin .void := by
  cases e with
  | literal v t => exact h.2.2.1
  | symbol s => exact Typing.Declares.ne_void h
  | assign target value =>
    simp only [Expr.Typed] at h
    exact h.2.1.ne_void
  | assignElement array index t value =>
    simp only [Expr.Typed] at h
    exact (hr.isElement h.2.2.2.1).2.2
  | binary op operand left right t =>
    simp only [Expr.Typed] at h
    obtain ⟨-, -, -, o, -, -, hs⟩ := h
    exact Intrinsics.result_ne_void hs
  | unary op operand t =>
    simp only [Expr.Typed] at h
    obtain ⟨-, o, -, hs⟩ := h
    exact Intrinsics.result_ne_void hs
  | call callable args t =>
    rintro he
    exact hcall callable args (by rw [← he]; rfl)
  | convert kind operand t =>
    simp only [Expr.Typed] at h
    exact h.2.2.2.1
  | index target index t =>
    simp only [Expr.Typed] at h
    obtain ⟨-, -, -, ⟨-, rfl⟩ | he⟩ := h
    · simp [Expr.type]
    · exact (hr.isElement he).2.2
  | length target => simp [Expr.type]
  | newArray element size t =>
    simp only [Expr.Typed] at h
    rintro he
    rw [show t = .builtin .void from he] at h
    simp [Registry.element, Registry.get?] at h
  | invalid => exact h.elim

end

end Flat
end TypedScript
