import TypedScript.Proofs.Binding.Reports

/-!
# Binding in two states

Two states that grew from the same one may know different array types, and the same array type may
have different numbers in them. A step that reports nothing in one of them is compared with a step in
the other: an expression is bound to a similar one, and nothing is reported there either.
-/

namespace TypedScript

namespace Bound

/-- Whether the expression is neither a literal nor a bare name of functions or a type. -/
def Expr.isComputed : Expr → Bool
  | .literal _ _ _ | .group _ _ _ | .typeName _ _ => false
  | _ => true

def Expr.isVoidCall : Expr → Bool
  | .call _ _ _ t => t = .builtin .void
  | _ => false

/-- Expressions that binding treats alike, with types that agree in two registries that grew from a
third. -/
inductive Similar (r s s' : Registry) : Expr → Expr → Prop
  | same {e : Expr} (h : Registry.IsOld r.entries.size e.type) : Similar r s s' e e
  | computed {e e' : Expr} (type : r.Agree s s' e.type e'.type) (category : e.category = e'.category)
      (void : e.isVoidCall = e'.isVoidCall) (he : e.isComputed) (he' : e'.isComputed) :
      Similar r s s' e e'

section

variable {r s s' : Registry} {e e' : Expr}

theorem Similar.type (h : Similar r s s' e e') : r.Agree s s' e.type e'.type := by
  cases h with
  | same h => exact .old h
  | computed type => exact type

theorem Similar.category (h : Similar r s s' e e') : e.category = e'.category := by
  cases h with
  | same => rfl
  | computed _ category => exact category

theorem Similar.isVoidCall (h : Similar r s s' e e') : e.isVoidCall = e'.isVoidCall := by
  cases h with
  | same => rfl
  | computed _ _ void => exact void

theorem Similar.isName (h : Similar r s s' e e') : e.isName = e'.isName := by
  cases h with
  | same => rfl
  | computed _ _ _ he he' =>
    have hcomputed : ∀ {x : Expr}, x.isComputed → x.isName = false := by
      intro x hx
      cases x <;> first | rfl | cases hx
    rw [hcomputed he, hcomputed he']

theorem Similar.mono {t t' : Registry} (h : s.AddsArrays t) (h' : s'.AddsArrays t')
    (he : Similar r s s' e e') : Similar r t t' e e' := by
  cases he with
  | same he => exact .same he
  | computed type category void he he' => exact .computed (type.mono h h') category void he he'

theorem retype?_of_isComputed (h : e.isComputed) (t : TypeId) : e.retype? t = none := by
  cases e <;> first | rfl | cases h

theorem Literal.retype?_derived (v : Literal) (i : Nat) : v.retype? (.derived i) = none := by
  cases v <;> simp [Literal.retype?, TypeId.isSigned, TypeId.isUnsigned, TypeId.isFloat,
    TypeId.satisfies]

theorem isOld_of_retype? {n : Nat} {v : Expr} {t : TypeId} (h : e.retype? t = some v) :
    Registry.IsOld n v.type := by
  cases e with
  | literal span w u =>
    obtain ⟨w, hw, rfl⟩ := Option.map_eq_some_iff.1 h
    obtain ⟨b, rfl, -⟩ := (Literal.fits_retype? hw).exists_builtin
    trivial
  | _ => simp [Expr.retype?] at h

/-- Literals take on types that agree in the same way. -/
theorem Similar.retype? (h : Similar r s s' e e') {t t' : TypeId} (ht : r.Agree s s' t t') :
    e.retype? t = e'.retype? t' := by
  cases h with
  | computed _ _ _ he he' => rw [retype?_of_isComputed he, retype?_of_isComputed he']
  | same =>
    cases ht with
    | old => rfl
    | array =>
      cases e with
      | literal span v u => simp [Expr.retype?, Literal.retype?_derived]
      | _ => rfl

end

end Bound

namespace Binder

open TypedScript.Binding TypedScript.Bound

/-- A step of binding that only adds errors and array types. -/
class Steps {α : Type} (m : Binder α) : Prop where
  adds : ∀ s a s', m s = .ok (a, s') → ∃ d, Adds s s' d

section

variable {α β : Type}

theorem Tells.steps {base : State} {m : Binder α} {Q : α → Prop} (h : Tells base m Q) : Steps m :=
  ⟨fun s a s' hrun => (h s a s' hrun).imp fun _ hd => hd.1⟩

instance steps_pure (a : α) : Steps (Pure.pure a : Binder α) :=
  (Tells.pure trivial : Tells initial (Pure.pure a) fun _ => True).steps

instance steps_bind {m : Binder α} {f : α → Binder β} [hm : Steps m] [hf : ∀ a, Steps (f a)] :
    Steps (m >>= f) := by
  refine ⟨fun s b s' hrun => ?_⟩
  obtain ⟨a, s₁, hrun₁, hrun₂⟩ := bind_eq_ok hrun
  obtain ⟨d, hd⟩ := hm.adds s a s₁ hrun₁
  obtain ⟨e, he⟩ := (hf a).adds s₁ b s' hrun₂
  exact ⟨d ++ e, hd.trans he⟩

theorem clear_initial : Clear initial := by
  refine sound_initial.clear ⟨fun sym h => ?_, fun sym h _ => ?_⟩
  all_goals simp [InScope, initial, Scope.empty] at h

instance steps_bindExpr (e : Parsed.Expr) : Steps (bindExpr e) :=
  (Tells.bindExpr clear_initial e).steps

instance steps_bindValues (es : List Parsed.Expr) : Steps (bindValues es) :=
  (Tells.bindValues clear_initial es).steps

instance steps_bindName (span : Span) (name : String) (read : Bool) :
    Steps (bindName span name read) := (Tells.bindName clear_initial span name read).steps

instance steps_ite {c : Prop} [Decidable c] {m m' : Binder α} [Steps m] [Steps m'] :
    Steps (if c then m else m') := by
  split <;> assumption

instance steps_ask (f : Registry → Except Defect α) : Steps (ask f) :=
  (Tells.ask f : Tells initial _ _).steps

instance steps_fullName (t : TypeId) : Steps (fullName t) :=
  (Tells.fullName t : Tells initial _ _).steps

instance steps_negation : Steps negation := (Tells.negation : Tells initial _ _).steps

/-- An error may be reported before any step. -/
theorem steps_complain (span : Span) {c : Complaint} (hc : c.severity = .error) {k : Unit → Binder α}
    [∀ u, Steps (k u)] : Steps (complain span c >>= k) :=
  have := (Tells.complain span hc : Tells initial _ _).steps
  steps_bind

instance steps_arrayOf (t : TypeId) : Steps (register (·.arrayOf t)) := by
  refine ⟨fun s u s' hrun => ?_⟩
  obtain ⟨r, hr, rfl⟩ := Tells.register_eq_ok hrun
  exact ⟨[], ⟨rfl, rfl, rfl, Registry.addsArrays_arrayOf hr⟩, by simp, by simp⟩

instance steps_arrays (n : Nat) (t : TypeId) : Steps (resolveType.arrays n t) := by
  induction n generalizing t with
  | zero => exact steps_pure t
  | succ n ih => exact steps_bind

instance steps_resolveType (t : Parsed.TypeName) : Steps (resolveType t) :=
  (Tells.resolveType t : Tells initial _ _).steps

instance steps_valueType (t : Parsed.TypeName) : Steps (valueType t) :=
  (Tells.valueType t : Tells initial _ _).steps

instance steps_convertImplicit (e : Expr) (target : TypeId) (span : Span) :
    Steps (convertImplicit e target span) :=
  (Tells.convertImplicit e target span : Tells initial _ _).steps

instance steps_coerce (e : Expr) (p : TypeId) : Steps (coerce e p) :=
  (Tells.coerce e p : Tells initial _ _).steps

instance steps_coerceAll (es : List Expr) (ps : List TypeId) : Steps (coerceAll es ps) :=
  (Tells.coerceAll es ps : Tells initial _ _).steps

instance steps_resolveBinary (op : BinaryOperator) (args : List TypeId) (span : Span) :
    Steps (resolveBinary op args span) := (Tells.resolveBinary clear_initial op args span).steps

instance steps_requireValue (e : Expr) : Steps (requireValue e) :=
  (Tells.requireValue e : Tells initial _ _).steps

instance steps_applyBinary (op : BinaryOperator) (left right : Expr) (span : Span) :
    Steps (applyBinary op left right span) :=
  (Tells.applyBinary clear_initial op left right span).steps

instance steps_applyUnary (op : UnaryOperator) (operand : Expr) (span : Span) :
    Steps (applyUnary op operand span) := (Tells.applyUnary clear_initial op operand span).steps

instance steps_applyAssignment (op : Option BinaryOperator) (target value : Expr)
    (targetSpan valueSpan span : Span) :
    Steps (applyAssignment op target value targetSpan valueSpan span) :=
  (Tells.applyAssignment clear_initial op target value targetSpan valueSpan span).steps

instance steps_applyCall (callee : Expr) (args : List Expr) (calleeSpan span : Span) :
    Steps (applyCall callee args calleeSpan span) :=
  (Tells.applyCall callee args calleeSpan span : Tells initial _ _).steps

instance steps_applyIndex (target index : Expr) (targetSpan span : Span) :
    Steps (applyIndex target index targetSpan span) :=
  (Tells.applyIndex target index targetSpan span : Tells initial _ _).steps

instance steps_applyMember (target : Expr) (name : String) (span : Span) :
    Steps (applyMember target name span) := (Tells.applyMember target name span : Tells initial _ _).steps

instance steps_applyCast (operand : Expr) (target : TypeId) (span : Span) :
    Steps (applyCast operand target span) := (Tells.applyCast clear_initial operand target span).steps

instance steps_applyNewArray (element : TypeId) (size : Expr) (span : Span) :
    Steps (applyNewArray element size span) :=
  (Tells.applyNewArray element size span : Tells initial _ _).steps

theorem report_ext {r r' : Report} (h : r.items.toList = r'.items.toList) : r = r' := by
  cases r
  cases r'
  exact congrArg Report.mk (Array.toList_inj.1 h)

theorem report_of_adds {s s' : State} (h : Adds s s' []) : s'.report = s.report :=
  report_ext (by simpa using h.report)

/-- Binds what is assigned to. A plain assignment does not read it. -/
def bindTarget (op : Option BinaryOperator) : Parsed.Expr → Binder Expr
  | .name span name => bindName span name op.isSome
  | target => bindExpr target

theorem bindExpr_assign (span : Span) (op : Option BinaryOperator) (target value : Parsed.Expr) :
    bindExpr (.assign span op target value) = (do
      let bound ← bindTarget op target
      let rhs ← bindExpr value
      let rhs ← requireValue rhs
      applyAssignment op bound rhs target.span value.span span) := by
  rw [bindExpr.eq_def]
  cases target <;> rfl

/-- A minus before a number is part of it; other operators are applied. -/
theorem bindExpr_unary (span : Span) (op : UnaryOperator) {operand : Parsed.Expr}
    (hint : ∀ span v, operand ≠ .int span v) (hfloat : ∀ span v, operand ≠ .float span v) :
    bindExpr (.unary span op operand) = (do
      let e ← bindExpr operand
      let e ← requireValue e
      applyUnary op e span) := by
  rw [bindExpr.eq_def]
  cases operand with
  | int span v => exact absurd rfl (hint span v)
  | float span v => exact absurd rfl (hfloat span v)
  | _ => cases op <;> rfl

instance steps_bindTarget (op : Option BinaryOperator) (target : Parsed.Expr) :
    Steps (bindTarget op target) := by
  unfold bindTarget
  split <;> infer_instance

/-- Where the first step reports nothing, the second one reports the given diagnostics, and the
results are related in the registries behind them. -/
def Mirrors (s t : State) (m m' : Binder α) (d : List Diagnostic)
    (Q : Registry → Registry → α → α → Prop) : Prop :=
  ∀ a s', m s = .ok (a, s') → s'.report = s.report →
    ∃ b t', m' t = .ok (b, t') ∧ Enlarges s s' ∧ Enlarges t t' ∧
      t'.report.items.toList = t.report.items.toList ++ d ∧ Q s'.registry t'.registry a b

namespace Mirrors

variable {s t : State} {Q : Registry → Registry → α → α → Prop}
  {R : Registry → Registry → β → β → Prop} {d : List Diagnostic}

theorem pure {a b : α} (h : Q s.registry t.registry a b) :
    Mirrors s t (Pure.pure a) (Pure.pure b) [] Q := by
  intro _ _ hrun _
  cases hrun
  exact ⟨b, t, rfl, Enlarges.refl s, Enlarges.refl t, by simp, h⟩

theorem bind_append {m m' : Binder α} {f f' : α → Binder β} {e : List Diagnostic} [hm : Steps m]
    [hf : ∀ a, Steps (f a)] (h : Mirrors s t m m' d Q)
    (k : ∀ a b s₁ t₁, Enlarges s s₁ → Enlarges t t₁ → Q s₁.registry t₁.registry a b →
      Mirrors s₁ t₁ (f a) (f' b) e R) : Mirrors s t (m >>= f) (m' >>= f') (d ++ e) R := by
  intro b s₂ hrun hsilent
  obtain ⟨a, s₁, hrun₁, hrun₂⟩ := bind_eq_ok hrun
  obtain ⟨d₁, hd₁⟩ := hm.adds s a s₁ hrun₁
  obtain ⟨d₂, hd₂⟩ := (hf a).adds s₁ b s₂ hrun₂
  -- reports only grow, so neither part reports anything
  have hnil : d₁ ++ d₂ = [] := by
    have := (hd₁.trans hd₂).report
    rw [hsilent] at this
    simpa using this
  obtain ⟨rfl, rfl⟩ := List.append_eq_nil_iff.1 hnil
  obtain ⟨a', t₁, hrun₁', hs₁, ht₁, hrep₁, hq⟩ := h a s₁ hrun₁ (report_of_adds hd₁)
  obtain ⟨b', t₂, hrun₂', hs₂, ht₂, hrep₂, hr⟩ :=
    k a a' s₁ t₁ hs₁ ht₁ hq b s₂ hrun₂ (report_of_adds hd₂)
  refine ⟨b', t₂, ?_, hs₁.trans hs₂, ht₁.trans ht₂, ?_, hr⟩
  · rw [run_bind hrun₁', hrun₂']
  · rw [hrep₂, hrep₁, List.append_assoc]

/-- After a step that reports nothing; the steps behind it are as they should be. -/
theorem bind_of {m m' : Binder α} {f f' : α → Binder β} [Steps m] (_ : ∀ a, Steps (f a))
    (h : Mirrors s t m m' [] Q)
    (k : ∀ a b s₁ t₁, Enlarges s s₁ → Enlarges t t₁ → Q s₁.registry t₁.registry a b →
      Mirrors s₁ t₁ (f a) (f' b) d R) : Mirrors s t (m >>= f) (m' >>= f') d R :=
  bind_append h k

/-- After a step that reports nothing. -/
theorem bind {m m' : Binder α} {f f' : α → Binder β} [Steps m] [∀ a, Steps (f a)]
    (h : Mirrors s t m m' [] Q)
    (k : ∀ a b s₁ t₁, Enlarges s s₁ → Enlarges t t₁ → Q s₁.registry t₁.registry a b →
      Mirrors s₁ t₁ (f a) (f' b) d R) : Mirrors s t (m >>= f) (m' >>= f') d R :=
  bind_append h k

/-- After a step that reports something, nothing more is reported. -/
theorem bind_quietly {m m' : Binder α} {f f' : α → Binder β} [Steps m] [∀ a, Steps (f a)]
    (h : Mirrors s t m m' d Q)
    (k : ∀ a b s₁ t₁, Enlarges s s₁ → Enlarges t t₁ → Q s₁.registry t₁.registry a b →
      Mirrors s₁ t₁ (f a) (f' b) [] R) : Mirrors s t (m >>= f) (m' >>= f') d R := by
  simpa using bind_append h k

theorem get_bind {k k' : State → Binder β} (h : Mirrors s t (k s) (k' t) d R) :
    Mirrors s t (get >>= k) (get >>= k') d R := h

/-- The first step asks something of the registry. -/
theorem ask_left {f : Registry → Except Defect α} {k : α → Binder β} {m' : Binder β}
    (h : ∀ x, f s.registry = .ok x → Mirrors s t (k x) m' d R) :
    Mirrors s t (Binder.ask f >>= k) m' d R := by
  intro b s' hrun hsilent
  obtain ⟨x, s₁, hask, hrest⟩ := bind_eq_ok hrun
  obtain ⟨hf, rfl⟩ := Tells.ask_eq_ok hask
  exact h x hf b s' hrest hsilent

theorem ask_right {f : Registry → Except Defect α} {x : α} {m : Binder β} {k : α → Binder β}
    (hf : f t.registry = .ok x) (h : Mirrors s t m (k x) d R) :
    Mirrors s t m (Binder.ask f >>= k) d R := by
  intro b s' hrun hsilent
  obtain ⟨c, t', hrun', hrest⟩ := h b s' hrun hsilent
  exact ⟨c, t', by rw [run_bind (run_ask hf), hrun'], hrest⟩

/-- Both steps ask something that the registries agree on. -/
theorem ask {f g : Registry → Except Defect α} {k k' : α → Binder β}
    (hfg : f s.registry = g t.registry)
    (h : ∀ x, f s.registry = .ok x → Mirrors s t (k x) (k' x) d R) :
    Mirrors s t (Binder.ask f >>= k) (Binder.ask g >>= k') d R :=
  ask_left fun x hx => ask_right (hfg.symm.trans hx) (h x hx)

/-- What reports something need not be compared. -/
theorem complain (span : Span) {c : Complaint} {k : Unit → Binder β} [hk : ∀ u, Steps (k u)]
    {m' : Binder β} : Mirrors s t (Binder.complain span c >>= k) m' d R := by
  intro b s' hrun hsilent
  obtain ⟨u, s₁, hcomplain, hrun⟩ := bind_eq_ok hrun
  cases hcomplain
  obtain ⟨e, he⟩ := (hk ()).adds _ b s' hrun
  have hlen := congrArg List.length he.report
  rw [hsilent] at hlen
  simp [Report.add] at hlen

/-- After a step that changes nothing. -/
theorem bind_still {m m' : Binder α} {f f' : α → Binder β}
    (hm : ∀ a s', m s = .ok (a, s') → s' = s) (h : Mirrors s t m m' [] Q)
    (k : ∀ a b t₁, Enlarges t t₁ → Q s.registry t₁.registry a b →
      Mirrors s t₁ (f a) (f' b) d R) : Mirrors s t (m >>= f) (m' >>= f') d R := by
  intro b s₂ hrun hsilent
  obtain ⟨a, s₁, hrun₁, hrun₂⟩ := bind_eq_ok hrun
  obtain rfl := hm a s₁ hrun₁
  obtain ⟨a', t₁, hrun₁', -, ht₁, hrep₁, hq⟩ := h a s₁ hrun₁ rfl
  obtain ⟨b', t₂, hrun₂', hs₂, ht₂, hrep₂, hr⟩ := k a a' t₁ ht₁ hq b s₂ hrun₂ hsilent
  refine ⟨b', t₂, by rw [run_bind hrun₁', hrun₂'], hs₂, ht₁.trans ht₂, ?_, hr⟩
  rw [hrep₂, hrep₁, List.append_nil]

/-- Both steps only look something up. -/
theorem bind_run {m m' : Binder α} {f f' : α → Binder β} {a b : α} (hm : m s = .ok (a, s))
    (hm' : m' t = .ok (b, t)) (h : Mirrors s t (f a) (f' b) d R) :
    Mirrors s t (m >>= f) (m' >>= f') d R := by
  intro c s' hrun hsilent
  rw [run_bind hm] at hrun
  rw [run_bind hm']
  exact h c s' hrun hsilent

/-- A tie is reported. -/
theorem complainAmbiguous (span : Span) (name : String) (args : List TypeId) {tied : List TypeId}
    (htied : 2 ≤ tied.length) {k : Unit → Binder β} [∀ u, Steps (k u)] {m' : Binder β} :
    Mirrors s t (Binder.complainAmbiguous span name args tied >>= k) m' d R := by
  match tied, htied with
  | a :: b :: rest, _ =>
    simp only [Binder.complainAmbiguous, Binder.fullName, bind_assoc]
    exact ask_left fun _ _ => ask_left fun _ _ => ask_left fun _ _ => complain _

/-- The second step does not depend on the first one. -/
theorem ignoring {m m' : Binder α} [hm : Steps m] {b : α} {t' : State} (hrun' : m' t = .ok (b, t'))
    (ht : Enlarges t t') (hrep : t'.report.items.toList = t.report.items.toList ++ d)
    (hQ : ∀ r a, Q r t'.registry a b) : Mirrors s t m m' d Q := by
  intro a s' hrun _
  obtain ⟨e, he⟩ := hm.adds s a s' hrun
  exact ⟨b, t', hrun', he.toEnlarges, ht, hrep, hQ _ a⟩

end Mirrors

end

end Binder
end TypedScript
