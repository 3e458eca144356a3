import TypedScript.Binding.Program
import TypedScript.Proofs.Binding.Basic

/-!
# What names in expressions refer to

Binding an expression looks names up in the scopes that are open, and changes neither these nor the
numbers of symbols: it adds to the report, makes array types and notes which symbols are read. So
what holds of the state and withstands such changes still holds behind the expression. A reference to
a symbol in the bound expression stands where the name of the symbol was written.
-/

namespace TypedScript

namespace Parsed

mutual

def Expr.names : Expr → List (Span × String)
  | .name span name => [(span, name)]
  | .assign _ _ target value => target.names ++ value.names
  | .binary _ _ left right => left.names ++ right.names
  | .unary _ _ operand => operand.names
  | .call _ callee args => callee.names ++ namesAll args
  | .index _ target index => target.names ++ index.names
  | .member _ target _ => target.names
  | .cast _ operand _ => operand.names
  | .newArray _ _ size => size.names
  | .int _ _ | .float _ _ | .string _ _ | .char _ _ | .bool _ _ => []

def namesAll : List Expr → List (Span × String)
  | [] => []
  | e :: rest => e.names ++ namesAll rest

end

end Parsed

namespace Bound

mutual

def Expr.Refers (P : Span → Symbol → Prop) : Expr → Prop
  | .symbol span s => P span s
  | .assign _ target value | .compound _ target _ value => target.Refers P ∧ value.Refers P
  | .binary _ _ left right _ => left.Refers P ∧ right.Refers P
  | .unary _ _ operand _ | .convert _ _ operand _ _ => operand.Refers P
  | .call _ _ args _ => refersAll P args
  | .index _ target index _ => target.Refers P ∧ index.Refers P
  | .length _ target => target.Refers P
  | .newArray _ _ size _ => size.Refers P
  | .invalid _ children => refersAll P children
  | .literal _ _ _ | .group _ _ _ | .typeName _ _ => True

def refersAll (P : Span → Symbol → Prop) : List Expr → Prop
  | [] => True
  | e :: rest => e.Refers P ∧ refersAll P rest

end

attribute [local simp] Expr.Refers refersAll

theorem refersAll_iff {P : Span → Symbol → Prop} {es : List Expr} :
    refersAll P es ↔ ∀ e ∈ es, e.Refers P := by
  induction es with
  | nil => simp [refersAll]
  | cons e es ih => simp [refersAll, ih]

end Bound

namespace Binder

open TypedScript.Binding TypedScript.Bound

theorem bind_eq_ok {α β : Type} {m : Binder α} {f : α → Binder β} {s s' : State} {b : β}
    (h : (m >>= f) s = .ok (b, s')) : ∃ a s₁, m s = .ok (a, s₁) ∧ f a s₁ = .ok (b, s') := by
  change (m s >>= fun p => f p.1 p.2) = _ at h
  cases hm : m s with
  | error d =>
    rw [hm] at h
    cases h
  | ok p =>
    rw [hm] at h
    exact ⟨p.1, p.2, rfl, h⟩

theorem lift_eq_ok {α : Type} {e : Except Defect α} {s s' : State} {a : α}
    (h : (liftM e : Binder α) s = .ok (a, s')) : e = .ok a ∧ s' = s := by
  cases e with
  | error d => cases h
  | ok b =>
    cases h
    exact ⟨rfl, rfl⟩

/-- What holds of a state goes on to hold while expressions are bound. -/
class Stable (I : State → Prop) : Prop where
  report : ∀ {s} (d : Diagnostic), I s → I { s with report := s.report.add d }
  registry : ∀ {s t u r}, s.registry.arrayOf t = .ok (u, r) → I s → I { s with registry := r }
  reads : ∀ {s} (ids : List SymbolId), I s → I { s with context := { s.context with reads := ids } }

/-- A step of binding keeps what holds of the state, and what it returns is as said. -/
def Preserves {α : Type} (I : State → Prop) (m : Binder α) (Q : α → Prop) : Prop :=
  ∀ s a s', I s → m s = .ok (a, s') → I s' ∧ Q a

/-- What the names mean wherever the state is as said. -/
def Denotes (I : State → Prop) (P : Span → Symbol → Prop) (names : List (Span × String)) : Prop :=
  ∀ p ∈ names, ∀ s sym, I s → s.scope.lookup? p.2 = some sym → P p.1 sym

theorem denotes_append {I : State → Prop} {P : Span → Symbol → Prop} {a b : List (Span × String)} :
    Denotes I P (a ++ b) ↔ Denotes I P a ∧ Denotes I P b :=
  List.forall_mem_append

section

variable {α β : Type} {I : State → Prop} {P : Span → Symbol → Prop}

namespace Preserves

theorem pure {a : α} {Q : α → Prop} (h : Q a) : Preserves I (Pure.pure a) Q := by
  intro s b s' hs hrun
  cases hrun
  exact ⟨hs, h⟩

theorem bind {m : Binder α} {f : α → Binder β} {Q : α → Prop} {R : β → Prop}
    (hm : Preserves I m Q) (hf : ∀ a, Q a → Preserves I (f a) R) : Preserves I (m >>= f) R := by
  intro s b s' hs hrun
  obtain ⟨a, s₁, hrun₁, hrun₂⟩ := bind_eq_ok hrun
  obtain ⟨hs₁, hq⟩ := hm s a s₁ hs hrun₁
  exact hf a hq s₁ b s' hs₁ hrun₂

theorem get_bind {k : State → Binder β} {R : β → Prop}
    (h : ∀ s, I s → Preserves I (k s) R) : Preserves I (get >>= k) R :=
  fun s b s' hs hrun => h s hs s b s' hs hrun

theorem throw {d : Defect} {Q : α → Prop} : Preserves I (MonadExcept.throw d) Q := by
  intro s a s' _ hrun
  cases hrun

theorem ask (f : Registry → Except Defect α) : Preserves I (Binder.ask f) fun _ => True := by
  intro s a s' hs hrun
  obtain ⟨s₁, s₂, hget, hrun⟩ := bind_eq_ok hrun
  cases hget
  obtain ⟨-, rfl⟩ := lift_eq_ok hrun
  exact ⟨hs, trivial⟩

theorem fullName (t : TypeId) : Preserves I (Binder.fullName t) fun _ => True := ask _

theorem refers_invalid {span : Span} {es : List Expr}
    (h : ∀ e ∈ es, e.Refers P) : (Expr.invalid span es).Refers P := by
  simp only [Expr.Refers, refersAll_iff]
  exact h

theorem refers_retype? {e v : Expr} {t : TypeId} (h : e.retype? t = some v) :
    v.Refers P := by
  unfold Expr.retype? at h
  split at h
  · obtain ⟨l, -, rfl⟩ := Option.map_eq_some_iff.mp h
    simp only [Expr.Refers]
  · cases h

theorem coerce {e : Expr} (he : e.Refers P) (param : TypeId) :
    Preserves I (Binder.coerce e param) (Expr.Refers P) := by
  unfold Binder.coerce
  split
  · exact pure he
  · exact bind (ask _) fun _ _ => pure (by simpa only [Expr.Refers] using he)

theorem coerceAll {es : List Expr} (hes : ∀ e ∈ es, e.Refers P) (params : List TypeId) :
    Preserves I (Binder.coerceAll es params) fun vs => ∀ v ∈ vs, v.Refers P := by
  induction es generalizing params with
  | nil => exact pure (by simp)
  | cons e es ih =>
    rw [List.forall_mem_cons] at hes
    cases params with
    | nil => exact pure (by simp)
    | cons p params =>
      refine bind (coerce hes.1 p) fun v hv => bind (ih hes.2 params) fun vs hvs => ?_
      exact pure (List.forall_mem_cons.mpr ⟨hv, hvs⟩)

theorem fallback? (op : BinaryOperator) :
    Preserves I (Binder.fallback? op) fun _ => True := by
  unfold Binder.fallback?
  split
  · exact get_bind fun _ _ => pure trivial
  · exact get_bind fun _ _ => pure trivial
  · exact get_bind fun _ _ => pure trivial
  · exact pure trivial

theorem negation : Preserves I Binder.negation fun _ => True := by
  unfold Binder.negation
  exact get_bind fun _ _ => bind (ask _) fun _ _ => pure trivial

variable [Stable I]

theorem complain (span : Span) (c : Complaint) :
    Preserves I (Binder.complain span c) fun _ => True := by
  intro s a s' hs hrun
  cases hrun
  exact ⟨Stable.report _ hs, trivial⟩

theorem markRead (sym : Symbol) : Preserves I (Binder.markRead sym) fun _ => True := by
  intro s a s' hs hrun
  cases hrun
  dsimp only
  split
  · exact ⟨hs, trivial⟩
  · exact ⟨Stable.reads _ hs, trivial⟩

theorem arrayOf (t : TypeId) : Preserves I (Binder.register (·.arrayOf t)) fun _ => True := by
  intro s a s' hs hrun
  change (liftM (s.registry.arrayOf t) >>= fun p => (do
    modify fun s => { s with registry := p.2 }
    return p.1 : Binder TypeId)) s = _ at hrun
  obtain ⟨p, s₁, hlift, hset⟩ := bind_eq_ok hrun
  obtain ⟨hp, rfl⟩ := lift_eq_ok hlift
  cases hset
  exact ⟨Stable.registry hp hs, trivial⟩

theorem arrays (n : Nat) (t : TypeId) :
    Preserves I (Binder.resolveType.arrays n t) fun _ => True := by
  induction n generalizing t with
  | zero => exact pure trivial
  | succ n ih => exact bind (arrayOf t) fun u _ => ih u

theorem resolveType (t : Parsed.TypeName) :
    Preserves I (Binder.resolveType t) fun _ => True := by
  unfold Binder.resolveType
  split
  · exact bind (complain _ _) fun _ _ => pure trivial
  · split
    · exact bind (complain _ _) fun _ _ => pure trivial
    · exact arrays _ _

theorem valueType (t : Parsed.TypeName) :
    Preserves I (Binder.valueType t) fun _ => True := by
  unfold Binder.valueType
  refine bind (resolveType t) fun u _ => ?_
  split
  · exact bind (complain _ _) fun _ _ => pure trivial
  · exact pure trivial

/-! Conversions -/

theorem convertImplicit {e : Expr} (he : e.Refers P) (target : TypeId) (span : Span) :
    Preserves I (Binder.convertImplicit e target span) (Expr.Refers P) := by
  unfold Binder.convertImplicit
  dsimp only
  split
  · exact pure he
  · split
    · next v hv => exact pure (refers_retype? hv)
    · refine bind (ask _) fun conversion _ => ?_
      split
      · exact pure (by simpa only [Expr.Refers] using he)
      · refine bind (fullName _) fun _ _ => bind (fullName _) fun _ _ => ?_
        exact bind (complain _ _) fun _ _ => pure (refers_invalid (by simpa using he))

/-! Operators and calls -/

theorem requireValue {e : Expr} (he : e.Refers P) :
    Preserves I (Binder.requireValue e) (Expr.Refers P) := by
  have hnone : ∀ span, Preserves I (Pure.pure (Expr.invalid span []))
      (Expr.Refers P) := fun span => pure (refers_invalid (by simp))
  unfold Binder.requireValue
  split
  · exact bind (complain _ _) fun _ _ => hnone _
  · exact bind (ask _) fun _ _ => bind (complain _ _) fun _ _ => hnone _
  · split
    · exact bind (fullName _) fun _ _ => bind (complain _ _) fun _ _ => hnone _
    · exact pure he
  · exact pure he

theorem complainAmbiguous (span : Span) (name : String) (args tied : List TypeId) :
    Preserves I (Binder.complainAmbiguous span name args tied) fun _ => True := by
  unfold Binder.complainAmbiguous
  split
  · exact bind (ask _) fun _ _ => bind (fullName _) fun _ _ => bind (fullName _) fun _ _ =>
      complain _ _
  · exact pure trivial

theorem resolveBinary (op : BinaryOperator) (args : List TypeId) (span : Span) :
    Preserves I (Binder.resolveBinary op args span) fun _ => True := by
  have hambiguous : ∀ tied, Preserves I
      (do Binder.complainAmbiguous span op.symbol args tied; return (none : Option TypeId))
      fun _ => True :=
    fun tied => bind (complainAmbiguous _ _ _ _) fun _ _ => pure trivial
  unfold Binder.resolveBinary
  refine get_bind fun _ _ => bind (ask _) fun outcome _ => ?_
  split
  · exact pure trivial
  · exact hambiguous _
  · refine bind (fallback? op) fun group? _ => ?_
    extract_lets finish
    have hfinish : ∀ outcome, Preserves I (finish outcome) fun _ => True := by
      intro outcome
      simp only [finish]
      split
      · exact pure trivial
      · exact hambiguous _
      · exact bind (ask _) fun _ _ => bind (complain _ _) fun _ _ => pure trivial
    split
    · exact bind (ask _) fun outcome _ => hfinish outcome
    · exact hfinish .notApplicable

theorem applyBinary (op : BinaryOperator) {left right : Expr} (hl : left.Refers P)
    (hr : right.Refers P) (span : Span) :
    Preserves I (Binder.applyBinary op left right span) (Expr.Refers P) := by
  have hboth : ∀ e ∈ [left, right], e.Refers P := by simpa using ⟨hl, hr⟩
  unfold Binder.applyBinary
  split
  · exact pure (refers_invalid hboth)
  · refine bind (resolveBinary _ _ _) fun c? _ => ?_
    split
    · exact pure (refers_invalid hboth)
    · refine bind (ask _) fun info _ => bind (coerceAll hboth _) fun operands hoperands => ?_
      have hcall : refersAll P operands := refersAll_iff.mpr hoperands
      split
      · refine pure ?_
        simpa [Expr.Refers] using hoperands
      · dsimp only
        split
        · exact bind negation fun n _ => pure (by simpa only [Expr.Refers] using hcall)
        · exact pure (by simpa only [Expr.Refers] using hcall)

theorem applyUnary (op : UnaryOperator) {operand : Expr} (ho : operand.Refers P)
    (span : Span) :
    Preserves I (Binder.applyUnary op operand span) (Expr.Refers P) := by
  have hinvalid : (Expr.invalid span [operand]).Refers P := refers_invalid (by simpa using ho)
  unfold Binder.applyUnary
  split
  · exact pure hinvalid
  · refine get_bind fun _ _ => bind (ask _) fun outcome _ => ?_
    split
    · refine bind (ask _) fun info _ => bind (coerce ho _) fun v hv => pure ?_
      simpa only [Expr.Refers] using hv
    · exact bind (complainAmbiguous _ _ _ _) fun _ _ => pure hinvalid
    · exact bind (fullName _) fun _ _ => bind (complain _ _) fun _ _ => pure hinvalid

theorem applyCompound (op : BinaryOperator) {target value : Expr} (ht : target.Refers P)
    (hv : value.Refers P) (span : Span) :
    Preserves I (Binder.applyCompound op target value span) (Expr.Refers P) := by
  unfold Binder.applyCompound
  dsimp only
  have hvalue : ((value.retype? target.type).getD value).Refers P := by
    cases h : value.retype? target.type with
    | none => exact hv
    | some v => exact refers_retype? h
  generalize (value.retype? target.type).getD value = v at hvalue
  have hboth : ∀ e ∈ [target, v], e.Refers P := by simpa using ⟨ht, hvalue⟩
  refine bind (resolveBinary _ _ _) fun c? _ => ?_
  split
  · exact pure (refers_invalid hboth)
  · refine bind (ask _) fun info _ => bind (coerceAll hboth _) fun operands hoperands => ?_
    have hlast : (operands.getLast?.getD v).Refers P := by
      cases h : operands.getLast? with
      | none => exact hvalue
      | some e => exact hoperands e (List.mem_of_getLast? h)
    have hfinish : ∀ c (storable : Bool), Preserves I (if storable then
        Pure.pure (Expr.compound span target c (operands.getLast?.getD v)) else do
          Binder.complain span (.cannotStore op.symbol (← Binder.fullName info.result)
            (← Binder.fullName target.type))
          return Expr.invalid span [target, v]) (Expr.Refers P) := by
      intro c storable
      split
      · exact pure (by simpa only [Expr.Refers] using ⟨ht, hlast⟩)
      · exact bind (fullName _) fun _ _ => bind (fullName _) fun _ _ =>
          bind (complain _ _) fun _ _ => pure (refers_invalid hboth)
    split
    · exact hfinish _ true
    · exact bind (ask _) fun storable _ => hfinish _ storable

theorem applyAssignment (op : Option BinaryOperator) {target value : Expr}
    (ht : target.Refers P) (hv : value.Refers P) (targetSpan valueSpan span : Span) :
    Preserves I (Binder.applyAssignment op target value targetSpan valueSpan span)
      (Expr.Refers P) := by
  have hinvalid : (Expr.invalid span [target, value]).Refers P :=
    refers_invalid (by simpa using ⟨ht, hv⟩)
  unfold Binder.applyAssignment
  split
  · exact pure hinvalid
  · split
    · exact bind (complain _ _) fun _ _ => pure hinvalid
    · split
      · exact pure hinvalid
      · split
        · refine bind (convertImplicit hv _ _) fun v hv => pure ?_
          simpa only [Expr.Refers] using ⟨ht, hv⟩
        · exact applyCompound _ ht hv _

theorem applyCall {callee : Expr} {args : List Expr} (hargs : ∀ e ∈ args, e.Refers P)
    (calleeSpan span : Span) :
    Preserves I (Binder.applyCall callee args calleeSpan span) (Expr.Refers P) := by
  have hinvalid : (Expr.invalid span args).Refers P := refers_invalid hargs
  unfold Binder.applyCall
  split
  · exact pure hinvalid
  · split
    · split
      · exact pure hinvalid
      · refine bind (ask _) fun outcome _ => ?_
        split
        · refine bind (ask _) fun info _ => bind (coerceAll hargs _) fun vs hvs => pure ?_
          simpa only [Expr.Refers, refersAll_iff] using hvs
        · exact bind (complainAmbiguous _ _ _ _) fun _ _ => pure hinvalid
        · exact bind (ask _) fun _ _ => bind (complain _ _) fun _ _ => pure hinvalid
    · exact bind (fullName _) fun _ _ => bind (complain _ _) fun _ _ => pure hinvalid

/-! Expressions -/

theorem refers_intLiteral (P : Span → Symbol → Prop) (span : Span) (v : UInt64) :
    (intLiteral span v).Refers P := by
  unfold intLiteral
  split <;> simp only [Expr.Refers]

theorem negativeLiteral (span : Span) (v : UInt64) :
    Preserves I (Binder.negativeLiteral span v) (Expr.Refers P) := by
  unfold Binder.negativeLiteral
  split
  · exact bind (complain _ _) fun _ _ => pure (refers_invalid (by simp))
  · exact pure (by simp only [Expr.Refers])

/-- A name refers to what it means in the open scopes. -/
theorem bindName (span : Span) (name : String) (read : Bool)
    (hname : ∀ s sym, I s → s.scope.lookup? name = some sym → P span sym) :
    Preserves I (Binder.bindName span name read) (Expr.Refers P) := by
  unfold Binder.bindName
  refine get_bind fun s hs => ?_
  split
  · next sym hsym =>
    have href : (Expr.symbol span sym).Refers P := by
      simpa only [Expr.Refers] using hname s sym hs hsym
    split
    · exact pure (by simp only [Expr.Refers])
    · split
      · exact bind (markRead _) fun _ _ => pure href
      · exact pure href
  · split
    · exact pure (by simp only [Expr.Refers])
    · exact bind (complain _ _) fun _ _ => pure (refers_invalid (by simp))

theorem applyIndex {target index : Expr} (ht : target.Refers P)
    (hi : index.Refers P) (targetSpan span : Span) :
    Preserves I (Binder.applyIndex target index targetSpan span)
      (Expr.Refers P) := by
  have hinvalid : (Expr.invalid span [target, index]).Refers P :=
    refers_invalid (by simpa using ⟨ht, hi⟩)
  have hindex : ∀ t, (Expr.index span target index t).Refers P := by
    intro t
    simpa only [Expr.Refers] using ⟨ht, hi⟩
  unfold Binder.applyIndex
  split
  · exact pure hinvalid
  · dsimp only
    refine bind (ask _) fun kind _ => ?_
    split
    · exact bind (ask _) fun t _ => pure (hindex t)
    · split
      · exact pure (hindex _)
      · exact bind (fullName _) fun _ _ => bind (complain _ _) fun _ _ => pure hinvalid

theorem applyMember {target : Expr} (ht : target.Refers P) (name : String) (span : Span) :
    Preserves I (Binder.applyMember target name span) (Expr.Refers P) := by
  have hinvalid : (Expr.invalid span [target]).Refers P := refers_invalid (by simpa using ht)
  unfold Binder.applyMember
  split
  · exact pure hinvalid
  · dsimp only
    refine bind (ask _) fun kind _ => ?_
    split
    · exact pure (by simpa only [Expr.Refers] using ht)
    · exact bind (fullName _) fun _ _ => bind (complain _ _) fun _ _ => pure hinvalid

theorem applyCast {operand : Expr} (ho : operand.Refers P) (target : TypeId) (span : Span) :
    Preserves I (Binder.applyCast operand target span) (Expr.Refers P) := by
  have hone : ∀ e ∈ [operand], e.Refers P := by simpa using ho
  unfold Binder.applyCast
  split
  · exact pure (refers_invalid hone)
  · refine bind (ask _) fun kind _ => ?_
    split
    · exact bind (fullName _) fun _ _ => bind (fullName _) fun _ _ =>
        bind (complain _ _) fun _ _ => pure (refers_invalid hone)
    · dsimp only
      refine get_bind fun _ _ => bind (ask _) fun info _ => bind (coerceAll hone _) fun vs hvs => ?_
      exact pure (by simpa only [Expr.Refers, refersAll_iff] using hvs)
    · refine get_bind fun _ _ => ?_
      split
      · exact pure (by simpa only [Expr.Refers, refersAll_iff] using hone)
      · exact bind (ask _) fun _ _ => throw
    · exact pure (by simpa only [Expr.Refers] using ho)

theorem applyNewArray (element : TypeId) {size : Expr} (hs : size.Refers P) (span : Span) :
    Preserves I (Binder.applyNewArray element size span) (Expr.Refers P) := by
  unfold Binder.applyNewArray
  split
  · exact pure (refers_invalid (by simpa using hs))
  · refine bind (arrayOf _) fun t _ => pure ?_
    simpa only [Expr.Refers] using hs

mutual

/-- Every reference in a bound expression stands where a name was written that means the symbol. -/
theorem bindExpr : (e : Parsed.Expr) → Denotes I P e.names →
    Preserves I (Binder.bindExpr e) (Expr.Refers P)
  | .int span v, _ => by
    rw [Binder.bindExpr]
    exact pure (refers_intLiteral _ _ _)
  | .float _ _, _ | .string _ _, _ | .char _ _, _ | .bool _ _, _ => by
    rw [Binder.bindExpr]
    exact pure (by simp only [Expr.Refers])
  | .name span name, h => by
    rw [Binder.bindExpr]
    exact bindName _ _ _ (h (span, name) (by simp [Parsed.Expr.names]))
  | .assign span op target value, h => by
    rw [Parsed.Expr.names, denotes_append] at h
    have hrest : ∀ bound : Expr, bound.Refers P → Preserves I (do
        let rhs ← Binder.bindExpr value
        let rhs ← Binder.requireValue rhs
        Binder.applyAssignment op bound rhs target.span value.span span) (Expr.Refers P) := by
      intro bound hb
      refine bind (bindExpr value h.2) fun v hv => bind (requireValue hv) fun v hv => ?_
      exact applyAssignment op hb hv _ _ _
    rw [Binder.bindExpr.eq_def]
    dsimp only
    split
    · next span' name =>
      exact bind (bindName _ _ _ (h.1 (span', name) (by simp [Parsed.Expr.names]))) hrest
    · exact bind (bindExpr target h.1) hrest
  | .binary span op left right, h => by
    rw [Parsed.Expr.names, denotes_append] at h
    rw [Binder.bindExpr]
    refine bind (bindExpr left h.1) fun l hl => bind (requireValue hl) fun l hl => ?_
    refine bind (bindExpr right h.2) fun r hr => bind (requireValue hr) fun r hr => ?_
    exact applyBinary op hl hr span
  | .unary span op operand, h => by
    rw [Parsed.Expr.names] at h
    rw [Binder.bindExpr.eq_def]
    dsimp only
    split
    · exact negativeLiteral _ _
    · exact pure (by simp only [Expr.Refers])
    · refine bind (bindExpr operand h) fun v hv => bind (requireValue hv) fun v hv => ?_
      exact applyUnary op hv span
  | .call span callee args, h => by
    rw [Parsed.Expr.names, denotes_append] at h
    rw [Binder.bindExpr]
    refine bind (bindExpr callee h.1) fun _ _ => bind (bindValues args h.2) fun vs hvs => ?_
    exact applyCall hvs _ _
  | .index span target index, h => by
    rw [Parsed.Expr.names, denotes_append] at h
    rw [Binder.bindExpr]
    refine bind (bindExpr target h.1) fun t ht => bind (requireValue ht) fun t ht => ?_
    refine bind (bindExpr index h.2) fun i hi => bind (requireValue hi) fun i hi => ?_
    exact bind (convertImplicit hi _ _) fun i hi => applyIndex ht hi _ _
  | .member span target name, h => by
    rw [Parsed.Expr.names] at h
    rw [Binder.bindExpr]
    refine bind (bindExpr target h) fun t ht => bind (requireValue ht) fun t ht => ?_
    exact applyMember ht _ _
  | .cast span operand type, h => by
    rw [Parsed.Expr.names] at h
    rw [Binder.bindExpr]
    refine bind (bindExpr operand h) fun v hv => bind (requireValue hv) fun v hv => ?_
    exact bind (valueType type) fun t _ => applyCast hv t _
  | .newArray span element size, h => by
    rw [Parsed.Expr.names] at h
    rw [Binder.bindExpr]
    refine bind (valueType element) fun t _ => bind (bindExpr size h) fun v hv => ?_
    refine bind (requireValue hv) fun v hv => bind (convertImplicit hv _ _) fun v hv => ?_
    exact applyNewArray t hv _

theorem bindValues : (es : List Parsed.Expr) → Denotes I P (Parsed.namesAll es) →
    Preserves I (Binder.bindValues es) fun vs => ∀ v ∈ vs, v.Refers P
  | [], _ => by
    rw [Binder.bindValues]
    exact pure (by simp)
  | e :: rest, h => by
    rw [Parsed.namesAll, denotes_append] at h
    rw [Binder.bindValues]
    refine bind (bindExpr e h.1) fun v hv => bind (requireValue hv) fun v hv => ?_
    exact bind (bindValues rest h.2) fun vs hvs => pure (List.forall_mem_cons.mpr ⟨hv, hvs⟩)

end

theorem bindValue {e : Parsed.Expr} (h : Denotes I P e.names) :
    Preserves I (Binder.bindValue e) (Expr.Refers P) :=
  bind (bindExpr e h) fun _ hv => requireValue hv

theorem bindCondition {e : Parsed.Expr} (h : Denotes I P e.names) :
    Preserves I (Binder.bindCondition e) (Expr.Refers P) :=
  bind (bindValue h) fun _ hv => convertImplicit hv _ _

end Preserves

end

end Binder
end TypedScript
