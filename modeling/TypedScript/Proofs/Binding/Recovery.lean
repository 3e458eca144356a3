import TypedScript.Proofs.Binding.Lockstep

/-!
# Errors do not cascade

If an expression is bound without errors and a part of it is replaced by a name that means nothing,
then the name is reported and nothing else. Before and behind the part the runs of binding with the
part and with the name do the same. Around it the second run has an expression of the error type, at
which every check is silent.
-/

namespace TypedScript

namespace Parsed

/-- An expression with a gap in the place of one of its parts. -/
inductive Context
  | gap
  | assigned (span : Span) (op : Option BinaryOperator) (c : Context) (value : Expr)
  | stored (span : Span) (op : Option BinaryOperator) (target : Expr) (c : Context)
  | left (span : Span) (op : BinaryOperator) (c : Context) (right : Expr)
  | right (span : Span) (op : BinaryOperator) (left : Expr) (c : Context)
  | operand (span : Span) (op : UnaryOperator) (c : Context)
  | callee (span : Span) (c : Context) (args : List Expr)
  | argument (span : Span) (callee : Expr) (before : List Expr) (c : Context) (behind : List Expr)
  | indexed (span : Span) (c : Context) (index : Expr)
  | index (span : Span) (target : Expr) (c : Context)
  | owner (span : Span) (c : Context) (name : String)
  | cast (span : Span) (c : Context) (type : TypeName)
  | size (span : Span) (element : TypeName) (c : Context)

/-- The expression with the gap filled. -/
def Context.fill (part : Expr) : Context → Expr
  | gap => part
  | assigned span op c value => .assign span op (c.fill part) value
  | stored span op target c => .assign span op target (c.fill part)
  | left span op c e => .binary span op (c.fill part) e
  | right span op e c => .binary span op e (c.fill part)
  | operand span op c => .unary span op (c.fill part)
  | callee span c args => .call span (c.fill part) args
  | argument span f before c behind => .call span f (before ++ c.fill part :: behind)
  | indexed span c e => .index span (c.fill part) e
  | index span e c => .index span e (c.fill part)
  | owner span c name => .member span (c.fill part) name
  | cast span c type => .cast span (c.fill part) type
  | size span element c => .newArray span element (c.fill part)

end Parsed

namespace Binder

open TypedScript.Binding TypedScript.Bound

section

variable {params : List Symbol} {base s t : State}

def IsBroken (_ _ : Registry) (_ e' : Expr) : Prop := ∃ span children, e' = .invalid span children

namespace Mirrors

/-- The error type at which checks are silent. -/
theorem isError_of_isBroken {r r' : Registry} {e e' : Expr} (h : IsBroken r r' e e') :
    e'.isError = true := by
  obtain ⟨span, children, rfl⟩ := h
  rfl

/-- Nothing is reported where the second step rejects at once what is broken. -/
theorem brokenly {m m' : Binder Expr} [Steps m] (span : Span) (children : List Expr)
    (h : m' t = .ok (.invalid span children, t)) : Mirrors s t m m' [] IsBroken :=
  ignoring h (Enlarges.refl t) (by simp) fun _ _ => ⟨span, children, rfl⟩

theorem requireValue_broken {e e' : Expr} {r r' : Registry} (h : IsBroken r r' e e') :
    Mirrors s t (Binder.requireValue e) (Binder.requireValue e') [] IsBroken := by
  obtain ⟨span, children, rfl⟩ := h
  exact brokenly span children rfl

theorem convertImplicit_broken {e e' : Expr} {r r' : Registry} (h : IsBroken r r' e e')
    (a b : TypeId) (span span' : Span) :
    Mirrors s t (Binder.convertImplicit e a span) (Binder.convertImplicit e' b span') []
      IsBroken := by
  obtain ⟨span, children, rfl⟩ := h
  refine brokenly span children ?_
  simp only [Binder.convertImplicit, Expr.type, decide_true, Bool.or_true, Bool.true_or, if_true]
  rfl

variable {d : List Diagnostic}

/-- A broken argument makes a call broken. -/
theorem applyCall_broken (hs : Enlarges base s) (ht : Enlarges base t) {f f' : Expr}
    (hf : Similar base.registry s.registry t.registry f f') {args args' : List Expr}
    (ha : args'.any Expr.isError) (calleeSpan calleeSpan' span : Span) :
    Mirrors s t (Binder.applyCall f args calleeSpan span)
      (Binder.applyCall f' args' calleeSpan' span) [] IsBroken := by
  by_cases herror : f'.isError
  · refine brokenly span args' ?_
    simp only [Binder.applyCall, herror, if_true]
    rfl
  · have hname : f.isError = false := by simpa [isError_eq hs ht hf] using herror
    have hreject : (∀ span name g, f ≠ .group span name g) → Mirrors s t
        (Binder.applyCall f args calleeSpan span) (Binder.applyCall f' args' calleeSpan' span) []
        IsBroken := by
      intro hgroup
      unfold Binder.applyCall
      rw [hname]
      cases f with
      | group span name g => exact absurd rfl (hgroup span name g)
      | _ => exact ask_left fun _ _ => complain _
    cases hf with
    | computed _ _ _ hf hf' =>
      refine hreject ?_
      rintro _ _ _ rfl
      cases hf
    | same hold =>
      cases f with
      | group span' name g =>
        refine brokenly span args' ?_
        simp only [Binder.applyCall, hname, ha, if_true]
        rfl
      | _ => exact hreject (by simp)

theorem applyAssignment_broken (hs : Enlarges base s) (ht : Enlarges base t)
    (op : Option BinaryOperator) {e e' v v' : Expr}
    (he : Similar base.registry s.registry t.registry e e') {r r' : Registry}
    (hv : IsBroken r r' v v') (targetSpan targetSpan' valueSpan valueSpan' span : Span) :
    Mirrors s t (Binder.applyAssignment op e v targetSpan valueSpan span)
      (Binder.applyAssignment op e' v' targetSpan' valueSpan' span) [] IsBroken := by
  by_cases hcat : e.isError ∨ e.category = .modifiable
  · refine brokenly span [e', v'] ?_
    rw [isError_eq hs ht he, he.category] at hcat
    unfold Binder.applyAssignment
    rw [isError_of_isBroken hv]
    obtain herror | hcat := hcat
    · rw [herror]
      rfl
    · rw [hcat]
      split <;> rfl
  · rw [not_or, Bool.not_eq_true] at hcat
    unfold Binder.applyAssignment
    rw [hcat.1, if_neg (by simp), if_pos hcat.2]
    exact complain _

section

variable {name : String} (hlookup : base.scope.lookup? name = none)
  (hname : Builtin.ofName? name = none)
include hlookup hname

theorem run_bindName (span : Span) (ht : Enlarges base t) (read : Bool) :
    Binder.bindName span name read t = .ok (.invalid span [],
      { t with report := t.report.add ((Complaint.undeclared name).diagnostic span) }) := by
  have hnone : t.scope.lookup? name = none := by rw [ht.scope, hlookup]
  rw [Binder.bindName, run_bind (run_get t), hnone, hname]
  rfl

/-- A name that means nothing is reported. -/
theorem bindName_broken {m : Binder Expr} [Steps m] (span : Span) (ht : Enlarges base t) (read : Bool) :
    Mirrors s t m (Binder.bindName span name read)
      [(Complaint.undeclared name).diagnostic span] IsBroken :=
  ignoring (run_bindName hlookup hname span ht read) ⟨rfl, rfl, rfl, Registry.AddsArrays.refl _⟩
    (by simp [Report.add]) fun _ _ => ⟨span, [], rfl⟩

/-- An operator before a name that means nothing. -/
theorem unary_broken {m : Binder Expr} [Steps m] (span : Span) (ht : Enlarges base t) (at' : Span)
    (op : UnaryOperator) :
    Mirrors s t m (Binder.bindExpr (.unary at' op (.name span name)))
      [(Complaint.undeclared name).diagnostic span] IsBroken := by
  have hrun := run_bindName hlookup hname span ht true
  have hunary : Binder.bindExpr (.unary at' op (.name span name)) t =
      .ok (.invalid at' [.invalid span []],
        { t with report := t.report.add ((Complaint.undeclared name).diagnostic span) }) := by
    rw [bindExpr_unary _ _ (by simp) (by simp), Binder.bindExpr.eq_def (.name span name),
      run_bind hrun]
    rfl
  exact ignoring hunary ⟨rfl, rfl, rfl, Registry.AddsArrays.refl _⟩ (by simp [Report.add])
    fun _ _ => ⟨at', _, rfl⟩

omit hlookup hname in
/-- Of the arguments of a call one is broken. -/
theorem bindValues_broken (hbase : Sound params base) {e e' : Parsed.Expr}
    (h : ∀ {s t : State}, Enlarges base s → Enlarges base t →
      Mirrors s t (Binder.bindExpr e) (Binder.bindExpr e') d IsBroken)
    (before behind : List Parsed.Expr) {s t : State} (hs : Enlarges base s) (ht : Enlarges base t) :
    Mirrors s t (Binder.bindValues (before ++ e :: behind))
      (Binder.bindValues (before ++ e' :: behind)) d fun _ _ _ vs => vs.any Expr.isError := by
  induction before generalizing s t with
  | nil =>
    rw [List.nil_append, List.nil_append, Binder.bindValues, Binder.bindValues]
    refine bind_quietly (h hs ht) ?_
    intro v v' s₁ t₁ hs₁ ht₁ hv
    refine bind (requireValue_broken hv) ?_
    intro v v' s₂ t₂ hs₂ ht₂ hv
    refine bind (bindValues hbase behind ((hs.trans hs₁).trans hs₂) ((ht.trans ht₁).trans ht₂)) ?_
    intro vs vs' s₃ t₃ hs₃ ht₃ _
    exact pure (by simp [isError_of_isBroken hv])
  | cons b before ih =>
    rw [List.cons_append, List.cons_append, Binder.bindValues, Binder.bindValues]
    refine bind (bindExpr hbase b hs ht) ?_
    intro v v' s₁ t₁ hs₁ ht₁ hv
    refine bind (requireValue hv) ?_
    intro v v' s₂ t₂ hs₂ ht₂ _
    refine bind_quietly (ih ((hs.trans hs₁).trans hs₂) ((ht.trans ht₁).trans ht₂)) ?_
    intro vs vs' s₃ t₃ hs₃ ht₃ hvs
    exact pure (by simp [hvs])

/-- Around a name that means nothing only the name is reported. -/
theorem bindExpr_fill (hbase : Sound params base) (span : Span) (part : Parsed.Expr)
    (c : Parsed.Context) {s t : State} (hs : Enlarges base s) (ht : Enlarges base t) :
    Mirrors s t (Binder.bindExpr (c.fill part)) (Binder.bindExpr (c.fill (.name span name)))
      [(Complaint.undeclared name).diagnostic span] IsBroken := by
  induction c generalizing s t with
  | gap =>
    simp only [Parsed.Context.fill]
    rw [Binder.bindExpr.eq_def (.name span name)]
    exact bindName_broken hlookup hname span ht true
  | assigned at' op c value ih =>
    simp only [Parsed.Context.fill]
    rw [bindExpr_assign, bindExpr_assign]
    have htarget : Mirrors s t (bindTarget op (c.fill part)) (bindTarget op (c.fill (.name span name)))
        [(Complaint.undeclared name).diagnostic span] IsBroken := by
      cases c with
      | gap => exact bindName_broken hlookup hname span ht _
      | _ => exact ih hs ht
    refine bind_quietly htarget ?_
    intro e e' s₁ t₁ hs₁ ht₁ he
    refine bind (bindExpr hbase value (hs.trans hs₁) (ht.trans ht₁)) ?_
    intro v v' s₂ t₂ hs₂ ht₂ hv
    refine bind (requireValue hv) ?_
    intro v v' s₃ t₃ hs₃ ht₃ hv
    refine brokenly at' [e', v'] ?_
    simp only [Binder.applyAssignment, isError_of_isBroken he, if_true]
    rfl
  | stored at' op target c ih =>
    simp only [Parsed.Context.fill]
    rw [bindExpr_assign, bindExpr_assign]
    refine bind (target_of hbase hs ht op target (bindExpr hbase target hs ht)) ?_
    intro e e' s₁ t₁ hs₁ ht₁ he
    refine bind_quietly (ih (hs.trans hs₁) (ht.trans ht₁)) ?_
    intro v v' s₂ t₂ hs₂ ht₂ hv
    refine bind (requireValue_broken hv) ?_
    intro v v' s₃ t₃ hs₃ ht₃ hv
    have hs' := hs₂.trans hs₃
    have ht' := ht₂.trans ht₃
    exact applyAssignment_broken ((hs.trans hs₁).trans hs') ((ht.trans ht₁).trans ht') op
      (he.mono hs'.registry ht'.registry) hv _ _ _ _ _
  | left at' op c right ih =>
    simp only [Parsed.Context.fill]
    rw [Binder.bindExpr, Binder.bindExpr]
    refine bind_quietly (ih hs ht) ?_
    intro l l' s₁ t₁ hs₁ ht₁ hl
    refine bind (requireValue_broken hl) ?_
    intro l l' s₂ t₂ hs₂ ht₂ hl
    refine bind (bindExpr hbase right ((hs.trans hs₁).trans hs₂) ((ht.trans ht₁).trans ht₂)) ?_
    intro r r' s₃ t₃ hs₃ ht₃ hr
    refine bind (requireValue hr) ?_
    intro r r' s₄ t₄ hs₄ ht₄ hr
    refine brokenly at' [l', r'] ?_
    simp only [Binder.applyBinary, isError_of_isBroken hl, Bool.true_or, if_true]
    rfl
  | right at' op left c ih =>
    simp only [Parsed.Context.fill]
    rw [Binder.bindExpr, Binder.bindExpr]
    refine bind (bindExpr hbase left hs ht) ?_
    intro l l' s₁ t₁ hs₁ ht₁ hl
    refine bind (requireValue hl) ?_
    intro l l' s₂ t₂ hs₂ ht₂ hl
    refine bind_quietly (ih ((hs.trans hs₁).trans hs₂) ((ht.trans ht₁).trans ht₂)) ?_
    intro r r' s₃ t₃ hs₃ ht₃ hr
    refine bind (requireValue_broken hr) ?_
    intro r r' s₄ t₄ hs₄ ht₄ hr
    refine brokenly at' [l', r'] ?_
    simp only [Binder.applyBinary, isError_of_isBroken hr, Bool.or_true, if_true]
    rfl
  | operand at' op c ih =>
    -- a minus and a number are bound as one, so the number itself may be what is replaced
    by_cases hgap : c = .gap
    · subst hgap
      exact unary_broken hlookup hname span ht at' op
    · have hfill : ∀ e, (∀ span v, c.fill e ≠ .int span v) ∧ ∀ span v, c.fill e ≠ .float span v := by
        intro e
        cases c with
        | gap => exact absurd rfl hgap
        | _ => exact ⟨by simp [Parsed.Context.fill], by simp [Parsed.Context.fill]⟩
      simp only [Parsed.Context.fill]
      rw [bindExpr_unary _ _ (hfill part).1 (hfill part).2, bindExpr_unary _ _ (hfill _).1 (hfill _).2]
      refine bind_quietly (ih hs ht) ?_
      intro e e' s₁ t₁ hs₁ ht₁ he
      refine bind (requireValue_broken he) ?_
      intro e e' s₂ t₂ hs₂ ht₂ he
      refine brokenly at' [e'] ?_
      simp only [Binder.applyUnary, isError_of_isBroken he, if_true]
      rfl
  | callee at' c args ih =>
    simp only [Parsed.Context.fill]
    rw [Binder.bindExpr, Binder.bindExpr]
    refine bind_quietly (ih hs ht) ?_
    intro f f' s₁ t₁ hs₁ ht₁ hf
    refine bind (bindValues hbase args (hs.trans hs₁) (ht.trans ht₁)) ?_
    intro vs vs' s₂ t₂ hs₂ ht₂ hvs
    refine brokenly at' vs' ?_
    simp only [Binder.applyCall, isError_of_isBroken hf, if_true]
    rfl
  | argument at' callee before c behind ih =>
    simp only [Parsed.Context.fill]
    rw [Binder.bindExpr, Binder.bindExpr]
    refine bind (bindExpr hbase callee hs ht) ?_
    intro f f' s₁ t₁ hs₁ ht₁ hf
    refine bind_quietly (bindValues_broken hbase ih before behind (hs.trans hs₁) (ht.trans ht₁)) ?_
    intro vs vs' s₂ t₂ hs₂ ht₂ hvs
    exact applyCall_broken ((hs.trans hs₁).trans hs₂) ((ht.trans ht₁).trans ht₂)
      (hf.mono hs₂.registry ht₂.registry) hvs _ _ _
  | indexed at' c index ih =>
    simp only [Parsed.Context.fill]
    rw [Binder.bindExpr, Binder.bindExpr]
    refine bind_quietly (ih hs ht) ?_
    intro e e' s₁ t₁ hs₁ ht₁ he
    refine bind (requireValue_broken he) ?_
    intro e e' s₂ t₂ hs₂ ht₂ he
    have hs₂ := (hs.trans hs₁).trans hs₂
    have ht₂ := (ht.trans ht₁).trans ht₂
    refine bind (bindExpr hbase index hs₂ ht₂) ?_
    intro i i' s₃ t₃ hs₃ ht₃ hi
    refine bind (requireValue hi) ?_
    intro i i' s₄ t₄ hs₄ ht₄ hi
    refine bind (convertImplicit ((hs₂.trans hs₃).trans hs₄) ((ht₂.trans ht₃).trans ht₄) hi
      (.builtin _) _) ?_
    intro i i' s₅ t₅ hs₅ ht₅ hi
    refine brokenly at' [e', i'] ?_
    simp only [Binder.applyIndex, isError_of_isBroken he, Bool.true_or, if_true]
    rfl
  | index at' target c ih =>
    simp only [Parsed.Context.fill]
    rw [Binder.bindExpr, Binder.bindExpr]
    refine bind (bindExpr hbase target hs ht) ?_
    intro e e' s₁ t₁ hs₁ ht₁ he
    refine bind (requireValue he) ?_
    intro e e' s₂ t₂ hs₂ ht₂ he
    refine bind_quietly (ih ((hs.trans hs₁).trans hs₂) ((ht.trans ht₁).trans ht₂)) ?_
    intro i i' s₃ t₃ hs₃ ht₃ hi
    refine bind (requireValue_broken hi) ?_
    intro i i' s₄ t₄ hs₄ ht₄ hi
    refine bind (convertImplicit_broken hi _ _ _ _) ?_
    intro i i' s₅ t₅ hs₅ ht₅ hi
    refine brokenly at' [e', i'] ?_
    simp only [Binder.applyIndex, isError_of_isBroken hi, Bool.or_true, if_true]
    rfl
  | owner at' c member ih =>
    simp only [Parsed.Context.fill]
    rw [Binder.bindExpr, Binder.bindExpr]
    refine bind_quietly (ih hs ht) ?_
    intro e e' s₁ t₁ hs₁ ht₁ he
    refine bind (requireValue_broken he) ?_
    intro e e' s₂ t₂ hs₂ ht₂ he
    refine brokenly at' [e'] ?_
    simp only [Binder.applyMember, isError_of_isBroken he, if_true]
    rfl
  | cast at' c type ih =>
    simp only [Parsed.Context.fill]
    rw [Binder.bindExpr, Binder.bindExpr]
    refine bind_quietly (ih hs ht) ?_
    intro e e' s₁ t₁ hs₁ ht₁ he
    refine bind (requireValue_broken he) ?_
    intro e e' s₂ t₂ hs₂ ht₂ he
    refine bind (valueType hbase ((hs.trans hs₁).trans hs₂) ((ht.trans ht₁).trans ht₂) type) ?_
    intro a b s₃ t₃ hs₃ ht₃ hab
    refine brokenly at' [e'] ?_
    simp only [Binder.applyCast, isError_of_isBroken he, Bool.true_or, if_true]
    rfl
  | size at' element c ih =>
    simp only [Parsed.Context.fill]
    rw [Binder.bindExpr, Binder.bindExpr]
    refine bind (valueType hbase hs ht element) ?_
    intro a b s₁ t₁ hs₁ ht₁ hab
    refine bind_quietly (ih (hs.trans hs₁) (ht.trans ht₁)) ?_
    intro e e' s₂ t₂ hs₂ ht₂ he
    refine bind (requireValue_broken he) ?_
    intro e e' s₃ t₃ hs₃ ht₃ he
    refine bind (convertImplicit_broken he _ _ _ _) ?_
    intro e e' s₄ t₄ hs₄ ht₄ he
    refine brokenly at' [e'] ?_
    simp only [Binder.applyNewArray, isError_of_isBroken he, Bool.or_true, if_true]
    rfl

end

end Mirrors

end

/-- If an expression is bound without an error, and a part of it is replaced by a name that is declared
nowhere and names no type, then that name is reported and nothing else. -/
theorem bindValue_reports_undeclared {params : List Symbol} {base : State}
    (hbase : Sound params base) (c : Parsed.Context) (part : Parsed.Expr) {e : Expr} {s : State}
    (hrun : bindValue (c.fill part) base = .ok (e, s))
    (herrors : s.report.errors = base.report.errors) (span : Span) {name : String}
    (hlookup : base.scope.lookup? name = none) (hname : Builtin.ofName? name = none) :
    ∃ e' s', bindValue (c.fill (.name span name)) base = .ok (e', s') ∧
      s'.report = base.report.add ((Complaint.undeclared name).diagnostic span) := by
  have hsilent : s.report = base.report := by
    obtain ⟨d, hd, -⟩ := Tells.bindValue clear_initial _ base e s hrun
    have hnil : d = [] := by
      simpa [Report.errors, hd.report, List.filter_eq_self.2 hd.errors] using herrors
    exact report_ext (by simpa [hnil] using hd.report)
  have hbroken := Mirrors.bind_quietly
    (Mirrors.bindExpr_fill hlookup hname hbase span part c (Enlarges.refl base) (Enlarges.refl base))
    fun e e' s t _ _ he => Mirrors.requireValue_broken (s := s) (t := t) he
  obtain ⟨e', s', hrun', -, -, hreport, -⟩ := hbroken e s hrun hsilent
  exact ⟨e', s', hrun', report_ext (by simpa [Report.add] using hreport)⟩

/-- In an addition to a variable the literal is replaced. -/
theorem bindValue_reports_undeclared_addend :
    ∃ e' s', bindValue (.assign default (some .add) (.name default "count") (.name default "other"))
        withCounter = .ok (e', s') ∧
      s'.report = withCounter.report.add ((Complaint.undeclared "other").diagnostic default) := by
  have hrun : ((bindValue (.assign default (some .add) (.name default "count") (.int default 1))
      withCounter).toOption.map fun p => p.2.report.errors) = some withCounter.report.errors := by
    decide +kernel
  obtain ⟨⟨e, s⟩, hok, herrors⟩ := Option.map_eq_some_iff.1 hrun
  have hok : bindValue (.assign default (some .add) (.name default "count") (.int default 1))
      withCounter = .ok (e, s) := by
    revert hok
    cases bindValue (.assign default (some .add) (.name default "count") (.int default 1))
        withCounter with
    | error d => exact nofun
    | ok p => exact fun h => congrArg Except.ok (Option.some.inj h)
  exact bindValue_reports_undeclared sound_withCounter
    (.stored default (some .add) (.name default "count") .gap) (.int default 1) hok herrors default
    (by decide) (by decide)

end Binder
end TypedScript
