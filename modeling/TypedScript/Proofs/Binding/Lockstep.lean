import TypedScript.Proofs.Binding.Mirrors

/-!
# Expressions are bound in the same way in both states

One lemma for each step of binding, from the types up to whole expressions.
-/

namespace TypedScript
namespace Binder

open TypedScript.Binding TypedScript.Bound

section

variable {params : List Symbol} {base s t : State} (hbase : Sound params base)
  (hs : Enlarges base s) (ht : Enlarges base t)

namespace Mirrors

/-! Types -/

include hbase hs ht

theorem arrayOf {a b : TypeId} (h : base.registry.Agree s.registry t.registry a b) :
    Mirrors s t (Binder.register (·.arrayOf a)) (Binder.register (·.arrayOf b)) []
      (base.registry.Agree) := by
  intro u s' hrun _
  obtain ⟨r, hr, rfl⟩ := Tells.register_eq_ok hrun
  obtain ⟨v, r', hr', hagree⟩ := h.arrayOf hs.registry ht.registry hbase.types.wellFormed hr
  have hrun' : Binder.register (·.arrayOf b) t = .ok (v, { t with registry := r' }) := by
    simp only [Binder.register, Bind.bind, StateT.bind, MonadState.get, getThe, MonadStateOf.get,
      StateT.get, Pure.pure, Except.pure, Except.bind, liftM, monadLift, MonadLift.monadLift,
      StateT.lift, hr']
    rfl
  exact ⟨v, _, hrun', ⟨rfl, rfl, rfl, Registry.addsArrays_arrayOf hr⟩,
    ⟨rfl, rfl, rfl, Registry.addsArrays_arrayOf hr'⟩, by simp, hagree⟩

theorem arrays (n : Nat) {a b : TypeId} (h : base.registry.Agree s.registry t.registry a b) :
    Mirrors s t (Binder.resolveType.arrays n a) (Binder.resolveType.arrays n b) []
      (base.registry.Agree) := by
  induction n generalizing s t a b with
  | zero => exact pure h
  | succ n ih =>
    refine bind (arrayOf hbase hs ht h) ?_
    intro u v s₁ t₁ hs₁ ht₁ huv
    exact ih (hs.trans hs₁) (ht.trans ht₁) huv

theorem resolveType (type : Parsed.TypeName) :
    Mirrors s t (Binder.resolveType type) (Binder.resolveType type) [] (base.registry.Agree) := by
  unfold Binder.resolveType
  split
  · exact complain _
  · split
    · exact complain _
    · exact arrays hbase hs ht _ (.old trivial)

theorem valueType (type : Parsed.TypeName) :
    Mirrors s t (Binder.valueType type) (Binder.valueType type) [] (base.registry.Agree) := by
  unfold Binder.valueType
  refine bind_of (fun u => ?_) (resolveType hbase hs ht type) ?_
  · split
    · exact steps_complain _ rfl
    · infer_instance
  intro u v s₁ t₁ hs₁ ht₁ huv
  have hvoid : u = .builtin .void ↔ v = .builtin .void :=
    huv.eq_old_iff (hs.trans hs₁).registry (ht.trans ht₁).registry trivial
  simp only [hvoid]
  split
  · exact complain _
  · exact pure huv

/-! Conversions -/

omit hbase in
theorem convertImplicit {e e' : Expr} (he : Similar base.registry s.registry t.registry e e')
    {a b : TypeId} (h : base.registry.Agree s.registry t.registry a b) (span : Span) :
    Mirrors s t (Binder.convertImplicit e a span) (Binder.convertImplicit e' b span) []
      (Similar base.registry) := by
  have heq : e.type = a ↔ e'.type = b := he.type.eq_iff hs.registry ht.registry h
  have herror : e.type = .error ↔ e'.type = .error :=
    he.type.eq_old_iff hs.registry ht.registry trivial
  have herror' : a = .error ↔ b = .error := h.eq_old_iff hs.registry ht.registry trivial
  unfold Binder.convertImplicit
  simp only [heq, herror, herror', he.retype? h]
  split
  · exact pure he
  · split
    · next v hv => exact pure (.same (isOld_of_retype? hv))
    · refine ask (he.type.classify hs.registry ht.registry h) fun k _ => ?_
      split
      · exact pure (.computed h rfl rfl rfl rfl)
      · exact ask_left fun _ _ => ask_left fun _ _ => complain _

omit hbase in
theorem coerce {e e' : Expr} (he : Similar base.registry s.registry t.registry e e')
    {p p' : TypeId} (hp : base.registry.Agree s.registry t.registry p p') :
    Mirrors s t (Binder.coerce e p) (Binder.coerce e' p') [] (Similar base.registry) := by
  have heq : e.type = p ↔ e'.type = p' := he.type.eq_iff hs.registry ht.registry hp
  unfold Binder.coerce
  simp only [heq]
  split
  · exact pure he
  · refine ask (he.type.classify hs.registry ht.registry hp) fun k _ => ?_
    exact pure (.computed hp rfl rfl rfl rfl)

omit hbase in
theorem coerceAll {es es' : List Expr}
    (he : List.Forall₂ (Similar base.registry s.registry t.registry) es es') {ps : List TypeId}
    (hp : ∀ p ∈ ps, Registry.IsOld base.registry.entries.size p) :
    Mirrors s t (Binder.coerceAll es ps) (Binder.coerceAll es' ps) []
      fun r r' => List.Forall₂ (Similar base.registry r r') := by
  induction es generalizing es' s t ps with
  | nil =>
    cases he
    cases ps <;> exact pure .nil
  | cons e es ih =>
    cases he with
    | @cons _ e' _ es' h hes =>
      cases ps with
      | nil => exact pure .nil
      | cons p ps =>
        rw [List.forall_mem_cons] at hp
        refine bind (coerce hs ht h (.old hp.1)) ?_
        intro a b s₁ t₁ hs₁ ht₁ hab
        have hes₁ := hes.imp fun _ _ h => h.mono hs₁.registry ht₁.registry
        refine bind (ih (hs.trans hs₁) (ht.trans ht₁) hes₁ hp.2) ?_
        intro as bs s₂ t₂ hs₂ ht₂ habs
        exact pure (.cons (hab.mono hs₂.registry ht₂.registry) habs)

/-! Operators and calls -/

omit hbase hs ht in
/-- Only a bare name or a call without a result is rejected. -/
theorem requireValue {e e' : Expr} (he : Similar base.registry s.registry t.registry e e') :
    Mirrors s t (Binder.requireValue e) (Binder.requireValue e') [] (Similar base.registry) := by
  have hrun : e'.isName = false → e'.isVoidCall = false →
      Binder.requireValue e' t = .ok (e', t) := by
    intro hname hvoid
    cases e' with
    | group | typeName => cases hname
    | call span callable args u =>
      have hu : u ≠ .builtin .void := by simpa [Expr.isVoidCall] using hvoid
      simp only [Binder.requireValue, hu, if_false]
      rfl
    | _ => rfl
  have hpass : e.isName = false → e.isVoidCall = false →
      Mirrors s t (Pure.pure e) (Binder.requireValue e') [] (Similar base.registry) := by
    intro hname hvoid a s' ha _
    cases ha
    exact ⟨e', t, hrun (he.isName ▸ hname) (he.isVoidCall ▸ hvoid), Enlarges.refl s,
      Enlarges.refl t, by simp, he⟩
  cases e with
  | group => exact complain _
  | typeName => exact ask_left fun _ _ => complain _
  | call span callable args u =>
    simp only [Binder.requireValue]
    split
    · exact ask_left fun _ _ => complain _
    · next hu => exact hpass rfl (by simpa [Expr.isVoidCall] using hu)
  | _ => exact hpass rfl rfl

omit hs ht in
theorem exists_callable_of_resolve (hs : Enlarges base s) {group c : TypeId} {args : List TypeId}
    (hg : Registry.IsOld base.registry.entries.size group)
    (h : s.registry.resolve group args = .ok (.resolved c)) :
    ∃ info, base.registry.callable c = .ok info := by
  obtain ⟨g, hgroup, hmem⟩ := (Registry.resolve_eq_ok h).1 c rfl
  have hbgroup : base.registry.group group = .ok g := by
    rw [Registry.group_eq_ok] at hgroup ⊢
    rwa [← Registry.get?_of_isOld hs.registry (Registry.AddsArrays.refl _) hg]
  exact hbase.types.wellFormed.group_members hbgroup c hmem

theorem fallback? (op : BinaryOperator) :
    ∃ o, Binder.fallback? op s = .ok (o, s) ∧ Binder.fallback? op t = .ok (o, t) ∧
      ∀ g, o = some g → Registry.IsOld base.registry.entries.size g := by
  obtain ⟨g, hconcat, -⟩ := hbase.loaded.concat.offers
  obtain ⟨g', hequals, -⟩ := hbase.loaded.equals.offers
  have hgroup : ∀ {u : State}, u.library = base.library →
      Binder.fallback? .add u = .ok (some base.library.concat, u) ∧
        Binder.fallback? .equal u = .ok (some base.library.equals, u) ∧
        Binder.fallback? .notEqual u = .ok (some base.library.equals, u) := by
    intro u hu
    rw [← hu]
    exact ⟨rfl, rfl, rfl⟩
  obtain ⟨hadd, hequal, hnotEqual⟩ := hgroup hs.library
  obtain ⟨hadd', hequal', hnotEqual'⟩ := hgroup ht.library
  cases op with
  | add =>
    refine ⟨_, hadd, hadd', ?_⟩
    rintro _ ⟨⟩
    exact Registry.isOld_of_group hconcat
  | equal =>
    refine ⟨_, hequal, hequal', ?_⟩
    rintro _ ⟨⟩
    exact Registry.isOld_of_group hequals
  | notEqual =>
    refine ⟨_, hnotEqual, hnotEqual', ?_⟩
    rintro _ ⟨⟩
    exact Registry.isOld_of_group hequals
  | _ => exact ⟨none, rfl, rfl, by simp⟩

/-- The callable that is chosen is one of the first registry. -/
theorem resolveBinary (op : BinaryOperator) {args args' : List TypeId}
    (ha : List.Forall₂ (base.registry.Agree s.registry t.registry) args args') (span : Span) :
    Mirrors s t (Binder.resolveBinary op args span) (Binder.resolveBinary op args' span) []
      fun _ _ o o' => ∃ c info, o = some c ∧ o' = some c ∧
        base.registry.callable c = .ok info := by
  obtain ⟨g, hg, -⟩ := hbase.offers (mem_all_binary op)
  have hold := Registry.isOld_of_group hg
  have heq : ∀ {group}, Registry.IsOld base.registry.entries.size group →
      s.registry.resolve group args = t.registry.resolve group args' := fun hgroup =>
    Registry.resolve_eq hs.registry ht.registry hbase.types.wellFormed hgroup ha
  unfold Binder.resolveBinary
  refine get_bind ?_
  rw [hs.intrinsics, ht.intrinsics]
  refine ask (heq hold) fun outcome houtcome => ?_
  cases outcome with
  | resolved c =>
    obtain ⟨info, hinfo⟩ := exists_callable_of_resolve hbase hs hold houtcome
    exact pure ⟨c, info, rfl, rfl, hinfo⟩
  | ambiguous tied => exact complainAmbiguous _ _ _ ((Registry.resolve_eq_ok houtcome).2 _ rfl)
  | notApplicable =>
    obtain ⟨group?, hrun, hrun', hgroup⟩ := fallback? hbase hs ht op
    refine bind_run hrun hrun' ?_
    cases group? with
    | none =>
      simp only [pure_bind]
      exact ask_left fun _ _ => complain _
    | some group =>
      refine ask (heq (hgroup group rfl)) fun outcome houtcome => ?_
      cases outcome with
      | resolved c =>
        obtain ⟨info, hinfo⟩ := exists_callable_of_resolve hbase hs (hgroup group rfl) houtcome
        exact pure ⟨c, info, rfl, rfl, hinfo⟩
      | ambiguous tied =>
        exact complainAmbiguous _ _ _ ((Registry.resolve_eq_ok houtcome).2 _ rfl)
      | notApplicable => exact ask_left fun _ _ => complain _

omit hbase in
theorem isError_eq {e e' : Expr} (he : Similar base.registry s.registry t.registry e e') :
    e.isError = e'.isError := by
  have herror : e.type = .error ↔ e'.type = .error :=
    he.type.eq_old_iff hs.registry ht.registry trivial
  simp only [Expr.isError, herror]

omit hbase in
/-- Calls whose results agree are similar. -/
theorem similar_call {a b : TypeId} (h : base.registry.Agree s.registry t.registry a b)
    (span : Span) (callable : TypeId) (args args' : List Expr) :
    Similar base.registry s.registry t.registry (.call span callable args a)
      (.call span callable args' b) := by
  have hvoid : a = .builtin .void ↔ b = .builtin .void :=
    h.eq_old_iff hs.registry ht.registry trivial
  refine .computed h ?_ ?_ rfl rfl
  · simp only [Expr.category, hvoid]
  · simp only [Expr.isVoidCall, hvoid]

omit hbase hs ht in
theorem coerceAll_eq_ok {es vs : List Expr} {ps : List TypeId} {s s' : State}
    (h : Binder.coerceAll es ps s = .ok (vs, s')) : s' = s := by
  have hcoerce : ∀ {e v : Expr} {p : TypeId} {s s' : State},
      Binder.coerce e p s = .ok (v, s') → s' = s := by
    intro e v p s s' h
    unfold Binder.coerce at h
    split at h
    · cases h
      rfl
    · obtain ⟨k, s₁, hask, hpure⟩ := bind_eq_ok h
      obtain ⟨-, rfl⟩ := Tells.ask_eq_ok hask
      cases hpure
      rfl
  induction es generalizing ps vs s with
  | nil =>
    cases h
    rfl
  | cons e es ih =>
    cases ps with
    | nil =>
      cases h
      rfl
    | cons p ps =>
      obtain ⟨v, s₁, hv, hrest⟩ := bind_eq_ok h
      obtain ⟨us, s₂, hus, hpure⟩ := bind_eq_ok hrest
      cases hpure
      exact (ih hus).trans (hcoerce hv)

/-- What is made of arguments that were adapted to a callable of the first registry. -/
theorem adapt {α : Type} {Q : Registry → Registry → α → α → Prop} {c : TypeId} {info : Callable}
    (hinfo : base.registry.callable c = .ok info) {es es' : List Expr}
    (he : List.Forall₂ (Similar base.registry s.registry t.registry) es es')
    {k k' : Callable → List Expr → Binder α}
    (h : ∀ vs vs' t₁, Enlarges t t₁ →
      List.Forall₂ (Similar base.registry s.registry t₁.registry) vs vs' →
      Registry.IsOld base.registry.entries.size info.result →
      Mirrors s t₁ (k info vs) (k' info vs') [] Q) :
    Mirrors s t (do
        let info ← Binder.ask (·.callable c)
        let vs ← Binder.coerceAll es info.params
        k info vs)
      (do
        let info ← Binder.ask (·.callable c)
        let vs ← Binder.coerceAll es' info.params
        k' info vs) [] Q := by
  have hwf := hbase.types.wellFormed
  obtain ⟨hcall, hparams, hresult⟩ := Registry.callable_of_adds hs.registry hwf hinfo
  obtain ⟨hcall', -⟩ := Registry.callable_of_adds ht.registry hwf hinfo
  refine ask (hcall.trans hcall'.symm) fun x hx => ?_
  cases hcall.symm.trans hx
  refine bind_still (fun vs s' h => coerceAll_eq_ok h) (coerceAll hs ht he hparams) ?_
  intro vs vs' t₁ ht₁ hvs
  exact h vs vs' t₁ ht₁ hvs hresult

omit hs ht in
theorem exists_negation {u : State} (hu : Enlarges base u) :
    ∃ n, Binder.negation u = .ok (n, u) := by
  obtain ⟨g, hg, -⟩ := hbase.offers (mem_all_unary .not)
  have hmembers : u.registry.members (u.intrinsics.group (.unary .not)) = .ok g.members := by
    rw [hu.intrinsics, Registry.members_of_isOld hu.registry (Registry.AddsArrays.refl _)
      (Registry.isOld_of_group hg), Registry.members_eq_ok hg]
  refine ⟨g.members.headD .absent, ?_⟩
  rw [Binder.negation, run_bind (run_get u), run_bind (run_ask hmembers)]
  rfl

theorem applyBinary (op : BinaryOperator) {l l' r r' : Expr}
    (hl : Similar base.registry s.registry t.registry l l')
    (hr : Similar base.registry s.registry t.registry r r') (span : Span) :
    Mirrors s t (Binder.applyBinary op l r span) (Binder.applyBinary op l' r' span) []
      (Similar base.registry) := by
  unfold Binder.applyBinary
  rw [isError_eq hs ht hl, isError_eq hs ht hr]
  split
  · exact pure (.computed (.old trivial) rfl rfl rfl rfl)
  · refine bind_of (fun c? => ?_)
      (resolveBinary hbase hs ht op (.cons hl.type (.cons hr.type .nil)) span) ?_
    · split
      · infer_instance
      · refine @steps_bind _ _ _ _ _ fun info => @steps_bind _ _ _ _ _ fun operands => ?_
        split <;> infer_instance
    · rintro _ _ s₁ t₁ hs₁ ht₁ ⟨c, info, rfl, rfl, hinfo⟩
      have hargs : List.Forall₂ (Similar base.registry s₁.registry t₁.registry) [l, r] [l', r'] :=
        .cons (hl.mono hs₁.registry ht₁.registry) (.cons (hr.mono hs₁.registry ht₁.registry) .nil)
      refine adapt hbase (hs.trans hs₁) (ht.trans ht₁) hinfo hargs ?_
      intro vs vs' t₂ ht₂ hvs hresult
      have ht₂ := (ht.trans ht₁).trans ht₂
      have hcall := similar_call (hs.trans hs₁) ht₂ (.old hresult) span c vs vs'
      have hcalled : Mirrors s₁ t₂
          (if op = .notEqual then do
            return .unary span (← Binder.negation) (Expr.call span c vs info.result)
              (.builtin .bool)
          else return Expr.call span c vs info.result)
          (if op = .notEqual then do
            return .unary span (← Binder.negation) (Expr.call span c vs' info.result)
              (.builtin .bool)
          else return Expr.call span c vs' info.result) [] (Similar base.registry) := by
        split
        · obtain ⟨n, hn⟩ := exists_negation hbase (hs.trans hs₁)
          obtain ⟨n', hn'⟩ := exists_negation hbase ht₂
          exact bind_run hn hn' (pure (.computed (.old trivial) rfl rfl rfl rfl))
        · exact pure hcall
      cases hi : info.isIntrinsic with
      | false => exact hcalled
      | true =>
        cases hvs with
        | nil => exact hcalled
        | cons hx hvs =>
          cases hvs with
          | nil => exact hcalled
          | cons hy hvs =>
            cases hvs with
            | nil => exact pure (.computed (.old hresult) rfl rfl rfl rfl)
            | cons hz hvs => exact hcalled

theorem applyUnary (op : UnaryOperator) {e e' : Expr}
    (he : Similar base.registry s.registry t.registry e e') (span : Span) :
    Mirrors s t (Binder.applyUnary op e span) (Binder.applyUnary op e' span) []
      (Similar base.registry) := by
  obtain ⟨g, hg, -⟩ := hbase.offers (mem_all_unary op)
  have hold := Registry.isOld_of_group hg
  have hwf := hbase.types.wellFormed
  unfold Binder.applyUnary
  rw [isError_eq hs ht he]
  split
  · exact pure (.computed (.old trivial) rfl rfl rfl rfl)
  · refine get_bind ?_
    rw [hs.intrinsics, ht.intrinsics]
    have hargs : List.Forall₂ (base.registry.Agree s.registry t.registry) [e.type] [e'.type] :=
      .cons he.type .nil
    refine ask (Registry.resolve_eq hs.registry ht.registry hwf hold hargs) fun o ho => ?_
    cases o with
    | resolved c =>
      obtain ⟨info, hinfo⟩ := exists_callable_of_resolve hbase hs hold ho
      obtain ⟨hcall, hparams, hresult⟩ := Registry.callable_of_adds hs.registry hwf hinfo
      obtain ⟨hcall', -⟩ := Registry.callable_of_adds ht.registry hwf hinfo
      refine ask (hcall.trans hcall'.symm) fun x hx => ?_
      cases hcall.symm.trans hx
      have hparam : base.registry.Agree s.registry t.registry (info.params.headD e.type)
          (info.params.headD e'.type) := by
        cases hps : info.params with
        | nil => exact he.type
        | cons p ps => exact .old (hparams p (by simp [hps]))
      refine bind (coerce hs ht he hparam) ?_
      intro v v' s₁ t₁ _ _ _
      exact pure (.computed (.old hresult) rfl rfl rfl rfl)
    | ambiguous tied => exact complainAmbiguous _ _ _ ((Registry.resolve_eq_ok ho).2 _ rfl)
    | notApplicable => exact ask_left fun _ _ => complain _

theorem applyCompound (op : BinaryOperator) {e e' v v' : Expr}
    (he : Similar base.registry s.registry t.registry e e')
    (hv : Similar base.registry s.registry t.registry v v') (span : Span) :
    Mirrors s t (Binder.applyCompound op e v span) (Binder.applyCompound op e' v' span) []
      (Similar base.registry) := by
  have hvalue : Similar base.registry s.registry t.registry ((v.retype? e.type).getD v)
      ((v'.retype? e'.type).getD v') := by
    rw [hv.retype? he.type]
    cases hw : v'.retype? e'.type with
    | none => exact hv
    | some w => exact .same (isOld_of_retype? hw)
  unfold Binder.applyCompound
  dsimp only
  generalize (v.retype? e.type).getD v = w at hvalue
  generalize (v'.retype? e'.type).getD v' = w' at hvalue
  refine bind_of (fun c? => ?_)
    (resolveBinary hbase hs ht op (.cons he.type (.cons hvalue.type .nil)) span) ?_
  · split
    · infer_instance
    · next c =>
      refine @steps_bind _ _ _ _ _ fun info => @steps_bind _ _ _ _ _ fun vs => ?_
      have hreject : Steps (do
          Binder.complain span (.cannotStore op.symbol (← Binder.fullName info.result)
            (← Binder.fullName e.type))
          return Expr.invalid span [e, w]) :=
        @steps_bind _ _ _ _ _ fun _ => @steps_bind _ _ _ _ _ fun _ => steps_complain _ rfl
      infer_instance
  · rintro _ _ s₁ t₁ hs₁ ht₁ ⟨c, info, rfl, rfl, hinfo⟩
    have hargs : List.Forall₂ (Similar base.registry s₁.registry t₁.registry) [e, w] [e', w'] :=
      .cons (he.mono hs₁.registry ht₁.registry) (.cons (hvalue.mono hs₁.registry ht₁.registry) .nil)
    refine adapt hbase (hs.trans hs₁) (ht.trans ht₁) hinfo hargs ?_
    intro vs vs' t₂ ht₂ _ hresult
    have htype : base.registry.Agree s₁.registry t₂.registry e.type e'.type :=
      he.type.mono hs₁.registry (ht₁.trans ht₂).registry
    have hs₂ := hs.trans hs₁
    have ht₂ := (ht.trans ht₁).trans ht₂
    have heq : info.result = e.type ↔ info.result = e'.type :=
      (Registry.Agree.old hresult).eq_iff hs₂.registry ht₂.registry htype
    have hfinish : ∀ storable : Bool, Mirrors s₁ t₂
        (if storable then Pure.pure (Expr.compound span e c (vs.getLast?.getD w)) else do
          Binder.complain span (.cannotStore op.symbol (← Binder.fullName info.result)
            (← Binder.fullName e.type))
          return Expr.invalid span [e, w])
        (if storable then Pure.pure (Expr.compound span e' c (vs'.getLast?.getD w')) else do
          Binder.complain span (.cannotStore op.symbol (← Binder.fullName info.result)
            (← Binder.fullName e'.type))
          return Expr.invalid span [e', w']) [] (Similar base.registry) := by
      intro storable
      split
      · exact pure (.computed htype rfl rfl rfl rfl)
      · exact ask_left fun _ _ => ask_left fun _ _ => complain _
    simp only [heq]
    split
    · exact hfinish true
    · exact ask ((Registry.Agree.old hresult).isImplicitlyConvertible hs₂.registry ht₂.registry
        htype) fun storable _ => hfinish storable

theorem applyAssignment (op : Option BinaryOperator) {e e' v v' : Expr}
    (he : Similar base.registry s.registry t.registry e e')
    (hv : Similar base.registry s.registry t.registry v v') (targetSpan valueSpan span : Span) :
    Mirrors s t (Binder.applyAssignment op e v targetSpan valueSpan span)
      (Binder.applyAssignment op e' v' targetSpan valueSpan span) [] (Similar base.registry) := by
  unfold Binder.applyAssignment
  rw [isError_eq hs ht he, isError_eq hs ht hv, he.category]
  split
  · exact pure (.computed (.old trivial) rfl rfl rfl rfl)
  · split
    · exact complain _
    · split
      · exact pure (.computed (.old trivial) rfl rfl rfl rfl)
      · split
        · refine bind (convertImplicit hs ht hv he.type valueSpan) ?_
          intro a b s₁ t₁ hs₁ ht₁ hab
          exact pure (.computed (he.type.mono hs₁.registry ht₁.registry) rfl rfl rfl rfl)
        · exact applyCompound hbase hs ht _ he hv span

theorem applyCall {f f' : Expr} (hf : Similar base.registry s.registry t.registry f f')
    {args args' : List Expr}
    (ha : List.Forall₂ (Similar base.registry s.registry t.registry) args args')
    (calleeSpan calleeSpan' span : Span) :
    Mirrors s t (Binder.applyCall f args calleeSpan span)
      (Binder.applyCall f' args' calleeSpan' span) [] (Similar base.registry) := by
  unfold Binder.applyCall
  rw [isError_eq hs ht hf]
  split
  · exact pure (.computed (.old trivial) rfl rfl rfl rfl)
  · cases hf with
    | computed _ _ _ hf hf' =>
      cases f with
      | literal | group | typeName => cases hf
      | _ => exact ask_left fun _ _ => complain _
    | same hold =>
      cases f with
      | group span' name group =>
        have herrors : args.any Expr.isError = args'.any Expr.isError := by
          induction ha with
          | nil => rfl
          | cons h _ ih => rw [List.any_cons, List.any_cons, isError_eq hs ht h, ih]
        have htypes : List.Forall₂ (base.registry.Agree s.registry t.registry)
            (args.map Expr.type) (args'.map Expr.type) := by
          rw [List.forall₂_map_left_iff, List.forall₂_map_right_iff]
          exact ha.imp fun _ _ h => h.type
        dsimp only
        rw [herrors]
        split
        · exact pure (.computed (.old trivial) rfl rfl rfl rfl)
        · refine ask (Registry.resolve_eq hs.registry ht.registry hbase.types.wellFormed hold
            htypes) fun o ho => ?_
          cases o with
          | resolved c =>
            obtain ⟨info, hinfo⟩ := exists_callable_of_resolve hbase hs hold ho
            refine adapt hbase hs ht hinfo ha ?_
            intro vs vs' t₁ ht₁ _ hresult
            exact pure (similar_call hs (ht.trans ht₁) (.old hresult) _ _ _ _)
          | ambiguous tied =>
            exact complainAmbiguous _ _ _ ((Registry.resolve_eq_ok ho).2 _ rfl)
          | notApplicable => exact ask_left fun _ _ => complain _
      | _ => exact ask_left fun _ _ => complain _

/-! Expressions -/

omit hbase hs ht in
/-- Noting what is read changes no more than that. -/
theorem markRead (sym : Symbol) {e : Expr} (he : Registry.IsOld base.registry.entries.size e.type) :
    Mirrors s t (do Binder.markRead sym; return e) (do Binder.markRead sym; return e) []
      (Similar base.registry) := by
  have hmark : ∀ u : State, ∃ u', Binder.markRead sym u = .ok ((), u') ∧ Enlarges u u' ∧
      u'.report = u.report := by
    intro u
    refine ⟨_, run_modify _ u, ?_⟩
    split
    · exact ⟨Enlarges.refl u, rfl⟩
    · exact ⟨⟨rfl, rfl, rfl, Registry.AddsArrays.refl _⟩, rfl⟩
  obtain ⟨s', hrun, hs', -⟩ := hmark s
  obtain ⟨t', hrun', ht', hrep⟩ := hmark t
  intro a s₁ h _
  rw [run_bind hrun] at h
  cases h
  exact ⟨e, t', by rw [run_bind hrun']; rfl, hs', ht', by simp [hrep], .same he⟩

theorem bindName (span : Span) (name : String) (read : Bool) :
    Mirrors s t (Binder.bindName span name read) (Binder.bindName span name read) []
      (Similar base.registry) := by
  unfold Binder.bindName
  refine get_bind ?_
  rw [hs.scope, ht.scope]
  split
  · next sym hsym =>
    have hknown := hbase.symbols sym (inScope_of_lookup? hsym)
    have hold : Registry.IsOld base.registry.entries.size sym.type := by
      unfold Known at hknown
      split at hknown
      · obtain ⟨g, hg⟩ := hknown.group
        exact Registry.isOld_of_group hg
      · exact hknown.1.isType.isOld
    split
    · exact pure (.same hold)
    · split
      · exact markRead sym hold
      · exact pure (.same hold)
  · split
    · exact pure (.same trivial)
    · exact complain _

theorem applyIndex {e e' i i' : Expr} (he : Similar base.registry s.registry t.registry e e')
    (hi : Similar base.registry s.registry t.registry i i') (targetSpan targetSpan' span : Span) :
    Mirrors s t (Binder.applyIndex e i targetSpan span)
      (Binder.applyIndex e' i' targetSpan' span) [] (Similar base.registry) := by
  have hstring : e.type = .builtin .string ↔ e'.type = .builtin .string :=
    he.type.eq_old_iff hs.registry ht.registry trivial
  have hindex : ∀ {a b : TypeId}, base.registry.Agree s.registry t.registry a b →
      Similar base.registry s.registry t.registry (.index span e i a) (.index span e' i' b) := by
    intro a b h
    refine .computed h ?_ rfl rfl rfl
    simp only [Expr.category, hstring]
  unfold Binder.applyIndex
  rw [isError_eq hs ht he, isError_eq hs ht hi]
  split
  · exact pure (.computed (.old trivial) rfl rfl rfl rfl)
  · refine ask (he.type.kind hs.registry ht.registry) fun k _ => ?_
    simp only [hstring]
    split
    · refine ask_left fun a ha => ?_
      obtain ⟨b, hb, hab⟩ :=
        he.type.element hs.registry ht.registry hbase.types.wellFormed ha
      exact ask_right hb (pure (hindex hab))
    · split
      · exact pure (hindex (.old trivial))
      · exact ask_left fun _ _ => complain _

omit hbase in
theorem applyMember {e e' : Expr} (he : Similar base.registry s.registry t.registry e e')
    (name : String) (span : Span) :
    Mirrors s t (Binder.applyMember e name span) (Binder.applyMember e' name span) []
      (Similar base.registry) := by
  have hstring : e.type = .builtin .string ↔ e'.type = .builtin .string :=
    he.type.eq_old_iff hs.registry ht.registry trivial
  unfold Binder.applyMember
  rw [isError_eq hs ht he]
  split
  · exact pure (.computed (.old trivial) rfl rfl rfl rfl)
  · refine ask (he.type.kind hs.registry ht.registry) fun k _ => ?_
    simp only [hstring]
    split
    · exact pure (.computed (.old trivial) rfl rfl rfl rfl)
    · exact ask_left fun _ _ => complain _

theorem applyCast {e e' : Expr} (he : Similar base.registry s.registry t.registry e e')
    {a b : TypeId} (h : base.registry.Agree s.registry t.registry a b) (span : Span) :
    Mirrors s t (Binder.applyCast e a span) (Binder.applyCast e' b span) []
      (Similar base.registry) := by
  have herror : a = .error ↔ b = .error := h.eq_old_iff hs.registry ht.registry trivial
  have hconvert : ∀ kind, Similar base.registry s.registry t.registry (.convert span kind e a true)
      (.convert span kind e' b true) := fun _ => .computed h rfl rfl rfl rfl
  unfold Binder.applyCast
  simp only [herror, isError_eq hs ht he]
  split
  · exact pure (.computed (.old trivial) rfl rfl rfl rfl)
  · refine ask (he.type.classify hs.registry ht.registry h) fun kind hkind => ?_
    cases kind with
    | none => exact ask_left fun _ _ => ask_left fun _ _ => complain _
    | toText =>
      refine get_bind ?_
      rw [hs.library, ht.library]
      obtain ⟨g, hg⟩ := hbase.loaded.toText
      refine adapt hbase hs ht hg (.cons he .nil) ?_
      intro vs vs' t₁ ht₁ _ _
      exact pure (similar_call hs (ht.trans ht₁) (.builtin _) _ _ _ _)
    | parse =>
      refine get_bind ?_
      rw [hs.library, ht.library]
      have hparser : base.library.parser? a = base.library.parser? b := by
        cases h <;> rfl
      rw [hparser]
      split
      · exact pure (similar_call hs ht h _ _ _ _)
      · refine ask_left fun _ _ => ?_
        intro _ _ hthrow
        cases hthrow
    | _ => exact pure (hconvert _)

theorem applyNewArray {a b : TypeId} (h : base.registry.Agree s.registry t.registry a b)
    {e e' : Expr} (he : Similar base.registry s.registry t.registry e e') (span : Span) :
    Mirrors s t (Binder.applyNewArray a e span) (Binder.applyNewArray b e' span) []
      (Similar base.registry) := by
  have herror : a = .error ↔ b = .error := h.eq_old_iff hs.registry ht.registry trivial
  unfold Binder.applyNewArray
  simp only [herror, isError_eq hs ht he]
  split
  · exact pure (.computed (.old trivial) rfl rfl rfl rfl)
  · refine bind (arrayOf hbase hs ht h) ?_
    intro u v s₁ t₁ hs₁ ht₁ huv
    exact pure (.computed huv rfl rfl rfl rfl)

omit hbase hs ht in
theorem negativeLiteral (span : Span) (v : UInt64) :
    Mirrors s t (Binder.negativeLiteral span v) (Binder.negativeLiteral span v) []
      (Similar base.registry) := by
  unfold Binder.negativeLiteral
  split
  · exact complain _
  · exact pure (.same trivial)

theorem target_of (op : Option BinaryOperator) (target : Parsed.Expr)
    (h : Mirrors s t (Binder.bindExpr target) (Binder.bindExpr target) [] (Similar base.registry)) :
    Mirrors s t (bindTarget op target) (bindTarget op target) [] (Similar base.registry) := by
  unfold bindTarget
  split
  · exact bindName hbase hs ht _ _ _
  · exact h

omit hs ht

mutual

/-- An expression is bound in the same way whatever array types there are already. -/
theorem bindExpr : (e : Parsed.Expr) → ∀ {s t : State}, Enlarges base s → Enlarges base t →
    Mirrors s t (Binder.bindExpr e) (Binder.bindExpr e) [] (Similar base.registry)
  | .int span v, s, t, hs, ht => by
    rw [Binder.bindExpr]
    refine pure (.same ?_)
    unfold intLiteral
    split <;> trivial
  | .float _ _, s, t, hs, ht | .string _ _, s, t, hs, ht | .char _ _, s, t, hs, ht
  | .bool _ _, s, t, hs, ht => by
    rw [Binder.bindExpr]
    exact pure (.same trivial)
  | .name span name, s, t, hs, ht => by
    rw [Binder.bindExpr]
    exact bindName hbase hs ht span name true
  | .assign span op target value, s, t, hs, ht => by
    rw [bindExpr_assign]
    refine bind (target_of hbase hs ht op target (bindExpr target hs ht)) ?_
    intro e e' s₁ t₁ hs₁ ht₁ he
    refine bind (bindExpr value (hs.trans hs₁) (ht.trans ht₁)) ?_
    intro v v' s₂ t₂ hs₂ ht₂ hv
    refine bind (requireValue hv) ?_
    intro w w' s₃ t₃ hs₃ ht₃ hw
    have hs' := hs₂.trans hs₃
    have ht' := ht₂.trans ht₃
    exact applyAssignment hbase ((hs.trans hs₁).trans hs') ((ht.trans ht₁).trans ht') op
      (he.mono hs'.registry ht'.registry) hw _ _ _
  | .binary span op left right, s, t, hs, ht => by
    rw [Binder.bindExpr]
    refine bind (bindExpr left hs ht) ?_
    intro l l' s₁ t₁ hs₁ ht₁ hl
    refine bind (requireValue hl) ?_
    intro l l' s₂ t₂ hs₂ ht₂ hl
    have hs₂ := (hs.trans hs₁).trans hs₂
    have ht₂ := (ht.trans ht₁).trans ht₂
    refine bind (bindExpr right hs₂ ht₂) ?_
    intro r r' s₃ t₃ hs₃ ht₃ hr
    refine bind (requireValue hr) ?_
    intro r r' s₄ t₄ hs₄ ht₄ hr
    have hs₄ := hs₃.trans hs₄
    have ht₄ := ht₃.trans ht₄
    exact applyBinary hbase (hs₂.trans hs₄) (ht₂.trans ht₄) op (hl.mono hs₄.registry ht₄.registry)
      hr span
  | .unary span op operand, s, t, hs, ht => by
    rw [Binder.bindExpr.eq_def]
    dsimp only
    split
    · exact negativeLiteral _ _
    · exact pure (.same trivial)
    · refine bind (bindExpr operand hs ht) ?_
      intro e e' s₁ t₁ hs₁ ht₁ he
      refine bind (requireValue he) ?_
      intro e e' s₂ t₂ hs₂ ht₂ he
      exact applyUnary hbase ((hs.trans hs₁).trans hs₂) ((ht.trans ht₁).trans ht₂) op he span
  | .call span callee args, s, t, hs, ht => by
    rw [Binder.bindExpr]
    refine bind (bindExpr callee hs ht) ?_
    intro f f' s₁ t₁ hs₁ ht₁ hf
    refine bind (bindValues args (hs.trans hs₁) (ht.trans ht₁)) ?_
    intro vs vs' s₂ t₂ hs₂ ht₂ hvs
    exact applyCall hbase ((hs.trans hs₁).trans hs₂) ((ht.trans ht₁).trans ht₂)
      (hf.mono hs₂.registry ht₂.registry) hvs _ _ _
  | .index span target index, s, t, hs, ht => by
    rw [Binder.bindExpr]
    refine bind (bindExpr target hs ht) ?_
    intro e e' s₁ t₁ hs₁ ht₁ he
    refine bind (requireValue he) ?_
    intro e e' s₂ t₂ hs₂ ht₂ he
    have hs₂ := (hs.trans hs₁).trans hs₂
    have ht₂ := (ht.trans ht₁).trans ht₂
    refine bind (bindExpr index hs₂ ht₂) ?_
    intro i i' s₃ t₃ hs₃ ht₃ hi
    refine bind (requireValue hi) ?_
    intro i i' s₄ t₄ hs₄ ht₄ hi
    have hs₄ := hs₃.trans hs₄
    have ht₄ := ht₃.trans ht₄
    refine bind (convertImplicit (hs₂.trans hs₄) (ht₂.trans ht₄) hi (.builtin _) _) ?_
    intro i i' s₅ t₅ hs₅ ht₅ hi
    have hs₅ := hs₄.trans hs₅
    have ht₅ := ht₄.trans ht₅
    exact applyIndex hbase (hs₂.trans hs₅) (ht₂.trans ht₅) (he.mono hs₅.registry ht₅.registry) hi
      _ _ _
  | .member span target name, s, t, hs, ht => by
    rw [Binder.bindExpr]
    refine bind (bindExpr target hs ht) ?_
    intro e e' s₁ t₁ hs₁ ht₁ he
    refine bind (requireValue he) ?_
    intro e e' s₂ t₂ hs₂ ht₂ he
    exact applyMember ((hs.trans hs₁).trans hs₂) ((ht.trans ht₁).trans ht₂) he name span
  | .cast span operand type, s, t, hs, ht => by
    rw [Binder.bindExpr]
    refine bind (bindExpr operand hs ht) ?_
    intro e e' s₁ t₁ hs₁ ht₁ he
    refine bind (requireValue he) ?_
    intro e e' s₂ t₂ hs₂ ht₂ he
    have hs₂ := (hs.trans hs₁).trans hs₂
    have ht₂ := (ht.trans ht₁).trans ht₂
    refine bind (valueType hbase hs₂ ht₂ type) ?_
    intro a b s₃ t₃ hs₃ ht₃ hab
    exact applyCast hbase (hs₂.trans hs₃) (ht₂.trans ht₃) (he.mono hs₃.registry ht₃.registry) hab
      span
  | .newArray span element size, s, t, hs, ht => by
    rw [Binder.bindExpr]
    refine bind (valueType hbase hs ht element) ?_
    intro a b s₁ t₁ hs₁ ht₁ hab
    refine bind (bindExpr size (hs.trans hs₁) (ht.trans ht₁)) ?_
    intro e e' s₂ t₂ hs₂ ht₂ he
    refine bind (requireValue he) ?_
    intro e e' s₃ t₃ hs₃ ht₃ he
    have hs₃ := hs₂.trans hs₃
    have ht₃ := ht₂.trans ht₃
    refine bind (convertImplicit ((hs.trans hs₁).trans hs₃) ((ht.trans ht₁).trans ht₃) he
      (.builtin _) _) ?_
    intro e e' s₄ t₄ hs₄ ht₄ he
    have hs₄ := hs₃.trans hs₄
    have ht₄ := ht₃.trans ht₄
    exact applyNewArray hbase ((hs.trans hs₁).trans hs₄) ((ht.trans ht₁).trans ht₄)
      (hab.mono hs₄.registry ht₄.registry) he span

theorem bindValues : (es : List Parsed.Expr) → ∀ {s t : State}, Enlarges base s →
    Enlarges base t → Mirrors s t (Binder.bindValues es) (Binder.bindValues es) []
      fun r r' => List.Forall₂ (Similar base.registry r r')
  | [], s, t, hs, ht => by
    rw [Binder.bindValues]
    exact pure .nil
  | e :: rest, s, t, hs, ht => by
    rw [Binder.bindValues]
    refine bind (bindExpr e hs ht) ?_
    intro v v' s₁ t₁ hs₁ ht₁ hv
    refine bind (requireValue hv) ?_
    intro v v' s₂ t₂ hs₂ ht₂ hv
    refine bind (bindValues rest ((hs.trans hs₁).trans hs₂) ((ht.trans ht₁).trans ht₂)) ?_
    intro vs vs' s₃ t₃ hs₃ ht₃ hvs
    exact pure (.cons (hv.mono hs₃.registry ht₃.registry) hvs)

end

end Mirrors

end

end Binder
end TypedScript
