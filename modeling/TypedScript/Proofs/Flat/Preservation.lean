import TypedScript.Proofs.Flat.Typing

/-!
# Flattening keeps types

What comes out of a bound expression without mistakes is well typed and has the same type. So do the
statements of a routine, except for the bare names that a counted loop may evaluate after each turn:
they become invalid expressions, and nothing else does.
-/

namespace TypedScript
namespace Flat

/-- Operands of some types, with what runs before them. -/
structure Operands (c : Typing) (types : List TypeId) (before : List Stmt) (done : List Expr) :
    Prop where
  before : ∀ result, typedStmts c result before
  exprs : ∀ e ∈ done, e.Typed c
  types : done.map Expr.type = types

/-- A flat expression of a type, with what runs before it. -/
structure Lowered.Typed (c : Typing) (t : TypeId) (v : Lowered) : Prop where
  before : ∀ result, typedStmts c result v.before
  expr : v.expr.Typed c
  type : v.expr.type = t

theorem typedStmts_nil (c : Typing) (result : TypeId) : typedStmts c result [] := by
  simp [typedStmts]

theorem typedStmts_append {c : Typing} {result : TypeId} {a b : List Stmt} :
    typedStmts c result (a ++ b) ↔ typedStmts c result a ∧ typedStmts c result b := by
  simp [typedStmts, or_imp, forall_and]

theorem typedStmts_cons {c : Typing} {result : TypeId} {s : Stmt} {ss : List Stmt} :
    typedStmts c result (s :: ss) ↔ s.Typed c result ∧ typedStmts c result ss := by
  simp [typedStmts]

/-- A negation is a truth value, also when it is folded. -/
theorem negate_typed {c : Typing} {e : Expr} (h : e.Typed c) (ht : e.type = .builtin .bool) :
    (Lowering.negate e).Typed c ∧ (Lowering.negate e).type = .builtin .bool := by
  unfold Lowering.negate
  split
  · simp only [Expr.Typed] at h
    obtain ⟨hoperand, o, ho, hs⟩ := h
    cases ho
    refine ⟨hoperand, ?_⟩
    simp [Intrinsics.signatures, Intrinsics.operand, Intrinsics.unarySignature] at hs
    exact hs.2
  · refine ⟨⟨trivial, by simp, by simp, ?_, by simp⟩, rfl⟩
    rintro l ⟨⟩
    rfl
  · refine ⟨?_, rfl⟩
    simp only [Expr.Typed, ht]
    exact ⟨h, .not, rfl, by decide⟩

/-- The zero value of a type. -/
theorem zeroLiteral_typed {c : Typing} {t : TypeId} (ht : c.registry.IsType t) (he : t ≠ .error)
    (hv : t ≠ .builtin .void) :
    (Lowering.zeroLiteral t).Typed c ∧ (Lowering.zeroLiteral t).type = t := by
  refine ⟨⟨ht, he, hv, ?_, ?_⟩, rfl⟩
  · intro l hl
    split at hl
    · rename_i hsigned
      cases hl
      refine ⟨hsigned, ?_⟩
      obtain ⟨b, rfl, hb⟩ := TypeId.exists_builtin_of_satisfies hsigned
      revert hb
      cases b <;> decide
    · split at hl
      · rename_i hunsigned
        cases hl
        refine ⟨hunsigned, ?_⟩
        obtain ⟨b, rfl, hb⟩ := TypeId.exists_builtin_of_satisfies hunsigned
        revert hb
        cases b <;> decide
      · split at hl
        · rename_i hfloat
          cases hl
          exact hfloat
        · split at hl <;> cases hl <;> rfl
  · intro hnone
    cases t with
    | builtin b =>
      revert hnone
      cases b <;> simp [TypeId.isSigned, TypeId.isUnsigned, TypeId.isFloat, TypeId.satisfies,
        Builtin.isSigned, Builtin.isUnsigned, Builtin.isFloat, Builtin.isScalar]
    | _ => rfl

section

variable {c : Typing}

/-- A temporary holds values of its type. -/
theorem declares_temporary (n : Nat) {t : TypeId} (ht : c.registry.IsType t)
    (hv : t ≠ .builtin .void) (he : t = .error → c.lenient) : c.Declares (temporary n t) :=
  ⟨trivial, ht, hv, he⟩

theorem store_typed {n : Nat} {e : Expr} (h : e.Typed c) (hd : c.Declares (temporary n e.type))
    (result : TypeId) : typedStmts c result (Lowering.store (temporary n e.type) e) := by
  simp only [Lowering.store, typedStmts_cons, typedStmts_nil, Stmt.Typed, Expr.Typed, and_true]
  exact ⟨⟨hd, rfl⟩, .inl rfl, hd, h, rfl⟩

variable (hr : c.registry.WellFormed) (hc : ¬c.lenient)

include hr hc

theorem Expr.Typed.declares_temporary {e : Expr} (h : e.Typed c) (hv : e.type ≠ .builtin .void)
    (n : Nat) : c.Declares (temporary n e.type) :=
  Flat.declares_temporary n (h.isType hr) hv fun he => absurd he (h.ne_error hr hc)

theorem Hoists.typed {es kept : List Expr} {s s' : Supply} {before : List Stmt}
    (h : Hoists es s before kept s') (hes : ∀ e ∈ es, e.Typed c ∧ e.type ≠ .builtin .void) :
    (∀ result, typedStmts c result before) ∧ (∀ e ∈ kept, e.Typed c) ∧
      kept.map Expr.type = es.map Expr.type := by
  induction h with
  | nil => exact ⟨fun _ => typedStmts_nil _ _, by simp, rfl⟩
  | stable _ _ ih =>
    rw [List.forall_mem_cons] at hes
    obtain ⟨hbefore, hkept, htypes⟩ := ih hes.2
    refine ⟨hbefore, List.forall_mem_cons.mpr ⟨hes.1.1, hkept⟩, ?_⟩
    rw [List.map_cons, List.map_cons, htypes]
  | store _ _ ih =>
    rw [List.forall_mem_cons] at hes
    obtain ⟨hbefore, hkept, htypes⟩ := ih hes.2
    have hd := hes.1.1.declares_temporary hr hc hes.1.2
    refine ⟨fun result => ?_, List.forall_mem_cons.mpr ⟨hd _, hkept⟩, ?_⟩
    · exact typedStmts_append.mpr ⟨store_typed hes.1.1 (hd _) result, hbefore result⟩
    · rw [List.map_cons, List.map_cons, htypes]
      rfl

theorem Spills.typed {e : Expr} {s s' : Supply} {out : Lowered} (h : Spills e s out s')
    (he : e.Typed c) (hv : e.type ≠ .builtin .void) : out.Typed c e.type := by
  cases h with
  | symbol => exact ⟨typedStmts_nil _, he, rfl⟩
  | literal => exact ⟨typedStmts_nil _, he, rfl⟩
  | store =>
    have hd := he.declares_temporary hr hc hv
    exact ⟨store_typed he (hd _), hd _, rfl⟩

theorem Converts.typed {e out : Expr} {t : TypeId} (h : Converts c.registry e t out)
    (he : e.Typed c) (hv : e.type ≠ .builtin .void) (ht : c.registry.IsType t)
    (htv : t ≠ .builtin .void) (hte : t ≠ .error) (ha : c.registry.Adapts e.type t) :
    out.Typed c ∧ out.type = t := by
  have hee := he.ne_error hr hc
  cases h with
  | same hsame =>
    refine ⟨he, ?_⟩
    obtain hsame | hid := hsame
    · exact hsame
    · exact Registry.eq_of_classify_identity (he.isType hr) ht hee hte hid
  | convert hne hk hid =>
    refine ⟨?_, rfl⟩
    obtain hsame | ⟨k, hk', hi⟩ := ha
    · exact absurd hsame hne
    · rw [hk] at hk'
      cases hk'
      simp only [Expr.Typed]
      exact ⟨he, hv, ht, htv, hte, hk, Conversion.isPlain_of_isImplicit hi, hid⟩

/-- The right-hand side of a compound assignment has the type of the place. -/
theorem Merges.typed {operator param result t : TypeId} {old value out : Expr}
    (h : Merges c.registry operator old value out)
    (hcombines : c.registry.Combines operator ⟨result, [param, t]⟩) (hold : old.Typed c)
    (holdv : old.type ≠ .builtin .void) (hvalue : value.Typed c) (ht : value.type = t)
    (hparam : c.registry.Adapts old.type param) (hresult : c.registry.Adapts result old.type) :
    out.Typed c ∧ out.type = old.type := by
  obtain ⟨info, left, hinfo, hleft, hout⟩ := h
  obtain ⟨info', hinfo', hres, hpar⟩ := hcombines.callable
  rw [hinfo] at hinfo'
  cases hinfo'
  have hhead : info.params.headD old.type = param := by rw [hpar]; rfl
  obtain ⟨⟨b, hb⟩, hbuiltin⟩ := hcombines.isBuiltin
  obtain ⟨p, rfl, hpv⟩ := hbuiltin param (by simp)
  have holde := hold.ne_error hr hc
  rw [hhead] at hleft
  obtain ⟨hl, hlt⟩ := hleft.typed hr hc hold holdv trivial (by simpa using hpv) (by simp) hparam
  have happlied : (applied info operator old left value).Typed c ∧
      (applied info operator old left value).type = result := by
    unfold applied
    rw [hhead]
    obtain ⟨op, hop, ⟨g, hg⟩, hs⟩ | ⟨⟨g, hg⟩, -⟩ := hcombines
    · rw [hinfo] at hg
      cases hg
      refine ⟨?_, rfl⟩
      simp only [Callable.isIntrinsic, Option.isSome_some, if_true, Expr.Typed, hlt, ht]
      exact ⟨hl, hvalue, trivial, op, rfl, hop, hs⟩
    · rw [hinfo] at hg
      cases hg
      refine ⟨?_, rfl⟩
      simp only [Callable.isIntrinsic, Option.isSome_none, Bool.false_eq_true, if_false, Expr.Typed,
        typedAll, List.map_cons, List.map_nil, hlt, ht]
      exact ⟨⟨hl, hvalue, trivial⟩, ⟨g, hinfo⟩, by simp [show result = .builtin b from hb]⟩
  have hresultv : result ≠ .builtin .void := by
    rintro rfl
    obtain hsame | ⟨k, hk, hi⟩ := hresult
    · exact holdv hsame.symm
    · rw [Registry.classify_eq (Registry.isType_builtin _ _) (hold.isType hr),
        if_neg (by simp [holde, Ne.symm holdv]), if_pos (.inl rfl)] at hk
      cases hk
      cases hi
  refine hout.typed hr hc happlied.1 ?_ (hold.isType hr) holdv holde ?_
  · rw [happlied.2]
    exact hresultv
  · rw [happlied.2]
    exact hresult

theorem Joins.typed {before before' : List Stmt} {done done' : List Expr} {next : Lowered}
    {s s' : Supply} (h : Joins before done next s before' done' s') {types : List TypeId}
    {t : TypeId} (hdone : Operands c types before done) (hv : ∀ t ∈ types, t ≠ .builtin .void)
    (hnext : next.Typed c t) : Operands c (types ++ [t]) before' done' := by
  cases h with
  | plain _ =>
    refine ⟨hdone.before, ?_, ?_⟩
    · simpa [or_imp, forall_and] using ⟨hdone.exprs, hnext.expr⟩
    · simp [hdone.types, hnext.type]
  | keep _ hoists =>
    have hvoid : ∀ e ∈ done, e.Typed c ∧ e.type ≠ .builtin .void := by
      intro e he
      refine ⟨hdone.exprs e he, hv _ ?_⟩
      rw [← hdone.types]
      exact List.mem_map_of_mem he
    obtain ⟨hbefore, hkept, htypes⟩ := hoists.typed hr hc hvoid
    refine ⟨fun result => ?_, ?_, ?_⟩
    · simp only [typedStmts_append]
      exact ⟨⟨hdone.before result, hbefore result⟩, hnext.before result⟩
    · simpa [or_imp, forall_and] using ⟨hkept, hnext.expr⟩
    · simp [htypes, hdone.types, hnext.type]

theorem LowersAll.typed {es : List Bound.Expr}
    (hes : ∀ e ∈ es, (∀ {s s' out}, Lowers c.registry e s out s' → out.Typed c e.type) ∧
      e.type ≠ .builtin .void)
    {before before' : List Stmt} {done done' : List Expr} {s s' : Supply} {types : List TypeId}
    (h : LowersAll c.registry before done es s before' done' s')
    (hdone : Operands c types before done) (hv : ∀ t ∈ types, t ≠ .builtin .void) :
    Operands c (types ++ es.map Bound.Expr.type) before' done' := by
  induction es generalizing before done s types with
  | nil =>
    cases h
    simpa using hdone
  | cons e rest ih =>
    rw [List.forall_mem_cons] at hes
    cases h with
    | cons he hjoin hrest =>
      have hnext := hjoin.typed hr hc hdone hv (hes.1.1 he)
      have hv' : ∀ t ∈ types ++ [e.type], t ≠ .builtin .void := by
        simpa [or_imp, forall_and] using ⟨hv, hes.1.2⟩
      simpa using ih hes.2 hrest hnext hv'

/-- The operands of an expression, which start from nothing. -/
theorem LowersAll.operands {es : List Bound.Expr}
    (hes : ∀ e ∈ es, (∀ {s s' out}, Lowers c.registry e s out s' → out.Typed c e.type) ∧
      e.type ≠ .builtin .void)
    {before : List Stmt} {done : List Expr} {s s' : Supply}
    (h : LowersAll c.registry [] [] es s before done s') :
    Operands c (es.map Bound.Expr.type) before done := by
  have hnil : Operands c [] [] [] := ⟨typedStmts_nil c, by simp, rfl⟩
  simpa using h.typed hr hc hes hnil (by simp)

omit hr hc in
theorem decided_typed {t : Symbol} (h : c.Declares t) (ht : t.type = .builtin .bool)
    (op : BinaryOperator) :
    (decided op t).Typed c ∧ (decided op t).type = .builtin .bool := by
  unfold decided
  split
  · exact negate_typed h ht
  · exact ⟨h, ht⟩

omit hr hc in
/-- What has elements or characters is a value. -/
theorem ne_void_of_element {t u : TypeId}
    (h : t = .builtin .string ∨ c.registry.element t = .ok u) : t ≠ .builtin .void := by
  rintro rfl
  simp [Registry.element, Registry.get?] at h

/-- Flattening an expression keeps its type. -/
theorem Lowers.typed {e : Bound.Expr} (he : e.Typed c) {s s' : Supply} {out : Lowered}
    (h : Lowers c.registry e s out s') : out.Typed c e.type := by
  induction e using Bound.Expr.induction generalizing s s' out with
  | literal span v t =>
    cases h
    obtain ⟨b, rfl, hb⟩ := Literal.Fits.exists_builtin he
    refine ⟨typedStmts_nil c, ⟨trivial, by simp, ?_, ?_, by simp⟩, rfl⟩
    · rintro ⟨⟩
      cases hb
    · rintro l ⟨⟩
      exact he
  | symbol span sym =>
    cases h
    simp only [Bound.Expr.Typed] at he
    exact ⟨typedStmts_nil c, he.1, rfl⟩
  | group | typeName => exact he.elim
  | assign span target value ihparts ihv =>
    simp only [Bound.Expr.Typed] at he
    obtain ⟨hplace, htarget, hvalue, hsame⟩ := he
    have hsame := hsame.resolve_right hc
    have hnotVoid := (Bound.Expr.Typed.place hr hplace htarget).2.1
    cases h with
    | assign hv =>
      simp only [Bound.Expr.Typed] at htarget
      obtain ⟨hbefore, hexpr, htype⟩ := ihv hvalue hv
      refine ⟨hbefore, ?_, rfl⟩
      simp only [Expr.Typed]
      exact ⟨hplace, htarget.1, hexpr, htype.trans hsame⟩
    | assignElement hall =>
      obtain ⟨iha, ihi⟩ := ihparts _ _ _ _ rfl
      simp only [Bound.Expr.Typed] at htarget
      obtain ⟨ha, hi, h32, helement⟩ := htarget
      have helement := helement.resolve_left fun hs => hplace hs.1
      obtain ⟨hbefore, hexprs, htypes⟩ := hall.operands hr hc (by
        simpa using ⟨⟨iha ha, ne_void_of_element (.inr helement)⟩, ⟨ihi hi, by simp [h32]⟩,
          ihv hvalue, by rwa [hsame]⟩)
      simp only [List.map_cons, List.map_nil, List.cons.injEq, and_true] at htypes
      simp only [List.mem_cons, List.not_mem_nil, or_false, forall_eq_or_imp, forall_eq] at hexprs
      refine ⟨hbefore, ?_, rfl⟩
      simp only [Expr.Typed, htypes]
      exact ⟨hexprs.1, hexprs.2.1, hexprs.2.2, helement, h32, hsame⟩
  | compound span target operator value ihparts ihv =>
    simp only [Bound.Expr.Typed] at he
    obtain ⟨hplace, htarget, hvalue, param, result, hcombines, hparam, hresult⟩ := he
    have hnotVoid := (Bound.Expr.Typed.place hr hplace htarget).2.1
    cases h with
    | compound hv hmerges =>
      simp only [Bound.Expr.Typed] at htarget
      obtain ⟨hbefore, hexpr, htype⟩ := ihv hvalue hv
      have hmerged := hmerges.typed hr hc hcombines htarget.1 hnotVoid hexpr htype hparam hresult
      refine ⟨hbefore, ?_, rfl⟩
      simp only [Expr.Typed]
      exact ⟨hplace, htarget.1, hmerged.1, hmerged.2⟩
    | compoundElement hall ha' hi' hmerges =>
      rename_i t s₁ s₂ before a i v a' i' merged
      obtain ⟨iha, ihi⟩ := ihparts _ _ _ _ rfl
      simp only [Bound.Expr.Typed] at htarget
      obtain ⟨ha, hi, h32, helement⟩ := htarget
      have helement := helement.resolve_left fun hs => hplace hs.1
      obtain ⟨b, hb, hbv⟩ := hcombines.isBuiltin.2 value.type (by simp)
      have harrayVoid := ne_void_of_element (.inr helement)
      obtain ⟨hbefore, hexprs, htypes⟩ := hall.operands hr hc (by
        simpa using ⟨⟨iha ha, harrayVoid⟩, ⟨ihi hi, by simp [h32]⟩, ihv hvalue, by simp [hb, hbv]⟩)
      simp only [List.map_cons, List.map_nil, List.cons.injEq, and_true] at htypes
      simp only [List.mem_cons, List.not_mem_nil, or_false, forall_eq_or_imp, forall_eq] at hexprs
      obtain ⟨hab, ha, hat⟩ := ha'.typed hr hc hexprs.1 (by rwa [htypes.1])
      obtain ⟨hib, hi, hit⟩ := hi'.typed hr hc hexprs.2.1 (by simp [htypes.2.1, h32])
      have hold : (Expr.index a'.expr i'.expr t).Typed c := by
        simp only [Expr.Typed, hat, hit, htypes]
        exact ⟨ha, hi, h32, .inr helement⟩
      have hmerged := hmerges.typed hr hc hcombines hold hnotVoid hexprs.2.2 htypes.2.2 hparam hresult
      refine ⟨fun result => ?_, ?_, rfl⟩
      · simp only [typedStmts_append]
        exact ⟨⟨hbefore result, hab result⟩, hib result⟩
      · simp only [Expr.Typed, hat, hit, htypes]
        exact ⟨ha, hi, hmerged.1, helement, h32, hmerged.2⟩
  | binary span operator left right t ihl ihr =>
    simp only [Bound.Expr.Typed] at he
    obtain ⟨hleft, hright, op, ⟨g, hg⟩, hs⟩ := he
    cases h with
    | shortCircuit hinfo hop hshort ha hb =>
      rw [hg] at hinfo
      cases hinfo
      cases hop
      obtain ⟨hbefore, hexpr, htype⟩ := ihl hleft ha
      obtain ⟨hbefore', hexpr', htype'⟩ := ihr hright hb
      have hsig := Intrinsics.eq_of_isShortCircuit hshort hs
      simp only [Signature.mk.injEq, List.cons.injEq, and_true] at hsig
      obtain ⟨rfl, hlt, hrt⟩ := hsig
      have htemp : c.Declares (temporary (s.temporaries + 1) (.builtin .bool)) :=
        declares_temporary _ trivial (by simp) (by simp)
      refine ⟨fun result => ?_, htemp, rfl⟩
      have hdecided := decided_typed htemp rfl op
      simp only [typedStmts_append, typedStmts_cons, typedStmts_nil, Stmt.Typed, Expr.Typed,
        and_true]
      exact ⟨⟨⟨⟨⟨htemp, rfl⟩, hbefore result⟩, ⟨.inl rfl, htemp, hexpr, htype.trans hlt⟩, hdecided⟩,
        hbefore' result⟩, .inl rfl, htemp, hexpr', htype'.trans hrt⟩
    | binary hinfo hnot hall =>
      rw [hg] at hinfo
      cases hinfo
      have hvoid : ∀ x ∈ [left.type, right.type], x ≠ .builtin .void := by
        intro x hx
        obtain ⟨b, rfl, hb⟩ := (Intrinsics.isBuiltin_of_mem_signatures hs).2 x hx
        simpa using hb
      obtain ⟨hbefore, hexprs, htypes⟩ := hall.operands hr hc (by
        simpa using ⟨⟨ihl hleft, hvoid _ (by simp)⟩, ihr hright, hvoid _ (by simp)⟩)
      simp only [List.map_cons, List.map_nil, List.cons.injEq, and_true] at htypes
      simp only [List.mem_cons, List.not_mem_nil, or_false, forall_eq_or_imp, forall_eq] at hexprs
      refine ⟨hbefore, ?_, rfl⟩
      simp only [Expr.Typed, htypes]
      exact ⟨hexprs.1, hexprs.2, rfl, op, rfl, hnot op rfl, hs⟩
  | unary span operator operand t ih =>
    simp only [Bound.Expr.Typed] at he
    obtain ⟨hoperand, op, ⟨g, hg⟩, hs⟩ := he
    cases h with
    | unary hinfo hv =>
      rw [hg] at hinfo
      cases hinfo
      obtain ⟨hbefore, hexpr, htype⟩ := ih hoperand hv
      refine ⟨hbefore, ?_, rfl⟩
      simp only [Expr.Typed, htype]
      exact ⟨hexpr, op, rfl, hs⟩
  | call span callable args t ih =>
    simp only [Bound.Expr.Typed] at he
    obtain ⟨hargs, ⟨g, hg⟩, ht⟩ := he
    cases h with
    | call hall =>
      have hvoid : ∀ e ∈ args, e.type ≠ .builtin .void := fun e hmem =>
        (hr.callable_params hg _ (List.mem_map_of_mem hmem)).2
      obtain ⟨hbefore, hexprs, htypes⟩ := hall.operands hr hc fun e hmem =>
        ⟨fun hv => ih e hmem (Bound.typedAll_iff.mp hargs e hmem) hv, hvoid e hmem⟩
      refine ⟨hbefore, ?_, rfl⟩
      simp only [Expr.Typed, typedAll_iff, htypes]
      exact ⟨hexprs, ⟨g, hg⟩, fun heq => hc (ht heq)⟩
  | convert span kind operand t isExplicit ih =>
    simp only [Bound.Expr.Typed] at he
    obtain ⟨hoperand, hov, ht, htv, hte, hk, hplain⟩ := he
    have hte : t ≠ .error := fun heq => hc (hte heq)
    cases h with
    | keep hv =>
      obtain ⟨hbefore, hexpr, htype⟩ := ih hoperand hv
      have hoe : operand.type ≠ .error := by
        rw [← htype]
        exact hexpr.ne_error hr hc
      have hsame := Registry.eq_of_classify_identity (hoperand.isType hr) ht hoe hte hk
      exact ⟨hbefore, hexpr, htype.trans hsame⟩
    | convert hid hv =>
      obtain ⟨hbefore, hexpr, htype⟩ := ih hoperand hv
      refine ⟨hbefore, ?_, rfl⟩
      simp only [Expr.Typed, htype]
      exact ⟨hexpr, hov, ht, htv, hte, hk, hplain, hid⟩
  | index span target index t iht ihi =>
    simp only [Bound.Expr.Typed] at he
    obtain ⟨htarget, hindex, h32, helement⟩ := he
    cases h with
    | index hall =>
      have hvoid := ne_void_of_element (helement.imp_left And.left)
      obtain ⟨hbefore, hexprs, htypes⟩ := hall.operands hr hc (by
        simpa using ⟨⟨iht htarget, hvoid⟩, ihi hindex, by simp [h32]⟩)
      simp only [List.map_cons, List.map_nil, List.cons.injEq, and_true] at htypes
      simp only [List.mem_cons, List.not_mem_nil, or_false, forall_eq_or_imp, forall_eq] at hexprs
      refine ⟨hbefore, ?_, rfl⟩
      simp only [Expr.Typed, htypes]
      exact ⟨hexprs.1, hexprs.2, h32, helement⟩
  | length span target ih =>
    simp only [Bound.Expr.Typed] at he
    cases h with
    | length hv =>
      obtain ⟨hbefore, hexpr, htype⟩ := ih he.1 hv
      refine ⟨hbefore, ?_, rfl⟩
      simp only [Expr.Typed, htype]
      exact ⟨hexpr, he.2⟩
  | newArray span element size t ih =>
    simp only [Bound.Expr.Typed] at he
    cases h with
    | newArray hv =>
      obtain ⟨hbefore, hexpr, htype⟩ := ih he.1 hv
      refine ⟨hbefore, ?_, rfl⟩
      simp only [Expr.Typed, htype]
      exact ⟨hexpr, he.2.1, he.2.2⟩
  | invalid span children => exact (hc he).elim

theorem LowersDeclaration.typed {d : Bound.Declaration} (hd : d.Typed c) {s s' : Supply}
    {out : List Stmt} (h : LowersDeclaration c.registry d s out s') (result : TypeId) :
    typedStmts c result out := by
  have hdeclare : (Stmt.declare d.symbol).Typed c result := ⟨hd.symbol, hd.isLocal⟩
  cases h with
  | init hinit hv =>
    obtain ⟨htyped, hsame⟩ := hd.init _ hinit
    obtain ⟨hbefore, hexpr, htype⟩ := hv.typed hr hc htyped
    simp only [typedStmts_append, List.cons_append, typedStmts_cons, typedStmts_nil, Stmt.Typed,
      Expr.Typed, and_true]
    exact ⟨hdeclare, hbefore result, .inl hd.isLocal, hd.symbol, hexpr,
      htype.trans (hsame.resolve_right hc)⟩
  | zero _ herror =>
    obtain ⟨hzero, htype⟩ := zeroLiteral_typed hd.symbol.isType herror hd.symbol.ne_void
    simp only [typedStmts_cons, typedStmts_nil, Stmt.Typed, Expr.Typed, and_true]
    exact ⟨hdeclare, .inl hd.isLocal, hd.symbol, hzero, htype⟩
  | unset _ herror => exact absurd (hd.symbol.error herror) hc

theorem LowersSetup.typed {setup : Option Bound.Setup} (hsetup : ∀ x, setup = some x → x.Typed c)
    {s s' : Supply} {out : List Stmt} (h : LowersSetup c.registry setup s out s')
    (result : TypeId) : typedStmts c result out := by
  cases h with
  | none => exact typedStmts_nil c result
  | declare hd => exact hd.typed hr hc (hsetup _ rfl) result
  | eval hv =>
    obtain ⟨hbefore, hexpr, -⟩ := hv.typed hr hc (hsetup _ rfl)
    simp only [typedStmts_append, typedStmts_cons, typedStmts_nil, Stmt.Typed, and_true]
    exact ⟨hbefore result, hexpr⟩

/-- A jump over what a condition guards. -/
theorem Lowers.jumpUnless_typed {cond : Bound.Expr} (hcond : cond.IsCondition c) {s s' : Supply}
    {v : Lowered} (h : Lowers c.registry cond s v s') (l : Label) (result : TypeId) :
    typedStmts c result (v.before ++ [Stmt.jumpIf (Lowering.negate v.expr) l]) := by
  obtain ⟨hbefore, hexpr, htype⟩ := h.typed hr hc hcond.1
  simp only [typedStmts_append, typedStmts_cons, typedStmts_nil, Stmt.Typed, and_true]
  exact ⟨hbefore result, negate_typed hexpr (htype.trans (hcond.2.resolve_right hc))⟩

theorem LowersTest.typed {cond : Option Bound.Expr} {done : Label}
    (hcond : ∀ e, cond = Option.some e → e.IsCondition c) {s s' : Supply} {out : List Stmt}
    (h : LowersTest c.registry done cond s out s') (result : TypeId) : typedStmts c result out := by
  cases h with
  | none => exact typedStmts_nil c result
  | some hv => exact hv.jumpUnless_typed hr hc (hcond _ rfl) done result

end

def Stmt.isInvalid : Stmt → Bool
  | .eval .invalid => true
  | _ => false

/-- Statements that are well typed, invalid evaluations apart; `named` says whether there are any. -/
structure TypedUnless (c : Typing) (result : TypeId) (named : Bool) (ss : List Stmt) : Prop where
  typed : ∀ s ∈ ss, s.Typed c result ∨ s.isInvalid
  named : ss.any Stmt.isInvalid = named

theorem Stmt.Typed.isInvalid {c : Typing} {result : TypeId} {s : Stmt} (h : s.Typed c result) :
    s.isInvalid = false := by
  unfold Stmt.isInvalid
  split
  · exact h.elim
  · rfl

section

variable {c : Typing} {result : TypeId}

theorem typedUnless_of_typed {ss : List Stmt} (h : typedStmts c result ss) :
    TypedUnless c result false ss := by
  refine ⟨fun s hs => .inl (h s hs), ?_⟩
  rw [List.any_eq_false]
  intro s hs
  simp [(h s hs).isInvalid]

theorem TypedUnless.append {a b : List Stmt} {x y : Bool} (ha : TypedUnless c result x a)
    (hb : TypedUnless c result y b) : TypedUnless c result (x || y) (a ++ b) := by
  refine ⟨fun s hs => ?_, by rw [List.any_append, ha.named, hb.named]⟩
  obtain hs | hs := List.mem_append.mp hs
  · exact ha.typed s hs
  · exact hb.typed s hs

/-- Well-typed statements before and behind change nothing. -/
theorem TypedUnless.around {before body after : List Stmt} {x : Bool}
    (h : TypedUnless c result x body) (hb : typedStmts c result before)
    (ha : typedStmts c result after) : TypedUnless c result x (before ++ body ++ after) := by
  simpa using ((typedUnless_of_typed hb).append h).append (typedUnless_of_typed ha)

variable (hr : c.registry.WellFormed) (hc : ¬c.lenient)

include hr hc

theorem LowersPost.typedUnless {post : Option Bound.Expr}
    (hpost : ∀ e, post = Option.some e → e.Typed c ∨ e.isName) {s s' : Supply} {out : List Stmt}
    (h : LowersPost c.registry post s out s') :
    TypedUnless c result (post.any Bound.Expr.isName) out := by
  cases h with
  | none => exact typedUnless_of_typed (typedStmts_nil c result)
  | some hv =>
    rename_i e v
    obtain ht | hn := hpost e rfl
    · obtain ⟨hbefore, hexpr, -⟩ := hv.typed hr hc ht
      have hname : e.isName = false := by
        cases e <;> first | rfl | exact ht.elim
      simp only [Option.any_some, hname]
      refine typedUnless_of_typed ?_
      simp only [typedStmts_append, typedStmts_cons, typedStmts_nil, Stmt.Typed, and_true]
      exact ⟨hbefore result, hexpr⟩
    · cases hv <;> cases hn <;> exact ⟨by simp [Stmt.isInvalid], rfl⟩

omit hr hc in
theorem LowersStmts.typedUnless {loop? : Option LoopLabels} {looping : Bool}
    {stmts : List Bound.Stmt}
    (hstmts : ∀ stmt ∈ stmts, stmt.Typed c result looping → ∀ {s s' out},
      LowersStmt c.registry loop? stmt s out s' → TypedUnless c result stmt.evaluatesName out)
    (ht : Bound.typedStmts c result looping stmts) {s s' : Supply} {out : List Stmt}
    (h : LowersStmts c.registry loop? stmts s out s') :
    TypedUnless c result (Bound.evaluateName stmts) out := by
  induction stmts generalizing s out with
  | nil =>
    cases h
    exact typedUnless_of_typed (typedStmts_nil c result)
  | cons stmt rest ih =>
    simp only [Bound.typedStmts] at ht
    cases h with
    | cons hfirst hrest =>
      have hhead := hstmts stmt List.mem_cons_self ht.1 hfirst
      have htail := ih (fun x hx => hstmts x (List.mem_cons_of_mem _ hx)) ht.2 hrest
      simpa only [Bound.evaluateName] using hhead.append htail

/-- Flattening a statement keeps it well typed, except for the bare names that loops evaluate. -/
theorem LowersStmt.typedUnless {loop? : Option LoopLabels} {looping : Bool} {stmt : Bound.Stmt}
    (ht : stmt.Typed c result looping) {s s' : Supply} {out : List Stmt}
    (h : LowersStmt c.registry loop? stmt s out s') :
    TypedUnless c result stmt.evaluatesName out := by
  have hmark : ∀ ss : List Stmt, (∀ x ∈ ss, ∃ l, x = .jump l ∨ x = .label l) →
      typedStmts c result ss := by
    intro ss hss x hx
    obtain ⟨l, rfl | rfl⟩ := hss x hx <;> trivial
  induction stmt using Bound.Stmt.induction generalizing loop? looping s s' out with
  | block span body ih =>
    simp only [Bound.Stmt.Typed] at ht
    cases h with
    | block hbody =>
      simp only [Bound.Stmt.evaluatesName]
      exact hbody.typedUnless (fun x hx htx => ih x hx htx) ht
  | declare d =>
    simp only [Bound.Stmt.Typed] at ht
    cases h with
    | declare hd => exact typedUnless_of_typed (hd.typed hr hc ht result)
  | eval e =>
    simp only [Bound.Stmt.Typed] at ht
    cases h with
    | eval hv =>
      obtain ⟨hbefore, hexpr, -⟩ := hv.typed hr hc ht
      refine typedUnless_of_typed ?_
      simp only [typedStmts_append, typedStmts_cons, typedStmts_nil, Stmt.Typed, and_true]
      exact ⟨hbefore result, hexpr⟩
  | ifThen span cond yes ih =>
    simp only [Bound.Stmt.Typed] at ht
    cases h with
    | ifThen hv hyes =>
      simp only [Bound.Stmt.evaluatesName]
      exact (ih ht.2 hyes).around (hv.jumpUnless_typed hr hc ht.1 _ result) (hmark _ (by simp))
  | ifElse span cond yes no ihyes ihno =>
    simp only [Bound.Stmt.Typed] at ht
    cases h with
    | ifElse hv hyes hno =>
      rename_i s₁ s₂ v out out'
      simp only [Bound.Stmt.evaluatesName]
      have hfirst := (ihyes ht.2.1 hyes).around
        (hv.jumpUnless_typed hr hc ht.1 (s₁.labels + 2) result) (typedStmts_nil c result)
      have hsecond := (ihno ht.2.2 hno).around
        (hmark [.jump (s₁.labels + 1), .label (s₁.labels + 2)] (by simp))
        (hmark [.label (s₁.labels + 1)] (by simp))
      simpa using hfirst.append hsecond
  | whileLoop span cond body ih =>
    simp only [Bound.Stmt.Typed] at ht
    cases h with
    | whileLoop hv hbody =>
      simp only [Bound.Stmt.evaluatesName]
      refine (ih ht.2 hbody).around ?_ (hmark _ (by simp))
      exact typedStmts_append.mpr ⟨hmark _ (by simp), hv.jumpUnless_typed hr hc ht.1 _ result⟩
  | forLoop span setup cond post body ih =>
    simp only [Bound.Stmt.Typed] at ht
    obtain ⟨hsetup, hcond, hpost, hbody⟩ := ht
    cases h with
    | forLoop hfirst htest hstmt hlast =>
      rename_i s₁ s₂ s₃ first test out last
      simp only [Bound.Stmt.evaluatesName]
      have hheader : typedStmts c result (first ++ [Stmt.label (s₁.labels + 1)] ++ test) := by
        simp only [typedStmts_append]
        exact ⟨⟨hfirst.typed hr hc hsetup result, hmark _ (by simp)⟩,
          htest.typed hr hc hcond result⟩
      have hturn := (ih hbody hstmt).around hheader (hmark [.label (s₁.labels + 2)] (by simp))
      have hafter := (hlast.typedUnless hr hc hpost).around (typedStmts_nil c result)
        (hmark [.jump (s₁.labels + 1), .label (s₁.labels + 3)] (by simp))
      simpa using hturn.append hafter
  | breakLoop span =>
    cases h
    exact typedUnless_of_typed (hmark _ (by simp))
  | continueLoop span =>
    cases h
    exact typedUnless_of_typed (hmark _ (by simp))
  | returnStmt span value =>
    cases h with
    | returnNone =>
      simp only [Bound.Stmt.Typed] at ht
      refine typedUnless_of_typed ?_
      simp only [typedStmts_cons, typedStmts_nil, Stmt.Typed, and_true]
      exact ht.resolve_right hc
    | returnSome hv =>
      simp only [Bound.Stmt.Typed] at ht
      obtain ⟨hbefore, hexpr, htype⟩ := hv.typed hr hc ht.1
      refine typedUnless_of_typed ?_
      simp only [typedStmts_append, typedStmts_cons, typedStmts_nil, Stmt.Typed, and_true]
      exact ⟨hbefore result, hexpr, htype.trans (ht.2.2.resolve_right hc), ht.2.1⟩

end

end Flat
end TypedScript
