import TypedScript.Binding.Expr
import TypedScript.Proofs.Binding.Operators
import TypedScript.Proofs.Parsed.Reading

/-!
# Expressions are bound well typed

By induction over the parsed expression: each form gives a well-typed expression when its parts do.
-/

namespace TypedScript
namespace Binder

open TypedScript.Binding TypedScript.Bound

theorem intLiteral_fits (c : Typing) (span : Span) (magnitude : UInt64) :
    (intLiteral span magnitude).Typed c := by
  unfold intLiteral
  split
  · simp only [Expr.Typed, Literal.Fits]
    exact ⟨rfl, by simp [Literal.fitsUnsigned, TypeId.bits, Builtin.bits]⟩
  · simp only [Expr.Typed, Literal.Fits, Literal.signedType]
    split
    · next h => exact ⟨rfl, h⟩
    · exact ⟨rfl, by simp [Literal.fitsSigned, TypeId.bits, Builtin.bits]⟩

theorem isDeclarable_builtin (c : Typing) {b : Builtin} (hb : b ≠ .void) :
    IsDeclarable c (.builtin b) := ⟨trivial, by simpa using hb, by simp⟩

/-- A value of any type can be seen as an object. -/
theorem adapts_object {r : Registry} {t : TypeId} (ht : r.IsType t) (hv : t ≠ .builtin .void) :
    r.Adapts t (.builtin .object) := by
  refine .inr ⟨_, Registry.classify_eq ht trivial, ?_⟩
  split
  · rfl
  · rw [if_neg (by simp [hv])]
    cases t <;> rfl

/-- Reading from a text is for scalars other than texts. -/
theorem of_classify_parse {r : Registry} {t u : TypeId} (ht : r.IsType t) (hu : r.IsType u)
    (h : r.classify t u = .ok .parse) :
    t = .builtin .string ∧ ∃ b, u = .builtin b ∧ b.isScalar ∧ b ≠ .string := by
  rw [Registry.classify_eq ht hu, Except.ok.injEq] at h
  split at h
  · cases h
  · next hne =>
    split at h
    · cases h
    · unfold Registry.classifyValues at h
      split at h
      · cases h
      · repeat (split at h; · cases h)
        split at h
        · next hab =>
          simp only [Bool.and_eq_true, decide_eq_true_eq] at hab
          refine ⟨by rw [hab.1], _, rfl, hab.2, ?_⟩
          rintro rfl
          exact hne (.inl (by rw [hab.1]))
        · split at h <;> cases h
      · cases h
      · cases h

section

variable {params : List Symbol} {s : State} (hs : Sound params s)
include hs

theorem Binds.negativeLiteral (span : Span) (magnitude : UInt64) :
    Binds params s (Binder.negativeLiteral span magnitude) fun e c => e.Typed c := by
  unfold Binder.negativeLiteral
  split
  · exact (Binds.invalid hs _ _ _ rfl _).imp fun _ _ _ _ h => h.1.1
  · refine Binds.pure hs ?_
    simp only [Expr.Typed, Literal.Fits, Literal.signedType]
    split
    · next h => exact ⟨rfl, h⟩
    · exact ⟨rfl, by simp [Literal.fitsSigned, TypeId.bits, Builtin.bits]⟩

theorem Binds.bindName (span : Span) (name : String) (read : Bool) :
    Binds params s (Binder.bindName span name read) fun e c => IsBound c e := by
  unfold Binder.bindName
  refine Binds.get_bind ?_
  split
  · next sym hl =>
    have hk := hs.symbols sym (inScope_of_lookup? hl)
    unfold Known at hk
    split
    · next hkind =>
      rw [if_pos hkind] at hk
      exact Binds.pure hs (.inr (.inl ⟨span, sym.name, sym.type, rfl, hk⟩))
    · next hkind =>
      rw [if_neg hkind] at hk
      have htyped : ∀ s', Sound params s' → Follows s s' →
          (Expr.symbol span sym).Typed (typing params s') := by
        intro s' _ hf
        simp only [Expr.Typed]
        exact ⟨hk.1.mono (hf.extends params), hk.2⟩
      split
      · refine Binds.bind (Binds.markRead hs sym) ?_
        intro _ s1 hs1 hf1 _
        exact Binds.pure hs1 (.inl (htyped s1 hs1 hf1))
      · exact Binds.pure hs (.inl (htyped s hs (Follows.refl s)))
  · split
    · next b hb => exact Binds.pure hs (.inr (.inr ⟨span, b, rfl⟩))
    · exact (Binds.invalid hs _ _ _ rfl _).imp fun _ _ _ _ h => .inl h.1.1

theorem Binds.applyIndex {target index : Expr} (ht : HasValue (typing params s) target)
    (hi : HasValue (typing params s) index)
    (h32 : index.type = .builtin .i32 ∨ index.type = .error) (targetSpan span : Span) :
    Binds params s (Binder.applyIndex target index targetSpan span) fun e c => e.Typed c := by
  unfold Binder.applyIndex
  split
  · next herr =>
    refine Binds.pure hs (typed_invalid ?_ _ _)
    obtain he | he := Bool.or_eq_true_iff.1 herr
    · exact ht.lenient hs he
    · exact hi.lenient hs he
  · next herr =>
    have herr : target.type ≠ .error ∧ index.type ≠ .error := by
      simpa [Expr.isError, not_or] using herr
    have h32 : index.type = .builtin .i32 := h32.resolve_right herr.2
    have htype := ht.isType hs
    obtain ⟨b, hb, hk⟩ | ⟨he, -⟩ | ⟨u, hu, hk⟩ := htype.kind
    · refine Binds.ask_bind hk ?_
      simp only [reduceCtorEq, if_false]
      split
      · next hstr =>
        refine Binds.pure hs ?_
        simp only [Expr.Typed]
        exact ⟨ht.1, hi.1, h32, .inl ⟨hstr, trivial⟩⟩
      · refine Binds.bind (Binds.fullName hs htype) ?_
        intro _ s1 hs1 _ _
        exact (Binds.invalid hs1 _ _ _ rfl _).imp fun _ _ _ _ h => h.1.1
    · exact absurd he herr.1
    · refine Binds.ask_bind hk ?_
      simp only [if_true]
      refine Binds.ask_bind hu (Binds.pure hs ?_)
      simp only [Expr.Typed]
      exact ⟨ht.1, hi.1, h32, .inr hu⟩

theorem Binds.applyMember {target : Expr} (ht : HasValue (typing params s) target) (name : String)
    (span : Span) :
    Binds params s (Binder.applyMember target name span) fun e c => e.Typed c := by
  have htype := ht.isType hs
  have hrefuse : Binds params s (do
      Binder.complain span (.noMember (← Binder.fullName target.type) name)
      return Expr.invalid span [target]) fun e c => e.Typed c := by
    refine Binds.bind (Binds.fullName hs htype) ?_
    intro _ s1 hs1 _ _
    exact (Binds.invalid hs1 _ _ _ rfl _).imp fun _ _ _ _ h => h.1.1
  unfold Binder.applyMember
  split
  · next herr => exact Binds.pure hs (typed_invalid (ht.lenient hs herr) _ _)
  · next herr =>
    have herr : target.type ≠ .error := by simpa [Expr.isError] using herr
    obtain ⟨b, hb, hk⟩ | ⟨he, -⟩ | ⟨u, hu, hk⟩ := htype.kind
    · refine Binds.ask_bind hk ?_
      split
      · next h =>
        refine Binds.pure hs ?_
        simp only [Expr.Typed]
        simp only [reduceCtorEq, decide_false, Bool.or_false, Bool.and_eq_true,
          decide_eq_true_eq] at h
        exact ⟨ht.1, .inl h.2⟩
      · exact hrefuse
    · exact absurd he herr
    · refine Binds.ask_bind hk ?_
      split
      · refine Binds.pure hs ?_
        simp only [Expr.Typed]
        exact ⟨ht.1, .inr ⟨u, hu⟩⟩
      · exact hrefuse

theorem Binds.applyCast {operand : Expr} (ho : HasValue (typing params s) operand) {t : TypeId}
    (ht : IsDeclarable (typing params s) t) (span : Span) :
    Binds params s (Binder.applyCast operand t span) fun e c => e.Typed c := by
  have hl := hs.loaded
  have htype := ho.isType hs
  unfold Binder.applyCast
  split
  · next herr =>
    refine Binds.pure hs (typed_invalid ?_ _ _)
    simp only [Bool.or_eq_true, decide_eq_true_eq] at herr
    obtain he | he := herr
    · exact ho.lenient hs he
    · exact ht.2.2 he
  · obtain ⟨k, hk⟩ : ∃ k, s.registry.classify operand.type t = .ok k :=
      ⟨_, Registry.classify_eq htype ht.1⟩
    have hconvert : k.isPlain → (Expr.convert span k operand t true).Typed (typing params s) := by
      intro hp
      simp only [Expr.Typed]
      exact ⟨ho.1, ho.2, ht.1, ht.2.1, ht.2.2, hk, hp⟩
    refine Binds.ask_bind hk ?_
    cases k with
    | none =>
      refine Binds.bind (Binds.fullName hs htype) ?_
      intro _ s1 hs1 hf1 _
      refine Binds.bind (Binds.fullName hs1 (ht.1.mono hf1.registry)) ?_
      intro _ s2 hs2 _ _
      exact (Binds.invalid hs2 _ _ _ rfl _).imp fun _ _ _ _ h => h.1.1
    | toText =>
      obtain ⟨g, hg⟩ := hl.toText
      refine Binds.get_bind (Binds.ask_bind hg ?_)
      have hacc : s.registry.Accepts [.builtin .object] ([operand].map Expr.type) :=
        .cons (adapts_object htype ho.2) .nil
      refine Binds.bind (Binds.coerceAll hs (by simpa using ho) (hs.declarable hg) hacc) ?_
      rintro es s1 hs1 hf1 ⟨hes, hts⟩
      refine Binds.pure hs1 ?_
      simp only [Expr.Typed, typedAll_iff]
      exact ⟨fun e he => (hes e he).1, ⟨g, by rw [hts]; exact Registry.callable_mono hf1.registry hg⟩,
        by simp⟩
    | parse =>
      obtain ⟨hstr, b, rfl, hscalar, hne⟩ := of_classify_parse htype ht.1 hk
      obtain ⟨c, g, hc, hg⟩ := hl.parser b hscalar hne
      refine Binds.get_bind ?_
      rw [hc]
      refine Binds.pure hs ?_
      simp only [Expr.Typed, typedAll, List.map_cons, List.map_nil, hstr]
      exact ⟨⟨ho.1, trivial⟩, ⟨g, hg⟩, by simp⟩
    | identity => exact Binds.pure hs (hconvert rfl)
    | widen => exact Binds.pure hs (hconvert rfl)
    | box => exact Binds.pure hs (hconvert rfl)
    | numeric => exact Binds.pure hs (hconvert rfl)
    | unbox => exact Binds.pure hs (hconvert rfl)

theorem Binds.applyNewArray {t : TypeId} (ht : IsDeclarable (typing params s) t) {size : Expr}
    (he : HasValue (typing params s) size)
    (h32 : size.type = .builtin .i32 ∨ size.type = .error) (span : Span) :
    Binds params s (Binder.applyNewArray t size span) fun e c => e.Typed c := by
  unfold Binder.applyNewArray
  split
  · next herr =>
    refine Binds.pure hs (typed_invalid ?_ _ _)
    simp only [Bool.or_eq_true, decide_eq_true_eq] at herr
    obtain h | h := herr
    · exact ht.2.2 h
    · exact he.lenient hs h
  · next herr =>
    have herr : t ≠ .error ∧ size.type ≠ .error := by
      simpa [Expr.isError, not_or] using herr
    obtain ⟨u, r, hrun, hle, htypes, hel⟩ := hs.types.arrayOf ⟨ht.1, herr.1, ht.2.1⟩
    refine Binds.bind (Binds.register hs hrun hle htypes
      (Q := fun v c => c.registry.element v = .ok t) hel) ?_
    intro v s1 hs1 hf1 hv
    refine Binds.pure hs1 ?_
    simp only [Expr.Typed]
    exact ⟨(he.mono hs hf1.toGrows).1, h32.resolve_right herr.2, hv⟩

end

mutual

/-- Binding an expression never fails, and what it gives makes sense. -/
theorem Binds.bindExpr {params : List Symbol} : (e : Parsed.Expr) → e.Proper →
    ∀ {s : State}, Sound params s → Binds params s (Binder.bindExpr e) fun e c => IsBound c e
  | .int span v, _, s, hs => by
    rw [Binder.bindExpr]
    exact Binds.pure hs (.inl (intLiteral_fits _ span v))
  | .float span v, _, s, hs => by
    rw [Binder.bindExpr]
    exact Binds.pure hs (.inl (by simp only [Expr.Typed]; rfl))
  | .string span v, _, s, hs => by
    rw [Binder.bindExpr]
    exact Binds.pure hs (.inl (by simp only [Expr.Typed]; rfl))
  | .char span v, _, s, hs => by
    rw [Binder.bindExpr]
    exact Binds.pure hs (.inl (by simp only [Expr.Typed]; rfl))
  | .bool span v, _, s, hs => by
    rw [Binder.bindExpr]
    exact Binds.pure hs (.inl (by simp only [Expr.Typed]; rfl))
  | .name span name, _, s, hs => by
    rw [Binder.bindExpr]
    exact Binds.bindName hs span name true
  | .assign span op target value, h, s, hs => by
    simp only [Parsed.Expr.Proper] at h
    have hrest : ∀ bound s1, Sound params s1 → Follows s s1 → IsBound (typing params s1) bound →
        Binds params s1 (do
          let rhs ← Binder.bindExpr value
          let rhs ← Binder.requireValue rhs
          Binder.applyAssignment op bound rhs target.span value.span span) fun e c => IsBound c e := by
      intro bound s1 hs1 _ hb
      refine Binds.bind (Binds.bindExpr value h.2.2 hs1) ?_
      intro rhs s2 hs2 hf2 hr
      refine Binds.bind (Binds.requireValue hs2 hr) ?_
      intro rhs s3 hs3 hf3 hr
      exact (Binds.applyAssignment hs3 h.1 (hb.mono hs1 (hf2.trans hf3).toGrows) hr _ _ _).imp
        fun _ _ _ _ h => .inl h
    rw [Binder.bindExpr.eq_def]
    dsimp only
    split
    · exact Binds.bind (Binds.bindName hs _ _ _) hrest
    · exact Binds.bind (Binds.bindExpr target h.2.1 hs) hrest
  | .binary span op left right, h, s, hs => by
    simp only [Parsed.Expr.Proper] at h
    rw [Binder.bindExpr]
    refine Binds.bind (Binds.bindExpr left h.1 hs) ?_
    intro _ s1 hs1 _ hl
    refine Binds.bind (Binds.requireValue hs1 hl) ?_
    intro l s2 hs2 _ hl
    refine Binds.bind (Binds.bindExpr right h.2 hs2) ?_
    intro _ s3 hs3 hf3 hr
    refine Binds.bind (Binds.requireValue hs3 hr) ?_
    intro r s4 hs4 hf4 hr
    exact (Binds.applyBinary hs4 op (hl.mono hs2 (hf3.trans hf4).toGrows) hr span).imp
      fun _ _ _ _ h => .inl h
  | .unary span op operand, h, s, hs => by
    simp only [Parsed.Expr.Proper] at h
    rw [Binder.bindExpr.eq_def]
    dsimp only
    split
    · exact (Binds.negativeLiteral hs _ _).imp fun _ _ _ _ h => .inl h
    · exact Binds.pure hs (.inl (by simp only [Expr.Typed]; rfl))
    · refine Binds.bind (Binds.bindExpr operand h hs) ?_
      intro _ s1 hs1 _ ho
      refine Binds.bind (Binds.requireValue hs1 ho) ?_
      intro o s2 hs2 _ ho
      exact (Binds.applyUnary hs2 op ho span).imp fun _ _ _ _ h => .inl h
  | .call span callee args, h, s, hs => by
    simp only [Parsed.Expr.Proper] at h
    rw [Binder.bindExpr]
    refine Binds.bind (Binds.bindExpr callee h.1 hs) ?_
    intro bound s1 hs1 _ hb
    refine Binds.bind (Binds.bindValues args h.2 hs1) ?_
    intro es s2 hs2 hf2 hes
    exact (Binds.applyCall hs2 (hb.mono hs1 hf2.toGrows) hes _ _).imp fun _ _ _ _ h => .inl h
  | .index span target index, h, s, hs => by
    simp only [Parsed.Expr.Proper] at h
    rw [Binder.bindExpr]
    refine Binds.bind (Binds.bindExpr target h.1 hs) ?_
    intro _ s1 hs1 _ ht
    refine Binds.bind (Binds.requireValue hs1 ht) ?_
    intro t s2 hs2 _ ht
    refine Binds.bind (Binds.bindExpr index h.2 hs2) ?_
    intro _ s3 hs3 hf3 hi
    refine Binds.bind (Binds.requireValue hs3 hi) ?_
    intro i s4 hs4 hf4 hi
    refine Binds.bind (Binds.convertImplicit hs4 hi (isDeclarable_builtin _ (by simp)) _) ?_
    rintro i s5 hs5 hf5 ⟨hi, h32⟩
    exact (Binds.applyIndex hs5 (ht.mono hs2 ((hf3.trans hf4).trans hf5).toGrows) hi
      (h32.imp_right fun h => h.resolve_right (by simp)) _ _).imp fun _ _ _ _ h => .inl h
  | .member span target name, h, s, hs => by
    simp only [Parsed.Expr.Proper] at h
    rw [Binder.bindExpr]
    refine Binds.bind (Binds.bindExpr target h hs) ?_
    intro _ s1 hs1 _ ht
    refine Binds.bind (Binds.requireValue hs1 ht) ?_
    intro t s2 hs2 _ ht
    exact (Binds.applyMember hs2 ht name span).imp fun _ _ _ _ h => .inl h
  | .cast span operand type, h, s, hs => by
    simp only [Parsed.Expr.Proper] at h
    rw [Binder.bindExpr]
    refine Binds.bind (Binds.bindExpr operand h hs) ?_
    intro _ s1 hs1 _ ho
    refine Binds.bind (Binds.requireValue hs1 ho) ?_
    intro o s2 hs2 _ ho
    refine Binds.bind (Binds.valueType hs2 type) ?_
    intro t s3 hs3 hf3 ht
    exact (Binds.applyCast hs3 (ho.mono hs2 hf3.toGrows) ht span).imp fun _ _ _ _ h => .inl h
  | .newArray span element size, h, s, hs => by
    simp only [Parsed.Expr.Proper] at h
    rw [Binder.bindExpr]
    refine Binds.bind (Binds.valueType hs element) ?_
    intro t s1 hs1 _ ht
    refine Binds.bind (Binds.bindExpr size h hs1) ?_
    intro _ s2 hs2 hf2 he
    refine Binds.bind (Binds.requireValue hs2 he) ?_
    intro e s3 hs3 hf3 he
    refine Binds.bind (Binds.convertImplicit hs3 he (isDeclarable_builtin _ (by simp)) _) ?_
    rintro e s4 hs4 hf4 ⟨he, h32⟩
    exact (Binds.applyNewArray hs4 (ht.mono ((hf2.trans hf3).trans hf4).toGrows) he
      (h32.imp_right fun h => h.resolve_right (by simp)) span).imp fun _ _ _ _ h => .inl h

theorem Binds.bindValues {params : List Symbol} : (es : List Parsed.Expr) → Parsed.properAll es →
    ∀ {s : State}, Sound params s →
      Binds params s (Binder.bindValues es) fun es c => ∀ e ∈ es, HasValue c e
  | [], _, s, hs => by
    rw [Binder.bindValues]
    exact Binds.pure hs (by simp)
  | e :: rest, h, s, hs => by
    simp only [Parsed.properAll] at h
    rw [Binder.bindValues]
    refine Binds.bind (Binds.bindExpr e h.1 hs) ?_
    intro _ s1 hs1 _ he
    refine Binds.bind (Binds.requireValue hs1 he) ?_
    intro b s2 hs2 _ hb
    refine Binds.bind (Binds.bindValues rest h.2 hs2) ?_
    intro es s3 hs3 hf3 hes
    refine Binds.pure hs3 fun x hx => ?_
    obtain rfl | hx := List.mem_cons.1 hx
    · exact hb.mono hs2 hf3.toGrows
    · exact hes x hx

end

theorem Binds.bindValue {params : List Symbol} {s : State} (hs : Sound params s) (e : Parsed.Expr)
    (he : e.Proper) : Binds params s (Binder.bindValue e) fun e c => HasValue c e := by
  refine Binds.bind (Binds.bindExpr e he hs) ?_
  intro b s1 hs1 _ hb
  exact Binds.requireValue hs1 hb

end Binder
end TypedScript
