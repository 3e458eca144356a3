import TypedScript.Binding.Operators
import TypedScript.Proofs.Binding.Basic

/-!
# Operators and calls are bound well typed

Whatever the operands are, applying an operator, a conversion or a call to them gives a well-typed
expression or reports a mistake.
-/

namespace TypedScript

theorem Literal.fits_retype? {v w : Literal} {t : TypeId} (h : v.retype? t = some w) : w.Fits t := by
  cases v with
  | int v =>
    simp only [Literal.retype?] at h
    split at h
    · next hs =>
      cases h
      simpa [Literal.Fits] using hs
    · split at h
      · next hu =>
        cases h
        simp only [Bool.and_eq_true, decide_eq_true_eq] at hu
        obtain ⟨⟨hu, hv⟩, hf⟩ := hu
        refine ⟨hu, ?_⟩
        rwa [Int64.toNat_toUInt64_of_le hv]
      · split at h
        · next hf =>
          cases h
          exact hf
        · cases h
  | uint v =>
    simp only [Literal.retype?] at h
    split at h
    · next hf =>
      cases h
      exact hf
    · cases h
  | float v =>
    simp only [Literal.retype?] at h
    split at h
    · next hf =>
      cases h
      rw [hf]
      rfl
    · cases h
  | _ => simp [Literal.retype?] at h

namespace Binder

open TypedScript.Binding TypedScript.Bound

def HasValue (c : Typing) (e : Expr) : Prop := e.Typed c ∧ e.type ≠ .builtin .void

/-- What binding an expression may give: an expression that makes sense, a group of functions, or the
name of a type. -/
def IsBound (c : Typing) (e : Expr) : Prop :=
  e.Typed c ∨ (∃ span name g, e = .group span name g ∧ IsOwnGroup c.registry g) ∨
    ∃ span b, e = .typeName span (.builtin b)

theorem typed_invalid {c : Typing} (h : c.lenient) (span : Span) (children : List Expr) :
    (Expr.invalid span children).Typed c := by
  simpa only [Expr.Typed] using h

theorem hasValue_invalid {c : Typing} (h : c.lenient) (span : Span) (children : List Expr) :
    HasValue c (.invalid span children) := ⟨typed_invalid h span children, by simp [Expr.type]⟩

theorem retype?_typed {c : Typing} {e e' : Expr} {t : TypeId} (h : e.retype? t = some e') :
    HasValue c e' ∧ e'.type = t := by
  cases e with
  | literal span v u =>
    obtain ⟨w, hw, rfl⟩ := Option.map_eq_some_iff.1 h
    have hf := Literal.fits_retype? hw
    refine ⟨⟨by simpa only [Expr.Typed] using hf, ?_⟩, rfl⟩
    obtain ⟨b, rfl, hb⟩ := hf.exists_builtin
    rintro he
    cases he
    cases hb
  | _ => simp [Expr.retype?] at h

section

variable {params : List Symbol} {s : State}

theorem HasValue.mono (hs : Sound params s) {s' : State} (h : Grows s s') {e : Expr}
    (he : HasValue (typing params s) e) : HasValue (typing params s') e :=
  ⟨Expr.Typed.mono hs.types.wellFormed (h.extends params) e he.1, he.2⟩

theorem IsBound.mono (hs : Sound params s) {s' : State} (h : Grows s s') {e : Expr}
    (he : IsBound (typing params s) e) : IsBound (typing params s') e := by
  obtain ht | ⟨span, name, g, rfl, hg⟩ | hn := he
  · exact .inl (Expr.Typed.mono hs.types.wellFormed (h.extends params) e ht)
  · exact .inr (.inl ⟨span, name, g, rfl, hg.mono h.registry⟩)
  · exact .inr (.inr hn)

theorem HasValue.isType (hs : Sound params s) {e : Expr} (he : HasValue (typing params s) e) :
    s.registry.IsType e.type := Expr.Typed.isType hs.types.wellFormed he.1

theorem HasValue.lenient (hs : Sound params s) {e : Expr} (he : HasValue (typing params s) e)
    (h : e.isError) : s.report.hasErrors :=
  Expr.Typed.lenient hs.types.wellFormed he.1 (by simpa [Expr.isError] using h)

variable (hs : Sound params s)
include hs

theorem Sound.loaded : Library.Loaded s.library s.registry := by
  rw [hs.library]
  exact initial_spec.2.1.of_sameBelow hs.types.same

theorem Sound.offers {op : Operator} (hop : op ∈ Intrinsics.all) :
    s.registry.Offers (s.intrinsics.group op) (some op) (Intrinsics.signatures op) := by
  rw [hs.intrinsics]
  exact (initial_spec.2.2 op hop).of_sameBelow hs.types.same

theorem Binds.fullName {t : TypeId} (ht : s.registry.IsType t) :
    Binds params s (Binder.fullName t) fun _ _ => True := by
  obtain ⟨n, hn⟩ := hs.types.wellFormed.fullName ht
  exact Binds.ask hs hn trivial

theorem Binds.fullName_callable {t : TypeId} {info : Callable} (ht : s.registry.callable t = .ok info) :
    Binds params s (Binder.fullName t) fun _ _ => True := by
  obtain ⟨n, hn⟩ := hs.types.wellFormed.fullName_callable ht
  exact Binds.ask hs hn trivial

theorem Binds.joinNames {ts : List TypeId} (ht : ∀ t ∈ ts, s.registry.IsType t) :
    Binds params s (Binder.ask (·.joinNames ts)) fun _ _ => True := by
  obtain ⟨n, hn⟩ := hs.types.wellFormed.joinNames ht
  exact Binds.ask hs hn trivial

/-- Reporting an error makes the context lenient. -/
theorem Binds.invalid (span at' : Span) (c : Complaint) (hc : c.severity = .error)
    (children : List Expr) :
    Binds params s (do Binder.complain at' c; return Expr.invalid span children)
      fun e c => HasValue c e ∧ e.type = .error := by
  refine Binds.bind (Binds.complain hs at' c) ?_
  intro _ s' hs' _ hl
  exact Binds.pure hs' ⟨hasValue_invalid (hl hc) span children, rfl⟩

/-- An expression adapted to a type has that type, unless one of the two was a mistake. -/
theorem Binds.convertImplicit {e : Expr} (he : HasValue (typing params s) e) {t : TypeId}
    (ht : IsDeclarable (typing params s) t) (span : Span) :
    Binds params s (Binder.convertImplicit e t span) fun e' c =>
      HasValue c e' ∧ (e'.type = t ∨ e'.type = .error ∨ t = .error) := by
  have htype := he.isType hs
  unfold Binder.convertImplicit
  simp only
  split
  · next h =>
    refine Binds.pure hs ⟨he, ?_⟩
    simpa [or_assoc] using h
  · next h =>
    split
    · next e' hr =>
      obtain ⟨hv, het⟩ := retype?_typed (c := typing params s) hr
      exact Binds.pure hs ⟨hv, .inl het⟩
    · obtain ⟨k, hk⟩ : ∃ k, s.registry.classify e.type t = .ok k := ⟨_, Registry.classify_eq htype ht.1⟩
      refine Binds.ask_bind hk ?_
      split
      · next hi =>
        refine Binds.pure hs ⟨⟨?_, ht.2.1⟩, .inl rfl⟩
        simp only [Expr.Typed]
        exact ⟨he.1, he.2, ht.1, ht.2.1, ht.2.2, hk, Conversion.isPlain_of_isImplicit hi⟩
      · refine Binds.bind (Binds.fullName hs htype) ?_
        intro source s1 hs1 hf1 _
        refine Binds.bind (Binds.fullName hs1 (ht.1.mono hf1.registry)) ?_
        intro target s2 hs2 _ _
        refine (Binds.invalid hs2 _ _ _ ?_ _).imp ?_
        · split <;> rfl
        · intro e' s3 _ _ h
          exact ⟨h.1, .inr (.inl h.2)⟩

/-- An argument adapted to a parameter has its type. -/
theorem Binds.coerce {e : Expr} (he : HasValue (typing params s) e) {t : TypeId}
    (ht : IsDeclarable (typing params s) t) (ha : s.registry.Adapts e.type t) :
    Binds params s (Binder.coerce e t) fun e' c => HasValue c e' ∧ e'.type = t := by
  unfold Binder.coerce
  split
  · next h => exact Binds.pure hs ⟨he, h⟩
  · next h =>
    obtain hne | ⟨k, hk, hi⟩ := ha
    · exact absurd hne h
    · refine Binds.ask_bind hk (Binds.pure hs ⟨⟨?_, ht.2.1⟩, rfl⟩)
      simp only [Expr.Typed]
      exact ⟨he.1, he.2, ht.1, ht.2.1, ht.2.2, hk, Conversion.isPlain_of_isImplicit hi⟩

omit hs in
theorem IsDeclarable.mono {s' : State} (h : Grows s s') {t : TypeId}
    (ht : IsDeclarable (typing params s) t) : IsDeclarable (typing params s') t :=
  ⟨ht.1.mono h.registry, ht.2.1, fun he => h.errors (ht.2.2 he)⟩

theorem Binds.coerceAll {es : List Expr} {ts : List TypeId}
    (he : ∀ e ∈ es, HasValue (typing params s) e) (ht : ∀ t ∈ ts, IsDeclarable (typing params s) t)
    (ha : s.registry.Accepts ts (es.map Expr.type)) :
    Binds params s (Binder.coerceAll es ts) fun es' c =>
      (∀ e ∈ es', HasValue c e) ∧ es'.map Expr.type = ts := by
  induction es generalizing s ts with
  | nil =>
    cases ha
    exact Binds.pure hs ⟨by simp, rfl⟩
  | cons e es ih =>
    cases ha with
    | cons h hrest =>
      rename_i t ts
      have htypes : ∀ a ∈ es.map Expr.type, s.registry.IsType a := by
        intro a hmem
        obtain ⟨x, hx, rfl⟩ := List.mem_map.1 hmem
        exact (he x (by simp [hx])).isType hs
      refine Binds.bind (Binds.coerce hs (he e (by simp)) (ht t (by simp)) h) ?_
      intro e' s' hs' hf he'
      have hrest' : s'.registry.Accepts ts (es.map Expr.type) := by
        unfold Registry.Accepts
        rw [List.forall₂_iff_zip] at hrest ⊢
        refine ⟨hrest.1, fun {p a} hpa => ?_⟩
        have hmem := List.of_mem_zip hpa
        exact (hrest.2 hpa).mono hf.registry (htypes a hmem.2) (ht p (by simp [hmem.1])).1
      refine Binds.bind (ih hs' (fun x hx => (he x (by simp [hx])).mono hs hf.toGrows)
        (fun u hu => (ht u (by simp [hu])).mono hf.toGrows) hrest') ?_
      intro es' s'' hs'' hf' hes
      refine Binds.pure hs'' ⟨?_, by simp [he'.2, hes.2]⟩
      intro x hx
      obtain rfl | hx := List.mem_cons.1 hx
      · exact he'.1.mono hs' hf'.toGrows
      · exact hes.1 x hx

/-- The parameters of a callable can be declared. -/
theorem Sound.declarable {t : TypeId} {info : Callable} (h : s.registry.callable t = .ok info) :
    ∀ p ∈ info.params, IsDeclarable (typing params s) p := by
  intro p hp
  obtain ⟨ht, hv⟩ := hs.types.wellFormed.callable_params h p hp
  exact ⟨ht, hv, fun he => hs.types.errors h (.inr (he ▸ hp))⟩

theorem Binds.requireValue {e : Expr} (he : IsBound (typing params s) e) :
    Binds params s (Binder.requireValue e) fun e' c => HasValue c e' := by
  unfold Binder.requireValue
  split
  · exact (Binds.invalid hs _ _ _ rfl _).imp fun _ _ _ _ h => h.1
  · obtain ht | ⟨_, _, _, heq, -⟩ | ⟨span, b, heq⟩ := he
    · exact ht.elim
    · cases heq
    · cases heq
      obtain ⟨n, hn⟩ := hs.types.wellFormed.name (t := .builtin b) trivial
      exact Binds.ask_bind hn ((Binds.invalid hs _ _ _ rfl _).imp fun _ _ _ _ h => h.1)
  · next span callable args t =>
    have ht : (Expr.call span callable args t).Typed (typing params s) := by
      obtain ht | ⟨_, _, _, heq, -⟩ | ⟨_, _, heq⟩ := he
      · exact ht
      · cases heq
      · cases heq
    split
    · simp only [Expr.Typed] at ht
      obtain ⟨-, ⟨g, hg⟩, -⟩ := ht
      refine Binds.bind (Binds.fullName_callable hs hg) ?_
      intro n s' hs' _ _
      exact (Binds.invalid hs' _ _ _ rfl _).imp fun _ _ _ _ h => h.1
    · next hv => exact Binds.pure hs ⟨ht, hv⟩
  · next hg hn hc =>
    obtain ht | ⟨span, name, g, rfl, -⟩ | ⟨span, b, rfl⟩ := he
    · exact Binds.pure hs ⟨ht, Expr.Typed.ne_void hs.types.wellFormed ht fun _ _ _ => hc _ _ _ _⟩
    · exact absurd rfl (hg _ _ _)
    · exact absurd rfl (hn _ _)

theorem Binds.complainAmbiguous (span : Span) (name : String) {args tied : List TypeId}
    (ha : ∀ a ∈ args, s.registry.IsType a) (htwo : 2 ≤ tied.length)
    (ht : ∀ t ∈ tied, ∃ info, s.registry.callable t = .ok info) :
    Binds params s (Binder.complainAmbiguous span name args tied) fun _ c => c.lenient := by
  match tied with
  | first :: second :: rest =>
    obtain ⟨i1, h1⟩ := ht first (by simp)
    obtain ⟨i2, h2⟩ := ht second (by simp)
    refine Binds.bind (Binds.joinNames hs ha) ?_
    intro _ s1 hs1 hf1 _
    refine Binds.bind (Binds.fullName_callable hs1 (Registry.callable_mono hf1.registry h1)) ?_
    intro _ s2 hs2 hf2 _
    refine Binds.bind (Binds.fullName_callable hs2
      (Registry.callable_mono (hf1.trans hf2).registry h2)) ?_
    intro _ s3 hs3 _ _
    exact (Binds.complain hs3 _ _).imp fun _ _ _ _ h => h rfl
  | [_] => simp at htwo
  | [] => simp at htwo

/-- An overload that is chosen from a group with known signatures has one of them. -/
theorem Sound.resolve {group : TypeId} {op? : Option Operator} {overloads : List Signature}
    (ho : s.registry.Offers group op? overloads) {args : List TypeId}
    (ha : ∀ a ∈ args, s.registry.IsType a) :
    ∃ o, s.registry.resolve group args = .ok o ∧
      (∀ m, o = .resolved m → ∃ sig ∈ overloads, s.registry.Accepts sig.params args ∧
        s.registry.callable m = .ok ⟨group, sig.result, sig.params, op?⟩) ∧
      (∀ tied, o = .ambiguous tied → 2 ≤ tied.length ∧
        ∀ m ∈ tied, ∃ c, s.registry.callable m = .ok c) := by
  obtain ⟨g, hg, hmembers⟩ := ho
  obtain ⟨o, hrun, hres, hamb⟩ := hs.types.wellFormed.resolve hg ha
  refine ⟨o, hrun, fun m hm => ?_, hamb⟩
  obtain ⟨hmem, info, hinfo, hacc⟩ := hres m hm
  obtain ⟨sig, hsig, hc⟩ := Registry.exists_of_mem_left hmembers hmem
  rw [hc] at hinfo
  cases hinfo
  exact ⟨sig, hsig, hacc, hc⟩

def Applies (r : Registry) (op : BinaryOperator) (callable : TypeId) (sig : Signature) : Prop :=
  r.Computes callable (.binary op) sig ∨
    r.Invokes callable sig ∧ sig.IsBuiltin ∧ (op = .notEqual → sig.result = .builtin .bool)

theorem Binds.fallback? (op : BinaryOperator) :
    Binds params s (Binder.fallback? op) fun group? c =>
      c = typing params s ∧ ∀ group, group? = some group →
        ∃ g, Library.Holds s.registry g group ∧ Library.TakesValues g ∧
          (op = .notEqual → ∀ sig ∈ g.signatures, sig.result = .builtin .bool) := by
  have hl := hs.loaded
  have hequals : ∀ sig ∈ Library.equalsGroup.signatures, sig.result = .builtin .bool := by decide
  unfold Binder.fallback?
  split
  · exact Binds.get_bind (Binds.pure hs
      ⟨rfl, by rintro _ ⟨⟩; exact ⟨_, hl.concat, by decide, by simp⟩⟩)
  · exact Binds.get_bind (Binds.pure hs
      ⟨rfl, by rintro _ ⟨⟩; exact ⟨_, hl.equals, by decide, fun _ => hequals⟩⟩)
  · exact Binds.get_bind (Binds.pure hs
      ⟨rfl, by rintro _ ⟨⟩; exact ⟨_, hl.equals, by decide, fun _ => hequals⟩⟩)
  · exact Binds.pure hs ⟨rfl, by simp⟩

/-- What choosing an overload may have led to. -/
structure Chooses (r : Registry) (op : BinaryOperator) (args : List TypeId) (o : Resolution) : Prop where
  resolved : ∀ m, o = .resolved m → ∃ sig, r.Accepts sig.params args ∧ Applies r op m sig
  ambiguous : ∀ tied, o = .ambiguous tied → 2 ≤ tied.length ∧ ∀ m ∈ tied, ∃ c, r.callable m = .ok c

/-- The callable of a binary operator fits its operands; where there is none this is reported. -/
def Resolves (op : BinaryOperator) (args : List TypeId) (o : Option TypeId) (c : Typing) : Prop :=
  (o = none → c.lenient) ∧ ∀ callable, o = some callable →
    ∃ sig, c.registry.Accepts sig.params args ∧ Applies c.registry op callable sig

theorem Binds.complainTie {op : BinaryOperator} {args tied : List TypeId}
    (ha : ∀ a ∈ args, s.registry.IsType a) (span : Span)
    (ho : Chooses s.registry op args (.ambiguous tied)) :
    Binds params s (do Binder.complainAmbiguous span op.symbol args tied; return none)
      (Resolves op args) := by
  obtain ⟨htwo, ht⟩ := ho.ambiguous tied rfl
  refine Binds.bind (Binds.complainAmbiguous hs span _ ha htwo ht) ?_
  intro _ s2 hs2 _ hl
  exact Binds.pure hs2 ⟨fun _ => hl, by simp⟩

theorem Binds.ofOutcome {op : BinaryOperator} {args : List TypeId}
    (ha : ∀ a ∈ args, s.registry.IsType a) (span : Span) {o : Resolution}
    (ho : Chooses s.registry op args o) :
    Binds params s (match o with
      | .resolved c => return some c
      | .ambiguous tied => do
        Binder.complainAmbiguous span op.symbol args tied
        return none
      | .notApplicable => do
        let operands ← Binder.ask (·.joinNames args)
        Binder.complain span (.undefinedOperator op.symbol ("(" ++ operands ++ ")"))
        return none) (Resolves op args) := by
  cases o with
  | resolved c =>
    refine Binds.pure hs ⟨by simp, ?_⟩
    rintro _ ⟨⟩
    exact ho.resolved c rfl
  | ambiguous tied => exact Binds.complainTie hs ha span ho
  | notApplicable =>
    refine Binds.bind (Binds.joinNames hs ha) ?_
    intro _ s2 hs2 _ _
    refine Binds.bind (Binds.complain hs2 _ _) ?_
    intro _ s3 hs3 _ hl
    exact Binds.pure hs3 ⟨fun _ => hl rfl, by simp⟩

theorem Binds.resolveBinary (op : BinaryOperator) {args : List TypeId}
    (ha : ∀ a ∈ args, s.registry.IsType a) (span : Span) :
    Binds params s (Binder.resolveBinary op args span) (Resolves op args) := by
  obtain ⟨o, hrun, hres, hamb⟩ := hs.resolve (hs.offers (mem_all_binary op)) ha
  have ho : Chooses s.registry op args o := by
    refine ⟨fun m hm => ?_, hamb⟩
    obtain ⟨sig, hsig, hacc, hc⟩ := hres m hm
    exact ⟨sig, hacc, .inl ⟨⟨_, hc⟩, hsig⟩⟩
  unfold Binder.resolveBinary
  refine Binds.get_bind (Binds.ask_bind hrun ?_)
  cases o with
  | resolved c => exact Binds.ofOutcome hs ha span ho
  | ambiguous tied => exact Binds.complainTie hs ha span ho
  | notApplicable =>
    refine Binds.bind (Binds.fallback? hs op) ?_
    rintro group? s1 hs1 hf1 ⟨hc, hgroup⟩
    have hreg : s1.registry = s.registry := congrArg Typing.registry hc
    cases group? with
    | none => exact Binds.ofOutcome hs1 (hreg ▸ ha) span (o := .notApplicable) ⟨by simp, by simp⟩
    | some group =>
      obtain ⟨g, hg, hvalues, hbool⟩ := hgroup group rfl
      obtain ⟨o, hrun, hres, hamb⟩ := hs.resolve hg.offers ha
      refine Binds.ask_bind (hreg ▸ hrun) (Binds.ofOutcome hs1 (hreg ▸ ha) span ?_)
      rw [hreg]
      refine ⟨fun m hm => ?_, hamb⟩
      obtain ⟨sig, hsig, hacc, hcall⟩ := hres m hm
      exact ⟨sig, hacc, .inr ⟨⟨_, hcall⟩, hvalues.isBuiltin sig hsig, fun h => hbool h sig hsig⟩⟩

/-- The callable of logical negation computes it. -/
theorem Binds.negation :
    Binds params s Binder.negation fun t c =>
      c.registry.Computes t (.unary .not) ⟨.builtin .bool, [.builtin .bool]⟩ := by
  obtain ⟨g, hg, hmembers⟩ := hs.offers (mem_all_unary .not)
  unfold Binder.negation
  refine Binds.get_bind (Binds.ask_bind (Registry.members_eq_ok hg) (Binds.pure hs ?_))
  have hsig : Intrinsics.signatures (.unary .not) = [⟨.builtin .bool, [.builtin .bool]⟩] := rfl
  rw [hsig] at hmembers
  cases hgm : g.members with
  | nil =>
    rw [hgm] at hmembers
    cases hmembers
  | cons m rest =>
    rw [hgm] at hmembers
    cases hmembers with
    | cons h _ => exact ⟨⟨_, h⟩, by simp [hsig]⟩

theorem Binds.applyBinary (op : BinaryOperator) {left right : Expr}
    (hl : HasValue (typing params s) left) (hr : HasValue (typing params s) right) (span : Span) :
    Binds params s (Binder.applyBinary op left right span) fun e c => e.Typed c := by
  unfold Binder.applyBinary
  split
  · next herr =>
    refine Binds.pure hs (typed_invalid ?_ _ _)
    obtain he | he := Bool.or_eq_true_iff.1 herr
    · exact hl.lenient hs he
    · exact hr.lenient hs he
  · have hargs : ∀ a ∈ [left.type, right.type], s.registry.IsType a := by
      simp only [List.mem_cons, List.not_mem_nil, or_false]
      rintro a (rfl | rfl)
      · exact hl.isType hs
      · exact hr.isType hs
    refine Binds.bind (Binds.resolveBinary hs op hargs span) ?_
    rintro o s1 hs1 hf1 ⟨hnone, hsome⟩
    cases o with
    | none => exact Binds.pure hs1 (typed_invalid (hnone rfl) _ _)
    | some c =>
      obtain ⟨sig, hacc, happ⟩ := hsome c rfl
      have hargs' : ∀ e ∈ [left, right], HasValue (typing params s1) e := by
        simp only [List.mem_cons, List.not_mem_nil, or_false]
        rintro e (rfl | rfl)
        · exact hl.mono hs hf1.toGrows
        · exact hr.mono hs hf1.toGrows
      obtain ⟨⟨g, hg⟩, hmem⟩ | ⟨⟨g, hg⟩, -, hbool⟩ := happ
      · refine Binds.ask_bind hg ?_
        refine Binds.bind (Binds.coerceAll hs1 hargs' (hs1.declarable hg) hacc) ?_
        rintro es s2 hs2 hf2 ⟨hes, htypes⟩
        have hlen : es.length = 2 := by
          rw [← List.length_map (f := Expr.type), htypes, Registry.Accepts.length_eq hacc]
          rfl
        obtain ⟨x, y, rfl⟩ := List.length_eq_two.1 hlen
        refine Binds.pure hs2 ?_
        simp only [Expr.Typed]
        refine ⟨(hes x (by simp)).1, (hes y (by simp)).1, op, ?_⟩
        have hsig : (⟨sig.result, [x.type, y.type]⟩ : Signature) = sig := by
          rw [show [x.type, y.type] = sig.params from htypes]
        rw [hsig]
        exact ⟨⟨g, Registry.callable_mono hf2.registry hg⟩, hmem⟩
      · refine Binds.ask_bind hg ?_
        refine Binds.bind (Binds.coerceAll hs1 hargs' (hs1.declarable hg) hacc) ?_
        rintro es s2 hs2 hf2 ⟨hes, htypes⟩
        have hg2 := Registry.callable_mono hf2.registry hg
        have hcall : (Expr.call span c es sig.result).Typed (typing params s2) := by
          simp only [Expr.Typed, typedAll_iff]
          exact ⟨fun e he => (hes e he).1, ⟨g, by rw [htypes]; exact hg2⟩,
            fun he => hs2.types.errors hg2 (.inl he)⟩
        have hgoal : Binds params s2 (if op = .notEqual then do
            return Expr.unary span (← Binder.negation) (.call span c es sig.result) (.builtin .bool)
          else return Expr.call span c es sig.result) fun e c => e.Typed c := by
          split
          · next hop =>
            refine Binds.bind (Binds.negation hs2) ?_
            intro n s3 hs3 hf3 hn
            refine Binds.pure hs3 ?_
            have hcall' := Expr.Typed.mono hs2.types.wellFormed (hf3.extends params) _ hcall
            rw [Expr.Typed]
            refine ⟨hcall', .not, ?_⟩
            simpa [Expr.type, hbool hop] using hn
          · exact Binds.pure hs2 hcall
        exact hgoal

theorem Binds.applyUnary (op : UnaryOperator) {operand : Expr}
    (he : HasValue (typing params s) operand) (span : Span) :
    Binds params s (Binder.applyUnary op operand span) fun e c => e.Typed c := by
  unfold Binder.applyUnary
  split
  · next herr => exact Binds.pure hs (typed_invalid (he.lenient hs herr) _ _)
  · have hargs : ∀ a ∈ [operand.type], s.registry.IsType a := by
      simpa using he.isType hs
    obtain ⟨o, hrun, hres, hamb⟩ := hs.resolve (hs.offers (mem_all_unary op)) hargs
    refine Binds.get_bind (Binds.ask_bind hrun ?_)
    cases o with
    | resolved c =>
      obtain ⟨sig, hsig, hacc, hc⟩ := hres c rfl
      refine Binds.ask_bind hc ?_
      obtain ⟨p, hp⟩ := List.length_eq_one_iff.1 (hacc.length_eq.trans (by rfl))
      have hdecl := hs.declarable hc p (by simp [hp])
      have hadapt : s.registry.Adapts operand.type p := by
        rw [hp] at hacc
        cases hacc with
        | cons h _ => exact h
      simp only [hp, List.headD_cons]
      refine Binds.bind (Binds.coerce hs he hdecl hadapt) ?_
      rintro e s1 hs1 hf1 ⟨hv, ht⟩
      refine Binds.pure hs1 ?_
      simp only [Expr.Typed]
      refine ⟨hv.1, op, ?_⟩
      have heq : (⟨sig.result, [e.type]⟩ : Signature) = sig := by rw [ht, ← hp]
      rw [heq]
      exact ⟨⟨_, Registry.callable_mono hf1.registry hc⟩, hsig⟩
    | ambiguous tied =>
      obtain ⟨htwo, ht⟩ := hamb tied rfl
      refine Binds.bind (Binds.complainAmbiguous hs span _ hargs htwo ht) ?_
      intro _ s1 hs1 _ hl
      exact Binds.pure hs1 (typed_invalid hl _ _)
    | notApplicable =>
      refine Binds.bind (Binds.fullName hs (he.isType hs)) ?_
      intro _ s1 hs1 _ _
      exact (Binds.invalid hs1 _ _ _ rfl _).imp fun _ _ _ _ h => h.1.1

omit hs in
/-- A target that may be assigned to is a place. -/
theorem isPlace_of_category {c : Typing} {e : Expr} (he : e.Typed c) (hc : e.category = .modifiable) :
    e.IsPlace := by
  cases e with
  | symbol span sym =>
    simp only [Expr.Typed] at he
    have hv := he.1.visible
    simp only [Expr.category, Symbol.category] at hc
    simp only [Expr.IsPlace]
    split at hc
    · cases hc
    · next h => exact .inl h
    · next h => exact .inr h
    · next path h =>
      simp only [Typing.Visible, h, Library.allFields, List.mem_singleton,
        LibraryField.mk.injEq] at hv
      simp [hv.2.2] at hc
    · cases hc
  | index span target index t =>
    simp only [Expr.category] at hc
    split at hc
    · cases hc
    · next h => exact h
  | call span callable args t =>
    simp only [Expr.category] at hc
    split at hc <;> cases hc
  | _ => cases hc

theorem Binds.applyCompound {op : BinaryOperator} (hop : op.isShortCircuit = false)
    {target value : Expr} (ht : target.Typed (typing params s)) (hp : target.IsPlace)
    (hv : HasValue (typing params s) value) (span : Span) :
    Binds params s (Binder.applyCompound op target value span) fun e c => e.Typed c := by
  have hplace := Expr.Typed.place hs.types.wellFormed hp ht
  have htv : HasValue (typing params s) target := ⟨ht, hplace.2.1⟩
  have hvalue : HasValue (typing params s) ((value.retype? target.type).getD value) := by
    cases hr : value.retype? target.type with
    | none => exact hv
    | some v => exact (retype?_typed hr).1
  unfold Binder.applyCompound
  generalize (value.retype? target.type).getD value = value at hvalue ⊢
  have hargs : ∀ a ∈ [target.type, value.type], s.registry.IsType a := by
    simp only [List.mem_cons, List.not_mem_nil, or_false]
    rintro a (rfl | rfl)
    · exact hplace.1
    · exact hvalue.isType hs
  refine Binds.bind (Binds.resolveBinary hs op hargs span) ?_
  rintro o s1 hs1 hf1 ⟨hnone, hsome⟩
  cases o with
  | none => exact Binds.pure hs1 (typed_invalid (hnone rfl) _ _)
  | some c =>
    obtain ⟨sig, hacc, happ⟩ := hsome c rfl
    have hcomb : s1.registry.Combines c sig := by
      obtain hc | ⟨hc, hb, -⟩ := happ
      · exact .inl ⟨op, hop, hc⟩
      · exact .inr ⟨hc, hb⟩
    obtain ⟨info, hinfo, hres, hpar⟩ := hcomb.callable
    have hargs' : ∀ e ∈ [target, value], HasValue (typing params s1) e := by
      simp only [List.mem_cons, List.not_mem_nil, or_false]
      rintro e (rfl | rfl)
      · exact htv.mono hs hf1.toGrows
      · exact hvalue.mono hs hf1.toGrows
    have htype1 := (hargs' target (by simp)).isType hs1
    refine Binds.ask_bind hinfo ?_
    refine Binds.bind (Binds.coerceAll hs1 hargs' (hs1.declarable hinfo) (hpar ▸ hacc)) ?_
    rintro es s2 hs2 hf2 ⟨hes, htypes⟩
    have hlen : es.length = 2 := by
      rw [← List.length_map (f := Expr.type), htypes, hpar, hacc.length_eq]
      rfl
    obtain ⟨x, y, rfl⟩ := List.length_eq_two.1 hlen
    have hparams : sig.params = [x.type, y.type] := hpar.symm.trans htypes.symm
    have hresult : s1.registry.IsType info.result := hs1.types.wellFormed.callable_result hinfo
    have hadapt : s1.registry.Adapts target.type x.type := by
      rw [hparams] at hacc
      cases hacc with
      | cons h _ => exact h
    have hx : s1.registry.IsType x.type :=
      (hs1.types.wellFormed.callable_params hinfo x.type (by simp [hpar, hparams])).1
    have hfinish : ∀ storable : Bool,
        (storable = true → s2.registry.Adapts info.result target.type) →
        Binds params s2 (if storable then return Expr.compound span target c y else do
          Binder.complain span (.cannotStore op.symbol (← Binder.fullName info.result)
            (← Binder.fullName target.type))
          return Expr.invalid span [target, value]) fun e c => e.Typed c := by
      intro storable hst
      cases storable with
      | true =>
        refine Binds.pure hs2 ?_
        simp only [Expr.Typed]
        refine ⟨hp, ((hargs' target (by simp)).mono hs1 hf2.toGrows).1, (hes y (by simp)).1,
          x.type, sig.result, ?_, hadapt.mono hf2.registry htype1 hx, hres ▸ hst rfl⟩
        have hsig : (⟨sig.result, [x.type, y.type]⟩ : Signature) = sig := by rw [← hparams]
        rw [hsig]
        exact hcomb.mono hf2.registry
      | false =>
        refine Binds.bind (Binds.fullName hs2 (hresult.mono hf2.registry)) ?_
        intro _ s4 hs4 hf4 _
        refine Binds.bind (Binds.fullName hs4 (htype1.mono (hf2.trans hf4).registry)) ?_
        intro _ s5 hs5 _ _
        exact (Binds.invalid hs5 _ _ _ rfl _).imp fun _ _ _ _ h => h.1.1
    split
    · next heq => exact hfinish true fun _ => .inl heq
    · obtain ⟨b, hb, hi⟩ := Registry.isImplicitlyConvertible_eq (hresult.mono hf2.registry)
        (htype1.mono hf2.registry)
      exact Binds.ask_bind hb (hfinish b hi)

omit hs in
/-- What was bound without mistakes, but has no value, cannot be assigned to. -/
theorem typed_of_modifiable {c : Typing} {e : Expr} (h : IsBound c e)
    (hc : e.category = .modifiable) : e.Typed c := by
  obtain ht | ⟨_, _, _, rfl, -⟩ | ⟨_, _, rfl⟩ := h
  · exact ht
  · cases hc
  · cases hc

theorem Binds.applyAssignment {op : Option BinaryOperator}
    (hop : ∀ o, op = some o → o.isShortCircuit = false) {target value : Expr}
    (ht : IsBound (typing params s) target) (hv : HasValue (typing params s) value)
    (targetSpan valueSpan span : Span) :
    Binds params s (Binder.applyAssignment op target value targetSpan valueSpan span)
      fun e c => e.Typed c := by
  unfold Binder.applyAssignment
  split
  · next herr =>
    refine Binds.pure hs (typed_invalid ?_ _ _)
    obtain ht | ⟨_, _, g, rfl, i, rfl, -⟩ | ⟨_, _, rfl⟩ := ht
    · exact Expr.Typed.lenient hs.types.wellFormed ht (by simpa [Expr.isError] using herr)
    · simp [Expr.isError, Expr.type] at herr
    · simp [Expr.isError, Expr.type] at herr
  · next herr =>
    split
    · exact (Binds.invalid hs _ _ _ rfl _).imp fun _ _ _ _ h => h.1.1
    · next hcat =>
      have hcat : target.category = .modifiable := by simpa using hcat
      have htyped := typed_of_modifiable ht hcat
      have hplace := isPlace_of_category htyped hcat
      obtain ⟨htype, hvoid, hlenient⟩ := Expr.Typed.place hs.types.wellFormed hplace htyped
      split
      · next hverr => exact Binds.pure hs (typed_invalid (hv.lenient hs hverr) _ _)
      · cases op with
        | some o => exact Binds.applyCompound hs (hop o rfl) htyped hplace hv span
        | none =>
          refine Binds.bind (Binds.convertImplicit hs hv ⟨htype, hvoid, hlenient⟩ valueSpan) ?_
          rintro e s1 hs1 hf1 ⟨he, htypes⟩
          refine Binds.pure hs1 ?_
          simp only [Expr.Typed]
          refine ⟨hplace, Expr.Typed.mono hs.types.wellFormed (hf1.extends params) _ htyped, he.1, ?_⟩
          obtain h | h | h := htypes
          · exact .inl h
          · exact .inr (Expr.Typed.lenient hs1.types.wellFormed he.1 h)
          · exact absurd h (by simpa [Expr.isError] using herr)

theorem Binds.applyCall {callee : Expr} (hc : IsBound (typing params s) callee) {args : List Expr}
    (ha : ∀ e ∈ args, HasValue (typing params s) e) (calleeSpan span : Span) :
    Binds params s (Binder.applyCall callee args calleeSpan span) fun e c => e.Typed c := by
  unfold Binder.applyCall
  split
  · next herr =>
    refine Binds.pure hs (typed_invalid ?_ _ _)
    obtain ht | ⟨_, _, g, rfl, i, rfl, -⟩ | ⟨_, _, rfl⟩ := hc
    · exact Expr.Typed.lenient hs.types.wellFormed ht (by simpa [Expr.isError] using herr)
    · simp [Expr.isError, Expr.type] at herr
    · simp [Expr.isError, Expr.type] at herr
  · split
    · next name group _ =>
      have hown : IsOwnGroup s.registry group := by
        obtain ht | ⟨_, _, g, heq, hg⟩ | ⟨_, _, heq⟩ := hc
        · exact ht.elim
        · cases heq
          exact hg
        · cases heq
      split
      · next herr =>
        obtain ⟨e, he, hee⟩ := List.any_eq_true.1 herr
        exact Binds.pure hs (typed_invalid ((ha e he).lenient hs hee) _ _)
      · have htypes : ∀ t ∈ args.map Expr.type, s.registry.IsType t := by
          intro t ht
          obtain ⟨e, he, rfl⟩ := List.mem_map.1 ht
          exact (ha e he).isType hs
        obtain ⟨g, hg⟩ := hown.group
        obtain ⟨o, hrun, hres, hamb⟩ := hs.types.wellFormed.resolve hg htypes
        refine Binds.ask_bind hrun ?_
        cases o with
        | resolved c =>
          obtain ⟨hmem, info, hinfo, hacc⟩ := hres c rfl
          have hplain := hs.types.routines hown hg c hmem info hinfo
          refine Binds.ask_bind hinfo ?_
          refine Binds.bind (Binds.coerceAll hs ha (hs.declarable hinfo) hacc) ?_
          rintro es s1 hs1 hf1 ⟨hes, hts⟩
          have hinfo1 := Registry.callable_mono hf1.registry hinfo
          refine Binds.pure hs1 ?_
          simp only [Expr.Typed, typedAll_iff]
          refine ⟨fun e he => (hes e he).1, ⟨info.group, ?_⟩, fun he => hs1.types.errors hinfo1 (.inl he)⟩
          rw [hts, ← hplain]
          exact hinfo1
        | ambiguous tied =>
          obtain ⟨htwo, ht⟩ := hamb tied rfl
          refine Binds.bind (Binds.complainAmbiguous hs span _ htypes htwo ht) ?_
          intro _ s1 hs1 _ hl
          exact Binds.pure hs1 (typed_invalid hl _ _)
        | notApplicable =>
          refine Binds.bind (Binds.joinNames hs htypes) ?_
          intro _ s1 hs1 _ _
          exact (Binds.invalid hs1 _ _ _ rfl _).imp fun _ _ _ _ h => h.1.1
    · next hng =>
      have htype : s.registry.IsType callee.type := by
        obtain ht | ⟨_, _, _, rfl, -⟩ | ⟨_, _, rfl⟩ := hc
        · exact Expr.Typed.isType hs.types.wellFormed ht
        · exact absurd rfl (hng _ _ _)
        · trivial
      refine Binds.bind (Binds.fullName hs htype) ?_
      intro _ s1 hs1 _ _
      exact (Binds.invalid hs1 _ _ _ rfl _).imp fun _ _ _ _ h => h.1.1

end

end Binder
end TypedScript
