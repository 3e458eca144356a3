import TypedScript.Proofs.Binding.Provenance
import TypedScript.Proofs.Bound.Parts
import TypedScript.Proofs.Types.Arrays

/-!
# Every mistake in an expression is reported

Binding an expression only adds errors to the report. Where it adds none and no name in scope involves
the error type, no part of the bound expression does, and the expression makes sense without passing
anything over.
-/

namespace TypedScript

namespace Registry

theorem group_of_members {r : Registry} {t : TypeId} {ms : List TypeId}
    (h : r.members t = .ok ms) : ∃ g, r.group t = .ok g ∧ g.members = ms := by
  cases hg : r.group t with
  | error d => simp [Registry.members, hg, bind, Except.bind] at h
  | ok g =>
    rw [members_eq_ok hg] at h
    cases h
    exact ⟨g, rfl, rfl⟩

/-- The candidates that are left are among those that were given. -/
theorem mem_of_cheapestFrom {r : Registry} {args candidates ms : List TypeId}
    {best : Option (Nat × List TypeId)} (h : r.cheapestFrom args best candidates = .ok ms)
    {m : TypeId} (hm : m ∈ ms) : m ∈ candidates ∨ ∃ p, best = some p ∧ m ∈ p.2 := by
  induction candidates generalizing best with
  | nil =>
    cases h
    cases best with
    | none => simp at hm
    | some p => exact .inr ⟨p, rfl, hm⟩
  | cons c rest ih =>
    unfold cheapestFrom at h
    cases hc : r.callable c with
    | error d => simp [hc, bind, Except.bind] at h
    | ok info =>
      cases hcost : r.conversionCost info.params args with
      | error d => simp [hc, hcost, bind, Except.bind] at h
      | ok o =>
        simp only [hc, hcost, bind, Except.bind] at h
        have hkeep : ∀ b, r.cheapestFrom args b rest = .ok ms →
            (∀ p, b = some p → ∀ x ∈ p.2, x = c ∨ ∃ q, best = some q ∧ x ∈ q.2) →
            m ∈ c :: rest ∨ ∃ p, best = some p ∧ m ∈ p.2 := by
          intro b hb hfrom
          obtain hrest | ⟨p, rfl, hp⟩ := ih hb
          · exact .inl (List.mem_cons_of_mem _ hrest)
          · obtain rfl | hq := hfrom p rfl m hp
            · exact .inl List.mem_cons_self
            · exact .inr hq
        have hsame : ∀ p, best = some p → ∀ x ∈ p.2, x = c ∨ ∃ q, best = some q ∧ x ∈ q.2 :=
          fun p hp x hx => .inr ⟨p, hp, hx⟩
        have hnew : ∀ (n : Nat) p, some (n, [c]) = some p →
            ∀ x ∈ p.2, x = c ∨ ∃ q, best = some q ∧ x ∈ q.2 := by
          rintro n _ ⟨⟩ x hx
          exact .inl (List.mem_singleton.1 hx)
        split at h
        · exact hkeep _ h hsame
        · exact hkeep _ h (hnew _)
        · next least tied cost =>
          split at h
          · exact hkeep _ h (hnew _)
          · split at h
            · refine hkeep _ h ?_
              rintro _ ⟨⟩ x hx
              obtain hx | hx := List.mem_append.1 hx
              · exact .inr ⟨_, rfl, hx⟩
              · exact .inl (List.mem_singleton.1 hx)
            · exact hkeep _ h hsame

/-- What is chosen is an overload of the group, and a tie is between two at least. -/
theorem resolve_eq_ok {r : Registry} {group : TypeId} {args : List TypeId} {o : Resolution}
    (h : r.resolve group args = .ok o) :
    (∀ m, o = .resolved m → ∃ g, r.group group = .ok g ∧ m ∈ g.members) ∧
      ∀ tied, o = .ambiguous tied → 2 ≤ tied.length := by
  cases hms : r.members group with
  | error d => simp [Registry.resolve, hms, bind, Except.bind] at h
  | ok ms =>
    cases hcs : r.cheapestFrom args none ms with
    | error d => simp [Registry.resolve, hms, hcs, bind, Except.bind] at h
    | ok cs =>
      simp only [Registry.resolve, hms, hcs, bind, Except.bind, pure, Except.pure] at h
      cases h
      obtain ⟨g, hg, rfl⟩ := group_of_members hms
      cases cs with
      | nil => exact ⟨by simp [Resolution.ofCheapest], by simp [Resolution.ofCheapest]⟩
      | cons c rest =>
        cases rest with
        | nil =>
          refine ⟨?_, by simp [Resolution.ofCheapest]⟩
          rintro _ ⟨⟩
          exact ⟨g, hg, (mem_of_cheapestFrom hcs (by simp)).resolve_right (by simp)⟩
        | cons d rest =>
          refine ⟨by simp [Resolution.ofCheapest], ?_⟩
          rintro _ ⟨⟩
          simp

theorem group_of_push_array {r : Registry} {t v : TypeId} {g : Overloads}
    (h : (r.push (.array t)).2.group v = .ok g) : r.group v = .ok g := by
  rw [group_eq_ok] at h ⊢
  cases v with
  | derived i =>
    rw [get?_derived, getElem?_push] at h
    split at h
    · cases h
    · exact h
  | _ => simp [Registry.get?] at h

theorem element_of_push_array {r : Registry} {t v u : TypeId}
    (h : (r.push (.array t)).2.element v = .ok u) : r.element v = .ok u ∨ u = t := by
  rw [element_eq_ok] at h ⊢
  cases v with
  | derived i =>
    rw [get?_derived, getElem?_push] at h
    split at h
    · cases h
      exact .inr rfl
    · exact .inl h
  | _ => simp [Registry.get?] at h

end Registry

namespace Binder

open TypedScript.Binding TypedScript.Bound

/-- A state with array types more, in the same scopes. -/
structure Enlarges (s s' : State) : Prop where
  scope : s'.scope = s.scope
  library : s'.library = s.library
  intrinsics : s'.intrinsics = s.intrinsics
  registry : s.registry.AddsArrays s'.registry

theorem Enlarges.refl (s : State) : Enlarges s s := ⟨rfl, rfl, rfl, Registry.AddsArrays.refl _⟩

theorem Enlarges.trans {s t u : State} (h : Enlarges s t) (k : Enlarges t u) : Enlarges s u :=
  ⟨k.scope.trans h.scope, k.library.trans h.library, k.intrinsics.trans h.intrinsics,
    h.registry.trans k.registry⟩

/-- The later state has the given diagnostics behind those of the earlier one, all of them errors.
Apart from that there are only new array types. -/
structure Adds (s s' : State) (d : List Diagnostic) : Prop extends Enlarges s s' where
  report : s'.report.items.toList = s.report.items.toList ++ d
  errors : ∀ x ∈ d, x.isError

theorem Adds.refl (s : State) : Adds s s [] := ⟨Enlarges.refl s, by simp, by simp⟩

theorem Adds.trans {s t u : State} {d e : List Diagnostic} (h : Adds s t d) (k : Adds t u e) :
    Adds s u (d ++ e) := by
  refine ⟨h.toEnlarges.trans k.toEnlarges, by rw [k.report, h.report, List.append_assoc], ?_⟩
  intro x hx
  exact (List.mem_append.1 hx).elim (h.errors x) (k.errors x)

/-- No symbol in scope has the error type, and no function in scope has it in its signature. -/
structure Untainted (s : State) : Prop where
  symbols : ∀ sym, InScope s.scope sym → sym.type ≠ .error
  functions : ∀ sym, InScope s.scope sym → sym.kind = .overloads → s.registry.ClearGroup sym.type

/-- Nothing that expressions can refer to involves the error type. -/
structure Clear (s : State) : Prop extends Untainted s where
  operators : ∀ op ∈ Intrinsics.all, s.registry.ClearGroup (s.intrinsics.group op)
  concat : s.registry.ClearGroup s.library.concat
  equals : s.registry.ClearGroup s.library.equals
  toText : s.registry.ClearCallable s.library.toText

/-- A state that differs from the first one by new array types, whose elements are no errors. -/
structure Beside (base s : State) : Prop where
  scope : s.scope = base.scope
  library : s.library = base.library
  intrinsics : s.intrinsics = base.intrinsics
  callables : ∀ t c, s.registry.callable t = .ok c → base.registry.callable t = .ok c
  groups : ∀ t g, s.registry.group t = .ok g → base.registry.group t = .ok g
  elements : ∀ t u, s.registry.element t = .ok u → u ≠ .error

theorem Beside.push_array {base s : State} (h : Beside base s) {t : TypeId}
    (ht : t ≠ .error) : Beside base { s with registry := (s.registry.push (.array t)).2 } where
  scope := h.scope
  library := h.library
  intrinsics := h.intrinsics
  callables v c hc := h.callables v c (Finds.callable_of_push (by simp) hc)
  groups v g hg := h.groups v g (Registry.group_of_push_array hg)
  elements v u hu := by
    obtain hold | rfl := Registry.element_of_push_array hu
    · exact h.elements v u hold
    · exact ht

/-- A step of binding adds errors to the report. If it adds none, it only makes array types, and what
it returns is as said. -/
def Tells {α : Type} (base : State) (m : Binder α) (Q : α → Prop) : Prop :=
  ∀ s a s', m s = .ok (a, s') →
    ∃ d, Adds s s' d ∧ (d = [] → Beside base s → Beside base s' ∧ Q a)

section

variable {α β : Type} {base : State}

namespace Tells

theorem pure {a : α} {Q : α → Prop} (h : Q a) : Tells base (Pure.pure a) Q := by
  intro s b s' hrun
  cases hrun
  exact ⟨[], Adds.refl s, fun _ hs => ⟨hs, h⟩⟩

/-- A step after one whose results have a property in any case. -/
theorem bindOf {m : Binder α} {f : α → Binder β} {P Q : α → Prop} {R : β → Prop}
    (hm : Tells base m Q) (hP : ∀ s a s', m s = .ok (a, s') → P a)
    (hf : ∀ a, P a → Tells base (f a) fun b => Q a → R b) : Tells base (m >>= f) R := by
  intro s b s' hrun
  obtain ⟨a, s₁, hrun₁, hrun₂⟩ := bind_eq_ok hrun
  obtain ⟨d, hd, hq⟩ := hm s a s₁ hrun₁
  obtain ⟨e, he, hr⟩ := hf a (hP s a s₁ hrun₁) s₁ b s' hrun₂
  refine ⟨d ++ e, hd.trans he, fun hnil hs => ?_⟩
  obtain ⟨rfl, rfl⟩ := List.append_eq_nil_iff.1 hnil
  obtain ⟨hs₁, ha⟩ := hq rfl hs
  obtain ⟨hs', hb⟩ := hr rfl hs₁
  exact ⟨hs', hb ha⟩

theorem bind {m : Binder α} {f : α → Binder β} {Q : α → Prop} {R : β → Prop}
    (hm : Tells base m Q) (hf : ∀ a, Tells base (f a) fun b => Q a → R b) :
    Tells base (m >>= f) R :=
  bindOf hm (fun _ _ _ _ => trivial) fun a _ => hf a

theorem imp {m : Binder α} {Q R : α → Prop} (hm : Tells base m Q) (h : ∀ a, Q a → R a) :
    Tells base m R := by
  intro s a s' hrun
  obtain ⟨d, hd, hq⟩ := hm s a s' hrun
  exact ⟨d, hd, fun hnil hs => (hq hnil hs).imp_right (h a)⟩

/-- A step whose result does not matter. -/
theorem andThen {m : Binder α} {f : α → Binder β} {Q : α → Prop} {R : β → Prop}
    (hm : Tells base m Q) (hf : ∀ a, Tells base (f a) R) : Tells base (m >>= f) R :=
  bind hm fun a => (hf a).imp fun _ h _ => h

theorem get_bind {k : State → Binder β} {R : β → Prop}
    (h : ∀ s, Tells base (k s) fun b => Beside base s → R b) : Tells base (get >>= k) R := by
  intro s b s' hrun
  obtain ⟨d, hd, hq⟩ := h s s b s' hrun
  refine ⟨d, hd, fun hnil hs => ?_⟩
  obtain ⟨hs', hb⟩ := hq hnil hs
  exact ⟨hs', hb hs⟩

theorem throw {d : Defect} {Q : α → Prop} : Tells base (MonadExcept.throw d) Q := by
  intro s a s' hrun
  cases hrun

/-- Nothing can be said of the result where an error is reported. -/
theorem complain (span : Span) {c : Complaint} (hc : c.severity = .error) :
    Tells base (Binder.complain span c) fun _ => False := by
  intro s a s' hrun
  cases hrun
  refine ⟨[c.diagnostic span],
    ⟨⟨rfl, rfl, rfl, Registry.AddsArrays.refl _⟩, by simp [Report.add], ?_⟩, by simp⟩
  intro x hx
  rw [List.mem_singleton.1 hx]
  simp [Complaint.diagnostic, Diagnostic.isError, hc]

/-- A result that comes with an error. -/
theorem reject (span : Span) {c : Complaint} (hc : c.severity = .error) (a : α) {Q : α → Prop} :
    Tells base (do Binder.complain span c; return a) Q :=
  bind (complain span hc) fun _ => pure False.elim

theorem ask_eq_ok {f : Registry → Except Defect α} {s s' : State} {a : α}
    (h : Binder.ask f s = .ok (a, s')) : f s.registry = .ok a ∧ s' = s := by
  obtain ⟨s₁, s₂, hget, h⟩ := bind_eq_ok h
  cases hget
  exact lift_eq_ok h

theorem ask (f : Registry → Except Defect α) :
    Tells base (Binder.ask f) fun a => ∃ s, Beside base s ∧ f s.registry = .ok a := by
  intro s a s' hrun
  obtain ⟨hf, rfl⟩ := ask_eq_ok hrun
  exact ⟨[], Adds.refl _, fun _ hs => ⟨hs, s', hs, hf⟩⟩

theorem fullName (t : TypeId) : Tells base (Binder.fullName t) fun _ => True :=
  (ask _).imp fun _ _ => trivial

theorem callable (t : TypeId) :
    Tells base (Binder.ask (·.callable t)) fun c => base.registry.callable t = .ok c := by
  refine (ask _).imp ?_
  rintro c ⟨s, hs, hc⟩
  exact hs.callables t c hc

theorem resolve (group : TypeId) (args : List TypeId) :
    Tells base (Binder.ask (·.resolve group args)) fun o =>
      (∀ m, o = .resolved m → ∃ g, base.registry.group group = .ok g ∧ m ∈ g.members) ∧
        ∀ tied, o = .ambiguous tied → 2 ≤ tied.length := by
  refine (ask _).imp ?_
  rintro o ⟨s, hs, ho⟩
  obtain ⟨hres, hamb⟩ := Registry.resolve_eq_ok ho
  refine ⟨fun m hm => ?_, hamb⟩
  obtain ⟨g, hg, hmem⟩ := hres m hm
  exact ⟨g, hs.groups _ g hg, hmem⟩

theorem markRead (sym : Symbol) : Tells base (Binder.markRead sym) fun _ => True := by
  intro s a s' hrun
  unfold Binder.markRead at hrun
  rw [run_modify] at hrun
  split at hrun
  · cases hrun
    exact ⟨[], Adds.refl s, fun _ hs => ⟨hs, trivial⟩⟩
  · cases hrun
    refine ⟨[], ⟨⟨rfl, rfl, rfl, Registry.AddsArrays.refl _⟩, by simp, by simp⟩,
      fun _ hs => ⟨?_, trivial⟩⟩
    exact ⟨hs.scope, hs.library, hs.intrinsics, hs.callables, hs.groups, hs.elements⟩

/-! Types -/

theorem register_eq_ok {f : Registry → Except Defect (α × Registry)} {s s' : State} {a : α}
    (h : Binder.register f s = .ok (a, s')) :
    ∃ r, f s.registry = .ok (a, r) ∧ s' = { s with registry := r } := by
  change (liftM (f s.registry) >>= fun p => (do
    modify fun s => { s with registry := p.2 }
    return p.1 : Binder α)) s = _ at h
  obtain ⟨p, s₁, hlift, hset⟩ := bind_eq_ok h
  obtain ⟨hp, rfl⟩ := lift_eq_ok hlift
  cases hset
  exact ⟨p.2, hp, rfl⟩

theorem arrayOf {t : TypeId} (ht : t ≠ .error) :
    Tells base (Binder.register (·.arrayOf t)) fun _ => True := by
  intro s u s' hrun
  obtain ⟨r, hr, rfl⟩ := register_eq_ok hrun
  have hadds := Registry.addsArrays_arrayOf hr
  refine ⟨[], ⟨⟨rfl, rfl, rfl, hadds⟩, by simp, by simp⟩, fun _ hs => ⟨?_, trivial⟩⟩
  obtain ⟨i, -, -, rfl⟩ | ⟨-, -, -, rfl⟩ := Registry.arrayOf_eq_ok hr
  · exact hs
  · exact hs.push_array ht

theorem ne_error_of_arrayOf {t u : TypeId} (s s' : State)
    (h : Binder.register (·.arrayOf t) s = .ok (u, s')) : u ≠ .error := by
  obtain ⟨r, hr, -⟩ := register_eq_ok h
  obtain ⟨i, -, rfl, -⟩ | ⟨-, -, rfl, -⟩ := Registry.arrayOf_eq_ok hr
  · simp
  · simp

theorem arrays (n : Nat) {t : TypeId} (ht : t ≠ .error) :
    Tells base (Binder.resolveType.arrays n t) fun u => u ≠ .error := by
  induction n generalizing t with
  | zero => exact pure ht
  | succ n ih =>
    refine bindOf (arrayOf ht) (fun s u s' h => ne_error_of_arrayOf s s' h) fun u hu => ?_
    exact (ih hu).imp fun _ h _ => h

theorem resolveType (t : Parsed.TypeName) :
    Tells base (Binder.resolveType t) fun u => u ≠ .error := by
  unfold Binder.resolveType
  split
  · exact reject _ rfl _
  · split
    · exact reject _ rfl _
    · exact arrays _ (by simp)

theorem valueType (t : Parsed.TypeName) :
    Tells base (Binder.valueType t) fun u => u ≠ .error := by
  unfold Binder.valueType
  refine bind (resolveType t) fun u => ?_
  split
  · exact reject _ rfl _
  · exact pure id

/-! Conversions -/

theorem clean_retype? {e v : Expr} {t : TypeId} (h : e.retype? t = some v) :
    v.Clean base.registry ∧ v.type = t := by
  cases e with
  | literal span v u =>
    obtain ⟨w, hw, rfl⟩ := Option.map_eq_some_iff.1 h
    obtain ⟨b, rfl, -⟩ := (Literal.fits_retype? hw).exists_builtin
    exact ⟨Expr.clean_leaf rfl (by simp [Expr.type]) rfl (by simp), rfl⟩
  | _ => simp [Expr.retype?] at h

theorem convertImplicit (e : Expr) (target : TypeId) (span : Span) :
    Tells base (Binder.convertImplicit e target span) fun v =>
      e.Clean base.registry → target ≠ .error → v.Clean base.registry ∧ v.type = target := by
  unfold Binder.convertImplicit
  dsimp only
  split
  · next h =>
    refine pure fun he ht => ⟨he, ?_⟩
    simpa [he.ne_error, ht] using h
  · split
    · next v hv => exact pure fun _ _ => clean_retype? hv
    · refine andThen (ask _) fun conversion => ?_
      split
      · exact pure fun he ht => ⟨clean_convert he ht, rfl⟩
      · refine andThen (fullName _) fun _ => andThen (fullName _) fun _ => reject _ ?_ _
        split <;> rfl

theorem coerce (e : Expr) (param : TypeId) :
    Tells base (Binder.coerce e param) fun v =>
      e.Clean base.registry → param ≠ .error → v.Clean base.registry := by
  unfold Binder.coerce
  split
  · exact pure fun he _ => he
  · exact andThen (ask _) fun _ => pure fun he hp => clean_convert he hp

theorem coerceAll (es : List Expr) (params : List TypeId) :
    Tells base (Binder.coerceAll es params) fun vs =>
      (∀ e ∈ es, e.Clean base.registry) → .error ∉ params → ∀ v ∈ vs, v.Clean base.registry := by
  induction es generalizing params with
  | nil => exact pure (by simp)
  | cons e es ih =>
    cases params with
    | nil => exact pure (by simp)
    | cons p params =>
      refine bind (coerce e p) fun v => bind (ih params) fun vs => pure ?_
      intro hvs hv hes hps
      rw [List.forall_mem_cons] at hes
      rw [List.mem_cons, not_or] at hps
      exact List.forall_mem_cons.2 ⟨hv hes.1 (Ne.symm hps.1), hvs hes.2 hps.2⟩

/-- What is made of arguments that were adapted to a callable without the error type. -/
theorem adapt {c : TypeId} {es : List Expr} {k : Callable → List Expr → Binder β} {R : β → Prop}
    (hk : ∀ info vs, Tells base (k info vs) fun b =>
      info.result ≠ .error → (∀ v ∈ vs, v.Clean base.registry) → R b) :
    Tells base (do
      let info ← Binder.ask (·.callable c)
      let vs ← Binder.coerceAll es info.params
      k info vs) fun b =>
        base.registry.ClearCallable c → (∀ e ∈ es, e.Clean base.registry) → R b := by
  refine bind (callable c) fun info => bind (coerceAll es _) fun vs => (hk info vs).imp ?_
  intro b h hvs hinfo hc hes
  obtain ⟨hresult, hparams⟩ := hc info hinfo
  exact h hresult (hvs hes hparams)

/-! Operators and calls -/

theorem requireValue (e : Expr) :
    Tells base (Binder.requireValue e) fun v => e.Clean base.registry → v.Clean base.registry := by
  unfold Binder.requireValue
  split
  · exact reject _ rfl _
  · exact andThen (ask _) fun _ => reject _ rfl _
  · split
    · exact andThen (fullName _) fun _ => reject _ rfl _
    · exact pure id
  · exact pure id

/-- A tie is reported. -/
theorem complainAmbiguous (span : Span) (name : String) (args tied : List TypeId) :
    Tells base (Binder.complainAmbiguous span name args tied) fun _ => tied.length < 2 := by
  unfold Binder.complainAmbiguous
  split
  · refine andThen (ask _) fun _ => andThen (fullName _) fun _ => andThen (fullName _) fun _ => ?_
    exact (complain span rfl).imp fun _ h => h.elim
  · next hshort =>
    refine pure ?_
    match tied, hshort with
    | [], _ => simp
    | [_], _ => simp
    | a :: b :: rest, h => exact absurd rfl (h a b rest)

variable (hbase : Clear base)
include hbase

theorem fallback? (op : BinaryOperator) :
    Tells base (Binder.fallback? op) fun o => ∀ g, o = some g → base.registry.ClearGroup g := by
  have hequals : ∀ s, Tells base (Pure.pure (some s.library.equals)) fun o =>
      Beside base s → ∀ g, o = some g → base.registry.ClearGroup g := by
    refine fun s => pure ?_
    rintro hs _ ⟨⟩
    rw [hs.library]
    exact hbase.equals
  unfold Binder.fallback?
  split
  · refine get_bind fun s => pure ?_
    rintro hs _ ⟨⟩
    rw [hs.library]
    exact hbase.concat
  · exact get_bind hequals
  · exact get_bind hequals
  · exact pure (by simp)

/-- What is chosen from a group without the error type, or nothing if that is reported. -/
theorem resolveBinary (op : BinaryOperator) (args : List TypeId) (span : Span) :
    Tells base (Binder.resolveBinary op args span) fun o =>
      ∃ c, o = some c ∧ base.registry.ClearCallable c := by
  have hambiguous : ∀ tied, Tells base
      (do Binder.complainAmbiguous span op.symbol args tied; return (none : Option TypeId))
      fun o => 2 ≤ tied.length → ∃ c, o = some c ∧ base.registry.ClearCallable c := by
    intro tied
    refine bind (complainAmbiguous _ _ _ _) fun _ => pure fun hlt hle => ?_
    omega
  unfold Binder.resolveBinary
  refine get_bind fun s => bind (resolve _ _) fun outcome => ?_
  split
  · next c =>
    refine pure fun h hs => ⟨c, rfl, ?_⟩
    obtain ⟨g, hg, hc⟩ := h.1 c rfl
    rw [hs.intrinsics] at hg
    exact hbase.operators _ (mem_all_binary op) g hg c hc
  · exact (hambiguous _).imp fun o h hq _ => h (hq.2 _ rfl)
  · refine bind (fallback? hbase op) fun group? => ?_
    extract_lets finish
    have hfinish : ∀ outcome, Tells base (finish outcome) fun o =>
        (∀ m, outcome = .resolved m → base.registry.ClearCallable m) →
        (∀ tied, outcome = .ambiguous tied → 2 ≤ tied.length) →
        ∃ c, o = some c ∧ base.registry.ClearCallable c := by
      intro outcome
      simp only [finish]
      split
      · next c => exact pure fun hc _ => ⟨c, rfl, hc c rfl⟩
      · exact (hambiguous _).imp fun o h _ hq => h (hq _ rfl)
      · exact andThen (ask _) fun _ => reject _ rfl _
    split
    · next group =>
      refine bind (resolve _ _) fun outcome => (hfinish outcome).imp ?_
      intro o h hq hgroup _ _
      refine h (fun m hm => ?_) hq.2
      obtain ⟨g, hg, hmem⟩ := hq.1 m hm
      exact hgroup group rfl g hg m hmem
    · refine (hfinish .notApplicable).imp fun o h _ _ _ => h ?_ ?_
      · simp
      · simp

omit hbase in
theorem negation : Tells base Binder.negation fun _ => True := by
  unfold Binder.negation
  exact get_bind fun _ => andThen (ask _) fun _ => pure fun _ => trivial

theorem applyBinary (op : BinaryOperator) (left right : Expr) (span : Span) :
    Tells base (Binder.applyBinary op left right span) fun e =>
      left.Clean base.registry → right.Clean base.registry → e.Clean base.registry := by
  unfold Binder.applyBinary
  split
  · next h =>
    refine pure fun hl hr => ?_
    simp [hl.isError, hr.isError] at h
  · refine bind (resolveBinary hbase _ _ _) fun c? => ?_
    split
    · exact pure (by simp)
    · next c =>
      refine imp (adapt (R := Expr.Clean base.registry) fun info operands => ?_) ?_
      · split
        · refine pure fun hresult hops => ?_
          rw [List.forall_mem_cons, List.forall_mem_cons] at hops
          exact clean_binary hops.1 hops.2.1 hresult
        · dsimp only
          split
          · refine andThen negation fun n => pure fun hresult hops => ?_
            exact clean_unary (clean_call hops hresult) (by simp)
          · exact pure fun hresult hops => clean_call hops hresult
      · rintro e h ⟨_, ⟨⟩, hc⟩ hl hr
        exact h hc (by simpa using ⟨hl, hr⟩)

theorem applyUnary (op : UnaryOperator) (operand : Expr) (span : Span) :
    Tells base (Binder.applyUnary op operand span) fun e =>
      operand.Clean base.registry → e.Clean base.registry := by
  unfold Binder.applyUnary
  split
  · next h => exact pure fun ho => absurd h (by simp [ho.isError])
  · refine get_bind fun s => bind (resolve _ _) fun outcome => ?_
    split
    · next c =>
      refine bind (callable c) fun info => bind (coerce _ _) fun v => pure ?_
      intro hv hinfo hq hs ho
      obtain ⟨g, hg, hmem⟩ := hq.1 c rfl
      rw [hs.intrinsics] at hg
      obtain ⟨hresult, hparams⟩ := hbase.operators _ (mem_all_unary op) g hg c hmem info hinfo
      refine clean_unary (hv ho ?_) hresult
      cases hp : info.params with
      | nil => exact ho.ne_error
      | cons p rest =>
        rw [hp, List.mem_cons, not_or] at hparams
        exact Ne.symm hparams.1
    · refine bind (complainAmbiguous _ _ _ _) fun _ => pure fun hlt hq => ?_
      have := hq.2 _ rfl
      omega
    · exact andThen (fullName _) fun _ => reject _ rfl _

theorem applyCompound (op : BinaryOperator) (target value : Expr) (span : Span) :
    Tells base (Binder.applyCompound op target value span) fun e =>
      target.Clean base.registry → value.Clean base.registry → target.category = .modifiable →
        e.Clean base.registry := by
  unfold Binder.applyCompound
  dsimp only
  have hvalue : value.Clean base.registry →
      ((value.retype? target.type).getD value).Clean base.registry := by
    intro hv
    cases h : value.retype? target.type with
    | none => exact hv
    | some v => exact (clean_retype? h).1
  generalize (value.retype? target.type).getD value = v at hvalue
  refine bind (resolveBinary hbase _ _ _) fun c? => ?_
  split
  · exact pure (by simp)
  · next c =>
    refine imp (adapt (R := fun e => target.Clean base.registry → v.Clean base.registry →
      target.category = .modifiable → e.Clean base.registry) fun info operands => ?_) ?_
    · have hfinish : ∀ storable : Bool, Tells base (if storable then
          Pure.pure (Expr.compound span target c (operands.getLast?.getD v)) else do
            Binder.complain span (.cannotStore op.symbol (← Binder.fullName info.result)
              (← Binder.fullName target.type))
            return Expr.invalid span [target, v]) fun e => info.result ≠ .error →
              (∀ x ∈ operands, x.Clean base.registry) → target.Clean base.registry → v.Clean base.registry →
                target.category = .modifiable → e.Clean base.registry := by
        intro storable
        split
        · refine pure fun _ hops ht hv hcat => clean_compound ht ?_ hcat
          cases h : operands.getLast? with
          | none => exact hv
          | some x => exact hops x (List.mem_of_getLast? h)
        · exact andThen (fullName _) fun _ => andThen (fullName _) fun _ => reject _ rfl _
      split
      · exact hfinish true
      · exact andThen (ask _) fun storable => hfinish storable
    · rintro e h ⟨_, ⟨⟩, hc⟩ ht hv hcat
      exact h hc (by simpa using ⟨ht, hvalue hv⟩) ht (hvalue hv) hcat

theorem applyAssignment (op : Option BinaryOperator) (target value : Expr)
    (targetSpan valueSpan span : Span) :
    Tells base (Binder.applyAssignment op target value targetSpan valueSpan span) fun e =>
      target.Clean base.registry → value.Clean base.registry → e.Clean base.registry := by
  unfold Binder.applyAssignment
  split
  · next h => exact pure fun ht _ => absurd h (by simp [ht.isError])
  · split
    · exact reject _ rfl _
    · next hcat =>
      have hcat : target.category = .modifiable := by simpa using hcat
      split
      · next h => exact pure fun _ hv => absurd h (by simp [hv.isError])
      · split
        · refine bind (convertImplicit _ _ _) fun v => pure ?_
          intro hv ht hvalue
          obtain ⟨hclean, htype⟩ := hv hvalue ht.ne_error
          exact clean_assign ht hclean hcat htype
        · exact (applyCompound hbase _ _ _ _).imp fun e h ht hv => h ht hv hcat

omit hbase in
theorem applyCall (callee : Expr) (args : List Expr) (calleeSpan span : Span) :
    Tells base (Binder.applyCall callee args calleeSpan span) fun e =>
      callee.Clean base.registry → (∀ v ∈ args, v.Clean base.registry) → e.Clean base.registry := by
  unfold Binder.applyCall
  split
  · next h => exact pure fun hc _ => absurd h (by simp [hc.isError])
  · split
    · next span' name group =>
      split
      · next h =>
        refine pure fun _ hargs => ?_
        obtain ⟨v, hv, herror⟩ := List.any_eq_true.1 h
        simp [(hargs v hv).isError] at herror
      · refine bind (resolve _ _) fun outcome => ?_
        split
        · next c =>
          refine imp (adapt (R := Expr.Clean base.registry) fun info vs => ?_) ?_
          · exact pure fun hresult hvs => clean_call hvs hresult
          · intro e h hq hcallee hargs
            obtain ⟨g, hg, hmem⟩ := hq.1 c rfl
            refine h (fun info hinfo => ?_) hargs
            exact (hcallee _ (Expr.mem_parts _)).group _ _ _ rfl g hg c hmem info hinfo
        · refine bind (complainAmbiguous _ _ _ _) fun _ => pure fun hlt hq => ?_
          have := hq.2 _ rfl
          omega
        · exact andThen (ask _) fun _ => reject _ rfl _
    · exact andThen (fullName _) fun _ => reject _ rfl _

/-! Expressions -/

omit hbase in
theorem clean_intLiteral (span : Span) (v : UInt64) : (intLiteral span v).Clean base.registry := by
  unfold intLiteral
  split
  · exact Expr.clean_leaf rfl (by simp [Expr.type]) rfl (by simp)
  · exact Expr.clean_leaf rfl (by simp [Expr.type, Literal.signedType]) rfl (by simp)

omit hbase in
theorem negativeLiteral (span : Span) (v : UInt64) :
    Tells base (Binder.negativeLiteral span v) (Expr.Clean base.registry) := by
  unfold Binder.negativeLiteral
  split
  · exact reject _ rfl _
  · refine pure (Expr.clean_leaf rfl ?_ rfl (by simp))
    simp [Expr.type, Literal.signedType]

theorem bindName (span : Span) (name : String) (read : Bool) :
    Tells base (Binder.bindName span name read) (Expr.Clean base.registry) := by
  unfold Binder.bindName
  refine get_bind fun s => ?_
  split
  · next sym hsym =>
    have hscope : Beside base s → InScope base.scope sym := by
      intro hs
      rw [← hs.scope]
      exact inScope_of_lookup? hsym
    have hsymbol : Beside base s → (Expr.symbol span sym).Clean base.registry := fun hs =>
      Expr.clean_leaf rfl (hbase.symbols sym (hscope hs)) rfl (by simp)
    split
    · next hkind =>
      refine pure fun hs => Expr.clean_leaf rfl (hbase.symbols sym (hscope hs)) rfl ?_
      rintro _ _ _ ⟨⟩
      exact hbase.functions sym (hscope hs) hkind
    · split
      · exact andThen (markRead _) fun _ => pure hsymbol
      · exact pure hsymbol
  · split
    · exact pure fun _ => Expr.clean_leaf rfl (by simp [Expr.type]) rfl (by simp)
    · exact reject _ rfl _

omit hbase in
theorem applyIndex (target index : Expr) (targetSpan span : Span) :
    Tells base (Binder.applyIndex target index targetSpan span) fun e =>
      target.Clean base.registry → index.Clean base.registry → e.Clean base.registry := by
  unfold Binder.applyIndex
  split
  · next h =>
    refine pure fun ht hi => ?_
    simp [ht.isError, hi.isError] at h
  · dsimp only
    refine andThen (ask _) fun kind => ?_
    split
    · refine bind (ask _) fun t => pure ?_
      rintro ⟨s, hs, ht⟩ htarget hindex
      exact clean_index htarget hindex (hs.elements _ t ht)
    · split
      · exact pure fun htarget hindex => clean_index htarget hindex (by simp)
      · exact andThen (fullName _) fun _ => reject _ rfl _

omit hbase in
theorem applyMember (target : Expr) (name : String) (span : Span) :
    Tells base (Binder.applyMember target name span) fun e =>
      target.Clean base.registry → e.Clean base.registry := by
  unfold Binder.applyMember
  split
  · next h => exact pure fun ht => absurd h (by simp [ht.isError])
  · dsimp only
    refine andThen (ask _) fun kind => ?_
    split
    · exact pure clean_length
    · exact andThen (fullName _) fun _ => reject _ rfl _

theorem applyCast (operand : Expr) (target : TypeId) (span : Span) :
    Tells base (Binder.applyCast operand target span) fun e =>
      operand.Clean base.registry → target ≠ .error → e.Clean base.registry := by
  unfold Binder.applyCast
  split
  · next h =>
    refine pure fun ho ht => ?_
    simp [ho.isError, ht] at h
  · refine andThen (ask _) fun kind => ?_
    split
    · exact andThen (fullName _) fun _ => andThen (fullName _) fun _ => reject _ rfl _
    · dsimp only
      refine get_bind fun s => imp (adapt (R := Expr.Clean base.registry) fun info vs => ?_) ?_
      · exact pure fun _ hvs => clean_call hvs (by simp)
      · intro e h hs ho _
        rw [hs.library] at h
        exact h hbase.toText (by simpa using ho)
    · refine get_bind fun s => ?_
      split
      · exact pure fun _ ho ht => clean_call (by simpa using ho) ht
      · exact andThen (ask _) fun _ => throw
    · exact pure fun ho ht => clean_convert ho ht

omit hbase in
theorem applyNewArray (element : TypeId) (size : Expr) (span : Span) :
    Tells base (Binder.applyNewArray element size span) fun e =>
      element ≠ .error → size.Clean base.registry → e.Clean base.registry := by
  unfold Binder.applyNewArray
  split
  · next h =>
    refine pure fun he hs => ?_
    simp [he, hs.isError] at h
  · next h =>
    have helement : element ≠ .error := by
      rintro rfl
      simp at h
    refine bindOf (arrayOf helement) (fun s u s' h => ne_error_of_arrayOf s s' h) fun t ht => ?_
    exact pure fun _ _ hs => clean_newArray hs ht

mutual

theorem bindExpr : (e : Parsed.Expr) →
    Tells base (Binder.bindExpr e) (Expr.Clean base.registry)
  | .int span v => by
    rw [Binder.bindExpr]
    exact pure (clean_intLiteral _ _)
  | .float _ _ | .string _ _ | .char _ _ | .bool _ _ => by
    rw [Binder.bindExpr]
    exact pure (Expr.clean_leaf rfl (by simp [Expr.type]) rfl (by simp))
  | .name span name => by
    rw [Binder.bindExpr]
    exact bindName hbase _ _ _
  | .assign span op target value => by
    have hrest : ∀ bound : Expr, Tells base (do
        let rhs ← Binder.bindExpr value
        let rhs ← Binder.requireValue rhs
        Binder.applyAssignment op bound rhs target.span value.span span) fun e =>
          bound.Clean base.registry → e.Clean base.registry := by
      intro bound
      refine bind (bindExpr value) fun v => bind (requireValue v) fun w => ?_
      exact (applyAssignment hbase op _ _ _ _ _).imp fun e h hw hv hb => h hb (hw hv)
    rw [Binder.bindExpr.eq_def]
    dsimp only
    split
    · exact bind (bindName hbase _ _ _) hrest
    · exact bind (bindExpr target) hrest
  | .binary span op left right => by
    rw [Binder.bindExpr]
    refine bind (bindExpr left) fun l => bind (requireValue l) fun l' => ?_
    refine bind (bindExpr right) fun r => bind (requireValue r) fun r' => ?_
    exact (applyBinary hbase op _ _ _).imp fun e h hr' hr hl' hl => h (hl' hl) (hr' hr)
  | .unary span op operand => by
    rw [Binder.bindExpr.eq_def]
    dsimp only
    split
    · exact negativeLiteral _ _
    · exact pure (Expr.clean_leaf rfl (by simp [Expr.type]) rfl (by simp))
    · refine bind (bindExpr operand) fun v => bind (requireValue v) fun w => ?_
      exact (applyUnary hbase op _ _).imp fun e h hw hv => h (hw hv)
  | .call span callee args => by
    rw [Binder.bindExpr]
    refine bind (bindExpr callee) fun c => bind (bindValues args) fun vs => ?_
    exact (applyCall _ _ _ _).imp fun e h hvs hc => h hc hvs
  | .index span target index => by
    rw [Binder.bindExpr]
    refine bind (bindExpr target) fun t => bind (requireValue t) fun t' => ?_
    refine bind (bindExpr index) fun i => bind (requireValue i) fun i' => ?_
    refine bind (convertImplicit _ _ _) fun j => (applyIndex _ _ _ _).imp ?_
    exact fun e h hj hi' hi ht' ht => h (ht' ht) (hj (hi' hi) (by simp)).1
  | .member span target name => by
    rw [Binder.bindExpr]
    refine bind (bindExpr target) fun t => bind (requireValue t) fun t' => ?_
    exact (applyMember _ _ _).imp fun e h ht' ht => h (ht' ht)
  | .cast span operand type => by
    rw [Binder.bindExpr]
    refine bind (bindExpr operand) fun v => bind (requireValue v) fun w => ?_
    refine bind (valueType type) fun t => (applyCast hbase _ _ _).imp ?_
    exact fun e h ht hw hv => h (hw hv) ht
  | .newArray span element size => by
    rw [Binder.bindExpr]
    refine bind (valueType element) fun t => bind (bindExpr size) fun v => ?_
    refine bind (requireValue v) fun w => bind (convertImplicit _ _ _) fun x => ?_
    exact (applyNewArray _ _ _).imp fun e h hx hw hv ht => h ht (hx (hw hv) (by simp)).1

theorem bindValues : (es : List Parsed.Expr) →
    Tells base (Binder.bindValues es) fun vs => ∀ v ∈ vs, v.Clean base.registry
  | [] => by
    rw [Binder.bindValues]
    exact pure (by simp)
  | e :: rest => by
    rw [Binder.bindValues]
    refine bind (bindExpr e) fun v => bind (requireValue v) fun w => ?_
    refine bind (bindValues rest) fun vs => pure ?_
    exact fun hvs hw hv => List.forall_mem_cons.2 ⟨hw hv, hvs⟩

end

theorem bindValue (e : Parsed.Expr) :
    Tells base (Binder.bindValue e) (Expr.Clean base.registry) :=
  bind (bindExpr hbase e) fun v => (requireValue v).imp fun _ h hv => h hv

end Tells

end

theorem clearGroup_of_offers {r : Registry} {group : TypeId} {op? : Option Operator}
    {overloads : List Signature} (h : r.Offers group op? overloads)
    (hb : ∀ sig ∈ overloads, sig.IsBuiltin) : r.ClearGroup group := by
  obtain ⟨g, hg, hmembers⟩ := h
  intro g' hg' m hm c hc
  cases hg.symm.trans hg'
  obtain ⟨sig, hsig, hcall⟩ := Registry.exists_of_mem_left hmembers hm
  cases hcall.symm.trans hc
  obtain ⟨⟨b, hresult⟩, hparams⟩ := hb sig hsig
  refine ⟨by simp [hresult], fun hmem => ?_⟩
  obtain ⟨b, hb, -⟩ := hparams _ hmem
  cases hb

/-- Operators and the library do not involve the error type. -/
theorem Sound.clear {params : List Symbol} {s : State} (hs : Sound params s) (hu : Untainted s) :
    Clear s := by
  have hl := hs.loaded
  refine ⟨hu, fun op hop => ?_, ?_, ?_, ?_⟩
  · exact clearGroup_of_offers (hs.offers hop) fun _ h => Intrinsics.isBuiltin_of_mem_signatures h
  · exact clearGroup_of_offers hl.concat.offers (Library.TakesValues.isBuiltin (by decide))
  · exact clearGroup_of_offers hl.equals.offers (Library.TakesValues.isBuiltin (by decide))
  · obtain ⟨g, hg⟩ := hl.toText
    intro c hc
    cases hg.symm.trans hc
    exact ⟨by simp, by simp⟩

theorem Beside.refl {params : List Symbol} {s : State} (hs : Sound params s) : Beside s s :=
  ⟨rfl, rfl, rfl, fun _ _ h => h, fun _ _ h => h, fun _ _ h =>
    (hs.types.wellFormed.isElement h).2.1⟩

/-- An expression that must have a value is bound to one that makes sense, with nothing passed over,
or an error is reported. All operands have values, and only what can be modified is assigned to. -/
theorem bindValue_typed_or_reports {params : List Symbol} {s : State} (hs : Sound params s)
    (hu : Untainted s) {e : Parsed.Expr} (he : e.Proper) :
    ∃ e' s' d, bindValue e s = .ok (e', s') ∧ Adds s s' d ∧
      (d ≠ [] ∨ e'.Typed ⟨s'.registry, s'.scope.outermost.symbols, params, False⟩ ∧
        ∀ x ∈ e'.parts, x.type ≠ .builtin .void ∧ x.type ≠ .error ∧
          ∀ target, x.stored? = some target → target.category = .modifiable) := by
  obtain ⟨e', s', hrun, hs', -, htyped, hvoid⟩ := Binds.bindValue hs e he
  obtain ⟨d, hd, hclean⟩ := Tells.bindValue (hs.clear hu) e s e' s' hrun
  refine ⟨e', s', d, hrun, hd, ?_⟩
  by_cases hnil : d = []
  · obtain ⟨-, hclean⟩ := hclean hnil (Beside.refl hs)
    have hstrict := Expr.Typed.strict e' htyped hclean
    refine .inr ⟨hstrict, fun x hx => ⟨?_, (hclean x hx).ne_error, (hclean x hx).modifiable⟩⟩
    exact Expr.Typed.parts_ne_void hs'.types.wellFormed id e' hstrict hvoid x hx
  · exact .inl hnil

/-- A state with one variable, of a type wider than that of small numbers. -/
def withCounter : State :=
  { initial with
    scope := ⟨[], ⟨.global, [⟨.declared 0, "count", .localVariable, .builtin .i64, false⟩]⟩⟩
    nextSymbol := 1 }

theorem inScope_withCounter {sym : Symbol} (h : InScope withCounter.scope sym) :
    sym = ⟨.declared 0, "count", .localVariable, .builtin .i64, false⟩ := by
  simpa [InScope, withCounter] using h

theorem sound_withCounter : Sound [] withCounter := by
  refine sound_initial.follow ⟨⟨le_refl _, id, ?_⟩, rfl, rfl⟩ sound_initial.types rfl rfl ?_
  · simp [initial, Scope.empty]
  · intro sym h
    rw [inScope_withCounter h]
    exact .inr ⟨⟨trivial, trivial, by simp, by simp⟩, 0, rfl⟩

theorem untainted_withCounter : Untainted withCounter := by
  refine ⟨fun sym h => ?_, fun sym h hkind => ?_⟩
  · rw [inScope_withCounter h]
    simp
  · rw [inScope_withCounter h] at hkind
    cases hkind

def increase : Parsed.Expr := .assign default (some .add) (.name default "count") (.int default 1)

/-- Nothing is reported: the literal takes on the variable's type. -/
theorem bindValue_typed_or_reports_increase :
    ∃ e' s', bindValue increase withCounter = .ok (e', s') ∧ s'.report.items = #[] ∧
      e'.Typed ⟨s'.registry, s'.scope.outermost.symbols, [], False⟩ ∧
      ∀ x ∈ e'.parts, x.type ≠ .builtin .void ∧ x.type ≠ .error ∧
        ∀ target, x.stored? = some target → target.category = .modifiable := by
  have hsilent : (match bindValue increase withCounter with
      | .ok (_, s') => s'.report.items.isEmpty
      | .error _ => false) = true := by decide +kernel
  have hproper : increase.Proper := ⟨by rintro _ ⟨⟩; rfl, trivial, trivial⟩
  obtain ⟨e', s', d, hrun, hadds, hout⟩ :=
    bindValue_typed_or_reports sound_withCounter untainted_withCounter hproper
  rw [hrun] at hsilent
  have hnone : s'.report.items = #[] := Array.isEmpty_iff.mp hsilent
  have hd : d = [] := by
    have hreport := hadds.report
    rw [hnone] at hreport
    exact (List.append_eq_nil_iff.mp hreport.symm).2
  exact ⟨e', s', hrun, hnone, hout.resolve_left (absurd hd)⟩

end Binder
end TypedScript
