import TypedScript.Proofs.Bound.Typing

/-!
# How binding proceeds

Binding never fails: from every state that is sound it reaches another one. What is known only grows,
so what was well typed stays so.
-/

namespace TypedScript
namespace Binder

open TypedScript.Binding

theorem run_bind {α β : Type} {m : Binder α} {f : α → Binder β} {s s' : State} {a : α}
    (h : m s = .ok (a, s')) : (m >>= f) s = f a s' := by
  simp only [Bind.bind, StateT.bind, h, Except.bind]

theorem run_get (s : State) : (get : Binder State) s = .ok (s, s) := rfl

theorem run_modify (g : State → State) (s : State) : (modify g : Binder Unit) s = .ok ((), g s) := rfl

def typing (params : List Symbol) (s : State) : Typing :=
  ⟨s.registry, s.scope.outermost.symbols, params, s.report.hasErrors⟩

/-- A group that a program made: its number is behind those of the groups that every program has. -/
def IsOwnGroup (r : Registry) (t : TypeId) : Prop :=
  ∃ i, t = .derived i ∧ initial.registry.entries.size ≤ i ∧ ∃ g, r.entries[i]? = some (.group g)

/-- What a name in scope may stand for: a group of functions, or something that has a value. -/
def Known (params : List Symbol) (s : State) (sym : Symbol) : Prop :=
  if sym.kind = .overloads then IsOwnGroup s.registry sym.type
  else (typing params s).Declares sym ∧ sym.IsDeclared

def InScope (scope : Scope) (sym : Symbol) : Prop :=
  sym ∈ scope.outermost.symbols ∨ ∃ f ∈ scope.inner, sym ∈ f.symbols

/-- The registries of binding are well formed and still have what every program starts with, and the
groups that the program made have no operators. Callables that mention the error type come from
mistakes. -/
structure SoundTypes (r : Registry) (lenient : Prop) : Prop where
  wellFormed : r.WellFormed
  same : Registry.SameBelow initial.registry.entries.size initial.registry r
  routines : ∀ {t : TypeId} {g : Overloads}, IsOwnGroup r t → r.group t = .ok g →
    ∀ m ∈ g.members, ∀ c, r.callable m = .ok c → c.op? = none
  errors : ∀ {t : TypeId} {c : Callable}, r.callable t = .ok c →
    c.result = .error ∨ .error ∈ c.params → lenient

/-- The states of binding: the registry is sound and all names in scope are known. -/
structure Sound (params : List Symbol) (s : State) : Prop where
  types : SoundTypes s.registry s.report.hasErrors
  library : s.library = initial.library
  intrinsics : s.intrinsics = initial.intrinsics
  symbols : ∀ sym, InScope s.scope sym → Known params s sym
  result : s.registry.IsType s.context.result
  resultError : s.context.result = .error → s.report.hasErrors

/-- A state of binding knows all that an earlier one did. -/
structure Grows (s s' : State) : Prop where
  registry : s.registry ≤ s'.registry
  errors : s.report.hasErrors → s'.report.hasErrors
  outermost : s.scope.outermost.symbols ⊆ s'.scope.outermost.symbols

/-- A later state of binding in the same routine and the same loops. -/
structure Continues (s s' : State) : Prop extends Grows s s' where
  result : s'.context.result = s.context.result
  loops : s'.context.loops = s.context.loops

/-- The scopes before and after a step: no scope is left open, and there are no new global variables.
Inside of a scope nothing is declared in the global one. -/
structure Nests (scope scope' : Scope) : Prop where
  top : scope.inner = [] → scope'.inner = [] ∧
    ∀ sym ∈ scope'.outermost.symbols, sym.kind = .globalVariable → sym ∈ scope.outermost.symbols
  inside : scope.inner ≠ [] → scope'.inner ≠ [] ∧ scope'.outermost = scope.outermost

/-- A state of binding follows an earlier one in the same scopes. -/
structure Follows (s s' : State) : Prop extends Continues s s' where
  nests : Nests s.scope s'.scope

theorem Grows.trans {s t u : State} (h : Grows s t) (k : Grows t u) : Grows s u :=
  ⟨le_trans h.registry k.registry, k.errors ∘ h.errors,
    List.Subset.trans h.outermost k.outermost⟩

theorem Nests.refl (scope : Scope) : Nests scope scope :=
  ⟨fun h => ⟨h, fun _ h _ => h⟩, fun h => ⟨h, rfl⟩⟩

theorem Nests.trans {a b c : Scope} (h : Nests a b) (k : Nests b c) : Nests a c := by
  refine ⟨fun ha => ?_, fun ha => ?_⟩
  · obtain ⟨hb, hab⟩ := h.top ha
    obtain ⟨hc, hbc⟩ := k.top hb
    exact ⟨hc, fun sym hs hk => hab sym (hbc sym hs hk) hk⟩
  obtain ⟨hb, hab⟩ := h.inside ha
  obtain ⟨hc, hbc⟩ := k.inside hb
  exact ⟨hc, hbc.trans hab⟩

theorem Follows.refl (s : State) : Follows s s :=
  ⟨⟨⟨le_refl _, id, fun _ h => h⟩, rfl, rfl⟩, Nests.refl _⟩

theorem Follows.trans {s t u : State} (h : Follows s t) (k : Follows t u) : Follows s u :=
  ⟨⟨h.toGrows.trans k.toGrows, k.result.trans h.result, k.loops.trans h.loops⟩,
    h.nests.trans k.nests⟩

theorem Grows.extends {s s' : State} (h : Grows s s') (params : List Symbol) :
    (typing params s).Extends (typing params s') :=
  ⟨h.registry, fun _ hs _ => h.outermost hs, rfl, h.errors⟩

theorem IsOwnGroup.mono {r r' : Registry} (h : r ≤ r') {t : TypeId} (ht : IsOwnGroup r t) :
    IsOwnGroup r' t := by
  obtain ⟨i, rfl, hi, g, hg⟩ := ht
  obtain ⟨f, hf, hgrow⟩ := h i _ hg
  cases f with
  | group k => exact ⟨i, rfl, hi, k, hf⟩
  | _ => exact hgrow.elim

theorem IsOwnGroup.group {r : Registry} {t : TypeId} (ht : IsOwnGroup r t) :
    ∃ g, r.group t = .ok g := by
  obtain ⟨i, rfl, -, g, hg⟩ := ht
  exact ⟨g, Registry.group_eq_ok.2 hg⟩

theorem SoundTypes.imp {r : Registry} {p q : Prop} (h : SoundTypes r p) (hpq : p → q) :
    SoundTypes r q :=
  ⟨h.wellFormed, h.same, h.routines, fun hc he => hpq (h.errors hc he)⟩

theorem SoundTypes.arrayOf {r : Registry} {lenient : Prop} (h : SoundTypes r lenient) {t : TypeId}
    (ht : r.IsElement t) : ∃ u r', r.arrayOf t = .ok (u, r') ∧ r ≤ r' ∧ SoundTypes r' lenient ∧
      r'.element u = .ok t := by
  obtain ⟨u, r', hrun, hle, hwf, hsame, hel, hnew⟩ := h.wellFormed.arrayOf ht
  have hcall : ∀ {v c}, r'.callable v = .ok c → r.callable v = .ok c := by
    intro v c hc
    rw [Registry.callable_eq_ok] at hc ⊢
    cases v with
    | derived i => exact (hnew i _ hc).resolve_right (by simp)
    | _ => simp [Registry.get?] at hc
  have hsize : initial.registry.entries.size ≤ r.entries.size :=
    Registry.size_le (Registry.le_of_sameBelow h.same)
  refine ⟨u, r', hrun, hle, ⟨hwf, h.same.trans (hsame.mono hsize), ?_, ?_⟩, hel⟩
  · rintro v g ⟨i, rfl, hi, -⟩ hg m hm c hc
    rw [Registry.group_eq_ok] at hg
    have hg' := (hnew i _ hg).resolve_right (by simp)
    exact h.routines ⟨i, rfl, hi, g, hg'⟩ (Registry.group_eq_ok.2 hg') m hm c (hcall hc)
  · exact fun hc he => h.errors (hcall hc) he

theorem Known.mono {params : List Symbol} {s s' : State} (h : Grows s s') {sym : Symbol}
    (hk : Known params s sym) : Known params s' sym := by
  unfold Known at hk ⊢
  split
  · next hkind =>
    rw [if_pos hkind] at hk
    exact hk.mono h.registry
  · next hkind =>
    rw [if_neg hkind] at hk
    exact ⟨hk.1.mono (h.extends params), hk.2⟩

theorem Frame.mem_of_find? {f : Frame} {name : String} {sym : Symbol} (h : f.find? name = some sym) :
    sym ∈ f.symbols := List.mem_of_find?_eq_some h

theorem inScope_of_lookup? {scope : Scope} {name : String} {sym : Symbol}
    (h : scope.lookup? name = some sym) : InScope scope sym := by
  rw [Scope.lookup?, Option.orElse_eq_orElse, Option.orElse_eq_or] at h
  obtain hi | ⟨-, ho⟩ := Option.or_eq_some_iff.1 h
  · obtain ⟨f, hf, hs⟩ := List.exists_of_findSome?_eq_some hi
    exact .inr ⟨f, hf, Frame.mem_of_find? hs⟩
  · exact .inl (Frame.mem_of_find? ho)

theorem symbols_of_declare? {f g : Frame} {sym : Symbol} (h : f.declare? sym = some g) :
    g.symbols = sym :: f.symbols := by
  unfold Frame.declare? at h
  split at h
  · cases h
  · cases h
    rfl

theorem declareGlobal?_eq_some {scope scope' : Scope} {sym : Symbol}
    (h : scope.declareGlobal? sym = some scope') :
    scope'.outermost.symbols = sym :: scope.outermost.symbols ∧ scope'.inner = scope.inner := by
  unfold Scope.declareGlobal? at h
  cases hf : scope.outermost.declare? sym with
  | none => simp [hf] at h
  | some f =>
    simp only [hf, Option.bind_eq_bind, Option.bind_some, Option.pure_def, Option.some.injEq] at h
    subst h
    exact ⟨symbols_of_declare? hf, rfl⟩

theorem run_declare (s : State) (sym : Symbol) :
    Binder.declare sym s = .ok ((s.scope.declare? sym).elim (false, s)
      fun scope => (true, { s with scope })) := by
  simp only [Binder.declare, Bind.bind, StateT.bind, MonadState.get, getThe, MonadStateOf.get,
    StateT.get, Pure.pure, Except.pure, Except.bind]
  cases s.scope.declare? sym <;> rfl

theorem run_declareGlobal (s : State) (sym : Symbol) :
    Binder.declareGlobal sym s = .ok ((s.scope.declareGlobal? sym).elim (false, s)
      fun scope => (true, { s with scope })) := by
  simp only [Binder.declareGlobal, Bind.bind, StateT.bind, MonadState.get, getThe,
    MonadStateOf.get, StateT.get, Pure.pure, Except.pure, Except.bind]
  cases s.scope.declareGlobal? sym <;> rfl

/-- A symbol is declared in the global scope or in the innermost one. -/
theorem declare?_eq_some {scope scope' : Scope} {sym : Symbol}
    (h : scope.declare? sym = some scope') :
    (scope.inner = [] ∧ scope'.outermost.symbols = sym :: scope.outermost.symbols ∧
        scope'.inner = scope.inner) ∨
      scope'.outermost = scope.outermost ∧ ∃ f f' rest, scope.inner = f :: rest ∧
        scope'.inner = f' :: rest ∧ f'.symbols = sym :: f.symbols := by
  unfold Scope.declare? at h
  split at h
  · next hi => exact .inl ⟨hi, declareGlobal?_eq_some h⟩
  · next f rest hi =>
    cases hf : f.declare? sym with
    | none => simp [hf] at h
    | some f' =>
      simp only [hf, Option.bind_eq_bind, Option.bind_some, Option.pure_def, Option.some.injEq] at h
      subst h
      exact .inr ⟨rfl, f, f', rest, hi, rfl, symbols_of_declare? hf⟩

/-- A step of binding succeeds, ends in a sound state that follows the first, and what it returns is
as said. -/
def Binds {α : Type} (params : List Symbol) (s : State) (m : Binder α) (Q : α → Typing → Prop) : Prop :=
  ∃ a s', m s = .ok (a, s') ∧ Sound params s' ∧ Follows s s' ∧ Q a (typing params s')

section

variable {α β : Type} {params : List Symbol} {s : State}

theorem Binds.bind {m : Binder α} {f : α → Binder β} {Q : α → Typing → Prop} {R : β → Typing → Prop}
    (hm : Binds params s m Q)
    (hf : ∀ a s', Sound params s' → Follows s s' → Q a (typing params s') → Binds params s' (f a) R) :
    Binds params s (m >>= f) R := by
  obtain ⟨a, s', hrun, hsound, hfollow, hq⟩ := hm
  obtain ⟨b, t, hrun', hsound', hfollow', hr⟩ := hf a s' hsound hfollow hq
  refine ⟨b, t, ?_, hsound', hfollow.trans hfollow', hr⟩
  rw [run_bind hrun, hrun']

theorem Binds.imp {m : Binder α} {Q R : α → Typing → Prop} (hm : Binds params s m Q)
    (h : ∀ a s', Sound params s' → Follows s s' → Q a (typing params s') → R a (typing params s')) :
    Binds params s m R := by
  obtain ⟨a, s', hrun, hsound, hfollow, hq⟩ := hm
  exact ⟨a, s', hrun, hsound, hfollow, h a s' hsound hfollow hq⟩

theorem Binds.map {m : Binder α} {f : α → β} {Q : α → Typing → Prop} {R : β → Typing → Prop}
    (hm : Binds params s m Q)
    (h : ∀ a s', Sound params s' → Follows s s' → Q a (typing params s') → R (f a) (typing params s')) :
    Binds params s (f <$> m) R := by
  obtain ⟨a, s', hrun, hsound, hfollow, hq⟩ := hm
  refine ⟨f a, s', ?_, hsound, hfollow, h a s' hsound hfollow hq⟩
  simp only [Functor.map, StateT.map, hrun, Bind.bind, Except.bind, Pure.pure, Except.pure]

theorem run_ask {f : Registry → Except Defect α} {a : α} (hf : f s.registry = .ok a) :
    Binder.ask f s = .ok (a, s) := by
  simp only [Binder.ask, Bind.bind, StateT.bind, MonadState.get, getThe, MonadStateOf.get, StateT.get,
    Pure.pure, Except.pure, Except.bind, liftM, monadLift, MonadLift.monadLift, StateT.lift, hf]

theorem Binds.ask_bind {f : Registry → Except Defect α} {a : α} (hf : f s.registry = .ok a)
    {k : α → Binder β} {R : β → Typing → Prop} (h : Binds params s (k a) R) :
    Binds params s (Binder.ask f >>= k) R := by
  obtain ⟨b, s', hrun, hrest⟩ := h
  exact ⟨b, s', by rw [run_bind (run_ask hf), hrun], hrest⟩

theorem Binds.get_bind {k : State → Binder β} {R : β → Typing → Prop}
    (h : Binds params s (k s) R) : Binds params s (get >>= k) R := by
  obtain ⟨b, s', hrun, hrest⟩ := h
  exact ⟨b, s', by rw [run_bind (run_get s), hrun], hrest⟩

variable (hs : Sound params s)
include hs

theorem Binds.pure {a : α} {Q : α → Typing → Prop} (h : Q a (typing params s)) :
    Binds params s (Pure.pure a) Q := ⟨a, s, rfl, hs, Follows.refl s, h⟩

theorem Binds.ask {f : Registry → Except Defect α} {a : α} {Q : α → Typing → Prop}
    (hf : f s.registry = .ok a) (h : Q a (typing params s)) : Binds params s (Binder.ask f) Q :=
  ⟨a, s, run_ask hf, hs, Follows.refl s, h⟩

/-- The state after a step is sound if the registry is, and the names that are new are known. -/
theorem Sound.follow {s' : State} (hf : Continues s s')
    (ht : SoundTypes s'.registry s'.report.hasErrors) (hl : s'.library = s.library)
    (hi : s'.intrinsics = s.intrinsics)
    (hn : ∀ sym, InScope s'.scope sym → InScope s.scope sym ∨ Known params s' sym) :
    Sound params s' := by
  refine ⟨ht, hl.trans hs.library, hi.trans hs.intrinsics, ?_, ?_, ?_⟩
  · intro sym hsym
    obtain hold | hnew := hn sym hsym
    · exact (hs.symbols sym hold).mono hf.toGrows
    · exact hnew
  · rw [hf.result]
    exact hs.result.mono hf.registry
  · intro he
    rw [hf.result] at he
    exact hf.errors (hs.resultError he)

/-- A complaint is an error or a warning; errors are remembered. -/
theorem Binds.complain (span : Span) (c : Complaint) :
    Binds params s (Binder.complain span c) fun _ c' =>
      c.severity = .error → c'.lenient := by
  have herr : s.report.hasErrors → (s.report.add (c.diagnostic span)).hasErrors := by
    simp only [Report.hasErrors, Report.add, Array.any_push]
    intro h
    simp [h]
  have hf : Follows s { s with report := s.report.add (c.diagnostic span) } :=
    ⟨⟨⟨le_refl s.registry, herr, fun _ h => h⟩, rfl, rfl⟩, Nests.refl _⟩
  refine ⟨(), _, rfl, hs.follow hf.toContinues (hs.types.imp herr) rfl rfl fun sym h => .inl h, hf, ?_⟩
  intro hc
  simp [typing, Report.hasErrors, Report.add, Complaint.diagnostic, Diagnostic.isError, hc]

theorem Binds.register {f : Registry → Except Defect (α × Registry)} {a : α} {r : Registry}
    {Q : α → Typing → Prop} (hf : f s.registry = .ok (a, r)) (hle : s.registry ≤ r)
    (ht : SoundTypes r s.report.hasErrors) (h : Q a (typing params { s with registry := r })) :
    Binds params s (Binder.register f) Q := by
  have hfollow : Follows s { s with registry := r } :=
    ⟨⟨⟨hle, id, fun _ h => h⟩, rfl, rfl⟩, Nests.refl _⟩
  refine ⟨a, { s with registry := r }, ?_,
    hs.follow hfollow.toContinues ht rfl rfl fun sym h => .inl h, hfollow, h⟩
  simp only [Binder.register, Bind.bind, StateT.bind, MonadState.get, getThe, MonadStateOf.get,
    StateT.get, Pure.pure, Except.pure, Except.bind, liftM, monadLift, MonadLift.monadLift,
    StateT.lift, hf]
  rfl

theorem Binds.newSymbol (name : String) (kind : SymbolKind) (type : TypeId) (readonly : Bool) :
    Binds params s (Binder.newSymbol name kind type readonly) fun sym _ =>
      ∃ n, sym = ⟨.declared n, name, kind, type, readonly⟩ := by
  have hfollow : Follows s { s with nextSymbol := s.nextSymbol + 1 } :=
    ⟨⟨⟨le_refl s.registry, id, fun _ h => h⟩, rfl, rfl⟩, Nests.refl _⟩
  exact ⟨_, { s with nextSymbol := s.nextSymbol + 1 }, rfl,
    hs.follow hfollow.toContinues hs.types rfl rfl fun sym h => .inl h, hfollow, s.nextSymbol, rfl⟩

/-- A change that leaves all but the context, the supply of symbols and the list of locals alone. -/
theorem Binds.modify {g : State → State} (hr : (g s).registry = s.registry)
    (hl : (g s).library = s.library) (hi : (g s).intrinsics = s.intrinsics)
    (hp : (g s).report = s.report) (hc : (g s).scope = s.scope)
    (hres : (g s).context.result = s.context.result)
    (hloops : (g s).context.loops = s.context.loops) :
    Binds params s (modify g) fun _ _ => True := by
  have hfollow : Follows s (g s) :=
    ⟨⟨⟨hr ▸ le_refl s.registry, by rw [hp]; exact id, by rw [hc]; exact fun _ h => h⟩, hres, hloops⟩,
      hc ▸ Nests.refl _⟩
  refine ⟨(), g s, rfl, hs.follow hfollow.toContinues ?_ hl hi ?_, hfollow, trivial⟩
  · rw [hr, hp]
    exact hs.types
  · rw [hc]
    exact fun sym h => .inl h

theorem Binds.markRead (sym : Symbol) :
    Binds params s (Binder.markRead sym) fun _ _ => True := by
  by_cases hr : s.context.reads.contains sym.id
  · refine Binds.modify hs ?_ ?_ ?_ ?_ ?_ ?_ ?_ <;> rw [if_pos hr]
  · refine Binds.modify hs ?_ ?_ ?_ ?_ ?_ ?_ ?_ <;> rw [if_neg hr]

omit hs in
/-- Where a symbol is declared in the innermost scope. -/
theorem declare_spec (s : State) (sym : Symbol) (hkind : sym.kind ≠ .globalVariable) :
    ∃ declared scope, Binder.declare sym s = .ok (declared, { s with scope }) ∧
      Nests s.scope scope ∧ s.scope.outermost.symbols ⊆ scope.outermost.symbols ∧
      ∀ x, InScope scope x → InScope s.scope x ∨ x = sym := by
  have hrun := run_declare s sym
  cases hd : s.scope.declare? sym with
  | none =>
    rw [hd] at hrun
    exact ⟨_, s.scope, hrun, Nests.refl _, fun _ h => h, fun _ h => .inl h⟩
  | some scope =>
    rw [hd] at hrun
    refine ⟨_, scope, hrun, ?_⟩
    obtain ⟨hinner, ho, hi⟩ | ⟨ho, f, f', rest, hi, hi', hf⟩ := declare?_eq_some hd
    · refine ⟨⟨fun _ => ⟨hi.trans hinner, fun x hx hx' => ?_⟩, fun h => absurd hinner h⟩, ?_,
        fun x hx => ?_⟩
      · rw [ho, List.mem_cons] at hx
        exact hx.resolve_left fun he => hkind (he ▸ hx')
      · rw [ho]
        exact List.subset_cons_self _ _
      · simp only [InScope, ho, hi, List.mem_cons] at hx
        obtain (rfl | hx) | hx := hx
        · exact .inr rfl
        · exact .inl (.inl hx)
        · exact .inl (.inr hx)
    · refine ⟨⟨fun h => by simp [hi] at h, fun _ => ⟨by simp [hi'], ho⟩⟩, ?_, fun x hx => ?_⟩
      · rw [ho]
        exact fun _ h => h
      · simp only [InScope, ho, hi', List.mem_cons] at hx
        obtain hx | ⟨k, rfl | hk', hx⟩ := hx
        · exact .inl (.inl hx)
        · rw [hf, List.mem_cons] at hx
          exact hx.symm.imp_left fun h => .inr ⟨f, by simp [hi], h⟩
        · exact .inl (.inr ⟨k, by simp [hi, hk'], hx⟩)

/-- Declaring a symbol that is known. -/
theorem Binds.declare {sym : Symbol} (hk : Known params s sym) (hkind : sym.kind ≠ .globalVariable) :
    Binds params s (Binder.declare sym) fun _ _ => True := by
  obtain ⟨declared, scope, hrun, hnests, hout, hnew⟩ := declare_spec s _ hkind
  have hfollow : Follows s { s with scope } := ⟨⟨⟨le_refl s.registry, id, hout⟩, rfl, rfl⟩, hnests⟩
  refine ⟨_, _, hrun, hs.follow hfollow.toContinues hs.types rfl rfl fun x hx => ?_, hfollow, trivial⟩
  obtain hx | rfl := hnew x hx
  · exact .inl hx
  · exact .inr (hk.mono hfollow.toGrows)

/-- Declaring a symbol in the global scope. -/
theorem declareGlobal_spec (sym : Symbol)
    (hk : ∀ s', Grows s s' → sym ∈ s'.scope.outermost.symbols → Known params s' sym) :
    ∃ declared s', Binder.declareGlobal sym s = .ok (declared, s') ∧ Sound params s' ∧ Continues s s' ∧
      s'.scope.inner = s.scope.inner ∧ s'.scope.outermost.symbols =
        if declared then sym :: s.scope.outermost.symbols else s.scope.outermost.symbols := by
  have hrun := run_declareGlobal s sym
  cases hd : s.scope.declareGlobal? sym with
  | none =>
    rw [hd] at hrun
    exact ⟨_, _, hrun, hs, (Follows.refl s).toContinues, rfl, by simp⟩
  | some scope =>
    rw [hd] at hrun
    obtain ⟨hsyms, hinner⟩ := declareGlobal?_eq_some hd
    have hgrow : Continues s { s with scope } :=
      ⟨⟨le_refl s.registry, id, by simp only [hsyms]; exact List.subset_cons_self _ _⟩, rfl, rfl⟩
    refine ⟨_, _, hrun, hs.follow hgrow hs.types rfl rfl ?_, hgrow, hinner, by simp [hsyms]⟩
    intro x hx
    simp only [InScope, hsyms, hinner, List.mem_cons] at hx
    obtain (rfl | hx) | hx := hx
    · exact .inr (hk _ hgrow.toGrows (by simp [hsyms]))
    · exact .inl (.inl hx)
    · exact .inl (.inr hx)

/-- Declaring a symbol in the global scope where no other scope is open. -/
theorem Binds.declareGlobal {sym : Symbol} (htop : s.scope.inner = [])
    (hk : ∀ s', Grows s s' → sym ∈ s'.scope.outermost.symbols → Known params s' sym)
    (hkind : sym.kind ≠ .globalVariable) :
    Binds params s (Binder.declareGlobal sym) fun _ _ => True := by
  obtain ⟨b, s', hrun, hsound, hgrow, hinner, hsyms⟩ := declareGlobal_spec hs _ hk
  refine ⟨b, s', hrun, hsound, ⟨hgrow, fun _ => ⟨hinner.trans htop, fun x hx hx' => ?_⟩,
    fun h => absurd htop h⟩, trivial⟩
  rw [hsyms] at hx
  split at hx
  · rw [List.mem_cons] at hx
    exact hx.resolve_left fun he => hkind (he ▸ hx')
  · exact hx

omit hs in
/-- What is declared in a scope of its own is forgotten behind it. -/
theorem Binds.inScope (hs : Sound params s) (kind : ScopeKind) {body : Binder α}
    {Q : α → Typing → Prop}
    (hb : ∀ s', Sound params s' → Continues s s' → Binds params s' body Q) :
    Binds params s (Binder.inScope kind body) Q := by
  have hgrow : Continues s { s with scope := s.scope.push kind } :=
    ⟨⟨le_refl s.registry, id, fun _ h => h⟩, rfl, rfl⟩
  have hpush : Sound params { s with scope := s.scope.push kind } := by
    refine hs.follow hgrow hs.types rfl rfl ?_
    intro x hx
    obtain ho | ⟨f, hf, hx⟩ := hx
    · exact .inl (.inl ho)
    · obtain rfl | hf := List.mem_cons.1 hf
      · simp at hx
      · exact .inl (.inr ⟨f, hf, hx⟩)
  obtain ⟨a, s', hrun, hs', hf', hq⟩ := hb _ hpush hgrow
  have hout : s'.scope.outermost = s.scope.outermost := (hf'.nests.inside (by simp [Scope.push])).2
  have hback : Follows s { s' with scope := { s'.scope with inner := s.scope.inner } } :=
    ⟨⟨⟨hf'.registry, hf'.errors, hf'.outermost⟩, hf'.result, hf'.loops⟩,
      fun h => ⟨h, fun _ hx _ => hout ▸ hx⟩, fun h => ⟨h, hout⟩⟩
  refine ⟨a, { s' with scope := { s'.scope with inner := s.scope.inner } }, ?_, ?_, hback, hq⟩
  · rw [Binder.inScope, run_bind (run_get s), run_bind (run_modify _ s), run_bind hrun,
      run_bind (run_modify _ s')]
    rfl
  · refine ⟨hs'.types, hs'.library, hs'.intrinsics, ?_, hs'.result, hs'.resultError⟩
    intro x hx
    obtain ho | hi := hx
    · exact hs'.symbols x (.inl ho)
    · exact (hs.symbols x (.inr hi)).mono hback.toGrows

theorem Binds.arrays (n : Nat) {t : TypeId} (ht : s.registry.IsElement t) :
    Binds params s (resolveType.arrays n t) fun u c => c.registry.IsElement u := by
  induction n generalizing s t with
  | zero => exact Binds.pure hs ht
  | succ n ih =>
    obtain ⟨u, r, hrun, hle, htypes, hel⟩ := hs.types.arrayOf ht
    refine Binds.bind (Binds.register hs hrun hle htypes (Q := fun v c => c.registry.element v = .ok t)
      hel) ?_
    intro v s' hs' hf hv
    refine ih hs' ⟨Registry.isType_of_element hv, ?_, ?_⟩
    · rintro rfl
      simp [Registry.element, Registry.get?] at hv
    · rintro rfl
      simp [Registry.element, Registry.get?] at hv

/-- A type that a declaration may have: one of values, or the error type of a mistake. -/
def IsDeclarable (c : Typing) (t : TypeId) : Prop :=
  c.registry.IsType t ∧ t ≠ .builtin .void ∧ (t = .error → c.lenient)

theorem Binds.resolveType (t : Parsed.TypeName) :
    Binds params s (Binder.resolveType t) fun u c => IsDeclarable c u ∨ u = .builtin .void := by
  unfold Binder.resolveType
  split
  · refine Binds.bind (Binds.complain hs _ _) ?_
    intro _ s' hs' _ hl
    exact Binds.pure hs' (.inl ⟨trivial, by simp, fun _ => hl rfl⟩)
  · next b hb =>
    split
    · refine Binds.bind (Binds.complain hs _ _) ?_
      intro _ s' hs' _ hl
      exact Binds.pure hs' (.inl ⟨trivial, by simp, fun _ => hl rfl⟩)
    · next hv =>
      by_cases hb : b = .void
      · have hrank : t.rank = 0 := by simpa [hb] using hv
        rw [hrank, hb]
        exact Binds.pure hs (.inr rfl)
      · refine (Binds.arrays hs t.rank (t := .builtin b) ⟨trivial, by simp, by simpa using hb⟩).imp ?_
        intro u s' _ _ hu
        exact .inl ⟨hu.1, hu.2.2, fun he => absurd he hu.2.1⟩

theorem Binds.valueType (t : Parsed.TypeName) :
    Binds params s (Binder.valueType t) fun u c => IsDeclarable c u := by
  refine Binds.bind (Binds.resolveType hs t) ?_
  intro u s' hs' _ hu
  split
  · refine Binds.bind (Binds.complain hs' _ _) ?_
    intro _ s'' hs'' _ hl
    exact Binds.pure hs'' ⟨trivial, by simp, fun _ => hl rfl⟩
  · next hv => exact Binds.pure hs' (hu.resolve_right hv)

end

end Binder
end TypedScript
