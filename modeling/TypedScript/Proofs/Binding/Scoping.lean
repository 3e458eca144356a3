import Mathlib.Data.List.Forall2
import TypedScript.Proofs.Binding.Identity
import TypedScript.Proofs.Binding.Nesting
import TypedScript.Proofs.Parsed.Reading

/-!
# The scopes of a program

The global scope is filled before any body is bound: with what is imported, with the functions, and
then with the global variables one after the other. A body is bound inside all of them, the initial
value of a global variable inside those that were written before it.
-/

namespace TypedScript

namespace Nesting

/-- Global variables are bound in order. An initial value sees the global scope as it was before the
declaration; a variable whose name is taken is left out. -/
inductive BindsGlobals : List Symbol → List Parsed.Declaration → List Symbol → List Bound.Stmt →
    List Symbol → Prop
  | nil {G : List Symbol} : BindsGlobals G [] [] [] G
  | declare {G G' : List Symbol} {d : Parsed.Declaration} {rest : List Parsed.Declaration}
    {sym : Symbol} {syms : List Symbol} {value? : Option Bound.Expr} {stmts : List Bound.Stmt} :
    meaning? [G] d.name = none → sym.name = d.name → sym.kind = .globalVariable →
      BindsOption [G] d.init? value? → BindsGlobals (sym :: G) rest syms stmts G' →
      BindsGlobals G (d :: rest) (sym :: syms)
        ((value?.map fun v => Bound.Stmt.eval
          ⟨d.span, .assign d.span (.symbol d.span sym) v⟩).toList ++ stmts) G'
  | taken {G G' : List Symbol} {d : Parsed.Declaration} {rest : List Parsed.Declaration}
    {syms : List Symbol} {stmts : List Bound.Stmt} : (meaning? [G] d.name).isSome →
      BindsGlobals G rest syms stmts G' → BindsGlobals G (d :: rest) syms stmts G'

/-- A function is bound. Its body shares the scope of its parameters. -/
structure BindsFunction (Γ : Nesting) (f : Parsed.Function) (b : Bound.Routine) : Prop where
  name : b.name = f.name
  params : b.params.map Symbol.name = f.params.map Parsed.Param.name
  kinds : ∀ (i : Nat) (sym : Symbol), b.params[i]? = some sym → sym.kind = .parameter i
  body : BindsStmts (b.params.foldl (fun Γ sym => Γ.declare sym) ([] :: Γ)) f.body b.body

/-- A source file is bound. Imports and functions are in the global scope first, then the global
variables; all of them are around every body. Of what is left out an error is reported. -/
structure BindsFile (shared globals : List Symbol) (reported : Span → Prop) (file : Parsed.File)
    (p : Bound.Program) : Prop where
  names : ∀ sym ∈ shared, sym.name ∈ file.imports.map Parsed.Import.localName ++
    file.functions.map Parsed.Function.name ∧ sym.kind ≠ .globalVariable
  imports : ∀ i ∈ file.imports, (meaning? [shared] i.localName).isSome ∨ reported i.span
  functions : ∀ f ∈ file.functions, (meaning? [shared] f.name).isSome
  declarations : BindsGlobals shared file.globals p.globals p.initializer.body globals
  distinct : (globals.map Symbol.name).Nodup
  bodies : ∃ fs, fs.Sublist file.functions ∧ (∀ f ∈ file.functions, f ∈ fs ∨ reported f.span) ∧
    List.Forall₂ (BindsFunction [globals]) fs p.functions
  script : ∀ b, p.script? = some b → BindsStmts [[], globals] file.statements b.body
  scriptless : p.script? = none ↔ file.statements = []

/-- A scope without declarations does not matter. -/
@[simp] theorem meaning?_nil_cons (Γ : Nesting) (name : String) :
    meaning? ([] :: Γ) name = Γ.meaning? name := rfl

end Nesting

namespace Binder

open TypedScript.Binding TypedScript.Bound

section

variable {α β : Type} {s : State}

theorem preserves_register (f : Registry → Except Defect (α × Registry)) :
    Preserves (Undisturbed s) (register f) fun _ => True := by
  intro t a t' ht hrun
  change (liftM (f t.registry) >>= fun p => (do
    modify fun s => { s with registry := p.2 }
    return p.1 : Binder α)) t = _ at hrun
  obtain ⟨p, t₁, hlift, hset⟩ := bind_eq_ok hrun
  obtain ⟨-, rfl⟩ := lift_eq_ok hlift
  cases hset
  exact ⟨⟨ht.scope, ht.next, ht.loops, ht.report⟩, trivial⟩

theorem preserves_mapM {I : State → Prop} {f : α → Binder β}
    (hf : ∀ a, Preserves I (f a) fun _ => True) (as : List α) :
    Preserves I (as.mapM f) fun bs => bs.length = as.length := by
  induction as with
  | nil => exact Preserves.pure rfl
  | cons a rest ih =>
    rw [List.mapM_cons]
    refine Preserves.bind (hf a) fun b _ => Preserves.bind ih fun bs hbs => Preserves.pure ?_
    simp [hbs]

theorem preserves_forM {I : State → Prop} {f : α → Binder Unit}
    (hf : ∀ a, Preserves I (f a) fun _ => True) (as : List α) :
    Preserves I (as.forM f) fun _ => True := by
  induction as with
  | nil => exact Preserves.pure trivial
  | cons a rest ih => exact Preserves.bind (hf a) fun _ _ => ih

theorem preserves_adoptAll (group : TypeId) (ms : List TypeId) :
    Preserves (Undisturbed s) (adoptAll group ms) fun _ => True := by
  induction ms with
  | nil => exact Preserves.pure trivial
  | cons c rest ih => exact Preserves.bind (preserves_register _) fun _ _ => ih

theorem preserves_matching (params : List TypeId) (result? : Option TypeId) (ms : List TypeId) :
    Preserves (Undisturbed s) (matching params result? ms) fun _ => True := by
  induction ms with
  | nil => exact Preserves.pure trivial
  | cons c rest ih =>
    refine Preserves.bind (Preserves.ask _) fun info _ => Preserves.bind ih fun found _ => ?_
    split
    · exact Preserves.pure trivial
    · exact Preserves.pure trivial

theorem preserves_hasOverload (params : List TypeId) (ms : List TypeId) :
    Preserves (Undisturbed s) (hasOverload params ms) fun _ => True := by
  induction ms with
  | nil => exact Preserves.pure trivial
  | cons c rest ih =>
    refine Preserves.bind (Preserves.ask _) fun info _ => ?_
    split
    · exact Preserves.pure trivial
    · exact ih

end

/-- An error about a part of the text was reported. -/
def Reported (s : State) (span : Span) : Prop :=
  ∃ d ∈ s.report.items.toList, d.isError ∧ d.span? = some span

theorem Reported.mono {s s' : State} {span : Span} (h : Reported s span)
    (hle : s.report.items.toList <+: s'.report.items.toList) : Reported s' span :=
  h.imp fun _ hd => ⟨hle.subset hd.1, hd.2⟩

theorem reported_complain {s s' : State} {span : Span} {c : Complaint} (hc : c.severity = .error)
    (h : complain span c s = .ok ((), s')) : Reported s' span := by
  cases h
  refine ⟨c.diagnostic span, by simp [Report.add], ?_, rfl⟩
  simp [Complaint.diagnostic, Diagnostic.isError, hc]

/-- A last step that reports an error. -/
theorem undisturbed_reject {α : Type} {s t t' : State} {span : Span} {c : Complaint} {a b : α}
    (hc : c.severity = .error) (ht : Undisturbed s t)
    (h : (complain span c >>= fun _ => pure a) t = .ok (b, t')) :
    Undisturbed s t' ∧ b = a ∧ Reported t' span := by
  obtain ⟨_, t₁, hcomplain, hpure⟩ := bind_eq_ok h
  have ht₁ := (Preserves.complain span c t _ t₁ (Undisturbed.refl t) hcomplain).1
  have hreported := reported_complain hc hcomplain
  cases hpure
  exact ⟨⟨ht₁.scope.trans ht.scope, ht₁.next.trans ht.next, ht₁.loops.trans ht.loops,
    ht.report.trans ht₁.report⟩, rfl, hreported⟩

theorem importedOverloads_reports {i : Parsed.Import} {group : TypeId} {s s' : State}
    {ms? : Option (List TypeId)} (h : importedOverloads i group s = .ok (ms?, s')) :
    Undisturbed s s' ∧ (ms? = none → Reported s' i.span) := by
  unfold importedOverloads at h
  obtain ⟨members, s₁, hmembers, h⟩ := bind_eq_ok h
  obtain ⟨hs₁, -⟩ := Preserves.ask _ s _ s₁ (Undisturbed.refl s) hmembers
  split at h
  · cases h
    exact ⟨hs₁, by simp⟩
  · obtain ⟨params, s₂, hparams, h⟩ := bind_eq_ok h
    obtain ⟨hs₂, -⟩ := preserves_mapM (I := Undisturbed s) (fun t => Preserves.resolveType t) _ s₁ _ s₂
      hs₁ hparams
    obtain ⟨result?, s₃, hresult, h⟩ := bind_eq_ok h
    obtain ⟨hs₃, -⟩ := preserves_option (I := Undisturbed s) (fun t => Preserves.resolveType t) _ s₂ _
      s₃ hs₂ hresult
    obtain ⟨found, s₄, hfound, h⟩ := bind_eq_ok h
    obtain ⟨hs₄, -⟩ := preserves_matching _ _ _ s₃ _ s₄ hs₃ hfound
    obtain ⟨names, s₅, hnames, h⟩ := bind_eq_ok h
    obtain ⟨hs₅, -⟩ := Preserves.ask _ s₄ _ s₅ hs₄ hnames
    dsimp only at h
    split at h
    · obtain ⟨hs', rfl, hreported⟩ := undisturbed_reject rfl hs₅ h
      exact ⟨hs', fun _ => hreported⟩
    · cases h
      exact ⟨hs₅, by simp⟩
    · obtain ⟨hs', rfl, hreported⟩ := undisturbed_reject rfl hs₅ h
      exact ⟨hs', fun _ => hreported⟩

/-- Symbols were entered into the global scope, the latest first, and nothing else was declared. -/
structure Gains (s s' : State) (syms : List Symbol) : Prop where
  inner : s'.scope.inner = s.scope.inner
  symbols : s'.scope.outermost.symbols = syms ++ s.scope.outermost.symbols
  distinct : (s.scope.outermost.symbols.map Symbol.name).Nodup →
    (s'.scope.outermost.symbols.map Symbol.name).Nodup
  proceeds : Proceeds s s' syms

theorem Numbers.perm {lo hi : Nat} {a b : List Symbol} (h : Numbers lo hi a) (hab : a.Perm b) :
    Numbers lo hi b :=
  ⟨h.le, fun sym hsym => h.range sym (hab.mem_iff.mpr hsym), ((hab.map Symbol.id).nodup_iff).mp h.nodup⟩

theorem Proceeds.perm {s s' : State} {a b : List Symbol} (h : Proceeds s s' a) (hab : a.Perm b) :
    Proceeds s s' b :=
  ⟨h.numbers.perm hab, h.loops, h.report⟩

theorem Gains.trans {s t u : State} {a b : List Symbol} (h : Gains s t a) (k : Gains t u b) :
    Gains s u (b ++ a) where
  inner := k.inner.trans h.inner
  symbols := by rw [k.symbols, h.symbols, List.append_assoc]
  distinct hs := k.distinct (h.distinct hs)
  proceeds := (h.proceeds.trans k.proceeds).perm List.perm_append_comm

theorem Undisturbed.gains {s s' : State} (h : Undisturbed s s') : Gains s s' [] :=
  ⟨by rw [h.scope], by rw [h.scope]; rfl, by rw [h.scope]; exact id, h.proceeds⟩

theorem meaning?_singleton (G : List Symbol) (name : String) :
    Nesting.meaning? [G] name = G.find? fun s => s.name == name := by
  simp [Nesting.meaning?]

def Stands (s : State) (name : String) : Prop :=
  (Nesting.meaning? [s.scope.outermost.symbols] name).isSome

theorem stands_iff {s : State} {name : String} :
    Stands s name ↔ ∃ sym ∈ s.scope.outermost.symbols, sym.name = name := by
  simp [Stands, meaning?_singleton]

theorem Stands.gains {s s' : State} {syms : List Symbol} {name : String} (h : Stands s name)
    (k : Gains s s' syms) : Stands s' name := by
  rw [stands_iff] at h ⊢
  obtain ⟨sym, hsym, hname⟩ := h
  exact ⟨sym, by rw [k.symbols]; exact List.mem_append_right _ hsym, hname⟩

theorem declareGlobal?_cases (scope : Scope) (sym : Symbol) :
    scope.declareGlobal? sym = none ∧
        (Nesting.meaning? [scope.outermost.symbols] sym.name).isSome ∨
      ∃ scope', scope.declareGlobal? sym = some scope' ∧
        Nesting.meaning? [scope.outermost.symbols] sym.name = none := by
  rw [meaning?_singleton, Scope.declareGlobal?, Frame.declare?, Frame.find?]
  by_cases hfound : (scope.outermost.symbols.find? fun s => s.name == sym.name).isSome
  · exact .inl ⟨by rw [if_pos hfound]; rfl, hfound⟩
  · exact .inr ⟨_, by rw [if_neg hfound]; rfl, by simpa using hfound⟩

/-- Declaring a new symbol in the global scope enters it, unless its name is taken. -/
theorem run_declareNew {name : String} {kind : SymbolKind} {type : TypeId} {readonly : Bool}
    {s s₁ s₂ : State} {sym : Symbol} {declared : Bool}
    (hsym : newSymbol name kind type readonly s = .ok (sym, s₁))
    (h : declareGlobal sym s₁ = .ok (declared, s₂)) :
    sym.name = name ∧ sym.kind = kind ∧
      (declared = true ∧ Nesting.meaning? [s.scope.outermost.symbols] name = none ∧
          Gains s s₂ [sym] ∨
        declared = false ∧ (Nesting.meaning? [s.scope.outermost.symbols] name).isSome ∧
          Gains s s₂ []) := by
  cases hsym
  refine ⟨rfl, rfl, ?_⟩
  rw [run_declareGlobal] at h
  obtain ⟨hscope, hfound⟩ | ⟨scope, hscope, hfound⟩ := declareGlobal?_cases s.scope
    ⟨.declared s.nextSymbol, name, kind, type, readonly⟩
  · simp only [hscope, Option.elim] at h
    cases h
    exact .inr ⟨rfl, hfound, rfl, rfl, id, ⟨by simp, by simp, by simp⟩, rfl, List.prefix_refl _⟩
  · simp only [hscope, Option.elim] at h
    cases h
    obtain ⟨hsymbols, hinner⟩ := declareGlobal?_eq_some hscope
    refine .inl ⟨rfl, hfound, hinner, hsymbols, fun hs => ?_, ⟨by simp, by simp, by simp⟩, rfl,
      List.prefix_refl _⟩
    rw [meaning?_singleton, List.find?_eq_none] at hfound
    rw [hsymbols, List.map_cons, List.nodup_cons, List.mem_map]
    refine ⟨?_, hs⟩
    rintro ⟨x, hx, hname⟩
    exact hfound x hx (by simpa using hname)

/-- Symbols of the library or for functions were entered into the global scope, under some names. -/
def GainsAmong (names : List String) (s s' : State) : Prop :=
  ∃ syms, Gains s s' syms ∧ ∀ sym ∈ syms, sym.name ∈ names ∧ sym.kind ≠ .globalVariable

theorem GainsAmong.trans {a b : List String} {s t u : State} (h : GainsAmong a s t)
    (k : GainsAmong b t u) : GainsAmong (a ++ b) s u := by
  obtain ⟨xs, hxs, ha⟩ := h
  obtain ⟨ys, hys, hb⟩ := k
  refine ⟨ys ++ xs, hxs.trans hys, fun sym hsym => ?_⟩
  obtain hsym | hsym := List.mem_append.mp hsym
  · exact ⟨List.mem_append_right _ (hb sym hsym).1, (hb sym hsym).2⟩
  · exact ⟨List.mem_append_left _ (ha sym hsym).1, (ha sym hsym).2⟩

theorem Undisturbed.gainsAmong {s s' : State} (h : Undisturbed s s') (names : List String) :
    GainsAmong names s s' :=
  ⟨[], h.gains, by simp⟩

theorem GainsAmong.stands {names : List String} {s s' : State} (h : GainsAmong names s s')
    {name : String} (hname : Stands s name) : Stands s' name := by
  obtain ⟨syms, hsyms, -⟩ := h
  exact hname.gains hsyms

theorem GainsAmong.report {names : List String} {s s' : State} (h : GainsAmong names s s') :
    s.report.items.toList <+: s'.report.items.toList := by
  obtain ⟨syms, hsyms, -⟩ := h
  exact hsyms.proceeds.report

theorem Undisturbed.stands {s s' : State} (h : Undisturbed s s') {name : String}
    (hname : Stands s name) : Stands s' name :=
  hname.gains h.gains

/-- A symbol other than a global variable is declared, or else an error is reported. -/
theorem run_enter {name : String} {kind : SymbolKind} {type : TypeId} {readonly : Bool}
    {s s₁ s₂ : State} {sym : Symbol} {declared : Bool} (hkind : kind ≠ .globalVariable)
    (hsym : newSymbol name kind type readonly s = .ok (sym, s₁))
    (h : declareGlobal sym s₁ = .ok (declared, s₂)) :
    GainsAmong [name] s s₂ ∧ Stands s₂ name := by
  obtain ⟨hname, hk, ⟨-, -, hgains⟩ | ⟨-, hfound, hgains⟩⟩ := run_declareNew hsym h
  · refine ⟨⟨_, hgains, by simp [hname, hk, hkind]⟩, stands_iff.mpr ⟨sym, ?_, hname⟩⟩
    rw [hgains.symbols]
    exact List.mem_cons_self
  · exact ⟨⟨_, hgains, by simp⟩, Stands.gains hfound hgains⟩

theorem run_localGroup {name : String} {span : Span} {s s' : State} {group? : Option TypeId}
    (h : localGroup name span s = .ok (group?, s')) :
    GainsAmong [name] s s' ∧ Stands s' name ∧ (group? = none → Reported s' span) := by
  obtain ⟨s₁, s₂, hget, h⟩ := bind_eq_ok h
  cases hget
  cases hfind : s.scope.outermost.find? name with
  | some sym =>
    have hstands : Stands s name := by
      unfold Stands
      rw [meaning?_singleton]
      change (s.scope.outermost.find? name).isSome
      rw [hfind]
      rfl
    simp only [hfind] at h
    split at h
    · cases h
      exact ⟨(Undisturbed.refl s).gainsAmong _, hstands, by simp⟩
    · obtain ⟨hs', rfl, hreported⟩ := undisturbed_reject rfl (.refl s) h
      exact ⟨hs'.gainsAmong _, hs'.stands hstands, fun _ => hreported⟩
  | none =>
    simp only [hfind] at h
    obtain ⟨group, s₁, hgroup, h⟩ := bind_eq_ok h
    obtain ⟨hs₁, -⟩ := preserves_register _ s _ s₁ (.refl s) hgroup
    obtain ⟨sym, s₂, hsym, h⟩ := bind_eq_ok h
    obtain ⟨declared, s₃, hdeclare, h⟩ := bind_eq_ok h
    cases h
    obtain ⟨hgains, hstands⟩ := run_enter (by simp) hsym hdeclare
    exact ⟨by simpa using (hs₁.gainsAmong []).trans hgains, hstands, by simp⟩

/-- An import enters its name, or else an error is reported. -/
theorem run_bindImport {i : Parsed.Import} {s s' : State} (h : bindImport i s = .ok ((), s')) :
    GainsAmong [i.localName] s s' ∧ (Stands s' i.localName ∨ Reported s' i.span) := by
  unfold bindImport at h
  obtain ⟨s₁, s₂, hget, h⟩ := bind_eq_ok h
  cases hget
  dsimp only at h
  have hreject : ∀ {c : Complaint} {t t' : State}, c.severity = .error →
      complain i.span c t = .ok ((), t') → Undisturbed t t' ∧ Reported t' i.span :=
    fun hc hrun => ⟨(Preserves.complain _ _ _ _ _ (.refl _) hrun).1, reported_complain hc hrun⟩
  cases hfield : s.library.field? i.qualified with
  | some field =>
    simp only [hfield] at h
    split at h
    · obtain ⟨hs', hreported⟩ := hreject rfl h
      exact ⟨hs'.gainsAmong _, .inr hreported⟩
    · obtain ⟨sym, s₁, hsym, h⟩ := bind_eq_ok h
      obtain ⟨declared, s₂, hdeclare, h⟩ := bind_eq_ok h
      obtain ⟨hgains, hstands⟩ := run_enter (by simp) hsym hdeclare
      split at h
      · obtain ⟨hs', -⟩ := hreject rfl h
        exact ⟨by simpa using hgains.trans (hs'.gainsAmong []), .inl (hs'.stands hstands)⟩
      · cases h
        exact ⟨hgains, .inl hstands⟩
  | none =>
    cases hgroup : s.library.group? i.qualified with
    | none =>
      simp only [hfield, hgroup] at h
      obtain ⟨hs', hreported⟩ := hreject rfl h
      exact ⟨hs'.gainsAmong _, .inr hreported⟩
    | some group =>
      simp only [hfield, hgroup] at h
      obtain ⟨members?, s₁, hmembers, h⟩ := bind_eq_ok h
      obtain ⟨hs₁, hreported⟩ := importedOverloads_reports hmembers
      cases members? with
      | none =>
        cases h
        exact ⟨hs₁.gainsAmong _, .inr (hreported rfl)⟩
      | some members =>
        obtain ⟨own?, s₂, hown, h⟩ := bind_eq_ok h
        obtain ⟨hgains, hstands, -⟩ := run_localGroup hown
        have hgains₂ : GainsAmong [i.localName] s s₂ := by
          simpa using (hs₁.gainsAmong []).trans hgains
        cases own? with
        | none =>
          cases h
          exact ⟨hgains₂, .inl hstands⟩
        | some own =>
          obtain ⟨hs', -⟩ := preserves_adoptAll own members s₂ _ s' (.refl s₂) h
          exact ⟨by simpa using hgains₂.trans (hs'.gainsAmong []), .inl (hs'.stands hstands)⟩

theorem run_bindImports {is : List Parsed.Import} {s s' : State}
    (h : is.forM bindImport s = .ok ((), s')) :
    GainsAmong (is.map Parsed.Import.localName) s s' ∧
      ∀ i ∈ is, Stands s' i.localName ∨ Reported s' i.span := by
  induction is generalizing s with
  | nil =>
    cases h
    exact ⟨(Undisturbed.refl _).gainsAmong _, by simp⟩
  | cons i rest ih =>
    obtain ⟨_, s₁, hfirst, hrest⟩ := bind_eq_ok h
    obtain ⟨hgains₁, hi⟩ := run_bindImport hfirst
    obtain ⟨hgains₂, his⟩ := ih hrest
    refine ⟨hgains₁.trans hgains₂, List.forall_mem_cons.mpr ⟨?_, his⟩⟩
    exact hi.imp hgains₂.stands fun hr => hr.mono hgains₂.report

/-- What is known of a function whose signature was entered, or else an error is reported. -/
def DeclaredAs (f : Parsed.Function) (p? : Option Pending) (s : State) : Prop :=
  (p? = none → Reported s f.span) ∧
    ∀ p, p? = some p → p.function = f ∧ p.params.length = f.params.length

theorem run_declareTyped {f : Parsed.Function} {types : List TypeId} {result : TypeId}
    {s s' : State} {p? : Option Pending} (hlength : types.length = f.params.length)
    (h : declareTyped f types result s = .ok (p?, s')) :
    GainsAmong [f.name] s s' ∧ Stands s' f.name ∧ DeclaredAs f p? s' := by
  obtain ⟨group?, s₁, hgroup, h⟩ := bind_eq_ok h
  obtain ⟨hgains, hstands, hreported⟩ := run_localGroup hgroup
  have hlater : ∀ {t}, Undisturbed s₁ t → GainsAmong [f.name] s t ∧ Stands t f.name :=
    fun ht => ⟨by simpa using hgains.trans (ht.gainsAmong []), ht.stands hstands⟩
  cases group? with
  | none =>
    cases h
    exact ⟨hgains, hstands, fun _ => hreported rfl, by simp⟩
  | some group =>
    obtain ⟨members, s₂, hmembers, h⟩ := bind_eq_ok h
    obtain ⟨hs₂, -⟩ := Preserves.ask _ s₁ _ s₂ (Undisturbed.refl s₁) hmembers
    obtain ⟨taken, s₃, htaken, h⟩ := bind_eq_ok h
    obtain ⟨hs₃, -⟩ := preserves_hasOverload _ _ s₂ _ s₃ hs₂ htaken
    split at h
    · obtain ⟨names, s₄, hnames, h⟩ := bind_eq_ok h
      obtain ⟨hs₄, -⟩ := Preserves.ask _ s₃ _ s₄ hs₃ hnames
      obtain ⟨hs', rfl, hreported⟩ := undisturbed_reject rfl hs₄ h
      exact ⟨(hlater hs').1, (hlater hs').2, fun _ => hreported, by simp⟩
    · obtain ⟨callable, s₄, hcallable, h⟩ := bind_eq_ok h
      obtain ⟨hs₄, -⟩ := preserves_register _ s₃ _ s₄ hs₃ hcallable
      cases h
      refine ⟨(hlater hs₄).1, (hlater hs₄).2, by simp, ?_⟩
      rintro _ ⟨⟩
      exact ⟨rfl, hlength⟩

theorem run_declareFunction {f : Parsed.Function} {s s' : State} {p? : Option Pending}
    (h : declareFunction f s = .ok (p?, s')) :
    GainsAmong [f.name] s s' ∧ Stands s' f.name ∧ DeclaredAs f p? s' := by
  obtain ⟨types, s₁, htypes, h⟩ := bind_eq_ok h
  obtain ⟨hs₁, hlength⟩ := preserves_mapM (I := Undisturbed s)
    (fun p : Parsed.Param => Preserves.valueType p.type) _ s _ s₁ (.refl s) htypes
  have hafter : ∀ {t result}, Undisturbed s t → declareTyped f types result t = .ok (p?, s') →
      GainsAmong [f.name] s s' ∧ Stands s' f.name ∧ DeclaredAs f p? s' := by
    intro t result ht hrun
    obtain ⟨hgains, hrest⟩ := run_declareTyped hlength hrun
    exact ⟨by simpa using (ht.gainsAmong []).trans hgains, hrest⟩
  cases hresult : f.result? with
  | none =>
    simp only [hresult] at h
    exact hafter hs₁ h
  | some t =>
    simp only [hresult] at h
    obtain ⟨result, s₂, htype, h⟩ := bind_eq_ok h
    exact hafter (Preserves.resolveType t s₁ _ s₂ hs₁ htype).1 h

theorem run_declareFunctions {fs : List Parsed.Function} {s s' : State} {pending : List Pending}
    (h : fs.filterMapM declareFunction s = .ok (pending, s')) :
    GainsAmong (fs.map Parsed.Function.name) s s' ∧ (∀ f ∈ fs, Stands s' f.name) ∧
      (pending.map Pending.function).Sublist fs ∧
      (∀ f ∈ fs, f ∈ pending.map Pending.function ∨ Reported s' f.span) ∧
      ∀ p ∈ pending, p.params.length = p.function.params.length := by
  induction fs generalizing s pending with
  | nil =>
    cases h
    exact ⟨(Undisturbed.refl _).gainsAmong _, by simp, by simp, by simp, by simp⟩
  | cons f rest ih =>
    rw [List.filterMapM_cons] at h
    obtain ⟨p?, s₁, hfirst, h⟩ := bind_eq_ok h
    obtain ⟨hgains₁, hf, hnone, hsome⟩ := run_declareFunction hfirst
    cases p? with
    | none =>
      obtain ⟨hgains₂, hfs, hsub, hall, hlength⟩ := ih h
      refine ⟨hgains₁.trans hgains₂, List.forall_mem_cons.mpr ⟨hgains₂.stands hf, hfs⟩, hsub.cons f,
        List.forall_mem_cons.mpr ⟨.inr ((hnone rfl).mono hgains₂.report), hall⟩, hlength⟩
    | some p =>
      obtain ⟨ps, s₂, hrest, hpure⟩ := bind_eq_ok h
      cases hpure
      obtain ⟨hfunction, hlength₁⟩ := hsome p rfl
      obtain ⟨hgains₂, hfs, hsub, hall, hlength₂⟩ := ih hrest
      subst hfunction
      refine ⟨hgains₁.trans hgains₂, List.forall_mem_cons.mpr ⟨hgains₂.stands hf, hfs⟩,
        hsub.cons_cons _, List.forall_mem_cons.mpr ⟨.inl (by simp), fun g hg => ?_⟩,
        List.forall_mem_cons.mpr ⟨hlength₁, hlength₂⟩⟩
      exact (hall g hg).imp_left fun hmem => List.mem_cons_of_mem _ hmem

/-- Global variables are bound by the rules, in a scope of their own without declarations. -/
theorem run_bindGlobals {ds : List Parsed.Declaration} {s s' : State}
    {r : List Symbol × List Stmt} (hin : s.scope.inner.map Frame.symbols = [[]])
    (h : bindGlobals ds s = .ok (r, s')) :
    Nesting.BindsGlobals s.scope.outermost.symbols ds r.1 r.2 s'.scope.outermost.symbols ∧
      Gains s s' r.1.reverse := by
  induction ds generalizing s r with
  | nil =>
    cases h
    exact ⟨.nil, (Undisturbed.refl _).gains⟩
  | cons d rest ih =>
    obtain ⟨⟨type, value?⟩, s₁, hd, h⟩ := bind_eq_ok h
    obtain ⟨hs₁, hvalue⟩ := binds_declaration d s _ s₁ (.refl s) hd
    have hnesting : s.scope.nesting = [[], s.scope.outermost.symbols] := by
      rw [Scope.nesting, hin]
      rfl
    rw [hnesting] at hvalue
    obtain ⟨sym, s₂, hsym, h⟩ := bind_eq_ok h
    obtain ⟨declared, s₃, hdeclare, h⟩ := bind_eq_ok h
    obtain ⟨hname, hkind, hcases⟩ := run_declareNew hsym hdeclare
    rw [hs₁.scope] at hcases
    have hsum : ∀ {xs}, Gains s₁ s₃ xs → Gains s s₃ xs := fun hg => by
      simpa using hs₁.gains.trans hg
    obtain ⟨rfl, hfree, hgains⟩ | ⟨rfl, htaken, hgains⟩ := hcases
    · replace hgains := hsum hgains
      obtain ⟨⟨syms, stmts⟩, s₄, hrest, h⟩ := bind_eq_ok h
      cases h
      obtain ⟨hbinds, hgains₂⟩ := ih (by rw [hgains.inner, hin]) hrest
      rw [hgains.symbols] at hbinds
      exact ⟨.declare hfree hname hkind hvalue hbinds, by simpa using hgains.trans hgains₂⟩
    · replace hgains := hsum hgains
      obtain ⟨_, s₄, hcomplain, h⟩ := bind_eq_ok h
      have hs₄ := (Preserves.complain _ _ s₃ _ s₄ (Undisturbed.refl s₃) hcomplain).1
      have hgains₄ : Gains s s₄ [] := hgains.trans hs₄.gains
      obtain ⟨hbinds, hgains₂⟩ := ih (by rw [hgains₄.inner, hin]) h
      rw [hgains₄.symbols] at hbinds
      exact ⟨.taken htaken hbinds, by simpa using hgains₄.trans hgains₂⟩

/-- A routine is bound in a scope of its own, of which nothing is left. -/
theorem run_routine {α : Type} {result : TypeId} {m : Binder α} {s s' : State} {a : α}
    (h : inRoutine result m s = .ok (a, s')) :
    ∃ t, m (within s result) = .ok (a, t) ∧ s'.scope = { t.scope with inner := s.scope.inner } ∧
      t.report.items.toList <+: s'.report.items.toList ∧
      ∀ syms, Proceeds (within s result) t syms → Proceeds s s' syms := by
  obtain ⟨s₁, s₂, hget, h⟩ := bind_eq_ok h
  cases hget
  obtain ⟨_, s₃, henter, h⟩ := bind_eq_ok h
  cases henter
  obtain ⟨a', s₄, hscope, h⟩ := bind_eq_ok h
  obtain ⟨t, hm, rfl⟩ := run_inScope hscope
  obtain ⟨_, s₅, hunused, h⟩ := bind_eq_ok h
  obtain ⟨_, s₆, hleave, h⟩ := bind_eq_ok h
  cases hleave
  cases h
  have hreport : Preserves (Undisturbed { t with scope := { t.scope with inner := s.scope.inner } })
      complainUnused fun _ => True := by
    unfold complainUnused
    refine Preserves.get_bind fun u _ => preserves_forM (fun p => ?_) _
    dsimp only
    split
    · exact Preserves.complain _ _
    · exact Preserves.pure trivial
  obtain ⟨hs₅, -⟩ := hreport _ _ _ (.refl _) hunused
  refine ⟨t, hm, hs₅.scope, hs₅.report, fun syms hproceeds =>
    ⟨?_, rfl, hproceeds.report.trans hs₅.report⟩⟩
  have hnumbers := hproceeds.numbers
  rw [show t.nextSymbol = s₅.nextSymbol from hs₅.next.symm] at hnumbers
  exact hnumbers

theorem nesting_foldl_withSymbol (syms : List Symbol) (scope : Scope) :
    (syms.foldl Scope.withSymbol scope).nesting =
      syms.foldl (fun Γ sym => Γ.declare sym) scope.nesting := by
  induction syms generalizing scope with
  | nil => rfl
  | cons sym rest ih => rw [List.foldl_cons, ih, Scope.nesting_withSymbol, List.foldl_cons]

theorem foldl_withSymbol_inside {scope : Scope} (h : scope.inner ≠ []) (syms : List Symbol) :
    (syms.foldl Scope.withSymbol scope).inner ≠ [] ∧
      (syms.foldl Scope.withSymbol scope).outermost = scope.outermost := by
  induction syms generalizing scope with
  | nil => exact ⟨h, rfl⟩
  | cons sym rest ih =>
    obtain ⟨hinner, houter⟩ := Scope.withSymbol_inside h sym
    exact ⟨(ih hinner).1, (ih hinner).2.trans houter⟩

/-- The parameters are declared in order. -/
theorem run_bindParams {index : Nat} {ps : List Parsed.Param} {ts : List TypeId}
    (hlength : ts.length = ps.length) {s s' : State} {syms : List Symbol}
    (h : bindParams index ps ts s = .ok (syms, s')) :
    syms.map Symbol.name = ps.map Parsed.Param.name ∧
      (∀ (i : Nat) (sym : Symbol), syms[i]? = some sym → sym.kind = .parameter (index + i)) ∧
      s'.scope = syms.foldl Scope.withSymbol s.scope ∧ Proceeds s s' syms := by
  induction ps generalizing index ts s syms with
  | nil =>
    obtain rfl := List.length_eq_zero_iff.mp hlength
    cases h
    exact ⟨rfl, by simp, rfl, (Undisturbed.refl _).proceeds⟩
  | cons p ps ih =>
    cases ts with
    | nil => cases hlength
    | cons t ts =>
      obtain ⟨sym, s₁, hsym, h⟩ := bind_eq_ok h
      cases hsym
      obtain ⟨declared, s₂, hdeclare, h⟩ := bind_eq_ok h
      rw [run_declare] at hdeclare
      have hstep : ∃ s₃ rest, bindParams (index + 1) ps ts s₃ = .ok (rest, s') ∧
          syms = ⟨.declared s.nextSymbol, p.name, .parameter index, t, true⟩ :: rest ∧
          s₃.scope = s.scope.withSymbol
            ⟨.declared s.nextSymbol, p.name, .parameter index, t, true⟩ ∧
          s₃.nextSymbol = s.nextSymbol + 1 ∧ s₃.context.loops = s.context.loops ∧
          s.report.items.toList <+: s₃.report.items.toList := by
        cases hscope : s.scope.declare?
            ⟨.declared s.nextSymbol, p.name, .parameter index, t, true⟩ with
        | none =>
          simp only [hscope, Option.elim] at hdeclare
          cases hdeclare
          obtain ⟨_, s₃, hcomplain, h⟩ := bind_eq_ok h
          cases hcomplain
          obtain ⟨rest, s₄, hrest, h⟩ := bind_eq_ok h
          cases h
          exact ⟨_, rest, hrest, rfl, by simp [Scope.withSymbol, hscope], rfl, rfl,
            by simp [Report.add]⟩
        | some scope =>
          simp only [hscope, Option.elim] at hdeclare
          cases hdeclare
          obtain ⟨rest, s₄, hrest, h⟩ := bind_eq_ok h
          cases h
          exact ⟨_, rest, hrest, rfl, by simp [Scope.withSymbol, hscope], rfl, rfl,
            List.prefix_refl _⟩
      obtain ⟨s₃, rest, hrest, rfl, hscope, hnext, hloops, hreport⟩ := hstep
      obtain ⟨hnames, hkinds, hscope', hproceeds⟩ := ih (by simpa using hlength) hrest
      have hfirst : Proceeds s s₃ [⟨.declared s.nextSymbol, p.name, .parameter index, t, true⟩] :=
        ⟨⟨by omega, by simp [hnext], by simp⟩, hloops, hreport⟩
      refine ⟨by simp [hnames], fun i sym hi => ?_, by rw [hscope', hscope]; rfl,
        hfirst.trans hproceeds⟩
      cases i with
      | zero =>
        cases hi
        rfl
      | succ i =>
        have hkind := hkinds i sym (by simpa using hi)
        rw [hkind, Nat.add_assoc, Nat.add_comm 1 i]

/-- A function that was bound. A value that is missing at its end was reported. -/
structure BoundFunction (p : Pending) (s : State) (b : Routine) (s' : State) : Prop where
  binds : s.scope.nesting.BindsFunction p.function b
  scope : s'.scope = s.scope
  proceeds : Proceeds s s' (b.params ++ declaredAll b.body)
  missing : b.result ≠ .builtin .void → b.result ≠ .error → allComplete b.body →
    (Complaint.missingReturn b.name).diagnostic b.span ∈ s'.report.items.toList

theorem undisturbed_complainUnreachable {s s' : State} {body : List Stmt}
    (h : complainUnreachable body s = .ok ((), s')) : Undisturbed s s' :=
  (preserves_forM (fun span => Preserves.complain span _) _ s _ s' (.refl s) h).1

/-- The end of a function: a value that is missing is reported. -/
theorem run_missing {span : Span} {c : Complaint} {missing : Bool} {α : Type} {a b : α}
    {s s' : State}
    (h : (if missing then complain span c >>= fun _ => pure a else pure a : Binder α) s =
      .ok (b, s')) :
    b = a ∧ Undisturbed s s' ∧ (missing → c.diagnostic span ∈ s'.report.items.toList) := by
  cases missing with
  | false =>
    cases h
    exact ⟨rfl, .refl s, by simp⟩
  | true =>
    obtain ⟨_, s₁, hcomplain, h⟩ := bind_eq_ok h
    have hs₁ := (Preserves.complain _ _ s _ s₁ (Undisturbed.refl s) hcomplain).1
    cases hcomplain
    cases h
    exact ⟨rfl, hs₁, by simp [Report.add]⟩

theorem bindFunction_bound {p : Pending} (hlength : p.params.length = p.function.params.length)
    {s s' : State} {b : Routine} (h : bindFunction p s = .ok (b, s')) : BoundFunction p s b s' := by
  obtain ⟨t, hrun, hscope, hreport, hproceeds⟩ := run_routine h
  dsimp only at hrun
  obtain ⟨params, s₁, hparams, hrun⟩ := bind_eq_ok hrun
  obtain ⟨hnames, hkinds, hscope₁, hproceeds₁⟩ := run_bindParams hlength hparams
  obtain ⟨body, s₂, hbody, hrun⟩ := bind_eq_ok hrun
  obtain ⟨hbinds, hscope₂, hproceeds₂⟩ := bindStmts_bound _ hbody
  obtain ⟨_, s₃, hunreachable, hrun⟩ := bind_eq_ok hrun
  have hs₃ := undisturbed_complainUnreachable hunreachable
  obtain ⟨rfl, ht, hmissing⟩ := run_missing hrun
  have hopen : (within s p.result).scope.inner ≠ [] := by simp [within, Scope.push]
  have hinside := foldl_withSymbol_inside hopen params
  rw [hscope₁] at hbinds hscope₂
  rw [nesting_foldl_withSymbol] at hbinds
  have houter : t.scope.outermost = s.scope.outermost := by
    rw [ht.scope, hs₃.scope, hscope₂, Scope.foldl_behind_inside hinside.1, hinside.2]
    rfl
  have hall := (hproceeds₁.trans hproceeds₂).trans (hs₃.proceeds.trans ht.proceeds)
  refine ⟨⟨rfl, hnames, by simpa using hkinds, hbinds⟩, ?_, hproceeds _ (by simpa using hall), ?_⟩
  · rw [hscope]
    simp only [houter]
  · intro hvoid herror hcomplete
    exact hreport.subset (hmissing (by simpa using ⟨⟨hvoid, herror⟩, hcomplete⟩))

def locals (fs : List Routine) : List Symbol := fs.flatMap fun f => f.params ++ declaredAll f.body

/-- Functions are bound one after the other, each in the same scope. -/
theorem bindFunctions_bound {ps : List Pending}
    (hlength : ∀ p ∈ ps, p.params.length = p.function.params.length) {s s' : State}
    {bs : List Routine} (h : ps.mapM bindFunction s = .ok (bs, s')) :
    List.Forall₂ s.scope.nesting.BindsFunction (ps.map Pending.function) bs ∧ s'.scope = s.scope ∧
      Proceeds s s' (locals bs) ∧
      ∀ b ∈ bs, b.result ≠ .builtin .void → b.result ≠ .error → allComplete b.body →
        (Complaint.missingReturn b.name).diagnostic b.span ∈ s'.report.items.toList := by
  induction ps generalizing s bs with
  | nil =>
    cases h
    exact ⟨.nil, rfl, (Undisturbed.refl _).proceeds, by simp⟩
  | cons p rest ih =>
    rw [List.mapM_cons] at h
    obtain ⟨b, s₁, hfirst, h⟩ := bind_eq_ok h
    obtain ⟨bs, s₂, hrest, h⟩ := bind_eq_ok h
    cases h
    obtain ⟨hlength₁, hlength₂⟩ := List.forall_mem_cons.mp hlength
    obtain ⟨hbinds, hscope, hproceeds, hmissing⟩ := bindFunction_bound hlength₁ hfirst
    obtain ⟨hbinds', hscope', hproceeds', hmissing'⟩ := ih hlength₂ hrest
    rw [hscope] at hbinds' hscope'
    refine ⟨.cons hbinds hbinds', hscope', hproceeds.trans hproceeds',
      List.forall_mem_cons.mpr ⟨fun hvoid herror hcomplete => ?_, hmissing'⟩⟩
    exact hproceeds'.report.subset (hmissing hvoid herror hcomplete)

theorem bindScript_bound {file : Parsed.File} {s s' : State} {b : Routine}
    (h : bindScript file s = .ok (b, s')) :
    Nesting.BindsStmts ([] :: s.scope.nesting) file.statements b.body ∧ s'.scope = s.scope ∧
      Proceeds s s' (locals [b]) := by
  obtain ⟨t, hrun, hscope, -, hproceeds⟩ := run_routine h
  obtain ⟨body, s₁, hbody, hrun⟩ := bind_eq_ok hrun
  obtain ⟨hbinds, hscope₁, hproceeds₁⟩ := bindStmts_bound _ hbody
  obtain ⟨_, s₂, hunreachable, hrun⟩ := bind_eq_ok hrun
  have hs₂ := undisturbed_complainUnreachable hunreachable
  cases hrun
  have houter : t.scope.outermost = s.scope.outermost := by
    rw [hs₂.scope, hscope₁, Scope.foldl_behind_inside (by simp [within, Scope.push])]
    rfl
  refine ⟨hbinds, ?_, hproceeds _ (by simpa [locals] using hproceeds₁.trans hs₂.proceeds)⟩
  rw [hscope]
  simp only [houter]

theorem bindInitializer_bound {file : Parsed.File} {s s' : State} {r : List Symbol × Routine}
    (htop : s.scope.inner = []) (h : bindInitializer file s = .ok (r, s')) :
    Nesting.BindsGlobals s.scope.outermost.symbols file.globals r.1 r.2.body
        s'.scope.outermost.symbols ∧
      Gains s s' r.1.reverse := by
  obtain ⟨t, hrun, hscope, -, hproceeds⟩ := run_routine h
  obtain ⟨⟨syms, stmts⟩, s₁, hglobals, hrun⟩ := bind_eq_ok hrun
  cases hrun
  obtain ⟨hbinds, hgains⟩ := run_bindGlobals (by simp [within, Scope.push, htop]) hglobals
  rw [hscope]
  refine ⟨hbinds, by rw [hscope], ?_, ?_, hproceeds _ hgains.proceeds⟩
  · rw [hscope]
    exact hgains.symbols
  · rw [hscope]
    exact hgains.distinct

theorem run_script {file : Parsed.File} {s s' : State} {script? : Option Routine}
    (h : (if file.statements.isEmpty then pure none else some <$> bindScript file : Binder _) s =
      .ok (script?, s')) :
    (∀ b, script? = some b →
        Nesting.BindsStmts ([] :: s.scope.nesting) file.statements b.body) ∧
      (script? = none ↔ file.statements = []) ∧ s'.scope = s.scope ∧
      Proceeds s s' (locals script?.toList) := by
  split at h
  · next hempty =>
    cases h
    exact ⟨by simp, by simpa using hempty, rfl, (Undisturbed.refl _).proceeds⟩
  · next hempty =>
    change (bindScript file >>= fun b => pure (some b)) s = _ at h
    obtain ⟨b, s₁, hscript, h⟩ := bind_eq_ok h
    cases h
    obtain ⟨hbinds, hscope, hproceeds⟩ := bindScript_bound hscript
    refine ⟨?_, by simpa using hempty, hscope, hproceeds⟩
    rintro _ ⟨⟩
    exact hbinds

/-- A program is bound by the rules of nested scopes. -/
theorem bindProgram_bound {file : Parsed.File} {p : Program} {s : State}
    (h : bindProgram file initial = .ok (p, s)) :
    (∃ shared, Nesting.BindsFile shared s.scope.outermost.symbols (Reported s) file p) ∧
      s.scope.inner = [] ∧
      Proceeds initial s (s.scope.outermost.symbols ++ locals (p.functions ++ p.script?.toList)) ∧
      ∀ b ∈ p.functions, b.result ≠ .builtin .void → b.result ≠ .error → allComplete b.body →
        (Complaint.missingReturn b.name).diagnostic b.span ∈ s.report.items.toList := by
  unfold bindProgram at h
  obtain ⟨_, s₁, himports, h⟩ := bind_eq_ok h
  obtain ⟨hgains₁, himports⟩ := run_bindImports himports
  obtain ⟨pending, s₂, hdeclare, h⟩ := bind_eq_ok h
  obtain ⟨hgains₂, hfunctions, hsub, hall, hlength⟩ := run_declareFunctions hdeclare
  obtain ⟨shared, hshared, hnames⟩ := hgains₁.trans hgains₂
  have htop₂ : s₂.scope.inner = [] := hshared.inner
  have hsymbols₂ : s₂.scope.outermost.symbols = shared := hshared.symbols.trans (List.append_nil _)
  obtain ⟨⟨globals, initializer⟩, s₃, hinit, h⟩ := bind_eq_ok h
  obtain ⟨hglobals, hgains₃⟩ := bindInitializer_bound htop₂ hinit
  have hG : Gains initial s₃ (globals.reverse ++ shared) := hshared.trans hgains₃
  have htop₃ : s₃.scope.inner = [] := hG.inner
  have hnesting : s₃.scope.nesting = [s₃.scope.outermost.symbols] := by
    rw [Scope.nesting, htop₃]
    rfl
  have hsymbols₃ : s₃.scope.outermost.symbols = globals.reverse ++ shared :=
    hG.symbols.trans (List.append_nil _)
  obtain ⟨bs, s₄, hbind, h⟩ := bind_eq_ok h
  obtain ⟨hbodies, hscope₄, hproceeds₄, hmissing⟩ := bindFunctions_bound hlength hbind
  obtain ⟨script?, s₅, hscript, h⟩ : ∃ script? s₅,
      (if file.statements.isEmpty then pure none else some <$> bindScript file : Binder _) s₄ =
        .ok (script?, s₅) ∧
      (pure ⟨globals, initializer, bs, script?⟩ : Binder Program) s₅ = .ok (p, s) := by
    apply bind_eq_ok
    dsimp only at h
    by_cases hempty : file.statements.isEmpty
    · simpa only [if_pos hempty] using h
    · simpa only [if_neg hempty] using h
  replace hscript := run_script hscript
  obtain ⟨hbinds, hnone, hscope₅, hproceeds₅⟩ := hscript
  cases h
  rw [hscope₄, hnesting] at hbinds
  rw [hnesting] at hbodies
  have hscope : s.scope = s₃.scope := hscope₅.trans hscope₄
  have hreport : s₂.report.items.toList <+: s.report.items.toList :=
    hgains₃.proceeds.report.trans (hproceeds₄.report.trans hproceeds₅.report)
  rw [hscope]
  refine ⟨⟨shared, hnames, fun i hi => ?_, fun f hf => ?_, by rw [← hsymbols₂]; exact hglobals,
    hG.distinct (by simp [initial, Scope.empty]), ⟨_, hsub, fun f hf => ?_, hbodies⟩, hbinds, hnone⟩,
    htop₃, ?_, fun b hb hvoid herror hcomplete => ?_⟩
  · rw [← hsymbols₂]
    exact (himports i hi).imp hgains₂.stands fun hr => hr.mono (hgains₂.report.trans hreport)
  · rw [← hsymbols₂]
    exact hfunctions f hf
  · exact (hall f hf).imp_right fun hr => hr.mono hreport
  · have hproceeds := hG.proceeds.trans (hproceeds₄.trans hproceeds₅)
    rw [← hsymbols₃] at hproceeds
    simpa [locals] using hproceeds
  · exact hproceeds₅.report.subset (hmissing b hb hvoid herror hcomplete)

/-- A name stands for what it means where it is written: for a symbol, or for all functions of the
group that the symbol was made for. -/
theorem bindName_of_meaning {span : Span} {name : String} {s : State} {sym : Symbol}
    (h : s.scope.nesting.meaning? name = some sym) (read : Bool) :
    ∃ s', bindName span name read s = .ok (if sym.kind = .overloads then
      .group span sym.name sym.type else .symbol span sym, s') := by
  rw [← Scope.lookup?_eq_meaning?] at h
  unfold bindName
  rw [run_bind (run_get s)]
  simp only [h]
  by_cases hkind : sym.kind = .overloads
  · rw [if_pos hkind, if_pos hkind]
    exact ⟨s, rfl⟩
  · rw [if_neg hkind, if_neg hkind]
    cases read with
    | false => exact ⟨s, rfl⟩
    | true => exact ⟨_, run_bind (run_modify _ s)⟩

/-- Names are bound lexically. Binding a source file that the reader has no complaint about gives a
program, mistakes of types and names or not, in which every reference is to what its name means by the
rules of nested scopes; each declaration has a symbol of its own, and each function a callable.
Binding any statement leaves open the scopes and the loops that were open before it. -/
theorem lexical_scoping {source : List Glyph} {file : Parsed.File}
    (hparse : Parsed.parse source = (file, #[])) :
    (∃ p s shared, bindProgram file initial = .ok (p, s) ∧ s.scope.inner = [] ∧
      Nesting.BindsFile shared s.scope.outermost.symbols (Reported s) file p ∧
      ((s.scope.outermost.symbols ++
        locals (p.functions ++ p.script?.toList)).map Symbol.id).Nodup ∧
      (p.functions.map Routine.callable).Nodup) ∧
    (∀ span name read t sym, t.scope.nesting.meaning? name = some sym →
      ∃ t', bindName span name read t = .ok (if sym.kind = .overloads then
        .group span sym.name sym.type else .symbol span sym, t')) ∧
    ∀ st t b t', bindStmt st t = .ok (b, t') →
      t'.scope = t.scope.behind b ∧ t'.context.loops = t.context.loops := by
  obtain ⟨p, s, hbind, -, -⟩ := bindProgram_typed (Parsed.proper_of_parse hparse)
  obtain ⟨⟨shared, hfile⟩, htop, hproceeds, -⟩ := bindProgram_bound hbind
  obtain ⟨made, hidentified⟩ := bindProgram_identified hbind
  refine ⟨⟨p, s, shared, hbind, htop, hfile, hproceeds.numbers.nodup, hidentified.nodup⟩,
    fun _ _ read _ _ hsym => bindName_of_meaning hsym read, ?_⟩
  intro st t b t' hst
  obtain ⟨-, hscope, hproceeds⟩ := bindStmt_bound st hst
  exact ⟨hscope, hproceeds.loops⟩

/-- A parameter, a loop variable and a global variable with one name, and a name that nobody declared. -/
def shadowing : List Glyph :=
  "var x = 1; func f(x: i32) { for (var x = x; x < 3; x += 1) { y = x; } } f(x);".toList.map
    Glyph.ofChar

theorem lexical_scoping_shadowing : ∃ file, Parsed.parse shadowing = (file, #[]) ∧
    ∃ p s shared, bindProgram file initial = .ok (p, s) ∧
      Nesting.BindsFile shared s.scope.outermost.symbols (Reported s) file p := by
  have hparse := Parsed.parse_of_isEmpty (show (Parsed.parse shadowing).2.isEmpty = true by decide +kernel)
  obtain ⟨⟨p, s, shared, hbind, -, hfile, -⟩, -⟩ := lexical_scoping hparse
  exact ⟨_, hparse, p, s, shared, hbind, hfile⟩

end Binder
end TypedScript
