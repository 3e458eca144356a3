import TypedScript.Proofs.Binding.Program

/-!
# Routines and whole programs

Each routine is bound in a scope and a context of its own. What is put back behind it leaves the
global scope, the registry and the report as the body made them.
-/

namespace TypedScript
namespace Binder

open TypedScript.Binding TypedScript.Bound

def Reports (m : Binder Unit) : Prop :=
  ∀ s, ∃ report, m s = .ok ((), { s with report }) ∧ (s.report.hasErrors → report.hasErrors)

theorem reports_complain (span : Span) (c : Complaint) : Reports (complain span c) := by
  intro s
  refine ⟨_, rfl, fun h => ?_⟩
  simp only [Report.hasErrors, Report.add, Array.any_push] at h ⊢
  simp [h]

theorem run_complain_if (b : Bool) (span : Span) (c : Complaint) (s : State) :
    ∃ report, (s.report.hasErrors → report.hasErrors) ∧ ∀ {α : Type} (rest : Binder α),
      (if b then do complain span c; rest else rest) s = rest { s with report } := by
  cases b with
  | false => exact ⟨s.report, id, fun _ => rfl⟩
  | true =>
    obtain ⟨report, hrun, herr⟩ := reports_complain span c s
    exact ⟨report, herr, fun _ => run_bind hrun⟩

theorem reports_pure : Reports (pure ()) := fun s => ⟨s.report, rfl, id⟩

theorem Reports.forM {α : Type} {f : α → Binder Unit} (hf : ∀ a, Reports (f a)) (l : List α) :
    Reports (l.forM f) := by
  intro s
  induction l generalizing s with
  | nil => exact reports_pure s
  | cons a l ih =>
    obtain ⟨r, hrun, herr⟩ := hf a s
    obtain ⟨r', hrun', herr'⟩ := ih { s with report := r }
    exact ⟨r', (run_bind hrun).trans hrun', herr' ∘ herr⟩

theorem reports_unused (s : State) :
    ∃ report, complainUnused s = .ok ((), { s with report }) ∧
      (s.report.hasErrors → report.hasErrors) := by
  unfold complainUnused
  rw [run_bind (run_get s)]
  refine Reports.forM (fun p => ?_) _ s
  dsimp only
  split
  · exact reports_complain _ _
  · exact reports_pure

theorem reports_unreachable (body : List Stmt) : Reports (complainUnreachable body) :=
  Reports.forM (fun _ => reports_complain _ _) _

/-- What is left of the state of a routine behind it. -/
def behind (s s2 : State) (report : Report) : State :=
  { s2 with scope := { s2.scope with inner := s.scope.inner }, report, context := s.context }

def within (s : State) (result : TypeId) : State :=
  { s with context := ⟨result, 0, #[], []⟩, scope := s.scope.push .function }

theorem run_inRoutine {α : Type} {result : TypeId} {body : Binder α} {s s2 : State} {a : α}
    (h : body (within s result) = .ok (a, s2)) :
    ∃ report, inRoutine result body s = .ok (a, behind s s2 report) ∧
      (s2.report.hasErrors → report.hasErrors) := by
  obtain ⟨report, hrun, herr⟩ :=
    reports_unused { s2 with scope := { s2.scope with inner := s.scope.inner } }
  refine ⟨report, ?_, herr⟩
  have hscope : inScope .function body { s with context := ⟨result, 0, #[], []⟩ } =
      .ok (a, { s2 with scope := { s2.scope with inner := s.scope.inner } }) := by
    rw [inScope, run_bind (run_get _), run_bind (run_modify _ _)]
    exact (run_bind h).trans (run_bind (run_modify _ _))
  rw [inRoutine, run_bind (run_get s), run_bind (run_modify _ s), run_bind hscope, run_bind hrun,
    run_bind (run_modify _ _)]
  rfl

section

variable {s : State}

/-- Without parameters nothing depends on which they are. -/
theorem Known.ofNone {params : List Symbol} {sym : Symbol} (h : Known [] s sym) :
    Known params s sym := by
  unfold Known at h ⊢
  split
  · next hk =>
    rwa [if_pos hk] at h
  · next hk =>
    rw [if_neg hk] at h
    refine ⟨⟨?_, h.1.isType, h.1.ne_void, h.1.error⟩, h.2⟩
    have hv := h.1.visible
    unfold Typing.Visible at hv ⊢
    split <;> simp_all [typing]

theorem Sound.ofNone {params : List Symbol} (h : Sound [] s) : Sound params s :=
  ⟨h.types, h.library, h.intrinsics, fun sym hs => (h.symbols sym hs).ofNone, h.result, h.resultError⟩

theorem Sound.within (hs : Sound [] s) {result : TypeId} (hr : s.registry.IsType result)
    (he : result = .error → s.report.hasErrors) : Sound [] (within s result) := by
  refine ⟨hs.types, hs.library, hs.intrinsics, fun x hx => ?_, hr, he⟩
  obtain ho | ⟨f, hf, hx⟩ := hx
  · exact hs.symbols x (.inl ho)
  · obtain rfl | hf := List.mem_cons.1 hf
    · simp at hx
    · exact hs.symbols x (.inr ⟨f, hf, hx⟩)

/-- Behind a routine the state is sound if it was so before, and in the routine at its end. -/
theorem Sound.behind (hs : Sound [] s) {params : List Symbol} {s2 : State} (h2 : Sound params s2)
    (hg : Grows s s2) (ho : ∀ x ∈ s2.scope.outermost.symbols, Known [] s2 x) {report : Report}
    (herr : s2.report.hasErrors → report.hasErrors) :
    Sound [] (behind s s2 report) ∧ Grows s2 (Binder.behind s s2 report) := by
  have hg2 : Grows s2 (Binder.behind s s2 report) := ⟨le_refl s2.registry, herr, fun _ h => h⟩
  have hg' := hg.trans hg2
  refine ⟨⟨h2.types.imp herr, h2.library, h2.intrinsics, fun x hx => ?_, hs.result.mono hg.registry,
    fun he => hg'.errors (hs.resultError he)⟩, hg2⟩
  obtain hx | hx := hx
  · exact (ho x hx).mono hg2
  · exact (hs.symbols x (.inr hx)).mono hg'

end

/-- The parameters of a function are declared one after the other. -/
theorem bindParams_spec (index : Nat) (ps : List Parsed.Param) (ts : List TypeId)
    (hlen : ts.length = ps.length) (s : State) (hin : s.scope.inner ≠ []) :
    ∃ syms scope report n, bindParams index ps ts s =
        .ok (syms, { s with scope, report, nextSymbol := n }) ∧
      syms.map Symbol.type = ts ∧
      (∀ (k : Nat) (sym : Symbol), syms[k]? = some sym →
        sym.kind = .parameter (index + k) ∧ sym.IsDeclared) ∧
      (s.report.hasErrors → report.hasErrors) ∧ Nests s.scope scope ∧
      ∀ x, InScope scope x → InScope s.scope x ∨ x ∈ syms := by
  induction ps generalizing index ts s with
  | nil =>
    obtain rfl := List.length_eq_zero_iff.1 hlen
    exact ⟨[], s.scope, s.report, s.nextSymbol, rfl, rfl, by simp, id, Nests.refl _,
      fun _ h => .inl h⟩
  | cons p ps ih =>
    match ts, hlen with
    | t :: ts, hlen =>
      let sym : Symbol := ⟨.declared s.nextSymbol, p.name, .parameter index, t, true⟩
      let s1 : State := { s with nextSymbol := s.nextSymbol + 1 }
      obtain ⟨declared, scope1, hrun1, hnests1, -, hnew1⟩ :=
        declare_spec s1 sym (by simp [sym])
      obtain ⟨report1, herr1, hrun2⟩ := run_complain_if (!declared) p.span (.alreadyDeclared p.name)
        { s1 with scope := scope1 }
      obtain ⟨syms, scope, report, n, hrun3, htypes, hkinds, herr, hnests, hnew⟩ :=
        ih (index + 1) ts (by simpa using hlen) { s1 with scope := scope1, report := report1 }
          (hnests1.inside hin).1
      refine ⟨sym :: syms, scope, report, n, ?_, by simp [htypes, sym], ?_, fun h => herr (herr1 h),
        hnests1.trans hnests, ?_⟩
      · have hsym : newSymbol p.name (.parameter index) t true s = .ok (sym, s1) := rfl
        rw [bindParams, run_bind hsym, run_bind hrun1]
        exact (hrun2 _).trans (run_bind hrun3)
      · intro k x hx
        cases k with
        | zero =>
          cases hx
          exact ⟨rfl, _, rfl⟩
        | succ k =>
          obtain ⟨hk, hd⟩ := hkinds k x hx
          exact ⟨by rw [hk]; congr 1; omega, hd⟩
      · intro x hx
        obtain hx | hx := hnew x hx
        · obtain hx | rfl := hnew1 x hx
          · exact .inl hx
          · exact .inr (by simp)
        · exact .inr (by simp [hx])

structure BoundRoutine (s s' : State) (f : Routine) : Prop where
  sound : Sound [] s'
  grows : Grows s s'
  scope : s'.scope = s.scope
  typed : f.Typed s'.registry s'.scope.outermost.symbols s'.report.hasErrors

/-- Putting the state back behind a body that was bound with Follows. -/
theorem boundRoutine {s : State} (hs : Sound [] s) {result : TypeId} (hr : s.registry.IsType result)
    (he : result = .error → s.report.hasErrors) {f : Routine} (hres : f.result = result)
    {body : Binder Routine} {s1 s2 : State} (hrun : body (within s result) = .ok (f, s2))
    (hparams : ∀ p ∈ f.params, (typing f.params s1).Declares p)
    (h01 : Grows s s1) (hout : s1.scope.outermost = s.scope.outermost) (h12 : Follows s1 s2)
    (hin : s1.scope.inner ≠ []) (hs2 : Sound f.params s2)
    (hbody : typedStmts (typing f.params s2) result false f.body) :
    ∃ s', inRoutine result body s = .ok (f, s') ∧ BoundRoutine s s' f := by
  obtain ⟨report, hrun', herr⟩ := run_inRoutine hrun
  have h02 := h01.trans h12.toGrows
  have hscope : s2.scope.outermost = s.scope.outermost := (h12.nests.inside hin).2.trans hout
  have hknown : ∀ x ∈ s2.scope.outermost.symbols, Known [] s2 x := by
    intro x hx
    rw [hscope] at hx
    exact (hs.symbols x (.inl hx)).mono h02
  obtain ⟨hsound, h2b⟩ := hs.behind hs2 h02 hknown herr
  have hext : (typing f.params s2).Extends (typing f.params (behind s s2 report)) := h2b.extends _
  refine ⟨_, hrun', hsound, h02.trans h2b, ?_, ?_, ⟨?_, ?_⟩, ?_⟩
  · simp [behind, hscope]
  · exact fun p hp => (hparams p hp).mono ((h12.toGrows.trans h2b).extends _)
  · rw [hres]
    exact hr.mono (h02.trans h2b).registry
  · rw [hres]
    exact fun h => (h02.trans h2b).errors (he h)
  · rw [hres]
    exact typedStmts_mono hs2.types.wellFormed hext f.body hbody

theorem bindFunction_spec {s : State} (hs : Sound [] s) {p : Pending}
    (hp : Entered (typing [] s) p) (hb : Parsed.properStmts p.function.body) :
    ∃ f s', bindFunction p s = .ok (f, s') ∧ BoundRoutine s s' f ∧
      f.callable = p.callable ∧ f.result = p.result ∧ f.params.map Symbol.type = p.params := by
  have hw := hs.within hp.result.1 hp.result.2
  obtain ⟨syms, scope, report, n, hrun1, htypes, hkinds, herr, hnests, hnew⟩ :=
    bindParams_spec 0 p.function.params p.params hp.length (within s p.result)
      (by simp [within, Scope.push])
  let s1 : State := { within s p.result with scope, report, nextSymbol := n }
  have hinside := hnests.inside (by simp [within, Scope.push])
  have hout : s1.scope.outermost = s.scope.outermost := hinside.2
  have h01 : Grows s s1 := ⟨le_refl s.registry, herr, by rw [hout]; exact fun _ h => h⟩
  have hcont : Continues (within s p.result) s1 :=
    ⟨⟨le_refl s.registry, herr, by rw [hout]; exact fun _ h => h⟩, rfl, rfl⟩
  have hdeclares : ∀ sym ∈ syms, (typing syms s1).Declares sym := by
    intro sym hsym
    obtain ⟨k, hk⟩ := List.mem_iff_getElem?.1 hsym
    have ht := (hp.params sym.type (htypes ▸ List.mem_map_of_mem hsym)).mono h01
    refine ⟨?_, ht.1, ht.2.1, ht.2.2⟩
    have hkind := (hkinds k sym hk).1
    rw [Nat.zero_add] at hkind
    simp only [Typing.Visible, hkind]
    exact hk
  have hs1 : Sound syms s1 := by
    refine Sound.follow hw.ofNone hcont (hs.types.imp herr) rfl rfl fun x hx => ?_
    obtain hx | hx := hnew x hx
    · exact .inl hx
    · obtain ⟨k, hk⟩ := List.mem_iff_getElem?.1 hx
      refine .inr ?_
      unfold Known
      rw [if_neg (by simp [(hkinds k x hk).1])]
      exact ⟨hdeclares x hx, (hkinds k x hk).2⟩
  obtain ⟨body, s2, hrun2, hs2, hf2, hbody⟩ :=
    @Binds.bindStmts _ p.result p.function.body hb _ false hs1 rfl (fun h => absurd rfl h)
  obtain ⟨report3, hrun3, herr3⟩ := reports_unreachable body s2
  obtain ⟨report4, herr4, hrun4⟩ := run_complain_if
    (p.result ≠ TypeId.builtin .void && p.result ≠ TypeId.error && allComplete body)
    p.function.span (.missingReturn p.function.name) { s2 with report := report3 }
  let f : Routine := ⟨p.function.span, p.function.name, p.callable, syms, p.result,
    p.function.bodySpan, body⟩
  have h24 : Grows s2 { s2 with report := report4 } :=
    ⟨le_refl s2.registry, fun h => herr4 (herr3 h), fun _ h => h⟩
  have hf14 : Follows s1 { s2 with report := report4 } :=
    ⟨⟨hf2.toGrows.trans h24, hf2.result, hf2.loops⟩, hf2.nests⟩
  have hs4 : Sound syms { s2 with report := report4 } :=
    Sound.follow hs2 ⟨h24, rfl, rfl⟩ (hs2.types.imp h24.errors) rfl rfl fun x hx => .inl hx
  have hrun : (do
      let params ← bindParams 0 p.function.params p.params
      let body ← bindStmts p.function.body
      complainUnreachable body
      if p.result ≠ TypeId.builtin .void && p.result ≠ TypeId.error && allComplete body then
        complain p.function.span (.missingReturn p.function.name)
      return (⟨p.function.span, p.function.name, p.callable, params, p.result, p.function.bodySpan,
        body⟩ : Routine)) (within s p.result) = .ok (f, { s2 with report := report4 }) := by
    rw [run_bind hrun1, run_bind hrun2, run_bind hrun3]
    exact hrun4 _
  obtain ⟨s', hrun', hbound⟩ := boundRoutine hs hp.result.1 hp.result.2 (f := f) rfl hrun
    hdeclares h01 hout hf14 hinside.1 hs4
    (typedStmts_mono hs2.types.wellFormed (h24.extends syms) body hbody)
  exact ⟨f, s', hrun', hbound, rfl, rfl, htypes⟩

theorem bindScript_spec {s : State} (hs : Sound [] s) {file : Parsed.File}
    (hb : Parsed.properStmts file.statements) :
    ∃ f s', bindScript file s = .ok (f, s') ∧ BoundRoutine s s' f := by
  have hw : Sound [] (within s (.builtin .void)) := hs.within trivial (by simp)
  obtain ⟨body, s2, hrun2, hs2, hf2, hbody⟩ :=
    @Binds.bindStmts _ (.builtin .void) file.statements hb _ false hw rfl (fun h => absurd rfl h)
  obtain ⟨report3, hrun3, herr3⟩ := reports_unreachable body s2
  let f : Routine := ⟨file.span, scriptName, .absent, [], .builtin .void, file.span, body⟩
  have h23 : Grows s2 { s2 with report := report3 } := ⟨le_refl s2.registry, herr3, fun _ h => h⟩
  have hf13 : Follows (within s (.builtin .void)) { s2 with report := report3 } :=
    ⟨⟨hf2.toGrows.trans h23, hf2.result, hf2.loops⟩, hf2.nests⟩
  have hs3 : Sound [] { s2 with report := report3 } :=
    Sound.follow hs2 ⟨h23, rfl, rfl⟩ (hs2.types.imp herr3) rfl rfl fun x hx => .inl hx
  have hrun : (do
      let body ← bindStmts file.statements
      complainUnreachable body
      return (⟨file.span, scriptName, .absent, [], .builtin .void, file.span, body⟩ : Routine))
      (within s (.builtin .void)) = .ok (f, { s2 with report := report3 }) := by
    rw [run_bind hrun2, run_bind hrun3]
    rfl
  have hvoid : s.registry.IsType (.builtin .void) := trivial
  have hgrow : Grows s (within s (.builtin .void)) := ⟨le_refl s.registry, id, fun _ h => h⟩
  obtain ⟨s', hrun', hbound⟩ := boundRoutine hs hvoid (by simp) (f := f) rfl hrun (by simp [f])
    hgrow rfl hf13 (by simp [within, Scope.push]) hs3
    (typedStmts_mono hs2.types.wellFormed (h23.extends []) body hbody)
  exact ⟨f, s', hrun', hbound⟩

/-- What binding the global variables gives: their symbols are those that are new in the global scope,
and the statements that set them make sense. -/
theorem bindGlobals_spec {ds : List Parsed.Declaration} (hds : ∀ d ∈ ds, d.Proper) {s : State}
    (hs : Sound [] s) (hin : s.scope.inner ≠ []) :
    ∃ syms stmts s', bindGlobals ds s = .ok ((syms, stmts), s') ∧ Sound [] s' ∧ Continues s s' ∧
      (∀ x ∈ s'.scope.outermost.symbols, x ∈ s.scope.outermost.symbols ∨ x ∈ syms) ∧
      (∀ x ∈ syms, x.kind = .globalVariable ∧ x ∈ s'.scope.outermost.symbols) ∧
      typedStmts (typing [] s') (.builtin .void) false stmts := by
  induction ds generalizing s with
  | nil =>
    exact ⟨[], [], s, rfl, hs, (Follows.refl s).toContinues, fun _ h => .inl h, by simp,
      by simp only [typedStmts]⟩
  | cons d ds ih =>
    obtain ⟨⟨type, value?⟩, s1, hrun1, hs1, hf1, htype, hvalue⟩ :=
      Binds.bindDeclaration hs (hds d (by simp))
    obtain ⟨sym, s2, hrun2, hs2, hf2, n, hsym⟩ :=
      Binds.newSymbol hs1 d.name .globalVariable type d.isConst
    have htype2 := htype.mono hf2.toGrows
    obtain ⟨declared, s3, hrun3, hs3, hc3, hin3, hout3⟩ := declareGlobal_spec hs2 sym (by
      intro s' hg hmem
      have ht := htype2.mono hg
      unfold Known
      rw [if_neg (by simp [hsym]), hsym]
      exact ⟨⟨by rw [hsym] at hmem; exact hmem, ht.1, ht.2.1, ht.2.2⟩, n, rfl⟩)
    have hf02 := hf1.trans hf2
    have hin2 := hf02.nests.inside hin
    have h03 : Continues s s3 := ⟨hf02.toGrows.trans hc3.toGrows, hc3.result.trans hf02.result,
      hc3.loops.trans hf02.loops⟩
    have hout : s2.scope.outermost.symbols = s.scope.outermost.symbols := by rw [hin2.2]
    cases declared with
    | true =>
      obtain ⟨syms, stmts, s4, hrun4, hs4, hc4, hnew, hsyms, hstmts⟩ :=
        ih (fun x hx => hds x (by simp [hx])) hs3 (by rw [hin3]; exact hin2.1)
      have hmem3 : sym ∈ s3.scope.outermost.symbols := by simp [hout3]
      let set := value?.map fun v => Stmt.eval ⟨d.span, .assign d.span (.symbol d.span sym) v⟩
      refine ⟨sym :: syms, set.toList ++ stmts, s4, ?_, hs4,
        ⟨h03.toGrows.trans hc4.toGrows, hc4.result.trans h03.result, hc4.loops.trans h03.loops⟩,
        ?_, ?_, ?_⟩
      · rw [bindGlobals, run_bind hrun1]
        refine (run_bind hrun2).trans ((run_bind hrun3).trans ?_)
        exact run_bind hrun4
      · intro x hx
        obtain hx | hx := hnew x hx
        · rw [hout3, if_pos rfl, hout, List.mem_cons] at hx
          exact hx.symm.imp_right fun h => by simp [h]
        · exact .inr (by simp [hx])
      · intro x hx
        obtain rfl | hx := List.mem_cons.1 hx
        · exact ⟨by rw [hsym], hc4.outermost hmem3⟩
        · exact hsyms x hx
      · rw [typedStmts_iff] at hstmts ⊢
        intro st hst
        obtain hst | hst := List.mem_append.1 hst
        · obtain ⟨v, hv, rfl⟩ := Option.map_eq_some_iff.1 (Option.mem_toList.1 hst)
          have h14 : Grows s1 s4 := (hf2.toGrows.trans hc3.toGrows).trans hc4.toGrows
          obtain ⟨htyped, heq⟩ := hvalue v hv
          have hk := hs4.symbols sym (.inl (hc4.outermost hmem3))
          unfold Known at hk
          rw [if_neg (by simp [hsym])] at hk
          simp only [Stmt.Typed, Expr.Typed, Expr.IsPlace]
          refine ⟨.inr (by rw [hsym]), hk,
            Expr.Typed.mono hs1.types.wellFormed (h14.extends []) v htyped, ?_⟩
          simp only [Expr.type, hsym]
          exact heq.imp_right h14.errors
        · exact hstmts st hst
    | false =>
      obtain ⟨report, hrun4, herr⟩ := reports_complain d.span (.alreadyDeclared d.name) s3
      have h34 : Continues s3 { s3 with report } :=
        ⟨⟨le_refl s3.registry, herr, fun _ h => h⟩, rfl, rfl⟩
      have hs4 := hs3.follow h34 (hs3.types.imp herr) rfl rfl fun x hx => .inl hx
      obtain ⟨syms, stmts, s5, hrun5, hs5, hc5, hnew, hsyms, hstmts⟩ :=
        ih (fun x hx => hds x (by simp [hx])) hs4 (by simpa [hin3] using hin2.1)
      refine ⟨syms, stmts, s5, ?_, hs5, ⟨(h03.toGrows.trans h34.toGrows).trans hc5.toGrows,
        hc5.result.trans h03.result, hc5.loops.trans h03.loops⟩, ?_, hsyms, hstmts⟩
      · rw [bindGlobals, run_bind hrun1]
        refine (run_bind hrun2).trans ((run_bind hrun3).trans ?_)
        exact (run_bind hrun4).trans hrun5
      · intro x hx
        refine (hnew x hx).imp_left fun h => ?_
        rwa [hout3, if_neg (by simp), hout] at h

theorem bindInitializer_spec {s : State} (hs : Sound [] s) {file : Parsed.File}
    (hd : ∀ d ∈ file.globals, d.Proper) :
    ∃ syms f s', bindInitializer file s = .ok ((syms, f), s') ∧ Sound [] s' ∧ Grows s s' ∧
      s'.scope.inner = s.scope.inner ∧
      (∀ x ∈ s'.scope.outermost.symbols, x ∈ s.scope.outermost.symbols ∨ x ∈ syms) ∧
      (∀ x ∈ syms, x.kind = .globalVariable ∧ x ∈ s'.scope.outermost.symbols) ∧
      f.Typed s'.registry s'.scope.outermost.symbols s'.report.hasErrors := by
  have hw : Sound [] (within s (.builtin .void)) := hs.within trivial (by simp)
  obtain ⟨syms, stmts, s2, hrun, hs2, hc2, hnew, hsyms, hstmts⟩ :=
    bindGlobals_spec hd hw (by simp [within, Scope.push])
  let f : Routine := ⟨file.span, initializerName, .absent, [], .builtin .void, file.span, stmts⟩
  have hbody : (do
      let found ← bindGlobals file.globals
      return (found.1, (⟨file.span, initializerName, .absent, [], .builtin .void, file.span,
        found.2⟩ : Routine))) (within s (.builtin .void)) = .ok ((syms, f), s2) := run_bind hrun
  obtain ⟨report, hrun', herr⟩ := run_inRoutine hbody
  have h02 : Grows s s2 := ⟨hc2.registry, hc2.errors, hc2.outermost⟩
  obtain ⟨hsound, h2b⟩ := hs.behind hs2 h02 (fun x hx => hs2.symbols x (.inl hx)) herr
  refine ⟨syms, f, _, hrun', hsound, h02.trans h2b, rfl, hnew, hsyms, by simp [f],
    ⟨trivial, by simp [f]⟩, ?_⟩
  exact typedStmts_mono hs2.types.wellFormed (h2b.extends []) stmts hstmts

theorem sound_initial : Sound [] initial := by
  obtain ⟨hclean, -, -⟩ := initial_spec
  refine ⟨⟨hclean.wellFormed, fun _ _ => rfl, ?_, ?_⟩, rfl, rfl, ?_, trivial, by simp [initial]⟩
  · rintro t g ⟨i, rfl, hi, k, hk⟩ - m - c -
    rw [Array.getElem?_eq_none hi] at hk
    cases hk
  · rintro t c hc (he | he)
    · exact absurd he (hclean.result hc)
    · exact absurd he (hclean.params hc)
  · rintro sym (h | ⟨f, h, -⟩)
    · simp [initial, Scope.empty] at h
    · simp [initial, Scope.empty] at h

theorem Binds.filterMapM {α β : Type} {params : List Symbol} {f : α → Binder (Option β)}
    {Q : β → Typing → Prop} {l : List α} {s : State} (hs : Sound params s)
    (hQ : ∀ b (s1 s2 : State), Grows s1 s2 → Q b (typing params s1) → Q b (typing params s2))
    (hf : ∀ a ∈ l, ∀ s', Sound params s' → Follows s s' →
      Binds params s' (f a) fun o c => ∀ b, o = some b → Q b c) :
    Binds params s (l.filterMapM f) fun bs c => ∀ b ∈ bs, Q b c := by
  induction l generalizing s with
  | nil => exact Binds.pure hs (by simp)
  | cons a l ih =>
    rw [List.filterMapM_cons]
    refine Binds.bind (hf a (by simp) s hs (Follows.refl s)) ?_
    intro o s1 hs1 hf1 ho
    have hrest := ih hs1 fun x hx s2 hs2 hf2 => hf x (by simp [hx]) s2 hs2 (hf1.trans hf2)
    cases o with
    | none => exact hrest
    | some b =>
      refine Binds.bind hrest ?_
      intro bs s2 hs2 hf2 hbs
      refine Binds.pure hs2 fun x hx => ?_
      obtain rfl | hx := List.mem_cons.1 hx
      · exact hQ _ s1 s2 hf2.toGrows (ho _ rfl)
      · exact hbs x hx

/-- The functions of a program are bound one after the other. -/
theorem bindFunctions_spec {ps : List Pending} {s : State} (hs : Sound [] s)
    (hps : ∀ p ∈ ps, Entered (typing [] s) p ∧ Parsed.properStmts p.function.body) :
    ∃ fs s', ps.mapM bindFunction s = .ok (fs, s') ∧ Sound [] s' ∧ Grows s s' ∧
      s'.scope = s.scope ∧ ∀ f ∈ fs,
        f.Typed s'.registry s'.scope.outermost.symbols s'.report.hasErrors ∧
          s'.registry.Invokes f.callable ⟨f.result, f.params.map Symbol.type⟩ := by
  induction ps generalizing s with
  | nil => exact ⟨[], s, rfl, hs, (Follows.refl s).toGrows, rfl, by simp⟩
  | cons p ps ih =>
    obtain ⟨hp, hb⟩ := hps p (by simp)
    obtain ⟨f, s1, hrun1, hbound, hc, hr, ht⟩ := bindFunction_spec hs hp hb
    obtain ⟨fs, s2, hrun2, hs2, hg2, hscope2, hfs⟩ := ih hbound.sound fun q hq => by
      obtain ⟨hq, hb⟩ := hps q (by simp [hq])
      exact ⟨hq.mono hbound.grows, hb⟩
    refine ⟨f :: fs, s2, ?_, hs2, hbound.grows.trans hg2, hscope2.trans hbound.scope, ?_⟩
    · rw [List.mapM_cons, run_bind hrun1, run_bind hrun2]
      rfl
    · intro g hg
      obtain rfl | hg := List.mem_cons.1 hg
      · refine ⟨hbound.typed.mono hbound.sound.types.wellFormed hg2.registry ?_ hg2.errors, ?_⟩
        · rw [hscope2]
          exact fun _ h _ => h
        · rw [hc, hr, ht]
          exact hp.callable.mono (hbound.grows.trans hg2).registry
      · exact hfs g hg

/-- Binding a proper source file never fails, and the program makes sense; what could not be
understood was reported. -/
theorem bindProgram_typed {file : Parsed.File} (hf : file.Proper) :
    ∃ p s, bindProgram file initial = .ok (p, s) ∧ s.registry.WellFormed ∧
      p.Typed s.registry s.report.hasErrors := by
  obtain ⟨_, s1, hrun1, hs1, hf1, -⟩ := Binds.forM sound_initial (f := bindImport)
    (l := file.imports) fun i _ s hs hf => Binds.bindImport hs (hf.nests.top rfl).1 i
  obtain ⟨htop1, hglobals1⟩ := hf1.nests.top rfl
  obtain ⟨pending, s2, hrun2, hs2, hf2, hpending⟩ := Binds.filterMapM hs1 (f := declareFunction)
    (l := file.functions) (Q := fun p c => p.function ∈ file.functions ∧ Entered c p)
    (fun p _ _ hg hp => ⟨hp.1, hp.2.mono hg⟩) fun f hmem s hs hf =>
      (Binds.declareFunction hs (hf.nests.top htop1).1 f).imp fun o _ _ _ ho p hp => by
        obtain ⟨rfl, he⟩ := ho p hp
        exact ⟨hmem, he⟩
  obtain ⟨htop2, hglobals2⟩ := hf2.nests.top htop1
  obtain ⟨syms, init, s3, hrun3, hs3, hg3, hinner3, hnew, hsyms, hinit⟩ :=
    bindInitializer_spec hs2 hf.globals
  have hentered : ∀ p ∈ pending, Entered (typing [] s3) p ∧ Parsed.properStmts p.function.body :=
    fun p hp => ⟨(hpending p hp).2.mono hg3, hf.functions _ (hpending p hp).1⟩
  obtain ⟨fs, s4, hrun4, hs4, hg4, hscope4, hfs⟩ := bindFunctions_spec hs3 hentered
  have hkinds : ∀ x ∈ s3.scope.outermost.symbols, x.kind = .globalVariable → x ∈ syms := by
    intro x hx hk
    obtain hx | hx := hnew x hx
    · have hempty := hglobals1 x (hglobals2 x hx hk) hk
      simp [initial, Scope.empty] at hempty
    · exact hx
  have hfinish : ∀ script? s5, Sound [] s5 → Grows s4 s5 → s5.scope = s4.scope →
      (∀ f, script? = some f → f.Typed s5.registry s5.scope.outermost.symbols s5.report.hasErrors) →
      (⟨syms, init, fs, script?⟩ : Program).Typed s5.registry s5.report.hasErrors := by
    intro script? s5 hs5 hg5 hscope5 hscript
    have hscope35 : s5.scope.outermost.symbols = s3.scope.outermost.symbols := by
      rw [hscope5, hscope4]
    have hwiden : ∀ {r : Registry} (_ : r.WellFormed) (_ : r ≤ s5.registry) {g : List Symbol}
        (_ : g = s3.scope.outermost.symbols) {l : Prop} (_ : l → s5.report.hasErrors) {f : Routine},
        f.Typed r g l → f.Typed s5.registry syms s5.report.hasErrors := by
      rintro r hr hle g rfl l hl f h
      exact h.mono hr hle hkinds hl
    refine ⟨fun x hx => ?_, fun f hmem => ?_, fun f hmem => ?_⟩
    · obtain ⟨hk, hmem⟩ := hsyms x hx
      have hknown := hs5.symbols x (.inl (hscope35 ▸ hmem))
      unfold Known at hknown
      rw [if_neg (by simp [hk])] at hknown
      refine ⟨hk, hknown.2, ?_, hknown.1.isType, hknown.1.ne_void, hknown.1.error⟩
      simp only [Typing.Visible, hk]
      exact hx
    · simp only [Program.routines, List.cons_append, List.mem_cons, List.mem_append,
        Option.mem_toList] at hmem
      obtain rfl | hmem | hmem := hmem
      · exact hwiden hs3.types.wellFormed (hg4.trans hg5).registry rfl (hg4.trans hg5).errors hinit
      · exact hwiden hs4.types.wellFormed hg5.registry (by rw [hscope4]) hg5.errors (hfs f hmem).1
      · exact hwiden hs5.types.wellFormed (le_refl _) hscope35 id (hscript f hmem)
    · exact (hfs f hmem).2.mono hg5.registry
  have hrun : ∀ {script? s5}, (if file.statements.isEmpty then pure none
      else some <$> bindScript file : Binder (Option Routine)) s4 = .ok (script?, s5) →
      bindProgram file initial = .ok (⟨syms, init, fs, script?⟩, s5) := by
    intro script? s5 h5
    rw [bindProgram]
    refine (run_bind hrun1).trans ((run_bind hrun2).trans ((run_bind hrun3).trans
      ((run_bind hrun4).trans ?_)))
    split at h5
    · next he =>
      rw [if_pos he]
      exact run_bind h5
    · next he =>
      rw [if_neg he]
      exact run_bind h5
  by_cases he : file.statements.isEmpty
  · exact ⟨_, s4, hrun (by rw [if_pos he]; rfl), hs4.types.wellFormed,
      hfinish none s4 hs4 (Follows.refl s4).toGrows rfl (by simp)⟩
  · obtain ⟨f, s5, hrun5, hbound⟩ := bindScript_spec hs4 hf.statements
    refine ⟨⟨syms, init, fs, some f⟩, s5, hrun ?_, hbound.sound.types.wellFormed,
      hfinish (some f) s5 hbound.sound hbound.grows hbound.scope ?_⟩
    · rw [if_neg he]
      simp only [Functor.map, StateT.map, hrun5, Bind.bind, Except.bind]
      rfl
    · rintro _ ⟨⟩
      exact hbound.typed

end Binder
end TypedScript
