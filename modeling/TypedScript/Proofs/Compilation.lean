import TypedScript.Compile
import TypedScript.Proofs.Binding.Routine
import TypedScript.Proofs.Bytecode.Assembly
import TypedScript.Proofs.Parsed.Reading

/-!
# What compilation returns

Every source text has an outcome, with a module exactly if nothing is wrong with the text. There is
one gap: what a counted loop evaluates after each turn may be the bare name of a type or of functions,
which nobody complains about and which code cannot be made for.
-/

namespace TypedScript

theorem Report.hasErrors_of_hasErrors {r : Report} (h : r.hasErrors) : r.promote.hasErrors := by
  unfold Report.hasErrors Report.promote at *
  rw [Array.any_eq_true] at h ⊢
  obtain ⟨i, hi, -⟩ := h
  exact ⟨i, by simpa using hi, by simp [Diagnostic.isError]⟩

theorem grammarReport_hasErrors {errors : Array Parsed.Error} (h : errors.isEmpty = false) :
    (grammarReport errors).hasErrors := by
  have hsize : 0 < errors.size := by
    rw [Array.isEmpty_eq_false_iff] at h
    exact Array.size_pos_iff.mpr h
  unfold Report.hasErrors grammarReport
  rw [Array.any_eq_true]
  exact ⟨0, by simpa using hsize, by simp [Diagnostic.isError]⟩

theorem exists_of_toOption_any {ε α : Type} {r : Except ε α} {P : α → Bool}
    (h : r.toOption.any P = true) : ∃ a, r = .ok a ∧ P a = true := by
  cases r with
  | error e => cases h
  | ok a => exact ⟨a, rfl, h⟩

/-- A module that compilation returns has a property. -/
theorem exists_module_of_any {source : List Glyph} {options : CompileOptions} {P : Module → Bool}
    (h : ((compile source options).toOption.any fun c => c.module?.any P) = true) :
    ∃ c M, compile source options = .ok c ∧ c.module? = some M ∧ P M = true := by
  obtain ⟨c, hc, h⟩ := exists_of_toOption_any h
  cases hM : c.module? with
  | none =>
    rw [hM] at h
    cases h
  | some M =>
    rw [hM] at h
    exact ⟨c, M, hc, hM, h⟩

/-- Binding and flattening never fail. A program without errors follows the rules. -/
theorem exists_analysis (options : CompileOptions) {file : Parsed.File} (hf : file.Proper) :
    ∃ report a, analyze options file = .ok (report, a) ∧ a.registry.WellFormed ∧
      Flat.LowersProgram a.registry a.bound a.flat ∧
      (report.hasErrors = false → a.bound.Typed a.registry False) := by
  obtain ⟨p, s, hrun, hr, hp⟩ := Binder.bindProgram_typed hf
  obtain ⟨q, hq, hlowers⟩ := Flat.exists_program hp
  refine ⟨if options.warningsAsErrors then s.report.promote else s.report,
    ⟨s.registry, s.library, s.scope.outermost, p, q⟩, ?_, hr, hlowers, fun hnone => ?_⟩
  · have hbind : (Binder.bindProgram file).run Binder.initial = .ok (p, s) := hrun
    simp only [analyze, hbind]
    change (Flat.Program.ofBound s.registry p >>= _) = _
    rw [hq]
    rfl
  · have hclean : s.report.hasErrors = false := by
      split at hnone
      · cases herrors : s.report.hasErrors with
        | false => rfl
        | true => rw [Report.hasErrors_of_hasErrors herrors] at hnone; cases hnone
      · exact hnone
    simpa [hclean] using hp

/-- A source text whose program has no errors, but in which a counted loop evaluates the bare name of
a type or of functions. -/
def EvaluatesName (source : List Glyph) (options : CompileOptions) : Prop :=
  ∃ file report a, Parsed.parse source = (file, #[]) ∧ analyze options file = .ok (report, a) ∧
    report.hasErrors = false ∧ a.bound.routines.any fun f => Bound.evaluateName f.body

/-- Code is made for a program without errors unless a counted loop evaluates a bare name. -/
theorem exists_module_of_typed (name : String) {r : Registry} (hr : r.WellFormed)
    {p : Bound.Program} {q : Flat.Program} (hp : p.Typed r False) (h : Flat.LowersProgram r p q)
    (hnames : (p.routines.any fun f => Bound.evaluateName f.body) = false) :
    ∃ M, Module.ofFlat name r q = .ok M := by
  have htyped : q.Typed r := h.typed hr hp fun f hf => by
    simpa using List.any_eq_false.mp hnames f hf
  obtain ⟨M, hM, -⟩ := Emission.exists_module name hr htyped
  exact ⟨M, hM⟩

/-- A bare name that a counted loop evaluates stops emission, and the routine is named. -/
theorem ofFlat_evaluateName (name : String) {r : Registry} (hr : r.WellFormed)
    {p : Bound.Program} {q : Flat.Program} (hp : p.Typed r False) (h : Flat.LowersProgram r p q)
    (hnames : p.routines.any fun f => Bound.evaluateName f.body) :
    ∃ f ∈ p.routines, Bound.evaluateName f.body ∧
      Module.ofFlat name r q = .error (.invalidExpression f.name) := by
  have hroutine : ∀ g ∈ q.routines, ∃ f ∈ p.routines, Flat.LowersRoutine r f g ∧
      g.TypedUnless r q.globals (Bound.evaluateName f.body) := by
    intro g hg
    obtain ⟨f, hf, hlowers⟩ := Flat.exists_left h.routines hg
    rw [h.globals]
    exact ⟨f, hf, hlowers, hlowers.typedUnless hr (hp.routines f hf)⟩
  have hinvalid : q.routines.any fun g => g.body.any Flat.Stmt.isInvalid := by
    obtain ⟨f, hf, hname⟩ := List.any_eq_true.mp hnames
    obtain ⟨g, hg, hlowers⟩ := Flat.exists_left h.routines.flip hf
    have htyped := Flat.LowersRoutine.typedUnless hr (hp.routines f hf) hlowers
    exact List.any_eq_true.mpr ⟨g, hg, by rw [htyped.body.named, hname]⟩
  have hglobals : ∀ s ∈ q.globals, (⟨r, q.globals, [], False⟩ : Typing).Declares s := by
    rw [h.globals]
    exact fun s hs => (hp.globals s hs).2.2
  obtain ⟨g, hg, hname, hstop⟩ := Emission.ofFlat_invalid name hr hglobals
    (fun g hg => by
      obtain ⟨f, -, -, htyped⟩ := hroutine g hg
      rw [← htyped.body.named] at htyped
      exact htyped) hinvalid
  obtain ⟨f, hf, ⟨hlowers⟩, htyped⟩ := hroutine g hg
  exact ⟨f, hf, by rw [← htyped.body.named, hname], hstop⟩

/-- What compilation returns: it fails exactly on the source texts in which a counted loop evaluates
a bare name, with the same complaint about each of them, and otherwise there is a module exactly if
there is no error. -/
theorem compile_outcome (source : List Glyph) (options : CompileOptions) :
    ((∃ d, compile source options = .error d) ↔ EvaluatesName source options) ∧
      (∀ d, compile source options = .error d → ∃ routine, d = .invalidExpression routine) ∧
      ∀ c, compile source options = .ok c → (c.module?.isSome ↔ c.report.hasErrors = false) := by
  obtain ⟨file, errors, hparse⟩ : ∃ file errors, Parsed.parse source = (file, errors) :=
    ⟨_, _, rfl⟩
  cases hempty : errors.isEmpty with
  | false =>
    have hgrammar : ¬EvaluatesName source options := by
      rintro ⟨file', -, -, hparse', -⟩
      rw [hparse, Prod.mk.injEq] at hparse'
      simp [hparse'.2] at hempty
    have hrun : compile source options = .ok ⟨grammarReport errors, file, none, none⟩ := by
      simp only [compile, hparse, hempty]
      rfl
    rw [hrun]
    refine ⟨by simpa using hgrammar, by simp, ?_⟩
    rintro _ ⟨⟩
    simpa using grammarReport_hasErrors hempty
  | true =>
    obtain rfl : errors = #[] := by simpa using hempty
    obtain ⟨report, a, hanalyze, hr, hlowers, htyped⟩ :=
      exists_analysis options (Parsed.proper_of_parse hparse)
    have hstart : compile source options = if report.hasErrors then
        .ok ⟨report, file, some a, none⟩
      else Module.ofFlat options.name a.registry a.flat >>= fun M =>
        .ok ⟨report, file, some a, some M⟩ := by
      simp only [compile, hparse]
      change (analyze options file >>= _) = _
      rw [hanalyze]
      change (if _ then _ else _) = _
      rfl
    have hnames : EvaluatesName source options ↔ report.hasErrors = false ∧
        a.bound.routines.any fun f => Bound.evaluateName f.body := by
      constructor
      · rintro ⟨file', report', a', hparse', hanalyze', hrest⟩
        obtain ⟨rfl, -⟩ := Prod.mk.inj (hparse.symm.trans hparse')
        obtain ⟨rfl, rfl⟩ := Prod.mk.inj (Except.ok.inj (hanalyze.symm.trans hanalyze'))
        exact hrest
      · exact fun h => ⟨file, report, a, hparse, hanalyze, h⟩
    rw [hnames]
    cases herrors : report.hasErrors with
    | true =>
      rw [if_pos herrors] at hstart
      rw [hstart]
      refine ⟨by simp, by simp, ?_⟩
      rintro _ ⟨⟩
      simp [herrors]
    | false =>
      rw [if_neg (by simp [herrors])] at hstart
      have hp := htyped herrors
      cases hnamed : a.bound.routines.any fun f => Bound.evaluateName f.body with
      | true =>
        obtain ⟨f, -, -, hstop⟩ := ofFlat_evaluateName options.name hr hp hlowers hnamed
        rw [hstop] at hstart
        have hrun : compile source options = .error (.invalidExpression f.name) := hstart
        rw [hrun]
        refine ⟨by simp, ?_, by simp⟩
        rintro _ ⟨⟩
        exact ⟨f.name, rfl⟩
      | false =>
        obtain ⟨M, hM⟩ := exists_module_of_typed options.name hr hp hlowers hnamed
        rw [hM] at hstart
        have hrun : compile source options = .ok ⟨report, file, some a, some M⟩ := hstart
        rw [hrun]
        refine ⟨by simp, by simp, ?_⟩
        rintro _ ⟨⟩
        simp [herrors]

end TypedScript
