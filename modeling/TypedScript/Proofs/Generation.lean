import TypedScript.Proofs.Bytecode.Verification
import TypedScript.Proofs.Compilation

/-!
# What modules are made of

The module that compilation returns was made of the flat program that it returns with it, and that
program makes sense: it is well typed, its symbols are told apart by their numbers, and each of its
routines ends with a return.
-/

namespace TypedScript

/-- What compilation does with a text that follows the grammar. -/
theorem compile_eq {source : List Glyph} {options : CompileOptions} {file : Parsed.File}
    {report : Report} {a : Analysis} (hparse : Parsed.parse source = (file, #[]))
    (hanalyze : analyze options file = .ok (report, a)) :
    compile source options = if report.hasErrors then .ok ⟨report, file, some a, none⟩
      else Module.ofFlat options.name a.registry a.flat >>= fun M =>
        .ok ⟨report, file, some a, some M⟩ := by
  simp only [compile, hparse]
  change (analyze options file >>= _) = _
  rw [hanalyze]
  change (if _ then _ else _) = _
  rfl

/-- Analysis keeps the identities of a program. -/
theorem identified_of_analyze {options : CompileOptions} {file : Parsed.File} {report : Report}
    {a : Analysis} (h : analyze options file = .ok (report, a)) :
    ∃ made, Binder.Identified a.registry a.bound made := by
  obtain ⟨⟨p, s⟩, hrun, h⟩ := exists_of_bind_eq_ok h
  obtain ⟨q, -, h⟩ := exists_of_bind_eq_ok h
  obtain ⟨-, rfl⟩ := Prod.mk.inj (Except.ok.inj h)
  exact Binder.bindProgram_identified hrun

theorem Flat.LowersProgram.ends {r : Registry} {p : Bound.Program} {q : Flat.Program}
    (h : Flat.LowersProgram r p q) {g : Flat.Routine} (hg : g ∈ q.routines) :
    g.body.getLast?.any Flat.Stmt.isReturn := by
  obtain ⟨f, -, ⟨_⟩⟩ := Flat.exists_left h.routines hg
  exact Flat.isReturn_terminated f.result _

/-- A module that compilation returns was made of the program that it returns, and that one of the bound
program. -/
theorem exists_lowered {source : List Glyph} {options : CompileOptions} {c : Compilation}
    {M : Module} (h : compile source options = .ok c) (hM : c.module? = some M) (hsmall : M.Small) :
    ∃ a, c.analysis? = some a ∧ Generated a.registry a.flat M ∧
      Flat.LowersProgram a.registry a.bound a.flat := by
  obtain ⟨file, errors, hparse⟩ : ∃ file errors, Parsed.parse source = (file, errors) :=
    ⟨_, _, rfl⟩
  cases hempty : errors.isEmpty with
  | false =>
    have hrun : compile source options = .ok ⟨grammarReport errors, file, none, none⟩ := by
      simp only [compile, hparse, hempty]
      rfl
    obtain rfl := Except.ok.inj (hrun.symm.trans h)
    cases hM
  | true =>
    obtain rfl : errors = #[] := by simpa using hempty
    obtain ⟨report, a, hanalyze, hr, hlowers, htyped⟩ :=
      exists_analysis options (Parsed.proper_of_parse hparse)
    rw [compile_eq hparse hanalyze] at h
    cases herrors : report.hasErrors with
    | true =>
      rw [if_pos herrors] at h
      obtain rfl := Except.ok.inj h
      cases hM
    | false =>
      rw [if_neg (by simp [herrors])] at h
      obtain ⟨M', hM', h⟩ := exists_of_bind_eq_ok h
      obtain rfl := Except.ok.inj h
      obtain rfl := Option.some.inj hM
      have hp := htyped herrors
      have hnames : ∀ f ∈ a.bound.routines, Bound.evaluateName f.body = false := by
        intro f hf
        by_contra hnamed
        obtain ⟨g, -, -, hstop⟩ := ofFlat_evaluateName options.name hr hp hlowers
          (List.any_eq_true.mpr ⟨f, hf, by simpa using hnamed⟩)
        rw [hM'] at hstop
        cases hstop
      have hflat := hlowers.typed hr hp hnames
      obtain ⟨M'', hM'', hemitted⟩ := Emission.exists_module options.name hr hflat
      obtain rfl := Except.ok.inj (hM'.symm.trans hM'')
      obtain ⟨made, hmade⟩ := identified_of_analyze hanalyze
      exact ⟨a, rfl, ⟨hr, hflat, hlowers.identified hmade, hemitted, hsmall⟩, hlowers⟩

/-- A module that compilation returns was made of the program that it returns. -/
theorem exists_generated {source : List Glyph} {options : CompileOptions} {c : Compilation}
    {M : Module} (h : compile source options = .ok c) (hM : c.module? = some M) (hsmall : M.Small) :
    ∃ a, c.analysis? = some a ∧ Generated a.registry a.flat M ∧
      ∀ g ∈ a.flat.routines, g.body.getLast?.any Flat.Stmt.isReturn := by
  obtain ⟨a, ha, hgenerated, hlowers⟩ := exists_lowered h hM hsmall
  exact ⟨a, ha, hgenerated, fun g hg => hlowers.ends hg⟩

end TypedScript
