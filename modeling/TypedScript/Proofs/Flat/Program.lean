import TypedScript.Proofs.Flat.Preservation

/-!
# Flat programs of bound programs

Flattening succeeds on every bound program that follows the rules, mistakes included. What comes out
of a program without mistakes makes sense, with its types and its labels, unless a counted loop
evaluates a bare name.
-/

namespace TypedScript
namespace Flat

/-- A routine makes sense. -/
structure Routine.Typed (r : Registry) (globals : List Symbol) (f : Routine) : Prop where
  params : ∀ s ∈ f.params, (⟨r, globals, f.params, False⟩ : Typing).Declares s
  result : r.IsType f.result ∧ f.result ≠ .error
  body : typedStmts ⟨r, globals, f.params, False⟩ f.result f.body
  labels : Resolvable f.body

/-- A program makes sense. -/
structure Program.Typed (r : Registry) (p : Program) : Prop where
  globals : ∀ s ∈ p.globals, s.kind = .globalVariable ∧
    (⟨r, p.globals, [], False⟩ : Typing).Declares s
  routines : ∀ f ∈ p.routines, f.Typed r p.globals
  functions : ∀ f ∈ p.functions, r.Invokes f.callable ⟨f.result, f.params.map Symbol.type⟩

/-- A routine makes sense except for invalid statements, which are there if and only if `named`. -/
structure Routine.TypedUnless (r : Registry) (globals : List Symbol) (named : Bool) (f : Routine) :
    Prop where
  params : ∀ s ∈ f.params, (⟨r, globals, f.params, False⟩ : Typing).Declares s
  result : r.IsType f.result ∧ f.result ≠ .error
  body : Flat.TypedUnless ⟨r, globals, f.params, False⟩ f.result named f.body
  labels : Resolvable f.body

theorem TypedUnless.typedStmts {c : Typing} {result : TypeId} {ss : List Stmt}
    (h : TypedUnless c result false ss) : typedStmts c result ss := by
  intro s hs
  obtain ht | hi := h.typed s hs
  · exact ht
  · have hnone := List.any_eq_false.mp h.named s hs
    exact absurd hi hnone

theorem Routine.TypedUnless.typed {r : Registry} {globals : List Symbol} {f : Routine}
    (h : f.TypedUnless r globals false) : f.Typed r globals :=
  ⟨h.params, h.result, h.body.typedStmts, h.labels⟩

theorem Routine.Typed.typedUnless {r : Registry} {globals : List Symbol} {f : Routine}
    (h : f.Typed r globals) : f.TypedUnless r globals false :=
  ⟨h.params, h.result, typedUnless_of_typed h.body, h.labels⟩

/-- A routine ends with a return. -/
theorem isReturn_terminated (result : TypeId) (body : List Stmt) :
    (Lowering.terminated result body).getLast?.any Stmt.isReturn := by
  unfold Lowering.terminated
  split
  · assumption
  · split <;> simp [Stmt.isReturn]

/-- A flat routine that flattening makes of a bound one. -/
inductive LowersRoutine (r : Registry) (f : Bound.Routine) : Routine → Prop
  | mk {body : List Stmt} {s : Supply} : LowersStmts r none f.body ⟨0, 0⟩ body s →
    LowersRoutine r f ⟨f.name, f.callable, f.params, f.result, Lowering.terminated f.result body⟩

section

variable {r : Registry} {globals : List Symbol}

theorem exists_body {lenient : Prop} {f : Bound.Routine} (h : f.Typed r globals lenient) :
    ∃ body s, (Lowering.lowerStmts r none f.body).run' ⟨0, 0⟩ = .ok body ∧
      LowersStmts r none f.body ⟨0, 0⟩ body s := by
  obtain ⟨body, s, hrun, hlowers⟩ : Gives (Lowering.lowerStmts r none f.body) ⟨0, 0⟩
      (LowersStmts r none f.body ⟨0, 0⟩) := gives_lowerStmts (by simp) f.body h.body ⟨0, 0⟩
  refine ⟨body, s, ?_, hlowers⟩
  change Prod.fst <$> Lowering.lowerStmts r none f.body ⟨0, 0⟩ = _
  rw [hrun]
  rfl

theorem exists_routine {lenient : Prop} {f : Bound.Routine} (h : f.Typed r globals lenient) :
    ∃ g, Routine.ofBound r f = .ok g ∧ LowersRoutine r f g := by
  obtain ⟨body, s, hrun, hlowers⟩ := exists_body h
  refine ⟨_, ?_, .mk hlowers⟩
  simp only [Routine.ofBound, hrun]
  rfl

/-- Ending a body with a return keeps it well typed. -/
theorem TypedUnless.terminated {c : Typing} {result : TypeId} {named : Bool} {body : List Stmt}
    (h : TypedUnless c result named body) (ht : c.registry.IsType result) (he : result ≠ .error) :
    TypedUnless c result named (Lowering.terminated result body) := by
  have hsnoc : ∀ s : Stmt, s.Typed c result → TypedUnless c result named (body ++ [s]) := by
    intro s hs
    have hlast : Flat.typedStmts c result [s] := by simpa [Flat.typedStmts] using hs
    simpa using h.around (typedStmts_nil c result) hlast
  unfold Lowering.terminated
  split
  · exact h
  · split
    · rename_i hvoid
      exact hsnoc _ (by simpa [he, Stmt.Typed] using hvoid)
    · rename_i hvalue
      have hvoid : result ≠ .builtin .void := by
        rintro rfl
        simp at hvalue
      obtain ⟨hzero, htype⟩ := zeroLiteral_typed ht he hvoid
      exact hsnoc _ ⟨hzero, htype, hvoid⟩

theorem LowersRoutine.typedUnless (hr : r.WellFormed) {f : Bound.Routine} {g : Routine}
    (hf : f.Typed r globals False) (h : LowersRoutine r f g) :
    g.TypedUnless r globals (Bound.evaluateName f.body) := by
  obtain ⟨hbody⟩ := h
  have hresult : r.IsType f.result ∧ f.result ≠ .error := hf.result
  refine ⟨hf.params, hresult, ?_, hbody.resolvable f.result⟩
  have htyped := hbody.typedUnless (c := ⟨r, globals, f.params, False⟩)
    (fun stmt _ ht {_ _ _} hstmt => hstmt.typedUnless hr id ht) hf.body
  exact htyped.terminated hresult.1 hresult.2

/-- A flat program that flattening makes of a bound one. -/
structure LowersProgram (r : Registry) (p : Bound.Program) (q : Program) : Prop where
  globals : q.globals = p.globals
  initializer : LowersRoutine r p.initializer q.initializer
  functions : List.Forall₂ (LowersRoutine r) p.functions q.functions
  script : List.Forall₂ (LowersRoutine r) p.script?.toList q.script?.toList
  entry : q.entry? = p.entry?

theorem LowersProgram.routines {p : Bound.Program} {q : Program} (h : LowersProgram r p q) :
    List.Forall₂ (LowersRoutine r) p.routines q.routines :=
  .cons h.initializer (List.rel_append h.functions h.script)

theorem exists_routines {lenient : Prop} {fs : List Bound.Routine}
    (h : ∀ f ∈ fs, f.Typed r globals lenient) :
    ∃ gs, fs.mapM (Routine.ofBound r) = .ok gs ∧ List.Forall₂ (LowersRoutine r) fs gs := by
  induction fs with
  | nil => exact ⟨[], rfl, .nil⟩
  | cons f rest ih =>
    rw [List.forall_mem_cons] at h
    obtain ⟨g, hg, hlowers⟩ := exists_routine h.1
    obtain ⟨gs, hgs, hrest⟩ := ih h.2
    refine ⟨g :: gs, ?_, .cons hlowers hrest⟩
    rw [List.mapM_cons, hg, hgs]
    rfl

/-- Flattening a program never fails. -/
theorem exists_program {lenient : Prop} {p : Bound.Program} (h : p.Typed r lenient) :
    ∃ q, Program.ofBound r p = .ok q ∧ LowersProgram r p q := by
  obtain ⟨globals, initializer, functions, script?⟩ := p
  have hroutines := h.routines
  simp only [Bound.Program.routines, List.cons_append, List.forall_mem_cons,
    List.forall_mem_append] at hroutines
  obtain ⟨hinit, hfunctions, hscript⟩ := hroutines
  obtain ⟨g, hg, hlowers⟩ := exists_routine hinit
  obtain ⟨gs, hgs, hrest⟩ := exists_routines hfunctions
  cases script? with
  | none =>
    refine ⟨⟨globals, g, gs, none, _⟩, ?_, rfl, hlowers, hrest, .nil, rfl⟩
    simp only [Program.ofBound, hg, hgs]
    rfl
  | some script =>
    obtain ⟨last, hlast, hlowers'⟩ := exists_routine (hscript script (by simp))
    refine ⟨⟨globals, g, gs, some last, _⟩, ?_, rfl, hlowers, hrest, .cons hlowers' .nil, rfl⟩
    have hmap : (some script).mapM (Routine.ofBound r) = .ok (some last) := by
      change some <$> Routine.ofBound r script = _
      rw [hlast]
      rfl
    simp only [Program.ofBound, hg, hgs, hmap]
    rfl

theorem exists_left {α β : Type} {R : α → β → Prop} {as : List α} {bs : List β}
    (h : List.Forall₂ R as bs) {b : β} (hb : b ∈ bs) : ∃ a ∈ as, R a b := by
  induction h with
  | nil => cases hb
  | cons hab _ ih =>
    obtain rfl | hb := List.mem_cons.mp hb
    · exact ⟨_, List.mem_cons_self, hab⟩
    · obtain ⟨a, ha, hr⟩ := ih hb
      exact ⟨a, List.mem_cons_of_mem _ ha, hr⟩

/-- A flat program makes sense if the bound one does and none of its loops evaluates a bare name. -/
theorem LowersProgram.typed (hr : r.WellFormed) {p : Bound.Program} {q : Program}
    (hp : p.Typed r False) (h : LowersProgram r p q)
    (hnames : ∀ f ∈ p.routines, Bound.evaluateName f.body = false) : q.Typed r := by
  refine ⟨fun s hs => ?_, fun g hg => ?_, fun g hg => ?_⟩
  · rw [h.globals] at hs ⊢
    exact ⟨(hp.globals s hs).1, (hp.globals s hs).2.2⟩
  · obtain ⟨f, hf, hlowers⟩ := exists_left h.routines hg
    have htyped := hlowers.typedUnless hr (hp.routines f hf)
    rw [hnames f hf] at htyped
    rw [h.globals]
    exact htyped.typed
  · obtain ⟨f, hf, ⟨_⟩⟩ := exists_left h.functions hg
    exact hp.functions f hf

end

end Flat
end TypedScript
