import TypedScript.Proofs.Binding.Scoping
import TypedScript.Proofs.Execution.Places
import TypedScript.Proofs.Flat.Program

/-!
# Flow analysis is right

What flow analysis says of a bound statement holds of every execution. A function that must return a
value gets a return of the zero value behind its flat body; where binding has no complaint about a
missing return, control never comes there.
-/

namespace TypedScript

/-- What is reported as unreachable are the statements at the dead places. -/
theorem Binder.complainUnreachable_eq (body : List Bound.Stmt) :
    complainUnreachable body =
      (Bound.deadPlacesAfter false body).forM fun p => complain p.stmt.span .unreachableCode := by
  have hmap : ∀ ps : List (Bound.Place (List Bound.Stmt)),
      (ps.map fun p => p.stmt.span).forM (fun span => complain span .unreachableCode) =
        ps.forM fun p => complain p.stmt.span .unreachableCode := by
    intro ps
    induction ps with
    | nil => rfl
    | cons p rest ih =>
      funext s
      simp only [List.map_cons, List.forM, ih]
  rw [complainUnreachable, ← Bound.spans_deadPlacesAfter, hmap]

namespace Flat

open Execution

/-- Control that starts at the beginning of a body never comes to the statement put behind it. -/
def Misses (body : List Stmt) (last : Stmt) : Prop :=
  ∀ x σ σ', ¬Comes x (body ++ [last]) (body ++ [last], σ) ([last], σ')

/-- What a body gives that never comes to the statement put behind it, it gives at another place. -/
theorem Misses.returns {body : List Stmt} {last : Stmt} (h : Misses body last) {x : Environment} {n : Nat}
    {σ σ' : State} {v : Value} (hrun : exec x (body ++ [last]) n (body ++ [last]) σ = .ok v σ') :
    ∃ s rest τ, Comes x (body ++ [last]) (body ++ [last], σ) (s :: rest, τ) ∧ s :: rest ≠ [last] ∧
      s.flow x τ = .ok (.done v) σ' := by
  obtain ⟨s, rest, τ, hcomes, hdone⟩ := exists_comes hrun
  exact ⟨s, rest, τ, hcomes, fun heq => h x σ τ (heq ▸ hcomes), hdone⟩

/-- The return that is put behind the flat body of a routine with a result. -/
def zeroReturn (result : TypeId) : Stmt := .returnStmt (some (Lowering.zeroLiteral result))

theorem misses_zeroReturn {r : Registry} {stmts : List Bound.Stmt} {body : List Stmt} {s : Supply}
    (h : LowersStmts r none stmts ⟨0, 0⟩ body s) (hcomplete : Bound.allComplete stmts = false)
    (result : TypeId) : Misses body (zeroReturn result) := by
  have hlabelled := (h.labelled fun _ _ => LowersStmt.labelled).snoc
    (show labelsOf [zeroReturn result] = [] from rfl) rfl
  exact fun x => h.not_comes hcomplete hlabelled.nodup

/-- A routine with a result ends with its own return or with one of the zero value. -/
theorem terminated_cases {result : TypeId} (hvoid : result ≠ .builtin .void) (herror : result ≠ .error)
    (body : List Stmt) : Lowering.terminated result body = body ∨
      Lowering.terminated result body = body ++ [zeroReturn result] := by
  unfold Lowering.terminated
  split
  · exact .inl rfl
  · simp [hvoid, herror, zeroReturn]

end Flat

/-- Flow analysis is sound. A statement that cannot complete never does. What is reported as
unreachable is never executed: the body that it stands in does the same with any statement in its
place. And if a function of a program has to return a value and no return is said to be missing in
it, control never comes to the return that its flat body is ended with, so all that it gives it gives at
a return of its own. -/
theorem flow_analysis_sound {source : List Glyph} {file : Parsed.File}
    (hparse : Parsed.parse source = (file, #[])) :
    (∀ s : Bound.Stmt, s.canComplete = false →
      ∀ x n, Bound.Exits (Bound.exec x s n) (· ≠ .next)) ∧
    (∀ body : List Bound.Stmt,
      Binder.complainUnreachable body = (Bound.deadPlacesAfter false body).forM
        (fun p => Binder.complain p.stmt.span .unreachableCode) ∧
      ∀ p ∈ Bound.deadPlacesAfter false body, p.put p.stmt = body ∧
        ∀ x t, Bound.execAll x (p.put t) = Bound.execAll x body) ∧
    ∃ p s, Binder.bindProgram file Binder.initial = .ok (p, s) ∧ ∀ f ∈ p.functions, ∃ body g,
      (Flat.Lowering.lowerStmts s.registry none f.body).run' ⟨0, 0⟩ = .ok body ∧
      Flat.Routine.ofBound s.registry f = .ok g ∧
      (f.result ≠ .builtin .void → f.result ≠ .error →
        (Binding.Complaint.missingReturn f.name).diagnostic f.span ∉ s.report.items.toList →
        (g.body = body ∨ g.body = body ++ [Flat.zeroReturn f.result]) ∧
          Flat.Misses body (Flat.zeroReturn f.result) ∧
          ∀ x n σ v σ', Flat.exec x (body ++ [Flat.zeroReturn f.result]) n
              (body ++ [Flat.zeroReturn f.result]) σ = .ok v σ' →
            ∃ s rest τ, Flat.Comes x (body ++ [Flat.zeroReturn f.result])
              (body ++ [Flat.zeroReturn f.result], σ) (s :: rest, τ) ∧
                s :: rest ≠ [Flat.zeroReturn f.result] ∧ s.flow x τ = .ok (.done v) σ') := by
  refine ⟨fun s hs x n => Bound.exits_ne_next hs n, fun body => ⟨Binder.complainUnreachable_eq body,
    fun p hp => ⟨Bound.put_deadPlacesAfter false body p hp,
      fun x t => Bound.execAll_deadPlaces body p hp t⟩⟩, ?_⟩
  obtain ⟨p, s, hbind, -, hp⟩ := Binder.bindProgram_typed (Parsed.proper_of_parse hparse)
  obtain ⟨-, -, -, hmissing⟩ := Binder.bindProgram_bound hbind
  refine ⟨p, s, hbind, fun f hf => ?_⟩
  have hroutine : f ∈ p.routines := by simp [Bound.Program.routines, hf]
  obtain ⟨body, supply, hrun, hlowers⟩ := Flat.exists_body (hp.routines f hroutine)
  refine ⟨body, ⟨f.name, f.callable, f.params, f.result, Flat.Lowering.terminated f.result body⟩,
    hrun, by simp only [Flat.Routine.ofBound, hrun]; rfl, fun hvoid herror hnone => ?_⟩
  have hcomplete : Bound.allComplete f.body = false := by
    by_contra hall
    exact hnone (hmissing f hf hvoid herror (by simpa using hall))
  have hmisses := Flat.misses_zeroReturn hlowers hcomplete f.result
  exact ⟨Flat.terminated_cases hvoid herror body, hmisses, fun _ _ _ _ _ => hmisses.returns⟩

def endless : List Glyph :=
  "func f(n: i32): i32 { var i = n; while (true) { if (i > 2) { return i; } i += 1; } i = 1; }".toList.map
    Glyph.ofChar

/-- Whether binding finds no error and no missing return in functions that all give integers. -/
def Binder.bindsIntegers (file : Parsed.File) : Bool :=
  match bindProgram file initial with
  | .ok (p, s) => !s.report.hasErrors && p.functions.length == 1 && p.functions.all fun f =>
    decide (f.result = .builtin .i32) &&
      decide ((Binding.Complaint.missingReturn f.name).diagnostic f.span ∉ s.report.items.toList)
  | .error _ => false

/-- The end of the loop is not reached, so the function needs no other return. -/
theorem flow_analysis_sound_endless : ∃ file p s f body g, Parsed.parse endless = (file, #[]) ∧
    Binder.bindProgram file Binder.initial = .ok (p, s) ∧ s.report.hasErrors = false ∧
    p.functions = [f] ∧ f.result = .builtin .i32 ∧
    (Flat.Lowering.lowerStmts s.registry none f.body).run' ⟨0, 0⟩ = .ok body ∧
    Flat.Routine.ofBound s.registry f = .ok g ∧
    (g.body = body ∨ g.body = body ++ [Flat.zeroReturn f.result]) ∧
    Flat.Misses body (Flat.zeroReturn f.result) := by
  have hall : ((Parsed.parse endless).2.isEmpty && Binder.bindsIntegers (Parsed.parse endless).1) = true := by
    decide +kernel
  obtain ⟨hnone, hbinds⟩ := Bool.and_eq_true_iff.mp hall
  have hparse := Parsed.parse_of_isEmpty hnone
  obtain ⟨-, -, p, s, hbind, hfunctions⟩ := flow_analysis_sound hparse
  rw [Binder.bindsIntegers, hbind] at hbinds
  simp only [Bool.and_eq_true, Bool.not_eq_true', beq_iff_eq, List.all_eq_true,
    decide_eq_true_eq] at hbinds
  obtain ⟨⟨herrors, hone⟩, hcomplete⟩ := hbinds
  obtain ⟨f, hf⟩ := List.length_eq_one_iff.mp hone
  have hmem : f ∈ p.functions := by simp [hf]
  obtain ⟨hresult, hreport⟩ := hcomplete f hmem
  obtain ⟨body, g, hbody, hg, hmisses⟩ := hfunctions f hmem
  obtain ⟨hended, hmisses, -⟩ := hmisses (by simp [hresult]) (by simp [hresult]) hreport
  exact ⟨_, p, s, f, body, g, hparse, hbind, herrors, hf, hresult, hbody, hg, hended, hmisses⟩

end TypedScript
