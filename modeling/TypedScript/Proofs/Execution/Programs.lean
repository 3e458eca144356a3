import TypedScript.Proofs.Execution.Statements
import TypedScript.Proofs.Execution.Turns

/-!
# Flattening programs

A routine and its flat form do the same with the same number of turns, whatever their calls do, and so
do a program and its flat form. Hence both end in the same way or go on for ever.
-/

namespace TypedScript
namespace Flat

open Execution

section

variable {r : Registry} {x : Environment}

/-- Statements whose flat form ends with a return do not end normally. -/
theorem LowersStmts.not_next {loop? : Option LoopLabels} {stmts : List Bound.Stmt}
    (hstmts : ∀ stmt ∈ stmts, ∀ {s s' out}, LowersStmt r loop? stmt s out s' →
      out.getLast?.any Stmt.isReturn → ∀ n σ k σ', Bound.exec x stmt n σ ≠ .ok (.next, k) σ')
    {s s' : Supply} {out : List Stmt} (h : LowersStmts r loop? stmts s out s')
    (hlast : out.getLast?.any Stmt.isReturn) (n : Nat) (σ : State) (k : Nat) (σ' : State) :
    Bound.execAll x stmts n σ ≠ .ok (.next, k) σ' := by
  induction stmts generalizing s out n σ with
  | nil =>
    cases h
    simp at hlast
  | cons stmt rest ih =>
    rw [List.forall_mem_cons] at hstmts
    cases h with
    | @cons _ _ _ _ _ _ out₁ out₂ hfirst hrest =>
      simp only [Bound.execAll]
      intro hrun
      cases hexec : Bound.exec x stmt n σ with
      | error stop σ₁ =>
        rw [bind_error hexec] at hrun
        cases hrun
      | ok a σ₁ =>
        rw [bind_ok hexec] at hrun
        obtain ⟨exit, m⟩ := a
        cases exit with
        | breakLoop | continueLoop | returned => cases hrun
        | next =>
          by_cases hempty : out₂ = []
          · subst hempty
            rw [List.append_nil] at hlast
            exact hstmts.1 hfirst hlast n σ m σ₁ hexec
          · rw [List.getLast?_append_of_ne_nil _ hempty] at hlast
            exact ih hstmts.2 hrest hlast m σ₁ hrun

theorem LowersStmt.not_next {loop? : Option LoopLabels} {stmt : Bound.Stmt} {s s' : Supply}
    {out : List Stmt} (h : LowersStmt r loop? stmt s out s') (hlast : out.getLast?.any Stmt.isReturn)
    (n : Nat) (σ : State) (k : Nat) (σ' : State) :
    Bound.exec x stmt n σ ≠ .ok (.next, k) σ' := by
  induction stmt using Bound.Stmt.induction generalizing loop? s s' out n σ k σ' with
  | block span body ih =>
    cases h with
    | block hstmts =>
      simp only [Bound.exec]
      exact hstmts.not_next (fun stmt hmem {_ _ _} h hlast n σ k σ' => ih stmt hmem h hlast n σ k σ')
        hlast n σ k σ'
  | returnStmt span value =>
    cases value with
    | none =>
      simp only [Bound.exec]
      rintro ⟨⟩
    | some e =>
      simp only [Bound.exec]
      intro hrun
      cases heval : Bound.eval x e σ with
      | ok v σ₁ =>
        rw [bind_ok heval] at hrun
        cases hrun
      | error stop σ₁ =>
        rw [bind_error heval] at hrun
        cases hrun
  | declare d =>
    cases h with
    | declare hd => cases hd <;> simp [List.getLast?_cons, Stmt.isReturn] at hlast
  | eval | ifThen | ifElse | whileLoop | forLoop | breakLoop | continueLoop =>
    cases h
    simp [List.getLast?_cons, Stmt.isReturn] at hlast

/-- Computations that match from the first state of a routine have the same effect. -/
theorem activate_eq {m m' : Run Value} {w : Shared}
    (h : Matches (fun σ τ => τ.shared = σ.shared) m m' ⟨fun v => x.zero v.type, w⟩
      ⟨fun v => x.zero v.type, w⟩) : x.activate m' w = x.activate m w := by
  cases h with
  | ok h h' hs => simp only [Environment.activate, h, h', hs]
  | error h h' hs => simp only [Environment.activate, h, h', hs]

/-- The return that a body is ended with gives the value of a routine without one. -/
theorem exec_terminator {result : TypeId} {last : Stmt} {body : List Stmt} (n : Nat) (τ : State)
    (ht : x.registry.IsType result) (he : result ≠ .error)
    (hlast : last = if result = .builtin .void || result = .error then .returnStmt none
      else .returnStmt (some (Lowering.zeroLiteral result))) :
    exec x body n [last] τ = .ok (Bound.fallback x result) τ := by
  subst hlast
  rw [exec_cons, Bound.fallback]
  by_cases hvoid : result = .builtin .void
  · simp only [hvoid, decide_true, Bool.true_or, if_true]
    rfl
  · simp only [hvoid, he, decide_false, Bool.or_self, Bool.false_eq_true, if_false, Stmt.flow,
      eval_zeroLiteral x ht he]
    rfl

/-- A body and its flat form have the same outcome. -/
theorem LowersStmts.matches {c : Typing} (hr : c.registry.WellFormed) (hc : ¬c.lenient)
    (hx : x.registry = c.registry) {result : TypeId} (ht : c.registry.IsType result)
    (he : result ≠ .error) {stmts : List Bound.Stmt} (hstmts : Bound.typedStmts c result false stmts)
    (hn : Bound.noCompoundStmts stmts) {s : Supply} {out : List Stmt}
    (h : LowersStmts c.registry none stmts ⟨0, 0⟩ out s) (n : Nat) (σ : State) :
    Matches (fun σ τ => τ.shared = σ.shared)
      (do let (exit, _) ← Bound.execAll x stmts n; return Bound.finish x result exit)
      (exec x (Lowering.terminated result out) n (Lowering.terminated result out)) σ σ := by
  rw [Bound.typedStmts_iff] at hstmts
  rw [Bound.noCompoundStmts_iff] at hn
  have hcontinues : ∀ {body rest}, body = out ++ rest → (labelsOf body).Nodup →
      Continues x body rest none (Bound.execAll x stmts n) (exec x body n body) σ σ := by
    intro body rest hbody hnodup
    have hbody' : body = [] ++ (out ++ rest) := hbody
    have := h.continues (x := x)
      (fun stmt hmem {_ _ _ _ _} hstmt hloop hbody n {_ _} ha =>
        hstmt.continues hr hc hx (hstmts stmt hmem) (hn stmt hmem) hnodup hloop hbody n ha)
      (by simp [outerLabels]) hbody' n (Alike.refl _ σ)
    rwa [← hbody] at this
  have hnodup := (h.resolvable result).nodup
  by_cases hlast : out.getLast?.any Stmt.isReturn
  · have hbody : Lowering.terminated result out = out ++ [] := by
      simp [Lowering.terminated, hlast]
    cases hcontinues hbody hnodup with
    | error hm hrun hs => exact .error (bind_error hm) hrun hs
    | next hm =>
      refine absurd hm (h.not_next (fun stmt _ {_ _ _} hstmt hlast n σ k σ' => ?_) hlast n σ _ _)
      exact hstmt.not_next hlast n σ k σ'
    | breakLoop hl => cases hl
    | continueLoop hl => cases hl
    | returned hm hrun hs => exact .ok (bind_ok hm) hrun hs
  · obtain ⟨last, hterminator⟩ : ∃ last, last =
        if result = .builtin .void || result = .error then Stmt.returnStmt none
        else .returnStmt (some (Lowering.zeroLiteral result)) := ⟨_, rfl⟩
    have hbody : Lowering.terminated result out = out ++ [last] := by
      simp only [Lowering.terminated, if_neg hlast, hterminator]
      split <;> rfl
    cases hcontinues hbody hnodup with
    | error hm hrun hs => exact .error (bind_error hm) hrun hs
    | next hm hrun ha =>
      rw [exec_terminator _ _ (hx ▸ ht) he hterminator] at hrun
      exact .ok (bind_ok hm) hrun ha.shared
    | breakLoop hl => cases hl
    | continueLoop hl => cases hl
    | returned hm hrun hs => exact .ok (bind_ok hm) hrun hs

/-- A routine and its flat form do the same with the same turns, whatever calls do. -/
theorem LowersRoutine.run_eq (hr : r.WellFormed) {globals : List Symbol} {f : Bound.Routine}
    (hf : f.Typed r globals False) (hn : Bound.noCompoundStmts f.body) {g : Routine}
    (h : LowersRoutine r f g) (turns : Nat) : g.run r turns = f.run r turns := by
  obtain ⟨hbody⟩ := h
  funext invoke args w
  exact activate_eq (hbody.matches (c := ⟨r, globals, f.params, False⟩) hr id rfl hf.result.1
    (fun he => hf.result.2 he) hf.body hn turns _)

/-- The function of a callable is flattened with the others. -/
theorem exists_function {p : Bound.Program} {q : Program} (h : LowersProgram r p q)
    (callable : TypeId) :
    p.function? callable = none ∧ q.function? callable = none ∨
      ∃ f g, p.function? callable = some f ∧ q.function? callable = some g ∧ f ∈ p.routines ∧
        LowersRoutine r f g := by
  unfold Bound.Program.function? Program.function?
  have hroutines := h.routines
  generalize p.routines = fs at hroutines ⊢
  generalize q.routines = gs at hroutines ⊢
  induction hroutines with
  | nil => exact .inl ⟨rfl, rfl⟩
  | @cons f g fs gs hfg hrest ih =>
    have hcallable : g.callable = f.callable := by
      cases hfg
      rfl
    rw [List.find?_cons, List.find?_cons, hcallable]
    split
    · exact .inr ⟨f, g, rfl, rfl, List.mem_cons_self, hfg⟩
    · obtain hnone | ⟨f', g', hf', hg', hmem, hlowers⟩ := ih
      · exact .inl hnone
      · exact .inr ⟨f', g', hf', hg', List.mem_cons_of_mem _ hmem, hlowers⟩

/-- Calls in a program and in its flat form do the same. -/
theorem LowersProgram.call_eq (hr : r.WellFormed) {p : Bound.Program} {q : Program}
    (hp : p.Typed r False) (hn : ∀ f ∈ p.routines, Bound.noCompoundStmts f.body)
    (h : LowersProgram r p q) (turns depth : Nat) (caller : String) :
    q.call r turns depth caller = p.call r turns depth caller := by
  unfold Program.call Bound.Program.call
  induction depth generalizing caller with
  | zero =>
    funext callable args
    unfold callAt
    obtain ⟨hf, hg⟩ | ⟨f, g, hf, hg, -, ⟨_⟩⟩ := exists_function h callable
    · rw [hf, hg]
    · rw [hf, hg]
  | succ depth ih =>
    funext callable args
    unfold callAt
    obtain ⟨hf, hg⟩ | ⟨f, g, hf, hg, hmem, hlowers⟩ := exists_function h callable
    · rw [hf, hg]
    · have hrun := hlowers.run_eq hr (hp.routines f hmem) (hn f hmem) turns
      have hname : g.name = f.name := by
        cases hlowers
        rfl
      simp only [hf, hg, hrun, hname, ih]

/-- A routine of a program and its flat form do the same. -/
theorem LowersProgram.run_eq (hr : r.WellFormed) {p : Bound.Program} {q : Program}
    (hp : p.Typed r False) (hn : ∀ f ∈ p.routines, Bound.noCompoundStmts f.body)
    (h : LowersProgram r p q) {f : Bound.Routine} {g : Routine} (hf : f ∈ p.routines)
    (hg : LowersRoutine r f g) (turns depth : Nat) :
    q.run r turns depth g = p.run r turns depth f := by
  have hname : g.name = f.name := by
    cases hg
    rfl
  unfold Program.run Bound.Program.run
  rw [hg.run_eq hr (hp.routines f hf) (hn f hf), hname, h.call_eq hr hp hn]

end

/-- Flattening keeps the meaning of programs. A routine without compound assignments does in flat form
what it did before, whatever its calls do. In a program without them every routine ends in flat form
in the way it ended before, with the same value or halt and the same shared state, or goes on for ever
as before; and it never does both. -/
theorem flattening_keeps_meaning {r : Registry} (hr : r.WellFormed) {p : Bound.Program}
    (hp : p.Typed r False) :
    ∃ q, Program.ofBound r p = .ok q ∧
      List.Forall₂ (fun f g => Bound.noCompoundStmts f.body → ∀ turns invoke args w,
        g.run r turns invoke args w = f.run r turns invoke args w) p.routines q.routines ∧
      ((∀ f ∈ p.routines, Bound.noCompoundStmts f.body) →
        List.Forall₂ (fun f g => ∀ depth args w,
          (∀ out, Ends (fun turns => q.run r turns depth g args) w out ↔
            Ends (fun turns => p.run r turns depth f args) w out) ∧
          (Diverges (fun turns => q.run r turns depth g args) w ↔
            Diverges (fun turns => p.run r turns depth f args) w) ∧
          (Diverges (fun turns => p.run r turns depth f args) w ∨
            ∃! out, Ends (fun turns => p.run r turns depth f args) w out))
          p.routines q.routines) := by
  obtain ⟨q, hq, hlowers⟩ := exists_program hp
  have hroutines := (List.forall₂_and_left p.routines q.routines).mpr
    ⟨fun _ hmem => hmem, hlowers.routines⟩
  refine ⟨q, hq, hroutines.imp fun f g hfg hn turns invoke args w => ?_, fun hn => ?_⟩
  · rw [hfg.2.run_eq hr (hp.routines f hfg.1) hn]
  · refine hroutines.imp fun f g hfg depth args w => ?_
    have heq : (fun turns => p.run r turns depth f args) = fun turns => q.run r turns depth g args :=
      funext fun turns => by rw [hlowers.run_eq hr hp hn hfg.1 hfg.2]
    rw [heq]
    exact ⟨fun _ => .rfl, .rfl, diverges_or_ends (fun n m => q.approximates_run r depth n m g args) w⟩

/-- The types of a program with one operator, which skips its second operand if the first is false. -/
def conjunction : Registry := oneOperator "&&" .andAlso

def turnOff : Bound.Program where
  globals := [switch 0, switch 1]
  initializer := ⟨default, Bound.initializerName, .absent, [], .builtin .void, default, []⟩
  functions := []
  script? := some ⟨default, Bound.scriptName, .absent, [], .builtin .void, default,
    [.whileLoop default
      (.binary default (.derived 1) (.symbol default (switch 0)) (.symbol default (switch 1))
        (.builtin .bool))
      (.eval ⟨default, .assign default (.symbol default (switch 0))
        (.literal default (.bool false) (.builtin .bool))⟩)]⟩

theorem conjunction_wellFormed : conjunction.WellFormed := oneOperator_wellFormed _ _

theorem turnOff_typed : turnOff.Typed conjunction False := by
  have hdeclared : ∀ n, (switch n).IsDeclared := fun n => ⟨n, rfl⟩
  refine ⟨?_, ?_, by simp [turnOff]⟩
  · simp only [turnOff, List.forall_mem_cons, List.not_mem_nil, false_implies, implies_true,
      and_true]
    exact ⟨⟨rfl, hdeclared 0, switch_declares (by decide) _⟩,
      ⟨rfl, hdeclared 1, switch_declares (by decide) _⟩⟩
  · simp only [turnOff, Bound.Program.routines, Option.toList, List.cons_append, List.nil_append,
      List.forall_mem_cons, List.not_mem_nil, false_implies, implies_true, and_true]
    refine ⟨⟨by simp, ⟨trivial, by simp⟩, trivial⟩, ⟨by simp, ⟨trivial, by simp⟩, ?_⟩⟩
    have hswitch : ∀ {n}, n < 2 → Bound.Expr.Typed ⟨conjunction, [switch 0, switch 1], [], False⟩
        (.symbol default (switch n)) := fun h => ⟨switch_declares h [], hdeclared _⟩
    refine ⟨⟨⟨⟨hswitch (by decide), hswitch (by decide), .andAlso, ⟨_, rfl⟩, by decide⟩, .inl rfl⟩,
      ⟨.inr rfl, hswitch (by decide), rfl, .inl rfl⟩⟩, trivial⟩

theorem flattening_keeps_meaning_turnOff :
    conjunction.WellFormed ∧ turnOff.Typed conjunction False ∧
      (∀ f ∈ turnOff.routines, Bound.noCompoundStmts f.body) ∧
      ∃ q, Program.ofBound conjunction turnOff = .ok q ∧
        ∀ f ∈ turnOff.routines, ∃ g ∈ q.routines, ∀ turns invoke args w,
          g.run conjunction turns invoke args w = f.run conjunction turns invoke args w := by
  obtain ⟨q, hq, hruns, -⟩ := flattening_keeps_meaning conjunction_wellFormed turnOff_typed
  have hn : ∀ f ∈ turnOff.routines, Bound.noCompoundStmts f.body := by
    simp [turnOff, Bound.Program.routines, Bound.noCompoundStmts, Bound.Stmt.NoCompound,
      Bound.Expr.NoCompound]
  refine ⟨conjunction_wellFormed, turnOff_typed, hn, q, hq, fun f hf => ?_⟩
  obtain ⟨g, hg, hrun⟩ := exists_left hruns.flip hf
  exact ⟨g, hg, hrun (hn f hf)⟩

end Flat
end TypedScript
