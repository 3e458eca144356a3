import TypedScript.Proofs.Execution.Frame

/-!
# More turns

A routine that ended with some number of turns ends in the same way with more of them. So what it does
with any number of turns is one outcome or none.
-/

namespace TypedScript
namespace Execution

/-- One computation does what another does, or ran out of turns before. -/
def Approximates {α σ : Type} (m m' : EStateM Halt σ α) : Prop :=
  ∀ s, (∃ s', m s = .error .unfinished s') ∨ m s = m' s

namespace Approximates

variable {α β σ : Type}

theorem refl (m : EStateM Halt σ α) : Approximates m m := fun _ => .inr rfl

theorem bind {m m' : EStateM Halt σ α} {f f' : α → EStateM Halt σ β} (hm : Approximates m m')
    (hf : ∀ a, Approximates (f a) (f' a)) : Approximates (m >>= f) (m' >>= f') := by
  intro s
  obtain ⟨s', hs'⟩ | heq := hm s
  · exact .inl ⟨s', bind_error hs'⟩
  · cases hrun : m' s with
    | ok a s' =>
      rw [bind_ok (heq.trans hrun), bind_ok hrun]
      exact hf a s'
    | error h s' =>
      rw [bind_error (heq.trans hrun), bind_error hrun]
      exact .inr rfl

theorem perform {e e' : Effect α} (h : Approximates e e') :
    Approximates (Execution.perform e) (Execution.perform e') := by
  intro s
  obtain ⟨w, hw⟩ | heq := h s.shared
  · exact .inl ⟨_, perform_error hw⟩
  · exact .inr (by simp only [Execution.perform, heq])

theorem activate {x x' : Environment} (hx : x'.registry = x.registry) {m m' : Run α}
    (h : Approximates m m') : Approximates (x.activate m) (x'.activate m') := by
  intro w
  simp only [Environment.activate, Environment.zero, hx]
  obtain ⟨s, hs⟩ | heq := h ⟨fun v => .zero (nameOf x.registry v.type), w⟩
  · exact .inl ⟨s.shared, by simp only [hs]⟩
  · exact .inr (by rw [heq])

end Approximates

def Serves (invoke invoke' : TypeId → List Value → Effect Value) : Prop :=
  ∀ callable args, Approximates (invoke callable args) (invoke' callable args)

theorem serves_callAt {F : Type} {r : Registry} {find? : TypeId → Option F} {name : F → String}
    {run run' : F → (TypeId → List Value → Effect Value) → List Value → Effect Value}
    (hrun : ∀ f {invoke invoke'}, Serves invoke invoke' → ∀ args,
      Approximates (run f invoke args) (run' f invoke' args)) (depth : Nat) (caller : String) :
    Serves (callAt r find? name run depth caller) (callAt r find? name run' depth caller) := by
  induction depth generalizing caller with
  | zero =>
    intro callable args
    unfold callAt
    exact .refl _
  | succ depth ih =>
    intro callable args
    unfold callAt
    split
    · exact hrun _ (ih _) args
    · exact .refl _

/-- What is done with some number of turns. -/
def Ends {α : Type} (run : Nat → Effect α) (w : Shared) (out : EStateM.Result Halt Shared α) : Prop :=
  (∃ turns, run turns w = out) ∧ ∀ w', out ≠ .error .unfinished w'

/-- No number of turns is enough. -/
def Diverges {α : Type} (run : Nat → Effect α) (w : Shared) : Prop :=
  ∀ turns, ∃ w', run turns w = .error .unfinished w'

/-- If more turns change nothing that has ended, there is one outcome or none. -/
theorem diverges_or_ends {α : Type} {run : Nat → Effect α}
    (h : ∀ n m, Approximates (run n) (run (n + m))) (w : Shared) :
    Diverges run w ∨ ∃! out, Ends run w out := by
  by_cases hd : Diverges run w
  · exact .inl hd
  · refine .inr ?_
    simp only [Diverges, not_forall, not_exists] at hd
    obtain ⟨n, hn⟩ := hd
    refine ⟨run n w, ⟨⟨n, rfl⟩, hn⟩, ?_⟩
    rintro _ ⟨⟨k, rfl⟩, hk⟩
    obtain ⟨w', hw'⟩ | heq := h n k w
    · exact absurd hw' (hn w')
    · obtain ⟨w', hw'⟩ | heq' := h k n w
      · exact absurd hw' (hk w')
      · rw [heq, heq', Nat.add_comm]

end Execution
namespace Flat

open Execution

section

variable {x : Environment} {invoke : TypeId → List Value → Effect Value}

mutual

theorem approximates_eval (h : Serves x.invoke invoke) : (e : Expr) →
    Approximates (eval x e) (eval ⟨x.registry, x.routine, x.args, invoke⟩ e)
  | .literal v t => .refl _
  | .symbol s => .refl _
  | .assign target value => by
    simp only [eval]
    exact (approximates_eval h value).bind fun v => .refl _
  | .assignElement array index t value => by
    simp only [eval]
    exact (approximates_eval h array).bind fun a => (approximates_eval h index).bind fun i =>
      (approximates_eval h value).bind fun v => .refl _
  | .binary op? operand left right t => by
    simp only [eval]
    exact (approximates_eval h left).bind fun a => (approximates_eval h right).bind fun b => .refl _
  | .unary op? operand t => by
    simp only [eval]
    exact (approximates_eval h operand).bind fun v => .refl _
  | .call callable args t => by
    simp only [eval]
    exact (approximates_evalAll h args).bind fun vs => (h callable vs).perform
  | .convert kind operand t => by
    simp only [eval]
    exact (approximates_eval h operand).bind fun v => .refl _
  | .index target index t => by
    simp only [eval]
    exact (approximates_eval h target).bind fun a => (approximates_eval h index).bind fun i => .refl _
  | .length target => by
    simp only [eval]
    exact (approximates_eval h target).bind fun a => .refl _
  | .newArray element size t => by
    simp only [eval]
    exact (approximates_eval h size).bind fun n => .refl _
  | .invalid => .refl _

theorem approximates_evalAll (h : Serves x.invoke invoke) : (es : List Expr) →
    Approximates (evalAll x es) (evalAll ⟨x.registry, x.routine, x.args, invoke⟩ es)
  | [] => .refl _
  | e :: rest => by
    simp only [evalAll]
    exact (approximates_eval h e).bind fun v => (approximates_evalAll h rest).bind fun vs => .refl _

end

theorem approximates_flow (h : Serves x.invoke invoke) (s : Stmt) :
    Approximates (s.flow x) (s.flow ⟨x.registry, x.routine, x.args, invoke⟩) := by
  cases s with
  | declare | label | jump => exact .refl _
  | eval e => exact (approximates_eval h e).bind fun v => .refl _
  | returnStmt value =>
    cases value with
    | none => exact .refl _
    | some e => exact (approximates_eval h e).bind fun v => .refl _
  | jumpIf e l => exact (approximates_eval h e).bind fun v => .refl _

theorem approximates_exec (h : Serves x.invoke invoke) (body : List Stmt) (n m : Nat) (ss : List Stmt) :
    Approximates (exec x body n ss)
      (exec ⟨x.registry, x.routine, x.args, invoke⟩ body (n + m) ss) := by
  -- a jump ahead leaves fewer statements, any other one leaves fewer turns
  induction n using Nat.strongRecOn generalizing ss with
  | ind n ihn =>
    induction hlen : ss.length using Nat.strongRecOn generalizing ss with
    | ind len ih =>
      subst hlen
      cases ss with
      | nil =>
        rw [exec, exec]
        exact .refl _
      | cons s rest =>
        rw [exec_cons, exec_cons]
        refine (approximates_flow h s).bind fun flow => ?_
        cases flow with
        | next => exact ih rest.length (by simp) rest rfl
        | done v => exact .refl _
        | jump l =>
          simp only [jumpTo]
          cases hafter : after l rest with
          | some rest' =>
            have hlt := length_after hafter
            exact ih rest'.length (by simp only [List.length_cons]; omega) rest' rfl
          | none =>
            cases after l body with
            | none => exact .refl _
            | some rest' =>
              cases n with
              | zero => exact fun s => .inl ⟨s, rfl⟩
              | succ n =>
                rw [Nat.add_right_comm]
                exact ihn n (Nat.lt_succ_self n) rest'

end

theorem Routine.approximates_run (r : Registry) (n m : Nat) (f : Routine)
    {invoke invoke' : TypeId → List Value → Effect Value} (h : Serves invoke invoke')
    (args : List Value) :
    Approximates (f.run r n invoke args) (f.run r (n + m) invoke' args) :=
  .activate rfl (approximates_exec h f.body n m f.body)

/-- What a routine of a flat program does with some turns it does with more. -/
theorem Program.approximates_run (p : Program) (r : Registry) (depth n m : Nat) (f : Routine)
    (args : List Value) :
    Approximates (p.run r n depth f args) (p.run r (n + m) depth f args) :=
  f.approximates_run r n m
    (serves_callAt (fun f _ _ h args => f.approximates_run r n m h args) depth f.name) args

end Flat
end TypedScript
