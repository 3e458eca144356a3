import TypedScript.Machine.Run
import TypedScript.Proofs.Machine.Moves

/-!
# The states of a machine

A machine that was loaded is called again and again: methods are invoked and the module is run, and each
call returns, faults or exits. Here are the states that it comes to on the way.
-/

namespace TypedScript

/-- The call that stopped for this has ended. -/
def Stop.Ends : Stop → Prop
  | fault _ | exit _ => True
  | crash _ | awaitInput | paused => False

namespace Action

theorem bind_eq_error {α β : Type} {a : Action α} {f : α → Action β} {m m' : Machine}
    {s : Stop} (h : (a >>= f) m = .error s m') :
    a m = .error s m' ∨ ∃ x m₁, a m = .ok x m₁ ∧ f x m₁ = .error s m' := by
  simp only [Bind.bind, EStateM.bind] at h
  split at h
  · exact .inr ⟨_, _, ‹_›, h⟩
  · cases h
    exact .inl ‹_›

variable {α : Type} {v : Invocation} {a : Action α} {m m' : Machine}

theorem settling_eq_ok {r : α} (h : settling v a m = .ok r m') : a m = .ok r m' := by
  unfold settling at h
  split at h
  · cases h
    assumption
  · cases h

theorem settling_eq_error {s : Stop} (h : settling v a m = .error s m') :
    ∃ m₁, a m = .error s m₁ ∧ m' = m₁.settle v s := by
  unfold settling at h
  split at h
  · cases h
  · cases h
    exact ⟨_, ‹_›, rfl⟩

/-- What has returned does so with more fuel as well. -/
theorem steps_of_le {v : Invocation} {fuel more : Nat} (hle : fuel ≤ more) {m m' : Machine}
    {r : Value} (h : steps v fuel m = .ok r m') : steps v more m = .ok r m' := by
  induction fuel generalizing m more with
  | zero => cases h
  | succ fuel ih =>
    cases more with
    | zero => exact absurd hle (by omega)
    | succ more =>
      unfold steps at h ⊢
      cases hstep : step v.depth m with
      | error stop m₁ =>
        rw [hstep] at h
        cases h
      | ok r? m₁ =>
        rw [hstep] at h
        cases r? with
        | none => exact ih (Nat.le_of_succ_le_succ hle) h
        | some w => exact h

theorem invoke_of_le {fuel more : Nat} (hle : fuel ≤ more) {k : Int} {args : List Value}
    {m m' : Machine} {r : Value} (h : invoke fuel k args m = .ok r m') :
    invoke more k args m = .ok r m' := by
  obtain ⟨v, m₁, hbegin, hresume⟩ := bind_eq_ok h
  have hsteps := steps_of_le hle (settling_eq_ok hresume)
  change EStateM.bind _ _ m = _
  rw [EStateM.bind, hbegin]
  dsimp only
  simp only [resume, settling, hsteps]

def states (v : Invocation) : Nat → Machine → List Machine
  | 0, _ => []
  | fuel + 1, m => m :: match step v.depth m with
    | .ok none m' => states v fuel m'
    | _ => []

end Action

def RunResult.succeeded : RunResult → Bool
  | .ended 0 none => true
  | _ => false

theorem RunResult.eq_of_succeeded {r : RunResult} (h : r.succeeded = true) : r = .ended 0 none := by
  unfold succeeded at h
  split at h
  · rfl
  · cases h

namespace Machine

def proceedStates (fuel : Nat) (current : Invocation) : List Int → Machine → List Machine
  | [], m => Action.states current fuel m
  | next :: rest, m => Action.states current fuel m ++
    match Action.resume current fuel m with
    | .ok _ m => match Action.begin next [] m with
      | .ok v m => proceedStates fuel v rest m
      | .error _ _ => []
    | .error _ _ => []

/-- The states before the steps of a run. -/
def runStates (fuel : Nat) (m : Machine) : List Machine :=
  if m.module.entry < 0 then []
  else
    let m := m.resetStatics
    let (first, rest) :=
      if m.module.initializer < 0 then (m.module.entry, [])
      else (m.module.initializer, [m.module.entry])
    match Action.begin first [] m with
    | .ok v m => proceedStates fuel v rest m
    | .error _ _ => []

/-- What becomes of a machine that is loaded and then called without a crash, provided that it meets a
condition before each step. In between, input comes, time goes by and output is taken away. An
invocation in progress is named. -/
inductive ReachedBy (P : Machine → Prop) (M : Module) (s : Settings) :
    Option Invocation → Machine → Prop
  | loaded {m : Machine} (h : load M s = .ok m) : ReachedBy P M s none m
  | supplied {v? : Option Invocation} {m : Machine} (h : ReachedBy P M s v? m) (input : Input)
    (clock : Clock) (generator : Generator) : ReachedBy P M s v? { m with input, clock, generator }
  | taken {v? : Option Invocation} {m : Machine} (h : ReachedBy P M s v? m) :
    ReachedBy P M s v? m.takeOutput.2
  | zeroed {m : Machine} (h : ReachedBy P M s none m) : ReachedBy P M s none m.resetStatics
  | begun {m m' : Machine} {method : Int} {args : List Value} {v : Invocation}
    (h : ReachedBy P M s none m) (hbegin : Action.begin method args m = .ok v m') :
    ReachedBy P M s (some v) m'
  | refused {m m' : Machine} {method : Int} {args : List Value} {stop : Stop}
    (h : ReachedBy P M s none m) (hbegin : Action.begin method args m = .error stop m')
    (hstop : stop.Ends) : ReachedBy P M s none m'
  | stepped {m m' : Machine} {v : Invocation} (h : ReachedBy P M s (some v) m) (hp : P m)
    (hstep : Action.step v.depth m = .ok none m') : ReachedBy P M s (some v) m'
  | returned {m m' : Machine} {v : Invocation} {r : Value} (h : ReachedBy P M s (some v) m) (hp : P m)
    (hstep : Action.step v.depth m = .ok (some r) m') : ReachedBy P M s none m'
  | stopped {m m' : Machine} {v : Invocation} {stop : Stop} (h : ReachedBy P M s (some v) m)
    (hp : P m) (hstep : Action.step v.depth m = .error stop m') (hstop : stop.Ends) :
    ReachedBy P M s none (m'.settle v stop)
  | awaiting {m m' : Machine} {v : Invocation} (h : ReachedBy P M s (some v) m) (hp : P m)
    (hstep : Action.step v.depth m = .error .awaitInput m') : ReachedBy P M s (some v) m'

/-- What becomes of a machine that is loaded and then called without a crash. -/
abbrev Reached (M : Module) (s : Settings) : Option Invocation → Machine → Prop :=
  ReachedBy (fun _ => True) M s

namespace ReachedBy

variable {P : Machine → Prop} {M : Module} {s : Settings} {v : Invocation} {m m' : Machine}

theorem returned_of_steps (h : ReachedBy P M s (some v) m) {fuel : Nat}
    (hp : ∀ m' ∈ Action.states v fuel m, P m') {r : Value} (hsteps : Action.steps v fuel m = .ok r m') :
    ReachedBy P M s none m' := by
  induction fuel generalizing m with
  | zero => cases hsteps
  | succ fuel ih =>
    unfold Action.steps at hsteps
    rw [Action.states, List.forall_mem_cons] at hp
    cases hstep : Action.step v.depth m with
    | error stop m₁ =>
      rw [hstep] at hsteps
      cases hsteps
    | ok r? m₁ =>
      rw [hstep] at hsteps hp
      cases r? with
      | none => exact ih (h.stepped hp.1 hstep) hp.2 hsteps
      | some w =>
        cases hsteps
        exact h.returned hp.1 hstep

theorem stopped_of_steps (h : ReachedBy P M s (some v) m) {fuel : Nat}
    (hp : ∀ m' ∈ Action.states v fuel m, P m') {stop : Stop}
    (hsteps : Action.steps v fuel m = .error stop m') (hstop : stop.Ends) :
    ReachedBy P M s none (m'.settle v stop) := by
  induction fuel generalizing m with
  | zero =>
    cases hsteps
    cases hstop
  | succ fuel ih =>
    unfold Action.steps at hsteps
    rw [Action.states, List.forall_mem_cons] at hp
    cases hstep : Action.step v.depth m with
    | error stop' m₁ =>
      rw [hstep] at hsteps
      cases hsteps
      exact h.stopped hp.1 hstep hstop
    | ok r? m₁ =>
      rw [hstep] at hsteps hp
      cases r? with
      | none => exact ih (h.stepped hp.1 hstep) hp.2 hsteps
      | some w => cases hsteps

theorem returned_of_resume (h : ReachedBy P M s (some v) m) {fuel : Nat}
    (hp : ∀ m' ∈ Action.states v fuel m, P m') {r : Value}
    (hresume : Action.resume v fuel m = .ok r m') : ReachedBy P M s none m' :=
  h.returned_of_steps hp (Action.settling_eq_ok hresume)

theorem stopped_of_resume (h : ReachedBy P M s (some v) m) {fuel : Nat}
    (hp : ∀ m' ∈ Action.states v fuel m, P m') {stop : Stop}
    (hresume : Action.resume v fuel m = .error stop m') (hstop : stop.Ends) :
    ReachedBy P M s none m' := by
  obtain ⟨m₁, hsteps, rfl⟩ := Action.settling_eq_error hresume
  exact h.stopped_of_steps hp hsteps hstop

theorem ends_of_ofStop {current : Invocation} {rest : List Int} {stop : Stop} {code : Int}
    {fault? : Option RuntimeFault} (h : RunResult.ofStop current rest stop = .ended code fault?) :
    stop.Ends := by
  cases stop with
  | fault | exit => exact trivial
  | crash | awaitInput | paused => cases h

theorem ended_of_proceed {v : Invocation} (h : ReachedBy P M s (some v) m) {fuel : Nat}
    {rest : List Int} (hp : ∀ m' ∈ m.proceedStates fuel v rest, P m') {code : Int}
    {fault? : Option RuntimeFault} {m' : Machine}
    (hproceed : m.proceed fuel v rest = (.ended code fault?, m')) : ReachedBy P M s none m' := by
  induction rest generalizing m v with
  | nil =>
    unfold Machine.proceed at hproceed
    cases hresume : Action.resume v fuel m with
    | ok r m₁ =>
      rw [hresume] at hproceed
      cases hproceed
      exact h.returned_of_resume hp hresume
    | error stop m₁ =>
      rw [hresume] at hproceed
      obtain ⟨hstop, rfl⟩ := Prod.mk.inj hproceed
      exact h.stopped_of_resume hp hresume (ends_of_ofStop hstop)
  | cons next rest ih =>
    unfold Machine.proceed at hproceed
    rw [proceedStates, List.forall_mem_append] at hp
    cases hresume : Action.resume v fuel m with
    | error stop m₁ =>
      rw [hresume] at hproceed
      obtain ⟨hstop, rfl⟩ := Prod.mk.inj hproceed
      exact h.stopped_of_resume hp.1 hresume (ends_of_ofStop hstop)
    | ok r m₁ =>
      rw [hresume] at hproceed hp
      dsimp only at hproceed hp
      have h₁ : ReachedBy P M s none m₁ := h.returned_of_resume hp.1 hresume
      cases hbegin : Action.begin next [] m₁ with
      | ok v' m₂ =>
        rw [hbegin] at hproceed hp
        exact ih (h₁.begun hbegin) hp.2 hproceed
      | error stop m₂ =>
        rw [hbegin] at hproceed
        obtain ⟨hstop, rfl⟩ := Prod.mk.inj hproceed
        exact h₁.refused hbegin (ends_of_ofStop hstop)

/-- A run that ends leads to a state that a machine comes to. -/
theorem ended_of_run (h : ReachedBy P M s none m) {fuel : Nat} (hp : ∀ m' ∈ m.runStates fuel, P m')
    {code : Int} {fault? : Option RuntimeFault} {m' : Machine}
    (hrun : m.run fuel = (.ended code fault?, m')) : ReachedBy P M s none m' := by
  unfold Machine.run at hrun
  unfold runStates at hp
  by_cases hentry : m.module.entry < 0
  · rw [if_pos hentry] at hrun
    obtain ⟨-, rfl⟩ := Prod.mk.inj hrun
    exact h
  · rw [if_neg hentry] at hrun hp
    dsimp only at hrun hp
    generalize (if m.resetStatics.module.initializer < 0 then (m.resetStatics.module.entry, [])
      else (m.resetStatics.module.initializer, [m.resetStatics.module.entry])) = start at hrun hp
    cases hbegin : Action.begin start.1 [] m.resetStatics with
    | ok v m₁ =>
      rw [hbegin] at hrun hp
      exact ended_of_proceed (h.zeroed.begun hbegin) hp hrun
    | error stop m₁ =>
      rw [hbegin] at hrun
      obtain ⟨hstop, rfl⟩ := Prod.mk.inj hrun
      exact h.zeroed.refused hbegin (ends_of_ofStop hstop)

end ReachedBy

namespace Reached

variable {M : Module} {s : Settings} {m : Machine}

theorem returned_of_invoke (h : Reached M s none m) {fuel : Nat} {method : Int} {args : List Value}
    {r : Value} {m' : Machine} (hinvoke : Action.invoke fuel method args m = .ok r m') :
    Reached M s none m' := by
  obtain ⟨v, m₁, hbegin, hresume⟩ := Action.bind_eq_ok hinvoke
  exact (h.begun hbegin).returned_of_resume (fun _ _ => trivial) hresume

theorem stopped_of_invoke (h : Reached M s none m) {fuel : Nat} {method : Int} {args : List Value}
    {stop : Stop} {m' : Machine} (hinvoke : Action.invoke fuel method args m = .error stop m')
    (hstop : stop.Ends) : Reached M s none m' := by
  obtain hbegin | ⟨v, m₁, hbegin, hresume⟩ := Action.bind_eq_error hinvoke
  · exact h.refused hbegin hstop
  · exact (h.begun hbegin).stopped_of_resume (fun _ _ => trivial) hresume hstop

end Reached
end Machine
end TypedScript
