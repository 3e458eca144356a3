import TypedScript.Proofs.Machine.Parallel
import TypedScript.Proofs.Machine.Reached

/-!
# Machines can be used again

However a call ended, afterwards no call is in progress and the stack is empty, and a run gives what it
gives on a machine that was loaded just now.
-/

namespace TypedScript

namespace Machine

def Idle (m : Machine) : Prop := m.calls = [] ∧ m.top = 0

variable {M : Module} {depth : Int} {p : Past} {m n : Machine}

theorem later_none (n : Machine) : n.later .none n.cells = n := by
  have hid : (fun s : Array Value => s.map (Value.after .none)) = id :=
    funext fun s => by simp [show Value.after .none = id from funext Value.after_none]
  simp only [later, hid, id, Heap.after_none]
  simp [Past.none]

theorem resetStatics_later (n : Machine) (cells : Array Value) :
    (n.later p cells).resetStatics = n.resetStatics.later p cells := by
  simp [resetStatics, freshStatics, later]

namespace Alike

theorem self (h : Alike M depth p m n) : Alike M depth .none n n := by
  refine ⟨h.upright, (later_none n).symm, fun i hi => ?_, h.room.1, h.room.1⟩
  obtain ⟨v, hv, -⟩ := h.cells i hi
  exact ⟨v, hv, by rw [Value.after_none, hv]⟩

theorem reset (h : Alike M depth p m n) : Alike M depth p m.resetStatics n.resetStatics := by
  have hreset := h.update n.resetStatics rfl
  rwa [← resetStatics_later, ← h.eq] at hreset

/-- What is on the stack can be taken off. -/
theorem popMany (h : Alike M depth p m n) {k : Nat} (hk : (k : Int) ≤ n.top) :
    ∃ m' n', Action.popMany k m = .ok () m' ∧ Action.popMany k n = .ok () n' ∧
      Alike M depth p m' n' := by
  induction k generalizing m n with
  | zero => exact ⟨m, n, rfl, rfl, h⟩
  | succ k ih =>
    obtain ⟨v, m₁, n₁, hm, hn, h₁, htop, -⟩ := h.pop (by omega)
    obtain ⟨m₂, n₂, hm₂, hn₂, h₂⟩ := ih h₁ (by omega)
    refine ⟨m₂, n₂, ?_, ?_, h₂⟩
    · change (Action.pop >>= fun _ => Action.popMany k) m = _
      simp only [Bind.bind, EStateM.bind, hm, hm₂]
    · change (Action.pop >>= fun _ => Action.popMany k) n = _
      simp only [Bind.bind, EStateM.bind, hn, hn₂]

theorem unwind (h : Alike M depth p m n) {v : Invocation} (hv : 0 ≤ v.floor) :
    Alike M depth p (m.unwind v) (n.unwind v) ∧ (v = ⟨0, 0⟩ → (n.unwind v).Idle) := by
  have hdrop := h.drop (n.calls.length - v.depth)
  have hpos := h.upright.top
  obtain ⟨m', n', hm, hn, h'⟩ := hdrop.popMany (k := (n.top - v.floor).toNat) (by
    change _ ≤ n.top
    omega)
  rw [← h.top_eq] at hm
  have hm' : m.unwind v = m' := by
    unfold Machine.unwind lowerTo
    rw [h.calls_eq, hm]
  have hn' : n.unwind v = n' := by
    unfold Machine.unwind lowerTo
    rw [hn]
  rw [hm', hn']
  refine ⟨h', ?_⟩
  rintro rfl
  obtain ⟨htop, hcalls⟩ := Action.popMany_moves hn
  refine ⟨by rw [hcalls]; simp, ?_⟩
  rw [htop]
  dsimp only
  omega

theorem settle (h : Alike M depth p m n) {v : Invocation} (hv : 0 ≤ v.floor) (s : Stop) :
    Alike M depth p (m.settle v s) (n.settle v s) := by
  cases s with
  | fault | exit => exact (h.unwind hv).1
  | crash | awaitInput | paused => exact h

/-- A fault or an exit leaves nothing of the invocation. -/
theorem idle_of_settle (h : Alike M depth p m n) {s : Stop} (hends : s.Ends) :
    (n.settle ⟨0, 0⟩ s).Idle := by
  cases s with
  | fault | exit => exact (h.unwind (Int.le_refl 0)).2 rfl
  | crash | awaitInput | paused => cases hends

end Alike
end Machine

variable {M : Module} {depth : Int} {p : Past}

namespace Outcome

variable {α β : Type} {R : α → β → Prop} {m n : Machine}

theorem alike_of_ok {x : α} {y : β} (h : Outcome M depth p R (.ok x m) (.ok y n)) :
    m.Alike M depth p n := by
  cases h with
  | ok _ h => exact h

theorem alike_of_error {s s' : Stop} (hs : ∀ message?, s ≠ .crash message?)
    (h : Outcome M depth p R (.error s m) (.error s' n)) : m.Alike M depth p n := by
  cases h with
  | stop _ h => exact h
  | crash message? => exact absurd rfl (hs message?)

theorem settling {v : Invocation} (hv : 0 ≤ v.floor) {a : Action α} {b : Action β}
    (h : Outcome M depth p R (a m) (b n)) :
    Outcome M depth p R (Action.settling v a m) (Action.settling v b n) := by
  unfold Action.settling
  generalize a m = r at h
  generalize b n = r' at h
  cases h with
  | ok hxy h => exact .ok hxy h
  | stop s h => exact .stop s (h.settle hv s)
  | crash message? h => exact .crash message? h

end Outcome

/-- There is no fault in the look-up of a method: it is there or the machine crashes. -/
theorem Action.methodAt_eq_error {a : Int} {m m' : Machine} {s : Stop}
    (h : methodAt a m = .error s m') : ¬s.Ends := by
  obtain hget | ⟨m₁, m₂, -, hrest⟩ := bind_eq_error h
  · cases hget
  · obtain hentry | ⟨f?, m₃, -, hsome⟩ := bind_eq_error hrest
    · unfold entry at hentry
      split at hentry
      · cases hentry
        exact id
      · cases hf : m₁.module.methods[a.toNat]? with
        | none =>
          rw [hf] at hentry
          cases hentry
          exact id
        | some f? =>
          rw [hf] at hentry
          cases hentry
    · cases f? with
      | none =>
        cases hsome
        exact id
      | some f => cases hsome

namespace Machine
namespace Alike

variable {m n : Machine}

theorem steps (h : Alike M depth p m n) (v : Invocation) (fuel : Nat) :
    Outcome M depth p (Value.IsAfter p) (Action.steps v fuel m) (Action.steps v fuel n) := by
  induction fuel generalizing m n with
  | zero => exact .stop _ h
  | succ fuel ih =>
    have hstep := h.step v.depth
    unfold Action.steps
    generalize Action.step v.depth m = r at hstep
    generalize Action.step v.depth n = r' at hstep
    cases hstep with
    | @ok x y _ _ hxy h =>
      subst hxy
      cases y with
      | none => exact ih h
      | some w => exact .ok rfl h
    | stop s h => exact .stop s h
    | crash message? h => exact .crash message? h

theorem resume (h : Alike M depth p m n) {v : Invocation} (hv : 0 ≤ v.floor) (fuel : Nat) :
    Outcome M depth p (Value.IsAfter p) (Action.resume v fuel m) (Action.resume v fuel n) :=
  (h.steps v fuel).settling hv

/-- The outermost call begins at the bottom of the stack. -/
theorem enterWith (h : Alike M depth p m n) (hidle : n.Idle) {method : Int} {args : List Value}
    {f : Method} (hf : M.method? method.toNat = some f) (hcount : args.length = f.params.size) :
    Outcome M depth p Eq
      ((do (args.map (Value.after p)).forM Action.push; Action.enter method) m)
      ((do args.forM Action.push; Action.enter method) n) := by
  have hpush : Action.Tracks M depth p Eq ((args.map (Value.after p)).forM Action.push)
      (args.forM Action.push) := by
    refine Action.Tracks.forM (R := Value.IsAfter p) ?_ ?_
    · rw [List.forall₂_map_left_iff]
      exact List.forall₂_same.mpr fun _ _ => rfl
    · rintro _ v rfl
      exact Action.Tracks.push v
  refine (hpush m n h).bind ?_
  rintro _ _ m₁ n₁ hargs - h₁
  obtain ⟨htop, -⟩ := Action.pushAll_moves (f := id) hargs
  refine h₁.enter fun _ g hg => ?_
  obtain rfl := Option.some.inj (hf.symm.trans hg)
  rw [htop, hidle.2]
  omega

/-- The invocation of a machine on which nothing is in progress. -/
theorem begin (h : Alike M depth p m n) (hidle : n.Idle) (method : Int) (args : List Value) :
    Outcome M depth p (fun v w => v = ⟨0, 0⟩ ∧ w = ⟨0, 0⟩)
      (Action.begin method (args.map (Value.after p)) m) (Action.begin method args n) := by
  have hstatics : Action.Tracks M depth p Eq
      (modify fun m => if m.statics?.isNone then m.resetStatics else m)
      (modify fun m => if m.statics?.isNone then m.resetStatics else m) := by
    refine Action.Tracks.modify (fun n cells => ?_) fun n => by split <;> rfl
    have hnone : (n.later p cells).statics?.isNone = n.statics?.isNone := Option.isNone_map
    rw [hnone]
    split
    · exact resetStatics_later n cells
    · rfl
  refine (hstatics m n h).bind ?_
  rintro _ _ m₁ n₁ hmodify - h₁
  have hidle₁ : n₁.Idle := by
    obtain ⟨-, rfl⟩ := EStateM.Result.ok.inj hmodify
    dsimp only
    split
    · exact hidle
    · exact hidle
  refine (Action.Tracks.methodAt method m₁ n₁ h₁).bind ?_
  rintro f _ m₂ n₂ hmethod rfl h₂
  obtain ⟨hf, rfl⟩ := Action.methodAt_eq_ok hmethod
  rw [h₁.upright.module] at hf
  dsimp only
  rw [List.length_map]
  by_cases hcount : args.length ≠ f.params.size
  · rw [if_pos hcount, if_pos hcount]
    exact (Action.Tracks.throw (R := Eq) _ m₂ n₂ h₂).bind fun _ _ _ _ hnone => by cases hnone
  · rw [if_neg hcount, if_neg hcount]
    refine .get_bind ?_
    rw [h₂.calls_eq, h₂.top_eq, hidle₁.1, hidle₁.2]
    refine Outcome.bind (R := Eq) (Outcome.settling (Int.le_refl 0) ?_) ?_
    · exact h₂.enterWith hidle₁ hf (not_not.mp hcount)
    · rintro _ _ m₃ n₃ - - h₃
      exact .ok ⟨rfl, rfl⟩ h₃

/-- The outermost call takes all off the stack when it returns. -/
theorem idle_of_leave (h : Alike M depth p m n) {n' : Machine} (hleave : Action.leave n = .ok () n')
    (hcalls : n'.calls.length = 0) : n'.Idle := by
  obtain ⟨f, hf, htop⟩ := Action.leave_moves hleave
  have hnone : n'.calls = [] := List.length_eq_zero_iff.mp hcalls
  have hbase : f.base = 0 := h.upright.outermost f (by rw [hf, hnone]; rfl)
  refine ⟨hnone, ?_⟩
  rw [htop (by rw [hbase]; exact h.upright.top), hbase]

theorem idle_of_step (h : Alike M depth p m n) {n' : Machine} {r : Value}
    (hstep : Action.step 0 n = .ok (some r) n') : n'.Idle := by
  obtain ⟨⟨f, method, i⟩, n₁, hfetch, hstep⟩ := Action.bind_eq_ok hstep
  have h₁ : Alike M depth .none n₁ n₁ := by
    have hout := h.self.fetch
    rw [hfetch] at hout
    exact hout.alike_of_ok
  dsimp only at hstep
  cases hop : i.operation? with
  | none =>
    rw [hop] at hstep
    cases hstep
  | some op =>
    rw [hop] at hstep
    cases op with
    | ret =>
      obtain ⟨v, n₂, hpop, hstep⟩ := Action.bind_eq_ok hstep
      have h₂ : Alike M depth .none n₂ n₂ := by
        have hout := Action.Tracks.pop n₁ n₁ h₁
        rw [hpop] at hout
        exact hout.alike_of_ok
      obtain ⟨_, n₃, hleave, hstep⟩ := Action.bind_eq_ok hstep
      obtain ⟨n₄, n₅, hget, hstep⟩ := Action.bind_eq_ok hstep
      obtain ⟨rfl, rfl⟩ := EStateM.Result.ok.inj hget
      by_cases hcalls : n₃.calls.length = 0
      · rw [if_pos hcalls] at hstep
        cases hstep
        exact h₂.idle_of_leave hleave hcalls
      · rw [if_neg hcalls] at hstep
        obtain ⟨_, _, -, hstep⟩ := Action.bind_eq_ok hstep
        cases hstep
    | retVoid =>
      obtain ⟨_, n₃, hleave, hstep⟩ := Action.bind_eq_ok hstep
      obtain ⟨n₄, n₅, hget, hstep⟩ := Action.bind_eq_ok hstep
      obtain ⟨rfl, rfl⟩ := EStateM.Result.ok.inj hget
      by_cases hcalls : n₃.calls.length = 0
      · rw [if_pos hcalls] at hstep
        cases hstep
        exact h₁.idle_of_leave hleave hcalls
      · rw [if_neg hcalls] at hstep
        cases hstep
    | _ =>
      obtain ⟨_, _, -, hstep⟩ := Action.bind_eq_ok hstep
      cases hstep

theorem idle_of_steps (h : Alike M depth p m n) {n' : Machine} {fuel : Nat} {r : Value}
    (hsteps : Action.steps ⟨0, 0⟩ fuel n = .ok r n') : n'.Idle := by
  induction fuel generalizing n m p with
  | zero => cases hsteps
  | succ fuel ih =>
    have hout := h.self.step 0
    unfold Action.steps at hsteps
    cases hstep : Action.step 0 n with
    | error s n₁ =>
      rw [hstep] at hsteps
      cases hsteps
    | ok r? n₁ =>
      rw [hstep] at hsteps hout
      cases r? with
      | none => exact ih hout.alike_of_ok hsteps
      | some w =>
        cases hsteps
        exact h.idle_of_step hstep

theorem idle_of_begin (h : Alike M depth p m n) (hidle : n.Idle) {n' : Machine} {method : Int}
    {args : List Value} {s : Stop} (hbegin : Action.begin method args n = .error s n')
    (hends : s.Ends) : n'.Idle := by
  obtain hmodify | ⟨_, n₁, hmodify, hfound⟩ := Action.bind_eq_error hbegin
  · cases hmodify
  obtain ⟨h₁, hidle₁⟩ : Alike M depth .none n₁ n₁ ∧ n₁.Idle := by
    rw [← (EStateM.Result.ok.inj hmodify).2]
    dsimp only
    split
    · exact ⟨h.self.reset, hidle⟩
    · exact ⟨h.self, hidle⟩
  obtain hmethod | ⟨f, n₂, hmethod, hcounted⟩ := Action.bind_eq_error hfound
  · exact absurd hends (Action.methodAt_eq_error hmethod)
  obtain ⟨hf, rfl⟩ := Action.methodAt_eq_ok hmethod
  rw [h₁.upright.module] at hf
  dsimp only at hcounted
  by_cases hcount : args.length ≠ f.params.size
  · rw [if_pos hcount] at hcounted
    cases hcounted
    exact hidle₁
  · rw [if_neg hcount] at hcounted
    obtain hget | ⟨n₃, n₄, hget, hentered⟩ := Action.bind_eq_error hcounted
    · cases hget
    obtain ⟨rfl, rfl⟩ := EStateM.Result.ok.inj hget
    obtain hsettling | ⟨_, n₄, -, hpure⟩ := Action.bind_eq_error hentered
    · rw [hidle₁.1, hidle₁.2] at hsettling
      obtain ⟨n₄, henter, rfl⟩ := Action.settling_eq_error hsettling
      have h₄ : Alike M depth .none n₄ n₄ := by
        have hout := h₁.enterWith hidle₁ hf (not_not.mp hcount)
        rw [show args.map (Value.after .none) = args by
          simp [show Value.after .none = id from funext Value.after_none], henter] at hout
        refine hout.alike_of_error ?_
        rintro message? rfl
        exact hends
      exact h₄.idle_of_settle hends
    · cases hpure

end Alike

variable {m n : Machine}

theorem alike_of_load {s : Settings} (h : load M s = .ok m) : Alike M s.maxDepth .none m m ∧ m.Idle := by
  obtain ⟨hrange, hlinked, heq⟩ := load_eq_ok.mp h
  have hidle : m.Idle := by
    rw [heq]
    exact ⟨rfl, rfl⟩
  have hroom : 0 < m.cells.size := by
    rw [heq]
    simp [firstCells]
  have hmodule : m.module = M := by rw [heq]
  refine ⟨⟨⟨hmodule, hrange, hlinked, by rw [heq], ?_, hidle.2.ge, ?_⟩, (later_none m).symm, ?_,
    hroom, hroom⟩, hidle⟩
  · rw [hidle.1]
    exact le_max_right _ _
  · intro f hf
    rw [hidle.1] at hf
    cases hf
  · rintro i (hi | ⟨f, hf, -⟩)
    · rw [hidle.2] at hi
      omega
    · rw [hidle.1] at hf
      cases hf

/-- What is in progress was begun when nothing was. -/
theorem ReachedBy.alike {P : Machine → Prop} {s : Settings} {v? : Option Invocation}
    (h : ReachedBy P M s v? m) :
    Alike M s.maxDepth .none m m ∧ (v? = none → m.Idle) ∧ ∀ v, v? = some v → v = ⟨0, 0⟩ := by
  induction h with
  | loaded h => exact ⟨(alike_of_load h).1, fun _ => (alike_of_load h).2, by simp⟩
  | supplied h input clock generator ih =>
    obtain ⟨halike, hidle, hv⟩ := ih
    exact ⟨(halike.update _ rfl).self, hidle, hv⟩
  | taken h ih =>
    obtain ⟨halike, hidle, hv⟩ := ih
    exact ⟨(halike.update _ rfl).self, hidle, hv⟩
  | zeroed h ih =>
    obtain ⟨halike, hidle, hv⟩ := ih
    exact ⟨halike.reset, hidle, hv⟩
  | @begun m m' method args v h hbegin ih =>
    obtain ⟨halike, hidle, -⟩ := ih
    have hout := halike.begin (hidle rfl) method args
    rw [show args.map (Value.after .none) = args by
      simp [show Value.after .none = id from funext Value.after_none], hbegin] at hout
    cases hout with
    | ok hv halike => exact ⟨halike, by simp, by simpa using hv.1⟩
  | @refused m m' method args stop h hbegin hstop ih =>
    obtain ⟨halike, hidle, -⟩ := ih
    have hout := halike.begin (hidle rfl) method args
    rw [show args.map (Value.after .none) = args by
      simp [show Value.after .none = id from funext Value.after_none], hbegin] at hout
    refine ⟨hout.alike_of_error ?_, fun _ => halike.idle_of_begin (hidle rfl) hbegin hstop, by simp⟩
    rintro message? rfl
    exact hstop
  | @stepped m m' v h _ hstep ih =>
    obtain ⟨halike, -, hv⟩ := ih
    have hout := halike.step v.depth
    rw [hstep] at hout
    exact ⟨hout.alike_of_ok, by simp, hv⟩
  | @returned m m' v r h _ hstep ih =>
    obtain ⟨halike, -, hv⟩ := ih
    have hout := halike.step v.depth
    rw [hstep] at hout
    rw [hv v rfl] at hstep
    exact ⟨hout.alike_of_ok, fun _ => halike.idle_of_step hstep, by simp⟩
  | @stopped m m' v stop h _ hstep hstop ih =>
    obtain ⟨halike, -, hv⟩ := ih
    obtain rfl := hv v rfl
    have hout := halike.step 0
    rw [hstep] at hout
    have halike' := hout.alike_of_error (by rintro message? rfl; exact hstop)
    exact ⟨halike'.settle (Int.le_refl 0) stop, fun _ => halike'.idle_of_settle hstop, by simp⟩
  | @awaiting m m' v h _ hstep ih =>
    obtain ⟨halike, -, hv⟩ := ih
    have hout := halike.step v.depth
    rw [hstep] at hout
    exact ⟨hout.alike_of_error (by simp), by simp, hv⟩

def SameRun (p : Past) (r s : RunResult × Machine) : Prop :=
  r.1 = s.1 ∧ r.2.output = p.output ++ s.2.output

theorem Alike.proceed (h : Alike M depth p m n) (fuel : Nat) (rest : List Int) :
    SameRun p (Machine.proceed fuel ⟨0, 0⟩ rest m) (Machine.proceed fuel ⟨0, 0⟩ rest n) := by
  induction rest generalizing m n with
  | nil =>
    have hout := h.resume (v := ⟨0, 0⟩) (Int.le_refl 0) fuel
    unfold Machine.proceed
    generalize Action.resume ⟨0, 0⟩ fuel m = r at hout
    generalize Action.resume ⟨0, 0⟩ fuel n = r' at hout
    cases hout with
    | ok _ h => exact ⟨rfl, h.output_eq⟩
    | stop s h => exact ⟨rfl, h.output_eq⟩
    | crash message? h => exact ⟨rfl, h⟩
  | cons next rest ih =>
    have hout := h.resume (v := ⟨0, 0⟩) (Int.le_refl 0) fuel
    unfold Machine.proceed
    generalize Action.resume ⟨0, 0⟩ fuel m = r at hout
    generalize hr' : Action.resume ⟨0, 0⟩ fuel n = r' at hout
    cases hout with
    | stop s h => exact ⟨rfl, h.output_eq⟩
    | crash message? h => exact ⟨rfl, h⟩
    | @ok _ _ m₁ n₁ _ h₁ =>
      have hbegin := h₁.begin (h.idle_of_steps (Action.settling_eq_ok hr')) next []
      rw [List.map_nil] at hbegin
      dsimp only
      generalize Action.begin next [] m₁ = r at hbegin
      generalize Action.begin next [] n₁ = r' at hbegin
      cases hbegin with
      | ok hv h =>
        obtain ⟨rfl, rfl⟩ := hv
        exact ih h
      | stop s h => exact ⟨rfl, h.output_eq⟩
      | crash message? h => exact ⟨rfl, h⟩

/-- A run sets all static fields to zero, so what they were does not matter. -/
theorem sameRun_of_reset (h : Alike M depth p m.resetStatics n.resetStatics) (hidle : n.Idle)
    (fuel : Nat) : SameRun p (m.run fuel) (n.run fuel) := by
  have hm : m.module = M := h.module_eq
  have hn : n.module = M := h.upright.module
  unfold Machine.run
  rw [hm, hn]
  by_cases hentry : M.entry < 0
  · rw [if_pos hentry, if_pos hentry]
    exact ⟨rfl, h.output_eq⟩
  · rw [if_neg hentry, if_neg hentry]
    dsimp only
    rw [h.module_eq, h.upright.module]
    generalize (if M.initializer < 0 then (M.entry, []) else (M.initializer, [M.entry])) = start
    have hbegin := h.begin hidle start.1 []
    rw [List.map_nil] at hbegin
    generalize Action.begin start.1 [] m.resetStatics = r at hbegin
    generalize Action.begin start.1 [] n.resetStatics = r' at hbegin
    cases hbegin with
    | ok hv h =>
      obtain ⟨rfl, rfl⟩ := hv
      exact h.proceed fuel start.2
    | stop s h => exact ⟨rfl, h.output_eq⟩
    | crash message? h => exact ⟨rfl, h⟩

namespace Reached

variable {s : Settings}

theorem exists_load {v? : Option Invocation} (h : Reached M s v? m) : ∃ new, load M s = .ok new := by
  induction h with
  | loaded h => exact ⟨_, h⟩
  | _ => assumption

/-- An idle machine with a new one that has the same input, clock and generator. -/
theorem alike_new (h : Reached M s none m) {new : Machine} (hnew : load M s = .ok new) :
    Alike M s.maxDepth ⟨m.heap, m.boxes, m.output⟩ m.resetStatics
      { new with
        input := m.input, clock := m.clock, generator := m.generator }.resetStatics := by
  obtain ⟨halike, hidle, -⟩ := h.alike
  obtain ⟨hcalls, htop⟩ := hidle rfl
  obtain ⟨hnewAlike, hnewIdle⟩ := alike_of_load hnew
  obtain ⟨-, -, heq⟩ := load_eq_ok.mp hnew
  have hup := (hnewAlike.update { new with
    input := m.input, clock := m.clock, generator := m.generator } rfl).reset.upright
  have hnatives : m.natives = new.natives := by
    have hlinked := halike.upright.linked.symm.trans hnewAlike.upright.linked
    exact Array.toList_inj.mp (Except.ok.inj hlinked)
  refine ⟨hup, ?_, ?_, hnewAlike.room.1, halike.room.1⟩
  · have hmodule := halike.upright.module
    have hdepth := halike.upright.maxDepth
    obtain ⟨M', natives, statics?, cells, top, calls, heap, boxes, input, output, clock, generator,
      depth⟩ := m
    dsimp only at hcalls htop hnatives hmodule hdepth
    subst hcalls htop hnatives hmodule hdepth
    rw [heq]
    simp [resetStatics, freshStatics, later, Heap.after]
  · rintro i (hi | ⟨f, hf, -⟩)
    · change (i : Int) < new.top at hi
      rw [hnewIdle.2] at hi
      omega
    · change f ∈ new.calls at hf
      rw [hnewIdle.1] at hf
      cases hf

/-- A machine can be used again after any call that did not crash: at no time are more calls in
progress than it allows; when a call has returned, faulted or exited nothing is in progress, the stack
is empty and it can be called again; and then a run ends as on a machine loaded just now that has the
same input, clock and generator, and writes the same after what was not yet taken of the output. -/
theorem reusable {v? : Option Invocation} (h : Reached M s v? m) :
    (m.calls.length : Int) ≤ max s.maxDepth 0 ∧
      (v? = none →
        (m.calls = [] ∧ m.top = 0) ∧
        (∀ fuel code fault? m', m.run fuel = (.ended code fault?, m') → Reached M s none m') ∧
        (∀ fuel method args r m', Action.invoke fuel method args m = .ok r m' →
          Reached M s none m') ∧
        (∀ fuel method args stop m', Action.invoke fuel method args m = .error stop m' →
          stop.Ends → Reached M s none m') ∧
        ∃ new, load M s = .ok new ∧ ∀ fuel,
          let again := m.run fuel
          let first := { new with
            input := m.input, clock := m.clock, generator := m.generator }.run fuel
          again.1 = first.1 ∧ again.2.output = m.output ++ first.2.output) := by
  refine ⟨h.alike.1.upright.calls, ?_⟩
  rintro rfl
  obtain ⟨new, hnew⟩ := h.exists_load
  exact ⟨h.alike.2.1 rfl, fun _ _ _ _ => h.ended_of_run fun _ _ => trivial,
    fun _ _ _ _ _ => h.returned_of_invoke,
    fun _ _ _ _ _ => h.stopped_of_invoke, new, hnew,
    sameRun_of_reset (h.alike_new hnew) (alike_of_load hnew).2⟩

/-- A method that leaves its local on the stack and calls itself. -/
def endless : Module :=
  { Module.empty "endless" with
    methods := #[some ⟨"f", #[], "void", #[⟨"x", "i32"⟩],
      #[⟨Operation.code .loadLocal, 0, 0⟩, ⟨Operation.code .call, 0, 0⟩,
        ⟨Operation.code .retVoid, 0, 0⟩]⟩]
    entry := 0 }

def faulted : RunResult → Option (Int × RuntimeFault)
  | .ended code (some f) => some (code, f)
  | _ => none

theorem eq_ended_of_faulted {r : RunResult} {code : Int} {f : RuntimeFault}
    (h : faulted r = some (code, f)) : r = .ended code (some f) := by
  unfold faulted at h
  split at h
  · cases h
    rfl
  · cases h

/-- After a stack overflow three calls deep the machine is as before. -/
theorem reusable_endless : ∃ m m', load endless ⟨⟨[], true⟩, 0, 3, 0⟩ = .ok m ∧
    m.run 9 = (.ended 1 (some ⟨"f", 1, .stackOverflow "f"⟩), m') ∧ m'.calls = [] ∧ m'.top = 0 ∧
      ∃ m'', m'.run 9 = (.ended 1 (some ⟨"f", 1, .stackOverflow "f"⟩), m'') := by
  have h : ((load endless ⟨⟨[], true⟩, 0, 3, 0⟩).toOption.any fun m =>
      faulted (m.run 9).1 = some (1, ⟨"f", 1, .stackOverflow "f"⟩) &&
        ((m.run 9).2.input = m.input && (m.run 9).2.clock = m.clock &&
          (m.run 9).2.generator = m.generator)) = true := by decide +kernel
  cases hload : load endless ⟨⟨[], true⟩, 0, 3, 0⟩ with
  | error fault =>
    rw [hload] at h
    cases h
  | ok m =>
    rw [hload] at h
    simp only [Except.toOption, Option.any_some, Bool.and_eq_true, decide_eq_true_eq] at h
    obtain ⟨hfault, ⟨hinput, hclock⟩, hgenerator⟩ := h
    have hrun : m.run 9 = (.ended 1 (some ⟨"f", 1, .stackOverflow "f"⟩), (m.run 9).2) :=
      Prod.ext (eq_ended_of_faulted hfault) rfl
    generalize (m.run 9).2 = m' at hrun hinput hclock hgenerator
    have hm := ((reusable (.loaded hload)).2 rfl).2.1 9 _ _ _ hrun
    obtain ⟨⟨hcalls, htop⟩, -, -, -, new, hnew, hsame⟩ := hm.reusable.2 rfl
    obtain rfl := Except.ok.inj (hload.symm.trans hnew)
    refine ⟨m, m', rfl, hrun, hcalls, htop, (m'.run 9).2, ?_⟩
    have hfirst := (hsame 9).1
    rw [hinput, hclock, hgenerator] at hfirst
    change _ = (m.run 9).1 at hfirst
    rw [hrun] at hfirst
    exact Prod.ext hfirst rfl

end Reached
end Machine
end TypedScript
