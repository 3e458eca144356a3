import TypedScript.Proofs.Execution.Turns
import TypedScript.Proofs.Machine.Soundness
import TypedScript.Proofs.Refinement.Routines

/-!
# The code of programs

A call reaches the method of the function that it is a call of, or a routine of the machine.
-/

namespace TypedScript

open Emission Execution Machine

namespace Generated

variable {r : Registry} {p : Flat.Program} {M : Module} (h : Generated r p M)

include h

/-- A function is the only routine with its callable. -/
theorem callable_injective {k k' : Nat} {g g' : Flat.Routine} (hg : p.routines[k]? = some g)
    (hg' : p.routines[k']? = some g') (hdefined : g.callable ≠ .absent)
    (heq : g'.callable = g.callable) : k' = k := by
  have hfunction : ∀ {k : Nat} {g : Flat.Routine}, p.routines[k]? = some g → g.callable ≠ .absent →
      ∃ i, k = i + 1 ∧ (p.functions.map Flat.Routine.callable)[i]? = some g.callable := by
    intro k g hg hdefined
    cases k with
    | zero =>
      obtain rfl := Option.some.inj hg
      exact absurd h.identified.initializer.1 hdefined
    | succ i =>
      refine ⟨i, rfl, ?_⟩
      have hi : (p.functions ++ p.script?.toList)[i]? = some g := hg
      by_cases hlt : i < p.functions.length
      · rw [List.getElem?_append_left hlt] at hi
        simp [hi]
      · rw [List.getElem?_append_right (Nat.le_of_not_lt hlt)] at hi
        have hscript := List.mem_of_getElem? hi
        exact absurd (h.identified.script g (by simpa using hscript)).1 hdefined
  obtain ⟨i, rfl, hi⟩ := hfunction hg hdefined
  obtain ⟨j, rfl, hj⟩ := hfunction hg' (by rw [heq]; exact hdefined)
  rw [heq] at hj
  have hlt := (List.getElem?_eq_some_iff.mp hi).1
  rw [(List.getElem?_inj hlt h.identified.nodup).mp (hi.trans hj.symm)]

omit h in
/-- The routine that a method in the table of methods executes. -/
theorem exists_function {callable : TypeId} {m : TypeId × Nat}
    (hm : ((contextOf r p).methods.find? fun m => m.1 = callable) = some m) :
    ∃ g, p.routines[m.2]? = some g ∧ g.callable = callable ∧ callable ≠ .absent := by
  have hkey : m.1 = callable := by simpa using List.find?_some hm
  obtain ⟨hmem, hdefined⟩ := List.mem_filter.mp (List.mem_of_find?_eq_some hm)
  have hindex := List.mem_zipIdx_iff_getElem?.mp hmem
  rw [List.getElem?_map, Option.map_eq_some_iff] at hindex
  obtain ⟨g, hg, hcallable⟩ := hindex
  exact ⟨g, hg, hcallable.trans hkey, by rw [← hkey]; simpa using hdefined⟩

/-- The method of a function is found by its callable. -/
theorem find?_method {k : Nat} {g : Flat.Routine} (hg : p.routines[k]? = some g)
    (hdefined : g.callable ≠ .absent) :
    ((contextOf r p).methods.find? fun m => m.1 = g.callable) = some (g.callable, k) := by
  have hmem : (g.callable, k) ∈ (contextOf r p).methods := by
    refine List.mem_filter.mpr ⟨List.mem_zipIdx_iff_getElem?.mpr ?_, by simpa using hdefined⟩
    simp [hg]
  obtain ⟨m, hm⟩ : ∃ m, ((contextOf r p).methods.find? fun m => m.1 = g.callable) = some m := by
    rw [← Option.isSome_iff_exists, List.find?_isSome]
    exact ⟨_, hmem, by simp⟩
  have hkey : m.1 = g.callable := by simpa using List.find?_some hm
  obtain ⟨g', hg', hcallable, -⟩ := exists_function hm
  have hk := h.callable_injective hg hg' hdefined hcallable
  rw [hm, ← hkey, ← hk]

/-- The function that a callable stands for. -/
theorem function?_eq {k : Nat} {g : Flat.Routine} (hg : p.routines[k]? = some g)
    (hdefined : g.callable ≠ .absent) : p.function? g.callable = some g := by
  obtain ⟨g', hg'⟩ : ∃ g', p.function? g.callable = some g' := by
    rw [← Option.isSome_iff_exists, Flat.Program.function?, List.find?_isSome]
    exact ⟨g, List.mem_of_getElem? hg, by simp [hdefined]⟩
  obtain ⟨k', hk'⟩ := List.getElem?_of_mem (List.mem_of_find?_eq_some hg')
  have hcallable : g'.callable = g.callable := by
    have hfound := List.find?_some hg'
    simp only [Bool.and_eq_true, decide_eq_true_eq] at hfound
    exact hfound.1
  obtain rfl := h.callable_injective hg hk' hdefined hcallable
  rw [hg', ← hk', hg]

/-- What is called is no function. -/
theorem function?_eq_none {callable : TypeId}
    (hnone : ((contextOf r p).methods.find? fun m => m.1 = callable) = none) :
    p.function? callable = none := by
  cases hfound : p.function? callable with
  | none => rfl
  | some g =>
    have hg := List.find?_some hfound
    simp only [Bool.and_eq_true, decide_eq_true_eq] at hg
    obtain ⟨rfl, hdefined⟩ := hg
    obtain ⟨k, hk⟩ := List.getElem?_of_mem (List.mem_of_find?_eq_some hfound)
    rw [h.find?_method hk (by simpa using hdefined)] at hnone
    cases hnone

/-- Each routine has its method. -/
theorem exists_layout {k : Nat} {g : Flat.Routine} (hg : p.routines[k]? = some g) :
    ∃ l : Layout r p M, l.routine = g ∧ l.index = k := by
  obtain ⟨f, hf, hmethod, himplements⟩ := h.exists_method hg
  obtain ⟨locals, lines, d, hslots, hcode, hd, rfl⟩ := himplements
  obtain ⟨hparams, hresult⟩ := methodOf_eq_ok hd
  have hname : d.name = g.name := by
    obtain ⟨_, -, hd⟩ := exists_of_bind_eq_ok hd
    obtain ⟨_, -, hd⟩ := exists_of_bind_eq_ok hd
    obtain rfl := Except.ok.inj hd
    rfl
  exact ⟨⟨g, k, _, locals, lines, ⟨h, List.mem_of_getElem? hg, hmethod, hslots, hparams, hresult, rfl⟩,
    hname, hf, hcode, rfl⟩, rfl, rfl⟩

end Generated

namespace Scene

variable {r : Registry} {p : Flat.Program} {M : Module} {c : Scene r p M} {turns : Nat}

/-- The locals of a method start with the zeros of the variables. -/
theorem keeps_zeros (c : Scene r p M) (invoke : TypeId → List Value → Effect Value) :
    c.Keeps (fun sym => (c.environment invoke).zero sym.type)
      (c.method.locals.toList.map fun slot => .zero slot.type) := by
  have htyped := c.holds.generated.typed.routines _ c.holds.routine
  refine ⟨by simp [c.holds.locals], fun i sym slot hslot hmem => ?_⟩
  have hsym := htyped.body.declares sym hmem
  obtain ⟨n, hn⟩ := exists_typeName c.holds.generated.wellFormed hsym.isType hsym.error
  obtain ⟨hlocal, rfl, -⟩ := c.holds.slot_type hslot hmem hn
  have hzero : (c.environment invoke).zero sym.type = .zero slot.type := by
    rw [← nameOf_eq hn]
    rfl
  rw [List.getElem?_map, Array.getElem?_toList, hlocal]
  exact congrArg some hzero.symm

/-- A call that was just made is at the first statement, with zeros in its variables. -/
theorem stands_entered (c : Scene r p M) (invoke : TypeId → List Value → Effect Value) {σ : Shared}
    {w : Machine} (hmirrors : Mirrors r p M σ w) (hcalls : w.calls = c.callers)
    (hlimit : w.maxDepth = c.limit) :
    c.Stands ⟨fun sym => (c.environment invoke).zero sym.type, σ⟩ 0 []
      { w with calls := ⟨c.index, 0, (c.args.reverse ++ c.below).length - c.method.params.size⟩ :: w.calls }
      (Action.zeros c.method ++ (c.args.reverse ++ c.below)) := by
  refine ⟨hmirrors.calls _, ?_, hlimit, _, c.keeps_zeros invoke, ?_⟩
  · rw [hcalls, activation, c.params_size]
    simp
  · simp [frame, Action.zeros]

/-- The machine follows a computation of a routine from its call on, and then the caller goes on with
the value. -/
theorem follows_activate {callee : Scene r p M} {invoke : TypeId → List Value → Effect Value}
    {σ : State} {w : Machine} {s : List Value} {Q : Value → State → Machine → List Value → Prop}
    (hcallee : Follows r p M callee.depth turns callee.Returns w s
      (Flat.exec (callee.environment invoke) callee.routine.body turns callee.routine.body
        ⟨fun sym => (callee.environment invoke).zero sym.type, σ.shared⟩))
    (hnested : callee.callers.length ≠ callee.depth)
    (hreturn : ∀ v σ' w', w'.calls = callee.callers → w'.maxDepth = callee.limit →
      Mirrors r p M σ' w' →
      Q v { σ with shared := σ' } w' (valued callee.routine.result v callee.below)) :
    Follows r p M callee.depth turns Q w s
      (perform (callee.routine.run r turns invoke callee.args) σ) := by
  have hrun : callee.routine.run r turns invoke callee.args = (callee.environment invoke).activate
      (Flat.exec (callee.environment invoke) callee.routine.body turns callee.routine.body) := rfl
  rw [hrun, perform, Environment.activate]
  generalize Flat.exec (callee.environment invoke) callee.routine.body turns callee.routine.body
    ⟨fun sym => (callee.environment invoke).zero sym.type, σ.shared⟩ = out at hcallee ⊢
  cases hcallee with
  | ok hleads hreturns =>
    obtain ⟨w', hstep, hcalls, hlimit, hmirrors⟩ := hreturns
    rw [if_neg hnested, if_neg hnested] at hstep
    exact .ok (hleads.trans (.single hstep)) (hreturn _ _ w' hcalls hlimit hmirrors)
  | stop hleads hstop hhalt hmirrors => exact .stop hleads hstop hhalt hmirrors
  | unfinished hle hleads => exact .unfinished hle hleads

/-- How many calls may still be nested in a call. -/
def room (c : Scene r p M) : Nat := (c.limit - (c.callers.length + 1)).toNat

/-- A routine of the machine is called. -/
theorem runs_native {room : Nat} {callable : TypeId} {t : TypeId} {ts : List TypeId} {key : String}
    {i : Nat} (hnone : ((contextOf r p).methods.find? fun m => m.1 = callable) = none)
    (hkey : r.libraryKey callable = .ok key) (hi : M.natives[i]? = some key)
    (hinvokes : r.Invokes callable ⟨t, ts⟩) {args : List Value} (hlength : args.length = ts.length)
    (ops : List Value) :
    c.Runs turns [plain .callNative i] (args.reverse ++ ops)
      (perform (p.call r turns room c.routine.name callable args)) fun v => valued t v ops := by
  have hg := c.holds.generated
  obtain ⟨key', n, hkey', hfind, hsig⟩ := hg.exists_routine hinvokes hnone
  obtain rfl := Except.ok.inj (hkey.symm.trans hkey')
  have hcall : p.call r turns room c.routine.name callable args =
      ofAction c.routine.name (Action.callRoutine key n args) := by
    rw [Flat.Program.call, callAt, hg.function?_eq_none hnone]
    simp only [hkey, callNative, hfind]
  have harity : args.length = n.arity := hlength.trans (Routine.arity_of_mem_signatures hsig).symm
  have hreturns := Routine.returns_of_mem_signatures hsig
  have hleft : ∀ (v : Value) (s : List Value),
      (if n.returns then v :: s else s) = (if n.returns then [v] else []) ++ s := by
    intro v s
    split <;> rfl
  have hvalued : (fun v => valued t v ops) = fun v => (if n.returns then [v] else []) ++ ops := by
    funext v
    rw [← hleft]
    by_cases hvoid : t = .builtin .void
    · rw [valued, if_pos hvoid, if_neg (by rw [hreturns]; simpa using hvoid)]
    · rw [valued, if_neg hvoid, if_pos (hreturns.mpr hvoid)]
  have his := Instruction.is_plain .callNative (lt_of_getElem? hi hg.small.natives)
  rw [hcall, hvalued]
  refine Runs.action args.reverse (fun v => if n.returns then [v] else []) his.operation (by decide)
    (by decide) (Action.Shares.callRoutine key n args) ?_ ?_
  · intro σ w hmirrors f s w' v hdoes
    rw [← hleft]
    exact Action.performs_callNative his.operand (hmirrors.exists_native hi hfind) harity hdoes
  · intro σ w hmirrors f s w' e hdoes
    exact Action.performs_callNative_error his.operand (hmirrors.exists_native hi hfind) harity hdoes

/-- A call that is nested too deep is a fault of the caller. -/
theorem runs_overflow {k : Nat} {g : Flat.Routine} (hk : p.routines[k]? = some g)
    (hdefined : g.callable ≠ .absent) (hroom : c.room = 0) (args ops : List Value)
    (out : Value → List Value) :
    c.Runs turns [plain .call k] ops (perform (p.call r turns 0 c.routine.name g.callable args))
      out := by
  have hg := c.holds.generated
  obtain ⟨l, rfl, rfl⟩ := hg.exists_layout hk
  have hcall : p.call r turns 0 c.routine.name l.routine.callable args =
      throw (.fault c.routine.name (.stackOverflow l.routine.name)) := by
    rw [Flat.Program.call, callAt, hg.function?_eq hk hdefined]
  have his := Instruction.is_plain .call
    (lt_of_getElem? (Option.join_eq_some_iff.mp l.found) hg.small.methods)
  rw [hcall]
  refine .instruction his.operation (by decide) (by decide) fun σ f n w s _ hstands => ?_
  have hdepth : w.maxDepth ≤ w.calls.length := by
    rw [hstands.limit, hstands.calls, List.length_cons]
    unfold room at hroom
    omega
  have hdoes := Action.performs_call (f := f) (g := c.method) his.operand
    (Action.does_enter_overflow (s := s) (by rw [hstands.mirrors.module]; exact l.found) hdepth)
  refine .inr ⟨_, σ, _, w, s, rfl, hdoes, ?_, hstands.mirrors⟩
  rw [hstands.halt_fault, l.name]
  rfl

/-- A function of the program is called, in which calls do what they should. -/
theorem runs_call {k room : Nat} {g : Flat.Routine} (hk : p.routines[k]? = some g)
    (hdefined : g.callable ≠ .absent) (hroom : c.room = room + 1)
    (hserves : ∀ callee : Scene r p M, callee.room = room →
      callee.Serves turns (p.call r turns room callee.routine.name))
    {args : List Value} (harity : args.length = g.params.length) (ops : List Value) :
    c.Runs turns [plain .call k] (args.reverse ++ ops)
      (perform (p.call r turns (room + 1) c.routine.name g.callable args))
      fun v => valued g.result v ops := by
  have hg := c.holds.generated
  obtain ⟨l, rfl, rfl⟩ := hg.exists_layout hk
  have hcall : p.call r turns (room + 1) c.routine.name l.routine.callable args =
      l.routine.run r turns (p.call r turns room l.routine.name) args := by
    rw [Flat.Program.call, callAt, hg.function?_eq hk hdefined]
    rfl
  rw [hcall]
  intro σ n w s hlies hstands
  have hat := hstands.at_instruction (hlies.getElem? rfl)
  have hnext := hstands.goto (n + 1)
  obtain ⟨vs, hkeeps, rfl⟩ := hstands.stack
  -- the frame of the caller is what is below the arguments of the callee
  let callee : Scene r p M :=
    { l with
      args, below := frame ops vs c.args c.below, callers := c.activation (n + 1) :: c.callers
      depth := c.depth, limit := c.limit, arity := harity, nested := Nat.le_succ_of_le c.nested }
  have hroom' : callee.room = room := by
    unfold Scene.room at hroom ⊢
    simp only [callee, List.length_cons]
    omega
  have his := Instruction.is_plain .call
    (lt_of_getElem? (Option.join_eq_some_iff.mp l.found) hg.small.methods)
  have hdepth : ((w.goto (n + 1 : Nat)).calls.length : Int) < (w.goto (n + 1 : Nat)).maxDepth := by
    rw [hnext.limit, hnext.calls, List.length_cons]
    unfold Scene.room at hroom
    omega
  have hentered := callee.stands_entered (p.call r turns room l.routine.name) hnext.mirrors hnext.calls
    hnext.limit
  have hframe : frame (args.reverse ++ ops) vs c.args c.below = callee.args.reverse ++ callee.below :=
    List.append_assoc _ _ _
  have hfound : (w.goto (n + 1 : Nat)).module.method? l.index = some l.method := by
    rw [hnext.mirrors.module]
    exact l.found
  have henter := Action.does_enter (s := callee.args.reverse ++ callee.below) hfound hdepth
  have hstep := Action.does_step hat c.depth his.operation (by decide) (by decide)
    (Action.performs_call his.operand henter)
  have hexec := follows_exec (hserves callee hroom') turns (Nat.le_refl _) _ callee.rests_body hentered
  rw [hframe]
  refine Follows.step hstep (follows_activate hexec ?_ ?_)
  · have hle := c.nested
    simp only [callee, List.length_cons]
    omega
  · intro v σ' w' hcalls hlimit hmirrors
    refine ⟨hmirrors, hcalls, hlimit, vs, hkeeps, ?_⟩
    by_cases hvoid : l.routine.result = .builtin .void
    · simp [callee, valued, hvoid]
    · simp [callee, valued, hvoid, frame]

/-- Calls of a program do what they should, as deep as they may be nested. -/
theorem serves_call (turns : Nat) (c : Scene r p M) :
    c.Serves turns (p.call r turns c.room c.routine.name) := by
  have hg := c.holds.generated
  generalize hroom : c.room = room
  induction room generalizing c with
  | zero =>
    intro callable t ts lines hcode hinvokes args ops hlength
    cases hcode with
    | @method m hm =>
      obtain ⟨g, hk, rfl, hdefined⟩ := Generated.exists_function hm
      exact runs_overflow hk hdefined hroom args _ _
    | @native key i hnone hkey hi => exact runs_native hnone hkey hi hinvokes hlength ops
  | succ room ih =>
    intro callable t ts lines hcode hinvokes args ops hlength
    cases hcode with
    | @method m hm =>
      obtain ⟨g, hk, rfl, hdefined⟩ := Generated.exists_function hm
      obtain ⟨group, hgroup⟩ := hinvokes
      obtain ⟨group', hgroup'⟩ := hg.typed.functions g (hg.mem_functions hk hdefined)
      rw [hgroup, Except.ok.injEq, Callable.mk.injEq] at hgroup'
      obtain ⟨-, rfl, rfl, -⟩ := hgroup'
      exact runs_call hk hdefined hroom (fun callee hroom => ih callee hroom)
        (by rw [hlength, List.length_map]) ops
    | @native key i hnone hkey hi => exact runs_native hnone hkey hi hinvokes hlength ops

end Scene
end TypedScript
