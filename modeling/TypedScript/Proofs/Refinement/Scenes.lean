import TypedScript.Proofs.Execution.Frame
import TypedScript.Proofs.Machine.Frames
import TypedScript.Machine.Run
import TypedScript.Proofs.Bytecode.Balance

/-!
# What programs share with the machine, and calls in progress

Global variables lie in static fields; arrays and streams are the same for a program and for the
machine that runs it. An action of the machine that looks at nothing else does the same on both.
-/

namespace TypedScript

namespace Machine

def sharing (m n : Machine) : Machine :=
  { m with
    heap := n.heap, boxes := n.boxes, input := n.input, output := n.output, clock := n.clock
    generator := n.generator }

@[simp] theorem cause_locate (m : Machine) (c : Cause) : (m.locate c).cause = c := by
  unfold locate
  cases m.calls <;> rfl

end Machine

def Stop.located (m : Machine) : Stop → Stop
  | .fault f => .fault (m.locate f.cause)
  | s => s

namespace Action

variable {α β : Type}

/-- An action looks at arrays and streams only; if it stops, it may change which instruction is next. -/
def Shares (a : Action α) : Prop := ∀ n,
  match a n with
  | .ok v n' => ∀ m : Machine, a (m.sharing n) = .ok v (m.sharing n')
  | .error e n' => ∃ g : List Activation → List Activation, ∀ m : Machine,
    a (m.sharing n) = .error (e.located m) (Machine.sharing { m with calls := g m.calls } n')

namespace Shares

theorem pure (x : α) : Shares (Pure.pure x) := fun _ _ => rfl

theorem throw_crash (message? : Option String) : Shares (throw (.crash message?) : Action α) :=
  fun _ => ⟨id, fun _ => rfl⟩

theorem throw_exit (code : Int) : Shares (throw (.exit code) : Action α) :=
  fun _ => ⟨id, fun _ => rfl⟩

theorem fail (c : Cause) : Shares (fail c : Action α) := fun n => ⟨id, fun m => by
  simp only [Stop.located, Machine.cause_locate]
  rfl⟩

theorem await : Shares (await : Action α) := by
  refine fun n => ⟨List.modifyHead fun f => { f with next := f.next - 1 }, fun m => ?_⟩
  obtain ⟨_, _, _, _, _, calls⟩ := m
  obtain ⟨_, _, _, _, _, calls'⟩ := n
  cases calls <;> cases calls' <;> rfl

theorem bind {a : Action α} {f : α → Action β} (ha : Shares a) (hf : ∀ x, Shares (f x)) :
    Shares (a >>= f) := by
  intro n
  have hfirst := ha n
  cases hrun : a n with
  | ok x n₁ =>
    rw [hrun] at hfirst
    have hstart : ∀ m : Machine, (a >>= f) (m.sharing n) = f x (m.sharing n₁) := fun m =>
      Execution.bind_ok (hfirst m)
    simp only [hstart, Execution.bind_ok hrun]
    exact hf x n₁
  | error e n₁ =>
    rw [hrun] at hfirst
    obtain ⟨g, hg⟩ := hfirst
    rw [Execution.bind_error hrun]
    exact ⟨g, fun m => Execution.bind_error (hg m)⟩

/-- What is looked up is shared. -/
theorem get_bind {f : Machine → Action α} (hsame : ∀ m n : Machine, f (m.sharing n) = f n)
    (hf : ∀ n, Shares (f n)) : Shares (get >>= f) := by
  intro n
  have hstart : ∀ m : Machine, (get >>= f) (m.sharing n) = f n (m.sharing n) := fun m =>
    congrFun (hsame m n) _
  have hself : (get >>= f) n = f n n := rfl
  simp only [hstart, hself]
  exact hf n n

/-- What is changed is shared. -/
theorem modify {f : Machine → Machine} (hf : ∀ m n : Machine, f (m.sharing n) = m.sharing (f n)) :
    Shares (modify f : Action Unit) := fun n m => congrArg (EStateM.Result.ok ()) (hf m n)

theorem text (v : Value) : Shares (text v) := by
  refine get_bind (fun _ _ => rfl) fun n => ?_
  cases v.format? n.heap with
  | none => exact throw_crash none
  | some s => exact pure s

theorem unbox (wanted : String) (v : Value) : Shares (unbox wanted v) := by
  cases v with
  | boxed id type content =>
    unfold Action.unbox
    dsimp only
    by_cases htype : type = wanted
    · rw [if_pos htype]
      exact pure content
    · rw [if_neg htype]
      exact fail _
  | _ => exact bind (text _) fun _ => fail _

theorem randomBits : Shares randomBits := fun _ _ => rfl

theorem randomBetween (key : String) (low high : Int64) :
    Shares (randomBetween key low high) := by
  unfold Action.randomBetween
  by_cases hempty : high < low
  · rw [if_pos hempty]
    exact fail _
  rw [if_neg hempty]
  by_cases hone : high = low
  · rw [if_pos hone]
    exact pure _
  rw [if_neg hone]
  by_cases hwide : high - low ≤ 0
  · rw [if_pos hwide]
    exact throw_crash _
  rw [if_neg hwide]
  exact bind randomBits fun _ => pure _

/-- A routine looks at nothing but its arguments, arrays and streams. -/
theorem callRoutine (key : String) (r : Routine) (args : List Value) :
    Shares (Action.callRoutine key r args) := by
  have hanswers := answers_callRoutine key r args
  generalize Action.callRoutine key r args = a at hanswers ⊢
  cases hanswers with
  | print line v => exact bind (text v) fun s => bind (modify fun _ _ => rfl) fun _ => pure _
  | newline => exact bind (modify fun _ _ => rfl) fun _ => pure _
  | input =>
    refine get_bind (fun _ _ => rfl) fun n => ?_
    cases n.input.line? with
    | none => exact await
    | some line => exact bind (modify fun _ _ => rfl) fun _ => pure _
  | random => exact bind randomBits fun _ => pure _
  | randomBetween low high => exact randomBetween key low high
  | exit code => exact throw_exit _
  | clock => exact get_bind (fun _ _ => rfl) fun n => bind (modify fun _ _ => rfl) fun _ => pure _
  | concat a b => exact bind (text a) fun _ => bind (text b) fun _ => pure _
  | toText v => exact bind (text v) fun _ => pure _
  | parse t s =>
    cases Value.parse? t s with
    | none => exact fail _
    | some v => exact pure v
  | abs | absFloat | sqrt | equalTexts | equalObjects => exact pure _
  | refused => exact throw_crash none

end Shares
end Action

open Execution

def Stop.halt : Stop → Halt
  | .fault f => .ofCause f.method f.cause
  | .exit code => .exit code
  | .crash message? => .crash message?
  | .awaitInput => .awaitInput
  | .paused => .unfinished

/-- A machine with the module of a program holds what the program shares. -/
structure Mirrors (r : Registry) (p : Flat.Program) (M : Module) (σ : Shared) (w : Machine) :
    Prop where
  module : w.module = M
  linked : M.linkNatives = .ok w.natives.toList
  heap : w.heap = σ.heap
  boxes : w.boxes = σ.boxes
  input : w.input = σ.input
  output : w.output = σ.output
  clock : w.clock = σ.clock
  generator : w.generator = σ.generator
  statics : ∃ statics, w.statics? = some statics ∧ ∀ s ∈ p.globals, ∀ i,
    Emission.staticOf (Emission.contextOf r p) s = .ok i → statics[i]? = some (σ.globals s)

namespace Mirrors

variable {r : Registry} {p : Flat.Program} {M : Module} {σ : Shared} {w w' : Machine}
  (h : Mirrors r p M σ w)

include h

theorem sharing_eq : w.sharing σ.machine = w := by
  simp only [Machine.sharing, Shared.machine, ← h.heap, ← h.boxes, ← h.input, ← h.output, ← h.clock,
    ← h.generator]

/-- Calls in progress do not matter, nor does the stack. -/
theorem calls (calls : List Activation) : Mirrors r p M σ { w with calls } :=
  ⟨h.module, h.linked, h.heap, h.boxes, h.input, h.output, h.clock, h.generator, h.statics⟩

theorem goto (next : Int) : Mirrors r p M σ (w.goto next) := h.calls _

theorem bare {m : Machine} (hm : m.bare = w.bare) : Mirrors r p M σ m := by
  obtain ⟨_, _, rfl⟩ := Machine.bare_eq_iff.mp hm
  exact ⟨h.module, h.linked, h.heap, h.boxes, h.input, h.output, h.clock, h.generator, h.statics⟩

/-- Arrays and streams change alike. -/
theorem update (n : Machine) : Mirrors r p M (σ.update n) (w.sharing n) :=
  ⟨h.module, h.linked, rfl, rfl, rfl, rfl, rfl, rfl, h.statics⟩

/-- The machine has what a key of the module stands for. -/
theorem exists_native {a : Nat} {key : String} (ha : M.natives[a]? = some key) {native : Native}
    (hfind : Native.find? key = some native) : w.natives[a]? = some native := by
  have hlinked := Module.linkNatives_eq_ok.mp h.linked
  rw [← Array.getElem?_toList] at ha
  obtain ⟨native', hnative, hfind'⟩ := exists_getElem?_right hlinked ha
  obtain rfl := Option.some.inj (hfind.symm.trans hfind')
  rwa [Array.getElem?_toList] at hnative

theorem items_eq : w.items = σ.machine.items := by
  funext ref
  simp only [Machine.items, h.heap]
  rfl

theorem element_eq (target index : Value) :
    w.element target index = σ.machine.element target index := by
  simp only [Machine.element, h.items_eq]

theorem place_eq (target index : Value) : w.place target index = σ.machine.place target index := by
  simp only [Machine.place, h.items_eq]

theorem length_eq (target : Value) : w.length target = σ.machine.length target := by
  cases target <;> simp only [Machine.length, h.items_eq]

/-- An action that looks at arrays and streams only ends as it does for the program. -/
theorem does_ok {α : Type} {a : Action α} (ha : a.Shares) {v : α} {n : Machine}
    (hrun : a σ.machine = .ok v n) (s : List Value) : a.Does w s (.ok v) (w.sharing n) s := by
  intro m hm
  have hshares := ha σ.machine
  rw [hrun] at hshares
  have heq := hshares m
  rw [(h.bare hm.same).sharing_eq] at heq
  obtain ⟨cells, top, rfl⟩ := hm.exists_eq
  exact ⟨_, heq, hm.congr rfl rfl rfl⟩

theorem does_error {α : Type} {a : Action α} (ha : a.Shares) {e : Stop} {n : Machine}
    (hrun : a σ.machine = .error e n) (s : List Value) :
    ∃ calls, a.Does w s (.error (e.located w)) (Machine.sharing { w with calls } n) s := by
  have hshares := ha σ.machine
  rw [hrun] at hshares
  obtain ⟨g, hg⟩ := hshares
  refine ⟨g w.calls, fun m hm => ?_⟩
  have heq := hg m
  rw [(h.bare hm.same).sharing_eq] at heq
  obtain ⟨cells, top, rfl⟩ := hm.exists_eq
  exact ⟨_, heq, hm.congr rfl rfl rfl⟩

end Mirrors

/-!
## Calls in progress

What it means that the machine follows a computation of a flat program: it comes to the same value or
to the same end, and as long as the program goes on, so does the machine. Code follows a computation if
the machine does so from the first of its instructions on; codes and computations are put together
alike.
-/

open Emission Execution

namespace Machine

/-- A number of steps leads from one state to another, and none of them ends the invocation. -/
inductive Leads (depth : Nat) : Nat → Machine → List Value → Machine → List Value → Prop
  | refl (w : Machine) (s : List Value) : Leads depth 0 w s w s
  | step {n : Nat} {w w₁ w₂ : Machine} {s s₁ s₂ : List Value} :
    (Action.step depth).Does w s (.ok none) w₁ s₁ → Leads depth n w₁ s₁ w₂ s₂ →
    Leads depth (n + 1) w s w₂ s₂

namespace Leads

variable {depth k n : Nat} {w w₁ w₂ : Machine} {s s₁ s₂ : List Value}

theorem trans (h : Leads depth k w s w₁ s₁) (h' : Leads depth n w₁ s₁ w₂ s₂) :
    Leads depth (k + n) w s w₂ s₂ := by
  induction h with
  | refl => simpa using h'
  | step hstep _ ih =>
    rw [Nat.add_right_comm]
    exact .step hstep (ih h')

theorem single (h : (Action.step depth).Does w s (.ok none) w₁ s₁) : Leads depth 1 w s w₁ s₁ :=
  .step h (.refl w₁ s₁)

/-- The steps of an invocation go this way. -/
theorem steps {v : Invocation} (h : Leads v.depth n w s w₁ s₁) {m : Machine} (hm : w.Stacked s m) :
    ∃ m', w₁.Stacked s₁ m' ∧ ∀ fuel, Action.steps v (n + fuel) m = Action.steps v fuel m' := by
  induction h generalizing m with
  | refl => exact ⟨m, hm, fun fuel => by rw [Nat.zero_add]⟩
  | @step n _ _ _ _ _ _ hstep _ ih =>
    obtain ⟨m₁, hrun, hm₁⟩ := hstep m hm
    obtain ⟨m', hm', hsteps⟩ := ih hm₁
    refine ⟨m', hm', fun fuel => ?_⟩
    have hrun' : Action.step v.depth m = .ok none m₁ := hrun
    rw [Nat.add_right_comm, Action.steps, hrun']
    exact hsteps fuel

end Leads
end Machine

open Machine

/-- The machine follows a computation, from one like `w` with `s` on its stack: it comes to a state
that `Q` tells of for the value, or it stops for the same reason with the same effects, or it takes as
many steps as the computation was given turns. -/
inductive Follows (r : Registry) (p : Flat.Program) (M : Module) (depth turns : Nat) {α : Type}
    (Q : α → State → Machine → List Value → Prop) (w : Machine) (s : List Value) :
    EStateM.Result Halt State α → Prop
  | ok {n : Nat} {a : α} {σ : State} {w' : Machine} {s' : List Value} :
    Leads depth n w s w' s' → Q a σ w' s' → Follows r p M depth turns Q w s (.ok a σ)
  | stop {n : Nat} {stop : Stop} {halt : Halt} {σ : State} {w₁ w' : Machine} {s₁ s' : List Value} :
    Leads depth n w s w₁ s₁ → (Action.step depth).Does w₁ s₁ (.error stop) w' s' →
    stop.halt = halt → Mirrors r p M σ.shared w' → Follows r p M depth turns Q w s (.error halt σ)
  | unfinished {n : Nat} {σ : State} {w' : Machine} {s' : List Value} :
    turns ≤ n → Leads depth n w s w' s' → Follows r p M depth turns Q w s (.error .unfinished σ)

namespace Follows

variable {r : Registry} {p : Flat.Program} {M : Module} {depth turns : Nat} {α β : Type}
  {Q : α → State → Machine → List Value → Prop} {w w₁ : Machine} {s s₁ : List Value}

/-- Steps that come before count as turns. -/
theorem before {n : Nat} (h : Leads depth n w s w₁ s₁) {out : EStateM.Result Halt State α}
    (hfollows : Follows r p M depth turns Q w₁ s₁ out) :
    Follows r p M depth (turns + n) Q w s out := by
  cases hfollows with
  | ok h' hq => exact .ok (h.trans h') hq
  | stop h' hstop hhalt hmirrors => exact .stop (h.trans h') hstop hhalt hmirrors
  | unfinished hle h' => exact .unfinished (by omega) (h.trans h')

theorem mono {fewer : Nat} (hle : fewer ≤ turns) {out : EStateM.Result Halt State α}
    (h : Follows r p M depth turns Q w s out) : Follows r p M depth fewer Q w s out := by
  cases h with
  | ok h' hq => exact .ok h' hq
  | stop h' hstop hhalt hmirrors => exact .stop h' hstop hhalt hmirrors
  | unfinished hle' h' => exact .unfinished (Nat.le_trans hle hle') h'

theorem step (h : (Action.step depth).Does w s (.ok none) w₁ s₁)
    {out : EStateM.Result Halt State α} (hfollows : Follows r p M depth turns Q w₁ s₁ out) :
    Follows r p M depth turns Q w s out :=
  (hfollows.before (.single h)).mono (Nat.le_succ turns)

theorem bind {m : Run α} {f : α → Run β} {Q' : β → State → Machine → List Value → Prop} {σ : State}
    (hm : Follows r p M depth turns Q w s (m σ))
    (hf : ∀ a σ' w' s', m σ = .ok a σ' → Q a σ' w' s' →
      Follows r p M depth turns Q' w' s' (f a σ')) :
    Follows r p M depth turns Q' w s ((m >>= f) σ) := by
  cases hrun : m σ with
  | ok a σ' =>
    rw [hrun] at hm
    rw [bind_ok hrun]
    cases hm with
    | ok h hq => exact ((hf a σ' _ _ hrun hq).before h).mono (Nat.le_add_right _ _)
  | error k σ' =>
    rw [hrun] at hm
    rw [bind_error hrun]
    cases hm with
    | stop h hstop hhalt hmirrors => exact .stop h hstop hhalt hmirrors
    | unfinished hle h => exact .unfinished hle h

end Follows

/-- The method that executes a routine, with the slots of its variables and the lines of its code. -/
structure Layout (r : Registry) (p : Flat.Program) (M : Module) where
  routine : Flat.Routine
  index : Nat
  method : Method
  slots : Array (SymbolId × Slot)
  lines : List CodeLine
  holds : Holds r p M routine slots method
  name : method.name = routine.name
  found : M.method? index = some method
  body : BodyCode (contextOf r p) (· ∈ Flat.symbolsOf routine.body) ⟨M, slots⟩ routine.body lines
  code : method.code = (instructions lines).toArray

/-- A call in progress: its arguments, what is below them on the stack, and the calls that wait for it,
in an invocation that found `depth` calls in progress and where no more than `limit` may be nested. -/
structure Scene (r : Registry) (p : Flat.Program) (M : Module) extends Layout r p M where
  args : List Value
  below : List Value
  callers : List Activation
  depth : Nat
  limit : Int
  arity : args.length = routine.params.length
  nested : depth ≤ callers.length

namespace Scene

variable {r : Registry} {p : Flat.Program} {M : Module} (c : Scene r p M)

def Keeps (locals : Symbol → Value) (vs : List Value) : Prop :=
  vs.length = c.slots.size ∧ ∀ (i : Nat) (sym : Symbol) (slot : Slot),
    c.slots[i]? = some (sym.id, slot) → sym ∈ Flat.symbolsOf c.routine.body →
    vs[i]? = some (locals sym)

def activation (n : Nat) : Activation := ⟨c.index, n, c.below.length⟩

/-- The call is at an instruction with some operands, and the machine holds the values of all
variables. -/
structure Stands (σ : State) (n : Nat) (ops : List Value) (w : Machine) (s : List Value) : Prop where
  mirrors : Mirrors r p M σ.shared w
  calls : w.calls = c.activation n :: c.callers
  limit : w.maxDepth = c.limit
  stack : ∃ vs, c.Keeps σ.locals vs ∧ s = frame ops vs c.args c.below

def Lies (n : Nat) (lines : List CodeLine) : Prop :=
  ∃ before after, c.lines = before ++ (lines ++ after) ∧ instructionCount before = n

/-- The machine follows a computation when it runs lines of code with some operands, and then there
are those that `out` tells of for the value. -/
def Runs (turns : Nat) (lines : List CodeLine) (ops : List Value) {α : Type} (m : Run α)
    (out : α → List Value) : Prop :=
  ∀ σ n w s, c.Lies n lines → c.Stands σ n ops w s →
    Follows r p M c.depth turns (fun a σ' => c.Stands σ' (n + instructionCount lines) (out a)) w s
      (m σ)

variable {c}

namespace Lies

variable {n : Nat} {a b : List CodeLine}

theorem left (h : c.Lies n (a ++ b)) : c.Lies n a := by
  obtain ⟨before, after, heq, hn⟩ := h
  exact ⟨before, b ++ after, by simpa using heq, hn⟩

theorem right (h : c.Lies n (a ++ b)) : c.Lies (n + instructionCount a) b := by
  obtain ⟨before, after, heq, rfl⟩ := h
  exact ⟨before ++ a, after, by simpa using heq, by simp⟩

/-- The instruction of a line that is no label. -/
theorem getElem? {line : CodeLine} {i : Instruction} (h : c.Lies n (line :: b))
    (hi : instruction? (positions 0 c.lines) line = some i) : c.method.code[n]? = some i := by
  obtain ⟨before, after, heq, rfl⟩ := h
  rw [c.code, List.getElem?_toArray, instructions, ← length_filterMap_instruction? (positions 0 c.lines)]
  nth_rewrite 2 [heq]
  simp [List.filterMap_append, hi]

end Lies

namespace Stands

variable {σ : State} {n : Nat} {ops : List Value} {w : Machine} {s : List Value}

theorem at_instruction (h : c.Stands σ n ops w s) {i : Instruction}
    (hi : c.method.code[n]? = some i) :
    w.At (c.activation n) c.callers c.index n c.method i :=
  ⟨h.calls, rfl, rfl, by rw [h.mirrors.module]; exact c.found, hi⟩

theorem goto (h : c.Stands σ n ops w s) (next : Nat) : c.Stands σ next ops (w.goto next) s := by
  refine ⟨h.mirrors.goto next, ?_, h.limit, h.stack⟩
  simp [Machine.goto, h.calls, activation]

/-- Faults are told with the name of the routine. -/
theorem method_locate (h : c.Stands σ n ops w s) (cause : Cause) :
    (w.locate cause).method = c.routine.name := by
  have hfound : M.method? c.index = some c.method := c.found
  simp [Machine.locate, h.calls, activation, h.mirrors.module, hfound, c.name]

theorem halt_fault (h : c.Stands σ n ops w s) (cause : Cause) :
    Stop.halt (.fault (w.locate cause)) = .ofCause c.routine.name cause := by
  simp [Stop.halt, h.method_locate]

/-- A stop that only looks at what is shared means the same. -/
theorem halt_located (h : c.Stands σ n ops w s) (e : Stop) :
    (e.located w).halt = .ofStop c.routine.name e := by
  cases e with
  | fault f => simp [Stop.located, Stop.halt, h.method_locate, Halt.ofStop]
  | _ => rfl

end Stands

namespace Runs

variable {turns : Nat} {α β : Type} {ops : List Value} {lines : List CodeLine}

theorem nil {m : Run α} {a : α} {out : α → List Value} (hm : ∀ σ, m σ = .ok a σ)
    (hout : out a = ops) : c.Runs turns [] ops m out := by
  intro σ n w s _ hstands
  rw [hm]
  refine .ok (.refl w s) ?_
  rw [hout]
  exact hstands

/-- Codes come one after the other, and the second may rely on what is known of the first value. -/
theorem append_of {first second : List CodeLine} {m : Run α} {f : α → Run β} {P : α → Prop}
    {out : α → List Value} {out' : β → List Value} (hm : c.Runs turns first ops m out)
    (hP : ∀ {σ a σ'}, m σ = .ok a σ' → P a)
    (hf : ∀ a, P a → c.Runs turns second (out a) (f a) out') :
    c.Runs turns (first ++ second) ops (m >>= f) out' := by
  intro σ n w s hlies hstands
  refine (hm σ n w s hlies.left hstands).bind fun a σ' w' s' hrun h => ?_
  rw [instructionCount_append, ← Nat.add_assoc]
  exact hf a (hP hrun) σ' _ w' s' hlies.right h

theorem append {first second : List CodeLine} {m : Run α} {f : α → Run β}
    {out : α → List Value} {out' : β → List Value} (hm : c.Runs turns first ops m out)
    (hf : ∀ a, c.Runs turns second (out a) (f a) out') :
    c.Runs turns (first ++ second) ops (m >>= f) out' :=
  hm.append_of (P := fun _ => True) (fun _ => trivial) fun a _ => hf a

/-- What is done with the value needs no code. -/
theorem map {m : Run α} {f : α → β} {out : α → List Value} {out' : β → List Value}
    (hm : c.Runs turns lines ops m out) (hout : ∀ a, out' (f a) = out a) :
    c.Runs turns lines ops (m >>= fun a => pure (f a)) out' := by
  intro σ n w s hlies hstands
  refine (hm σ n w s hlies hstands).bind fun a σ' w' s' _ h => .ok (.refl w' s') ?_
  rw [hout]
  exact h

/-- A single instruction does what a computation does, from any state of the call. -/
theorem instruction {i : Instruction} {op : Operation} (hop : i.operation? = some op)
    (hret : op ≠ .ret) (hretVoid : op ≠ .retVoid) {m : Run α} {out : α → List Value}
    (hm : ∀ σ f n w s, f = c.activation n → c.Stands σ (n + 1) ops w s →
      (∃ a σ' w' s', m σ = .ok a σ' ∧ (Action.perform op i f c.method).Does w s (.ok ()) w' s' ∧
        c.Stands σ' (n + 1) (out a) w' s') ∨
      ∃ halt σ' stop w' s', m σ = .error halt σ' ∧
        (Action.perform op i f c.method).Does w s (.error stop) w' s' ∧ stop.halt = halt ∧
        Mirrors r p M σ'.shared w') :
    c.Runs turns [.instruction i] ops m out := by
  intro σ n w s hlies hstands
  have hat := hstands.at_instruction (hlies.getElem? rfl)
  obtain ⟨a, σ', w', s', hrun, hdoes, hstands'⟩ | ⟨halt, σ', stop, w', s', hrun, hdoes, hhalt, hmirrors⟩ :=
    hm σ _ n _ s rfl (hstands.goto (n + 1))
  · rw [hrun]
    exact .ok (.single (Action.does_step hat c.depth hop hret hretVoid hdoes)) hstands'
  · rw [hrun]
    exact .stop (.refl w s) (Action.does_step_error hat c.depth hop hret hretVoid hdoes) hhalt hmirrors

end Runs
end Scene
end TypedScript
