import TypedScript.Machine.Run
import TypedScript.Proofs.Machine.Loading

/-!
# Accesses to tables

Operands are checked when a module is loaded and never again. Whatever is done with the machine, each
call in progress stays at an instruction of its method or at its end, and the tables stay as long as
they are; so each instruction finds the entry that it refers to.
-/

namespace TypedScript

def entryAt? {α : Type} (table : Array α) (i : Int) : Option α :=
  if i < 0 then none else table[i.toNat]?

theorem exists_entryAt? {α : Type} {table : Array α} {i : Int} (hlow : 0 ≤ i) (hhigh : i < table.size) :
    ∃ x, entryAt? table i = some x := by
  refine ⟨table[i.toNat], ?_⟩
  rw [entryAt?, if_neg (Int.not_lt.mpr hlow)]
  exact Array.getElem?_eq_getElem _

def Module.methodAt? (M : Module) (i : Int) : Option Method := (entryAt? M.methods i).join

theorem Module.InRange.exists_methodAt? {M : Module} (hM : M.InRange) {k : Int} (hlow : 0 ≤ k)
    (hhigh : k < M.methods.size) : ∃ g, M.methodAt? k = some g := by
  obtain ⟨g?, hg?⟩ := exists_entryAt? hlow hhigh
  have hmem : g? ∈ M.methods := by
    rw [entryAt?, if_neg (Int.not_lt.mpr hlow)] at hg?
    exact Array.mem_of_getElem? hg?
  obtain ⟨g, rfl, -⟩ := hM g? hmem
  exact ⟨g, by rw [Module.methodAt?, hg?, Option.join_some]⟩

theorem Module.InRange.of_methodAt? {M : Module} (hM : M.InRange) {k : Int} {g : Method}
    {i : Instruction} (hg : M.methodAt? k = some g) (hi : i ∈ g.code) : M.inRange g i := by
  rw [Module.methodAt?, Option.join_eq_some_iff, entryAt?] at hg
  split at hg
  · cases hg
  · obtain ⟨g', hg', hall⟩ := hM _ (Array.mem_of_getElem? hg)
    obtain rfl := Option.some.inj hg'
    exact hall i hi

/-- A call of a method of the module is at one of its instructions or at its end. -/
structure Activation.Placed (M : Module) (f : Activation) : Prop where
  next : 0 ≤ f.next
  found : ∃ g, M.methodAt? f.method = some g ∧ f.next ≤ g.code.size

namespace Machine

/-- The tables of a machine are as long as those of its module, and all calls in progress are placed. -/
structure Ready (M : Module) (m : Machine) : Prop where
  module : m.module = M
  natives : m.natives.size = M.natives.size
  statics : ∀ fields, m.statics? = some fields → fields.size = M.fields.size
  started : m.calls ≠ [] → m.statics?.isSome
  calls : ∀ f ∈ m.calls, f.Placed M

/-- Nothing has changed that calls in progress and lookups depend on. -/
structure SameTables (m m' : Machine) : Prop where
  module : m'.module = m.module
  natives : m'.natives = m.natives
  statics : m'.statics?.map Array.size = m.statics?.map Array.size
  calls : m'.calls = m.calls

namespace SameTables

variable {m m₁ m₂ : Machine}

theorem refl (m : Machine) : m.SameTables m := ⟨rfl, rfl, rfl, rfl⟩

theorem trans (h : m.SameTables m₁) (h' : m₁.SameTables m₂) : m.SameTables m₂ :=
  ⟨h'.module.trans h.module, h'.natives.trans h.natives, h'.statics.trans h.statics,
    h'.calls.trans h.calls⟩

theorem ready {M : Module} (h : m.SameTables m₁) (hm : m.Ready M) : m₁.Ready M where
  module := h.module.trans hm.module
  natives := by rw [h.natives, hm.natives]
  statics fields hfields := by
    have hsize := h.statics
    rw [hfields] at hsize
    cases hm' : m.statics? with
    | none =>
      rw [hm'] at hsize
      cases hsize
    | some before =>
      rw [hm'] at hsize
      rw [Option.some.inj hsize, hm.statics before hm']
  started hcalls := by
    have hstarted := hm.started (h.calls ▸ hcalls)
    have hsome := congrArg Option.isSome h.statics
    rw [Option.isSome_map, Option.isSome_map] at hsome
    rw [hsome, hstarted]
  calls := by
    rw [h.calls]
    exact hm.calls

end SameTables

namespace Ready

variable {M : Module} {m : Machine}

/-- Fewer calls are in progress, or the one in progress is elsewhere. -/
theorem withCalls (h : m.Ready M) {calls : List Activation} (hsome : calls ≠ [] → m.calls ≠ [])
    (hcalls : ∀ f ∈ calls, f.Placed M) : ({ m with calls } : Machine).Ready M :=
  ⟨h.module, h.natives, h.statics, fun hc => h.started (hsome hc), hcalls⟩

end Ready
end Machine

open Machine

namespace Action

variable {α β : Type}

/-- An action changes nothing that calls in progress and lookups depend on. -/
def Quiet (a : Action α) : Prop := ∀ m,
  match a m with
  | .ok _ m' => m.SameTables m'
  | .error _ m' => m.SameTables m'

namespace Quiet

theorem pure (x : α) : Quiet (Pure.pure x) := SameTables.refl

theorem throw (s : Stop) : Quiet (throw s : Action α) := SameTables.refl

theorem fail (c : Cause) : Quiet (fail c : Action α) := SameTables.refl

theorem bind {a : Action α} {f : α → Action β} (ha : Quiet a) (hf : ∀ x, Quiet (f x)) :
    Quiet (a >>= f) := by
  intro m
  have hfirst := ha m
  simp only [Bind.bind, EStateM.bind]
  cases hrun : a m with
  | ok x m₁ =>
    rw [hrun] at hfirst
    have hsecond := hf x m₁
    dsimp only at hfirst ⊢
    cases hrest : f x m₁ with
    | ok y m₂ =>
      rw [hrest] at hsecond
      exact hfirst.trans hsecond
    | error e m₂ =>
      rw [hrest] at hsecond
      exact hfirst.trans hsecond
  | error e m₁ =>
    rw [hrun] at hfirst
    exact hfirst

theorem get : Quiet (get : Action Machine) := SameTables.refl

theorem modify {f : Machine → Machine} (hf : ∀ m, SameTables m (f m)) :
    Quiet (modify f : Action Unit) := hf

theorem apply {f : Machine → Value × Machine} (hf : ∀ m, SameTables m (f m).2) : Quiet (apply f) := hf

theorem orFail (r : Except Cause α) : Quiet (orFail r) := by
  cases r with
  | ok a => exact pure a
  | error c => exact fail c

theorem orCrash (r : Option α) : Quiet (orCrash r) := by
  cases r with
  | some a => exact pure a
  | none => exact throw _

theorem entry (table : Array α) (i : Int) : Quiet (entry table i) := by
  unfold Action.entry
  split
  · exact throw _
  · exact orCrash _

theorem push (v : Value) : Quiet (push v) := by
  intro m
  by_cases htop : m.top < 0
  · simp only [Action.push, if_pos htop]
    exact .refl m
  by_cases hroom : m.top.toNat < m.cells.size
  · simp only [Action.push, if_neg htop, if_pos hroom]
    exact ⟨rfl, rfl, rfl, rfl⟩
  · simp only [Action.push, if_neg htop, if_neg hroom]
    exact ⟨rfl, rfl, rfl, rfl⟩

theorem pop : Quiet pop := by
  intro m
  by_cases htop : m.top - 1 < 0
  · simp only [Action.pop, if_pos htop]
    exact ⟨rfl, rfl, rfl, rfl⟩
  cases hcell : m.cells[(m.top - 1).toNat]? with
  | none =>
    simp only [Action.pop, if_neg htop, hcell]
    exact ⟨rfl, rfl, rfl, rfl⟩
  | some v =>
    simp only [Action.pop, if_neg htop, hcell]
    exact ⟨rfl, rfl, rfl, rfl⟩

theorem cell (i : Int) : Quiet (cell i) := by
  intro m
  by_cases hneg : i < 0
  · simp only [Action.cell, if_pos hneg]
    exact .refl m
  cases hcell : m.cells[i.toNat]? with
  | none =>
    simp only [Action.cell, if_neg hneg, hcell]
    exact .refl m
  | some v =>
    simp only [Action.cell, if_neg hneg, hcell]
    exact .refl m

theorem peek : Quiet peek := fun m => cell (m.top - 1) m

theorem setCell (i : Int) (v : Value) : Quiet (setCell i v) := by
  intro m
  by_cases hrange : i < 0 ∨ (m.cells.size : Int) ≤ i
  · simp only [Action.setCell, if_pos hrange]
    exact .refl m
  · simp only [Action.setCell, if_neg hrange]
    exact ⟨rfl, rfl, rfl, rfl⟩

theorem popMany (n : Nat) : Quiet (popMany n) := by
  induction n with
  | zero => exact pure ()
  | succ n ih => exact pop.bind fun _ => ih

theorem popArgs (n : Nat) : Quiet (popArgs n) := by
  unfold Action.popArgs
  generalize [] = args
  induction n generalizing args with
  | zero => exact pure args
  | succ n ih => exact pop.bind fun v => ih (v :: args)

theorem forM {xs : List β} {f : β → Action Unit} (hf : ∀ x, Quiet (f x)) : Quiet (xs.forM f) := by
  induction xs with
  | nil => exact pure ()
  | cons x rest ih => exact (hf x).bind fun _ => ih

theorem text (v : Value) : Quiet (text v) := get.bind fun _ => orCrash _

theorem unbox (wanted : String) (v : Value) : Quiet (unbox wanted v) := by
  cases v with
  | boxed id type content =>
    rw [Action.unbox]
    split
    · exact pure content
    · exact fail _
  | _ => exact (text _).bind fun _ => fail _

theorem randomBits : Quiet randomBits := fun _ => ⟨rfl, rfl, rfl, rfl⟩

theorem randomBetween (key : String) (low high : Int64) : Quiet (randomBetween key low high) := by
  unfold Action.randomBetween
  split
  · exact fail _
  split
  · exact pure _
  split
  · exact throw _
  · exact randomBits.bind fun _ => pure _

theorem newArray (type : String) : Quiet (newArray type) := by
  refine pop.bind fun v => (orFail _).bind fun n => ?_
  split
  · exact fail _
  split
  · exact throw _
  · exact (apply fun _ => ⟨rfl, rfl, rfl, rfl⟩).bind fun _ => push _

theorem loadStatic (i : Int) : Quiet (loadStatic i) :=
  get.bind fun _ => (entry _ i).bind fun _ => push _

theorem storeStatic (i : Int) : Quiet (storeStatic i) := by
  refine peek.bind fun v => get.bind fun _ => (entry _ i).bind fun _ => modify fun m => ?_
  refine ⟨rfl, rfl, ?_, rfl⟩
  rw [Option.map_map]
  exact Option.map_congr fun fields _ => by simp

theorem loadNative (i : Int) : Quiet (loadNative i) := by
  refine get.bind fun m => (entry _ i).bind fun native => ?_
  split
  · exact push _
  · exact fail _

/-- Only a routine that reads waits, and that moves its call back. -/
theorem callRoutine (key : String) {r : Routine} (hr : r ≠ .input) (args : List Value) :
    Quiet (callRoutine key r args) := by
  have hanswers := answers_callRoutine key r args
  generalize Action.callRoutine key r args = a at hanswers
  cases hanswers with
  | print line v =>
    exact (text v).bind fun s => (modify fun _ => by exact ⟨rfl, rfl, rfl, rfl⟩).bind fun _ => pure _
  | newline => exact (modify fun _ => by exact ⟨rfl, rfl, rfl, rfl⟩).bind fun _ => pure _
  | input => exact absurd rfl hr
  | random => exact randomBits.bind fun _ => pure _
  | randomBetween low high => exact randomBetween key low high
  | exit code => exact throw _
  | clock =>
    exact get.bind fun _ => (modify fun _ => by exact ⟨rfl, rfl, rfl, rfl⟩).bind fun _ => pure _
  | concat a b => exact (text a).bind fun _ => (text b).bind fun _ => pure _
  | toText v => exact (text v).bind fun _ => pure _
  | parse t s =>
    cases Value.parse? t s with
    | none => exact fail _
    | some v => exact pure v
  | abs | absFloat | sqrt | equalTexts | equalObjects => exact pure _
  | refused => exact throw _

end Quiet

/-- With `P` of the machine an action leaves `Q`, or stops and leaves `E`. -/
def Meets (P : Machine → Prop) (a : Action α) (Q : α → Machine → Prop) (E : Stop → Machine → Prop) :
    Prop := ∀ m, P m →
  match a m with
  | .ok x m' => Q x m'
  | .error e m' => E e m'

namespace Meets

variable {P : Machine → Prop} {Q : α → Machine → Prop} {R : β → Machine → Prop}
  {E : Stop → Machine → Prop}

theorem bind {a : Action α} {f : α → Action β} (ha : Meets P a Q E) (hf : ∀ x, Meets (Q x) (f x) R E) :
    Meets P (a >>= f) R E := by
  intro m hm
  have hfirst := ha m hm
  simp only [Bind.bind, EStateM.bind]
  cases hrun : a m with
  | ok x m₁ =>
    rw [hrun] at hfirst
    exact hf x m₁ hfirst
  | error e m₁ =>
    rw [hrun] at hfirst
    exact hfirst

theorem pure (x : α) (h : ∀ m, P m → Q x m) : Meets P (Pure.pure x) Q E := h

theorem get_bind {f : Machine → Action β} (hf : ∀ n, P n → Meets (fun m => P m ∧ m = n) (f n) R E) :
    Meets P (get >>= f) R E := fun m hm => hf m hm m ⟨hm, rfl⟩

theorem of_and {p : Prop} {a : Action α} (h : p → Meets P a Q E) : Meets (fun m => P m ∧ p) a Q E :=
  fun m hm => h hm.2 m hm.1

theorem of_imp {P' : Machine → Prop} {a : Action α} (h : Meets P a Q E) (hP : ∀ m, P' m → P m) :
    Meets P' a Q E := fun m hm => h m (hP m hm)

theorem of_eq {k : Machine → β} {a : Action α} (h : ∀ x, Meets (fun m => P m ∧ k m = x) a Q E) :
    Meets P a Q E := fun m hm => h (k m) m ⟨hm, rfl⟩

theorem imp_error {E' : Stop → Machine → Prop} {a : Action α} (h : Meets P a Q E)
    (hE : ∀ e m, E e m → E' e m) : Meets P a Q E' := by
  intro m hm
  have hout := h m hm
  split
  · next x m' hrun =>
    rw [hrun] at hout
    exact hout
  · next e m' hrun =>
    rw [hrun] at hout
    exact hE e m' hout

theorem imp {Q' : α → Machine → Prop} {a : Action α} (h : Meets P a Q E)
    (hQ : ∀ x m, Q x m → Q' x m) : Meets P a Q' E := by
  intro m hm
  have hout := h m hm
  split
  · next x m' hrun =>
    rw [hrun] at hout
    exact hQ x m' hout
  · next e m' hrun =>
    rw [hrun] at hout
    exact hout

end Meets

/-- What holds of all machines that have the same tables and calls stays through a quiet action. -/
theorem Quiet.keeps {a : Action α} (ha : Quiet a) {P : Machine → Prop} {E : Stop → Machine → Prop}
    (hP : ∀ m m', m.SameTables m' → P m → P m') (hE : ∀ e m, P m → E e m) :
    Meets P a (fun _ => P) E := by
  intro m hm
  have hsame := ha m
  cases hrun : a m with
  | ok x m' =>
    rw [hrun] at hsame
    exact hP m m' hsame hm
  | error e m' =>
    rw [hrun] at hsame
    exact hE e m' (hP m m' hsame hm)

variable {M : Module} {g : Method} {d : Nat}

/-- More than `d` calls are in progress. -/
structure Going (M : Module) (d : Nat) (m : Machine) : Prop where
  ready : m.Ready M
  depth : d < m.calls.length

/-- The innermost of the calls in progress is of a method, behind the first of its instructions. -/
structure Within (M : Module) (g : Method) (d : Nat) (m : Machine) : Prop extends Going M d m where
  current : ∃ f rest, m.calls = f :: rest ∧ M.methodAt? f.method = some g ∧ 1 ≤ f.next

/-- A machine that waits for input has its calls still in progress. -/
structure Halted (M : Module) (d : Nat) (e : Stop) (m : Machine) : Prop where
  ready : m.Ready M
  depth : e = .awaitInput → d < m.calls.length

namespace Going

variable {m m' : Machine}

theorem of_same (h : Going M d m) (hsame : m.SameTables m') : Going M d m' :=
  ⟨hsame.ready h.ready, by rw [hsame.calls]; exact h.depth⟩

theorem halted (h : Going M d m) (e : Stop) : Halted M d e m := ⟨h.ready, fun _ => h.depth⟩

end Going

theorem Within.of_same {m m' : Machine} (h : Within M g d m) (hsame : m.SameTables m') :
    Within M g d m' where
  toGoing := h.toGoing.of_same hsame
  current := by
    rw [hsame.calls]
    exact h.current

theorem Quiet.within {a : Action α} (ha : Quiet a) :
    Meets (Within M g d) a (fun _ => Within M g d) (Halted M d) :=
  ha.keeps (fun _ _ hsame h => h.of_same hsame) fun e _ h => h.halted e

theorem Quiet.going {a : Action α} (ha : Quiet a) :
    Meets (Going M d) a (fun _ => Going M d) (Halted M d) :=
  ha.keeps (fun _ _ hsame h => h.of_same hsame) fun e _ h => h.halted e

/-- To wait for input takes the call back to the instruction that reads. -/
theorem meets_await : Meets (Within M g d) (await : Action α) (fun _ => Within M g d) (Halted M d) := by
  intro m hm
  obtain ⟨f, rest, hcalls, hg, hnext⟩ := hm.current
  obtain ⟨-, g', hg', hend⟩ := hm.ready.calls f (by simp [hcalls])
  have hback : (await : Action α) m =
      .error .awaitInput { m with calls := { f with next := f.next - 1 } :: rest } := by
    change EStateM.Result.error _ _ = _
    dsimp only
    rw [hcalls]
  rw [hback]
  refine ⟨hm.ready.withCalls (by simp [hcalls]) ?_, fun _ => ?_⟩
  · intro f' hf'
    obtain rfl | hf' := List.mem_cons.mp hf'
    · exact ⟨by dsimp only; omega, g', hg', by dsimp only; omega⟩
    · exact hm.ready.calls f' (by simp [hcalls, hf'])
  · have hdepth := hm.depth
    rw [hcalls] at hdepth
    exact hdepth

theorem meets_callRoutine (key : String) (r : Routine) (args : List Value) :
    Meets (Within M g d) (callRoutine key r args) (fun _ => Within M g d) (Halted M d) := by
  by_cases hr : r = .input
  · subst hr
    have hanswers := answers_callRoutine key .input args
    generalize callRoutine key .input args = a at hanswers
    cases hanswers with
    | input =>
      refine Meets.bind Quiet.get.within fun m => ?_
      split
      · exact meets_await
      · exact ((Quiet.modify fun _ => by exact ⟨rfl, rfl, rfl, rfl⟩).bind fun _ => Quiet.pure _).within
    | refused => exact (Quiet.throw _).within
  · exact (Quiet.callRoutine key hr args).within

theorem meets_callNative (i : Int) :
    Meets (Within M g d) (callNative i) (fun _ => Within M g d) (Halted M d) := by
  refine Meets.bind Quiet.get.within fun m => Meets.bind (Quiet.entry _ i).within fun native => ?_
  split
  · exact (Quiet.fail _).within
  · refine Meets.bind (Quiet.popArgs _).within fun args => (meets_callRoutine _ _ args).bind fun v => ?_
    split
    · exact (Quiet.push v).within
    · exact (Quiet.pure _).within

theorem meets_jump {a : Int} (hlow : 0 ≤ a) (hhigh : a < g.code.size) :
    Meets (Within M g d) (jump a) (fun _ => Going M d) (Halted M d) := by
  intro m hm
  obtain ⟨f, rest, hcalls, hg, -⟩ := hm.current
  have hrun : jump a m = .ok () { m with calls := { f with next := a } :: rest } := by
    change EStateM.Result.ok _ _ = _
    dsimp only
    rw [hcalls]
  rw [hrun]
  refine ⟨hm.ready.withCalls (by simp [hcalls]) ?_, ?_⟩
  · intro f' hf'
    obtain rfl | hf' := List.mem_cons.mp hf'
    · exact ⟨hlow, g, hg, Int.le_of_lt hhigh⟩
    · exact hm.ready.calls f' (by simp [hcalls, hf'])
  · have hdepth := hm.depth
    rw [hcalls] at hdepth
    exact hdepth

/-- A machine with static fields and so many calls in progress. -/
structure Started (M : Module) (n : Nat) (m : Machine) : Prop where
  ready : m.Ready M
  statics : m.statics?.isSome
  depth : m.calls.length = n

theorem Started.of_same {n : Nat} {m m' : Machine} (h : Started M n m) (hsame : m.SameTables m') :
    Started M n m' where
  ready := hsame.ready h.ready
  statics := by
    rw [← Option.isSome_map (f := Array.size), hsame.statics, Option.isSome_map, h.statics]
  depth := by rw [hsame.calls, h.depth]

theorem Quiet.started {a : Action α} (ha : Quiet a) {n : Nat} :
    Meets (Started M n) a (fun _ => Started M n) (fun _ => Started M n) :=
  ha.keeps (fun _ _ hsame h => h.of_same hsame) fun _ _ h => h

theorem entry_eq (table : Array α) (i : Int) : entry table i = orCrash (entryAt? table i) := by
  unfold entry entryAt?
  split <;> rfl

theorem methodAt_apply (i : Int) (m : Machine) :
    methodAt i m = orCrash (m.module.methodAt? i) m := by
  change (entry m.module.methods i >>= fun f? => orCrash f?) m = _
  rw [entry_eq, Module.methodAt?]
  cases entryAt? m.module.methods i with
  | none => rfl
  | some f? => rfl

theorem methodAt_of_eq_some {i : Int} {m : Machine} (hg : m.module.methodAt? i = some g) :
    methodAt i m = .ok g m := by
  rw [methodAt_apply, hg]
  rfl

theorem meets_methodAt (i : Int) {n : Nat} :
    Meets (Started M n) (methodAt i) (fun f m => Started M n m ∧ M.methodAt? i = some f)
      (fun _ => Started M n) := by
  intro m hm
  rw [methodAt_apply, hm.ready.module]
  cases M.methodAt? i with
  | none => exact hm
  | some f => exact ⟨hm, rfl⟩

/-- A call begins at the start of a method that is there. -/
theorem meets_enter (i : Int) {n : Nat} :
    Meets (Started M n) (enter i) (fun _ => Started M (n + 1)) (fun _ => Started M n) := by
  refine (meets_methodAt i).bind fun f => Meets.of_and fun hf => Quiet.get.started.bind fun m₀ => ?_
  split
  · exact fun m hm => hm
  refine (Quiet.forM fun _ => Quiet.push _).started.bind fun _ m hm => ?_
  refine ⟨⟨hm.ready.module, hm.ready.natives, hm.ready.statics, fun _ => hm.statics, ?_⟩, hm.statics,
    congrArg (· + 1) hm.depth⟩
  intro f' hf'
  obtain rfl | hf' := List.mem_cons.mp hf'
  · exact ⟨Int.le_refl 0, f, hf, Int.natCast_nonneg _⟩
  · exact hm.ready.calls f' hf'

theorem meets_call (i : Int) : Meets (Within M g d) (enter i) (fun _ => Going M d) (Halted M d) := by
  intro m hm
  have hdepth := hm.depth
  have hstatics := hm.ready.started fun hnil => by simp [hnil] at hdepth
  have hafter := meets_enter i m ⟨hm.ready, hstatics, rfl⟩
  cases hrun : enter i m with
  | ok x m' =>
    rw [hrun] at hafter
    exact ⟨hafter.ready, by rw [hafter.depth]; omega⟩
  | error e m' =>
    rw [hrun] at hafter
    exact ⟨hafter.ready, fun _ => by rw [hafter.depth]; exact hdepth⟩

theorem operand_of_inRange {op : Operation} {i : Instruction} {limit : Nat}
    (hrange : M.inRange g i) (hop : i.operation? = some op) (hlimit : M.limit? g op.operand = some limit) :
    0 ≤ i.operand.toInt ∧ i.operand.toInt < limit := by
  rw [Module.inRange, hop, Option.bind_some, hlimit] at hrange
  simpa using hrange

/-- An instruction that is no return keeps the calls in progress, if its operand is in range. -/
theorem meets_perform {op : Operation} {i : Instruction} {f : Activation}
    (hop : i.operation? = some op) (hrange : M.inRange g i) :
    Meets (Within M g d) (perform op i f g) (fun _ => Going M d) (Halted M d) := by
  have hquiet : ∀ {a : Action Unit}, Quiet a →
      Meets (Within M g d) a (fun _ => Going M d) (Halted M d) :=
    fun ha => ha.within.imp fun _ _ hm => hm.toGoing
  have htarget (hlimit : M.limit? g op.operand = some g.code.size) :=
    operand_of_inRange hrange hop hlimit
  unfold perform
  cases op with
  | nop | ret | retVoid => exact hquiet (Quiet.pure _)
  | pop => exact hquiet (Quiet.pop.bind fun _ => Quiet.pure _)
  | dup => exact hquiet (Quiet.peek.bind fun _ => Quiet.push _)
  | push => exact hquiet (Quiet.get.bind fun _ => (Quiet.entry _ _).bind fun _ => Quiet.push _)
  | loadArg | loadLocal => exact hquiet ((Quiet.cell _).bind fun _ => Quiet.push _)
  | storeLocal => exact hquiet (Quiet.peek.bind fun _ => Quiet.setCell _ _)
  | loadStatic => exact hquiet (Quiet.loadStatic _)
  | storeStatic => exact hquiet (Quiet.storeStatic _)
  | loadNative => exact hquiet (Quiet.loadNative _)
  | neg | compl | convert =>
    exact hquiet (Quiet.pop.bind fun _ => (Quiet.orFail _).bind fun _ => Quiet.push _)
  | box =>
    exact hquiet (Quiet.get.bind fun _ => (Quiet.entry _ _).bind fun _ => Quiet.pop.bind fun _ =>
      (Quiet.apply fun _ => ⟨rfl, rfl, rfl, rfl⟩).bind fun _ => Quiet.push _)
  | unbox =>
    exact hquiet (Quiet.get.bind fun _ => (Quiet.entry _ _).bind fun _ => Quiet.pop.bind fun _ =>
      (Quiet.unbox _ _).bind fun _ => Quiet.push _)
  | newArray =>
    exact hquiet (Quiet.get.bind fun _ => (Quiet.entry _ _).bind fun _ => Quiet.newArray _)
  | loadElem =>
    exact hquiet (Quiet.pop.bind fun _ => Quiet.pop.bind fun _ => Quiet.get.bind fun _ =>
      (Quiet.orFail _).bind fun _ => Quiet.push _)
  | storeElem =>
    refine hquiet (Quiet.pop.bind fun _ => Quiet.pop.bind fun _ => Quiet.pop.bind fun _ =>
      Quiet.get.bind fun _ => (Quiet.orFail _).bind ?_)
    rintro ⟨ref, place⟩
    exact (Quiet.modify fun _ => by exact ⟨rfl, rfl, rfl, rfl⟩).bind fun _ => Quiet.push _
  | length =>
    exact hquiet (Quiet.pop.bind fun _ => Quiet.get.bind fun _ => (Quiet.orFail _).bind fun _ =>
      Quiet.push _)
  | call => exact meets_call _
  | callNative => exact (meets_callNative _).imp fun _ _ hm => hm.toGoing
  | jump => exact meets_jump (htarget rfl).1 (htarget rfl).2
  | jumpTrue =>
    refine Quiet.pop.within.bind fun v => ?_
    split
    · exact meets_jump (htarget rfl).1 (htarget rfl).2
    · exact hquiet (Quiet.pure _)
    · exact hquiet (Quiet.fail _)
  | add | sub | mul | div | rem | and | or | xor | shl | shr | ceq | clt | cgt =>
    exact hquiet (Quiet.pop.bind fun _ => Quiet.pop.bind fun _ => (Quiet.orFail _).bind fun _ =>
      Quiet.push _)

/-- To return takes the innermost call away. -/
theorem meets_leave :
    Meets (Within M g d) leave (fun _ m => m.Ready M ∧ d ≤ m.calls.length) (Halted M d) := by
  refine Meets.get_bind fun m₀ hm₀ => ?_
  obtain ⟨f, rest, hcalls, -⟩ := hm₀.current
  have hpop : Meets (fun m => Within M g d m ∧ m.calls = f :: rest)
      (popMany (m₀.top - f.base).toNat) (fun _ m => Within M g d m ∧ m.calls = f :: rest)
      (Halted M d) :=
    (Quiet.popMany _).keeps (fun _ _ hsame hm => ⟨hm.1.of_same hsame, hsame.calls.trans hm.2⟩)
      fun e _ hm => hm.1.halted e
  rw [hcalls]
  refine (hpop.of_imp ?_).bind fun _ m hm => ?_
  · rintro m ⟨hm, rfl⟩
    exact ⟨hm, hcalls⟩
  obtain ⟨hm, hcalls⟩ := hm
  have hdepth := hm.depth
  rw [hcalls] at hdepth
  refine ⟨hm.ready.withCalls (by simp [hcalls]) fun f' hf' => ?_, Nat.le_of_lt_succ hdepth⟩
  exact hm.ready.calls f' (by simp [hcalls, hf'])

/-- What a step comes to: the calls that it is not to end stay in progress. -/
def Stepped (M : Module) (d : Nat) : Option Value → Machine → Prop
  | none, m => Going M d m
  | some _, m => m.Ready M

theorem get_machine (m : Machine) : (EStateM.get : Action Machine) m = .ok m m := rfl

section Fetch

variable {m : Machine} {f : Activation} {rest : List Activation} {i : Instruction}

/-- At the end of its method a call has no instruction left, and that is a fault. -/
theorem fetch_end (hcalls : m.calls = f :: rest) (hg : m.module.methodAt? f.method = some g)
    (hnext : 0 ≤ f.next) (hend : g.code[f.next.toNat]? = none) :
    fetch m = .error (.fault (m.locate (.fellOffEnd g.name))) m := by
  simp only [fetch, Bind.bind, EStateM.bind, MonadState.get, getThe, MonadStateOf.get, get_machine,
    hcalls, methodAt_of_eq_some hg, if_neg (Int.not_lt.mpr hnext), hend, fail]

theorem fetch_at (hcalls : m.calls = f :: rest) (hg : m.module.methodAt? f.method = some g)
    (hnext : 0 ≤ f.next) (hi : g.code[f.next.toNat]? = some i) :
    fetch m = .ok (f, g, i) { m with calls := { f with next := f.next + 1 } :: rest } := by
  simp only [fetch, Bind.bind, EStateM.bind, MonadState.get, getThe, MonadStateOf.get, get_machine,
    hcalls, methodAt_of_eq_some hg, if_neg (Int.not_lt.mpr hnext), hi]
  rfl

theorem locate_eq (hcalls : m.calls = f :: rest) (hg : m.module.methodAt? f.method = some g)
    (c : Cause) : m.locate c = ⟨g.name, f.next - 1, c⟩ := by
  have hmethod : m.module.method? f.method.toNat = some g := by
    rw [Module.methodAt?, entryAt?] at hg
    split at hg
    · cases hg
    · exact hg
  rw [Machine.locate, hcalls]
  dsimp only
  rw [hmethod]
  rfl

end Fetch

theorem placed_moved {m : Machine} {f : Activation} {rest : List Activation} {i : Instruction}
    (hplaced : ∀ f ∈ m.calls, f.Placed M) (hcalls : m.calls = f :: rest)
    (hg : M.methodAt? f.method = some g) (hi : g.code[f.next.toNat]? = some i) :
    ∀ f' ∈ ({ f with next := f.next + 1 } : Activation) :: rest, f'.Placed M := by
  have hnext := (hplaced f (by simp [hcalls])).next
  have hlt : f.next.toNat < g.code.size := (Array.getElem?_eq_some_iff.mp hi).1
  intro f' hf'
  obtain rfl | hf' := List.mem_cons.mp hf'
  · exact ⟨by dsimp only; omega, g, hg, by dsimp only; omega⟩
  · exact hplaced f' (by simp [hcalls, hf'])

theorem meets_fetch (hM : M.InRange) :
    Meets (Going M d) fetch
      (fun r m => Within M r.2.1 d m ∧ M.inRange r.2.1 r.2.2) (Halted M d) := by
  intro m hm
  cases hcalls : m.calls with
  | nil =>
    have hdepth := hm.depth
    simp [hcalls] at hdepth
  | cons f rest =>
    obtain ⟨hnext, g, hg, hend⟩ := hm.ready.calls f (by simp [hcalls])
    have hfound : m.module.methodAt? f.method = some g := hm.ready.module ▸ hg
    cases hi : g.code[f.next.toNat]? with
    | none =>
      rw [fetch_end hcalls hfound hnext hi]
      exact hm.halted _
    | some i =>
      rw [fetch_at hcalls hfound hnext hi]
      have hdepth := hm.depth
      rw [hcalls] at hdepth
      exact ⟨⟨⟨hm.ready.withCalls (by simp [hcalls]) (placed_moved hm.ready.calls hcalls hg hi), hdepth⟩,
        _, rest, rfl, hg, by dsimp only; omega⟩, hM.of_methodAt? hg (Array.mem_of_getElem? hi)⟩

/-- A step keeps a machine ready, whatever comes of it. -/
theorem meets_step (hM : M.InRange) : Meets (Going M d) (step d) (Stepped M d) (Halted M d) := by
  refine (meets_fetch hM).bind ?_
  rintro ⟨f, g, i⟩
  refine Meets.of_and fun hrange => ?_
  have hpush : ∀ v, Meets (Going M d) (do push v; return none : Action (Option Value)) (Stepped M d)
      (Halted M d) := fun v => (Quiet.push v).going.bind fun _ => Meets.pure none fun _ hm => hm
  dsimp only at hrange ⊢
  split
  · exact fun m hm => hm.halted _
  · refine Quiet.pop.within.bind fun v => meets_leave.bind fun _ => Meets.get_bind fun m₀ hm₀ => ?_
    split
    · exact Meets.pure (some v) fun m hm => hm.1.1
    · next hdepth =>
      refine (hpush v).of_imp ?_
      rintro m ⟨⟨hm, hle⟩, rfl⟩
      exact ⟨hm, Nat.lt_of_le_of_ne hle (Ne.symm hdepth)⟩
  · refine meets_leave.bind fun _ => Meets.get_bind fun m₀ hm₀ => ?_
    split
    · exact Meets.pure (some Value.null) fun m hm => hm.1.1
    · next hdepth =>
      refine Meets.pure none ?_
      rintro m ⟨⟨hm, hle⟩, rfl⟩
      exact ⟨hm, Nat.lt_of_le_of_ne hle (Ne.symm hdepth)⟩
  · next op hop => exact (meets_perform hop hrange).bind fun _ => Meets.pure none fun _ hm => hm

end Action

namespace Machine.Ready

variable {M : Module} {m : Machine}

theorem resetStatics (h : m.Ready M) : m.resetStatics.Ready M where
  module := h.module
  natives := h.natives
  statics fields hfields := by
    obtain rfl := Option.some.inj hfields
    rw [freshStatics, Array.size_map, h.module]
  started _ := rfl
  calls := h.calls

theorem lowerTo (h : m.Ready M) (floor : Int) : (m.lowerTo floor).Ready M := by
  have hsame := Action.Quiet.popMany (m.top - floor).toNat m
  unfold Machine.lowerTo
  split
  · next m' hrun =>
    rw [hrun] at hsame
    exact hsame.ready h
  · next m' hrun =>
    rw [hrun] at hsame
    exact hsame.ready h

theorem settle (h : m.Ready M) (v : Invocation) (e : Stop) : (m.settle v e).Ready M := by
  have hunwind : (m.unwind v).Ready M := by
    refine Ready.lowerTo (h.withCalls ?_ fun f hf => h.calls f (List.mem_of_mem_drop hf)) _
    intro hsome hnil
    simp [hnil] at hsome
  cases e with
  | fault | exit => exact hunwind
  | crash | awaitInput | paused => exact h

end Machine.Ready

namespace Action

variable {M : Module}

theorem Meets.settling {α : Type} {P : Machine → Prop} {Q : α → Machine → Prop} {v : Invocation}
    {a : Action α} (h : Meets P a Q fun _ m => m.Ready M) :
    Meets P (settling v a) Q fun _ m => m.Ready M := by
  intro m hm
  have hout := h m hm
  unfold Action.settling
  cases hrun : a m with
  | ok x m' =>
    rw [hrun] at hout
    exact hout
  | error e m' =>
    rw [hrun] at hout
    exact hout.settle v e

/-- Whatever method is invoked with whatever arguments, the machine stays ready; a call that has begun is
in progress. -/
theorem meets_begin (method : Int) (args : List Value) :
    Meets (fun m => m.Ready M) (begin method args) (fun v => Going M v.depth)
      (fun _ m => m.Ready M) := by
  have hstatics : Meets (fun m => m.Ready M)
      (modify fun m => if m.statics?.isNone then m.resetStatics else m)
      (fun _ m => m.Ready M ∧ m.statics?.isSome) (fun _ m => m.Ready M) := by
    intro m hm
    change Machine.Ready M (if m.statics?.isNone then m.resetStatics else m) ∧
      (if m.statics?.isNone then m.resetStatics else m).statics?.isSome
    split
    · exact ⟨hm.resetStatics, rfl⟩
    · next hsome => exact ⟨hm, by simpa [Option.isSome_iff_ne_none] using hsome⟩
  have hbegun {α : Type} {a : Action α} {n : Nat} {Q : α → Machine → Prop}
      (h : Meets (Started M n) a Q fun _ => Started M n) :
      Meets (Started M n) a Q fun _ m => m.Ready M := h.imp_error fun _ _ hm => hm.ready
  refine hstatics.bind fun _ => Meets.of_eq (k := fun m => m.calls.length) fun n => ?_
  refine Meets.of_imp (P := Started M n) ?_ fun m hm => ⟨hm.1.1, hm.1.2, hm.2⟩
  refine (hbegun (meets_methodAt method)).bind fun f => Meets.of_and fun _ => ?_
  dsimp only
  split
  · exact fun m hm => hm.ready
  refine Meets.get_bind fun m₀ hm₀ => Meets.of_imp (P := Started M n) ?_ fun m hm => hm.1
  have henter : Meets (Started M n) (do args.forM push; enter method) (fun _ => Started M (n + 1))
      fun _ => Started M n :=
    (Quiet.forM fun v => Quiet.push v).started.bind fun _ => meets_enter method
  refine (Meets.settling (hbegun henter)).bind fun _ => Meets.pure _ fun m hm => ⟨hm.ready, ?_⟩
  rw [hm.depth, hm₀.depth]
  exact Nat.lt_succ_self n

def replaceStatic (k : Nat) : Action Unit := do
  let v ← peek
  modify fun m => { m with statics? := m.statics?.map fun s => s.set! k v }

def loadLinked (native : Native) : Action Unit :=
  match native.body with
  | .constant v => push v
  | .routine _ => fail (.notField native.key)

def callLinked (native : Native) : Action Unit :=
  match native.body with
  | .constant _ => fail (.notCallable native.key)
  | .routine r => do
    let args ← popArgs r.arity
    let v ← callRoutine native.key r args
    if r.returns then push v

def enterFound (method : Int) (f : Method) : Action Unit := do
  let m ← get
  if m.maxDepth ≤ m.calls.length then fail (.stackOverflow f.name)
  else
    let base := m.top - f.params.size
    f.locals.toList.forM fun slot => push (Value.zero slot.type)
    modify fun m => { m with calls := ⟨method, 0, base⟩ :: m.calls }

/-- What an instruction does with the entry of a table to which its operand refers, or with the
instruction to which it jumps; nothing if that is not there. -/
def withEntry? (m : Machine) (op : Operation) (i : Instruction) (f : Activation) (g : Method) :
    Option (Action Unit) :=
  let a := i.operand.toInt
  match op with
  | .push => (entryAt? m.module.constants a).map fun c => push c.value
  | .loadStatic => (entryAt? (m.statics?.getD #[]) a).map push
  | .storeStatic => (entryAt? (m.statics?.getD #[]) a).map fun _ => replaceStatic a.toNat
  | .loadNative => (entryAt? m.natives a).map loadLinked
  | .callNative => (entryAt? m.natives a).map callLinked
  | .box => (entryAt? m.module.types a).map fun type => do
    let v ← pop
    push (← apply fun m => m.box type v)
  | .unbox => (entryAt? m.module.types a).map fun wanted => do
    let v ← pop
    push (← unbox wanted v)
  | .newArray => (entryAt? m.module.types a).map newArray
  | .call => (m.module.methodAt? a).map (enterFound a)
  | .jump | .jumpTrue => (entryAt? g.code a).map fun _ => perform op i f g
  | _ => some (perform op i f g)

section Entries

variable {m : Machine} {op : Operation} {i : Instruction} {f : Activation} {g : Method} {a : Action Unit}

theorem peek_apply (m : Machine) : peek m = orCrash (entryAt? m.cells (m.top - 1)) m := by
  unfold peek cell entryAt?
  split
  · rfl
  · cases m.cells[(m.top - 1).toNat]? with
    | none => rfl
    | some v => rfl

theorem get_entry_bind {α β : Type} {k : Int} {x : α} (table : Machine → Array α) {c : α → Action β}
    (hx : entryAt? (table m) k = some x) :
    (do c (← entry (table (← get)) k) : Action β) m = c x m := by
  change (entry (table m) k >>= c) m = _
  rw [entry_eq, hx]
  rfl

/-- An instruction whose entry is there does with it what it does. -/
theorem perform_eq (ha : withEntry? m op i f g = some a) : perform op i f g m = a m := by
  cases op with
  | push =>
    obtain ⟨c, hc, rfl⟩ := Option.map_eq_some_iff.mp ha
    exact get_entry_bind (·.module.constants) hc
  | loadStatic =>
    obtain ⟨v, hv, rfl⟩ := Option.map_eq_some_iff.mp ha
    exact get_entry_bind (·.statics?.getD #[]) hv
  | storeStatic =>
    obtain ⟨_, hv, rfl⟩ := Option.map_eq_some_iff.mp ha
    change (peek >>= fun v => get >>= fun m => entry (m.statics?.getD #[]) i.operand.toInt >>= _) m = _
    simp only [replaceStatic, Bind.bind, EStateM.bind, peek_apply]
    cases entryAt? m.cells (m.top - 1) with
    | none => rfl
    | some v => exact get_entry_bind (·.statics?.getD #[]) hv
  | loadNative =>
    obtain ⟨native, hn, rfl⟩ := Option.map_eq_some_iff.mp ha
    exact get_entry_bind _ (c := loadLinked) hn
  | callNative =>
    obtain ⟨native, hn, rfl⟩ := Option.map_eq_some_iff.mp ha
    exact get_entry_bind _ (c := callLinked) hn
  | box =>
    obtain ⟨type, ht, rfl⟩ := Option.map_eq_some_iff.mp ha
    exact get_entry_bind (·.module.types) ht
  | unbox =>
    obtain ⟨type, ht, rfl⟩ := Option.map_eq_some_iff.mp ha
    exact get_entry_bind (·.module.types) ht
  | newArray =>
    obtain ⟨type, ht, rfl⟩ := Option.map_eq_some_iff.mp ha
    exact get_entry_bind (·.module.types) ht
  | call =>
    obtain ⟨f', hf, rfl⟩ := Option.map_eq_some_iff.mp ha
    change (methodAt i.operand.toInt >>= enterFound i.operand.toInt) m = _
    simp only [Bind.bind, EStateM.bind, methodAt_of_eq_some hf]
  | jump | jumpTrue =>
    obtain ⟨target, -, rfl⟩ := Option.map_eq_some_iff.mp ha
    rfl
  | _ =>
    obtain rfl := Option.some.inj ha
    rfl

/-- An instruction whose operand is in range finds its entry in the tables of a machine that is ready. -/
theorem exists_withEntry? {M : Module} (hM : M.InRange) (hm : m.Ready M) (hstatics : m.statics?.isSome)
    (hop : i.operation? = some op) (hrange : M.inRange g i) :
    ∃ a, withEntry? m op i f g = some a := by
  have hbounds {limit : Nat} (hlimit : M.limit? g op.operand = some limit) :=
    operand_of_inRange hrange hop hlimit
  obtain ⟨fields, hfields⟩ := Option.isSome_iff_exists.mp hstatics
  have hfield : (m.statics?.getD #[]).size = M.fields.size := by
    rw [hfields]
    exact hm.statics fields hfields
  have hentry {α : Type} {table : Array α} {c : α → Action Unit}
      (hlimit : M.limit? g op.operand = some table.size) :
      ∃ a, (entryAt? table i.operand.toInt).map c = some a := by
    obtain ⟨x, hx⟩ := exists_entryAt? (hbounds hlimit).1 (hbounds hlimit).2
    exact ⟨c x, by rw [hx, Option.map_some]⟩
  cases op with
  | push => exact hentry (congrArg some (by rw [hm.module]))
  | loadStatic | storeStatic => exact hentry (congrArg some hfield.symm)
  | loadNative | callNative => exact hentry (congrArg some hm.natives.symm)
  | box | unbox | newArray => exact hentry (congrArg some (by rw [hm.module]))
  | call =>
    obtain ⟨f', hf'⟩ := hM.exists_methodAt? (hbounds rfl).1 (hbounds rfl).2
    rw [← hm.module] at hf'
    exact ⟨enterFound i.operand.toInt f', congrArg (Option.map _) hf'⟩
  | jump | jumpTrue => exact hentry rfl
  | _ => exact ⟨_, rfl⟩

end Entries

def gives {α : Type} (a : Action α) (m : Machine) (p : α → Machine → Bool) : Bool :=
  match a m with
  | .ok x m' => p x m'
  | .error _ _ => false

theorem exists_of_gives {α : Type} {a : Action α} {m : Machine} {p : α → Machine → Bool}
    (h : a.gives m p) : ∃ x m', a m = .ok x m' ∧ p x m' := by
  unfold gives at h
  split at h
  · next x m' hrun => exact ⟨x, m', hrun, h⟩
  · cases h

end Action

namespace Machine

/-- What becomes of a machine that is loaded and then called in whatever way and with whatever outcome,
a crash included. In between, input comes, time goes by, output is taken away and static fields are
set to zero. An invocation in progress is named. -/
inductive Visited (M : Module) (s : Settings) : Option Invocation → Machine → Prop
  | loaded {m : Machine} (h : load M s = .ok m) : Visited M s none m
  | supplied {v? : Option Invocation} {m : Machine} (h : Visited M s v? m) (input : Input)
    (clock : Clock) (generator : Generator) : Visited M s v? { m with input, clock, generator }
  | taken {v? : Option Invocation} {m : Machine} (h : Visited M s v? m) :
    Visited M s v? m.takeOutput.2
  | zeroed {v? : Option Invocation} {m : Machine} (h : Visited M s v? m) :
    Visited M s v? m.resetStatics
  | begun {v? : Option Invocation} {m m' : Machine} {method : Int} {args : List Value} {v : Invocation}
    (h : Visited M s v? m) (hbegin : Action.begin method args m = .ok v m') : Visited M s (some v) m'
  | refused {v? : Option Invocation} {m m' : Machine} {method : Int} {args : List Value} {stop : Stop}
    (h : Visited M s v? m) (hbegin : Action.begin method args m = .error stop m') : Visited M s none m'
  | stepped {m m' : Machine} {v : Invocation} (h : Visited M s (some v) m)
    (hstep : Action.step v.depth m = .ok none m') : Visited M s (some v) m'
  | returned {m m' : Machine} {v : Invocation} {r : Value} (h : Visited M s (some v) m)
    (hstep : Action.step v.depth m = .ok (some r) m') : Visited M s none m'
  | stopped {m m' : Machine} {v : Invocation} {stop : Stop} (h : Visited M s (some v) m)
    (hstep : Action.step v.depth m = .error stop m') : Visited M s none (m'.settle v stop)
  | awaiting {m m' : Machine} {v : Invocation} (h : Visited M s (some v) m)
    (hstep : Action.step v.depth m = .error .awaitInput m') : Visited M s (some v) m'

theorem ready_of_load {M : Module} {s : Settings} {m : Machine} (h : load M s = .ok m) : m.Ready M := by
  obtain ⟨-, hlinked, heq⟩ := load_eq_ok.mp h
  have hsize := (Module.linkNatives_eq_ok.mp hlinked).length_eq
  rw [heq]
  exact {
    module := rfl
    natives := by simpa using hsize.symm
    statics := fun _ hfields => by cases hfields
    started := fun hcalls => absurd rfl hcalls
    calls := fun _ hf => by cases hf }

namespace Visited

variable {M : Module} {s : Settings} {v? : Option Invocation} {v : Invocation} {m : Machine}

theorem inRange (h : Visited M s v? m) : M.InRange := by
  induction h with
  | loaded h => exact (load_eq_ok.mp h).1
  | _ => assumption

/-- Whatever was done with a machine, it is ready, and the call that was made last from outside is in
progress. -/
theorem ready (h : Visited M s v? m) : m.Ready M ∧ ∀ v ∈ v?, v.depth < m.calls.length := by
  have hM := h.inRange
  have hnone {m : Machine} : ∀ v ∈ (none : Option Invocation), v.depth < m.calls.length :=
    fun _ hv => by cases hv
  have hsome {v : Invocation} {m : Machine} (h : Action.Going M v.depth m) :
      m.Ready M ∧ ∀ v' ∈ some v, v'.depth < m.calls.length := by
    refine ⟨h.ready, fun v' hv' => ?_⟩
    obtain rfl := Option.some.inj hv'
    exact h.depth
  induction h with
  | loaded h => exact ⟨ready_of_load h, hnone⟩
  | supplied _ input clock generator ih =>
    have hsame {m : Machine} : m.SameTables { m with input, clock, generator } := ⟨rfl, rfl, rfl, rfl⟩
    exact ⟨hsame.ready ih.1, ih.2⟩
  | taken _ ih =>
    have hsame {m : Machine} : m.SameTables m.takeOutput.2 := ⟨rfl, rfl, rfl, rfl⟩
    exact ⟨hsame.ready ih.1, ih.2⟩
  | zeroed _ ih => exact ⟨ih.1.resetStatics, ih.2⟩
  | @begun _ m _ method args _ _ hbegin ih =>
    have hout := Action.meets_begin method args m ih.1
    rw [hbegin] at hout
    exact hsome hout
  | @refused _ m _ method args _ _ hbegin ih =>
    have hout := Action.meets_begin method args m ih.1
    rw [hbegin] at hout
    exact ⟨hout, hnone⟩
  | @stepped m _ v _ hstep ih =>
    have hout := Action.meets_step hM m ⟨ih.1, ih.2 v rfl⟩
    rw [hstep] at hout
    exact hsome hout
  | @returned m _ v _ _ hstep ih =>
    have hout := Action.meets_step hM m ⟨ih.1, ih.2 v rfl⟩
    rw [hstep] at hout
    exact ⟨hout, hnone⟩
  | @stopped m _ v stop _ hstep ih =>
    have hout := Action.meets_step hM m ⟨ih.1, ih.2 v rfl⟩
    rw [hstep] at hout
    exact ⟨hout.ready.settle v stop, hnone⟩
  | @awaiting m _ v _ hstep ih =>
    have hout := Action.meets_step hM m ⟨ih.1, ih.2 v rfl⟩
    rw [hstep] at hout
    exact hsome ⟨hout.ready, hout.depth rfl⟩

/-- Whatever is done with a machine that was loaded, every method of the module can be called, and the
call in progress is at an instruction of its method or behind the last one. Behind the last one the
next step is a fault, and so it is at an instruction that is none. Any other instruction finds the
entry to which its operand refers, or the instruction to which it jumps, and the step is what it does
with that. -/
theorem accesses_within_tables (h : Visited M s v? m) :
    (∀ k : Int, 0 ≤ k → k < M.methods.size → ∃ g, Action.methodAt k m = .ok g m) ∧
    ∀ v, v? = some v → ∃ f rest g, m.calls = f :: rest ∧ Action.methodAt f.method m = .ok g m ∧
      0 ≤ f.next ∧ f.next ≤ g.code.size ∧
      (f.next = g.code.size →
        Action.step v.depth m = .error (.fault ⟨g.name, f.next - 1, .fellOffEnd g.name⟩) m) ∧
      ∀ i, g.code[f.next.toNat]? = some i →
        let m' : Machine := { m with calls := { f with next := f.next + 1 } :: rest }
        (i.operation? = none →
          Action.step v.depth m = .error (.fault ⟨g.name, f.next, .unknownOperation i.name⟩) m') ∧
        ∀ op, i.operation? = some op → op ≠ .ret → op ≠ .retVoid →
          ∃ a, Action.withEntry? m' op i f g = some a ∧
            Action.step v.depth m = (do a; return none : Action (Option Value)) m' := by
  have hM := h.inRange
  obtain ⟨hready, hdepth⟩ := h.ready
  have hmethodAt {k : Int} {g : Method} (hg : M.methodAt? k = some g) :
      Action.methodAt k m = .ok g m := Action.methodAt_of_eq_some (by rw [hready.module, hg])
  refine ⟨fun k hlow hhigh => ?_, ?_⟩
  · obtain ⟨g, hg⟩ := hM.exists_methodAt? hlow hhigh
    exact ⟨g, hmethodAt hg⟩
  rintro v rfl
  have hv := hdepth v rfl
  cases hcalls : m.calls with
  | nil => simp [hcalls] at hv
  | cons f rest =>
    obtain ⟨hnext, g, hg, hend⟩ := hready.calls f (by simp [hcalls])
    have hfound : m.module.methodAt? f.method = some g := hready.module ▸ hg
    refine ⟨f, rest, g, rfl, hmethodAt hg, hnext, hend, fun hlast => ?_, fun i hi => ?_⟩
    · have hnone : g.code[f.next.toNat]? = none := Array.getElem?_eq_none (by omega)
      simp only [Action.step, Bind.bind, EStateM.bind, Action.fetch_end hcalls hfound hnext hnone,
        Action.locate_eq hcalls hfound]
    · intro m'
      have hfetch : Action.fetch m = .ok (f, g, i) m' := Action.fetch_at hcalls hfound hnext hi
      have hmoved : m'.Ready M :=
        hready.withCalls (by simp [hcalls]) (Action.placed_moved hready.calls hcalls hg hi)
      have hstatics : m'.statics?.isSome := hready.started (by simp [hcalls])
      have hrange : M.inRange g i := hM.of_methodAt? hg (Array.mem_of_getElem? hi)
      refine ⟨fun hop => ?_, fun op hop hret hretVoid => ?_⟩
      · have hlocate := Action.locate_eq (m := m') rfl (hready.module ▸ hg)
          (.unknownOperation i.name)
        rw [Int.add_sub_cancel] at hlocate
        simp only [Action.step, Bind.bind, EStateM.bind, hfetch, hop, Action.fail, hlocate]
      · obtain ⟨a, ha⟩ := Action.exists_withEntry? (f := f) hM hmoved hstatics hop hrange
        refine ⟨a, ha, ?_⟩
        have hperform : Action.step v.depth m =
            (do Action.perform op i f g; return none : Action (Option Value)) m' := by
          simp only [Action.step, Bind.bind, EStateM.bind, hfetch, hop]
        rw [hperform]
        simp only [Bind.bind, EStateM.bind, Action.perform_eq ha]

def unended : Module :=
  { Module.empty "unended" with
    constants := #[.int 7]
    methods := #[some ⟨"f", #[], "void", #[], #[⟨Operation.code .push, 0, 0⟩]⟩] }

/-- Behind its only instruction the method comes to a fault. -/
theorem accesses_within_tables_unended : ∃ m v m₁ m₂, load unended .standard = .ok m ∧
    Action.begin 0 [] m = .ok v m₁ ∧ Action.step v.depth m₁ = .ok none m₂ ∧
      Action.step v.depth m₂ = .error (.fault ⟨"f", 0, .fellOffEnd "f"⟩) m₂ := by
  have h : ((load unended .standard).toOption.any fun m =>
      (Action.begin 0 []).gives m fun v m₁ =>
        (Action.step v.depth).gives m₁ fun r m₂ => r.isNone && m₂.calls == [⟨0, 1, 0⟩]) = true := by
    decide +kernel
  cases hload : load unended .standard with
  | error fault =>
    rw [hload] at h
    cases h
  | ok m =>
    rw [hload] at h
    obtain ⟨v, m₁, hbegin, h⟩ := Action.exists_of_gives h
    obtain ⟨r, m₂, hstep, h⟩ := Action.exists_of_gives h
    rw [Bool.and_eq_true, Option.isNone_iff_eq_none, beq_iff_eq] at h
    obtain ⟨rfl, hcalls⟩ := h
    have hm₂ : Visited unended .standard (some v) m₂ := ((loaded hload).begun hbegin).stepped hstep
    obtain ⟨-, hcall⟩ := accesses_within_tables hm₂
    obtain ⟨f, rest, g, hf, hg, -, -, hend, -⟩ := hcall v rfl
    rw [hcalls] at hf
    obtain ⟨rfl, rfl⟩ := List.cons.inj hf
    obtain ⟨hg, -⟩ := Action.methodAt_eq_ok hg
    rw [hm₂.ready.1.module] at hg
    obtain rfl := Option.some.inj hg
    exact ⟨m, v, m₁, m₂, rfl, hbegin, hstep, hend rfl⟩

end Visited
end Machine
end TypedScript
