import TypedScript.Proofs.Compilation
import TypedScript.Proofs.Machine.Answers
import TypedScript.Proofs.Machine.Cycles
import TypedScript.Proofs.Machine.Reached

/-!
# Which values can be printed

Writing a value comes to an end exactly if it leads to no array that contains itself. Of all
instructions only a store into an array can make one that does, and only if the array can be reached
from what is stored into it.
-/

namespace TypedScript

namespace Action

def final {α : Type} : EStateM.Result Stop Machine α → Machine
  | .ok _ m => m
  | .error _ m => m

def Spares {α : Type} (a : Action α) : Prop := ∀ m, (final (a m)).heap = m.heap

namespace Spares

variable {α β : Type} {a : Action α} {f : α → Action β}

theorem bind (ha : Spares a) (hf : ∀ x, Spares (f x)) : Spares (a >>= f) := by
  intro m
  have hm := ha m
  simp only [Bind.bind, EStateM.bind]
  cases h : a m with
  | ok x m₁ =>
    rw [h] at hm
    exact (hf x m₁).trans hm
  | error s m₁ =>
    rw [h] at hm
    exact hm

theorem pure (x : α) : Spares (Pure.pure x : Action α) := fun _ => rfl

theorem get_bind {f : Machine → Action β} (hf : ∀ m, Spares (f m)) :
    Spares (MonadState.get >>= f) := fun m => hf m m

theorem modify {f : Machine → Machine} (hf : ∀ m, (f m).heap = m.heap) :
    Spares (modify f : Action Unit) := fun m => hf m

theorem throw (s : Stop) : Spares (MonadExcept.throw s : Action α) := fun _ => rfl

theorem crash : Spares (crash : Action α) := throw _

theorem fail (c : Cause) : Spares (fail c : Action α) := fun _ => rfl

theorem orFail (r : Except Cause α) : Spares (orFail r) := by
  cases r with
  | ok x => exact pure x
  | error c => exact fail c

theorem orCrash (o : Option α) : Spares (orCrash o) := by
  cases o with
  | some x => exact pure x
  | none => exact crash

theorem entry (table : Array α) (i : Int) : Spares (entry table i) := by
  unfold Action.entry
  split
  · exact crash
  · exact orCrash _

theorem push (v : Value) : Spares (push v) := by
  intro m
  unfold Action.push
  dsimp only
  split
  · rfl
  · split <;> rfl

theorem pop : Spares pop := by
  intro m
  unfold Action.pop
  dsimp only
  split
  · rfl
  · split <;> rfl

theorem popMany (n : Nat) : Spares (popMany n) := by
  induction n with
  | zero => exact pure ()
  | succ n ih => exact pop.bind fun _ => ih

theorem popArgs (n : Nat) : Spares (popArgs n) := by
  have hgo : ∀ (n : Nat) args, Spares (Action.popArgs.go n args) := by
    intro n
    induction n with
    | zero => exact fun args => pure args
    | succ n ih => exact fun args => pop.bind fun v => ih (v :: args)
  exact hgo n []

theorem cell (i : Int) : Spares (cell i) := by
  intro m
  unfold Action.cell
  split
  · rfl
  · split <;> rfl

theorem peek : Spares peek := fun m => cell (m.top - 1) m

theorem setCell (i : Int) (v : Value) : Spares (setCell i v) := by
  intro m
  unfold Action.setCell
  split <;> rfl

theorem text (v : Value) : Spares (text v) := get_bind fun _ => orCrash _

theorem forM {xs : List α} {f : α → Action Unit} (hf : ∀ x, Spares (f x)) : Spares (xs.forM f) := by
  induction xs with
  | nil => exact pure ()
  | cons x rest ih => exact (hf x).bind fun _ => ih

theorem methodAt (a : Int) : Spares (methodAt a) :=
  get_bind fun _ => (entry _ _).bind fun _ => orCrash _

theorem enter (a : Int) : Spares (enter a) := by
  refine (methodAt a).bind fun f => get_bind fun m => ?_
  split
  · exact fail _
  · exact (forM fun slot => push _).bind fun _ => modify fun _ => rfl

theorem leave : Spares leave := by
  refine get_bind fun m => ?_
  split
  · exact crash
  · exact (popMany _).bind fun _ => modify fun _ => rfl

theorem jump (target : Int) : Spares (jump target) := modify fun m => by split <;> rfl

theorem await : Spares (await : Action α) := bind (modify fun m => by split <;> rfl) fun _ => throw _

theorem unbox (wanted : String) (v : Value) : Spares (unbox wanted v) := by
  unfold Action.unbox
  split
  · split
    · exact pure _
    · exact fail _
  · exact (text _).bind fun _ => fail _

theorem randomBits : Spares randomBits := by
  intro m
  have hrun : Action.randomBits m =
      .ok m.generator.next.1 { m with generator := m.generator.next.2 } := rfl
  simp only [hrun, final]

theorem randomBetween (key : String) (low high : Int64) : Spares (randomBetween key low high) := by
  unfold Action.randomBetween
  split
  · exact fail _
  · split
    · exact pure _
    · split
      · exact throw _
      · exact randomBits.bind fun _ => pure _

theorem callRoutine (key : String) (r : Routine) (args : List Value) :
    Spares (callRoutine key r args) := by
  have h := answers_callRoutine key r args
  generalize Action.callRoutine key r args = a at h ⊢
  cases h with
  | print line v => exact (text v).bind fun s => bind (modify fun _ => rfl) fun _ => pure _
  | newline => exact bind (modify fun _ => rfl) fun _ => pure _
  | input =>
    refine get_bind fun m => ?_
    split
    · exact await
    · exact bind (modify fun _ => rfl) fun _ => pure _
  | random => exact randomBits.bind fun _ => pure _
  | randomBetween low high => exact randomBetween key low high
  | exit code => exact throw _
  | clock => exact get_bind fun m => bind (modify fun _ => rfl) fun _ => pure _
  | concat v w => exact (text v).bind fun _ => (text w).bind fun _ => pure _
  | toText v => exact (text v).bind fun _ => pure _
  | parse t s =>
    split
    · exact pure _
    · exact fail _
  | abs | absFloat | sqrt | equalTexts | equalObjects => exact pure _
  | refused => exact crash

theorem callNative (i : Int) : Spares (callNative i) := by
  refine get_bind fun m => (entry _ _).bind fun native => ?_
  split
  · exact fail _
  · refine (popArgs _).bind fun args => (callRoutine _ _ _).bind fun v => ?_
    split
    · exact push v
    · exact pure ()

theorem loadNative (i : Int) : Spares (loadNative i) := by
  refine get_bind fun m => (entry _ _).bind fun native => ?_
  split
  · exact push _
  · exact fail _

theorem fetch : Spares fetch := by
  refine get_bind fun m => ?_
  split
  · exact crash
  · refine (methodAt _).bind fun method => ?_
    split
    · exact crash
    · split
      · exact fail _
      · exact bind (modify fun _ => rfl) fun _ => pure _

/-- Instructions that neither make an array nor store into one. -/
theorem perform {op : Operation} (hnew : op ≠ .newArray) (hstore : op ≠ .storeElem) (i : Instruction)
    (f : Activation) (method : Method) : Spares (perform op i f method) := by
  cases op with
  | newArray => exact absurd rfl hnew
  | storeElem => exact absurd rfl hstore
  | nop | ret | retVoid => exact pure ()
  | pop => exact pop.bind fun _ => pure ()
  | dup => exact peek.bind fun _ => push _
  | push => exact get_bind fun _ => (entry _ _).bind fun _ => push _
  | loadArg | loadLocal => exact (cell _).bind fun _ => push _
  | storeLocal => exact peek.bind fun _ => setCell _ _
  | loadStatic => exact get_bind fun _ => (entry _ _).bind fun _ => push _
  | storeStatic =>
    exact peek.bind fun _ => get_bind fun _ => (entry _ _).bind fun _ => modify fun _ => rfl
  | loadNative => exact loadNative _
  | neg | compl | convert => exact pop.bind fun _ => (orFail _).bind fun _ => push _
  | box =>
    exact get_bind fun _ => (entry _ _).bind fun _ => pop.bind fun _ =>
      bind (fun _ => rfl) fun _ => push _
  | unbox =>
    exact get_bind fun _ => (entry _ _).bind fun _ => pop.bind fun _ => (unbox _ _).bind fun _ =>
      push _
  | loadElem =>
    exact pop.bind fun _ => pop.bind fun _ => get_bind fun _ => (orFail _).bind fun _ => push _
  | length => exact pop.bind fun _ => get_bind fun _ => (orFail _).bind fun _ => push _
  | call => exact enter _
  | callNative => exact callNative _
  | jump => exact jump _
  | jumpTrue =>
    refine pop.bind fun v => ?_
    split
    · exact jump _
    · exact pure ()
    · exact fail _
  | add | sub | mul | div | rem | and | or | xor | shl | shr | ceq | clt | cgt =>
    exact pop.bind fun _ => pop.bind fun _ => (orFail _).bind fun _ => push _

end Spares

section

variable {α β : Type} {a : Action α} {f : α → Action β} {m m₁ : Machine}

theorem final_bind_error {s : Stop} (h : a m = .error s m₁) : final ((a >>= f) m) = m₁ := by
  simp only [Bind.bind, EStateM.bind, h, final]

theorem final_bind_ok {x : α} (h : a m = .ok x m₁) : final ((a >>= f) m) = final (f x m₁) := by
  simp only [Bind.bind, EStateM.bind, h]

/-- Where the first part leaves the arrays as they are, the second decides. -/
theorem Spares.final_bind (ha : Spares a) (f : α → Action β) (m : Machine) :
    (final ((a >>= f) m)).heap = m.heap ∨
      ∃ x m₁, a m = .ok x m₁ ∧ m₁.heap = m.heap ∧ final ((a >>= f) m) = final (f x m₁) := by
  have hm := ha m
  cases h : a m with
  | error s m₁ =>
    rw [h] at hm
    exact .inl (by rw [final_bind_error h]; exact hm)
  | ok x m₁ =>
    rw [h] at hm
    exact .inr ⟨x, m₁, rfl, hm, final_bind_ok h⟩

end

/-- An array is made of zeros. -/
theorem heap_newArray (type : String) (m : Machine) :
    (final (newArray type m)).heap = m.heap ∨ ∃ size,
      (final (newArray type m)).heap = m.heap.push ⟨type, Array.replicate size (Value.zero type)⟩ := by
  unfold newArray
  obtain hsame | ⟨v, m₁, -, hheap₁, hfinal⟩ := Spares.pop.final_bind _ m
  · exact .inl hsame
  · rw [hfinal, ← hheap₁]
    obtain hsame | ⟨size, m₂, -, hheap₂, hfinal⟩ := (Spares.orFail v.index).final_bind _ m₁
    · exact .inl hsame
    · rw [hfinal, ← hheap₂]
      split
      · exact .inl rfl
      · split
        · exact .inl rfl
        · exact .inr ⟨size.toNat, Spares.push _ _⟩

theorem heap_performNewArray (i : Instruction) (f : Activation) (method : Method) (m : Machine) :
    (final (perform .newArray i f method m)).heap = m.heap ∨ ∃ type size,
      (final (perform .newArray i f method m)).heap =
        m.heap.push ⟨type, Array.replicate size (Value.zero type)⟩ := by
  unfold perform
  dsimp only
  have hget : Spares (MonadState.get : Action Machine) := fun _ => rfl
  obtain hsame | ⟨_, m₁, -, hheap₁, hfinal⟩ := hget.final_bind _ m
  · exact .inl hsame
  rw [hfinal, ← hheap₁]
  obtain hsame | ⟨type, m₂, -, hheap₂, hfinal⟩ := (Spares.entry _ _).final_bind _ m₁
  · exact .inl hsame
  rw [hfinal, ← hheap₂]
  exact (heap_newArray type m₂).imp_right fun ⟨size, hheap⟩ => ⟨type, size, hheap⟩

/-- The machine is about to store a value into an array: the value is uppermost, then comes an index,
then the array. -/
def Storing (v : Value) (ref : Nat) (m : Machine) : Prop :=
  ∃ index m₁ m₂ m₃, pop m = .ok v m₁ ∧ pop m₁ = .ok index m₂ ∧ pop m₂ = .ok (.array ref) m₃

/-- Where a store goes. -/
theorem place_eq_ok {m : Machine} {target index : Value} {ref k : Nat}
    (h : m.place target index = .ok (ref, k)) : target = .array ref := by
  unfold Machine.place at h
  cases hindex : index.index with
  | error c => simp [hindex, Bind.bind, Except.bind] at h
  | ok i =>
    cases target with
    | array ref' =>
      cases hentry : entryAt (m.items ref') i with
      | error c => simp [hindex, hentry, Bind.bind, Except.bind] at h
      | ok v =>
        simp only [hindex, hentry, Bind.bind, Except.bind, Pure.pure, Except.pure, Except.ok.injEq,
          Prod.mk.injEq] at h
        rw [h.1]
    | _ => simp [hindex, Bind.bind, Except.bind, throw, throwThe, MonadExceptOf.throw] at h

/-- A store puts the uppermost value into the array below the index. -/
theorem heap_storeElem (i : Instruction) (f : Activation) (method : Method) (m : Machine) :
    (final (perform .storeElem i f method m)).heap = m.heap ∨ ∃ v ref k, Storing v ref m ∧
      (final (perform .storeElem i f method m)).heap =
        m.heap.modify ref fun a => { a with items := a.items.set! k v } := by
  unfold perform
  dsimp only
  obtain hsame | ⟨v, m₁, hv, hheap₁, hfinal⟩ := Spares.pop.final_bind _ m
  · exact .inl hsame
  rw [hfinal, ← hheap₁]
  obtain hsame | ⟨index, m₂, hindex, hheap₂, hfinal⟩ := Spares.pop.final_bind _ m₁
  · exact .inl hsame
  rw [hfinal, ← hheap₂]
  obtain hsame | ⟨target, m₃, htarget, hheap₃, hfinal⟩ := Spares.pop.final_bind _ m₂
  · exact .inl hsame
  rw [hfinal, ← hheap₃]
  obtain hsame | ⟨⟨ref, k⟩, m₄, hplace, hheap₄, hfinal⟩ :=
    (Spares.orFail (m₃.place target index)).final_bind _ m₃
  · exact .inl hsame
  have htarget' : target = .array ref := by
    cases hp : m₃.place target index with
    | error c =>
      rw [hp] at hplace
      cases hplace
    | ok p =>
      rw [hp] at hplace
      cases hplace
      exact place_eq_ok hp
  subst htarget'
  refine .inr ⟨v, ref, k, ⟨index, m₁, m₂, m₃, hv, hindex, htarget⟩, ?_⟩
  refine (congrArg (fun m => Machine.heap m) hfinal).trans ?_
  rw [← hheap₄]
  exact Spares.push v _

theorem heap_lowerTo (floor : Int) (m : Machine) : (m.lowerTo floor).heap = m.heap := by
  have h := Spares.popMany (m.top - floor).toNat m
  unfold Machine.lowerTo
  split <;> simp_all [final]

theorem heap_settle (v : Invocation) (s : Stop) (m : Machine) : (m.settle v s).heap = m.heap := by
  cases s with
  | fault | exit => exact heap_lowerTo _ _
  | crash | awaitInput | paused => rfl

namespace Spares

theorem settling {α : Type} (v : Invocation) {a : Action α} (ha : Spares a) :
    Spares (settling v a) := by
  intro m
  have hm := ha m
  unfold Action.settling
  cases h : a m with
  | ok x m₁ =>
    rw [h] at hm
    exact hm
  | error s m₁ =>
    rw [h] at hm
    exact (heap_settle v s m₁).trans hm

theorem begin (method : Int) (args : List Value) : Spares (begin method args) := by
  refine bind (modify fun m => by split <;> rfl) fun _ => (methodAt method).bind fun f => ?_
  have hrest : Spares (do
      let m ← MonadState.get
      let v : Invocation := ⟨m.calls.length, m.top⟩
      Action.settling v do
        args.forM Action.push
        Action.enter method
      Pure.pure v) :=
    get_bind fun m => bind (settling _ (bind (forM push) fun _ => enter method)) fun _ => pure _
  dsimp only
  split
  · exact (throw _).bind fun _ => hrest
  · exact hrest

end Spares
end Action

namespace Machine

def Stores (m : Machine) (v : Value) (ref : Nat) : Prop :=
  ∃ f method i m₀, Action.fetch m = .ok (f, method, i) m₀ ∧ i.operation? = some .storeElem ∧
    Action.Storing v ref m₀

/-- What a step does to the arrays. -/
theorem heap_step (depth : Nat) (m : Machine) :
    (Action.final (Action.step depth m)).heap = m.heap ∨
      (∃ type size, (Action.final (Action.step depth m)).heap =
        m.heap.push ⟨type, Array.replicate size (Value.zero type)⟩) ∨
      ∃ v ref k, m.Stores v ref ∧ (Action.final (Action.step depth m)).heap =
        m.heap.modify ref fun a => { a with items := a.items.set! k v } := by
  unfold Action.step
  obtain hsame | ⟨⟨f, method, i⟩, m₀, hfetch, hheap, hfinal⟩ := Action.Spares.fetch.final_bind _ m
  · exact .inl hsame
  rw [hfinal, ← hheap]
  dsimp only
  have hperform : ∀ op, (Action.final ((Action.perform op i f method >>= fun _ =>
      (pure none : Action (Option Value))) m₀)).heap =
        (Action.final (Action.perform op i f method m₀)).heap := by
    intro op
    cases h : Action.perform op i f method m₀ with
    | ok _ m₁ =>
      rw [Action.final_bind_ok h]
      rfl
    | error s m₁ =>
      rw [Action.final_bind_error h]
      rfl
  cases hop : i.operation? with
  | none => exact .inl rfl
  | some op =>
    by_cases hstore : op = .storeElem
    · subst hstore
      obtain hsame | ⟨v, ref, k, hstoring, hheap'⟩ := Action.heap_storeElem i f method m₀
      · exact .inl ((hperform _).trans hsame)
      · exact .inr (.inr ⟨v, ref, k, ⟨f, method, i, m₀, hfetch, hop, hstoring⟩,
          (hperform _).trans hheap'⟩)
    · by_cases hnew : op = .newArray
      · subst hnew
        obtain hsame | ⟨type, size, hheap'⟩ := Action.heap_performNewArray i f method m₀
        · exact .inl ((hperform _).trans hsame)
        · exact .inr (.inl ⟨type, size, (hperform _).trans hheap'⟩)
      · refine .inl ?_
        cases op with
        | ret =>
          refine Action.Spares.pop.bind (fun v => Action.Spares.leave.bind fun _ =>
            Action.Spares.get_bind fun m => ?_) m₀
          split
          · exact Action.Spares.pure _
          · exact (Action.Spares.push v).bind fun _ => Action.Spares.pure _
        | retVoid =>
          refine Action.Spares.leave.bind (fun _ => Action.Spares.get_bind fun m => ?_) m₀
          split
          · exact Action.Spares.pure _
          · exact Action.Spares.pure _
        | _ => exact (hperform _).trans (Action.Spares.perform hnew hstore i f method m₀)

/-- What is done next is a store into an array that the stored value leads to. -/
def ClosesCycle (m : Machine) : Prop :=
  ∃ v ref inner, m.Stores v ref ∧ v.ref? = some inner ∧ m.heap.Leads inner ref

/-- No other step makes an array that contains itself. -/
theorem acyclic_step {m : Machine} (ha : m.heap.Acyclic) (hstore : ¬m.ClosesCycle) (depth : Nat) :
    (Action.final (Action.step depth m)).heap.Acyclic := by
  obtain hheap | ⟨type, size, hheap⟩ | ⟨v, ref, k, hstores, hheap⟩ := m.heap_step depth
  · rw [hheap]
    exact ha
  · rw [hheap]
    exact ha.push type size
  · rw [hheap]
    exact ha.store fun inner hinner hleads => hstore ⟨v, ref, inner, hstores, hinner, hleads⟩

theorem acyclic_empty : Heap.Acyclic #[] := by
  intro ref hcycle
  obtain ⟨inner, ⟨v, hv, -⟩, -⟩ := Relation.TransGen.head'_iff.mp hcycle
  simp [Heap.items] at hv

/-- As long as no store closes a cycle, no array contains itself. -/
theorem ReachedBy.acyclic {M : Module} {s : Settings} {v? : Option Invocation} {m : Machine}
    (h : ReachedBy (fun m => ¬m.ClosesCycle) M s v? m) : m.heap.Acyclic := by
  induction h with
  | loaded hload =>
    obtain ⟨natives, -, hload⟩ := exists_of_bind_eq_ok hload
    obtain ⟨_, -, hload⟩ := exists_of_bind_eq_ok hload
    cases hload
    exact acyclic_empty
  | supplied _ _ _ _ ih => exact ih
  | taken _ ih => exact ih
  | zeroed _ ih => exact ih
  | @begun m m' method args v _ hbegin ih =>
    have hheap := Action.Spares.begin method args m
    rw [hbegin] at hheap
    rw [show m'.heap = m.heap from hheap]
    exact ih
  | @refused m m' method args stop _ hbegin _ ih =>
    have hheap := Action.Spares.begin method args m
    rw [hbegin] at hheap
    rw [show m'.heap = m.heap from hheap]
    exact ih
  | @stepped m m' v _ hp hstep ih | @returned m m' v r _ hp hstep ih | @awaiting m m' v _ hp hstep ih =>
    have hacyclic := acyclic_step ih hp v.depth
    rw [hstep] at hacyclic
    exact hacyclic
  | @stopped m m' v stop _ hp hstep _ ih =>
    have hacyclic := acyclic_step ih hp v.depth
    rw [hstep] at hacyclic
    rw [Action.heap_settle]
    exact hacyclic

/-- Writing a value comes to an end exactly if it leads to no array that contains itself. -/
theorem exists_text_iff (m : Machine) (v : Value) : (∃ text, Action.text v m = .ok text m) ↔
    ∀ ref inner, v.ref? = some ref → m.heap.Leads ref inner → ¬m.heap.OnCycle inner := by
  rw [← Heap.isSome_format?_iff, Option.isSome_iff_exists]
  have htext : Action.text v m = Action.orCrash (v.format? m.heap) m := rfl
  rw [htext]
  cases v.format? m.heap with
  | none =>
    refine ⟨?_, by simp⟩
    rintro ⟨text, hrun⟩
    cases hrun
  | some text => exact ⟨fun _ => ⟨text, rfl⟩, fun _ => ⟨text, rfl⟩⟩

/-- Writing comes to an end. A value that leads to no array that contains itself has a text, and such
arrays come up only by a store of a value into an array that it leads to: whatever else a program does,
in all states of its execution every value can be written. -/
theorem writing_terminates {M : Module} {s : Settings} {v? : Option Invocation} {m : Machine}
    (h : ReachedBy (fun m => ¬m.ClosesCycle) M s v? m) :
    m.heap.Acyclic ∧ (∀ v, ∃ text, Action.text v m = .ok text m) ∧
      ∀ (n : Machine) (v : Value), (∃ text, Action.text v n = .ok text n) ↔
        ∀ ref inner, v.ref? = some ref → n.heap.Leads ref inner → ¬n.heap.OnCycle inner := by
  have hacyclic := h.acyclic
  exact ⟨hacyclic, fun v => (exists_text_iff m v).mpr fun _ inner _ _ => hacyclic inner, exists_text_iff⟩

/-- The value and the array of a store that is done next. -/
def stored? (m : Machine) : Option (Value × Nat) :=
  match Action.fetch m with
  | .ok (_, _, i) m₀ =>
    if i.operation? = some .storeElem then
      match Action.pop m₀ with
      | .ok v m₁ =>
        match (Action.pop >>= fun _ => Action.pop) m₁ with
        | .ok (.array ref) _ => some (v, ref)
        | _ => none
      | _ => none
    else none
  | _ => none

theorem Stores.stored?_eq {m : Machine} {v : Value} {ref : Nat} (h : m.Stores v ref) :
    m.stored? = some (v, ref) := by
  obtain ⟨f, method, i, m₀, hfetch, hop, index, m₁, m₂, m₃, hv, hindex, htarget⟩ := h
  have hbelow : (Action.pop >>= fun _ => Action.pop) m₁ = .ok (.array ref) m₃ := by
    simp only [Bind.bind, EStateM.bind, hindex, htarget]
  simp only [stored?, hfetch, hop, if_pos, hv, hbelow]

/-- Whether what is stored next, if anything, leads to no array but itself, and is not the array that it is
stored into. -/
def keepsApart (m : Machine) : Bool :=
  m.stored?.all fun (v, ref) => v.ref?.all fun inner =>
    inner != ref && (m.heap.items inner).toList.all fun w => w.ref?.isNone

theorem not_closesCycle_of_keepsApart {m : Machine} (h : m.keepsApart = true) : ¬m.ClosesCycle := by
  rintro ⟨v, ref, inner, hstores, hinner, hleads⟩
  simp only [keepsApart, hstores.stored?_eq, Option.all_some, hinner, Bool.and_eq_true, bne_iff_ne,
    List.all_eq_true, Option.isNone_iff_eq_none] at h
  obtain rfl | ⟨next, ⟨w, hw, hnext⟩, -⟩ := hleads.cases_head
  · exact h.1 rfl
  · rw [h.2 w (Array.mem_toList_iff.mpr hw)] at hnext
    cases hnext

def writes : List Glyph :=
  "import std.io.print; var a = new object[1]; var b = new i32[2]; b[1] = 3; a[0] = b; print(a);".toList.map
    Glyph.ofChar

theorem writing_terminates_writes : ∃ c M m m', compile writes ⟨"", "", false⟩ = .ok c ∧
    c.module? = some M ∧ load M Settings.standard = .ok m ∧ m.run 100 = (.ended 0 none, m') ∧
    m'.output = "[[0, 3]]" ∧ m'.heap.Contains 0 1 ∧
    ReachedBy (fun m => ¬m.ClosesCycle) M Settings.standard none m' ∧ m'.heap.Acyclic ∧
    ∀ v, ∃ text, Action.text v m' = .ok text m' := by
  have hall : ((compile writes ⟨"", "", false⟩).toOption.any fun c => c.module?.any fun M =>
      (load M Settings.standard).toOption.any fun m =>
        (m.run 100).1.succeeded && decide ((m.run 100).2.output = "[[0, 3]]") &&
          ((m.run 100).2.heap.items 0).toList.any (fun v => v.ref? == some 1) &&
          (m.runStates 100).all keepsApart) = true := by decide +kernel
  obtain ⟨c, M, hc, hM, hrun⟩ := exists_module_of_any hall
  obtain ⟨m, hload, hrun⟩ := exists_of_toOption_any hrun
  simp only [Bool.and_eq_true, decide_eq_true_eq, List.any_eq_true, beq_iff_eq, List.all_eq_true] at hrun
  obtain ⟨⟨⟨hended, houtput⟩, v, hv, hinner⟩, hapart⟩ := hrun
  have hrun : m.run 100 = (.ended 0 none, (m.run 100).2) :=
    Prod.ext (RunResult.eq_of_succeeded hended) rfl
  have hreached : ReachedBy (fun m => ¬m.ClosesCycle) M Settings.standard none (m.run 100).2 :=
    ReachedBy.ended_of_run (.loaded hload)
      (fun m' hm' => not_closesCycle_of_keepsApart (hapart m' hm')) hrun
  obtain ⟨hacyclic, htexts, -⟩ := writing_terminates hreached
  exact ⟨c, M, m, (m.run 100).2, hc, hM, hload, hrun, houtput, ⟨v, Array.mem_toList_iff.mp hv, hinner⟩,
    hreached, hacyclic, htexts⟩

def circular : List Glyph := "var a = new object[1]; a[0] = a;".toList.map Glyph.ofChar

theorem circular_has_no_text : ∃ c M m, compile circular ⟨"", "", false⟩ = .ok c ∧
    c.module? = some M ∧ Reached M Settings.standard none m ∧ ¬m.heap.Acyclic ∧
    ∀ text, Action.text (.array 0) m ≠ .ok text m := by
  have hall : ((compile circular ⟨"", "", false⟩).toOption.any fun c => c.module?.any fun M =>
      (load M Settings.standard).toOption.any fun m => (m.run 20).1.succeeded &&
        decide (Heap.items (m.run 20).2.heap 0 = #[.boxed 0 "object[]" (.array 0)])) = true := by
    decide +kernel
  obtain ⟨c, M, hc, hM, hrun⟩ := exists_module_of_any hall
  obtain ⟨m, hload, hrun⟩ := exists_of_toOption_any hrun
  rw [Bool.and_eq_true, decide_eq_true_iff] at hrun
  obtain ⟨hended, hitems⟩ := hrun
  have hcycle : (m.run 20).2.heap.OnCycle 0 := by
    refine .single ⟨.boxed 0 "object[]" (.array 0), ?_, rfl⟩
    rw [hitems]
    exact Array.mem_singleton.mpr rfl
  refine ⟨c, M, (m.run 20).2, hc, hM, ?_, fun hacyclic => hacyclic 0 hcycle, ?_⟩
  · exact ReachedBy.ended_of_run (.loaded hload) (fun _ _ => trivial)
      (Prod.ext (RunResult.eq_of_succeeded hended) rfl)
  · intro text htext
    exact (exists_text_iff _ _).mp ⟨text, htext⟩ 0 0 rfl .refl hcycle

end Machine
end TypedScript
