import TypedScript.Proofs.Bytecode.WellFormed
import TypedScript.Proofs.Machine.Cycles
import TypedScript.Proofs.Machine.Preservation
import TypedScript.Proofs.Machine.Reached

/-!
# Compiled programs do not go wrong

What was declared keeps its type through code generation, so the operands before all instructions of a
compiled module are known and its variables can hold zeros at the start. From there each step of a run
keeps everything of its type.
-/

namespace TypedScript

open Machine TypedScript.Action

namespace Flat

/-- The symbols in an expression that makes sense are declared. -/
theorem Expr.Typed.declares {c : Typing} {e : Expr} (h : e.Typed c) : ∀ s ∈ e.symbols, c.Declares s := by
  induction e using Expr.induction with
  | literal | invalid => simp [Expr.symbols]
  | symbol s =>
    rintro _ hs
    obtain rfl := List.mem_singleton.mp hs
    exact h
  | assign target value ih =>
    simp only [Expr.Typed] at h
    simp only [Expr.symbols, List.forall_mem_cons]
    exact ⟨h.2.1, ih h.2.2.1⟩
  | assignElement array index t value iha ihi ihv =>
    simp only [Expr.Typed] at h
    simp only [Expr.symbols, List.forall_mem_append]
    exact ⟨⟨iha h.1, ihi h.2.1⟩, ihv h.2.2.1⟩
  | binary op operand left right t ihl ihr =>
    simp only [Expr.Typed] at h
    simp only [Expr.symbols, List.forall_mem_append]
    exact ⟨ihl h.1, ihr h.2.1⟩
  | unary op operand t ih | convert kind operand t ih =>
    simp only [Expr.Typed] at h
    exact ih h.1
  | call callable args t ih =>
    simp only [Expr.Typed] at h
    have hargs := typedAll_iff.mp h.1
    clear h
    simp only [Expr.symbols]
    induction args with
    | nil => simp [symbolsAll]
    | cons e rest ihrest =>
      simp only [symbolsAll, List.forall_mem_append]
      rw [List.forall_mem_cons] at ih hargs
      exact ⟨ih.1 hargs.1, ihrest ih.2 hargs.2⟩
  | index target index t iht ihi =>
    simp only [Expr.Typed] at h
    simp only [Expr.symbols, List.forall_mem_append]
    exact ⟨iht h.1, ihi h.2.1⟩
  | length target ih =>
    simp only [Expr.Typed] at h
    exact ih h.1
  | newArray element size t ih =>
    simp only [Expr.Typed] at h
    exact ih h.1

/-- The symbols in statements that make sense are declared. -/
theorem typedStmts.declares {c : Typing} {result : TypeId} {ss : List Stmt}
    (h : typedStmts c result ss) : ∀ s ∈ symbolsOf ss, c.Declares s := by
  intro s hs
  obtain ⟨stmt, hstmt, hs⟩ := List.mem_flatMap.mp hs
  have htyped := h stmt hstmt
  cases stmt with
  | declare s' =>
    obtain rfl := List.mem_singleton.mp hs
    exact htyped.1
  | eval e => exact Expr.Typed.declares htyped s hs
  | jumpIf e l => exact htyped.1.declares s hs
  | returnStmt e? =>
    cases e? with
    | none => cases hs
    | some e => exact htyped.1.declares s hs
  | jump | label => cases hs

/-- The routine that a program starts with has no parameters. -/
theorem LowersProgram.exists_start {r : Registry} {p : Bound.Program} {q : Program}
    (h : LowersProgram r p q) (hq : q.Identified r) {k : Nat} (hk : q.entry? = some k) :
    ∃ g, q.routines[k]? = some g ∧ g.params = [] := by
  have hroutines := h.routines
  rw [h.entry, Bound.Program.entry?] at hk
  split at hk
  · rename_i hscript
    obtain ⟨f, hf⟩ := Option.isSome_iff_exists.mp hscript
    obtain rfl := Option.some.inj hk
    have hlast : p.routines[p.functions.length + 1]? = some f := by
      simp [Bound.Program.routines, hf]
    obtain ⟨g, hg, -⟩ := exists_getElem?_right hroutines hlast
    refine ⟨g, hg, ?_⟩
    have hlength := h.functions.length_eq
    have hin : q.script?.toList[0]? = some g := by
      rw [Program.routines, List.cons_append, List.getElem?_cons_succ,
        List.getElem?_append_right (by omega), hlength, Nat.sub_self] at hg
      exact hg
    exact (hq.script g (by simpa using List.mem_of_getElem? hin)).2
  · obtain ⟨i, hi, rfl⟩ := Option.map_eq_some_iff.mp hk
    obtain ⟨hlt, hmain, -⟩ := List.findIdx?_eq_some_iff_getElem.mp hi
    obtain ⟨g, hg, hlowers⟩ := exists_getElem?_right h.functions (List.getElem?_eq_getElem hlt)
    refine ⟨g, ?_, ?_⟩
    · rw [Program.routines, List.cons_append, List.getElem?_cons_succ,
        List.getElem?_append_left (List.getElem?_eq_some_iff.mp hg).1, hg]
    · rw [hlowers.keeps.2]
      simpa using (Bool.and_eq_true_iff.mp hmain).2

end Flat

namespace Generated

variable {r : Registry} {p : Flat.Program} {M : Module} (h : Generated r p M)

include h

/-- A variable has a type that values have. -/
theorem isValueType {params : List Symbol} {s : Symbol} {n : String}
    (hs : (⟨r, p.globals, params, False⟩ : Typing).Declares s)
    (hn : Emission.typeName r s.type = .ok n) : IsValueType n :=
  Emission.isValueType_of_typeName h.wellFormed h.identified.nested hs.isType hs.ne_void hn

/-- The methods of a module stand for its routines. -/
theorem exists_routine_of_method {k : Nat} {f : Method} (hf : M.method? k = some f) :
    ∃ g, p.routines[k]? = some g := by
  obtain ⟨g, -, hg, -⟩ := h.exists_getElem? (Option.join_eq_some_iff.mp hf)
  exact ⟨g, hg⟩

/-- The operands before all instructions are known, and all slots and fields can hold values. -/
theorem exists_shapes (hends : ∀ g ∈ p.routines, g.body.getLast?.any Flat.Stmt.isReturn) :
    ∃ shapes, M.Verified shapes := by
  have hmethods : ∀ k, ∃ shapes, ∀ f, M.method? k = some f → f.Verified M shapes := by
    intro k
    cases hf : M.method? k with
    | none => exact ⟨fun _ => [], by simp⟩
    | some f =>
      obtain ⟨g, hg⟩ := h.exists_routine_of_method hf
      obtain ⟨shapes, hverified, -⟩ := h.verified hg hf (hends g (List.mem_of_getElem? hg))
      exact ⟨shapes, by rintro _ ⟨⟩; exact hverified⟩
  choose shapes hshapes using hmethods
  refine ⟨shapes, hshapes, fun k f hf slot hslot => ?_, fun field hfield => ?_⟩
  · obtain ⟨g, hg⟩ := h.exists_routine_of_method hf
    obtain ⟨f', hf', hmethod, himplements⟩ := h.exists_method hg
    obtain rfl : f = f' := Option.some.inj (hf.symm.trans hf')
    have hin := List.mem_of_getElem? hg
    obtain ⟨locals, -, hholds, -, -⟩ := h.holds hin hmethod himplements
    rw [hholds.locals, Array.mem_map] at hslot
    obtain ⟨l, hl, rfl⟩ := hslot
    obtain ⟨i, hi⟩ := Array.getElem?_of_mem hl
    obtain ⟨s, hs, -, -, htype⟩ := hholds.slots.origin i l hi
    exact h.isValueType ((h.typed.routines g hin).body.declares s hs) htype
  · obtain ⟨i, hi⟩ := List.getElem?_of_mem (Array.mem_toList_iff.mpr hfield)
    obtain ⟨s, hs, hof⟩ := exists_getElem?_right h.emitted.fields.flip hi
    obtain ⟨n, hn, hof⟩ := exists_of_bind_eq_ok hof
    obtain rfl := Except.ok.inj hof
    exact h.isValueType (h.typed.globals s (List.mem_of_getElem? hs)).2 hn

/-- The method of a routine without parameters has none. -/
theorem exists_method_without_params {k : Nat} {g : Flat.Routine} (hg : p.routines[k]? = some g)
    (hparams : g.params = []) : ∃ f, M.method? k = some f ∧ f.params.size = 0 := by
  obtain ⟨f, hf, hmethod, himplements⟩ := h.exists_method hg
  obtain ⟨locals, -, hholds, -, -⟩ := h.holds (List.mem_of_getElem? hg) hmethod himplements
  have hlength := hholds.params.length_eq
  rw [hparams, Array.length_toList] at hlength
  exact ⟨f, hf, hlength.symm⟩

end Generated

/-- A method that can be invoked without arguments. -/
def Module.Starts (M : Module) (method : Int) : Prop :=
  ∃ (k : Nat) (g : Method), method = k ∧ M.method? k = some g ∧ g.params.size = 0

/-- The methods that a run invokes, one after the other. -/
def Module.invoked (M : Module) : List Int :=
  if M.initializer < 0 then [M.entry] else [M.initializer, M.entry]

/-- What a run of a compiled program invokes takes no arguments. -/
theorem Generated.starts {r : Registry} {p : Bound.Program} {q : Flat.Program} {M : Module}
    (h : Generated r q M) (hlowers : Flat.LowersProgram r p q) (hentry : 0 ≤ M.entry) :
    ∀ method ∈ M.invoked, M.Starts method := by
  have hstarts : ∀ (k : Nat) (g : Flat.Routine), q.routines[k]? = some g → g.params = [] →
      M.Starts k := by
    intro k g hg hparams
    obtain ⟨f, hf, hsize⟩ := h.exists_method_without_params hg hparams
    exact ⟨k, f, rfl, hf, hsize⟩
  rw [Module.invoked, h.emitted.initializer, if_neg (by decide), List.forall_mem_cons,
    List.forall_mem_singleton]
  refine ⟨hstarts 0 q.initializer rfl h.identified.initializer.2, ?_⟩
  rw [h.emitted.entry] at hentry ⊢
  cases hk : q.entry? with
  | none =>
    rw [hk] at hentry
    exact absurd hentry (by decide)
  | some k =>
    obtain ⟨g, hg, hparams⟩ := hlowers.exists_start h.identified hk
    exact hstarts k g hg hparams

namespace Machine

/-- The arguments and locals of a call hold values of their types. -/
def HoldsTyped (m : Machine) (f : Activation) : Prop :=
  ∃ (k base : Nat) (g : Method), f.method = k ∧ f.base = base ∧ m.module.method? k = some g ∧
    (∀ i t, g.params[i]? = some t → ∃ v, m.cells[base + i]? = some v ∧ v.Has m.heap t) ∧
    ∀ i slot, g.locals[i]? = some slot →
      ∃ v, m.cells[base + g.params.size + i]? = some v ∧ v.Has m.heap slot.type

/-- The arguments and locals of all calls, the static fields and the elements of all arrays hold values
of their types. -/
structure WellTyped (m : Machine) : Prop where
  calls : ∀ f ∈ m.calls, m.HoldsTyped f
  statics : ∃ statics : Array Value, m.statics? = some statics ∧
    ∀ (i : Nat) (field : Field), m.module.fields[i]? = some field →
      ∃ v, statics[i]? = some v ∧ v.Has m.heap field.type
  elements : ∀ a ∈ m.heap, ∀ v ∈ a.items, v.Has m.heap a.element

/-- The value is on the stack. -/
def OnStack (m : Machine) (v : Value) : Prop := ∃ i : Nat, (i : Int) < m.top ∧ m.cells[i]? = some v

/-- No text on the stack is too long to be counted by an `i32`. -/
def HasShortTexts (m : Machine) : Prop := ∀ text, m.OnStack (.string text) → text.length < 0x80000000

/-- The instruction that comes next calls a routine. -/
def CallsRoutine (m : Machine) (r : Routine) : Prop :=
  ∃ (f : Activation) (rest : List Activation) (k n : Nat) (g : Method) (i : Instruction) (a : Nat)
    (key : String), m.At f rest k n g i ∧ i.Is .callNative a ∧ m.natives[a]? = some ⟨key, .routine r⟩

/-- The instruction that comes next calls a routine that makes a text of the value. -/
def Writes (m : Machine) (v : Value) : Prop :=
  ∃ (r : Routine) (i : Nat), m.CallsRoutine r ∧ r.writes ∧ m.top ≤ i + r.arity ∧ (i : Int) < m.top ∧
    m.cells[i]? = some v

/-- How a step can end that does not go wrong. It does not come to an end only if it writes a value that
leads to an array that contains itself. -/
inductive Proceeds (m : Machine) : EStateM.Result Stop Machine (Option Value) → Prop
  | goes (m' : Machine) : Proceeds m (.ok none m')
  | returns (v : Value) (m' : Machine) : Proceeds m (.ok (some v) m')
  | fault {fault : RuntimeFault} (m' : Machine) (h : fault.cause.isExpected) :
    Proceeds m (.error (.fault fault) m')
  | exit (code : Int) (m' : Machine) : Proceeds m (.error (.exit code) m')
  | await (m' : Machine) : Proceeds m (.error .awaitInput m')
  | endless {v : Value} (m' : Machine) (hv : m.Writes v) (h : m.heap.LeadsToCycle v) :
    Proceeds m (.error (.crash none) m')

theorem Stacked.onStack {w m : Machine} {s : List Value} (h : w.Stacked s m) {v : Value} (hv : v ∈ s) :
    m.OnStack v := by
  obtain ⟨i, hi⟩ := List.getElem?_of_mem (List.mem_reverse.mpr hv)
  have hlt : i < s.length := by simpa using (List.getElem?_eq_some_iff.mp hi).1
  exact ⟨i, by rw [h.top]; omega, by rw [h.cells i hlt, hi]⟩

theorem Stacked.shortTexts {w m : Machine} {s : List Value} (h : w.Stacked s m)
    (hshort : m.HasShortTexts) : ShortTexts s :=
  fun text htext => hshort text (h.onStack htext)

theorem Stacked.writes {w m : Machine} {s : List Value} (h : w.Stacked s m) {f : Activation}
    {rest : List Activation} {k n : Nat} {g : Method} {i : Instruction} (hat : w.At f rest k n g i)
    {v : Value} (hv : WrittenBy w i s v) : m.Writes v := by
  obtain ⟨a, key, r, hi, hkey, hwrites, hmem⟩ := hv
  obtain ⟨j, hj⟩ := List.getElem?_of_mem hmem
  rw [List.getElem?_take] at hj
  obtain ⟨hlt, hj⟩ := Option.ite_none_right_eq_some.mp hj
  have hlength : j < s.length := (List.getElem?_eq_some_iff.mp hj).1
  have hatm : m.At f rest k n g i :=
    ⟨h.calls.trans hat.calls, hat.index, hat.next, by rw [h.module]; exact hat.method, hat.code⟩
  refine ⟨r, s.length - 1 - j, ⟨f, rest, k, n, g, i, a, key, hatm, hi, ?_⟩, hwrites, ?_, ?_, ?_⟩
  · rw [h.natives]
    exact hkey
  · rw [h.top]
    omega
  · rw [h.top]
    omega
  · rw [h.cells _ (by omega), List.getElem?_reverse (by omega)]
    rw [show s.length - 1 - (s.length - 1 - j) = j by omega]
    exact hj

section

variable {M : Module} {shapes : Nat → Nat → List String} {m : Machine}

/-- The arguments and locals of a call are where the machine finds them. -/
theorem holdsTyped_of_framed {f : Activation} {k n : Nat} {g : Method} {σ : List String}
    {ops locals args below : List Value} (hmodule : m.module = M)
    (h : Framed M m.heap f k n g σ ops locals args below)
    (hcells : ∀ i < (frame ops locals args below).length,
      m.cells[i]? = (frame ops locals args below).reverse[i]?) : m.HoldsTyped f := by
  have hcell : ∀ (i : Nat) (v : Value), (frame ops locals args below).reverse[i]? = some v →
      m.cells[i]? = some v := by
    intro i v hv
    rw [hcells i (by simpa using (List.getElem?_eq_some_iff.mp hv).1), hv]
  have hargs : g.params.size = args.length := by simpa using h.args.length_eq.symm
  refine ⟨k, below.length, g, h.index, h.base, by rw [hmodule]; exact h.method, ?_, ?_⟩
  · intro i t ht
    rw [← Array.getElem?_toList] at ht
    obtain ⟨v, hv, hhas⟩ := exists_getElem?_right h.args.flip ht
    exact ⟨v, hcell _ v (frame_arg hv), hhas⟩
  · intro i slot hslot
    rw [← Array.getElem?_toList] at hslot
    obtain ⟨v, hv, hhas⟩ := exists_getElem?_right h.locals.flip hslot
    rw [hargs]
    exact ⟨v, hcell _ v (frame_local hv), hhas⟩

/-- What is below a call is there as well. -/
theorem cells_below {ops locals args below : List Value}
    (hcells : ∀ i < (frame ops locals args below).length,
      m.cells[i]? = (frame ops locals args below).reverse[i]?) :
    ∀ i < below.length, m.cells[i]? = below.reverse[i]? := by
  intro i hi
  rw [hcells i (by rw [length_frame]; omega), reverse_frame,
    List.getElem?_append_left (by simpa using hi)]

theorem holdsTyped_of_waiting {calls : List Activation} {result : String} {s : List Value}
    (hmodule : m.module = M) (h : Waiting M shapes m.heap calls result s)
    (hcells : ∀ i < s.length, m.cells[i]? = s.reverse[i]?) : ∀ f ∈ calls, m.HoldsTyped f := by
  induction h with
  | bottom => simp
  | call hframed _ _ ih =>
    rw [List.forall_mem_cons]
    exact ⟨holdsTyped_of_framed hmodule hframed hcells, ih (cells_below hcells)⟩

/-- Everything is of its type in a machine that executes a call so. -/
theorem Conforms.wellTyped {w : Machine} {s : List Value} (h : w.Conforms M shapes s)
    (hm : w.Stacked s m) : m.WellTyped := by
  cases h with
  | @mk f rest k n g ops locals args below hw hcalls hframed hwaiting =>
    have hmodule : m.module = M := hm.module.trans hw.module
    rw [← hm.heap] at hframed hwaiting
    refine ⟨?_, ?_, ?_⟩
    · rw [hm.calls, hcalls, List.forall_mem_cons]
      exact ⟨holdsTyped_of_framed hmodule hframed hm.cells,
        holdsTyped_of_waiting hmodule hwaiting (cells_below hm.cells)⟩
    · obtain ⟨statics, hstatics, -⟩ := hw.statics
      refine ⟨statics, by rw [hm.statics, hstatics], fun i field hfield => ?_⟩
      rw [hmodule] at hfield
      obtain ⟨statics', v, hstatics', hv, hhas⟩ := hw.exists_static hfield
      obtain rfl := Option.some.inj (hstatics.symm.trans hstatics')
      exact ⟨v, hv, by rw [hm.heap]; exact hhas⟩
    · rw [hm.heap]
      exact hw.heap.items

/-- A machine that executes the outermost call and those within it, with everything of its type. -/
def Calling (M : Module) (shapes : Nat → Nat → List String) (m : Machine) : Prop :=
  ∃ (w : Machine) (s : List Value), w.Stacked s m ∧ w.Conforms M shapes s

/-- A machine between two outermost calls, with everything of its type. -/
def Resting (M : Module) (m : Machine) : Prop :=
  ∃ w : Machine, w.Stacked [] m ∧ w.Sound M ∧ w.calls = []

/-- What comes of a step in such a machine. -/
theorem Calling.step (hM : M.Verified shapes) (h : m.Calling M shapes) (hshort : m.HasShortTexts) :
    m.Proceeds (Action.step 0 m) ∧ (∀ m', Action.step 0 m = .ok none m' → m'.Calling M shapes) ∧
      (∀ v m', Action.step 0 m = .ok (some v) m' → m'.Resting M) ∧
      ∀ m', Action.step 0 m = .error .awaitInput m' → m'.Calling M shapes := by
  obtain ⟨w, s, hm, hconforms⟩ := h
  cases hconforms.advances hM (hm.shortTexts hshort) with
  | goes hdoes hconforms' =>
    obtain ⟨m', hstep, hm'⟩ := hdoes m hm
    rw [hstep]
    exact ⟨.goes m', by rintro _ ⟨⟩; exact ⟨_, _, hm', hconforms'⟩, by rintro _ _ ⟨⟩, by rintro _ ⟨⟩⟩
  | returns hdoes hsound hcalls =>
    obtain ⟨m', hstep, hm'⟩ := hdoes m hm
    rw [hstep]
    exact ⟨.returns _ m', by rintro _ ⟨⟩, by rintro _ _ ⟨⟩; exact ⟨_, hm', hsound, hcalls⟩,
      by rintro _ ⟨⟩⟩
  | fault hdoes hexpected =>
    obtain ⟨m', hstep, -⟩ := hdoes m hm
    rw [hstep]
    exact ⟨.fault m' hexpected, by rintro _ ⟨⟩, by rintro _ _ ⟨⟩, by rintro _ ⟨⟩⟩
  | exit hdoes =>
    obtain ⟨m', hstep, -⟩ := hdoes m hm
    rw [hstep]
    exact ⟨.exit _ m', by rintro _ ⟨⟩, by rintro _ _ ⟨⟩, by rintro _ ⟨⟩⟩
  | await hdoes =>
    obtain ⟨m', hstep, hm'⟩ := hdoes m hm
    rw [hstep]
    exact ⟨.await m', by rintro _ ⟨⟩, by rintro _ _ ⟨⟩, by rintro _ ⟨⟩; exact ⟨_, _, hm', hconforms⟩⟩
  | endless hdoes hat hwritten hnone =>
    obtain ⟨m', hstep, -⟩ := hdoes m hm
    rw [hstep]
    exact ⟨.endless m' (hm.writes hat hwritten) (by rw [hm.heap]; exact Heap.format?_eq_none_iff.mp hnone),
      by rintro _ ⟨⟩, by rintro _ _ ⟨⟩, by rintro _ ⟨⟩⟩

/-- A method without parameters is invoked, unless no call at all may be made. -/
theorem Resting.begin (hM : M.Verified shapes) (h : m.Resting M) {k : Nat} {g : Method}
    (hg : M.method? k = some g) (hparams : g.params.size = 0) :
    (∃ m', Action.begin k [] m = .ok ⟨0, 0⟩ m' ∧ m'.Calling M shapes) ∨
      ∃ fault m', Action.begin k [] m = .error (.fault fault) m' ∧ fault.cause.isExpected := by
  obtain ⟨w, hm, hsound, hcalls⟩ := h
  obtain ⟨statics, hstatics, -⟩ := hsound.statics
  have hmethod : w.module.method? k = some g := by rw [hsound.module]; exact hg
  have hkeep : Does (modify fun m => if m.statics?.isNone then m.resetStatics else m : Action Unit)
      w [] (.ok ()) w [] := does_modify fun _ _ => by simp [hstatics]
  obtain ⟨m₁, hrun₁, hm₁⟩ := hkeep m hm
  obtain ⟨m₂, hrun₂, hm₂⟩ := does_methodAt hmethod m₁ hm₁
  have hbegin : Action.begin k [] m =
      (settling ⟨m₂.calls.length, m₂.top⟩ (enter k) >>= fun _ =>
        pure ⟨m₂.calls.length, m₂.top⟩) m₂ := by
    unfold Action.begin
    change EStateM.bind _ _ m = _
    rw [EStateM.bind, hrun₁]
    change EStateM.bind _ _ m₁ = _
    rw [EStateM.bind, hrun₂]
    dsimp only [EStateM.Result.of]
    rw [if_neg (by simp [hparams])]
    rfl
  rw [hbegin]
  by_cases hdepth : w.maxDepth ≤ w.calls.length
  · refine .inr ?_
    obtain ⟨m₃, hrun₃, -⟩ := does_enter_overflow (s := []) hmethod hdepth m₂ hm₂
    refine ⟨w.locate (.stackOverflow g.name), m₃.settle ⟨m₂.calls.length, m₂.top⟩
      (.fault (w.locate (.stackOverflow g.name))), ?_, by rw [locate_cause]; rfl⟩
    change EStateM.bind _ _ m₂ = _
    rw [EStateM.bind, settling, hrun₃]
    rfl
  · refine .inl ?_
    obtain ⟨m₃, hrun₃, hm₃⟩ := does_enter (s := []) hmethod (Int.lt_of_not_ge hdepth) m₂ hm₂
    refine ⟨m₃, ?_, _, _, hm₃, ?_⟩
    · change EStateM.bind _ _ m₂ = _
      rw [EStateM.bind, settling, hrun₃, hm₂.calls, hcalls, hm₂.top]
      rfl
    · have hnone : g.params.toList = [] := List.length_eq_zero_iff.mp (by simpa using hparams)
      have hframed : Framed M w.heap ⟨k, 0, 0⟩ k 0 g (shapes k 0) []
          (g.locals.toList.map fun slot => Value.zero slot.type) [] [] :=
        hM.framed hg (by rw [hnone]; exact .nil) []
      have hconforms : { w with calls := [⟨k, 0, 0⟩] }.Conforms M shapes (frame [] _ [] []) :=
        .mk (hsound.congr rfl rfl rfl rfl) rfl hframed .bottom
      rw [hcalls, hparams]
      exact hconforms

/-- What comes from outside is of no concern. -/
theorem Calling.supplied (h : m.Calling M shapes) (input : Input) (clock : Clock)
    (generator : Generator) : { m with input, clock, generator }.Calling M shapes := by
  obtain ⟨w, s, hm, hconforms⟩ := h
  have hm' : { w with input, clock, generator }.Stacked s { m with input, clock, generator } := by
    obtain ⟨cells, top, rfl⟩ := hm.exists_eq
    exact hm.congr rfl rfl rfl
  refine ⟨{ w with input, clock, generator }, s, hm', ?_⟩
  cases hconforms with
  | mk hsound hcalls hframed hwaiting =>
    exact .mk (hsound.congr rfl rfl rfl rfl) hcalls hframed hwaiting

/-- A module that was loaded is ready to be run. -/
theorem resting_of_load (hM : M.Verified shapes) {settings : Settings} (h : load M settings = .ok m) :
    m.resetStatics.Resting M := by
  obtain ⟨-, hlinked, heq⟩ := load_eq_ok.mp h
  have hstacked : m.resetStatics.Stacked [] m.resetStatics := by
    rw [heq]
    exact ⟨rfl, rfl, by simp, by simp [resetStatics, firstCells]⟩
  refine ⟨m.resetStatics, hstacked, ⟨?_, hlinked, ?_, m.freshStatics, rfl, ?_⟩, ?_⟩
  · rw [heq]
    rfl
  · rw [heq]
    exact ⟨by simp [resetStatics], by simp [resetStatics], by simp [resetStatics]⟩
  · have hfields : m.freshStatics.toList = M.fields.toList.map fun f => Value.zero f.type := by
      rw [heq, freshStatics, Array.toList_map]
    rw [hfields, List.forall₂_map_left_iff]
    exact List.forall₂_same.mpr fun field hfield =>
      Value.zero_has _ (hM.fields field (Array.mem_toList_iff.mp hfield))
  · rw [heq]
    rfl

end

/-- The states of a run of a module, with the invocation in progress and the methods that are still to
be invoked. No text is too long to be counted, and input comes, time goes by and other random bits are
supplied at any time. -/
inductive Running (M : Module) (settings : Settings) : Invocation → List Int → Machine → Prop
  | started {m m' : Machine} {v : Invocation} {first : Int} {rest : List Int}
    (hload : load M settings = .ok m) (hentry : 0 ≤ M.entry) (hfirst : M.invoked = first :: rest)
    (hbegin : Action.begin first [] m.resetStatics = .ok v m') : Running M settings v rest m'
  | supplied {m : Machine} {v : Invocation} {rest : List Int} (h : Running M settings v rest m)
    (input : Input) (clock : Clock) (generator : Generator) :
    Running M settings v rest { m with input, clock, generator }
  | stepped {m m' : Machine} {v : Invocation} {rest : List Int} (h : Running M settings v rest m)
    (hshort : m.HasShortTexts) (hstep : Action.step v.depth m = .ok none m') :
    Running M settings v rest m'
  | awaiting {m m' : Machine} {v : Invocation} {rest : List Int} (h : Running M settings v rest m)
    (hshort : m.HasShortTexts) (hstep : Action.step v.depth m = .error .awaitInput m') :
    Running M settings v rest m'
  | returned {m m' m'' : Machine} {v v' : Invocation} {r : Value} {next : Int} {rest : List Int}
    (h : Running M settings v (next :: rest) m) (hshort : m.HasShortTexts)
    (hstep : Action.step v.depth m = .ok (some r) m')
    (hbegin : Action.begin next [] m' = .ok v' m'') : Running M settings v' rest m''

/-- What a run that does not go wrong comes to: it ends without a fault or with one that programs can come
to, it is stuck in writing a value that leads to an array that contains itself, or it has not ended and can
go on. -/
inductive ComesTo (M : Module) (settings : Settings) : RunResult × Machine → Prop
  | ended (code : Int) (m : Machine) : ComesTo M settings (.ended code none, m)
  | fault {fault : RuntimeFault} (h : fault.cause.isExpected) (m : Machine) :
    ComesTo M settings (.ended 1 (some fault), m)
  | endless {v : Invocation} {rest : List Int} {m m' : Machine} {x : Value}
    (h : Running M settings v rest m) (hstep : Action.step v.depth m = .error (.crash none) m')
    (hx : m.Writes x) (hcycle : m.heap.LeadsToCycle x) : ComesTo M settings (.crashed none, m')
  | unfinished {v : Invocation} {rest : List Int} {m : Machine} (h : Running M settings v rest m)
    (awaitsInput : Bool) : ComesTo M settings (.unfinished awaitsInput v rest, m)

section

variable {M : Module} {shapes : Nat → Nat → List String} (hM : M.Verified shapes)
  (hstarts : 0 ≤ M.entry → ∀ method ∈ M.invoked, M.Starts method) {settings : Settings}

include hM hstarts

/-- In all states of a run everything is of its type. -/
theorem Running.calling {v : Invocation} {rest : List Int} {m : Machine}
    (h : Running M settings v rest m) :
    v = ⟨0, 0⟩ ∧ m.Calling M shapes ∧ ∀ method ∈ rest, M.Starts method := by
  have hbegins : ∀ {m m' : Machine} {v : Invocation} {method : Int}, M.Starts method → m.Resting M →
      Action.begin method [] m = .ok v m' → v = ⟨0, 0⟩ ∧ m'.Calling M shapes := by
    rintro m m' v _ ⟨k, g, rfl, hg, hparams⟩ hresting hbegin
    obtain ⟨m₁, hbegin', hcalling⟩ | ⟨fault, m₁, hbegin', -⟩ := hresting.begin hM hg hparams
    · obtain ⟨rfl, rfl⟩ := EStateM.Result.ok.inj (hbegin.symm.trans hbegin')
      exact ⟨rfl, hcalling⟩
    · rw [hbegin'] at hbegin
      cases hbegin
  induction h with
  | started hload hentry hfirst hbegin =>
    have hall := hstarts hentry
    rw [hfirst, List.forall_mem_cons] at hall
    obtain ⟨hv, hcalling⟩ := hbegins hall.1 (resting_of_load hM hload) hbegin
    exact ⟨hv, hcalling, hall.2⟩
  | supplied _ input clock generator ih =>
    exact ⟨ih.1, ih.2.1.supplied input clock generator, ih.2.2⟩
  | stepped _ hshort hstep ih =>
    obtain ⟨rfl, hcalling, hrest⟩ := ih
    exact ⟨rfl, (hcalling.step hM hshort).2.1 _ hstep, hrest⟩
  | awaiting _ hshort hstep ih =>
    obtain ⟨rfl, hcalling, hrest⟩ := ih
    exact ⟨rfl, (hcalling.step hM hshort).2.2.2 _ hstep, hrest⟩
  | returned _ hshort hstep hbegin ih =>
    obtain ⟨rfl, hcalling, hrest⟩ := ih
    rw [List.forall_mem_cons] at hrest
    have hresting := (hcalling.step hM hshort).2.2.1 _ _ hstep
    obtain ⟨hv, hcalling'⟩ := hbegins hrest.1 hresting hbegin
    exact ⟨hv, hcalling', hrest.2⟩

/-- An invocation ends with a return, or it stops as it may. -/
theorem Running.steps {v : Invocation} {rest : List Int} {m : Machine}
    (h : Running M settings v rest m) {fuel : Nat}
    (hshort : ∀ m' ∈ Action.states v fuel m, m'.HasShortTexts) :
    (∃ r m₁ m', Action.steps v fuel m = .ok r m' ∧ Running M settings v rest m₁ ∧
      m₁.HasShortTexts ∧ Action.step v.depth m₁ = .ok (some r) m') ∨
      ∃ stop m', Action.steps v fuel m = .error stop m' ∧
        ComesTo M settings (.ofStop v rest stop, m'.settle v stop) := by
  induction fuel generalizing m with
  | zero => exact .inr ⟨.paused, m, rfl, .unfinished h false⟩
  | succ fuel ih =>
    obtain ⟨rfl, hcalling, -⟩ := h.calling hM hstarts
    rw [Action.states, List.forall_mem_cons] at hshort
    have hproceeds := (hcalling.step hM hshort.1).1
    unfold Action.steps
    cases hstep : Action.step 0 m with
    | ok r? m' =>
      rw [hstep] at hshort
      cases r? with
      | none => exact ih (h.stepped hshort.1 hstep) hshort.2
      | some r => exact .inl ⟨r, m, m', rfl, h, hshort.1, hstep⟩
    | error stop m' =>
      rw [hstep] at hproceeds
      refine .inr ⟨stop, m', rfl, ?_⟩
      cases hproceeds with
      | fault _ hexpected => exact .fault hexpected _
      | exit => exact .ended _ _
      | await => exact .unfinished (h.awaiting hshort.1 hstep) true
      | endless _ hx hcycle => exact .endless h hstep hx hcycle

/-- An invocation that goes on ends with a return, or it stops as it may. -/
theorem Running.resume {v : Invocation} {rest : List Int} {m : Machine}
    (h : Running M settings v rest m) {fuel : Nat}
    (hshort : ∀ m' ∈ Action.states v fuel m, m'.HasShortTexts) :
    (∃ r m₁ m', Action.resume v fuel m = .ok r m' ∧ Running M settings v rest m₁ ∧
      m₁.HasShortTexts ∧ Action.step v.depth m₁ = .ok (some r) m') ∨
      ∃ stop m', Action.resume v fuel m = .error stop m' ∧
        ComesTo M settings (.ofStop v rest stop, m') := by
  obtain ⟨r, m₁, m', hsteps, hreturned⟩ | ⟨stop, m', hsteps, hcomes⟩ := h.steps hM hstarts hshort
  · exact .inl ⟨r, m₁, m', by simp only [Action.resume, Action.settling, hsteps], hreturned⟩
  · exact .inr ⟨stop, m'.settle v stop, by simp only [Action.resume, Action.settling, hsteps], hcomes⟩

omit hM hstarts in
theorem Running.of_mem_states {v : Invocation} {rest : List Int} {m : Machine}
    (h : Running M settings v rest m) {fuel : Nat}
    (hshort : ∀ m' ∈ Action.states v fuel m, m'.HasShortTexts) :
    ∀ m' ∈ Action.states v fuel m, Running M settings v rest m' := by
  induction fuel generalizing m with
  | zero => simp [Action.states]
  | succ fuel ih =>
    rw [Action.states, List.forall_mem_cons] at hshort ⊢
    refine ⟨h, ?_⟩
    cases hstep : Action.step v.depth m with
    | error => simp
    | ok r? m' =>
      rw [hstep] at hshort
      cases r? with
      | none => exact ih (h.stepped hshort.1 hstep) hshort.2
      | some => simp

theorem Running.of_mem_proceedStates {v : Invocation} {rest : List Int} {m : Machine}
    (h : Running M settings v rest m) {fuel : Nat}
    (hshort : ∀ m' ∈ m.proceedStates fuel v rest, m'.HasShortTexts) :
    ∀ m' ∈ m.proceedStates fuel v rest, ∃ v' rest', Running M settings v' rest' m' := by
  induction rest generalizing v m with
  | nil => exact fun m' hm' => ⟨v, [], h.of_mem_states hshort m' hm'⟩
  | cons next rest ih =>
    rw [proceedStates, List.forall_mem_append] at hshort ⊢
    refine ⟨fun m' hm' => ⟨v, next :: rest, h.of_mem_states hshort.1 m' hm'⟩, ?_⟩
    obtain ⟨r, m₁, m', hrun, hrunning, hshort₁, hstep⟩ | ⟨stop, m', hrun, -⟩ :=
      h.resume hM hstarts hshort.1
    · rw [hrun] at hshort ⊢
      dsimp only at hshort ⊢
      cases hbegin : Action.begin next [] m' with
      | error => simp
      | ok v' m₂ =>
        rw [hbegin] at hshort
        exact ih (hrunning.returned hshort₁ hstep hbegin) hshort.2
    · rw [hrun]
      simp

/-- A run that goes on does not go wrong. -/
theorem Running.proceed {v : Invocation} {rest : List Int} {m : Machine}
    (h : Running M settings v rest m) {fuel : Nat}
    (hshort : ∀ m' ∈ m.proceedStates fuel v rest, m'.HasShortTexts) :
    ComesTo M settings (m.proceed fuel v rest) := by
  induction rest generalizing v m with
  | nil =>
    unfold Machine.proceed
    obtain ⟨r, m₁, m', hrun, -⟩ | ⟨stop, m', hrun, hcomes⟩ := h.resume hM hstarts hshort
    · rw [hrun]
      exact .ended 0 m'
    · rw [hrun]
      exact hcomes
  | cons next rest ih =>
    unfold Machine.proceed
    rw [proceedStates, List.forall_mem_append] at hshort
    obtain ⟨r, m₁, m', hrun, hrunning, hshort₁, hstep⟩ | ⟨stop, m', hrun, hcomes⟩ :=
      h.resume hM hstarts hshort.1
    · rw [hrun] at hshort ⊢
      dsimp only at hshort ⊢
      obtain ⟨rfl, hcalling, hrest⟩ := hrunning.calling hM hstarts
      obtain ⟨k, g, rfl, hg, hparams⟩ := hrest next (by simp)
      have hresting := (hcalling.step hM hshort₁).2.2.1 _ _ hstep
      obtain ⟨m₂, hbegin, -⟩ | ⟨fault, m₂, hbegin, hexpected⟩ := hresting.begin hM hg hparams
      · rw [hbegin] at hshort ⊢
        exact ih (hrunning.returned hshort₁ hstep hbegin) hshort.2
      · rw [hbegin]
        exact .fault hexpected m₂
    · rw [hrun]
      exact hcomes

/-- A run of a module with an entry point goes on from its first call, if it can be made. -/
theorem run_cases {m : Machine} (hload : load M settings = .ok m) (hentry : 0 ≤ M.entry) :
    (∃ v rest m₁, Running M settings v rest m₁ ∧ ∀ fuel, m.run fuel = m₁.proceed fuel v rest ∧
      m.runStates fuel = m₁.proceedStates fuel v rest) ∨
      ∃ fault m₁, fault.cause.isExpected ∧ ∀ fuel, m.run fuel = (.ended 1 (some fault), m₁) ∧
        m.runStates fuel = [] := by
  have hmodule : m.module = M := by rw [(load_eq_ok.mp hload).2.eq]
  have hreset : m.resetStatics.module = M := hmodule
  have hnot : ¬m.module.entry < 0 := by rw [hmodule]; omega
  obtain ⟨first, rest, hinvoked⟩ : ∃ first rest, M.invoked = first :: rest := by
    rw [Module.invoked]
    split <;> exact ⟨_, _, rfl⟩
  have hstart : (if m.resetStatics.module.initializer < 0 then (m.resetStatics.module.entry, [])
      else (m.resetStatics.module.initializer, [m.resetStatics.module.entry])) = (first, rest) := by
    rw [Module.invoked] at hinvoked
    rw [hreset]
    split at hinvoked <;> cases hinvoked <;> simp [*]
  obtain ⟨k, g, rfl, hg, hparams⟩ := hstarts hentry first (by simp [hinvoked])
  obtain ⟨m₁, hbegin, -⟩ | ⟨fault, m₁, hbegin, hexpected⟩ :=
    (resting_of_load hM hload).begin hM hg hparams
  · refine .inl ⟨_, rest, m₁, .started hload hentry hinvoked hbegin, fun fuel => ?_⟩
    rw [Machine.run, runStates, if_neg hnot, if_neg hnot]
    dsimp only
    rw [hstart]
    dsimp only
    rw [hbegin]
    exact ⟨rfl, rfl⟩
  · refine .inr ⟨fault, m₁, hexpected, fun fuel => ?_⟩
    rw [Machine.run, runStates, if_neg hnot, if_neg hnot]
    dsimp only
    rw [hstart]
    dsimp only
    rw [hbegin]
    exact ⟨rfl, rfl⟩

/-- A run of a module with an entry point does not go wrong. -/
theorem comesTo_run {m : Machine} (hload : load M settings = .ok m) (hentry : 0 ≤ M.entry)
    {fuel : Nat} (hshort : ∀ m' ∈ m.runStates fuel, m'.HasShortTexts) :
    ComesTo M settings (m.run fuel) ∧
      ∀ m' ∈ m.runStates fuel, ∃ v rest, Running M settings v rest m' := by
  obtain ⟨v, rest, m₁, hrunning, hrun⟩ | ⟨fault, m₁, hexpected, hrun⟩ :=
    run_cases hM hstarts hload hentry
  · rw [(hrun fuel).2] at hshort ⊢
    rw [(hrun fuel).1]
    exact ⟨hrunning.proceed hM hstarts hshort, hrunning.of_mem_proceedStates hM hstarts hshort⟩
  · rw [(hrun fuel).1, (hrun fuel).2]
    exact ⟨.fault hexpected m₁, by simp⟩

end
end Machine

/-- Compiled programs do not go wrong. In all states of a run of a module with an entry point, whatever is
read, whatever time it is and whatever random bits are drawn, the arguments and locals of all calls, the
static fields and the elements of all arrays hold values of their types, and the next step goes on, returns,
ends the program, waits for input, or stops with a fault that does not depend on types; only a step that
writes a value that leads to an array that contains itself does not come to an end. So a run ends without a
fault or with such a fault, or it goes on, or it is stuck in such a step. A module without an entry point
does not run. -/
theorem compiled_sound {source : List Glyph} {options : CompileOptions} {c : Compilation} {M : Module}
    (h : compile source options = .ok c) (hM : c.module? = some M) (hsmall : M.Small)
    (settings : Settings) :
    ∃ m, load M settings = .ok m ∧
      (M.entry < 0 → ∀ fuel, m.run fuel = (.ended 1 (some ⟨"", 0, .noEntryPoint⟩), m)) ∧
      (∀ (v : Invocation) (rest : List Int) (m' : Machine), Running M settings v rest m' →
        m'.WellTyped ∧ (m'.HasShortTexts → m'.Proceeds (step v.depth m'))) ∧
      (0 ≤ M.entry → ∀ fuel, (∀ m' ∈ m.runStates fuel, m'.HasShortTexts) →
        ComesTo M settings (m.run fuel) ∧
          ∀ m' ∈ m.runStates fuel, ∃ v rest, Running M settings v rest m') := by
  obtain ⟨a, -, hgenerated, hlowers⟩ := exists_lowered h hM hsmall
  have hends : ∀ g ∈ a.flat.routines, g.body.getLast?.any Flat.Stmt.isReturn :=
    fun g hg => hlowers.ends hg
  obtain ⟨shapes, hverified⟩ := hgenerated.exists_shapes hends
  have hstarts := hgenerated.starts hlowers
  obtain ⟨m, hload⟩ := exists_load (fun key hkey => hgenerated.find_native hkey)
    (hgenerated.inRange hends) settings
  refine ⟨m, hload, fun hentry fuel => ?_, fun v rest m' hrunning => ?_, fun hentry fuel hshort => ?_⟩
  · have hmodule : m.module = M := by rw [(load_eq_ok.mp hload).2.eq]
    rw [Machine.run, if_pos (by rw [hmodule]; exact hentry)]
  · obtain ⟨rfl, hcalling, -⟩ := hrunning.calling hverified hstarts
    have hproceeds := fun hshort => (hcalling.step hverified hshort).1
    obtain ⟨w, s, hm, hconforms⟩ := hcalling
    exact ⟨hconforms.wellTyped hm, hproceeds⟩
  · exact comesTo_run hverified hstarts hload hentry hshort

/-- Whether the texts in the cells of a machine can be counted by an `i32`. -/
def Machine.shortTexts (m : Machine) : Bool :=
  m.cells.toList.all fun v => match v with
    | .string text => decide (text.length < 0x80000000)
    | _ => true

theorem Machine.hasShortTexts_of_shortTexts {m : Machine} (h : m.shortTexts = true) :
    m.HasShortTexts := by
  rintro text ⟨i, -, hi⟩
  rw [← Array.getElem?_toList] at hi
  exact of_decide_eq_true (List.all_eq_true.mp h _ (List.mem_of_getElem? hi))

theorem compiled_sound_countdown : ∃ c M m v rest m', compile countdown ⟨"", "", false⟩ = .ok c ∧
    c.module? = some M ∧ M.Small ∧ load M Settings.standard = .ok m ∧
    (m.run 100).1 = .ended 0 none ∧ ComesTo M Settings.standard (m.run 100) ∧
    m' ∈ m.runStates 100 ∧ m'.calls.length = 5 ∧ Running M Settings.standard v rest m' ∧
    m'.WellTyped ∧ m'.Proceeds (Action.step v.depth m') := by
  have hall : ((compile countdown ⟨"", "", false⟩).toOption.any fun c => c.module?.any fun M =>
      M.isSmall && decide (0 ≤ M.entry) && (load M Settings.standard).toOption.any fun m =>
        (m.run 100).1.succeeded && (m.runStates 100).all shortTexts &&
          (m.runStates 100).any fun m' => decide (m'.calls.length = 5)) = true := by decide +kernel
  obtain ⟨c, M, hc, hM, hstart⟩ := exists_module_of_any hall
  simp only [Bool.and_eq_true, decide_eq_true_eq] at hstart
  obtain ⟨⟨hsmall, hentry⟩, hrun⟩ := hstart
  obtain ⟨m, hload, hrun⟩ := exists_of_toOption_any hrun
  simp only [Bool.and_eq_true, List.any_eq_true, List.all_eq_true, decide_eq_true_eq] at hrun
  obtain ⟨⟨hended, hshort⟩, m', hm', hcalls⟩ := hrun
  have hsmall' := Module.isSmall_iff.mp hsmall
  obtain ⟨_, hload', -, hsound, hcomes⟩ := compiled_sound hc hM hsmall' Settings.standard
  obtain rfl := Except.ok.inj (hload.symm.trans hload')
  obtain ⟨hcomes, hrunning⟩ :=
    hcomes hentry 100 fun m' hm' => hasShortTexts_of_shortTexts (hshort m' hm')
  obtain ⟨v, rest, hrunning⟩ := hrunning m' hm'
  obtain ⟨htyped, hproceeds⟩ := hsound v rest m' hrunning
  exact ⟨c, M, m, v, rest, m', hc, hM, hsmall', hload, RunResult.eq_of_succeeded hended, hcomes, hm',
    hcalls, hrunning, htyped, hproceeds (hasShortTexts_of_shortTexts (hshort m' hm'))⟩

/-- A program without statements and functions is accepted, but there is nothing to run. -/
theorem empty_has_no_entry_point : ∃ c M m, compile [] ⟨"", "", false⟩ = .ok c ∧
    c.module? = some M ∧ M.Small ∧ load M Settings.standard = .ok m ∧
    (∀ fuel, (m.run fuel).1 = .ended 1 (some ⟨"", 0, .noEntryPoint⟩)) ∧
    Cause.noEntryPoint.isExpected = false := by
  have hall : ((compile [] ⟨"", "", false⟩).toOption.any fun c => c.module?.any fun M =>
      M.isSmall && (load M Settings.standard).toOption.any fun m =>
        decide (m.module.entry < 0)) = true := by decide +kernel
  obtain ⟨c, M, hc, hM, hempty⟩ := exists_module_of_any hall
  rw [Bool.and_eq_true] at hempty
  obtain ⟨m, hload, hentry⟩ := exists_of_toOption_any hempty.2
  refine ⟨c, M, m, hc, hM, Module.isSmall_iff.mp hempty.1, hload, fun fuel => ?_, rfl⟩
  rw [Machine.run, if_pos (of_decide_eq_true hentry)]

end TypedScript
