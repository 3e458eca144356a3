import TypedScript.Proofs.Bytecode.WellFormed
import TypedScript.Proofs.Refinement.Programs

/-!
# Modules do what their programs say

What a module that was made of a flat program has to do with the program: each variable has a slot of
its own, a call of a function is a call of its method, and the machine follows every routine, from
every state of a call in progress and through invocations.
-/

namespace TypedScript

open Emission Execution Machine

namespace Emission

variable {x : EmissionContext} {S : Symbol → Prop} {t : Emitting}

def HasSlot (t : Emitting) (sym : Symbol) : Prop :=
  ∃ (i : Nat) (slot : Slot), t.locals[i]? = some (sym.id, slot)

theorem LoadCode.hasSlot {sym : Symbol} {lines : List CodeLine} (h : LoadCode x S t sym lines)
    (hkind : sym.kind = .localVariable) : HasSlot t sym := by
  cases h with
  | loadLocal _ _ hslot => exact ⟨_, _, hslot⟩
  | loadArg hk | loadStatic hk | loadField hk => simp [hkind] at hk

theorem StoreCode.hasSlot {sym : Symbol} {lines : List CodeLine} (h : StoreCode x S t sym lines)
    (hkind : sym.kind = .localVariable) : HasSlot t sym := by
  cases h with
  | storeLocal _ _ hslot => exact ⟨_, _, hslot⟩
  | storeStatic hk => simp [hkind] at hk

theorem CodesAll.hasSlot {sym : Symbol} {args : List Flat.Expr}
    (h : ∀ e ∈ args, ∀ {lines}, Codes x S t e lines → sym ∈ e.symbols → HasSlot t sym)
    {lines : List CodeLine} (hc : CodesAll x S t args lines) (hmem : sym ∈ Flat.symbolsAll args) :
    HasSlot t sym := by
  induction args generalizing lines with
  | nil => simp [Flat.symbolsAll] at hmem
  | cons e rest ih =>
    rw [List.forall_mem_cons] at h
    simp only [Flat.symbolsAll, List.mem_append] at hmem
    cases hc with
    | cons he hrest =>
      obtain hmem | hmem := hmem
      · exact h.1 he hmem
      · exact ih h.2 hrest hmem

/-- Each variable that an expression mentions has a slot. -/
theorem Codes.hasSlot {e : Flat.Expr} {lines : List CodeLine} (h : Codes x S t e lines) {sym : Symbol}
    (hmem : sym ∈ e.symbols) (hkind : sym.kind = .localVariable) : HasSlot t sym := by
  induction e using Flat.Expr.induction generalizing lines with
  | literal v type => simp [Flat.Expr.symbols] at hmem
  | symbol s =>
    obtain rfl : sym = s := by simpa [Flat.Expr.symbols] using hmem
    cases h with
    | symbol hload => exact hload.hasSlot hkind
  | assign target value ih =>
    simp only [Flat.Expr.symbols, List.mem_cons] at hmem
    cases h with
    | assign hv hstore =>
      obtain rfl | hmem := hmem
      · exact hstore.hasSlot hkind
      · exact ih hv hmem
  | assignElement array index type value iha ihi ihv =>
    simp only [Flat.Expr.symbols, List.mem_append] at hmem
    cases h with
    | assignElement ha hi hv =>
      obtain (hmem | hmem) | hmem := hmem
      · exact iha ha hmem
      · exact ihi hi hmem
      · exact ihv hv hmem
  | binary op operand left right type ihl ihr =>
    simp only [Flat.Expr.symbols, List.mem_append] at hmem
    cases h with
    | binary hl hr =>
      obtain hmem | hmem := hmem
      · exact ihl hl hmem
      · exact ihr hr hmem
  | unary op operand type ih =>
    cases h with
    | unary hv => exact ih hv (by simpa [Flat.Expr.symbols] using hmem)
  | call callable args type ih =>
    cases h with
    | call hargs =>
      simp only [Flat.Expr.symbols] at hmem
      exact hargs.hasSlot (fun e he _ hc hmem => ih e he hc hmem) hmem
  | convert kind operand type ih =>
    cases h with
    | convert hv => exact ih hv (by simpa [Flat.Expr.symbols] using hmem)
  | index target index type iht ihi =>
    simp only [Flat.Expr.symbols, List.mem_append] at hmem
    cases h with
    | index ht hi =>
      obtain hmem | hmem := hmem
      · exact iht ht hmem
      · exact ihi hi hmem
  | length target ih =>
    cases h with
    | length hv => exact ih hv (by simpa [Flat.Expr.symbols] using hmem)
  | newArray element size type ih =>
    cases h with
    | newArray hv => exact ih hv (by simpa [Flat.Expr.symbols] using hmem)
  | invalid => cases h

/-- So does each variable that a statement mentions, unless it is only declared. -/
theorem StmtCode.hasSlot {stmt : Flat.Stmt} {lines : List CodeLine} (h : StmtCode x S t stmt lines)
    (hstmt : ∀ s, stmt ≠ .declare s) {sym : Symbol} (hmem : sym ∈ stmt.symbols)
    (hkind : sym.kind = .localVariable) : HasSlot t sym := by
  cases h with
  | declare => exact absurd rfl (hstmt _)
  | eval _ he | evalVoid _ he | returnValue he | jumpIf he => exact he.hasSlot hmem hkind
  | returnVoid | jump | label => simp [Flat.Stmt.symbols] at hmem

theorem BodyCode.exists_stmt {body : List Flat.Stmt} {lines : List CodeLine}
    (h : BodyCode x S t body lines) {stmt : Flat.Stmt} (hmem : stmt ∈ body) :
    ∃ lines, StmtCode x S t stmt lines := by
  induction h with
  | nil => cases hmem
  | cons hstmt _ ih =>
    obtain rfl | hmem := List.mem_cons.mp hmem
    · exact ⟨_, hstmt⟩
    · exact ih hmem

end Emission

/-- A variable of the routine has a slot of the method. -/
def Layout.Owns {r : Registry} {p : Flat.Program} {M : Module} (l : Layout r p M) (sym : Symbol)
    (i : Nat) : Prop :=
  sym ∈ Flat.symbolsOf l.routine.body ∧ ∃ slot, l.slots[i]? = some (sym.id, slot)

/-- Variables have slots of their own. -/
theorem Layout.owns_iff {r : Registry} {p : Flat.Program} {M : Module} {l : Layout r p M}
    {a b : Symbol} {i j : Nat} (ha : l.Owns a i) (hb : l.Owns b j) : a = b ↔ i = j := by
  obtain ⟨ha, slot, hi⟩ := ha
  obtain ⟨hb, slot', hj⟩ := hb
  constructor
  · rintro rfl
    exact l.holds.slots.nodup i j _ _ hi hj rfl
  · rintro rfl
    have hid : a.id = b.id := congrArg Prod.fst (Option.some.inj (hi.symm.trans hj))
    refine l.holds.generated.identified.distinct l.routine l.holds.routine a ?_ b ?_ hid
    · simp [ha]
    · simp [hb]

/-- How an invocation ended is how the program did: with the same value or for the same reason, and
with the same effects. With a value, the calls and operands that were there before are left. -/
inductive Agrees (r : Registry) (p : Flat.Program) (M : Module) (before : Machine) (s : List Value) :
    EStateM.Result Halt Shared Value → EStateM.Result Stop Machine Value → Prop
  | ok {v : Value} {σ : Shared} {m : Machine} : Mirrors r p M σ m → m.calls = before.calls →
    m.maxDepth = before.maxDepth → m.Stacked s m → Agrees r p M before s (.ok v σ) (.ok v m)
  | error {halt : Halt} {stop : Stop} {σ : Shared} {m : Machine} : stop.halt = halt →
    Mirrors r p M σ m → Agrees r p M before s (.error halt σ) (.error stop m)

namespace Action

theorem Does.settling {α : Type} {a : Action α} {w w' : Machine} {s s' : List Value} {x : α}
    (h : a.Does w s (.ok x) w' s') (v : Invocation) :
    (Action.settling v a).Does w s (.ok x) w' s' := by
  intro m hm
  obtain ⟨m', hrun, hm'⟩ := h m hm
  refine ⟨m', ?_, hm'⟩
  rw [Action.settling, show a m = .ok x m' from hrun]
  rfl

/-- An invocation begins with a call above those in progress. -/
theorem does_begin {w : Machine} {s : List Value} (hstatics : w.statics?.isSome) {k : Nat} {g : Method}
    (hg : w.module.method? k = some g) {args : List Value} (hargs : args.length = g.params.size)
    (hdepth : (w.calls.length : Int) < w.maxDepth) :
    (begin k args).Does w s (.ok ⟨w.calls.length, s.length⟩)
      { w with calls := ⟨k, 0, (args.reverse ++ s).length - g.params.size⟩ :: w.calls }
      (zeros g ++ (args.reverse ++ s)) := by
  have hsome : w.statics?.isNone = false := by
    cases hw : w.statics? with
    | none => simp [hw] at hstatics
    | some statics => rfl
  have hready : Does (modify fun m => if m.statics?.isNone then m.resetStatics else m : Action Unit) w s
      (.ok ()) w s := does_modify fun cells top => by simp [hsome]
  refine hready.bind ((does_methodAt hg).bind ?_)
  rw [if_neg (by simp [hargs])]
  refine Does.get_bind fun m hm => ?_
  rw [hm.calls, hm.top]
  have hpush : (args.forM push).Does w s (.ok ()) w (args.reverse ++ s) := by
    have hall := does_pushAll (w := w) (s := s) (f := id) args
    rwa [List.map_id] at hall
  exact ((hpush.bind (does_enter hg hdepth)).settling _).bind (does_pure _)

end Action

namespace Machine

/-- Taking values off changes nothing but the stack. -/
theorem bare_popMany (n : Nat) (m : Machine) :
    (∃ m', Action.popMany n m = .ok () m' ∧ m'.bare = m.bare) ∨
      ∃ e m', Action.popMany n m = .error e m' ∧ m'.bare = m.bare := by
  induction n generalizing m with
  | zero => exact .inl ⟨m, rfl, rfl⟩
  | succ n ih =>
    have hpop : (∃ v m', Action.pop m = .ok v m' ∧ m'.bare = m.bare) ∨
        ∃ e m', Action.pop m = .error e m' ∧ m'.bare = m.bare := by
      by_cases htop : m.top - 1 < 0
      · exact .inr ⟨_, { m with top := m.top - 1 }, if_pos htop, rfl⟩
      cases hcell : m.cells[(m.top - 1).toNat]? with
      | none =>
        refine .inr ⟨.crash none, { m with top := m.top - 1 }, ?_, rfl⟩
        simp only [Action.pop, if_neg htop, hcell]
      | some v =>
        refine .inl ⟨v, { m with cells := m.cells.set! (m.top - 1).toNat .null, top := m.top - 1 }, ?_,
          rfl⟩
        simp only [Action.pop, if_neg htop, hcell]
    obtain ⟨v, m₁, hrun, hsame⟩ | ⟨e, m₁, hrun, hsame⟩ := hpop
    · rw [show Action.popMany (n + 1) m = Action.popMany n m₁ from bind_ok hrun, ← hsame]
      exact ih m₁
    · exact .inr ⟨e, m₁, bind_error hrun, hsame⟩

theorem bare_lowerTo (floor : Int) (m : Machine) : (m.lowerTo floor).bare = m.bare := by
  unfold lowerTo
  obtain ⟨m', hrun, hsame⟩ | ⟨e, m', hrun, hsame⟩ := bare_popMany (m.top - floor).toNat m
  · rw [hrun]
    exact hsame
  · rw [hrun]
    exact hsame

end Machine

/-- Ending the calls of an invocation keeps what is shared. -/
theorem Mirrors.settle {r : Registry} {p : Flat.Program} {M : Module} {σ : Shared} {m : Machine}
    (h : Mirrors r p M σ m) (v : Invocation) (stop : Stop) : Mirrors r p M σ (m.settle v stop) := by
  cases stop with
  | fault | exit => exact (h.calls _).bare (bare_lowerTo _ _)
  | crash | awaitInput | paused => exact h

/-- An invocation that has not ended is paused when its fuel is used up. -/
theorem Machine.Leads.paused {n : Nat} {w w₁ : Machine} {s s₁ : List Value} {v : Invocation}
    (h : Leads v.depth n w s w₁ s₁) {m : Machine} (hm : w.Stacked s m) {fuel : Nat} (hle : fuel ≤ n) :
    ∃ m', Action.steps v fuel m = .error .paused m' := by
  induction h generalizing m fuel with
  | refl =>
    obtain rfl := Nat.le_zero.mp hle
    exact ⟨m, rfl⟩
  | step hstep _ ih =>
    cases fuel with
    | zero => exact ⟨m, rfl⟩
    | succ fuel =>
      obtain ⟨m₁, hrun, hm₁⟩ := hstep m hm
      rw [Action.steps, show Action.step v.depth m = .ok none m₁ from hrun]
      exact ih hm₁ (Nat.le_of_succ_le_succ hle)

theorem Machine.resume_error {v : Invocation} {fuel : Nat} {m m' : Machine} {stop : Stop}
    (h : Action.steps v fuel m = .error stop m') :
    Action.resume v fuel m = .error stop (m'.settle v stop) := by
  simp only [Action.resume, Action.settling, h]

theorem Stop.eq_paused_of_halt {stop : Stop} (h : stop.halt = .unfinished) : stop = .paused := by
  cases stop with
  | paused => rfl
  | fault f =>
    simp only [Stop.halt, Halt.ofCause] at h
    split at h <;> cases h
  | exit | crash | awaitInput => cases h

/-- The invocation of a call that no other call waits for ends as the routine does, and goes on as
long as the routine does. -/
theorem Scene.agrees_resume {r : Registry} {p : Flat.Program} {M : Module} {c : Scene r p M}
    (hbottom : c.callers.length = c.depth) {before : Machine} (hcalls : c.callers = before.calls)
    (hlimit : c.limit = before.maxDepth) {v : Invocation} (hv : v.depth = c.depth) {turns : Nat}
    {w m : Machine} {s : List Value} (hm : w.Stacked s m) {x : Environment} {run : Run Value}
    {σ : Shared}
    (h : Follows r p M c.depth turns c.Returns w s (run ⟨fun sym => x.zero sym.type, σ⟩)) :
    ((∀ σ', x.activate run σ ≠ .error .unfinished σ') → ∃ n, ∀ fuel, n ≤ fuel →
      Agrees r p M before c.below (x.activate run σ) (Action.resume v fuel m)) ∧
    ((∃ σ', x.activate run σ = .error .unfinished σ') → ∀ fuel, fuel ≤ turns →
      ∃ m', Action.resume v fuel m = .error .paused m') := by
  rw [Environment.activate]
  generalize run ⟨fun sym => x.zero sym.type, σ⟩ = out at h ⊢
  cases h with
  | @ok n a σ' w' s' hleads hreturns =>
    obtain ⟨w₂, hstep, hcalls', hlimit', hmirrors⟩ := hreturns
    rw [if_pos hbottom, if_pos hbottom] at hstep
    rw [← hv] at hleads hstep
    obtain ⟨m₁, hm₁, hsteps⟩ := hleads.steps hm
    obtain ⟨m₂, hrun, hm₂⟩ := hstep m₁ hm₁
    constructor
    case right =>
      rintro ⟨σ'', hout⟩
      cases hout
    refine fun _ => ⟨n + 1, fun fuel hle => ?_⟩
    obtain ⟨rest, rfl⟩ := Nat.exists_eq_add_of_le hle
    have hend : Action.resume v (n + 1 + rest) m = .ok a m₂ := by
      simp only [Action.resume, Action.settling]
      rw [Nat.add_assoc, hsteps, Nat.add_comm 1, Action.steps,
        show Action.step v.depth m₁ = .ok (some a) m₂ from hrun]
    rw [hend]
    refine .ok (hmirrors.bare hm₂.same) ?_ ?_ hm₂.refl
    · rw [hm₂.calls, hcalls', hcalls]
    · rw [hm₂.maxDepth, hlimit', hlimit]
  | @stop n stop halt σ' w₁ w' s₁ s' hleads hstop hhalt hmirrors =>
    rw [← hv] at hleads hstop
    obtain ⟨m₁, hm₁, hsteps⟩ := hleads.steps hm
    obtain ⟨m₂, hrun, hm₂⟩ := hstop m₁ hm₁
    have hend : ∀ fuel, n + 1 ≤ fuel → Action.steps v fuel m = .error stop m₂ := by
      intro fuel hle
      obtain ⟨rest, rfl⟩ := Nat.exists_eq_add_of_le hle
      rw [Nat.add_assoc, hsteps, Nat.add_comm 1, Action.steps,
        show Action.step v.depth m₁ = .error stop m₂ from hrun]
    constructor
    · refine fun _ => ⟨n + 1, fun fuel hle => ?_⟩
      rw [resume_error (hend fuel hle)]
      exact .error hhalt ((hmirrors.bare hm₂.same).settle v stop)
    · rintro ⟨σ'', hout⟩ fuel -
      obtain rfl : halt = .unfinished := by cases hout; rfl
      obtain rfl := Stop.eq_paused_of_halt hhalt
      by_cases hle : fuel ≤ n
      · obtain ⟨m', hpaused⟩ := hleads.paused hm hle
        exact ⟨_, resume_error hpaused⟩
      · exact ⟨_, resume_error (hend fuel (by omega))⟩
  | @unfinished n σ' w' s' hle hleads =>
    rw [← hv] at hleads
    refine ⟨fun hout => absurd rfl (hout _), fun _ fuel hfuel => ?_⟩
    obtain ⟨m', hpaused⟩ := hleads.paused hm (Nat.le_trans hfuel hle)
    exact ⟨_, resume_error hpaused⟩

namespace Generated

variable {r : Registry} {p : Flat.Program} {M : Module} (h : Generated r p M)

include h

/-- The method of a routine is invoked. -/
theorem agrees_invoke {k : Nat} {g : Flat.Routine} (hg : p.routines[k]? = some g) {args : List Value}
    (hargs : args.length = g.params.length) {σ : Shared} {m : Machine} (hmirrors : Mirrors r p M σ m)
    {s : List Value} (hm : m.Stacked s m) {depth : Nat}
    (hdepth : (m.calls.length + 1 + depth : Int) = m.maxDepth) (turns : Nat) :
    ((∀ σ', p.run r turns depth g args σ ≠ .error .unfinished σ') → ∃ n, ∀ fuel, n ≤ fuel →
      Agrees r p M m s (p.run r turns depth g args σ) (Action.invoke fuel k args m)) ∧
    ((∃ σ', p.run r turns depth g args σ = .error .unfinished σ') → ∀ fuel, fuel ≤ turns →
      ∃ m', Action.invoke fuel k args m = .error .paused m') := by
  obtain ⟨l, rfl, rfl⟩ := h.exists_layout hg
  let c : Scene r p M :=
    { l with
      args, below := s, callers := m.calls, depth := m.calls.length, limit := m.maxDepth
      arity := hargs, nested := Nat.le_refl _ }
  have hroom : c.room = depth := by
    simp only [c, Scene.room]
    omega
  have hfound : m.module.method? l.index = some l.method := by
    rw [hmirrors.module]
    exact l.found
  have hstatics : m.statics?.isSome := by
    obtain ⟨statics, hstatics, -⟩ := hmirrors.statics
    simp [hstatics]
  have hsize : args.length = l.method.params.size := c.params_size.symm
  obtain ⟨m₁, hbegin, hm₁⟩ := Action.does_begin hstatics hfound hsize (by omega) m hm
  have hentered := c.stands_entered (p.call r turns c.room l.routine.name) hmirrors rfl rfl
  have hexec := Scene.follows_exec (c.serves_call turns) turns (Nat.le_refl _) _ c.rests_body hentered
  have hinvoke : ∀ fuel, Action.invoke fuel l.index args m =
      Action.resume ⟨m.calls.length, s.length⟩ fuel m₁ := fun fuel => bind_ok hbegin
  have hagrees := Scene.agrees_resume rfl rfl rfl (v := ⟨m.calls.length, s.length⟩) rfl hm₁ hexec
  rw [hroom] at hagrees
  simp only [hinvoke]
  exact hagrees

/-- A routine that ends does so for the machine, and one that does not end keeps it going. -/
theorem agrees_or_pauses {k : Nat} {g : Flat.Routine} (hg : p.routines[k]? = some g)
    {args : List Value} (hargs : args.length = g.params.length) {σ : Shared} {m : Machine}
    (hmirrors : Mirrors r p M σ m) {s : List Value} (hm : m.Stacked s m) {depth : Nat}
    (hdepth : (m.calls.length + 1 + depth : Int) = m.maxDepth) :
    (∀ out, Ends (fun turns => p.run r turns depth g args) σ out → ∃ n, ∀ fuel, n ≤ fuel →
      Agrees r p M m s out (Action.invoke fuel k args m)) ∧
    (Diverges (fun turns => p.run r turns depth g args) σ → ∀ fuel,
      ∃ m', Action.invoke fuel k args m = .error .paused m') := by
  constructor
  · rintro _ ⟨⟨turns, rfl⟩, hends⟩
    exact (h.agrees_invoke hg hargs hmirrors hm hdepth turns).1 hends
  · intro hdiverges fuel
    exact (h.agrees_invoke hg hargs hmirrors hm hdepth fuel).2 (hdiverges fuel) fuel (Nat.le_refl _)

/-- The code of a call of a function is a call of its method. -/
theorem call_eq {k : Nat} {g : Flat.Routine} (hg : p.routines[k]? = some g)
    (hdefined : g.callable ≠ .absent) (t : Emitting) :
    Emission.call (contextOf r p) g.callable t = .ok ([plain .call k], t) := by
  simp only [Emission.call, h.find?_method hg hdefined]
  rfl

end Generated

/-- The variables that the statements of a routine work with have slots. -/
theorem Layout.exists_slot {r : Registry} {p : Flat.Program} {M : Module} (l : Layout r p M)
    {stmt : Flat.Stmt} (hstmt : stmt ∈ l.routine.body) (hdeclare : ∀ s, stmt ≠ .declare s)
    {sym : Symbol} (hmem : sym ∈ stmt.symbols) (hkind : sym.kind = .localVariable) :
    ∃ i, l.Owns sym i := by
  obtain ⟨lines, hcode⟩ := l.body.exists_stmt hstmt
  obtain ⟨i, slot, hslot⟩ := hcode.hasSlot hdeclare hmem hkind
  exact ⟨i, List.mem_flatMap.mpr ⟨stmt, hstmt, hmem⟩, slot, hslot⟩

/-- The comparisons that have no operation of their own: each is the opposite of one that has. -/
def Emission.opposites : List (BinaryOperator × Operation) :=
  [(.notEqual, .ceq), (.lessEqual, .cgt), (.greaterEqual, .clt)]

/-- A well-typed flat program has a module, and the machine does with it what the program says. Each
variable has a slot of its own; a call of a function is a call of its method. From every state of a
call in progress the machine follows the statements that are left. An invoked routine that ends does so
with the same value or for the same reason and with the same effects, and one that never ends keeps the
machine going. -/
theorem Flat.generation_refines (name : String) {r : Registry} (hr : r.WellFormed) {p : Flat.Program}
    (hp : p.Typed r) (hid : p.Identified r) :
    (∀ x : Environment, ∀ op ∈ opposites, ∀ operand a b, x.binary (some (.binary op.1)) operand a b =
      x.orFail (Arithmetic.binary op.2 (x.tag operand) a b) >>= x.negation) ∧
    ∃ M, Module.ofFlat name r p = .ok M ∧ (M.Small → ∀ k g, p.routines[k]? = some g →
      ∃ l : Layout r p M, l.routine = g ∧ l.index = k ∧
        (∀ a b i j, l.Owns a i → l.Owns b j → (a = b ↔ i = j)) ∧
        (∀ stmt ∈ g.body, (∀ s, stmt ≠ .declare s) → ∀ sym ∈ stmt.symbols,
          sym.kind = .localVariable → ∃ i, l.Owns sym i) ∧
        (g.callable ≠ .absent → p.function? g.callable = some g ∧
          ∀ t, Emission.call (contextOf r p) g.callable t = .ok ([plain .call k], t)) ∧
        (∀ c : Scene r p M, c.toLayout = l → ∀ turns n rest σ w s, c.Rests n rest →
          c.Stands σ n [] w s → Follows r p M c.depth turns c.Returns w s
            (Flat.exec (c.environment (p.call r turns c.room g.name)) g.body turns rest σ)) ∧
        ∀ args σ m s (depth : Nat), args.length = g.params.length → Mirrors r p M σ m →
          m.Stacked s m → (m.calls.length + 1 + depth : Int) = m.maxDepth →
          (∀ out, Ends (fun turns => p.run r turns depth g args) σ out → ∃ n, ∀ fuel, n ≤ fuel →
            Agrees r p M m s out (Action.invoke fuel k args m)) ∧
          (Diverges (fun turns => p.run r turns depth g args) σ → ∀ fuel,
            ∃ m', Action.invoke fuel k args m = .error .paused m')) := by
  refine ⟨fun x op hop operand a b => ?_, ?_⟩
  · simp only [opposites, List.mem_cons, List.not_mem_nil, or_false] at hop
    obtain rfl | rfl | rfl := hop <;> rfl
  obtain ⟨M, hM, hemitted⟩ := Emission.exists_module name hr hp
  refine ⟨M, hM, fun hsmall k g hg => ?_⟩
  have hgenerated : Generated r p M := ⟨hr, hp, hid, hemitted, hsmall⟩
  obtain ⟨l, rfl, rfl⟩ := hgenerated.exists_layout hg
  refine ⟨l, rfl, rfl, fun a b i j => Layout.owns_iff, fun stmt hstmt hdeclare sym hmem =>
    l.exists_slot hstmt hdeclare hmem, fun hdefined => ⟨hgenerated.function?_eq hg hdefined,
    hgenerated.call_eq hg hdefined⟩, ?_, fun args σ m s depth hargs hmirrors hm hdepth =>
    hgenerated.agrees_or_pauses hg hargs hmirrors hm hdepth⟩
  rintro c rfl turns n rest σ w s hrests hstands
  exact Scene.follows_exec (c.serves_call turns) turns (Nat.le_refl _) rest hrests hstands

/-- What a program without static variables shares at the start. -/
def Execution.Shared.fresh (settings : Settings) : Shared :=
  ⟨fun _ => .null, #[], 0, settings.input, "", ⟨0, settings.tick⟩, ⟨settings.seed⟩⟩

/-- The machine at the start holds what a program without static variables shares. -/
theorem Generated.mirrors_fresh {r : Registry} {p : Flat.Program} {M : Module} (hnone : p.globals = [])
    {settings : Settings} {m : Machine} (hload : Machine.load M settings = .ok m) :
    Mirrors r p M (.fresh settings) m.resetStatics ∧ m.resetStatics.Stacked [] m.resetStatics := by
  obtain ⟨-, hfresh⟩ := Machine.load_eq_ok.mp hload
  rw [hfresh.eq]
  exact ⟨⟨rfl, hfresh.natives, rfl, rfl, rfl, rfl, rfl, rfl, _, rfl, by simp [hnone]⟩,
    rfl, rfl, by simp, by simp [Machine.resetStatics, firstCells]⟩

/-- A module that compilation returns is the one of the flat program that it returns. -/
theorem ofFlat_of_compile {source : List Glyph} {options : CompileOptions} {c : Compilation}
    {a : Analysis} {M : Module} (h : compile source options = .ok c) (ha : c.analysis? = some a)
    (hM : c.module? = some M) : Module.ofFlat options.name a.registry a.flat = .ok M := by
  simp only [compile] at h
  split at h
  · obtain rfl := Except.ok.inj h
    cases hM
  · obtain ⟨⟨report, a'⟩, -, h⟩ := exists_of_bind_eq_ok h
    dsimp only at h
    split at h
    · obtain rfl := Except.ok.inj h
      cases hM
    · obtain ⟨M', hM', h⟩ := exists_of_bind_eq_ok h
      obtain rfl := Except.ok.inj h
      obtain rfl := Option.some.inj ha
      obtain rfl := Option.some.inj hM
      exact hM'

def Action.answersWith (fuel k : Nat) (args : List Value) (v : Value) (m : Machine) : Bool :=
  match Action.invoke fuel k args m with
  | .ok w _ => w == v
  | .error _ _ => false

theorem Action.answersWith_iff {fuel k : Nat} {args : List Value} {v : Value} {m : Machine} :
    Action.answersWith fuel k args v m = true ↔ ∃ m', Action.invoke fuel k args m = .ok v m' := by
  unfold answersWith
  split <;> simp_all

/-- The function gives zero, as its method does. -/
theorem Flat.generation_refines_countdown :
    ∃ r p M m g σ, r.WellFormed ∧ p.Typed r ∧ p.Identified r ∧ M.Small ∧ p.routines[1]? = some g ∧
      Machine.load M ⟨.ofString "", 0, 8, 1⟩ = .ok m ∧
      Ends (fun turns => p.run r turns 7 g [.int 3]) (.fresh ⟨.ofString "", 0, 8, 1⟩)
        (.ok (.int 0) σ) ∧
      ∃ m', Action.invoke 100 1 [.int 3] m.resetStatics = .ok (.int 0) m' ∧ Mirrors r p M σ m' := by
  obtain ⟨c, hc, hall⟩ := exists_of_toOption_any (show ((compile countdown ⟨"", "", false⟩).toOption.any
    fun c => c.analysis?.any (fun a => a.flat.globals.isEmpty &&
      a.flat.routines[1]?.any fun g => g.params.length == 1) && c.module?.any fun M => M.isSmall &&
      (load M ⟨.ofString "", 0, 8, 1⟩).toOption.any fun m =>
        Action.answersWith 100 1 [.int 3] (.int 0) m.resetStatics) = true by decide +kernel)
  obtain ⟨hanalysis, hmodule⟩ := Bool.and_eq_true_iff.mp hall
  obtain ⟨a, ha, hflat⟩ := (Option.any_eq_true _ _).mp hanalysis
  obtain ⟨hnone, hroutine⟩ := Bool.and_eq_true_iff.mp hflat
  obtain ⟨g, hg, hparams⟩ := (Option.any_eq_true _ _).mp hroutine
  obtain ⟨M, hM, hmachine⟩ := (Option.any_eq_true _ _).mp hmodule
  obtain ⟨hsmall, hloads⟩ := Bool.and_eq_true_iff.mp hmachine
  obtain ⟨m, hm, hgives⟩ := exists_of_toOption_any hloads
  obtain ⟨m', hrun⟩ := Action.answersWith_iff.mp hgives
  replace hsmall := Module.isSmall_iff.mp hsmall
  obtain ⟨a', ha', hgenerated, -⟩ := exists_generated hc hM hsmall
  obtain rfl := Option.some.inj (ha.symm.trans ha')
  obtain ⟨hmirrors, hstacked⟩ := Generated.mirrors_fresh (r := a.registry) (List.isEmpty_iff.mp hnone) hm
  obtain ⟨-, M', hM', hrefines⟩ := Flat.generation_refines
    (CompileOptions.name ⟨"", "", false⟩) hgenerated.wellFormed hgenerated.typed hgenerated.identified
  obtain rfl : M' = M := Except.ok.inj (hM'.symm.trans (ofFlat_of_compile hc ha hM))
  obtain ⟨l, -, -, -, -, -, -, hinvoke⟩ := hrefines hsmall 1 g hg
  obtain ⟨-, hfresh⟩ := Machine.load_eq_ok.mp hm
  obtain ⟨hends, hdiverges⟩ := hinvoke [.int 3] _ m.resetStatics [] 7 (beq_iff_eq.mp hparams).symm
    hmirrors hstacked (by rw [hfresh.eq]; rfl)
  obtain hgoes | ⟨out, hout, -⟩ := diverges_or_ends
    (fun n more => a.flat.approximates_run a.registry 7 n more g [.int 3])
    (.fresh ⟨.ofString "", 0, 8, 1⟩)
  · obtain ⟨_, hpaused⟩ := hdiverges hgoes 100
    cases hpaused.symm.trans hrun
  · obtain ⟨n, hagrees⟩ := hends out hout
    have hagree := hagrees (max n 100) (Nat.le_max_left n 100)
    rw [show Action.invoke (max n 100) (1 : Nat) [.int 3] m.resetStatics = _ from
      Action.invoke_of_le (Nat.le_max_right n 100) hrun] at hagree
    cases hagree with
    | ok hmirrors' =>
      exact ⟨a.registry, a.flat, M', m, g, _, hgenerated.wellFormed, hgenerated.typed,
        hgenerated.identified, hsmall, hg, hm, hout, m', hrun, hmirrors'⟩

end TypedScript
