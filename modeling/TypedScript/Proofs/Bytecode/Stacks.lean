import TypedScript.Machine.State
import TypedScript.Proofs.Bytecode.Assembly
import TypedScript.Proofs.Machine.Values

/-!
# What instructions do to the stack

An instruction takes operands off the stack and leaves others in their place. How many depends on the
instruction and on what it calls, and of which types they are is known as well: operands are given by
the names of their types, uppermost first.
-/

namespace TypedScript

@[simp] theorem Operation.ofCode?_code (op : Operation) : ofCode? op.code = some op := by
  cases op <;> rfl

theorem exists_getElem?_right {α β : Type} {R : α → β → Prop} {as : List α} {bs : List β}
    (h : List.Forall₂ R as bs) {i : Nat} {a : α} (ha : as[i]? = some a) :
    ∃ b, bs[i]? = some b ∧ R a b := by
  induction h generalizing i with
  | nil => simp at ha
  | @cons x y xs ys hxy _ ih =>
    cases i with
    | zero =>
      obtain rfl := Option.some.inj ha
      exact ⟨y, rfl, hxy⟩
    | succ i => exact ih ha

theorem exists_of_bind_eq_ok {ε α β : Type} {m : Except ε α} {f : α → Except ε β} {b : β}
    (h : (m >>= f) = .ok b) : ∃ a, m = .ok a ∧ f a = .ok b := by
  cases m with
  | error d => cases h
  | ok a => exact ⟨a, rfl, h⟩

/-- How many operands an operation takes off the stack and how many it leaves in their place; for
calls that depends on what is called. -/
def Operation.moves : Operation → Nat × Nat
  | push | loadArg | loadLocal | loadStatic | loadNative => (0, 1)
  | pop | jumpTrue | ret => (1, 0)
  | dup => (1, 2)
  | storeLocal | storeStatic | neg | compl | convert | box | unbox | newArray | length => (1, 1)
  | add | sub | mul | div | rem | and | or | xor | shl | shr | ceq | clt | cgt | loadElem => (2, 1)
  | storeElem => (3, 1)
  | nop | jump | retVoid | call | callNative => (0, 0)

/-- Operations that compute binary operators take two operands and leave one. -/
theorem Emission.of_operation? {op : BinaryOperator} {o : Operation} {negated : Bool}
    (h : operation? op = some (o, negated)) :
    o.moves = (2, 1) ∧ o.operand = .none ∧ o ∉ [.call, .callNative] ∧
      o ∉ [.jump, .jumpTrue, .ret, .retVoid] := by
  cases op <;> simp only [operation?, Option.some.injEq, Prod.mk.injEq, reduceCtorEq] at h <;>
    obtain ⟨rfl, -⟩ := h <;> decide

namespace Instruction

/-- The instruction performs an operation with an operand. -/
structure Is (i : Instruction) (op : Operation) (a : Nat) : Prop where
  operation : i.operation? = some op
  operand : i.operand.toInt = a

@[simp] theorem operation?_plain (op : Operation) (a : Int) : (plain op a).operation? = some op :=
  op.ofCode?_code

@[simp] theorem operation?_typed (op : Operation) (t : Tag) : (typed op t).operation? = some op :=
  op.ofCode?_code

/-- Operands are numbers of 32 bits. -/
theorem is_plain (op : Operation) {a : Nat} (h : a < 0x80000000) : (plain op a).Is op a := by
  refine ⟨operation?_plain op a, ?_⟩
  simp only [plain]
  rw [Int32.toInt_ofInt_of_le (by omega) (by omega)]

@[simp] theorem tag_typed (op : Operation) (b : Builtin) : (typed op b.tag).tag = b.tag := by
  cases b <;> rfl

end Instruction

/-- The operands when a result is left on them; there is none of type void. -/
def leaving (t : String) (σ : List String) : List String :=
  if t = "void" then σ else t :: σ

theorem leaving_of_isValueType {t : String} (h : IsValueType t) (σ : List String) :
    leaving t σ = t :: σ :=
  if_neg h.ne_void

namespace Module

/-- How many operands an instruction takes off the stack and how many it leaves in their place. -/
def moves? (M : Module) (i : Instruction) : Option (Nat × Nat) :=
  i.operation?.bind fun op =>
    match op with
    | .call =>
      (M.method? i.operand.toInt.toNat).map fun g => (g.params.size, if g.returns then 1 else 0)
    | .callNative =>
      (M.natives[i.operand.toInt.toNat]?.bind Native.find?).map fun n =>
        (n.arity, if n.returns then 1 else 0)
    | op => some op.moves

/-- What an instruction that is no jump and no return does to the operands in a method. -/
inductive Effect (M : Module) (f : Method) (i : Instruction) : List String → List String → Prop
  | pop {t : String} {σ : List String} : i.operation? = some .pop → Effect M f i (t :: σ) σ
  | push {a : Nat} {c : Constant} {t : String} {σ : List String} : i.Is .push a →
    M.constants[a]? = some c → IsValueType t → (∀ heap, c.value.Has heap t) →
    Effect M f i σ (t :: σ)
  | loadArg {a : Nat} {t : String} {σ : List String} : i.Is .loadArg a → f.params[a]? = some t →
    Effect M f i σ (t :: σ)
  | loadLocal {a : Nat} {slot : Slot} {σ : List String} : i.Is .loadLocal a →
    f.locals[a]? = some slot → Effect M f i σ (slot.type :: σ)
  | storeLocal {a : Nat} {slot : Slot} {σ : List String} : i.Is .storeLocal a →
    f.locals[a]? = some slot → Effect M f i (slot.type :: σ) (slot.type :: σ)
  | loadStatic {a : Nat} {field : Field} {σ : List String} : i.Is .loadStatic a →
    M.fields[a]? = some field → Effect M f i σ (field.type :: σ)
  | storeStatic {a : Nat} {field : Field} {σ : List String} : i.Is .storeStatic a →
    M.fields[a]? = some field → Effect M f i (field.type :: σ) (field.type :: σ)
  | loadNative {a : Nat} {key : String} {v : Double} {σ : List String} : i.Is .loadNative a →
    M.natives[a]? = some key → Native.find? key = some ⟨key, .constant (.float v)⟩ →
    Effect M f i σ (Builtin.f64.name :: σ)
  | binary {op : BinaryOperator} {o : Operation} {negated : Bool} {b : Builtin} {σ : List String} :
    i.operation? = some o → Emission.operation? op = some (o, negated) →
    b ∈ Intrinsics.operands op → i.tag = b.tag →
    Effect M f i (b.name :: b.name :: σ) ((if op.isComparison then Builtin.bool else b).name :: σ)
  | negate {b : Builtin} {σ : List String} : i.operation? = some .neg →
    b ∈ Intrinsics.operand .negate → i.tag = b.tag → Effect M f i (b.name :: σ) (b.name :: σ)
  | complement {b : Builtin} {σ : List String} : i.operation? = some .compl →
    b ∈ Intrinsics.operand .complement → i.tag = b.tag → Effect M f i (b.name :: σ) (b.name :: σ)
  | convert {b c : Builtin} {σ : List String} : i.operation? = some .convert → b.isNumberLike →
    c.isNumberLike → i.tag = c.tag → Effect M f i (b.name :: σ) (c.name :: σ)
  | box {a : Nat} {t : String} {σ : List String} : i.Is .box a → M.types[a]? = some t →
    Effect M f i (t :: σ) (Builtin.object.name :: σ)
  | unbox {a : Nat} {t : String} {σ : List String} : i.Is .unbox a → M.types[a]? = some t →
    Effect M f i (Builtin.object.name :: σ) (t :: σ)
  | newArray {a : Nat} {t : String} {σ : List String} : i.Is .newArray a → M.types[a]? = some t →
    IsValueType t → Effect M f i (Builtin.i32.name :: σ) (arrayName t :: σ)
  | loadElem {t : String} {σ : List String} : i.operation? = some .loadElem →
    Effect M f i (Builtin.i32.name :: arrayName t :: σ) (t :: σ)
  | loadChar {σ : List String} : i.operation? = some .loadElem →
    Effect M f i (Builtin.i32.name :: Builtin.string.name :: σ) (Builtin.char.name :: σ)
  | storeElem {t : String} {σ : List String} : i.operation? = some .storeElem →
    Effect M f i (t :: Builtin.i32.name :: arrayName t :: σ) (t :: σ)
  | arrayLength {t : String} {σ : List String} : i.operation? = some .length →
    Effect M f i (arrayName t :: σ) (Builtin.i32.name :: σ)
  | textLength {σ : List String} : i.operation? = some .length →
    Effect M f i (Builtin.string.name :: σ) (Builtin.i32.name :: σ)
  | call {a : Nat} {g : Method} {σ : List String} : i.Is .call a → M.method? a = some g →
    Effect M f i (g.params.toList.reverse ++ σ) (leaving g.result σ)
  | callNative {a : Nat} {key : String} {n : Routine} {result : Builtin} {params : List Builtin}
    {σ : List String} : i.Is .callNative a → M.natives[a]? = some key →
    Native.find? key = some ⟨key, .routine n⟩ →
    ⟨.builtin result, params.map .builtin⟩ ∈ n.signatures →
    Effect M f i ((params.map Builtin.name).reverse ++ σ) (leaving result.name σ)

theorem length_leaving (g : Method) (σ : List String) :
    (leaving g.result σ).length = σ.length + if g.returns then 1 else 0 := by
  by_cases h : g.result = "void"
  · have hreturns : g.returns = false := by simpa [Method.returns] using h
    simp [leaving, h, hreturns]
  · have hreturns : g.returns = true := by simpa [Method.returns] using h
    simp [leaving, h, hreturns]

theorem moves?_eq {M : Module} {i : Instruction} {op : Operation} (h : i.operation? = some op)
    (hcall : op ≠ .call) (hnative : op ≠ .callNative) : M.moves? i = some op.moves := by
  simp only [moves?, h, Option.bind_some]

/-- The number of operands changes as the instruction says. -/
theorem Effect.moves {M : Module} {f : Method} {i : Instruction} {σ τ : List String}
    (h : M.Effect f i σ τ) :
    ∃ takes leaves, M.moves? i = some (takes, leaves) ∧ takes ≤ σ.length ∧
      τ.length + takes = σ.length + leaves := by
  cases h with
  | pop hi => exact ⟨1, 0, moves?_eq hi (by decide) (by decide), by simp, by simp⟩
  | push hi | loadArg hi | loadLocal hi | loadStatic hi | loadNative hi =>
    exact ⟨0, 1, moves?_eq hi.operation (by decide) (by decide), by simp, by simp⟩
  | storeLocal hi | storeStatic hi | box hi | unbox hi | newArray hi =>
    exact ⟨1, 1, moves?_eq hi.operation (by decide) (by decide), by simp, by simp⟩
  | negate hi | complement hi | convert hi | arrayLength hi | textLength hi =>
    exact ⟨1, 1, moves?_eq hi (by decide) (by decide), by simp, by simp⟩
  | binary hi hop =>
    obtain ⟨hmoves, -, hnot, -⟩ := Emission.of_operation? hop
    exact ⟨2, 1, by rw [moves?_eq hi (by simp_all) (by simp_all), hmoves], by simp, by simp⟩
  | loadElem hi | loadChar hi =>
    exact ⟨2, 1, moves?_eq hi (by decide) (by decide), by simp, by simp⟩
  | storeElem hi => exact ⟨3, 1, moves?_eq hi (by decide) (by decide), by simp, by simp⟩
  | @call a g σ hi hg =>
    refine ⟨g.params.size, if g.returns then 1 else 0,
      by simp [moves?, hi.operation, hi.operand, hg], by simp, ?_⟩
    rw [length_leaving]
    simp
    omega
  | @callNative a key n result params σ hi hkey hfind hsig =>
    have harity := Routine.arity_of_mem_signatures hsig
    have hreturns := Routine.returns_of_mem_signatures hsig
    refine ⟨n.arity, if n.returns then 1 else 0, ?_, by simp [harity], ?_⟩
    · simp [moves?, hi.operation, hi.operand, hkey, hfind, Native.arity, Native.returns]
      rfl
    · by_cases hvoid : result = .void
      · have hnone : n.returns = false := by simpa [hvoid] using hreturns
        simp [leaving, hvoid, Builtin.name, hnone, harity]
        omega
      · have hsome : n.returns = true := by simpa [hvoid] using hreturns
        have hname : result.name ≠ "void" :=
          fun h => hvoid (Builtin.name_injective (c := .void) h)
        simp [leaving, hname, hsome, harity]
        omega

/-- Instructions with an effect are no jumps and no returns. -/
theorem Effect.not_control {M : Module} {f : Method} {i : Instruction} {σ τ : List String}
    (h : M.Effect f i σ τ) :
    ∃ op, i.operation? = some op ∧ op ∉ [.jump, .jumpTrue, .ret, .retVoid] := by
  cases h with
  | pop hi | negate hi | complement hi | convert hi | loadElem hi | loadChar hi | storeElem hi
  | arrayLength hi | textLength hi => exact ⟨_, hi, by decide⟩
  | binary hi hop => exact ⟨_, hi, (Emission.of_operation? hop).2.2.2⟩
  | push hi | loadArg hi | loadLocal hi | storeLocal hi | loadStatic hi | storeStatic hi
  | loadNative hi | box hi | unbox hi | newArray hi | call hi | callNative hi =>
    exact ⟨_, hi.operation, by decide⟩

/-- The operand of an instruction is within its table. -/
theorem Effect.inRange {M : Module} {f : Method} {i : Instruction} {σ τ : List String}
    (h : M.Effect f i σ τ) : M.inRange f i := by
  have htable : ∀ {α : Type} {table : Array α} {a : Nat} {x : α}, table[a]? = some x →
      a < table.size := by
    intro α table a x hx
    exact (Array.getElem?_eq_some_iff.mp hx).1
  cases h with
  | push hi ha | loadArg hi ha | loadLocal hi ha | storeLocal hi ha | loadStatic hi ha
  | storeStatic hi ha | loadNative hi ha | box hi ha | unbox hi ha | newArray hi ha
  | callNative hi ha =>
    have hlt := htable ha
    simpa [Module.inRange, hi.operation, hi.operand, Operation.operand, limit?] using hlt
  | pop hi | negate hi | complement hi | convert hi | loadElem hi | loadChar hi | storeElem hi
  | arrayLength hi | textLength hi => simp [Module.inRange, hi, Operation.operand, limit?]
  | binary hi hop => simp [Module.inRange, hi, (Emission.of_operation? hop).2.1, limit?]
  | call hi ha =>
    have hlt := htable (Option.join_eq_some_iff.mp ha)
    simpa [Module.inRange, hi.operation, hi.operand, Operation.operand, limit?] using hlt

end Module

/-!
## The operands before each instruction

Code is made of pieces that take the operands from one state to another. Jumps, labels and returns
stand between statements, where there are no operands but those of the jump or return itself; so it
does not matter from where an instruction is reached.
-/

open Emission

/-- Lines of code take the operands from `σ` to `τ`; before each instruction they are as listed. -/
inductive Carries (M : Module) (f : Method) :
    List String → List CodeLine → List (List String) → List String → Prop
  | nil {σ : List String} : Carries M f σ [] [] σ
  | effect {i : Instruction} {σ ρ τ : List String} {lines : List CodeLine}
    {shapes : List (List String)} : M.Effect f i σ ρ → Carries M f ρ lines shapes τ →
    Carries M f σ (.instruction i :: lines) (σ :: shapes) τ
  | ret {i : Instruction} {τ : List String} {lines : List CodeLine} {shapes : List (List String)} :
    i.operation? = some .ret → f.result ≠ "void" → Carries M f [] lines shapes τ →
    Carries M f [f.result] (.instruction i :: lines) ([f.result] :: shapes) τ
  | retVoid {i : Instruction} {τ : List String} {lines : List CodeLine}
    {shapes : List (List String)} :
    i.operation? = some .retVoid → f.result = "void" → Carries M f [] lines shapes τ →
    Carries M f [] (.instruction i :: lines) ([] :: shapes) τ
  | jump {l : Flat.Label} {τ : List String} {lines : List CodeLine} {shapes : List (List String)} :
    Carries M f [] lines shapes τ → Carries M f [] (.branch .jump l :: lines) ([] :: shapes) τ
  | jumpTrue {l : Flat.Label} {τ : List String} {lines : List CodeLine}
    {shapes : List (List String)} : Carries M f [] lines shapes τ →
    Carries M f [Builtin.bool.name] (.branch .jumpTrue l :: lines) ([Builtin.bool.name] :: shapes) τ
  | label {l : Flat.Label} {τ : List String} {lines : List CodeLine} {shapes : List (List String)} :
    Carries M f [] lines shapes τ → Carries M f [] (.label l :: lines) shapes τ

def stackAt (shapes : List (List String)) (τ : List String) (n : Nat) : List String :=
  (shapes ++ [τ]).getD n []

@[simp] theorem stackAt_cons_zero (σ : List String) (shapes : List (List String)) (τ : List String) :
    stackAt (σ :: shapes) τ 0 = σ := rfl

@[simp] theorem stackAt_cons_succ (σ : List String) (shapes : List (List String)) (τ : List String)
    (n : Nat) : stackAt (σ :: shapes) τ (n + 1) = stackAt shapes τ n := rfl

/-- What the operands have to be before an instruction and behind it. -/
inductive Admits (M : Module) (f : Method) (position : Flat.Label → Nat) (targets : List Flat.Label)
    (i : Instruction) (σ τ : List String) : Prop
  | effect : M.Effect f i σ τ → Admits M f position targets i σ τ
  | ret : i.operation? = some .ret → f.result ≠ "void" → σ = [f.result] →
    Admits M f position targets i σ τ
  | retVoid : i.operation? = some .retVoid → f.result = "void" → σ = [] →
    Admits M f position targets i σ τ
  | jump {l : Flat.Label} : l ∈ targets → i = .plain .jump (position l) → σ = [] →
    Admits M f position targets i σ τ
  | jumpTrue {l : Flat.Label} : l ∈ targets → i = .plain .jumpTrue (position l) →
    σ = [Builtin.bool.name] → τ = [] → Admits M f position targets i σ τ

theorem Admits.mono {M : Module} {f : Method} {position : Flat.Label → Nat}
    {targets targets' : List Flat.Label} {i : Instruction} {σ τ : List String}
    (h : Admits M f position targets i σ τ) (hsub : ∀ l ∈ targets, l ∈ targets') :
    Admits M f position targets' i σ τ := by
  cases h with
  | effect he => exact .effect he
  | ret hi hr hσ => exact .ret hi hr hσ
  | retVoid hi hr hσ => exact .retVoid hi hr hσ
  | jump hl hi hσ => exact .jump (hsub _ hl) hi hσ
  | jumpTrue hl hi hσ hτ => exact .jumpTrue (hsub _ hl) hi hσ hτ

namespace Carries

variable {M : Module} {f : Method} {σ ρ τ : List String} {lines lines' : List CodeLine}
  {shapes shapes' : List (List String)}

theorem append (h : Carries M f σ lines shapes ρ) (h' : Carries M f ρ lines' shapes' τ) :
    Carries M f σ (lines ++ lines') (shapes ++ shapes') τ := by
  induction h with
  | nil => exact h'
  | effect he _ ih => exact .effect he (ih h')
  | ret hi hr _ ih => exact .ret hi hr (ih h')
  | retVoid hi hr _ ih => exact .retVoid hi hr (ih h')
  | jump _ ih => exact .jump (ih h')
  | jumpTrue _ ih => exact .jumpTrue (ih h')
  | label _ ih => exact .label (ih h')

theorem single {i : Instruction} (h : M.Effect f i σ τ) :
    Carries M f σ [.instruction i] [σ] τ :=
  .effect h .nil

theorem stackAt_zero (h : Carries M f σ lines shapes τ) : stackAt shapes τ 0 = σ := by
  induction h with
  | nil => rfl
  | effect | ret | retVoid | jump | jumpTrue => rfl
  | label _ ih => exact ih

/-- There is an entry for each instruction. -/
theorem length_eq (h : Carries M f σ lines shapes τ) (labels : List (Flat.Label × Nat)) :
    (lines.filterMap (instruction? labels)).length = shapes.length := by
  induction h with
  | nil => rfl
  | effect _ _ ih | ret _ _ _ ih | retVoid _ _ _ ih | jump _ ih | jumpTrue _ ih =>
    simpa [instruction?] using ih
  | label _ ih => exact ih

/-- Each instruction finds the operands that it needs. -/
theorem admits (h : Carries M f σ lines shapes τ) (labels : List (Flat.Label × Nat)) {n : Nat}
    {i : Instruction} (hi : (lines.filterMap (instruction? labels))[n]? = some i) :
    Admits M f (Emission.position labels) (targetsIn lines) i (stackAt shapes τ n)
      (stackAt shapes τ (n + 1)) := by
  induction h generalizing n with
  | nil => simp at hi
  | effect he hrest ih =>
    cases n with
    | zero =>
      obtain rfl := Option.some.inj hi
      simpa [hrest.stackAt_zero] using .effect he
    | succ n => exact ih hi
  | ret hop hr hrest ih =>
    cases n with
    | zero =>
      obtain rfl := Option.some.inj hi
      exact .ret hop hr rfl
    | succ n => exact ih hi
  | retVoid hop hr hrest ih =>
    cases n with
    | zero =>
      obtain rfl := Option.some.inj hi
      exact .retVoid hop hr rfl
    | succ n => exact ih hi
  | @jump l _ _ _ hrest ih =>
    cases n with
    | zero =>
      exact .jump (by simp) (Option.some.inj hi).symm rfl
    | succ n =>
      exact (ih hi).mono fun _ hl => List.mem_cons_of_mem l hl
  | @jumpTrue l _ _ _ hrest ih =>
    cases n with
    | zero =>
      exact .jumpTrue (by simp) (Option.some.inj hi).symm rfl (by simpa using hrest.stackAt_zero)
    | succ n =>
      exact (ih hi).mono fun _ hl => List.mem_cons_of_mem l hl
  | label _ ih => exact ih hi

/-- There are no operands where a label is. -/
theorem stackAt_label (h : Carries M f σ lines shapes τ) {base : Nat} {p : Flat.Label × Nat}
    (hp : p ∈ positions base lines) : ∃ n, p.2 = base + n ∧ stackAt shapes τ n = [] := by
  induction h generalizing base with
  | nil => simp [positions] at hp
  | effect _ _ ih | ret _ _ _ ih | retVoid _ _ _ ih | jump _ ih | jumpTrue _ ih =>
    obtain ⟨n, hn, hstack⟩ := ih (by simpa [positions] using hp)
    exact ⟨n + 1, by omega, by simpa using hstack⟩
  | label hrest ih =>
    simp only [positions, List.mem_cons] at hp
    obtain rfl | hp := hp
    · exact ⟨0, rfl, hrest.stackAt_zero⟩
    · exact ih hp

end Carries

/-- The operands before each instruction of a method: none at its start and at the targets of jumps,
the result before a return, and in between they change as the instructions say. -/
structure Method.Verified (M : Module) (f : Method) (shapes : Nat → List String) : Prop where
  start : shapes 0 = []
  nonempty : 0 < f.code.size
  step : ∀ n i, f.code[n]? = some i →
    (∃ target, i.Is .jump target ∧ target < f.code.size ∧ shapes n = [] ∧ shapes target = []) ∨
    (∃ target, i.Is .jumpTrue target ∧ target < f.code.size ∧ shapes n = [Builtin.bool.name] ∧
      shapes target = [] ∧ n + 1 < f.code.size ∧ shapes (n + 1) = []) ∨
    (i.operation? = some .ret ∧ shapes n = [f.result] ∧ f.result ≠ "void") ∨
    (i.operation? = some .retVoid ∧ shapes n = [] ∧ f.result = "void") ∨
    (M.Effect f i (shapes n) (shapes (n + 1)) ∧ n + 1 < f.code.size)

theorem positions_concat (base : Nat) (lines : List CodeLine) (i : Instruction) :
    positions base (lines ++ [CodeLine.instruction i]) = positions base lines := by
  induction lines generalizing base with
  | nil => rfl
  | cons line rest ih =>
    cases line with
    | label l => simp [positions, ih]
    | instruction j => simp [positions, ih]
    | branch op l => simp [positions, ih]

theorem position_le {base : Nat} {lines : List CodeLine} (labels : List (Flat.Label × Nat))
    {p : Flat.Label × Nat} (hp : p ∈ positions base lines) :
    p.2 ≤ base + (lines.filterMap (instruction? labels)).length := by
  induction lines generalizing base with
  | nil => simp [positions] at hp
  | cons line rest ih =>
    cases line with
    | label l =>
      simp only [positions, List.mem_cons] at hp
      obtain rfl | hp := hp
      · exact Nat.le_add_right _ _
      · exact ih hp
    | instruction i =>
      have := ih (by simpa [positions] using hp)
      simp [instruction?]
      omega
    | branch op l =>
      have := ih (by simpa [positions] using hp)
      simp [instruction?]
      omega

/-- Code whose labels are defined, and that ends with a return, is verified once its lines are. -/
theorem Carries.verified {M : Module} {f : Method} {lines : List CodeLine}
    {shapes : List (List String)} (h : Carries M f [] lines shapes [])
    (hcode : f.code = (instructions lines).toArray)
    (hdefined : ∀ l ∈ targetsIn lines, l ∈ labelsIn lines) (hsize : f.code.size < 0x80000000)
    {before : List CodeLine} {last : Instruction} (hlast : lines = before ++ [CodeLine.instruction last])
    (hreturn : last.operation? = some .ret ∨ last.operation? = some .retVoid) :
    f.Verified M (stackAt shapes []) := by
  have hcount : f.code.size = (before.filterMap (instruction? (positions 0 lines))).length + 1 := by
    rw [hcode, instructions]
    nth_rewrite 2 [hlast]
    simp [List.filterMap_append, instruction?]
  have htarget : ∀ l ∈ targetsIn lines,
      position (positions 0 lines) l < f.code.size ∧
        stackAt shapes [] (position (positions 0 lines) l) = [] := by
    intro l hl
    have hmem : l ∈ (positions 0 lines).map Prod.fst := by
      rw [labels_positions]
      exact hdefined l hl
    obtain ⟨p, hp⟩ := exists_find?_of_mem hmem
    have hposition : position (positions 0 lines) l = p.2 := by simp [position, hp]
    have hin := List.mem_of_find?_eq_some hp
    obtain ⟨n, hn, hstack⟩ := h.stackAt_label hin
    rw [hposition]
    refine ⟨?_, by rw [hn, Nat.zero_add]; exact hstack⟩
    have hbefore : p ∈ positions 0 before := by
      rw [hlast, positions_concat] at hin
      exact hin
    have := position_le (positions 0 lines) hbefore
    omega
  have hfinal : f.code[f.code.size - 1]? = some last := by
    rw [hcount, hcode, List.getElem?_toArray, instructions, Nat.add_sub_cancel]
    nth_rewrite 2 [hlast]
    simp [List.filterMap_append, instruction?]
  have hnext : ∀ n i, f.code[n]? = some i → i.operation? ≠ some .ret →
      i.operation? ≠ some .retVoid → n + 1 < f.code.size := by
    intro n i hi hret hretVoid
    have hlt := (Array.getElem?_eq_some_iff.mp hi).1
    by_contra hge
    obtain rfl : n = f.code.size - 1 := by omega
    rw [hfinal, Option.some.injEq] at hi
    subst hi
    exact hreturn.elim hret hretVoid
  refine ⟨h.stackAt_zero, by omega, fun n i hi => ?_⟩
  have hadmits := h.admits (positions 0 lines) (n := n) (i := i)
    (by rw [← hi, hcode, List.getElem?_toArray]; rfl)
  cases hadmits with
  | effect he =>
    obtain ⟨op, hop, hnot⟩ := he.not_control
    have hlt := hnext n i hi (by rw [hop]; rintro ⟨⟩; simp at hnot)
      (by rw [hop]; rintro ⟨⟩; simp at hnot)
    exact .inr (.inr (.inr (.inr ⟨he, hlt⟩)))
  | ret hop hr hσ => exact .inr (.inr (.inl ⟨hop, hσ, hr⟩))
  | retVoid hop hr hσ => exact .inr (.inr (.inr (.inl ⟨hop, hσ, hr⟩)))
  | jump hl hi' hσ =>
    obtain ⟨hlt, hstack⟩ := htarget _ hl
    exact .inl ⟨_, hi' ▸ Instruction.is_plain .jump (by omega), hlt, hσ, hstack⟩
  | jumpTrue hl hi' hσ hτ =>
    obtain ⟨hlt, hstack⟩ := htarget _ hl
    have hop : i.operation? = some .jumpTrue := by simp [hi']
    exact .inr (.inl ⟨_, hi' ▸ Instruction.is_plain .jumpTrue (by omega), hlt, hσ, hstack,
      hnext n i hi (by simp [hop]) (by simp [hop]), hτ⟩)

end TypedScript
