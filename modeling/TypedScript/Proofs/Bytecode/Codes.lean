import TypedScript.Bytecode.Emission
import TypedScript.Proofs.Flat.Preservation

/-!
# The code of flat programs

Which lines of code stand for an expression or a statement, in terms of the tables that its
instructions refer to. Emission only adds to the tables, so what was said of the code stays true, and
on well-typed programs it never fails.
-/

namespace TypedScript
namespace Emission

def Keeps {α : Type} (a b : Array α) : Prop := ∀ (i : Nat) (x : α), a[i]? = some x → b[i]? = some x

theorem Keeps.refl {α : Type} (a : Array α) : Keeps a a := fun _ _ h => h

theorem Keeps.trans {α : Type} {a b c : Array α} (h : Keeps a b) (k : Keeps b c) : Keeps a c :=
  fun i x hx => k i x (h i x hx)

theorem keeps_push {α : Type} (a : Array α) (x : α) : Keeps a (a.push x) := by
  intro i y hy
  obtain ⟨hi, rfl⟩ := Array.getElem?_eq_some_iff.mp hy
  rw [Array.getElem?_push, if_neg (Nat.ne_of_lt hi)]
  exact hy

theorem getElem?_intern {α : Type} [DecidableEq α] (table : Array α) (a : α) :
    (intern table a).2[(intern table a).1]? = some a := by
  unfold intern
  split
  · rename_i i hi
    obtain ⟨hlt, heq, -⟩ := Array.findIdx?_eq_some_iff_getElem.mp hi
    rw [Array.getElem?_eq_getElem hlt]
    simpa using heq
  · simp

theorem keeps_intern {α : Type} [DecidableEq α] (table : Array α) (a : α) :
    Keeps table (intern table a).2 := by
  unfold intern
  split
  · exact Keeps.refl table
  · exact keeps_push table a

/-- The tables of one state contain those of another. -/
structure Grows (s t : Emitting) : Prop where
  constants : Keeps s.module.constants t.module.constants
  types : Keeps s.module.types t.module.types
  natives : Keeps s.module.natives t.module.natives
  locals : Keeps s.locals t.locals

theorem Grows.refl (s : Emitting) : Grows s s :=
  ⟨Keeps.refl _, Keeps.refl _, Keeps.refl _, Keeps.refl _⟩

theorem Grows.trans {s t u : Emitting} (h : Grows s t) (k : Grows t u) : Grows s u :=
  ⟨h.constants.trans k.constants, h.types.trans k.types, h.natives.trans k.natives,
    h.locals.trans k.locals⟩

/-- Two states have modules that differ in their tables only. -/
def SameShape (s t : Emitting) : Prop :=
  t.module = { s.module with
    constants := t.module.constants, types := t.module.types, natives := t.module.natives }

/-- Each slot belongs to one variable of the routine and has its type. -/
structure Slots (r : Registry) (S : Symbol → Prop) (locals : Array (SymbolId × Slot)) : Prop where
  origin : ∀ (i : Nat) (l : SymbolId × Slot), locals[i]? = some l →
    ∃ sym, S sym ∧ l.1 = sym.id ∧ l.2.name = sym.name ∧ typeName r sym.type = .ok l.2.type
  nodup : ∀ (i j : Nat) (l l' : SymbolId × Slot), locals[i]? = some l → locals[j]? = some l' →
    l.1 = l'.1 → i = j

theorem Slots.push {r : Registry} {S : Symbol → Prop} {locals : Array (SymbolId × Slot)}
    (h : Slots r S locals) {sym : Symbol} {type : String} (hsym : S sym)
    (htype : typeName r sym.type = .ok type) (hnew : ∀ l ∈ locals, l.1 ≠ sym.id) :
    Slots r S (locals.push (sym.id, ⟨sym.name, type⟩)) := by
  have hold : ∀ (i : Nat) (l : SymbolId × Slot), locals[i]? = some l → l.1 ≠ sym.id :=
    fun i l hl => hnew l (Array.mem_of_getElem? hl)
  refine ⟨fun i l hl => ?_, fun i j l l' hl hl' heq => ?_⟩
  · rw [Array.getElem?_push] at hl
    split at hl
    · cases hl
      exact ⟨sym, hsym, rfl, rfl, htype⟩
    · exact h.origin i l hl
  · rw [Array.getElem?_push] at hl hl'
    split at hl <;> split at hl'
    · omega
    · cases hl
      exact absurd heq.symm (hold j l' hl')
    · cases hl'
      exact absurd heq (hold i l hl)
    · exact h.nodup i j l l' hl hl' heq

/-- The key of a field of the library, or of a callable that no method stands for. -/
def IsForeign (x : EmissionContext) (key : String) : Prop :=
  (∃ field ∈ Library.allFields, field.path = key) ∨
    ∃ callable sig, x.registry.Invokes callable sig ∧
      (x.methods.find? fun m => m.1 = callable) = none ∧ x.registry.libraryKey callable = .ok key

/-- What code may refer to: slots of its own variables, and natives that are not of the program. -/
structure Refers (x : EmissionContext) (S : Symbol → Prop) (st : Emitting) : Prop where
  slots : Slots x.registry S st.locals
  natives : ∀ key ∈ st.module.natives, IsForeign x key

theorem Refers.natives_intern {x : EmissionContext} {S : Symbol → Prop} {st : Emitting} {key : String}
    (h : Refers x S st) (hkey : IsForeign x key) :
    ∀ k ∈ (intern st.module.natives key).2, IsForeign x k := by
  intro k hk
  unfold intern at hk
  split at hk
  · exact h.natives k hk
  · obtain hk | rfl := Array.mem_push.mp hk
    · exact h.natives k hk
    · exact hkey

/-- A step of emission succeeds and adds to the tables. What is promised of its result holds of the
tables as they are then and of all that they grow into. -/
def Emits {α : Type} (x : EmissionContext) (S : Symbol → Prop) (st : Emitting) (m : Emission α)
    (P : α → Emitting → Prop) : Prop :=
  Refers x S st → ∃ a st', m st = .ok (a, st') ∧ Grows st st' ∧ SameShape st st' ∧
    Refers x S st' ∧ ∀ t, Grows st' t → P a t

namespace Emits

variable {α β : Type} {x : EmissionContext} {S : Symbol → Prop} {st : Emitting}

theorem pure {a : α} {P : α → Emitting → Prop} (h : ∀ t, P a t) : Emits x S st (Pure.pure a) P :=
  fun hs => ⟨a, st, rfl, Grows.refl st, rfl, hs, fun t _ => h t⟩

theorem bind {m : Emission α} {f : α → Emission β} {P : α → Emitting → Prop}
    {Q : β → Emitting → Prop} (hm : Emits x S st m P)
    (hf : ∀ a st', Emits x S st' (f a) fun b t => P a t → Q b t) : Emits x S st (m >>= f) Q := by
  intro hs
  obtain ⟨a, st₁, hrun, hgrows, hshape, hs₁, hp⟩ := hm hs
  obtain ⟨b, st₂, hrun', hgrows', hshape', hs₂, hq⟩ := hf a st₁ hs₁
  refine ⟨b, st₂, ?_, hgrows.trans hgrows', ?_, hs₂,
    fun t ht => hq t ht (hp t (hgrows'.trans ht))⟩
  · change (m st >>= fun x => f x.1 x.2) = _
    rw [hrun]
    exact hrun'
  · rw [SameShape, hshape', hshape]

theorem imp {m : Emission α} {P Q : α → Emitting → Prop} (hm : Emits x S st m P)
    (h : ∀ a t, P a t → Q a t) : Emits x S st m Q := by
  intro hs
  obtain ⟨a, st', hrun, hgrows, hshape, hs', hp⟩ := hm hs
  exact ⟨a, st', hrun, hgrows, hshape, hs', fun t ht => h a t (hp t ht)⟩

/-- What is asked of the registry is known. -/
theorem lift_bind {m : Except Defect α} {f : α → Emission β} {a : α} {Q : β → Emitting → Prop}
    (hm : m = .ok a) (hf : Emits x S st (f a) Q) :
    Emits x S st ((liftM m : Emission α) >>= f) Q := by
  subst hm
  exact hf

theorem internConstant (c : Constant) :
    Emits x S st (inModule (·.internConstant c)) fun i t => t.module.constants[i]? = some c := by
  intro hs
  refine ⟨_, _, rfl, ⟨keeps_intern _ c, Keeps.refl _, Keeps.refl _, Keeps.refl _⟩, rfl,
    ⟨hs.slots, hs.natives⟩, ?_⟩
  exact fun t ht => ht.constants _ _ (getElem?_intern _ c)

theorem internType (name : String) :
    Emits x S st (inModule (·.internType name)) fun i t => t.module.types[i]? = some name := by
  intro hs
  refine ⟨_, _, rfl, ⟨Keeps.refl _, keeps_intern _ name, Keeps.refl _, Keeps.refl _⟩, rfl,
    ⟨hs.slots, hs.natives⟩, ?_⟩
  exact fun t ht => ht.types _ _ (getElem?_intern _ name)

theorem internNative {key : String} (hkey : IsForeign x key) :
    Emits x S st (inModule (·.internNative key)) fun i t => t.module.natives[i]? = some key := by
  intro hs
  refine ⟨_, _, rfl, ⟨Keeps.refl _, Keeps.refl _, keeps_intern _ key, Keeps.refl _⟩, rfl,
    ⟨hs.slots, hs.natives_intern hkey⟩, ?_⟩
  exact fun t ht => ht.natives _ _ (getElem?_intern _ key)

/-- A variable has a slot from its first use on. -/
theorem slotOf {sym : Symbol} {type : String} (hsym : S sym)
    (htype : typeName x.registry sym.type = .ok type) :
    Emits x S st (Emission.slotOf x.registry sym) fun i t => ∃ slot, t.locals[i]? = some (sym.id, slot) := by
  intro hs
  have hrun : Emission.slotOf x.registry sym st = .ok ((st.locals.findIdx? fun l => l.1 = sym.id).elim
      (st.locals.size, { st with locals := st.locals.push (sym.id, ⟨sym.name, type⟩) })
      fun i => (i, st)) := by
    simp only [Emission.slotOf, htype, Bind.bind, StateT.bind, Except.bind, MonadState.get, getThe,
      MonadStateOf.get, StateT.get, Pure.pure, Except.pure, liftM, monadLift,
      MonadLift.monadLift]
    cases st.locals.findIdx? fun l => l.1 = sym.id <;> rfl
  cases hfind : st.locals.findIdx? fun l => l.1 = sym.id with
  | some i =>
    rw [hfind] at hrun
    obtain ⟨hlt, heq, -⟩ := Array.findIdx?_eq_some_iff_getElem.mp hfind
    refine ⟨i, st, hrun, Grows.refl st, rfl, hs, fun t ht => ⟨st.locals[i].2, ht.locals i _ ?_⟩⟩
    rw [Array.getElem?_eq_getElem hlt, ← of_decide_eq_true heq]
  | none =>
    rw [hfind] at hrun
    have hnew := Array.findIdx?_eq_none_iff.mp hfind
    refine ⟨_, _, hrun, ⟨Keeps.refl _, Keeps.refl _, Keeps.refl _, keeps_push _ _⟩, rfl, ?_, ?_⟩
    · exact ⟨hs.slots.push hsym htype fun l hl heq => by simpa [heq] using hnew l hl, hs.natives⟩
    · exact fun t ht => ⟨⟨sym.name, type⟩, ht.locals _ _ (by simp)⟩

end Emits

/-- The operation that computes a binary operator, and whether its result is negated. -/
def operation? : BinaryOperator → Option (Operation × Bool)
  | .add => some (.add, false)
  | .sub => some (.sub, false)
  | .mul => some (.mul, false)
  | .div => some (.div, false)
  | .rem => some (.rem, false)
  | .and => some (.and, false)
  | .or => some (.or, false)
  | .xor => some (.xor, false)
  | .shiftLeft => some (.shl, false)
  | .shiftRight => some (.shr, false)
  | .equal => some (.ceq, false)
  | .notEqual => some (.ceq, true)
  | .less => some (.clt, false)
  | .greater => some (.cgt, false)
  | .lessEqual => some (.cgt, true)
  | .greaterEqual => some (.clt, true)
  | .andAlso | .orElse => none

inductive NegationCode (t : Emitting) : List CodeLine → Prop
  | mk {i : Nat} : t.module.constants[i]? = some (.bool false) →
    NegationCode t [plain .push i, typed .ceq .bool]

/-- The code of a binary operator behind its operands. -/
inductive BinaryCode (t : Emitting) (op : BinaryOperator) (tag : Tag) : List CodeLine → Prop
  | plain {o : Operation} : operation? op = some (o, false) → BinaryCode t op tag [typed o tag]
  | negated {o : Operation} {lines : List CodeLine} : operation? op = some (o, true) →
    NegationCode t lines → BinaryCode t op tag (typed o tag :: lines)

/-- The code of a unary operator behind its operand. -/
inductive UnaryCode (t : Emitting) : UnaryOperator → Tag → List CodeLine → Prop
  | negate {tag : Tag} : UnaryCode t .negate tag [typed .neg tag]
  | plus {tag : Tag} : UnaryCode t .plus tag []
  | not {tag : Tag} {lines : List CodeLine} : NegationCode t lines → UnaryCode t .not tag lines
  | complement {tag : Tag} : UnaryCode t .complement tag [typed .compl tag]

/-- The code of a call behind its arguments. -/
inductive CallCode (x : EmissionContext) (t : Emitting) (callable : TypeId) : List CodeLine → Prop
  | method {m : TypeId × Nat} : (x.methods.find? fun m => m.1 = callable) = some m →
    CallCode x t callable [plain .call m.2]
  | native {key : String} {i : Nat} : (x.methods.find? fun m => m.1 = callable) = none →
    x.registry.libraryKey callable = .ok key → t.module.natives[i]? = some key →
    CallCode x t callable [plain .callNative i]

/-- The code of a conversion behind its operand. -/
inductive ConversionCode (x : EmissionContext) (t : Emitting) (source target : TypeId) :
    Conversion → List CodeLine → Prop
  | convert {kind : Conversion} {before after : Tag} : kind = .widen ∨ kind = .numeric →
    tagOf x.registry source = .ok before → tagOf x.registry target = .ok after →
    ConversionCode x t source target kind
      [.instruction ⟨Operation.convert.code, Int32.ofNat before.toByte.toNat, after.toByte⟩]
  | box {name : String} {i : Nat} : typeName x.registry source = .ok name →
    t.module.types[i]? = some name → ConversionCode x t source target .box [plain .box i]
  | unbox {name : String} {i : Nat} : typeName x.registry target = .ok name →
    t.module.types[i]? = some name → ConversionCode x t source target .unbox [plain .unbox i]

/-- The code that pushes the value of a symbol. -/
inductive LoadCode (x : EmissionContext) (S : Symbol → Prop) (t : Emitting) (sym : Symbol) :
    List CodeLine → Prop
  | loadLocal {i : Nat} {slot : Slot} : sym.kind = .localVariable → S sym →
    t.locals[i]? = some (sym.id, slot) → LoadCode x S t sym [plain .loadLocal i]
  | loadArg {i : Nat} : sym.kind = .parameter i → LoadCode x S t sym [plain .loadArg i]
  | loadStatic {i : Nat} : sym.kind = .globalVariable → staticOf x sym = .ok i →
    LoadCode x S t sym [plain .loadStatic i]
  | loadField {path : String} {i : Nat} : sym.kind = .libraryField path →
    t.module.natives[i]? = some path → LoadCode x S t sym [plain .loadNative i]

/-- The code that stores the top of the stack in a variable. -/
inductive StoreCode (x : EmissionContext) (S : Symbol → Prop) (t : Emitting) (sym : Symbol) :
    List CodeLine → Prop
  | storeLocal {i : Nat} {slot : Slot} : sym.kind = .localVariable → S sym →
    t.locals[i]? = some (sym.id, slot) → StoreCode x S t sym [plain .storeLocal i]
  | storeStatic {i : Nat} : sym.kind = .globalVariable → staticOf x sym = .ok i →
    StoreCode x S t sym [plain .storeStatic i]

mutual

/-- Lines of code that compute an expression. -/
inductive Codes (x : EmissionContext) (S : Symbol → Prop) (t : Emitting) :
    Flat.Expr → List CodeLine → Prop
  | literal {v : Option Literal} {type : TypeId} {i : Nat} :
    t.module.constants[i]? = some (constantOf v type) →
    Codes x S t (.literal v type) [plain .push i]
  | symbol {sym : Symbol} {lines : List CodeLine} : LoadCode x S t sym lines →
    Codes x S t (.symbol sym) lines
  | assign {sym : Symbol} {value : Flat.Expr} {lines last : List CodeLine} :
    Codes x S t value lines → StoreCode x S t sym last →
    Codes x S t (.assign sym value) (lines ++ last)
  | assignElement {array index value : Flat.Expr} {type : TypeId} {a i v : List CodeLine} :
    Codes x S t array a → Codes x S t index i → Codes x S t value v →
    Codes x S t (.assignElement array index type value) (a ++ i ++ v ++ [plain .storeElem 0])
  | binary {op : BinaryOperator} {operand type : TypeId} {left right : Flat.Expr}
    {l r last : List CodeLine} {tag : Tag} :
    Codes x S t left l → Codes x S t right r → tagOf x.registry operand = .ok tag →
    BinaryCode t op tag last →
    Codes x S t (.binary (some (.binary op)) operand left right type) (l ++ r ++ last)
  | unary {op : UnaryOperator} {operand : Flat.Expr} {type : TypeId} {lines last : List CodeLine}
    {tag : Tag} :
    Codes x S t operand lines → tagOf x.registry operand.type = .ok tag →
    UnaryCode t op tag last → Codes x S t (.unary (some (.unary op)) operand type) (lines ++ last)
  | call {callable type : TypeId} {args : List Flat.Expr} {lines last : List CodeLine} :
    CodesAll x S t args lines → CallCode x t callable last →
    Codes x S t (.call callable args type) (lines ++ last)
  | convert {kind : Conversion} {operand : Flat.Expr} {type : TypeId}
    {lines last : List CodeLine} :
    Codes x S t operand lines → ConversionCode x t operand.type type kind last →
    Codes x S t (.convert kind operand type) (lines ++ last)
  | index {target index : Flat.Expr} {type : TypeId} {a i : List CodeLine} :
    Codes x S t target a → Codes x S t index i →
    Codes x S t (.index target index type) (a ++ i ++ [plain .loadElem 0])
  | length {target : Flat.Expr} {lines : List CodeLine} : Codes x S t target lines →
    Codes x S t (.length target) (lines ++ [plain .length 0])
  | newArray {element type : TypeId} {size : Flat.Expr} {lines : List CodeLine} {name : String}
    {i : Nat} :
    Codes x S t size lines → typeName x.registry element = .ok name →
    t.module.types[i]? = some name →
    Codes x S t (.newArray element size type) (lines ++ [plain .newArray i])

/-- Lines of code that compute expressions in order. -/
inductive CodesAll (x : EmissionContext) (S : Symbol → Prop) (t : Emitting) :
    List Flat.Expr → List CodeLine → Prop
  | nil : CodesAll x S t [] []
  | cons {e : Flat.Expr} {rest : List Flat.Expr} {lines lines' : List CodeLine} :
    Codes x S t e lines → CodesAll x S t rest lines' →
    CodesAll x S t (e :: rest) (lines ++ lines')

end

/-- Lines of code that execute a statement. -/
inductive StmtCode (x : EmissionContext) (S : Symbol → Prop) (t : Emitting) :
    Flat.Stmt → List CodeLine → Prop
  | declare {sym : Symbol} : StmtCode x S t (.declare sym) []
  | eval {e : Flat.Expr} {lines : List CodeLine} : e.type ≠ .builtin .void → Codes x S t e lines →
    StmtCode x S t (.eval e) (lines ++ [plain .pop 0])
  | evalVoid {e : Flat.Expr} {lines : List CodeLine} : e.type = .builtin .void →
    Codes x S t e lines → StmtCode x S t (.eval e) lines
  | returnVoid : StmtCode x S t (.returnStmt none) [plain .retVoid 0]
  | returnValue {e : Flat.Expr} {lines : List CodeLine} : Codes x S t e lines →
    StmtCode x S t (.returnStmt (some e)) (lines ++ [plain .ret 0])
  | jump {l : Flat.Label} : StmtCode x S t (.jump l) [.branch .jump l]
  | jumpIf {e : Flat.Expr} {l : Flat.Label} {lines : List CodeLine} : Codes x S t e lines →
    StmtCode x S t (.jumpIf e l) (lines ++ [.branch .jumpTrue l])
  | label {l : Flat.Label} : StmtCode x S t (.label l) [.label l]

/-- Lines of code that execute statements in order. -/
inductive BodyCode (x : EmissionContext) (S : Symbol → Prop) (t : Emitting) :
    List Flat.Stmt → List CodeLine → Prop
  | nil : BodyCode x S t [] []
  | cons {s : Flat.Stmt} {rest : List Flat.Stmt} {lines lines' : List CodeLine} :
    StmtCode x S t s lines → BodyCode x S t rest lines' →
    BodyCode x S t (s :: rest) (lines ++ lines')

section

variable {x : EmissionContext} {S : Symbol → Prop} {st : Emitting} {name : String}

theorem Emits.pushConstant (c : Constant) :
    Emits x S st (pushConstant c) fun lines t =>
      ∃ i, t.module.constants[i]? = some c ∧ lines = [plain .push i] :=
  Emits.bind (Emits.internConstant c) fun i _ => Emits.pure fun _ h => ⟨i, h, rfl⟩

theorem Emits.negation : Emits x S st negation fun lines t => NegationCode t lines := by
  refine Emits.bind (Emits.pushConstant _) fun lines _ => Emits.pure fun t h => ?_
  obtain ⟨i, hi, rfl⟩ := h
  exact .mk hi

theorem Emits.binary {op : BinaryOperator} (h : op.isShortCircuit = false) (tag : Tag) :
    Emits x S st (binary (some (.binary op)) tag) fun lines t =>
      BinaryCode t op tag lines := by
  cases op
  case notEqual | lessEqual | greaterEqual =>
    exact Emits.bind Emits.negation fun lines _ => Emits.pure fun _ h => .negated rfl h
  case andAlso | orElse => cases h
  all_goals exact Emits.pure fun _ => .plain rfl

theorem Emits.unary (op : UnaryOperator) (tag : Tag) :
    Emits x S st (unary (some (.unary op)) tag) fun lines t =>
      UnaryCode t op tag lines := by
  cases op with
  | negate => exact Emits.pure fun _ => .negate
  | plus => exact Emits.pure fun _ => .plus
  | not => exact Emits.negation.imp fun _ _ h => .not h
  | complement => exact Emits.pure fun _ => .complement

/-- A context of emission knows what well-typed code refers to. -/
structure Knows (x : EmissionContext) (c : Typing) : Prop where
  registry : x.registry = c.registry
  wellFormed : c.registry.WellFormed
  strict : ¬c.lenient
  statics : ∀ s ∈ c.globals, ∃ i, staticOf x s = .ok i

theorem exists_typeName {r : Registry} (hr : r.WellFormed) {t : TypeId} (ht : r.IsType t)
    (he : t ≠ .error) : ∃ n, typeName r t = .ok n := by
  obtain ⟨n, hn⟩ := hr.name ht
  have ha : t ≠ .absent := by
    rintro rfl
    exact ht
  exact ⟨n, by simp [typeName, he, ha, hn]⟩

theorem tagOf_eq {r : Registry} {t : TypeId} {n : String} (h : typeName r t = .ok n) :
    tagOf r t = .ok (.ofTypeName n) := by
  simp [tagOf, h, Bind.bind, Except.bind, Pure.pure, Except.pure]

theorem exists_libraryKey {r : Registry} (hr : r.WellFormed) {callable : TypeId} {info : Callable}
    (h : r.callable callable = .ok info) : ∃ key, r.libraryKey callable = .ok key := by
  obtain ⟨g, hg⟩ := hr.callable_group h
  obtain ⟨ps, hps⟩ := hr.joinNames fun p hp => (hr.callable_params h p hp).1
  simp [Registry.libraryKey, h, Registry.qualifiedName, hg, hps, Bind.bind, Except.bind, Pure.pure,
    Except.pure]

variable {c : Typing} (hx : Knows x c)

include hx

theorem Knows.symbolType {sym : Symbol} (h : c.Declares sym) :
    ∃ n, typeName x.registry sym.type = .ok n := by
  rw [hx.registry]
  exact exists_typeName hx.wellFormed h.isType fun he => hx.strict (h.error he)

theorem Knows.exprType {e : Flat.Expr} (h : e.Typed c) :
    ∃ n, typeName x.registry e.type = .ok n := by
  rw [hx.registry]
  exact exists_typeName hx.wellFormed (h.isType hx.wellFormed) (h.ne_error hx.wellFormed hx.strict)

theorem Emits.load {sym : Symbol} (h : c.Declares sym) (hS : S sym) :
    Emits x S st (load x sym) fun lines t => LoadCode x S t sym lines := by
  have hv := h.visible
  unfold Typing.Visible at hv
  unfold Emission.load
  cases hkind : sym.kind with
  | localVariable =>
    obtain ⟨n, hn⟩ := hx.symbolType h
    refine Emits.bind (Emits.slotOf hS hn) fun i _ => Emits.pure fun t hslot => ?_
    obtain ⟨slot, hslot⟩ := hslot
    exact .loadLocal hkind hS hslot
  | parameter i => exact Emits.pure fun _ => .loadArg hkind
  | globalVariable =>
    rw [hkind] at hv
    obtain ⟨i, hi⟩ := hx.statics sym hv
    exact Emits.lift_bind hi (Emits.pure fun _ => .loadStatic hkind hi)
  | libraryField path =>
    rw [hkind] at hv
    have hforeign : IsForeign x path := .inl ⟨_, hv, rfl⟩
    exact Emits.bind (Emits.internNative hforeign) fun i _ =>
      Emits.pure fun t hi => .loadField hkind hi
  | overloads =>
    rw [hkind] at hv
    exact hv.elim

theorem Emits.storeInto {sym : Symbol} (h : c.Declares sym) (hS : S sym)
    (hplace : sym.kind = .localVariable ∨ sym.kind = .globalVariable) :
    Emits x S st (storeInto x sym) fun lines t => StoreCode x S t sym lines := by
  have hv := h.visible
  unfold Typing.Visible at hv
  unfold Emission.storeInto
  obtain hkind | hkind := hplace <;> rw [hkind] at hv ⊢
  · obtain ⟨n, hn⟩ := hx.symbolType h
    refine Emits.bind (Emits.slotOf hS hn) fun i _ => Emits.pure fun t hslot => ?_
    obtain ⟨slot, hslot⟩ := hslot
    exact .storeLocal hkind hS hslot
  · obtain ⟨i, hi⟩ := hx.statics sym hv
    exact Emits.lift_bind hi (Emits.pure fun _ => .storeStatic hkind hi)

theorem Emits.call {callable : TypeId} {sig : Signature} (h : c.registry.Invokes callable sig) :
    Emits x S st (call x callable) fun lines t => CallCode x t callable lines := by
  obtain ⟨g, hg⟩ := h
  rw [← hx.registry] at hg
  unfold Emission.call
  split
  · rename_i m hm
    exact Emits.pure fun _ => .method hm
  · rename_i hnone
    obtain ⟨key, hkey⟩ := exists_libraryKey (hx.registry ▸ hx.wellFormed) hg
    have hforeign : IsForeign x key := .inr ⟨callable, sig, ⟨g, hg⟩, hnone, hkey⟩
    refine Emits.lift_bind hg (Emits.lift_bind hkey ?_)
    exact Emits.bind (Emits.internNative hforeign) fun i _ =>
      Emits.pure fun t hi => .native hnone hkey hi

omit hx in
theorem Emits.conversion {kind : Conversion} {source target : TypeId} (hplain : kind.isPlain)
    (hid : kind ≠ .identity) (hs : ∃ n, typeName x.registry source = .ok n)
    (ht : ∃ n, typeName x.registry target = .ok n) :
    Emits x S st (conversion x kind source target) fun lines t =>
      ConversionCode x t source target kind lines := by
  obtain ⟨n, hn⟩ := hs
  obtain ⟨m, hm⟩ := ht
  have htag := tagOf_eq hn
  have htag' := tagOf_eq hm
  cases kind with
  | widen =>
    refine Emits.lift_bind htag' (Emits.lift_bind htag (Emits.pure fun _ => ?_))
    exact .convert (.inl rfl) htag htag'
  | numeric =>
    refine Emits.lift_bind htag' (Emits.lift_bind htag (Emits.pure fun _ => ?_))
    exact .convert (.inr rfl) htag htag'
  | box =>
    refine Emits.lift_bind hn (Emits.bind (Emits.internType n) fun i _ => Emits.pure fun _ hi => ?_)
    exact .box hn hi
  | unbox =>
    refine Emits.lift_bind hm (Emits.bind (Emits.internType m) fun i _ => Emits.pure fun _ hi => ?_)
    exact .unbox hm hi
  | identity => exact absurd rfl hid
  | none | toText | parse => cases hplain

omit hx in
theorem Emits.exprs {args : List Flat.Expr}
    (h : ∀ e ∈ args, ∀ st, Emits x S st (expr x name e) fun lines t =>
      Codes x S t e lines) :
    Emits x S st (exprs x name args) fun lines t => CodesAll x S t args lines := by
  induction args generalizing st with
  | nil =>
    simp only [Emission.exprs]
    exact Emits.pure fun _ => .nil
  | cons e rest ih =>
    rw [List.forall_mem_cons] at h
    simp only [Emission.exprs]
    refine Emits.bind (h.1 st) fun lines _ => Emits.bind (ih h.2) fun lines' _ => ?_
    exact Emits.pure fun t hrest hfirst => .cons hfirst hrest

omit hx in
theorem symbols_of_mem {args : List Flat.Expr} (h : ∀ s ∈ Flat.symbolsAll args, S s) :
    ∀ e ∈ args, ∀ s ∈ e.symbols, S s := by
  induction args with
  | nil => simp
  | cons e rest ih =>
    simp only [Flat.symbolsAll, List.mem_append] at h
    rw [List.forall_mem_cons]
    exact ⟨fun s hs => h s (.inl hs), ih fun s hs => h s (.inr hs)⟩

/-- The code of a well-typed expression. -/
theorem Emits.expr {e : Flat.Expr} (he : e.Typed c) (hS : ∀ s ∈ e.symbols, S s) :
    Emits x S st (expr x name e) fun lines t => Codes x S t e lines := by
  induction e using Flat.Expr.induction generalizing st with
  | literal v t =>
    simp only [Emission.expr]
    refine (Emits.pushConstant _).imp ?_
    rintro _ t ⟨i, hi, rfl⟩
    exact .literal hi
  | symbol s =>
    simp only [Emission.expr]
    exact (Emits.load hx he (hS s (by simp [Flat.Expr.symbols]))).imp fun _ _ h => .symbol h
  | assign target value ih =>
    simp only [Flat.Expr.Typed] at he
    simp only [Flat.Expr.symbols, List.forall_mem_cons] at hS
    simp only [Emission.expr]
    refine Emits.bind (ih he.2.2.1 hS.2) fun lines _ => ?_
    refine Emits.bind (Emits.storeInto hx he.2.1 hS.1 he.1) fun last _ => ?_
    exact Emits.pure fun _ hlast hlines => .assign hlines hlast
  | assignElement array index t value iha ihi ihv =>
    simp only [Flat.Expr.Typed] at he
    simp only [Flat.Expr.symbols, List.forall_mem_append] at hS
    simp only [Emission.expr]
    refine Emits.bind (iha he.1 hS.1.1) fun a _ => Emits.bind (ihi he.2.1 hS.1.2) fun i _ => ?_
    refine Emits.bind (ihv he.2.2.1 hS.2) fun v _ => ?_
    exact Emits.pure fun _ hv hi ha => .assignElement ha hi hv
  | binary op operand left right t ihl ihr =>
    simp only [Flat.Expr.Typed] at he
    obtain ⟨hl, hr, rfl, o, rfl, hshort, hs⟩ := he
    simp only [Flat.Expr.symbols, List.forall_mem_append] at hS
    simp only [Emission.expr]
    obtain ⟨n, hn⟩ := hx.exprType hl
    have htag := tagOf_eq hn
    refine Emits.bind (ihl hl hS.1) fun a _ => Emits.bind (ihr hr hS.2) fun b _ => ?_
    refine Emits.lift_bind htag (Emits.bind (Emits.binary hshort _) fun last _ => ?_)
    exact Emits.pure fun _ hlast hb ha => .binary ha hb htag hlast
  | unary op operand t ih =>
    simp only [Flat.Expr.Typed] at he
    obtain ⟨ho, o, rfl, hs⟩ := he
    simp only [Flat.Expr.symbols] at hS
    simp only [Emission.expr]
    obtain ⟨n, hn⟩ := hx.exprType ho
    have htag := tagOf_eq hn
    refine Emits.bind (ih ho hS) fun lines _ => Emits.lift_bind htag ?_
    refine Emits.bind (Emits.unary o _) fun last _ => ?_
    exact Emits.pure fun _ hlast hlines => .unary hlines htag hlast
  | call callable args t ih =>
    simp only [Flat.Expr.Typed, Flat.typedAll_iff] at he
    simp only [Flat.Expr.symbols] at hS
    simp only [Emission.expr]
    have hargs := symbols_of_mem hS
    refine Emits.bind (Emits.exprs fun e hmem st => ih e hmem (he.1 e hmem) (hargs e hmem)) ?_
    refine fun lines _ => Emits.bind (Emits.call hx he.2.1) fun last _ => ?_
    exact Emits.pure fun _ hlast hlines => .call hlines hlast
  | convert kind operand t ih =>
    simp only [Flat.Expr.Typed] at he
    obtain ⟨ho, -, ht, -, hte, -, hplain, hid⟩ := he
    simp only [Flat.Expr.symbols] at hS
    simp only [Emission.expr]
    have htarget : ∃ n, typeName x.registry t = .ok n := by
      rw [hx.registry]
      exact exists_typeName hx.wellFormed ht hte
    refine Emits.bind (ih ho hS) fun lines _ => ?_
    refine Emits.bind (Emits.conversion hplain hid (hx.exprType ho) htarget) fun last _ => ?_
    exact Emits.pure fun _ hlast hlines => .convert hlines hlast
  | index target index t iht ihi =>
    simp only [Flat.Expr.Typed] at he
    simp only [Flat.Expr.symbols, List.forall_mem_append] at hS
    simp only [Emission.expr]
    refine Emits.bind (iht he.1 hS.1) fun a _ => Emits.bind (ihi he.2.1 hS.2) fun i _ => ?_
    exact Emits.pure fun _ hi ha => .index ha hi
  | length target ih =>
    simp only [Flat.Expr.Typed] at he
    simp only [Flat.Expr.symbols] at hS
    simp only [Emission.expr]
    exact Emits.bind (ih he.1 hS) fun lines _ => Emits.pure fun _ hlines => .length hlines
  | newArray element size t ih =>
    simp only [Flat.Expr.Typed] at he
    simp only [Flat.Expr.symbols] at hS
    simp only [Emission.expr]
    have helement := hx.wellFormed.isElement he.2.2
    obtain ⟨n, hn⟩ : ∃ n, typeName x.registry element = .ok n := by
      rw [hx.registry]
      exact exists_typeName hx.wellFormed helement.1 helement.2.1
    refine Emits.bind (ih he.1 hS) fun lines _ => Emits.lift_bind hn ?_
    refine Emits.bind (Emits.internType n) fun i _ => ?_
    exact Emits.pure fun _ hi hlines => .newArray hlines hn hi
  | invalid => exact he.elim

theorem Emits.stmt {s : Flat.Stmt} {result : TypeId} (hs : s.Typed c result)
    (hS : ∀ sym ∈ s.symbols, S sym) :
    Emits x S st (stmt x name s) fun lines t => StmtCode x S t s lines := by
  cases s with
  | declare sym =>
    obtain ⟨n, hn⟩ := hx.symbolType hs.1
    refine Emits.bind (Emits.slotOf (hS sym (by simp [Flat.Stmt.symbols])) hn) fun _ _ => ?_
    exact Emits.pure fun _ _ => .declare
  | eval e =>
    refine Emits.bind (Emits.expr hx hs hS) fun lines _ => Emits.pure fun _ hlines => ?_
    split
    · rename_i hvoid
      exact .evalVoid hvoid hlines
    · rename_i hvoid
      exact .eval hvoid hlines
  | returnStmt value =>
    cases value with
    | none => exact Emits.pure fun _ => .returnVoid
    | some e =>
      refine Emits.bind (Emits.expr hx hs.1 hS) fun lines _ => ?_
      exact Emits.pure fun _ hlines => .returnValue hlines
  | jump l => exact Emits.pure fun _ => .jump
  | jumpIf cond l =>
    refine Emits.bind (Emits.expr hx hs.1 hS) fun lines _ => ?_
    exact Emits.pure fun _ hlines => .jumpIf hlines
  | label l => exact Emits.pure fun _ => .label

/-- The code of well-typed statements. -/
theorem Emits.stmts {ss : List Flat.Stmt} {result : TypeId} (hss : Flat.typedStmts c result ss)
    (hS : ∀ sym ∈ Flat.symbolsOf ss, S sym) :
    Emits x S st (stmts x name ss) fun lines t => BodyCode x S t ss lines := by
  induction ss generalizing st with
  | nil => exact Emits.pure fun _ => .nil
  | cons s rest ih =>
    simp only [Flat.symbolsOf, List.flatMap_cons, List.forall_mem_append] at hS
    rw [Flat.typedStmts, List.forall_mem_cons] at hss
    refine Emits.bind (Emits.stmt hx hss.1 hS.1) fun lines _ => ?_
    refine Emits.bind (ih hss.2 hS.2) fun lines' _ => ?_
    exact Emits.pure fun _ hrest hfirst => .cons hfirst hrest

/-- An invalid expression stops emission, wherever it stands among well-typed statements. -/
theorem stmts_invalid {ss : List Flat.Stmt} {result : TypeId}
    (hss : ∀ s ∈ ss, s.Typed c result ∨ s.isInvalid) (hinvalid : ss.any Flat.Stmt.isInvalid)
    (hrefers : Refers x (fun _ => True) st) :
    stmts x name ss st = .error (.invalidExpression name) := by
  induction ss generalizing st with
  | nil => simp at hinvalid
  | cons s rest ih =>
    rw [List.forall_mem_cons] at hss
    by_cases hs : s.isInvalid
    · obtain rfl : s = .eval .invalid := by
        unfold Flat.Stmt.isInvalid at hs
        split at hs
        · rfl
        · cases hs
      rfl
    · have htyped := hss.1.resolve_right hs
      obtain ⟨lines, st', hrun, -, -, hrefers', -⟩ :=
        Emits.stmt hx htyped (fun _ _ => trivial) hrefers
      have hrest := ih hss.2 (by simpa [hs] using hinvalid) hrefers'
      change (stmt x name s st >>= fun p => (do return p.1 ++ (← stmts x name rest)) p.2) = _
      rw [hrun]
      change (stmts x name rest st' >>= fun p => pure (lines ++ p.1, p.2)) = _
      rw [hrest]
      rfl

end

end Emission
end TypedScript
