import TypedScript.Proofs.Bytecode.Stacks
import TypedScript.Proofs.Flat.Symbols

/-!
# Code that makes sense

The code of a well-typed expression leaves one operand of its type on the others, and that of a
statement leaves the operands as they were. So in the methods of a module that was made of a well-typed
program the operands before each instruction are known.
-/

namespace TypedScript

open Emission

/-- A module is small enough for operands of 32 bits. -/
structure Module.Small (M : Module) : Prop where
  constants : M.constants.size < 0x80000000
  types : M.types.size < 0x80000000
  natives : M.natives.size < 0x80000000
  fields : M.fields.size < 0x80000000
  methods : M.methods.size < 0x80000000
  params : ∀ f, some f ∈ M.methods → f.params.size < 0x80000000
  locals : ∀ f, some f ∈ M.methods → f.locals.size < 0x80000000
  code : ∀ f, some f ∈ M.methods → f.code.size < 0x80000000

namespace Module

/-- Whether a module is small enough for operands of 32 bits. -/
def isSmall (M : Module) : Bool :=
  [M.constants.size, M.types.size, M.natives.size, M.fields.size, M.methods.size].all (· < 0x80000000) &&
    M.methods.all fun f? => f?.all fun f =>
      [f.params.size, f.locals.size, f.code.size].all (· < 0x80000000)

theorem isSmall_iff {M : Module} : M.isSmall ↔ M.Small := by
  have hmethods : (M.methods.all fun f? => f?.all fun f =>
      [f.params.size, f.locals.size, f.code.size].all (· < 0x80000000)) ↔
      ∀ f, some f ∈ M.methods → f.params.size < 0x80000000 ∧ f.locals.size < 0x80000000 ∧
        f.code.size < 0x80000000 := by
    rw [Array.all_eq_true_iff_forall_mem]
    constructor
    · intro h f hf
      simpa using h (some f) hf
    · rintro h (_ | f) hf
      · rfl
      · simpa using h f hf
  rw [isSmall, Bool.and_eq_true, hmethods]
  constructor
  · rintro ⟨htables, h⟩
    simp only [List.all_cons, List.all_nil, Bool.and_eq_true, decide_eq_true_eq] at htables
    obtain ⟨hconstants, htypes, hnatives, hfields, hmethods, -⟩ := htables
    exact ⟨hconstants, htypes, hnatives, hfields, hmethods, fun f hf => (h f hf).1,
      fun f hf => (h f hf).2.1, fun f hf => (h f hf).2.2⟩
  · intro h
    refine ⟨?_, fun f hf => ⟨h.params f hf, h.locals f hf, h.code f hf⟩⟩
    simp only [List.all_cons, List.all_nil, Bool.and_eq_true, decide_eq_true_eq]
    exact ⟨h.constants, h.types, h.natives, h.fields, h.methods, trivial⟩

end Module

/-- A module was made of a program that makes sense. -/
structure Generated (r : Registry) (p : Flat.Program) (M : Module) : Prop where
  wellFormed : r.WellFormed
  typed : p.Typed r
  identified : p.Identified r
  emitted : Emitted r p M
  small : M.Small

/-- Where the code of a routine stands: in a method with the parameters, the result and the slots of
the routine. -/
structure Holds (r : Registry) (p : Flat.Program) (M : Module) (g : Flat.Routine)
    (locals : Array (SymbolId × Slot)) (f : Method) : Prop where
  generated : Generated r p M
  routine : g ∈ p.routines
  method : some f ∈ M.methods
  slots : Slots r (· ∈ Flat.symbolsOf g.body) locals
  params : List.Forall₂ (fun s n => typeName r s.type = .ok n) g.params f.params.toList
  result : typeName r g.result = .ok f.result
  locals : f.locals = locals.map Prod.snd

theorem lt_of_getElem? {α : Type} {table : Array α} {i n : Nat} {a : α} (h : table[i]? = some a)
    (hn : table.size < n) : i < n :=
  Nat.lt_trans (Array.getElem?_eq_some_iff.mp h).1 hn

namespace Holds

variable {r : Registry} {p : Flat.Program} {M : Module} {g : Flat.Routine}
  {locals : Array (SymbolId × Slot)} {f : Method} (h : Holds r p M g locals f)

include h

/-- The slot of a variable has its type. -/
theorem slot_type {i : Nat} {slot : Slot} {sym : Symbol} {n : String}
    (hslot : locals[i]? = some (sym.id, slot)) (hsym : sym ∈ Flat.symbolsOf g.body)
    (hn : typeName r sym.type = .ok n) :
    f.locals[i]? = some slot ∧ slot.type = n ∧ i < 0x80000000 := by
  have hlocal : f.locals[i]? = some slot := by simp [h.locals, hslot]
  obtain ⟨sym', hsym', hid, -, htype⟩ := h.slots.origin i _ hslot
  obtain rfl : sym = sym' := by
    refine h.generated.identified.distinct g h.routine sym ?_ sym' ?_ hid
    · simp [hsym]
    · simp [hsym']
  rw [hn, Except.ok.injEq] at htype
  exact ⟨hlocal, htype.symm, lt_of_getElem? hlocal (h.generated.small.locals f h.method)⟩

/-- The field of a global variable has its type. -/
theorem field_type {i : Nat} {sym : Symbol} {n : String}
    (hstatic : staticOf (contextOf r p) sym = .ok i) (hsym : sym ∈ p.globals)
    (hn : typeName r sym.type = .ok n) :
    ∃ field, M.fields[i]? = some field ∧ field.type = n ∧ i < 0x80000000 := by
  have hglobal : ∃ sym', p.globals[i]? = some sym' ∧ sym'.id = sym.id := by
    unfold staticOf at hstatic
    split at hstatic
    · rename_i e he
      obtain rfl := Except.ok.inj hstatic
      have hmem := List.mem_of_find?_eq_some he
      have hid := List.find?_some he
      have hindex := List.mem_zipIdx_iff_getElem?.mp hmem
      rw [List.getElem?_map, Option.map_eq_some_iff] at hindex
      obtain ⟨sym', hsym', heq⟩ := hindex
      exact ⟨sym', hsym', heq.trans (by simpa using hid)⟩
    · cases hstatic
  obtain ⟨sym', hsym', hid⟩ := hglobal
  obtain rfl : sym' = sym := by
    refine h.generated.identified.distinct g h.routine sym' ?_ sym ?_ hid
    · simp [List.mem_of_getElem? hsym']
    · simp [hsym]
  obtain ⟨field, hfield, hof⟩ := exists_getElem?_right h.generated.emitted.fields hsym'
  rw [Array.getElem?_toList] at hfield
  simp only [fieldOf, hn, Bind.bind, Except.bind, Pure.pure, Except.pure, Except.ok.injEq] at hof
  subst hof
  exact ⟨_, hfield, rfl, lt_of_getElem? hfield h.generated.small.fields⟩

/-- Pushing the value of a symbol leaves an operand of its type. -/
theorem load {sym : Symbol} {lines : List CodeLine} {n : String}
    (hcode : LoadCode (contextOf r p) (· ∈ Flat.symbolsOf g.body) ⟨M, locals⟩ sym lines)
    (hsym : (⟨r, p.globals, g.params, False⟩ : Typing).Declares sym)
    (hn : typeName r sym.type = .ok n) (σ : List String) :
    ∃ i, lines = [.instruction i] ∧ M.Effect f i σ (n :: σ) := by
  have hvisible := hsym.visible
  unfold Typing.Visible at hvisible
  cases hcode with
  | @loadLocal i slot hkind hmem hslot =>
    obtain ⟨hlocal, rfl, hi⟩ := h.slot_type hslot hmem hn
    exact ⟨_, rfl, .loadLocal (Instruction.is_plain _ hi) hlocal⟩
  | @loadArg i hkind =>
    rw [hkind] at hvisible
    obtain ⟨m, hm, hname⟩ := exists_getElem?_right h.params hvisible
    rw [hn, Except.ok.injEq] at hname
    subst hname
    rw [Array.getElem?_toList] at hm
    have hi := lt_of_getElem? hm (h.generated.small.params f h.method)
    exact ⟨_, rfl, .loadArg (Instruction.is_plain _ hi) hm⟩
  | @loadStatic i hkind hstatic =>
    rw [hkind] at hvisible
    obtain ⟨field, hfield, rfl, hi⟩ := h.field_type hstatic hvisible hn
    exact ⟨_, rfl, .loadStatic (Instruction.is_plain _ hi) hfield⟩
  | @loadField path i hkind hkey =>
    rw [hkind] at hvisible
    obtain ⟨hfind, htype⟩ := exists_constant hvisible
    have htype' : sym.type = .builtin .f64 := htype
    rw [htype', typeName_builtin, Except.ok.injEq] at hn
    subst hn
    have hi := lt_of_getElem? hkey h.generated.small.natives
    exact ⟨_, rfl, .loadNative (Instruction.is_plain _ hi) hkey hfind⟩

/-- Storing an operand of the type of the variable leaves it there. -/
theorem store {sym : Symbol} {lines : List CodeLine} {n : String}
    (hcode : StoreCode (contextOf r p) (· ∈ Flat.symbolsOf g.body) ⟨M, locals⟩ sym lines)
    (hsym : (⟨r, p.globals, g.params, False⟩ : Typing).Declares sym)
    (hn : typeName r sym.type = .ok n) (σ : List String) :
    ∃ i, lines = [.instruction i] ∧ M.Effect f i (n :: σ) (n :: σ) := by
  have hvisible := hsym.visible
  unfold Typing.Visible at hvisible
  cases hcode with
  | @storeLocal i slot hkind hmem hslot =>
    obtain ⟨hlocal, rfl, hi⟩ := h.slot_type hslot hmem hn
    exact ⟨_, rfl, .storeLocal (Instruction.is_plain _ hi) hlocal⟩
  | @storeStatic i hkind hstatic =>
    rw [hkind] at hvisible
    obtain ⟨field, hfield, rfl, hi⟩ := h.field_type hstatic hvisible hn
    exact ⟨_, rfl, .storeStatic (Instruction.is_plain _ hi) hfield⟩

end Holds

def Named (r : Registry) (ts : List TypeId) (names : List String) : Prop :=
  List.Forall₂ (fun t n => typeName r t = .ok n) ts names

theorem Named.unique {r : Registry} {ts : List TypeId} {ns ms : List String} (h : Named r ts ns)
    (h' : Named r ts ms) : ns = ms := by
  induction h generalizing ms with
  | nil =>
    cases h'
    rfl
  | cons hn _ ih =>
    cases h' with
    | cons hm hrest =>
      rw [hn, Except.ok.injEq] at hm
      rw [hm, ih hrest]

theorem named_builtin (r : Registry) (bs : List Builtin) :
    Named r (bs.map .builtin) (bs.map Builtin.name) := by
  induction bs with
  | nil => exact .nil
  | cons b bs ih => exact .cons (typeName_builtin b) ih

theorem Routine.isBuiltin_of_mem_signatures {n : Routine} {s : Signature} (h : s ∈ n.signatures) :
    ∃ (result : Builtin) (params : List Builtin),
      s = ⟨.builtin result, params.map .builtin⟩ := by
  cases n with
  | abs t | parse t =>
    obtain ⟨b, -, rfl⟩ := List.mem_map.mp h
    exact ⟨b, [_], rfl⟩
  | newline | input | random | clock =>
    obtain rfl := List.mem_singleton.mp h
    exact ⟨_, [], rfl⟩
  | absFloat | sqrt | exit | toText =>
    obtain rfl := List.mem_singleton.mp h
    exact ⟨_, [_], rfl⟩
  | randomBetween | equalTexts | equalObjects =>
    obtain rfl := List.mem_singleton.mp h
    exact ⟨_, [_, _], rfl⟩
  | print line =>
    simp only [signatures, List.mem_cons, List.not_mem_nil, or_false] at h
    obtain rfl | rfl := h
    · exact ⟨_, [_], rfl⟩
    · exact ⟨_, [_], rfl⟩
  | concat =>
    simp only [signatures, List.mem_cons, List.not_mem_nil, or_false] at h
    obtain rfl | rfl | rfl := h
    · exact ⟨_, [_, _], rfl⟩
    · exact ⟨_, [_, _], rfl⟩
    · exact ⟨_, [_, _], rfl⟩

theorem forall₂_of_mapM {α β : Type} {f : α → Except Defect β} {as : List α} {bs : List β}
    (h : as.mapM f = .ok bs) : List.Forall₂ (fun a b => f a = .ok b) as bs := by
  induction as generalizing bs with
  | nil =>
    obtain rfl := Except.ok.inj h
    exact .nil
  | cons a rest ih =>
    rw [List.mapM_cons] at h
    obtain ⟨b, hb, h⟩ := exists_of_bind_eq_ok h
    obtain ⟨cs, hcs, h⟩ := exists_of_bind_eq_ok h
    obtain rfl := Except.ok.inj h
    exact .cons hb (ih hcs)

theorem methodOf_eq_ok {r : Registry} {g : Flat.Routine} {d : Method} (h : methodOf r g = .ok d) :
    List.Forall₂ (fun s n => typeName r s.type = .ok n) g.params d.params.toList ∧
      typeName r g.result = .ok d.result := by
  obtain ⟨names, hnames, h⟩ := exists_of_bind_eq_ok h
  obtain ⟨result, hresult, h⟩ := exists_of_bind_eq_ok h
  obtain rfl := Except.ok.inj h
  exact ⟨forall₂_of_mapM hnames, hresult⟩

namespace Generated

variable {r : Registry} {p : Flat.Program} {M : Module} (h : Generated r p M)

include h

/-- Each method executes the routine in its place. -/
theorem exists_method {k : Nat} {g : Flat.Routine} (hg : p.routines[k]? = some g) :
    ∃ f, M.method? k = some f ∧ some f ∈ M.methods ∧ Implements (contextOf r p) M g f := by
  obtain ⟨ms, hms, hall⟩ := h.emitted.methods
  obtain ⟨f, hf, himplements⟩ := exists_getElem?_right hall hg
  refine ⟨f, ?_, ?_, himplements⟩
  · simp [Module.method?, hms, hf]
  · rw [hms]
    simpa using List.mem_of_getElem? hf

/-- The code of a method stands where that of its routine does. -/
theorem holds {g : Flat.Routine} (hg : g ∈ p.routines) {f : Method} (hf : some f ∈ M.methods)
    (hi : Implements (contextOf r p) M g f) :
    ∃ locals lines, Holds r p M g locals f ∧
      BodyCode (contextOf r p) (· ∈ Flat.symbolsOf g.body) ⟨M, locals⟩ g.body lines ∧
      f.code = (instructions lines).toArray := by
  obtain ⟨locals, lines, d, hslots, hcode, hd, rfl⟩ := hi
  obtain ⟨hparams, hresult⟩ := methodOf_eq_ok hd
  exact ⟨locals, lines, ⟨h, hg, hf, hslots, hparams, hresult, rfl⟩, hcode, rfl⟩

/-- A function of the program has a callable, and nothing else does. -/
theorem mem_functions {k : Nat} {g : Flat.Routine} (hg : p.routines[k]? = some g)
    (hcallable : g.callable ≠ .absent) : g ∈ p.functions := by
  have hmem := List.mem_of_getElem? hg
  simp only [Flat.Program.routines, List.cons_append, List.mem_cons, List.mem_append] at hmem
  obtain rfl | hmem | hmem := hmem
  · exact absurd h.identified.initializer.1 hcallable
  · exact hmem
  · exact absurd (h.identified.script g (by simpa using hmem)).1 hcallable

omit h in
theorem ne_absent {callable : TypeId} {sig : Signature} (h : r.Invokes callable sig) :
    callable ≠ .absent := by
  rintro rfl
  obtain ⟨group, hgroup⟩ := h
  simp [Registry.callable, Registry.get?] at hgroup

/-- What is no function of the program is a routine of the machine. -/
theorem exists_routine {callable : TypeId} {sig : Signature} (hinvokes : r.Invokes callable sig)
    (hnone : ((contextOf r p).methods.find? fun m => m.1 = callable) = none) :
    ∃ key n, r.libraryKey callable = .ok key ∧ Native.find? key = some ⟨key, .routine n⟩ ∧
      sig ∈ n.signatures := by
  have hdefined := ne_absent hinvokes
  obtain ⟨group, hgroup⟩ := hinvokes
  obtain hinitial | hfunction := h.identified.callables callable _ hgroup rfl
  · exact exists_native h.identified.registry hinitial rfl
  · obtain ⟨g, hg, hcallable⟩ := List.mem_map.mp hfunction
    have hroutine : g ∈ p.routines := by simp [Flat.Program.routines, hg]
    obtain ⟨k, hk⟩ := List.getElem?_of_mem hroutine
    have hmem : (callable, k) ∈ (contextOf r p).methods := by
      refine List.mem_filter.mpr ⟨List.mem_zipIdx_iff_getElem?.mpr ?_, by simpa using hdefined⟩
      simp [hk, hcallable]
    exact absurd (List.find?_eq_none.mp hnone _ hmem) (by simp)

/-- The machine knows all natives that the module refers to. -/
theorem find_native {key : String} (hkey : key ∈ M.natives) : (Native.find? key).isSome := by
  obtain ⟨field, hfield, rfl⟩ | ⟨callable, sig, hinvokes, hnone, heq⟩ := h.emitted.natives key hkey
  · simp [(exists_constant hfield).1]
  · obtain ⟨key', n, hkey', hfind, -⟩ := h.exists_routine hinvokes hnone
    have heq' : r.libraryKey callable = .ok key := heq
    rw [hkey', Except.ok.injEq] at heq'
    subst heq'
    simp [hfind]

/-- Calling takes the arguments off and leaves the result. -/
theorem call {callable : TypeId} {lines : List CodeLine} {locals : Array (SymbolId × Slot)}
    (hcode : CallCode (contextOf r p) ⟨M, locals⟩ callable lines) {t : TypeId} {ts : List TypeId}
    (hinvokes : r.Invokes callable ⟨t, ts⟩) {n : String} {names : List String}
    (hn : typeName r t = .ok n) (hnames : Named r ts names) (f : Method) (σ : List String) :
    ∃ i, lines = [.instruction i] ∧ M.Effect f i (names.reverse ++ σ) (leaving n σ) := by
  cases hcode with
  | @method m hfind =>
    have hdefined := ne_absent hinvokes
    obtain ⟨group, hgroup⟩ := hinvokes
    have hmem := List.mem_of_find?_eq_some hfind
    have heq : m.1 = callable := by simpa using List.find?_some hfind
    have hindex := List.mem_zipIdx_iff_getElem?.mp (List.mem_filter.mp hmem).1
    rw [List.getElem?_map, Option.map_eq_some_iff] at hindex
    obtain ⟨g, hg, hcallable⟩ := hindex
    have hfunction := h.mem_functions hg (by rw [hcallable, heq]; exact hdefined)
    obtain ⟨group', hgroup'⟩ := h.typed.functions g hfunction
    rw [hcallable, heq, hgroup, Except.ok.injEq, Callable.mk.injEq] at hgroup'
    obtain ⟨-, rfl, rfl, -⟩ := hgroup'
    obtain ⟨f', hf', hmem', himplements⟩ := h.exists_method hg
    obtain ⟨locals', lines', hholds, -, -⟩ := h.holds (List.mem_of_getElem? hg) hmem' himplements
    have hparams : Named r (g.params.map Symbol.type) f'.params.toList := by
      rw [Named, List.forall₂_map_left_iff]
      exact hholds.params
    have hresult := hholds.result
    rw [hn, Except.ok.injEq] at hresult
    obtain rfl := hnames.unique hparams
    subst hresult
    have hi : m.2 < 0x80000000 :=
      lt_of_getElem? (Option.join_eq_some_iff.mp hf') h.small.methods
    exact ⟨_, rfl, .call (Instruction.is_plain _ hi) hf'⟩
  | @native key i hnone hkey hi =>
    obtain ⟨key', m, hkey', hfind, hsig⟩ := h.exists_routine hinvokes hnone
    have heq : r.libraryKey callable = .ok key := hkey
    rw [hkey', Except.ok.injEq] at heq
    subst heq
    obtain ⟨result, params, hsignature⟩ := Routine.isBuiltin_of_mem_signatures hsig
    rw [Signature.mk.injEq] at hsignature
    obtain ⟨rfl, rfl⟩ := hsignature
    rw [typeName_builtin, Except.ok.injEq] at hn
    subst hn
    obtain rfl := hnames.unique (named_builtin r params)
    have hlt := lt_of_getElem? hi h.small.natives
    exact ⟨_, rfl, .callNative (Instruction.is_plain _ hlt) hi hfind hsig⟩

end Generated

theorem Registry.classifyValues_builtin (b c : Builtin) :
    ((classifyValues (.builtin b) (.builtin c) = .widen ∨
      classifyValues (.builtin b) (.builtin c) = .numeric) → b.isNumberLike ∧ c.isNumberLike) ∧
    (classifyValues (.builtin b) (.builtin c) = .box → c = .object) ∧
    (classifyValues (.builtin b) (.builtin c) = .unbox → b = .object) := by
  cases b <;> cases c <;> decide

/-- Which types are converted by code. -/
theorem Registry.of_classify {r : Registry} {s t : TypeId} {kind : Conversion} (hs : r.IsType s)
    (ht : r.IsType t) (hid : kind ≠ .identity) (h : r.classify s t = .ok kind) :
    ((kind = .widen ∨ kind = .numeric) → ∃ b c : Builtin, s = .builtin b ∧ t = .builtin c ∧
      b.isNumberLike ∧ c.isNumberLike) ∧
    (kind = .box → t = .builtin .object) ∧ (kind = .unbox → s = .builtin .object) := by
  rw [classify_eq hs ht, Except.ok.injEq] at h
  split at h
  · exact absurd h.symm hid
  · split at h
    · subst h
      simp
    · subst h
      cases s with
      | builtin b =>
        cases t with
        | builtin c => simpa using classifyValues_builtin b c
        | _ => cases b <;> simp [classifyValues]
      | _ =>
        cases t with
        | builtin c => cases c <;> simp [classifyValues]
        | _ => simp [classifyValues]

def Brings (M : Module) (f : Method) (σ : List String) (lines : List CodeLine) (τ : List String) :
    Prop :=
  ∃ shapes, Carries M f σ lines shapes τ

namespace Brings

variable {M : Module} {f : Method} {σ ρ τ : List String} {lines lines' : List CodeLine}

theorem nil : Brings M f σ [] σ := ⟨[], .nil⟩

theorem append (h : Brings M f σ lines ρ) (h' : Brings M f ρ lines' τ) :
    Brings M f σ (lines ++ lines') τ := by
  obtain ⟨shapes, hs⟩ := h
  obtain ⟨shapes', hs'⟩ := h'
  exact ⟨shapes ++ shapes', hs.append hs'⟩

theorem single {i : Instruction} (h : M.Effect f i σ τ) : Brings M f σ [.instruction i] τ :=
  ⟨[σ], .single h⟩

theorem of_exists (h : ∃ i, lines = [.instruction i] ∧ M.Effect f i σ τ) : Brings M f σ lines τ := by
  obtain ⟨i, rfl, hi⟩ := h
  exact single hi

end Brings

namespace Holds

variable {r : Registry} {p : Flat.Program} {M : Module} {g : Flat.Routine}
  {locals : Array (SymbolId × Slot)} {f : Method} (h : Holds r p M g locals f)

include h

theorem conversion {kind : Conversion} {s t : TypeId} {lines : List CodeLine}
    (hcode : ConversionCode (contextOf r p) ⟨M, locals⟩ s t kind lines) (hs : r.IsType s)
    (ht : r.IsType t) (hid : kind ≠ .identity) (hclassify : r.classify s t = .ok kind)
    {n m : String} (hn : typeName r s = .ok n) (hm : typeName r t = .ok m) (σ : List String) :
    ∃ i, lines = [.instruction i] ∧ M.Effect f i (n :: σ) (m :: σ) := by
  obtain ⟨hnumbers, hbox, hunbox⟩ := Registry.of_classify hs ht hid hclassify
  cases hcode with
  | convert hkind hbefore hafter =>
    obtain ⟨b, c, rfl, rfl, hb, hc⟩ := hnumbers hkind
    rw [typeName_builtin, Except.ok.injEq] at hn hm
    subst hn hm
    have htag : tagOf r (.builtin c) = .ok c.tag := by simp [tagOf_eq (typeName_builtin c)]
    have heq : tagOf r (.builtin c) = .ok _ := hafter
    rw [htag, Except.ok.injEq] at heq
    subst heq
    exact ⟨_, rfl, .convert Operation.convert.ofCode?_code hb hc (Instruction.tag_typed .convert c)⟩
  | @box name i hname hi =>
    obtain rfl := hbox rfl
    rw [typeName_builtin, Except.ok.injEq] at hm
    subst hm
    have heq : typeName r s = .ok name := hname
    rw [hn, Except.ok.injEq] at heq
    subst heq
    exact ⟨_, rfl, .box (Instruction.is_plain _ (lt_of_getElem? hi h.generated.small.types)) hi⟩
  | @unbox name i hname hi =>
    obtain rfl := hunbox rfl
    rw [typeName_builtin, Except.ok.injEq] at hn
    subst hn
    have heq : typeName r t = .ok name := hname
    rw [hm, Except.ok.injEq] at heq
    subst heq
    exact ⟨_, rfl, .unbox (Instruction.is_plain _ (lt_of_getElem? hi h.generated.small.types)) hi⟩

theorem negation {lines : List CodeLine} (hcode : NegationCode ⟨M, locals⟩ lines) (σ : List String) :
    Brings M f (Builtin.bool.name :: σ) lines (Builtin.bool.name :: σ) := by
  obtain ⟨hi⟩ := hcode
  have hpush : M.Effect f (.plain .push _) (Builtin.bool.name :: σ)
      (Builtin.bool.name :: Builtin.bool.name :: σ) :=
    .push (Instruction.is_plain _ (lt_of_getElem? hi h.generated.small.constants)) hi
      (.builtin (by decide)) fun _ => by simp [Constant.bool, Constant.value, Value.Has, Builtin.tag]
  have hcompare : M.Effect f (.typed .ceq .bool) (Builtin.bool.name :: Builtin.bool.name :: σ)
      (Builtin.bool.name :: σ) :=
    have hop : Emission.operation? .equal = some (.ceq, false) := rfl
    have hb : Builtin.bool ∈ Intrinsics.operands .equal := by decide
    .binary (Instruction.operation?_typed _ _) hop hb rfl
  exact (Brings.single hpush).append (.single hcompare)

theorem binary {op : BinaryOperator} {tag : Tag} {lines : List CodeLine}
    (hcode : BinaryCode ⟨M, locals⟩ op tag lines) {b : Builtin} (hb : b ∈ Intrinsics.operands op)
    (htag : tag = b.tag) (σ : List String) :
    Brings M f (b.name :: b.name :: σ) lines
      ((if op.isComparison then Builtin.bool else b).name :: σ) := by
  subst htag
  cases hcode with
  | plain hop =>
    exact .single (.binary (Instruction.operation?_typed _ _) hop hb (Instruction.tag_typed _ b))
  | negated hop hneg =>
    have hcomparison : op.isComparison := by
      revert hop
      cases op <;> simp [Emission.operation?, BinaryOperator.isComparison]
    have hfirst := Brings.single (M := M) (f := f) (σ := b.name :: b.name :: σ)
      (.binary (Instruction.operation?_typed _ b.tag) hop hb (Instruction.tag_typed _ b))
    rw [hcomparison] at hfirst ⊢
    exact hfirst.append (h.negation hneg σ)

theorem unary {op : UnaryOperator} {tag : Tag} {lines : List CodeLine}
    (hcode : UnaryCode ⟨M, locals⟩ op tag lines) {b : Builtin} (hb : b ∈ Intrinsics.operand op)
    (htag : tag = b.tag) (σ : List String) : Brings M f (b.name :: σ) lines (b.name :: σ) := by
  subst htag
  cases hcode with
  | negate =>
    exact .single (.negate (Instruction.operation?_typed _ _) hb (Instruction.tag_typed _ b))
  | plus => exact .nil
  | not hneg =>
    obtain rfl := List.mem_singleton.mp hb
    exact h.negation hneg σ
  | complement =>
    exact .single (.complement (Instruction.operation?_typed _ _) hb (Instruction.tag_typed _ b))

omit h in
/-- Expressions leave their values in order, so the last is on top. -/
theorem exprs {args : List Flat.Expr} {lines : List CodeLine}
    (hcode : CodesAll (contextOf r p) (· ∈ Flat.symbolsOf g.body) ⟨M, locals⟩ args lines)
    (hargs : ∀ e ∈ args, ∀ {lines n},
      Codes (contextOf r p) (· ∈ Flat.symbolsOf g.body) ⟨M, locals⟩ e lines →
      typeName r e.type = .ok n → ∀ σ, Brings M f σ lines (n :: σ))
    {names : List String} (hnames : Named r (args.map Flat.Expr.type) names) (σ : List String) :
    Brings M f σ lines (names.reverse ++ σ) := by
  induction args generalizing lines names σ with
  | nil =>
    cases hcode
    cases hnames
    exact .nil
  | cons e rest ih =>
    rw [List.forall_mem_cons] at hargs
    cases hcode with
    | cons he hrest =>
      cases hnames with
      | @cons _ n _ names hn hns =>
        have hfirst := hargs.1 he hn σ
        have hothers := ih hrest hargs.2 hns (n :: σ)
        rw [List.reverse_cons, List.append_assoc]
        exact hfirst.append hothers

/-- The value of an expression is left on the operands, unless it has none. -/
theorem expr {e : Flat.Expr} {lines : List CodeLine}
    (hcode : Codes (contextOf r p) (· ∈ Flat.symbolsOf g.body) ⟨M, locals⟩ e lines)
    (he : e.Typed ⟨r, p.globals, g.params, False⟩) {n : String} (hn : typeName r e.type = .ok n)
    (σ : List String) : Brings M f σ lines (leaving n σ) := by
  have hw := h.generated.wellFormed
  have hnested := h.generated.identified.nested
  have hname : ∀ {e : Flat.Expr}, e.Typed ⟨r, p.globals, g.params, False⟩ →
      ∃ n, typeName r e.type = .ok n := fun he =>
    exists_typeName hw (he.isType hw) (he.ne_error hw id)
  have hvalue : ∀ {e : Flat.Expr} {n : String}, e.Typed ⟨r, p.globals, g.params, False⟩ →
      e.type ≠ .builtin .void → typeName r e.type = .ok n → ∀ σ, leaving n σ = n :: σ :=
    fun he hv hn => leaving_of_isValueType
      (isValueType_of_typeName hw hnested (he.isType hw) hv hn)
  have hleaves : ∀ {e : Flat.Expr} {n : String} {σ : List String} {lines : List CodeLine},
      e.Typed ⟨r, p.globals, g.params, False⟩ → e.type ≠ .builtin .void →
      typeName r e.type = .ok n → Brings M f σ lines (leaving n σ) →
      Brings M f σ lines (n :: σ) := by
    intro e n σ lines he hv hn hbrings
    rw [hvalue he hv hn] at hbrings
    exact hbrings
  induction e using Flat.Expr.induction generalizing lines n σ with
  | literal v t =>
    rw [hvalue he he.2.2.1 hn]
    cases hcode with
    | literal hi =>
      refine .single (.push (Instruction.is_plain _ (lt_of_getElem? hi h.generated.small.constants))
        hi (isValueType_of_typeName hw hnested he.1 he.2.2.1 hn) fun heap => ?_)
      exact constantOf_has heap hw hnested rfl he hn
  | symbol s =>
    rw [hvalue he (Typing.Declares.ne_void he) hn]
    cases hcode with
    | symbol hload => exact .of_exists (h.load hload he hn σ)
  | assign target value ih =>
    have hvoid := he.ne_void hw (by simp)
    rw [hvalue he hvoid hn]
    simp only [Flat.Expr.Typed] at he
    obtain ⟨-, htarget, hv, htype⟩ := he
    have hsame : typeName r value.type = .ok n := by rw [htype]; exact hn
    cases hcode with
    | assign hcode hstore =>
      have hfirst := hleaves hv (by rw [htype]; exact hvoid) hsame (ih hcode hv hsame σ)
      exact hfirst.append (.of_exists (h.store hstore htarget hn σ))
  | assignElement array index t value iha ihi ihv =>
    have hvoid := he.ne_void hw (by simp)
    rw [hvalue he hvoid hn]
    simp only [Flat.Expr.Typed] at he
    obtain ⟨ha, hi, hv, helement, hindex, htype⟩ := he
    have harray := typeName_array hw hnested helement hn
    have hsame : typeName r value.type = .ok n := by rw [htype]; exact hn
    have hinteger : typeName r index.type = .ok Builtin.i32.name := by rw [hindex]; simp
    have hreference : array.type ≠ .builtin .void :=
      Flat.ne_void_of_element (c := ⟨r, [], [], False⟩) (.inr helement)
    cases hcode with
    | assignElement hca hci hcv =>
      have hfirst := hleaves ha hreference harray (iha hca ha harray σ)
      have hsecond := hleaves hi (by simp [hindex]) hinteger (ihi hci hi hinteger (arrayName n :: σ))
      have hthird := hleaves hv (by rw [htype]; exact hvoid) hsame
        (ihv hcv hv hsame (Builtin.i32.name :: arrayName n :: σ))
      have hlast : Brings M f _ _ (n :: σ) := .single (.storeElem (Instruction.operation?_plain _ 0))
      exact ((hfirst.append hsecond).append hthird).append hlast
  | binary op operand left right t ihl ihr =>
    rw [hvalue he (he.ne_void hw (by simp)) hn]
    simp only [Flat.Expr.Typed] at he
    obtain ⟨hl, hr, rfl, o, rfl, -, hsig⟩ := he
    obtain ⟨b, hb, hsignature⟩ := List.mem_map.mp hsig
    simp only [Intrinsics.binarySignature, Signature.mk.injEq, List.cons.injEq, and_true]
      at hsignature
    obtain ⟨rfl, hleft, hright⟩ := hsignature
    obtain ⟨-, hparams⟩ := Intrinsics.isBuiltin_of_mem_signatures hsig
    simp only [List.forall_mem_cons] at hparams
    have hne : left.type ≠ .builtin .void ∧ right.type ≠ .builtin .void := by
      obtain ⟨⟨c, hc, hcv⟩, ⟨d, hd, hdv⟩, -⟩ := hparams
      simp [hc, hd, hcv, hdv]
    have hnl : typeName r left.type = .ok b.name := by rw [← hleft]; simp
    have hnr : typeName r right.type = .ok b.name := by rw [← hright]; simp
    cases hcode with
    | binary hcl hcr htag hop =>
      have hfirst := hleaves hl hne.1 hnl (ihl hcl hl hnl σ)
      have hsecond := hleaves hr hne.2 hnr (ihr hcr hr hnr (b.name :: σ))
      have htag' := htag.symm.trans (tagOf_eq hnl)
      rw [Except.ok.injEq, Tag.ofTypeName_builtin] at htag'
      have hlast := h.binary hop hb htag' σ
      have hresult : typeName r (.builtin (if o.isComparison then .bool else b)) = .ok n := hn
      rw [typeName_builtin, Except.ok.injEq] at hresult
      rw [hresult] at hlast
      exact (hfirst.append hsecond).append hlast
  | unary op operand t ih =>
    rw [hvalue he (he.ne_void hw (by simp)) hn]
    simp only [Flat.Expr.Typed] at he
    obtain ⟨ho, o, rfl, hsig⟩ := he
    obtain ⟨b, hb, hsignature⟩ := List.mem_map.mp hsig
    simp only [Intrinsics.unarySignature, Signature.mk.injEq, List.cons.injEq, and_true]
      at hsignature
    obtain ⟨rfl, htype⟩ := hsignature
    obtain rfl : b.name = n := by
      rw [Flat.Expr.type, typeName_builtin, Except.ok.injEq] at hn
      exact hn
    have hno : typeName r operand.type = .ok b.name := by rw [← htype]; simp
    have hvoid : operand.type ≠ .builtin .void := by
      rw [← htype]
      exact Intrinsics.result_ne_void hsig
    cases hcode with
    | unary hco htag hop =>
      have hfirst := hleaves ho hvoid hno (ih hco ho hno σ)
      have htag' := htag.symm.trans (tagOf_eq hno)
      rw [Except.ok.injEq, Tag.ofTypeName_builtin] at htag'
      exact hfirst.append (h.unary hop hb htag' σ)
  | call callable args t ih =>
    simp only [Flat.Expr.Typed, Flat.typedAll_iff] at he
    obtain ⟨hargs, hinvokes, -⟩ := he
    obtain ⟨group, hgroup⟩ := hinvokes
    have hparams := hw.callable_params hgroup
    have hall : ∀ t ∈ args.map Flat.Expr.type, ∃ n, typeName r t = .ok n := by
      intro t ht
      obtain ⟨e, hmem, rfl⟩ := List.mem_map.mp ht
      exact hname (hargs e hmem)
    obtain ⟨names, -, hnames⟩ := exists_mapM hall
    cases hcode with
    | call hca hcc =>
      have hfirst := exprs (f := f) hca (fun e hmem {_ _} hc hn σ => hleaves (hargs e hmem)
        (hparams e.type (List.mem_map_of_mem hmem)).2 hn (ih e hmem hc (hargs e hmem) hn σ))
        hnames σ
      exact hfirst.append (.of_exists (h.generated.call hcc ⟨group, hgroup⟩ hn hnames f σ))
  | convert kind operand t ih =>
    rw [hvalue he (he.ne_void hw (by simp)) hn]
    simp only [Flat.Expr.Typed] at he
    obtain ⟨ho, hov, ht, -, -, hclassify, -, hid⟩ := he
    obtain ⟨m, hm⟩ := hname ho
    cases hcode with
    | convert hco hconversion =>
      have hfirst := hleaves ho hov hm (ih hco ho hm σ)
      exact hfirst.append
        (.of_exists (h.conversion hconversion (ho.isType hw) ht hid hclassify hm hn σ))
  | index target index t iht ihi =>
    rw [hvalue he (he.ne_void hw (by simp)) hn]
    simp only [Flat.Expr.Typed] at he
    obtain ⟨ht, hi, hindex, hkind⟩ := he
    have hinteger : typeName r index.type = .ok Builtin.i32.name := by rw [hindex]; simp
    obtain ⟨m, hm⟩ := hname ht
    have hvoid : target.type ≠ .builtin .void :=
      Flat.ne_void_of_element (c := ⟨r, [], [], False⟩) (u := t) (hkind.imp And.left id)
    cases hcode with
    | index hct hci =>
      have hfirst := hleaves ht hvoid hm (iht hct ht hm σ)
      have hsecond := hleaves hi (by simp [hindex]) hinteger (ihi hci hi hinteger (m :: σ))
      have hlast : Brings M f (Builtin.i32.name :: m :: σ) [plain .loadElem 0] (n :: σ) := by
        have hop := Instruction.operation?_plain .loadElem 0
        obtain ⟨htext, rfl⟩ | helement := hkind
        · rw [htext, typeName_builtin, Except.ok.injEq] at hm
          rw [Flat.Expr.type, typeName_builtin, Except.ok.injEq] at hn
          subst hm hn
          exact .single (.loadChar hop)
        · have harray := typeName_array hw hnested helement hn
          rw [hm, Except.ok.injEq] at harray
          subst harray
          exact .single (.loadElem hop)
      exact (hfirst.append hsecond).append hlast
  | length target ih =>
    rw [hvalue he (by simp [Flat.Expr.type]) hn]
    simp only [Flat.Expr.Typed] at he
    obtain ⟨ht, hkind⟩ := he
    rw [Flat.Expr.type, typeName_builtin, Except.ok.injEq] at hn
    subst hn
    obtain ⟨m, hm⟩ := hname ht
    cases hcode with
    | length hct =>
      have hop := Instruction.operation?_plain .length 0
      obtain htext | ⟨u, helement⟩ := hkind
      · have hfirst := hleaves ht (by simp [htext]) hm (ih hct ht hm σ)
        rw [htext, typeName_builtin, Except.ok.injEq] at hm
        subst hm
        exact hfirst.append (.single (.textLength hop))
      · have hvoid : target.type ≠ .builtin .void :=
          Flat.ne_void_of_element (c := ⟨r, [], [], False⟩) (.inr helement)
        have hfirst := hleaves ht hvoid hm (ih hct ht hm σ)
        obtain ⟨u', -, harray⟩ := typeName_element hw hnested helement
        rw [hm, Except.ok.injEq] at harray
        subst harray
        exact hfirst.append (.single (.arrayLength hop))
  | newArray element size t ih =>
    rw [hvalue he (he.ne_void hw (by simp)) hn]
    simp only [Flat.Expr.Typed] at he
    obtain ⟨hs, hsize, helement⟩ := he
    have hinteger : typeName r size.type = .ok Builtin.i32.name := by rw [hsize]; simp
    cases hcode with
    | @newArray _ _ _ lines m i hcs hm hi =>
      have hm' : typeName r element = .ok m := hm
      have harray := typeName_array hw hnested helement hm'
      have heq : typeName r t = .ok n := hn
      rw [harray, Except.ok.injEq] at heq
      subst heq
      obtain ⟨hut, -, huv⟩ := hw.isElement helement
      have hfirst := hleaves hs (by simp [hsize]) hinteger (ih hcs hs hinteger σ)
      refine hfirst.append (.single (.newArray (Instruction.is_plain _ ?_) hi ?_))
      · exact lt_of_getElem? hi h.generated.small.types
      · exact isValueType_of_typeName hw hnested hut huv hm'
  | invalid => exact he.elim

/-- A statement leaves no operands. -/
theorem stmt {s : Flat.Stmt} {lines : List CodeLine}
    (hcode : StmtCode (contextOf r p) (· ∈ Flat.symbolsOf g.body) ⟨M, locals⟩ s lines)
    (hs : s.Typed ⟨r, p.globals, g.params, False⟩ g.result) : Brings M f [] lines [] := by
  have hw := h.generated.wellFormed
  have hnested := h.generated.identified.nested
  have hname : ∀ {e : Flat.Expr}, e.Typed ⟨r, p.globals, g.params, False⟩ →
      ∃ n, typeName r e.type = .ok n := fun he =>
    exists_typeName hw (he.isType hw) (he.ne_error hw id)
  cases hcode with
  | declare => exact .nil
  | eval hvoid hce =>
    obtain ⟨n, hn⟩ := hname hs
    have hvalue := isValueType_of_typeName hw hnested (hs.isType hw) hvoid hn
    have hfirst := h.expr hce hs hn []
    rw [leaving_of_isValueType hvalue] at hfirst
    exact hfirst.append (.single (.pop (Instruction.operation?_plain _ 0)))
  | evalVoid hvoid hce =>
    have hn : ∀ {t : TypeId}, t = .builtin .void → typeName r t = .ok "void" := by
      rintro t rfl
      exact typeName_builtin .void
    exact h.expr hce hs (hn hvoid) []
  | returnVoid =>
    have hresult := h.result
    rw [show g.result = .builtin .void from hs, typeName_builtin, Except.ok.injEq] at hresult
    exact ⟨_, .retVoid (Instruction.operation?_plain _ 0) hresult.symm .nil⟩
  | @returnValue e lines hce =>
    obtain ⟨he, htype, hvoid⟩ := hs
    have hn : typeName r e.type = .ok f.result := by rw [htype]; exact h.result
    have hvalue := isValueType_of_typeName hw hnested (he.isType hw) (by rw [htype]; exact hvoid) hn
    have hfirst := h.expr hce he hn []
    rw [leaving_of_isValueType hvalue] at hfirst
    exact hfirst.append ⟨_, .ret (Instruction.operation?_plain _ 0) hvalue.ne_void .nil⟩
  | jump => exact ⟨_, .jump .nil⟩
  | @jumpIf e l lines hce =>
    have hn : typeName r e.type = .ok Builtin.bool.name := by rw [hs.2]; simp
    have hfirst := h.expr hce hs.1 hn []
    exact hfirst.append ⟨_, .jumpTrue .nil⟩
  | label => exact ⟨_, .label .nil⟩

end Holds
end TypedScript
