import TypedScript.Proofs.Bytecode.Codes
import TypedScript.Proofs.Flat.Program

/-!
# Modules of flat programs

The labels of a routine's code become numbers of instructions, the code becomes the body of a method,
and the methods of all routines refer to the same tables. For a well-typed program this always
succeeds; an invalid statement is what stops it.
-/

namespace TypedScript

namespace CodeLine

def label? : CodeLine → Option Flat.Label
  | .label l => some l
  | _ => none

def target? : CodeLine → Option Flat.Label
  | .branch _ l => some l
  | _ => none

def isInstruction : CodeLine → Bool
  | .instruction _ => true
  | _ => false

end CodeLine

namespace Emission

def labelsIn (lines : List CodeLine) : List Flat.Label := lines.filterMap CodeLine.label?

def targetsIn (lines : List CodeLine) : List Flat.Label := lines.filterMap CodeLine.target?

@[simp] theorem labelsIn_nil : labelsIn [] = [] := rfl

@[simp] theorem targetsIn_nil : targetsIn [] = [] := rfl

@[simp] theorem labelsIn_append (a b : List CodeLine) :
    labelsIn (a ++ b) = labelsIn a ++ labelsIn b :=
  List.filterMap_append

@[simp] theorem targetsIn_append (a b : List CodeLine) :
    targetsIn (a ++ b) = targetsIn a ++ targetsIn b :=
  List.filterMap_append

@[simp] theorem labelsIn_label (l : Flat.Label) (lines : List CodeLine) :
    labelsIn (.label l :: lines) = l :: labelsIn lines := rfl

@[simp] theorem labelsIn_instruction (i : Instruction) (lines : List CodeLine) :
    labelsIn (.instruction i :: lines) = labelsIn lines := rfl

@[simp] theorem labelsIn_branch (op : Operation) (l : Flat.Label) (lines : List CodeLine) :
    labelsIn (.branch op l :: lines) = labelsIn lines := rfl

@[simp] theorem targetsIn_label (l : Flat.Label) (lines : List CodeLine) :
    targetsIn (.label l :: lines) = targetsIn lines := rfl

@[simp] theorem targetsIn_instruction (i : Instruction) (lines : List CodeLine) :
    targetsIn (.instruction i :: lines) = targetsIn lines := rfl

@[simp] theorem targetsIn_branch (op : Operation) (l : Flat.Label) (lines : List CodeLine) :
    targetsIn (.branch op l :: lines) = l :: targetsIn lines := rfl

def positions (n : Nat) : List CodeLine → List (Flat.Label × Nat)
  | [] => []
  | .label l :: rest => (l, n) :: positions n rest
  | .instruction _ :: rest | .branch _ _ :: rest => positions (n + 1) rest

def position (labels : List (Flat.Label × Nat)) (l : Flat.Label) : Nat :=
  ((labels.find? fun p => p.1 = l).map Prod.snd).getD 0

/-- The instruction of a line whose labels are known; a label itself is none. -/
def instruction? (labels : List (Flat.Label × Nat)) : CodeLine → Option Instruction
  | .label _ => none
  | .instruction i => some i
  | .branch op l => some (.plain op (position labels l))

def instructions (lines : List CodeLine) : List Instruction :=
  lines.filterMap (instruction? (positions 0 lines))

theorem labels_positions (n : Nat) (lines : List CodeLine) :
    (positions n lines).map Prod.fst = labelsIn lines := by
  induction lines generalizing n with
  | nil => rfl
  | cons line rest ih =>
    cases line with
    | label l => simp [positions, ih]
    | instruction i => simp [positions, ih]
    | branch op l => simp [positions, ih]

theorem labelsFrom_eq {routine : String} {n : Nat} {found : List (Flat.Label × Nat)}
    {lines : List CodeLine} (h : (found.map Prod.fst ++ labelsIn lines).Nodup) :
    labelsFrom routine n found lines = .ok (found ++ positions n lines) := by
  induction lines generalizing n found with
  | nil => simp [labelsFrom, positions]
  | cons line rest ih =>
    cases line with
    | label l =>
      have hnew : (found.any fun p => p.1 = l) = false := by
        rw [List.any_eq_false]
        intro p hp heq
        have hmem : p.1 ∈ found.map Prod.fst := List.mem_map_of_mem hp
        rw [List.nodup_append] at h
        exact h.2.2 p.1 hmem p.1 (by simp [of_decide_eq_true heq]) rfl
      have hnext : labelsFrom routine n (found ++ [(l, n)]) rest =
          .ok (found ++ [(l, n)] ++ positions n rest) :=
        ih (by simpa using h)
      simp [labelsFrom, hnew, positions, hnext]
    | instruction i => exact ih (by simpa using h)
    | branch op l => exact ih (by simpa using h)

theorem exists_find?_of_mem {labels : List (Flat.Label × Nat)} {l : Flat.Label}
    (h : l ∈ labels.map Prod.fst) : ∃ p, (labels.find? fun p => p.1 = l) = some p := by
  obtain ⟨p, hp, rfl⟩ := List.mem_map.mp h
  rw [← Option.isSome_iff_exists, List.find?_isSome]
  exact ⟨p, hp, by simp⟩

theorem resolved_eq {routine : String} {labels : List (Flat.Label × Nat)} {lines : List CodeLine}
    (h : ∀ l ∈ targetsIn lines, l ∈ labels.map Prod.fst) :
    resolved routine labels lines = .ok (lines.filterMap (instruction? labels)) := by
  induction lines with
  | nil => rfl
  | cons line rest ih =>
    cases line with
    | label l => exact ih h
    | instruction i =>
      simp [resolved, ih h, instruction?, Bind.bind, Except.bind, Pure.pure, Except.pure]
    | branch op l =>
      rw [targetsIn_branch, List.forall_mem_cons] at h
      obtain ⟨p, hp⟩ := exists_find?_of_mem h.1
      simp [resolved, ih h.2, hp, instruction?, position, Bind.bind, Except.bind, Pure.pure,
        Except.pure]

/-- Lines that define their labels once and branch only to these can be assembled. -/
theorem assemble_eq {routine : String} {lines : List CodeLine} (hnodup : (labelsIn lines).Nodup)
    (hdefined : ∀ l ∈ targetsIn lines, l ∈ labelsIn lines) :
    assemble routine lines = .ok (instructions lines) := by
  have hlabels : labelsFrom routine 0 [] lines = .ok (positions 0 lines) :=
    labelsFrom_eq (by simpa using hnodup)
  rw [← labels_positions 0] at hdefined
  simp only [assemble, hlabels]
  exact resolved_eq hdefined

/-! The labels of the code are those of the statements. -/

section

variable {x : EmissionContext} {S : Symbol → Prop} {t : Emitting}

theorem CodesAll.instructions {args : List Flat.Expr}
    (h : ∀ e ∈ args, ∀ {lines}, Codes x S t e lines → lines.all CodeLine.isInstruction)
    {lines : List CodeLine} (hc : CodesAll x S t args lines) :
    lines.all CodeLine.isInstruction := by
  induction args generalizing lines with
  | nil =>
    cases hc
    rfl
  | cons e rest ih =>
    cases hc with
    | cons he hrest =>
      rw [List.forall_mem_cons] at h
      rw [List.all_append, h.1 he, ih h.2 hrest]
      rfl

/-- The code of an expression has no labels and no branches. -/
theorem Codes.instructions {e : Flat.Expr} {lines : List CodeLine} (h : Codes x S t e lines) :
    lines.all CodeLine.isInstruction := by
  induction e using Flat.Expr.induction generalizing lines with
  | literal v type =>
    cases h
    rfl
  | symbol s =>
    cases h with
    | symbol hload => cases hload <;> rfl
  | assign target value ih =>
    cases h with
    | assign hv hstore =>
      rw [List.all_append, ih hv]
      cases hstore <;> rfl
  | assignElement array index type value iha ihi ihv =>
    cases h with
    | assignElement ha hi hv =>
      simp only [List.all_append, iha ha, ihi hi, ihv hv]
      rfl
  | binary op operand left right type ihl ihr =>
    cases h with
    | binary hl hr _ hop =>
      simp only [List.all_append, ihl hl, ihr hr]
      cases hop with
      | plain => rfl
      | negated _ hneg =>
        cases hneg
        rfl
  | unary op operand type ih =>
    cases h with
    | unary hv _ hop =>
      rw [List.all_append, ih hv]
      cases hop with
      | negate => rfl
      | plus => rfl
      | not hneg =>
        cases hneg
        rfl
      | complement => rfl
  | call callable args type ih =>
    cases h with
    | call hargs hcall =>
      rw [List.all_append, hargs.instructions fun e he => ih e he]
      cases hcall <;> rfl
  | convert kind operand type ih =>
    cases h with
    | convert hv hconv =>
      rw [List.all_append, ih hv]
      cases hconv <;> rfl
  | index target index type iht ihi =>
    cases h with
    | index ht hi =>
      simp only [List.all_append, iht ht, ihi hi]
      rfl
  | length target ih =>
    cases h with
    | length hv =>
      rw [List.all_append, ih hv]
      rfl
  | newArray element size type ih =>
    cases h with
    | newArray hv =>
      rw [List.all_append, ih hv]
      rfl
  | invalid => cases h

theorem labels_of_instructions {lines : List CodeLine} (h : lines.all CodeLine.isInstruction) :
    labelsIn lines = [] ∧ targetsIn lines = [] := by
  induction lines with
  | nil => exact ⟨rfl, rfl⟩
  | cons line rest ih =>
    rw [List.all_cons, Bool.and_eq_true] at h
    cases line with
    | instruction i => exact ih h.2
    | branch op l => cases h.1
    | label l => cases h.1

theorem BodyCode.labels {body : List Flat.Stmt} {lines : List CodeLine}
    (h : BodyCode x S t body lines) :
    labelsIn lines = Flat.labelsOf body ∧ targetsIn lines = Flat.targetsOf body := by
  induction h with
  | nil => exact ⟨rfl, rfl⟩
  | cons hstmt _ ih =>
    rw [labelsIn_append, targetsIn_append, ih.1, ih.2]
    cases hstmt with
    | eval _ he | returnValue he | jumpIf he | evalVoid _ he =>
      obtain ⟨hl, ht⟩ := labels_of_instructions he.instructions
      simp [hl, ht, plain]
    | declare | returnVoid | jump | label => exact ⟨rfl, rfl⟩

end

def TablesGrow (M N : Module) : Prop := ∀ locals, Grows ⟨M, locals⟩ ⟨N, locals⟩

theorem TablesGrow.refl (M : Module) : TablesGrow M M := fun _ => Grows.refl _

theorem TablesGrow.trans {M N K : Module} (h : TablesGrow M N) (k : TablesGrow N K) :
    TablesGrow M K :=
  fun locals => (h locals).trans (k locals)

theorem Grows.tables {s t : Emitting} (h : Grows s t) : TablesGrow s.module t.module :=
  fun _ => ⟨h.constants, h.types, h.natives, Keeps.refl _⟩

theorem run_bind {α β : Type} {m : Emission α} {f : α → Emission β} {st st' : Emitting} {a : α}
    (h : m st = .ok (a, st')) : (m >>= f) st = f a st' := by
  change (m st >>= fun p => f p.1 p.2) = _
  rw [h]
  rfl

theorem run_bind_error {α β : Type} {m : Emission α} {f : α → Emission β} {st : Emitting}
    {d : Defect} (h : m st = .error d) : (m >>= f) st = .error d := by
  change (m st >>= fun p => f p.1 p.2) = _
  rw [h]
  rfl

theorem run_lift {α : Type} {m : Except Defect α} {st : Emitting} {a : α} (h : m = .ok a) :
    (liftM m : Emission α) st = .ok (a, st) := by
  subst h
  rfl

def filled (locals : Array (SymbolId × Slot)) (lines : List CodeLine) (d : Method) : Method :=
  { d with locals := locals.map Prod.snd, code := (instructions lines).toArray }

/-- A method executes a routine: its code refers to the tables of the module and to slots of its own,
which belong to the variables of the routine. -/
def Implements (x : EmissionContext) (M : Module) (f : Flat.Routine) (m : Method) : Prop :=
  ∃ locals lines d, Slots x.registry (· ∈ Flat.symbolsOf f.body) locals ∧
    BodyCode x (· ∈ Flat.symbolsOf f.body) ⟨M, locals⟩ f.body lines ∧
    methodOf x.registry f = .ok d ∧ m = filled locals lines d

def SameFrame (M N : Module) : Prop :=
  N = { M with
    constants := N.constants, types := N.types, natives := N.natives, methods := N.methods }

theorem SameFrame.trans {M N K : Module} (h : SameFrame M N) (k : SameFrame N K) :
    SameFrame M K := by
  rw [SameFrame, k, h]

theorem slots_empty (r : Registry) (S : Symbol → Prop) : Slots r S #[] :=
  ⟨by simp, by simp⟩

section

variable {x : EmissionContext} {c : Typing} (hx : Knows x c)

include hx

/-- Emitting a routine fills its method. -/
theorem routine_eq (i : Nat) {f : Flat.Routine} (hbody : Flat.typedStmts c f.result f.body)
    (hlabels : Flat.Resolvable f.body) {st : Emitting}
    (hnatives : ∀ key ∈ st.module.natives, IsForeign x key) :
    ∃ st' locals lines, routine x i f st = .ok ((), st') ∧ TablesGrow st.module st'.module ∧
      SameFrame st.module st'.module ∧ (∀ key ∈ st'.module.natives, IsForeign x key) ∧
      st'.module.methods = st.module.methods.modify i (Option.map (filled locals lines)) ∧
      Slots x.registry (· ∈ Flat.symbolsOf f.body) locals ∧
      ∀ M, TablesGrow st'.module M →
        BodyCode x (· ∈ Flat.symbolsOf f.body) ⟨M, locals⟩ f.body lines := by
  have hemits : Emits x (· ∈ Flat.symbolsOf f.body) ⟨st.module, #[]⟩
      (stmts x f.name f.body) fun lines t =>
        BodyCode x (· ∈ Flat.symbolsOf f.body) t f.body lines :=
    Emits.stmts hx hbody fun _ hs => hs
  obtain ⟨lines, st₁, hrun, hgrows, hshape, hrefers, hcode⟩ :=
    hemits ⟨slots_empty x.registry _, hnatives⟩
  obtain ⟨hl, ht⟩ := (hcode st₁ (Grows.refl st₁)).labels
  have hassemble : assemble f.name lines = .ok (instructions lines) := by
    refine assemble_eq ?_ ?_
    · rw [hl]
      exact hlabels.nodup
    · rw [hl, ht]
      exact hlabels.defined
  refine ⟨{ st₁ with module := { st₁.module with
      methods := st₁.module.methods.modify i (Option.map (filled st₁.locals lines)) } },
    st₁.locals, lines, ?_, ?_, ?_, hrefers.natives, ?_, hrefers.slots, fun M hM => hcode _ ?_⟩
  · exact (run_bind rfl).trans ((run_bind hrun).trans ((run_bind (run_lift hassemble)).trans rfl))
  · exact fun _ => ⟨hgrows.constants, hgrows.types, hgrows.natives, Keeps.refl _⟩
  · rw [SameFrame, hshape]
  · rw [hshape]
  · obtain ⟨hconstants, htypes, hnatives, -⟩ := hM st₁.locals
    exact ⟨hconstants, htypes, hnatives, Keeps.refl _⟩

end

theorem modify_append_cons {α : Type} (before rest : List α) (a : α) (f : α → α) :
    (before ++ a :: rest).modify before.length f = before ++ f a :: rest := by
  induction before with
  | nil => rfl
  | cons b before ih => simp [ih]

section

variable {x : EmissionContext} {globals : List Symbol}
  (hx : ∀ params, Knows x ⟨x.registry, globals, params, False⟩)

include hx

/-- Emitting routines fills their methods. -/
theorem routinesFrom_eq {fs : List Flat.Routine} (hfs : ∀ f ∈ fs, f.Typed x.registry globals)
    {ds : List Method} (hds : List.Forall₂ (fun f d => methodOf x.registry f = .ok d) fs ds)
    {st : Emitting} {before : List (Option Method)}
    (hmethods : st.module.methods = (before ++ ds.map some).toArray)
    (hnatives : ∀ key ∈ st.module.natives, IsForeign x key) :
    ∃ st' ms, routinesFrom x before.length fs st = .ok ((), st') ∧
      TablesGrow st.module st'.module ∧ SameFrame st.module st'.module ∧
      (∀ key ∈ st'.module.natives, IsForeign x key) ∧
      st'.module.methods = (before ++ ms.map some).toArray ∧
      List.Forall₂ (fun f m => ∀ M, TablesGrow st'.module M → Implements x M f m) fs ms := by
  induction hds generalizing st before with
  | nil => exact ⟨st, [], rfl, TablesGrow.refl _, rfl, hnatives, hmethods, .nil⟩
  | @cons f d fs ds hd _ ih =>
    rw [List.forall_mem_cons] at hfs
    obtain ⟨st₁, locals, lines, hrun, hgrows, hframe, hnatives₁, hset, hslots, hcode⟩ :=
      routine_eq (hx f.params) before.length hfs.1.body hfs.1.labels hnatives
    rw [hmethods, List.map_cons, List.modify_toArray, modify_append_cons] at hset
    obtain ⟨st₂, ms, hrun', hgrows', hframe', hnatives₂, hset', hms⟩ :=
      @ih hfs.2 st₁ (before ++ [some (filled locals lines d)]) (by simpa using hset) hnatives₁
    refine ⟨st₂, filled locals lines d :: ms, ?_, hgrows.trans hgrows', hframe.trans hframe',
      hnatives₂, by simpa using hset', .cons (fun M hM => ?_) hms⟩
    · rw [List.length_append] at hrun'
      exact (run_bind hrun).trans hrun'
    · exact ⟨locals, lines, d, hslots, hcode M (hgrows'.trans hM), hd, rfl⟩

/-- The first routine with an invalid statement stops emission. -/
theorem routinesFrom_invalid {named : Flat.Routine → Bool} {fs : List Flat.Routine}
    (hfs : ∀ f ∈ fs, f.TypedUnless x.registry globals (named f)) (hnamed : fs.any named)
    (i : Nat) {st : Emitting} (hnatives : ∀ key ∈ st.module.natives, IsForeign x key) :
    ∃ f ∈ fs, named f ∧ routinesFrom x i fs st = .error (.invalidExpression f.name) := by
  induction fs generalizing i st with
  | nil => cases hnamed
  | cons f rest ih =>
    rw [List.forall_mem_cons] at hfs
    obtain ⟨hf, hrest⟩ := hfs
    cases hname : named f with
    | true =>
      rw [hname] at hf
      have hstop : stmts x f.name f.body ⟨st.module, #[]⟩ = .error (.invalidExpression f.name) :=
        stmts_invalid (hx f.params) hf.body.typed hf.body.named
          ⟨slots_empty x.registry _, hnatives⟩
      have hroutine : routine x i f st = .error (.invalidExpression f.name) :=
        (run_bind rfl).trans (run_bind_error hstop)
      exact ⟨f, List.mem_cons_self, hname, run_bind_error hroutine⟩
    | false =>
      rw [hname] at hf
      obtain ⟨st₁, -, -, hrun, -, -, hnatives₁, -⟩ :=
        routine_eq (hx f.params) i hf.typed.body hf.labels hnatives
      obtain ⟨g, hg, hname', hstop⟩ := ih hrest (by simpa [hname] using hnamed) (i + 1) hnatives₁
      exact ⟨g, List.mem_cons_of_mem f hg, hname', (run_bind hrun).trans hstop⟩

end

/-- The context in which the code of a program is emitted. -/
def contextOf (r : Registry) (p : Flat.Program) : EmissionContext :=
  { registry := r
    statics := (p.globals.map Symbol.id).zipIdx
    methods := (p.routines.map Flat.Routine.callable).zipIdx.filter fun m => m.1 ≠ .absent }

def declared (name : String) (p : Flat.Program) (fields : List Field) (methods : List Method) :
    Module :=
  { Module.empty name with
    fields := fields.toArray
    methods := (methods.map some).toArray
    initializer := 0
    entry := (p.entry?.map Int.ofNat).getD (-1) }

theorem exists_mapM {α β : Type} {f : α → Except Defect β} {as : List α}
    (h : ∀ a ∈ as, ∃ b, f a = .ok b) :
    ∃ bs, as.mapM f = .ok bs ∧ List.Forall₂ (fun a b => f a = .ok b) as bs := by
  induction as with
  | nil => exact ⟨[], rfl, .nil⟩
  | cons a rest ih =>
    rw [List.forall_mem_cons] at h
    obtain ⟨b, hb⟩ := h.1
    obtain ⟨bs, hbs, hrest⟩ := ih h.2
    refine ⟨b :: bs, ?_, .cons hb hrest⟩
    rw [List.mapM_cons, hb, hbs]
    rfl

section

variable {r : Registry} (hr : r.WellFormed)

include hr

theorem knows_contextOf (p : Flat.Program) (params : List Symbol) :
    Knows (contextOf r p) ⟨r, p.globals, params, False⟩ := by
  refine ⟨rfl, hr, id, fun s hs => ?_⟩
  have hmem : s.id ∈ (p.globals.map Symbol.id).zipIdx.map Prod.fst := by
    rw [List.zipIdx_map_fst]
    exact List.mem_map_of_mem hs
  obtain ⟨e, he, heq⟩ := List.mem_map.mp hmem
  have hfind : ((contextOf r p).statics.find? fun e => e.1 = s.id).isSome := by
    rw [List.find?_isSome]
    exact ⟨e, he, by simpa using heq⟩
  obtain ⟨e', he'⟩ := Option.isSome_iff_exists.mp hfind
  exact ⟨e'.2, by simp [staticOf, he']⟩

theorem exists_declaredType {c : Typing} (hc : c.registry = r) (hl : ¬c.lenient) {s : Symbol}
    (h : c.Declares s) : ∃ n, typeName r s.type = .ok n := by
  subst hc
  exact exists_typeName hr h.isType fun he => hl (h.error he)

theorem exists_methodOf {globals : List Symbol} {named : Bool} {f : Flat.Routine}
    (h : f.TypedUnless r globals named) : ∃ d, methodOf r f = .ok d := by
  obtain ⟨ns, hns, -⟩ := exists_mapM (f := fun p : Symbol => typeName r p.type) fun p hp =>
    exists_declaredType hr rfl id (h.params p hp)
  obtain ⟨n, hn⟩ := exists_typeName hr h.result.1 h.result.2
  refine ⟨⟨f.name, ns.toArray, n, #[], #[]⟩, ?_⟩
  simp only [methodOf, hns, hn]
  rfl

theorem exists_fieldOf {globals : List Symbol} {s : Symbol}
    (h : (⟨r, globals, [], False⟩ : Typing).Declares s) : ∃ d, fieldOf r s = .ok d := by
  obtain ⟨n, hn⟩ := exists_declaredType hr rfl id h
  refine ⟨⟨s.name, n⟩, ?_⟩
  simp only [fieldOf, hn]
  rfl

end

/-- A module is the code of a flat program: it has a field for each global variable and a method for
each routine, in their order. -/
structure Emitted (r : Registry) (p : Flat.Program) (M : Module) : Prop where
  fields : List.Forall₂ (fun s d => fieldOf r s = .ok d) p.globals M.fields.toList
  methods : ∃ ms, M.methods = (ms.map some).toArray ∧
    List.Forall₂ (Implements (contextOf r p) M) p.routines ms
  natives : ∀ key ∈ M.natives, IsForeign (contextOf r p) key
  initializer : M.initializer = 0
  entry : M.entry = (p.entry?.map Int.ofNat).getD (-1)

/-- What emission is, once fields and methods are declared. -/
theorem ofFlat_eq {name : String} {r : Registry} {p : Flat.Program} {fields : List Field}
    {methods : List Method} (hf : p.globals.mapM (fieldOf r) = .ok fields)
    (hm : p.routines.mapM (methodOf r) = .ok methods) :
    Module.ofFlat name r p = (fun s => s.2.module) <$>
      routinesFrom (contextOf r p) 0 p.routines ⟨declared name p fields methods, #[]⟩ := by
  simp only [Module.ofFlat, hf, hm]
  rfl

/-- Emission succeeds on programs that make sense. -/
theorem exists_module (name : String) {r : Registry} (hr : r.WellFormed) {p : Flat.Program}
    (hp : p.Typed r) : ∃ M, Module.ofFlat name r p = .ok M ∧ Emitted r p M := by
  obtain ⟨fields, hf, hfields⟩ := exists_mapM fun s hs => exists_fieldOf hr (hp.globals s hs).2
  obtain ⟨methods, hm, hmethods⟩ := exists_mapM fun f hf =>
    exists_methodOf hr ((hp.routines f hf).typedUnless)
  have hstart : (⟨declared name p fields methods, #[]⟩ : Emitting).module.methods =
      ([] ++ methods.map some).toArray := rfl
  obtain ⟨st, ms, hrun, -, hframe, hnatives, hset, hcode⟩ :=
    routinesFrom_eq (x := contextOf r p) (knows_contextOf hr p) hp.routines hmethods hstart
      (by simp [declared, Module.empty])
  refine ⟨st.module, ?_, ?_, ⟨ms, by simpa using hset, ?_⟩, hnatives, ?_, ?_⟩
  · rw [ofFlat_eq hf hm]
    exact congrArg _ hrun
  · rw [hframe]
    exact hfields
  · exact hcode.imp fun f m h => h st.module (TablesGrow.refl _)
  · rw [hframe]
    rfl
  · rw [hframe]
    rfl

/-- A program with an invalid statement has no module. -/
theorem ofFlat_invalid (name : String) {r : Registry} (hr : r.WellFormed) {p : Flat.Program}
    (hglobals : ∀ s ∈ p.globals, (⟨r, p.globals, [], False⟩ : Typing).Declares s)
    {named : Flat.Routine → Bool}
    (hroutines : ∀ f ∈ p.routines, f.TypedUnless r p.globals (named f))
    (hnamed : p.routines.any named) :
    ∃ f ∈ p.routines, named f ∧ Module.ofFlat name r p = .error (.invalidExpression f.name) := by
  obtain ⟨fields, hf, -⟩ := exists_mapM fun s hs => exists_fieldOf hr (hglobals s hs)
  obtain ⟨methods, hm, -⟩ := exists_mapM fun f hf => exists_methodOf hr (hroutines f hf)
  have hempty : ∀ key ∈ (⟨declared name p fields methods, #[]⟩ : Emitting).module.natives,
      IsForeign (contextOf r p) key := by
    simp [declared, Module.empty]
  obtain ⟨f, hmem, hname, hstop⟩ := routinesFrom_invalid (x := contextOf r p)
    (knows_contextOf hr p) hroutines hnamed 0 hempty
  refine ⟨f, hmem, hname, ?_⟩
  rw [ofFlat_eq hf hm]
  exact congrArg _ hstop

end Emission
end TypedScript
