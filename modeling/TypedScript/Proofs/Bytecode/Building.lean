import Mathlib.Data.List.Nodup
import TypedScript.Proofs.Bytecode.Codes

/-!
# Building modules by requests

However the requests to a module follow each other, an answer goes on standing for the entry that was
asked for; only a branch may get another target. Tables whose equal entries share a place never hold an
entry twice, so equal answers mean equal requests there, and in the other tables every answer is new. A
constant gives back the value that it was made from. It makes no difference whether the places of entries
are searched for or kept in maps beside the tables.
-/

namespace TypedScript

open Emission (Keeps keeps_push keeps_intern getElem?_intern)

/-- A request to a module that is being built. A method is known by the index of its declaration. -/
inductive BuildRequest
  | field (name type : String)
  | method (name : String) (params : Array String) (result : String)
  | constant (c : Constant)
  | type (name : String)
  | native (key : String)
  | initializer (method : Int)
  | entry (method : Int)
  | slot (method : Nat) (name type : String)
  | instruction (method : Nat) (i : Instruction)
  | patch (method : Nat) (index target : Int)
  | length (method : Nat)
  deriving DecidableEq, Repr

def answered {α : Type} (p : Nat × α) : Option Nat × α := (some p.1, p.2)

/-- Grants a request. The answer is the index of an entry, the number of instructions, or nothing. -/
def Module.grant (m : Module) : BuildRequest → Except BuildFault (Option Nat × Module)
  | .field name type => .ok (answered (m.declareField name type))
  | .method name params result => .ok (answered (m.declareMethod name params result))
  | .constant c => .ok (answered (m.internConstant c))
  | .type name => .ok (answered (m.internType name))
  | .native key => .ok (answered (m.internNative key))
  | .initializer method => .ok (none, { m with initializer := method })
  | .entry method => .ok (none, { m with entry := method })
  | .slot method name type =>
    m.updateMethod method fun f => .ok (answered (f.declareLocal name type))
  | .instruction method i => m.updateMethod method fun f => .ok (answered (f.append i))
  | .patch method index target =>
    m.updateMethod method fun f => (f.patch index target).map (none, ·)
  | .length method => m.updateMethod method fun f => .ok (some f.code.size, f)

/-- Requests that are all granted, each with its answer, lead from one state to another. -/
inductive Grants {σ : Type} (grant : σ → BuildRequest → Except BuildFault (Option Nat × σ)) :
    σ → List (BuildRequest × Option Nat) → σ → Prop
  | nil (s : σ) : Grants grant s [] s
  | cons {s t u : σ} {r : BuildRequest} {a : Option Nat} {rest : List (BuildRequest × Option Nat)} :
    grant s r = .ok (a, t) → Grants grant t rest u → Grants grant s ((r, a) :: rest) u

/-- Requests lead from one module to another. -/
abbrev Module.Builds : Module → List (BuildRequest × Option Nat) → Module → Prop :=
  Grants Module.grant

theorem Grants.append_iff {σ : Type} {grant : σ → BuildRequest → Except BuildFault (Option Nat × σ)}
    {s u : σ} {log more : List (BuildRequest × Option Nat)} :
    Grants grant s (log ++ more) u ↔ ∃ t, Grants grant s log t ∧ Grants grant t more u := by
  constructor
  · intro h
    induction log generalizing s with
    | nil => exact ⟨s, .nil s, h⟩
    | cons x rest ih =>
      cases h with
      | cons hgrant hrest =>
        obtain ⟨t, hlog, hmore⟩ := ih hrest
        exact ⟨t, .cons hgrant hlog, hmore⟩
  · rintro ⟨t, hlog, hmore⟩
    induction hlog with
    | nil => exact hmore
    | cons hgrant _ ih => exact .cons hgrant (ih hmore)

/-! ## What requests ask for -/

/-- A table that answers refer to. -/
inductive BuildTable
  | fields | methods | constants | types | natives
  | slots (method : Nat) | code (method : Nat)
  deriving DecidableEq, Repr

def BuildTable.shared : BuildTable → Bool
  | constants | types | natives => true
  | _ => false

namespace BuildRequest

def table? : BuildRequest → Option BuildTable
  | field .. => some .fields
  | method .. => some .methods
  | constant _ => some .constants
  | type _ => some .types
  | native _ => some .natives
  | slot k .. => some (.slots k)
  | instruction k _ => some (.code k)
  | _ => none

end BuildRequest

def Instruction.revised (method index : Nat) (i : Instruction) : BuildRequest → Instruction
  | .patch k j target =>
    if k = method ∧ j = index then { i with operand := Int32.ofInt target } else i
  | _ => i

namespace BuildRequest

def revised (index : Nat) : BuildRequest → BuildRequest → BuildRequest
  | instruction k i, later => instruction k (i.revised k index later)
  | r, _ => r

def after (index : Nat) (r : BuildRequest) (later : List BuildRequest) : BuildRequest :=
  later.foldl (revised index) r

end BuildRequest

def Module.request? (m : Module) (i : Nat) : BuildTable → Option BuildRequest
  | .fields => m.fields[i]?.map fun f => .field f.name f.type
  | .methods => (m.method? i).map fun f => .method f.name f.params f.result
  | .constants => m.constants[i]?.map .constant
  | .types => m.types[i]?.map .type
  | .natives => m.natives[i]?.map .native
  | .slots k => (m.method? k).bind fun f => f.locals[i]?.map fun l => .slot k l.name l.type
  | .code k => (m.method? k).bind fun f => f.code[i]?.map (.instruction k)

namespace BuildRequest

variable {r : BuildRequest} {t : BuildTable} {i : Nat}

/-- Entries that share their places are constants, names of types, and natives. -/
theorem shared_cases (r : BuildRequest) : (∃ c, r = constant c) ∨ (∃ name, r = type name) ∨
    (∃ key, r = native key) ∨ ∀ t, r.table? = some t → t.shared = false := by
  cases r with
  | constant c => exact .inl ⟨c, rfl⟩
  | type name => exact .inr (.inl ⟨name, rfl⟩)
  | native key => exact .inr (.inr (.inl ⟨key, rfl⟩))
  | _ =>
    refine .inr (.inr (.inr fun t ht => ?_))
    cases ht <;> rfl

theorem revised_of_shared (h : r.table? = some t) (ht : t.shared = true) (later : BuildRequest) :
    r.revised i later = r := by
  cases r with
  | instruction k ins =>
    cases h
    cases ht
  | _ => rfl

theorem after_of_shared (h : r.table? = some t) (ht : t.shared = true) (later : List BuildRequest) :
    r.after i later = r := by
  induction later with
  | nil => rfl
  | cons s rest ih => rw [after, List.foldl_cons, revised_of_shared h ht, ← after, ih]

theorem operation?_revised (k : Nat) (ins : Instruction) (later : BuildRequest) :
    (ins.revised k i later).operation? = ins.operation? := by
  unfold Instruction.revised
  split
  · split <;> rfl
  · rfl

theorem exists_after_instruction (k : Nat) (ins : Instruction) (later : List BuildRequest) :
    ∃ j : Instruction, (instruction k ins).after i later = instruction k j ∧
      j.operation? = ins.operation? := by
  induction later generalizing ins with
  | nil => exact ⟨ins, rfl, rfl⟩
  | cons s rest ih =>
    obtain ⟨j, hj, hop⟩ := ih (ins.revised k i s)
    exact ⟨j, hj, hop.trans (operation?_revised k ins s)⟩

end BuildRequest

/-! ## What a request changes -/

namespace Module

variable {m n : Module} {s : BuildRequest} {a : Option Nat}

def withMethod (m : Module) (k : Nat) (f : Method) : Module :=
  { m with methods := m.methods.set! k (some f) }

theorem lt_of_method? {k : Nat} {f : Method} (h : m.method? k = some f) : k < m.methods.size := by
  by_contra hk
  simp [method?, Array.getElem?_eq_none (Nat.not_lt.mp hk)] at h

theorem method?_withMethod {k : Nat} {f : Method} (h : m.method? k = some f) (g : Method) (j : Nat) :
    (m.withMethod k g).method? j = if k = j then some g else m.method? j := by
  simp only [method?, withMethod, Array.set!_eq_setIfInBounds, Array.getElem?_setIfInBounds,
    lt_of_method? h, if_true]
  split <;> rfl

theorem updateMethod_eq_ok {α : Type} {k : Nat} {f : Method → Except BuildFault (α × Method)} {a : α}
    (h : m.updateMethod k f = .ok (a, n)) :
    ∃ g g', m.method? k = some g ∧ f g = .ok (a, g') ∧ n = m.withMethod k g' := by
  rw [updateMethod, if_neg (Int.not_lt.mpr (Int.natCast_nonneg k)), Int.toNat_natCast] at h
  cases hg : m.method? k with
  | none => simp [hg] at h
  | some g =>
    simp only [hg] at h
    cases hf : f g with
    | error e => simp [hf, bind, Except.bind] at h
    | ok p =>
      simp only [hf, bind, Except.bind, pure, Except.pure, Except.ok.injEq, Prod.mk.injEq] at h
      obtain ⟨rfl, rfl⟩ := h
      exact ⟨g, p.2, rfl, hf, rfl⟩

end Module

theorem Method.patch_eq_ok {f g : Method} {index target : Int} (h : f.patch index target = .ok g) :
    ∃ (j : Nat) (i : Instruction), index = j ∧ f.code[j]? = some i ∧
      i.operation?.any Operation.isJump ∧
      g = { f with code := f.code.set! j { i with operand := Int32.ofInt target } } := by
  unfold Method.patch at h
  split at h
  · cases h
  · next hindex =>
    split at h
    · cases h
    · next i hi =>
      split at h
      · next hjump =>
        cases h
        exact ⟨index.toNat, i, (Int.toNat_of_nonneg (Int.not_lt.mp hindex)).symm, hi, hjump, rfl⟩
      · cases h

/-- A branch gets a new target, and nothing else happens. -/
theorem Module.patch_eq_ok {m n : Module} {k : Nat} {index target : Int} {a : Option Nat}
    (h : m.grant (.patch k index target) = .ok (a, n)) :
    ∃ (f : Method) (j : Nat) (i : Instruction), m.method? k = some f ∧ index = j ∧
      f.code[j]? = some i ∧ i.operation?.any Operation.isJump ∧
      n = m.withMethod k
        { f with code := f.code.set! j { i with operand := Int32.ofInt target } } := by
  obtain ⟨f, g, hf, hg, rfl⟩ := updateMethod_eq_ok h
  cases hpatch : f.patch index target with
  | error e =>
    rw [hpatch] at hg
    cases hg
  | ok g' =>
    rw [hpatch] at hg
    cases hg
    obtain ⟨j, i, hj, hi, hjump, rfl⟩ := Method.patch_eq_ok hpatch
    exact ⟨f, j, i, hf, hj, hi, hjump, rfl⟩

/-- What a method keeps when a request is granted. -/
structure Method.Follows (s : BuildRequest) (k : Nat) (f g : Method) : Prop where
  name : g.name = f.name
  params : g.params = f.params
  result : g.result = f.result
  locals : Keeps f.locals g.locals
  code : ∀ (i : Nat) (ins : Instruction), f.code[i]? = some ins →
    g.code[i]? = some (ins.revised k i s)

theorem Method.Follows.refl {s : BuildRequest}
    (hs : ∀ (k i : Nat) (ins : Instruction), ins.revised k i s = ins) (k : Nat) (f : Method) :
    f.Follows s k f where
  name := rfl
  params := rfl
  result := rfl
  locals := Keeps.refl _
  code i ins hi := by rw [hs, hi]

/-- What a module keeps when a request is granted. -/
structure Module.Follows (s : BuildRequest) (m n : Module) : Prop where
  fields : Keeps m.fields n.fields
  constants : Keeps m.constants n.constants
  types : Keeps m.types n.types
  natives : Keeps m.natives n.natives
  methods : ∀ k f, m.method? k = some f → ∃ g, n.method? k = some g ∧ f.Follows s k g

namespace Module

variable {m n : Module} {s : BuildRequest} {a : Option Nat}

/-- A request to a method changes this method only. -/
theorem Follows.withMethod {k : Nat} {f g : Method} (hf : m.method? k = some f)
    (h : Method.Follows s k f g) (hother : ∀ j f, j ≠ k → Method.Follows s j f f) :
    m.Follows s (m.withMethod k g) where
  fields := Keeps.refl _
  constants := Keeps.refl _
  types := Keeps.refl _
  natives := Keeps.refl _
  methods j f' hj := by
    rw [method?_withMethod hf]
    by_cases hk : k = j
    · subst hk
      obtain rfl := Option.some.inj (hf.symm.trans hj)
      exact ⟨g, if_pos rfl, h⟩
    · exact ⟨f', by rw [if_neg hk, hj], hother j f' (Ne.symm hk)⟩

theorem grant_follows (h : m.grant s = .ok (a, n)) : m.Follows s n := by
  have hrefl : (∀ (k i : Nat) (ins : Instruction), ins.revised k i s = ins) → ∀ k f,
      m.method? k = some f → ∃ g, m.method? k = some g ∧ Method.Follows s k f g :=
    fun hs k f hf => ⟨f, hf, .refl hs k f⟩
  cases s with
  | field name type =>
    cases h
    exact ⟨keeps_push _ _, Keeps.refl _, Keeps.refl _, Keeps.refl _, hrefl fun _ _ _ => rfl⟩
  | method name params result =>
    cases h
    refine ⟨Keeps.refl _, Keeps.refl _, Keeps.refl _, Keeps.refl _,
      fun k f hf => ⟨f, ?_, .refl (fun _ _ _ => rfl) k f⟩⟩
    have hk := lt_of_method? hf
    simpa [method?, declareMethod, Array.getElem?_push_lt hk, Array.getElem?_eq_getElem hk] using hf
  | constant c =>
    cases h
    exact ⟨Keeps.refl _, keeps_intern _ _, Keeps.refl _, Keeps.refl _, hrefl fun _ _ _ => rfl⟩
  | type name =>
    cases h
    exact ⟨Keeps.refl _, Keeps.refl _, keeps_intern _ _, Keeps.refl _, hrefl fun _ _ _ => rfl⟩
  | native key =>
    cases h
    exact ⟨Keeps.refl _, Keeps.refl _, Keeps.refl _, keeps_intern _ _, hrefl fun _ _ _ => rfl⟩
  | initializer k =>
    cases h
    exact ⟨Keeps.refl _, Keeps.refl _, Keeps.refl _, Keeps.refl _, hrefl fun _ _ _ => rfl⟩
  | entry k =>
    cases h
    exact ⟨Keeps.refl _, Keeps.refl _, Keeps.refl _, Keeps.refl _, hrefl fun _ _ _ => rfl⟩
  | slot k name type =>
    obtain ⟨f, g, hf, hg, rfl⟩ := updateMethod_eq_ok h
    cases hg
    refine .withMethod hf ?_ fun j f _ => .refl (fun _ _ _ => rfl) j f
    exact { Method.Follows.refl (fun _ _ _ => rfl) k f with locals := keeps_push _ _ }
  | instruction k ins =>
    obtain ⟨f, g, hf, hg, rfl⟩ := updateMethod_eq_ok h
    cases hg
    refine .withMethod hf ?_ fun j f _ => .refl (fun _ _ _ => rfl) j f
    exact { Method.Follows.refl (s := .instruction k ins) (fun _ _ _ => rfl) k f with
      code := keeps_push _ _ }
  | patch k index target =>
    obtain ⟨f, j, i, hf, rfl, hi, -, rfl⟩ := patch_eq_ok h
    refine .withMethod hf ⟨rfl, rfl, rfl, Keeps.refl _, fun l ins hl => ?_⟩
      fun l f hne => ⟨rfl, rfl, rfl, Keeps.refl _, fun l' ins hl' => ?_⟩
    · have hlt : j < f.code.size := (Array.getElem?_eq_some_iff.mp hi).1
      rw [Array.set!_eq_setIfInBounds, Array.getElem?_setIfInBounds, Instruction.revised]
      by_cases hj : j = l
      · subst hj
        obtain rfl := Option.some.inj (hi.symm.trans hl)
        simp [hlt]
      · rw [if_neg hj, if_neg fun h => hj (Int.ofNat.inj h.2), hl]
    · simp [Instruction.revised, Ne.symm hne, hl']
  | length k =>
    obtain ⟨f, g, hf, hg, rfl⟩ := updateMethod_eq_ok h
    cases hg
    exact .withMethod hf (.refl (fun _ _ _ => rfl) k f) fun j f _ => .refl (fun _ _ _ => rfl) j f

/-- An entry stays in its place, and only a branch that gets a new target changes. -/
theorem Follows.request? (h : m.Follows s n) {i : Nat} {t : BuildTable} {r : BuildRequest}
    (hr : m.request? i t = some r) : n.request? i t = some (r.revised i s) := by
  cases t with
  | fields =>
    obtain ⟨f, hf, rfl⟩ := Option.map_eq_some_iff.mp hr
    simp [Module.request?, h.fields i f hf, BuildRequest.revised]
  | constants =>
    obtain ⟨c, hc, rfl⟩ := Option.map_eq_some_iff.mp hr
    simp [Module.request?, h.constants i c hc, BuildRequest.revised]
  | types =>
    obtain ⟨name, hname, rfl⟩ := Option.map_eq_some_iff.mp hr
    simp [Module.request?, h.types i name hname, BuildRequest.revised]
  | natives =>
    obtain ⟨key, hkey, rfl⟩ := Option.map_eq_some_iff.mp hr
    simp [Module.request?, h.natives i key hkey, BuildRequest.revised]
  | methods =>
    obtain ⟨f, hf, rfl⟩ := Option.map_eq_some_iff.mp hr
    obtain ⟨g, hg, hfollows⟩ := h.methods i f hf
    simp [Module.request?, hg, hfollows.name, hfollows.params, hfollows.result, BuildRequest.revised]
  | slots k =>
    obtain ⟨f, hf, hr⟩ := Option.bind_eq_some_iff.mp hr
    obtain ⟨l, hl, rfl⟩ := Option.map_eq_some_iff.mp hr
    obtain ⟨g, hg, hfollows⟩ := h.methods k f hf
    simp [Module.request?, hg, hfollows.locals i l hl, BuildRequest.revised]
  | code k =>
    obtain ⟨f, hf, hr⟩ := Option.bind_eq_some_iff.mp hr
    obtain ⟨ins, hins, rfl⟩ := Option.map_eq_some_iff.mp hr
    obtain ⟨g, hg, hfollows⟩ := h.methods k f hf
    simp [Module.request?, hg, hfollows.code i ins hins, BuildRequest.revised]

/-- The answer to a request is the place of what was asked for. Where entries share no places, there was
nothing in this place. -/
theorem request?_of_grant {t : BuildTable} (h : m.grant s = .ok (a, n)) (ht : s.table? = some t) :
    ∃ i, a = some i ∧ n.request? i t = some s ∧ (t.shared = false → m.request? i t = none) := by
  cases s with
  | field name type =>
    cases h
    cases ht
    exact ⟨_, rfl, by simp [Module.request?, declareField],
      fun _ => by simp [Module.request?, declareField]⟩
  | method name params result =>
    cases h
    cases ht
    exact ⟨_, rfl, by simp [Module.request?, declareMethod, method?],
      fun _ => by simp [Module.request?, declareMethod, method?]⟩
  | constant c =>
    cases h
    cases ht
    exact ⟨_, rfl, by simp [Module.request?, internConstant, getElem?_intern], fun h => by cases h⟩
  | type name =>
    cases h
    cases ht
    exact ⟨_, rfl, by simp [Module.request?, internType, getElem?_intern], fun h => by cases h⟩
  | native key =>
    cases h
    cases ht
    exact ⟨_, rfl, by simp [Module.request?, internNative, getElem?_intern], fun h => by cases h⟩
  | slot k name type =>
    obtain ⟨f, g, hf, hg, rfl⟩ := updateMethod_eq_ok h
    cases hg
    cases ht
    exact ⟨_, rfl, by simp [Module.request?, method?_withMethod hf, Method.declareLocal],
      fun _ => by simp [Module.request?, hf, Method.declareLocal]⟩
  | instruction k ins =>
    obtain ⟨f, g, hf, hg, rfl⟩ := updateMethod_eq_ok h
    cases hg
    cases ht
    exact ⟨_, rfl, by simp [Module.request?, method?_withMethod hf, Method.append],
      fun _ => by simp [Module.request?, hf, Method.append]⟩
  | _ => cases ht

/-- The tables whose equal entries share a place change only by requests for their entries. -/
theorem tables_of_grant (h : m.grant s = .ok (a, n))
    (hs : ∀ t, s.table? = some t → t.shared = false) :
    n.constants = m.constants ∧ n.types = m.types ∧ n.natives = m.natives := by
  have hmethod : ∀ {f : Method → Except BuildFault (Option Nat × Method)} {k : Nat},
      m.updateMethod k f = .ok (a, n) →
      n.constants = m.constants ∧ n.types = m.types ∧ n.natives = m.natives := by
    intro f k h
    obtain ⟨_, _, -, -, rfl⟩ := updateMethod_eq_ok h
    exact ⟨rfl, rfl, rfl⟩
  cases s with
  | constant c => cases hs _ rfl
  | type name => cases hs _ rfl
  | native key => cases hs _ rfl
  | slot k name type => exact hmethod h
  | instruction k i => exact hmethod h
  | patch k index target => exact hmethod h
  | length k => exact hmethod h
  | _ =>
    cases h
    exact ⟨rfl, rfl, rfl⟩

/-- No table whose equal entries share a place holds an entry twice. -/
structure Distinct (m : Module) : Prop where
  constants : m.constants.toList.Nodup
  types : m.types.toList.Nodup
  natives : m.natives.toList.Nodup

theorem nodup_intern {α : Type} [DecidableEq α] {table : Array α} (h : table.toList.Nodup) (a : α) :
    (intern table a).2.toList.Nodup := by
  unfold intern
  split
  · exact h
  · next hfind =>
    have hnew : a ∉ table.toList := by
      intro ha
      simpa using Array.findIdx?_eq_none_iff.mp hfind a (Array.mem_toList_iff.mp ha)
    rw [Array.toList_push]
    exact List.nodup_append.mpr ⟨h, List.nodup_singleton a, by grind⟩

theorem Distinct.empty (name : String) : (Module.empty name).Distinct :=
  ⟨List.nodup_nil, List.nodup_nil, List.nodup_nil⟩

theorem Distinct.grant (hm : m.Distinct) (h : m.grant s = .ok (a, n)) : n.Distinct := by
  obtain ⟨c, rfl⟩ | ⟨name, rfl⟩ | ⟨key, rfl⟩ | hs := s.shared_cases
  · cases h
    exact ⟨nodup_intern hm.constants c, hm.types, hm.natives⟩
  · cases h
    exact ⟨hm.constants, nodup_intern hm.types name, hm.natives⟩
  · cases h
    exact ⟨hm.constants, hm.types, nodup_intern hm.natives key⟩
  · obtain ⟨hconstants, htypes, hnatives⟩ := tables_of_grant h hs
    exact ⟨hconstants ▸ hm.constants, htypes ▸ hm.types, hnatives ▸ hm.natives⟩

theorem place_unique {α β : Type} {table : Array α} (h : table.toList.Nodup) {f : α → β}
    (hf : Function.Injective f) {i j : Nat} {b : β} (hi : table[i]?.map f = some b)
    (hj : table[j]?.map f = some b) : i = j := by
  obtain ⟨x, hx, rfl⟩ := Option.map_eq_some_iff.mp hi
  obtain ⟨y, hy, heq⟩ := Option.map_eq_some_iff.mp hj
  obtain rfl := hf heq
  have hi : i < table.toList.length := (Array.getElem?_eq_some_iff.mp hx).1
  refine (List.getElem?_inj hi h).mp ?_
  rw [Array.getElem?_toList, Array.getElem?_toList, hx, hy]

/-- An entry that may share its place has only one. -/
theorem Distinct.unique (hm : m.Distinct) {t : BuildTable} (ht : t.shared = true) {i j : Nat}
    {r : BuildRequest} (hi : m.request? i t = some r) (hj : m.request? j t = some r) : i = j := by
  cases t with
  | constants => exact place_unique hm.constants (fun _ _ => BuildRequest.constant.inj) hi hj
  | types => exact place_unique hm.types (fun _ _ => BuildRequest.type.inj) hi hj
  | natives => exact place_unique hm.natives (fun _ _ => BuildRequest.native.inj) hi hj
  | _ => cases ht

/-! ## What all requests together come to -/

section Builds

variable {log earlier between later : List (BuildRequest × Option Nat)} {r : BuildRequest}
  {t : BuildTable} {i j : Nat}

theorem Builds.distinct (h : m.Builds log n) (hm : m.Distinct) : n.Distinct := by
  induction h with
  | nil => exact hm
  | cons hgrant _ ih => exact ih (hm.grant hgrant)

theorem Builds.request? (h : m.Builds log n) (hr : m.request? i t = some r) :
    n.request? i t = some (r.after i (log.map Prod.fst)) := by
  induction h generalizing r with
  | nil => exact hr
  | cons hgrant _ ih => exact ih ((grant_follows hgrant).request? hr)

/-- What was asked for stands where the answer says, whatever else is asked for later. -/
theorem Builds.stands (h : m.Builds (earlier ++ (r, a) :: later) n) (ht : r.table? = some t) :
    ∃ i, a = some i ∧ n.request? i t = some (r.after i (later.map Prod.fst)) := by
  obtain ⟨m₁, -, hrest⟩ := Grants.append_iff.mp h
  cases hrest with
  | cons hgrant hlater =>
    obtain ⟨i, rfl, hentry, -⟩ := request?_of_grant hgrant ht
    exact ⟨i, rfl, Builds.request? hlater hentry⟩

theorem isJump_of_grant {k : Nat} {target : Int} {ins : Instruction}
    (h : m.grant (.patch k i target) = .ok (a, n))
    (hins : m.request? i (.code k) = some (.instruction k ins)) :
    ins.operation?.any Operation.isJump := by
  obtain ⟨f, j, ins', hf, hj, hins', hjump, -⟩ := patch_eq_ok h
  obtain rfl := Int.ofNat.inj hj
  simp only [Module.request?, hf, Option.bind_some, hins', Option.map_some, Option.some.injEq,
    BuildRequest.instruction.injEq, true_and] at hins
  rwa [← hins]

/-- Only branches get new targets. -/
theorem Builds.isJump {k : Nat} {target : Int} {ins : Instruction}
    (h : m.Builds (earlier ++ (.instruction k ins, some i) :: later) n)
    (hpatch : (.patch k i target, a) ∈ later) : ins.operation?.any Operation.isJump := by
  obtain ⟨between, rest, rfl⟩ := List.append_of_mem hpatch
  rw [← List.cons_append, ← List.append_assoc] at h
  obtain ⟨m₁, hbefore, hrest⟩ := Grants.append_iff.mp h
  obtain ⟨i', hi, hentry⟩ := Builds.stands (t := .code k) hbefore rfl
  obtain rfl := Option.some.inj hi
  obtain ⟨j, hj, hop⟩ := BuildRequest.exists_after_instruction (i := i) k ins (between.map Prod.fst)
  rw [hj] at hentry
  cases hrest with
  | cons hgrant _ =>
    rw [← hop]
    exact isJump_of_grant hgrant hentry

/-- Two answers that refer to the same table are equal only for equal requests whose entries share
their place. -/
theorem Builds.eq_iff {s : BuildRequest} (hm : m.Distinct)
    (h : m.Builds (earlier ++ (r, some i) :: (between ++ (s, some j) :: later)) n)
    (hr : r.table? = some t) (hs : s.table? = some t) : i = j ↔ t.shared = true ∧ r = s := by
  have hsplit : earlier ++ (r, some i) :: (between ++ (s, some j) :: later) =
      (earlier ++ (r, some i) :: between) ++ (s, some j) :: later := by simp
  cases hshared : t.shared with
  | false =>
    refine iff_of_false (fun hij => ?_) fun hand => by cases hand.1
    rw [hsplit] at h
    obtain ⟨m₁, hbefore, hrest⟩ := Grants.append_iff.mp h
    obtain ⟨i', hi, hentry⟩ := Builds.stands hbefore hr
    obtain rfl := Option.some.inj hi
    cases hrest with
    | cons hgrant _ =>
      obtain ⟨j', hj, -, hnew⟩ := request?_of_grant hgrant hs
      obtain rfl := Option.some.inj hj
      rw [← hij, hentry] at hnew
      cases hnew hshared
  | true =>
    obtain ⟨i', hi, hfirst⟩ := Builds.stands h hr
    obtain rfl := Option.some.inj hi
    have hn := Builds.distinct h hm
    rw [hsplit] at h
    obtain ⟨j', hj, hsecond⟩ := Builds.stands h hs
    obtain rfl := Option.some.inj hj
    rw [BuildRequest.after_of_shared hr hshared] at hfirst
    rw [BuildRequest.after_of_shared hs hshared] at hsecond
    rw [and_iff_right rfl]
    constructor
    · rintro rfl
      exact Option.some.inj (hfirst.symm.trans hsecond)
    · rintro rfl
      exact hn.unique hshared hfirst hsecond

end Builds

end Module

/-! ## Constants and their values -/

inductive Constant.Stores : Constant → Value → Prop
  | null : Stores .null .null
  | int (v : Int64) : Stores (.int v) (.int v)
  | uint (v : UInt64) : Stores (.uint v) (.uint v)
  | float (v : Double) : Stores (.float v) (.float v)
  | bool (v : Bool) : Stores (.bool v) (.bool v)
  | char (v : Int32) : Stores (.char v) (.char v)
  | string (v : String) : Stores (.string v) (.string v)

namespace Constant

variable {c d : Constant} {v w : Value}

/-- The value comes back bit for bit. -/
theorem Stores.value_eq (h : c.Stores v) : c.value = v := by
  cases h with
  | int v => simp [Constant.int, Constant.value]
  | bool v => cases v <;> rfl
  | char v => simp [Constant.char, Constant.value]
  | _ => rfl

/-- Constants are the same if they are made from the same values. -/
theorem Stores.eq_iff (hc : c.Stores v) (hd : d.Stores w) : c = d ↔ v = w := by
  constructor
  · rintro rfl
    exact hc.value_eq.symm.trans hd.value_eq
  · rintro rfl
    cases hc <;> cases hd <;> rfl

end Constant

/-! ## Places in maps -/

deriving instance Hashable for Constant

/-- The index of an entry in a table, by a map that holds where entries stand. -/
def internBy {α : Type} [BEq α] [Hashable α] (places : Std.HashMap α Nat) (table : Array α) (a : α) :
    Nat × Std.HashMap α Nat × Array α :=
  match places[a]? with
  | some i => (i, places, table)
  | none => (table.size, places.insert a table.size, table.push a)

/-- A module that is being built, and where the entries stand that may be asked for again. -/
structure Builder where
  module : Module
  constants : Std.HashMap Constant Nat
  types : Std.HashMap String Nat
  natives : Std.HashMap String Nat

namespace Builder

def start (name : String) : Builder := ⟨.empty name, ∅, ∅, ∅⟩

def grant (b : Builder) : BuildRequest → Except BuildFault (Option Nat × Builder)
  | .constant c =>
    let (i, places, constants) := internBy b.constants b.module.constants c
    .ok (some i, { b with module := { b.module with constants }, constants := places })
  | .type name =>
    let (i, places, types) := internBy b.types b.module.types name
    .ok (some i, { b with module := { b.module with types }, types := places })
  | .native key =>
    let (i, places, natives) := internBy b.natives b.module.natives key
    .ok (some i, { b with module := { b.module with natives }, natives := places })
  | r => (b.module.grant r).map fun (a, module) => (a, { b with module })

/-- Requests lead from one builder to another. -/
abbrev Builds : Builder → List (BuildRequest × Option Nat) → Builder → Prop := Grants grant

end Builder

/-- A map holds where the entries of a table stand, and nothing else. -/
def Places {α : Type} [BEq α] [Hashable α] (places : Std.HashMap α Nat) (table : Array α) : Prop :=
  ∀ (a : α) (i : Nat), places[a]? = some i ↔ table[i]? = some a

section Places

variable {α : Type} [DecidableEq α] [Hashable α] {places : Std.HashMap α Nat} {table : Array α}

theorem Places.empty : Places (∅ : Std.HashMap α Nat) #[] := fun a i => by simp

theorem Places.getElem?_eq (h : Places places table) (a : α) :
    places[a]? = table.findIdx? (· = a) := by
  cases hfind : table.findIdx? (· = a) with
  | some i =>
    obtain ⟨hlt, heq, -⟩ := Array.findIdx?_eq_some_iff_getElem.mp hfind
    rw [h, Array.getElem?_eq_getElem hlt]
    simpa using heq
  | none =>
    rw [Option.eq_none_iff_forall_ne_some]
    intro i hi
    simpa using Array.findIdx?_eq_none_iff.mp hfind a (Array.mem_of_getElem? ((h a i).mp hi))

/-- A map answers as a search does. -/
theorem Places.internBy_eq (h : Places places table) (a : α) :
    ((internBy places table a).1, (internBy places table a).2.2) = intern table a := by
  unfold internBy intern
  rw [h.getElem?_eq]
  cases table.findIdx? (· = a) <;> rfl

theorem Places.internBy (h : Places places table) (a : α) :
    Places (internBy places table a).2.1 (internBy places table a).2.2 := by
  unfold TypedScript.internBy
  cases hplace : places[a]? with
  | some i => exact h
  | none =>
    intro b i
    dsimp only
    rw [Std.HashMap.getElem?_insert, Array.getElem?_push]
    by_cases hb : a = b
    · subst hb
      have hnot : table[i]? ≠ some a := fun hi => by
        rw [(h a i).mpr hi] at hplace
        cases hplace
      grind
    · grind [Places]

end Places

namespace Builder

variable {b b' : Builder} {r : BuildRequest} {a : Option Nat}
  {log : List (BuildRequest × Option Nat)}

/-- The maps of a builder hold where the entries of its module stand. -/
structure Noted (b : Builder) : Prop where
  constants : Places b.constants b.module.constants
  types : Places b.types b.module.types
  natives : Places b.natives b.module.natives

theorem Noted.start (name : String) : (Builder.start name).Noted := ⟨.empty, .empty, .empty⟩

theorem grant_of_unshared (hr : ∀ t, r.table? = some t → t.shared = false) :
    b.grant r = (b.module.grant r).map fun (a, module) => (a, { b with module }) := by
  cases r with
  | constant c => cases hr _ rfl
  | type name => cases hr _ rfl
  | native key => cases hr _ rfl
  | _ => rfl

/-- A builder answers as a search in the tables does. -/
theorem Noted.grant (h : b.Noted) (r : BuildRequest) :
    ((b.grant r).map fun (a, b') => (a, b'.module)) = b.module.grant r ∧
      ∀ {a b'}, b.grant r = .ok (a, b') → b'.Noted := by
  obtain ⟨c, rfl⟩ | ⟨name, rfl⟩ | ⟨key, rfl⟩ | hr := r.shared_cases
  · refine ⟨?_, fun heq => ?_⟩
    · rw [Module.grant, Module.internConstant, ← h.constants.internBy_eq]
      rfl
    · cases heq
      exact ⟨h.constants.internBy c, h.types, h.natives⟩
  · refine ⟨?_, fun heq => ?_⟩
    · rw [Module.grant, Module.internType, ← h.types.internBy_eq]
      rfl
    · cases heq
      exact ⟨h.constants, h.types.internBy name, h.natives⟩
  · refine ⟨?_, fun heq => ?_⟩
    · rw [Module.grant, Module.internNative, ← h.natives.internBy_eq]
      rfl
    · cases heq
      exact ⟨h.constants, h.types, h.natives.internBy key⟩
  · rw [grant_of_unshared hr]
    cases hm : b.module.grant r with
    | error e => exact ⟨rfl, fun h => by cases h⟩
    | ok p =>
      obtain ⟨hconstants, htypes, hnatives⟩ := Module.tables_of_grant hm hr
      refine ⟨rfl, fun heq => ?_⟩
      cases heq
      exact ⟨hconstants ▸ h.constants, htypes ▸ h.types, hnatives ▸ h.natives⟩

/-- Whatever is built by searching the tables is built with maps as well, with the same answers. -/
theorem Noted.builds_iff (h : b.Noted) {m : Module} :
    b.module.Builds log m ↔ ∃ b', b.Builds log b' ∧ b'.module = m ∧ b'.Noted := by
  induction log generalizing b with
  | nil =>
    constructor
    · intro hlog
      cases hlog
      exact ⟨b, .nil b, rfl, h⟩
    · rintro ⟨b', hlog, rfl, -⟩
      cases hlog
      exact .nil _
  | cons x rest ih =>
    obtain ⟨r, a⟩ := x
    obtain ⟨hsame, hnoted⟩ := h.grant r
    constructor
    · intro hlog
      cases hlog with
      | cons hgrant hrest =>
        rw [← hsame] at hgrant
        cases hb : b.grant r with
        | error e =>
          rw [hb] at hgrant
          cases hgrant
        | ok p =>
          rw [hb] at hgrant
          cases hgrant
          obtain ⟨b', hlog', hm, hnoted'⟩ := (ih (hnoted hb)).mp hrest
          exact ⟨b', .cons hb hlog', hm, hnoted'⟩
    · rintro ⟨b', hlog, hm, hnoted'⟩
      cases hlog with
      | cons hgrant hrest =>
        refine .cons ?_ ((ih (hnoted hgrant)).mpr ⟨b', hrest, hm, hnoted'⟩)
        rw [← hsame, hgrant]
        rfl

end Builder

/-! ## Consistency -/

namespace Module

/-- What is true of a module after requests that were all granted, in terms of the requests and their
answers. -/
structure Consistent (m : Module) (log : List (BuildRequest × Option Nat)) : Prop where
  distinct : m.Distinct
  stands : ∀ (earlier later : List (BuildRequest × Option Nat)) {r : BuildRequest} {a : Option Nat}
    {t : BuildTable}, log = earlier ++ (r, a) :: later → r.table? = some t →
    ∃ i, a = some i ∧ m.request? i t = some (r.after i (later.map Prod.fst))
  isJump : ∀ {earlier later : List (BuildRequest × Option Nat)} {k i : Nat} {ins : Instruction}
    {target : Int} {a : Option Nat}, log = earlier ++ (.instruction k ins, some i) :: later →
    (.patch k i target, a) ∈ later → ins.operation?.any Operation.isJump
  eq_iff : ∀ {earlier between later : List (BuildRequest × Option Nat)} {r s : BuildRequest}
    {i j : Nat} {t : BuildTable},
    log = earlier ++ (r, some i) :: (between ++ (s, some j) :: later) →
    r.table? = some t → s.table? = some t → (i = j ↔ t.shared = true ∧ r = s)
  value : ∀ {c : Constant} {v : Value} {a : Option Nat}, (.constant c, a) ∈ log → c.Stores v →
    ∃ i, a = some i ∧ m.constants[i]?.map Constant.value = some v
  value_iff : ∀ {c d : Constant} {v w : Value} {i j : Nat}, (.constant c, some i) ∈ log →
    (.constant d, some j) ∈ log → c.Stores v → d.Stores w → (i = j ↔ v = w)

variable {m n : Module} {log : List (BuildRequest × Option Nat)}

theorem Builds.getElem?_constant {c : Constant} {a : Option Nat} (h : m.Builds log n)
    (hc : (.constant c, a) ∈ log) : ∃ i, a = some i ∧ n.constants[i]? = some c := by
  obtain ⟨earlier, later, rfl⟩ := List.append_of_mem hc
  obtain ⟨i, hi, hentry⟩ := Builds.stands (t := .constants) h rfl
  rw [BuildRequest.after_of_shared (t := .constants) rfl rfl] at hentry
  obtain ⟨d, hd, heq⟩ := Option.map_eq_some_iff.mp hentry
  cases heq
  exact ⟨i, hi, hd⟩

theorem Builds.consistent (h : m.Builds log n) (hm : m.Distinct) : n.Consistent log where
  distinct := Builds.distinct h hm
  stands _ _ _ _ _ hlog ht := Builds.stands (hlog ▸ h) ht
  isJump hlog hpatch := Builds.isJump (hlog ▸ h) hpatch
  eq_iff hlog hr hs := Builds.eq_iff hm (hlog ▸ h) hr hs
  value hc hv := by
    obtain ⟨i, hi, hentry⟩ := Builds.getElem?_constant h hc
    exact ⟨i, hi, by rw [hentry, Option.map_some, hv.value_eq]⟩
  value_iff hc hd hv hw := by
    obtain ⟨i, hi, hfirst⟩ := Builds.getElem?_constant h hc
    obtain ⟨j, hj, hsecond⟩ := Builds.getElem?_constant h hd
    obtain rfl := Option.some.inj hi
    obtain rfl := Option.some.inj hj
    rw [← hv.eq_iff hw]
    constructor
    · rintro rfl
      exact Option.some.inj (hfirst.symm.trans hsecond)
    · rintro rfl
      exact place_unique (Builds.distinct h hm).constants Function.injective_id
        (by simpa using hfirst) (by simpa using hsecond)

/-- However requests follow each other on a module without contents, its tables are consistent with
their answers: no entry is there twice that may share its place, every answer still stands for what was
asked for but for the targets that branches were given later, answers are equal only for equal requests
whose entries share their place, and a constant has the value that it was made from. A builder that
finds entries by maps gives the same answers and the same module, and its maps agree with the tables. -/
theorem Builds.tables_consistent {name : String} (h : (Module.empty name).Builds log m) :
    m.Consistent log ∧ ∃ b, (Builder.start name).Builds log b ∧ b.module = m ∧ b.Noted :=
  ⟨Builds.consistent h (.empty name), (Builder.Noted.start name).builds_iff.mp h⟩

/-- Requests to two methods in turn: zeros of three kinds, and a branch that gets its target later. -/
def interleaved : List (BuildRequest × Option Nat) :=
  [(.method "main" #[] "void", some 0), (.constant (.float Double.zero.neg), some 0),
    (.instruction 0 (.plain .jump 0), some 0), (.method "twice" #["i32"] "i32", some 1),
    (.slot 1 "x" "i32", some 0), (.constant (.int 0), some 1),
    (.instruction 1 (.plain .loadLocal 0), some 0), (.constant (.uint 0), some 2),
    (.instruction 0 (.plain .retVoid 0), some 1), (.patch 0 0 1, none),
    (.constant (.float Double.zero.neg), some 0)]

def interleavedModule : Module :=
  { Module.empty "" with
    methods := #[some ⟨"main", #[], "void", #[], #[.plain .jump 1, .plain .retVoid 0]⟩,
      some ⟨"twice", #["i32"], "i32", #[⟨"x", "i32"⟩], #[.plain .loadLocal 0]⟩]
    constants := #[.float Double.zero.neg, .int 0, .uint 0] }

theorem builds_interleaved : (Module.empty "").Builds interleaved interleavedModule := by
  -- A search in a table reduces only where well-founded recursion is unfolded.
  iterate 11 refine .cons (by with_unfolding_all rfl) ?_
  with_unfolding_all exact .nil _

/-- The branch leads where it was told to, and the zeros are kept apart. -/
theorem tables_consistent_interleaved : (Module.empty "").Builds interleaved interleavedModule ∧
    interleavedModule.request? 0 (.code 0) = some (.instruction 0 (.plain .jump 1)) ∧
    interleavedModule.request? 0 (.slots 1) = some (.slot 1 "x" "i32") ∧
    interleavedModule.constants[0]?.map Constant.value = some (.float Double.zero.neg) ∧
    interleavedModule.constants[1]?.map Constant.value = some (.int 0) ∧
    interleavedModule.constants[2]?.map Constant.value = some (.uint 0) := by
  obtain ⟨hconsistent, -⟩ := Builds.tables_consistent builds_interleaved
  obtain ⟨_, ⟨⟩, hjump⟩ := hconsistent.stands (interleaved.take 2) (interleaved.drop 3) rfl rfl
  obtain ⟨_, ⟨⟩, hslot⟩ := hconsistent.stands (interleaved.take 4) (interleaved.drop 5) rfl rfl
  obtain ⟨_, ⟨⟩, hfloat⟩ := hconsistent.value (a := some 0) (by simp [interleaved])
    (.float Double.zero.neg)
  obtain ⟨_, ⟨⟩, hint⟩ := hconsistent.value (a := some 1) (by simp [interleaved]) (.int 0)
  obtain ⟨_, ⟨⟩, huint⟩ := hconsistent.value (a := some 2) (by simp [interleaved]) (.uint 0)
  exact ⟨builds_interleaved, hjump, hslot, hfloat, hint, huint⟩

end Module
end TypedScript
