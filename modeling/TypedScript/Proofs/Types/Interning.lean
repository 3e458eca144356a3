import Mathlib.Data.List.Induction
import Mathlib.Logic.Relation
import TypedScript.Machine.Step
import TypedScript.Proofs.Types.Arrays
import TypedScript.Proofs.Types.Names
import TypedScript.Proofs.Types.Overloads

/-!
# Types are kept for ever

Whatever operations a registry goes through, the types that it has given out stay what they are, and
there is one array type for each element type. An element type has a smaller number than its array, so
names come to an end. Arrays over built-in types are told apart by their names, which is all that the
machine compares.
-/

namespace TypedScript
namespace Registry

inductive Step (r : Registry) : Registry → Prop
  | arrayOf {element t : TypeId} {s : Registry} : r.arrayOf element = .ok (t, s) → Step r s
  | newGroup (name parent : String) : Step r (r.newGroup name parent).2
  | addCallable {c : Callable} {t : TypeId} {s : Registry} : r.addCallable c = .ok (t, s) → Step r s
  | adopt {group callable : TypeId} {s : Registry} : r.adopt group callable = .ok s → Step r s

/-- A number of operations leads from one registry to another. -/
abbrev Becomes : Registry → Registry → Prop := Relation.ReflTransGen Step

variable {r s : Registry}

theorem Becomes.built (hr : r.Built) (h : r.Becomes s) : s.Built := by
  induction h with
  | refl => exact hr
  | tail _ hstep ih =>
    cases hstep with
    | arrayOf hs => exact .arrayOf ih hs
    | newGroup name parent => exact .newGroup ih name parent
    | addCallable hs => exact .addCallable ih hs
    | adopt hs => exact .adopt ih hs

/-! ## What an operation does -/

theorem exists_of_group {t : TypeId} {g : Overloads} (h : r.group t = .ok g) :
    ∃ i, t = .derived i ∧ r.entries[i]? = some (.group g) := by
  rw [group_eq_ok] at h
  cases t with
  | derived i => exact ⟨i, rfl, h⟩
  | _ => simp [get?] at h

theorem addCallable_eq_ok {c : Callable} {t : TypeId} (h : r.addCallable c = .ok (t, s)) :
    ∃ i g, c.group = .derived i ∧ r.entries[i]? = some (.group g) ∧ t = .derived r.entries.size ∧
      s = (r.push (.callable c)).2.extendGroup (.derived i) t := by
  cases hg : r.group c.group with
  | error d => simp [Registry.addCallable, hg, bind, Except.bind] at h
  | ok g =>
    obtain ⟨i, hi, hentry⟩ := exists_of_group hg
    simp only [Registry.addCallable, hg, bind, Except.bind, pure, Except.pure] at h
    cases h
    exact ⟨i, g, hi, hentry, rfl, by rw [hi]⟩

theorem adopt_eq_ok {group callable : TypeId} (h : r.adopt group callable = .ok s) :
    s = r ∨ ∃ i, group = .derived i ∧ s = r.extendGroup (.derived i) callable := by
  cases hc : r.callable callable with
  | error d => simp [Registry.adopt, hc, bind, Except.bind] at h
  | ok c =>
    cases hg : r.group group with
    | error d => simp [Registry.adopt, hc, hg, bind, Except.bind] at h
    | ok g =>
      obtain ⟨i, rfl, -⟩ := exists_of_group hg
      simp only [Registry.adopt, hc, hg, bind, Except.bind, pure, Except.pure] at h
      split at h
      · cases h
        exact .inl rfl
      · cases h
        exact .inr ⟨i, rfl, rfl⟩

theorem Step.le (h : Step r s) : r ≤ s := by
  cases h with
  | arrayOf hs =>
    obtain ⟨-, -, -, rfl⟩ | ⟨-, -, -, rfl⟩ := arrayOf_eq_ok hs
    · exact le_rfl
    · exact le_push r _
  | newGroup => exact le_push r _
  | addCallable hs =>
    obtain ⟨i, g, -, -, -, rfl⟩ := addCallable_eq_ok hs
    exact le_trans (le_push r _) (le_extendGroup _ i _)
  | adopt hs =>
    obtain rfl | ⟨i, -, rfl⟩ := adopt_eq_ok hs
    · exact le_rfl
    · exact le_extendGroup r i _

theorem Becomes.le (h : r.Becomes s) : r ≤ s := by
  induction h with
  | refl => exact le_rfl
  | tail _ hstep ih => exact le_trans ih hstep.le

/-! ## The registry that compilations start with

Groups with many overloads are defined at once, which comes to the same as adding them one by one. -/

theorem size_defineGroup (r : Registry) (name parent : String) (op? : Option Operator)
    (overloads : List Signature) :
    (r.defineGroup name parent op? overloads).2.entries.size = r.entries.size + 1 + overloads.length := by
  simp only [defineGroup, ← Array.length_toList, Array.toList_appendList, Array.toList_push,
    List.length_append, List.length_singleton, List.length_map]

theorem addCallable_defineGroup (r : Registry) (name parent : String) (op? : Option Operator)
    (overloads : List Signature) (o : Signature) :
    (r.defineGroup name parent op? overloads).2.addCallable
        ⟨.derived r.entries.size, o.result, o.params, op?⟩ =
      .ok (.derived (r.entries.size + 1 + overloads.length),
        (r.defineGroup name parent op? (overloads ++ [o])).2) := by
  have hgroup := group_defineGroup r name parent op? overloads
  have hsize := size_defineGroup r name parent op? overloads
  have hentries : ∀ i : Nat, (((r.defineGroup name parent op? overloads).2.push (.callable
      ⟨.derived r.entries.size, o.result, o.params, op?⟩)).2.extendGroup (.derived r.entries.size)
        (.derived (r.entries.size + 1 + overloads.length))).entries[i]? =
      (r.defineGroup name parent op? (overloads ++ [o])).2.entries[i]? := by
    intro i
    rw [getElem?_extendGroup, getElem?_push, getElem?_defineGroup, getElem?_defineGroup, hsize]
    by_cases hgroup : i = r.entries.size
    · subst hgroup
      have hlast : r.entries.size ≠ r.entries.size + 1 + overloads.length := by omega
      simp [hlast, TypeEntry.extended, List.range_succ]
    by_cases hlast : i = r.entries.size + 1 + overloads.length
    · have hnew : ¬r.entries.size + 1 + overloads.length < r.entries.size := by omega
      subst hlast
      simp [hgroup, Ne.symm hgroup, hnew]
    by_cases hold : i < r.entries.size
    · simp [hold, hlast, Ne.symm hgroup]
    · have hindex : i - (r.entries.size + 1) ≠ overloads.length := by omega
      have hmore : (overloads ++ [o])[i - (r.entries.size + 1)]? =
          overloads[i - (r.entries.size + 1)]? := by
        grind
      simp [hold, hlast, hgroup, Ne.symm hgroup, hmore]
  have hregistry : ∀ {s t : Registry}, (∀ i : Nat, s.entries[i]? = t.entries[i]?) → s = t :=
    fun h => congrArg Registry.mk (Array.ext_getElem? h)
  simp only [Registry.addCallable, hgroup, bind, Except.bind, pure, Except.pure, Except.ok.injEq,
    Prod.mk.injEq]
  exact ⟨congrArg TypeId.derived hsize, by rw [← hregistry hentries, push, hsize]⟩

theorem becomes_defineGroup (r : Registry) (name parent : String) (op? : Option Operator)
    (overloads : List Signature) : r.Becomes (r.defineGroup name parent op? overloads).2 := by
  induction overloads using List.reverseRecOn with
  | nil => exact .single (.newGroup name parent)
  | append_singleton overloads o ih =>
    exact ih.tail (.addCallable (addCallable_defineGroup r name parent op? overloads o))

theorem Becomes.registerOperators (h : empty.Becomes r) (ops : List Operator) :
    empty.Becomes (Intrinsics.registerAll r ops).2 := by
  induction ops generalizing r with
  | nil => exact h
  | cons op rest ih => exact ih (h.trans (becomes_defineGroup _ _ _ _ _))

theorem Becomes.register (h : empty.Becomes r) (g : LibraryGroup) :
    empty.Becomes (Library.register r g).2 :=
  h.trans (becomes_defineGroup _ _ _ _ _)

theorem Becomes.registerAll (h : empty.Becomes r) (gs : List LibraryGroup) :
    empty.Becomes (Library.registerAll r gs).2 := by
  induction gs generalizing r with
  | nil => exact h
  | cons g rest ih => exact ih (h.register g)

theorem Becomes.load (h : empty.Becomes r) : empty.Becomes (Library.load r).2 := by
  have hplain := h.registerAll Library.plainGroups
  unfold Library.load
  generalize Library.registerAll r Library.plainGroups = p at *
  obtain ⟨plain, r₁⟩ := p
  have hconcat := Becomes.register hplain Library.concatGroup
  dsimp only at *
  generalize Library.register r₁ Library.concatGroup = p at *
  obtain ⟨concat, r₂⟩ := p
  have hequals := Becomes.register hconcat Library.equalsGroup
  dsimp only at *
  generalize Library.register r₂ Library.equalsGroup = p at *
  obtain ⟨equals, r₃⟩ := p
  have htoText := Becomes.register hequals Library.toTextGroup
  dsimp only at *
  generalize Library.register r₃ Library.toTextGroup = p at *
  obtain ⟨toText, r₄⟩ := p
  have hparsers := Becomes.registerAll htoText (Library.parserGroups.map Prod.snd)
  dsimp only at *
  generalize Library.registerAll r₄ (Library.parserGroups.map Prod.snd) = p at *
  exact hparsers

/-- Compilations start with a registry that operations have made. -/
theorem becomes_initial : empty.Becomes Binder.initial.registry := by
  have hlibrary := Becomes.load (r := .empty) .refl
  unfold Binder.initial
  generalize Library.load .empty = p at *
  obtain ⟨library, r⟩ := p
  have hoperators := Becomes.registerOperators hlibrary Intrinsics.all
  unfold Intrinsics.load
  dsimp only at *
  generalize Intrinsics.registerAll r Intrinsics.all = p at *
  exact hoperators

/-! ## Array types and what they mention -/

/-- There is one array type for each element type, which stands before it. The group of a callable is
a group. -/
structure Ordered (r : Registry) : Prop where
  unique : ∀ {i j : Nat} {e : TypeId}, r.entries[i]? = some (.array e) →
    r.entries[j]? = some (.array e) → i = j
  nested : r.Nested
  exist : ∀ {i : Nat} {e : TypeId}, r.entries[i]? = some (.array e) → r.Exists e
  grouped : ∀ {i : Nat} {c : Callable}, r.entries[i]? = some (.callable c) → ∃ g, r.group c.group = .ok g

theorem kind_mono (h : r ≤ s) {t : TypeId} {k : TypeKind} (hk : r.kind t = .ok k) :
    s.kind t = .ok k := by
  cases t with
  | derived i =>
    cases he : r.entries[i]? with
    | none => simp [Registry.kind, he] at hk
    | some e =>
      obtain ⟨f, hf, hgrows⟩ := h i e he
      cases e <;> cases f <;> first | exact hgrows.elim | simpa [Registry.kind, he, hf] using hk
  | _ => exact hk

theorem Exists.mono (h : r ≤ s) {t : TypeId} (ht : r.Exists t) : s.Exists t := by
  obtain ⟨k, hk⟩ := ht
  exact ⟨k, kind_mono h hk⟩

/-- A derived type that exists has an entry. -/
theorem Exists.lt {j : Nat} (h : r.Exists (.derived j)) : j < r.entries.size := by
  by_contra hj
  obtain ⟨k, hk⟩ := h
  simp [Registry.kind, Array.getElem?_eq_none (Nat.not_lt.mp hj)] at hk

namespace Ordered

theorem empty : Registry.empty.Ordered where
  unique hi := by simp [Registry.empty] at hi
  nested i j hij := by simp [Registry.empty] at hij
  exist hi := by simp [Registry.empty] at hi
  grouped hi := by simp [Registry.empty] at hi

theorem push (h : r.Ordered) {e : TypeEntry}
    (harray : ∀ t, e = .array t → r.Exists t ∧ ∀ i : Nat, r.entries[i]? ≠ some (.array t))
    (hcallable : ∀ c, e = .callable c → ∃ g, r.group c.group = .ok g) : (r.push e).2.Ordered where
  unique {i j t} hi hj := by
    rw [getElem?_push] at hi hj
    split at hi <;> split at hj
    · omega
    · exact absurd hj ((harray t (Option.some.inj hi)).2 j)
    · exact absurd hi ((harray t (Option.some.inj hj)).2 i)
    · exact h.unique hi hj
  nested := h.nested.push fun j he => (harray _ he).1.lt
  exist {i t} hi := by
    rw [getElem?_push] at hi
    split at hi
    · exact (harray t (Option.some.inj hi)).1.mono (le_push r e)
    · exact (h.exist hi).mono (le_push r e)
  grouped {i c} hi := by
    rw [getElem?_push] at hi
    split at hi
    · exact group_mono_ok (le_push r e) (hcallable c (Option.some.inj hi))
    · exact group_mono_ok (le_push r e) (h.grouped hi)

/-- Only groups change when one of them gets a member. -/
theorem getElem?_of_extendGroup {i j : Nat} {m : TypeId} {e : TypeEntry} (he : ∀ g, e ≠ .group g)
    (h : (r.extendGroup (.derived i) m).entries[j]? = some e) : r.entries[j]? = some e := by
  rw [getElem?_extendGroup] at h
  split at h
  · obtain ⟨f, hf, rfl⟩ := Option.map_eq_some_iff.mp h
    cases f with
    | group g => exact absurd rfl (he _)
    | _ => exact hf
  · exact h

theorem extendGroup (h : r.Ordered) (i : Nat) (m : TypeId) :
    (r.extendGroup (.derived i) m).Ordered where
  unique hi hj := h.unique (getElem?_of_extendGroup (by simp) hi) (getElem?_of_extendGroup (by simp) hj)
  nested := h.nested.extendGroup i m
  exist hi := (h.exist (getElem?_of_extendGroup (by simp) hi)).mono (le_extendGroup r i m)
  grouped hi :=
    group_mono_ok (le_extendGroup r i m) (h.grouped (getElem?_of_extendGroup (by simp) hi))

end Ordered

theorem Built.ordered (h : r.Built) : r.Ordered := by
  induction h with
  | empty => exact .empty
  | arrayOf _ hs ih =>
    obtain ⟨-, -, -, rfl⟩ | ⟨hexists, hnew, -, rfl⟩ := arrayOf_eq_ok hs
    · exact ih
    · refine ih.push (fun t ht => ?_) (by simp)
      cases ht
      exact ⟨hexists, hnew⟩
  | newGroup _ name parent ih => exact ih.push (by simp) (by simp)
  | @addCallable r _ c _ _ hs ih =>
    obtain ⟨i, g, hgroup, hg, -, rfl⟩ := addCallable_eq_ok hs
    refine (ih.push (by simp) fun d hd => ?_).extendGroup i _
    cases hd
    exact ⟨g, by rw [hgroup]; exact group_eq_ok.mpr hg⟩
  | adopt _ hs ih =>
    obtain rfl | ⟨i, -, rfl⟩ := adopt_eq_ok hs
    · exact ih
    · exact ih.extendGroup i _

/-! ## Names -/

@[simp] theorem nameWithin_absent (fuel : Nat) :
    r.nameWithin fuel .absent = .error (.unknownType .absent) := by
  cases fuel <;> rfl

/-- A name does not depend on how many steps are allowed, if there are enough. -/
theorem nameWithin_of_lt (h : r.Nested) {i fuel : Nat} (hi : i < fuel) :
    r.nameWithin fuel (.derived i) = r.nameWithin (i + 1) (.derived i) := by
  induction i using Nat.strongRecOn generalizing fuel with
  | _ i ih =>
    obtain ⟨fuel, rfl⟩ : ∃ k, fuel = k + 1 := ⟨fuel - 1, by omega⟩
    cases he : r.entries[i]? with
    | none => simp [nameWithin, he]
    | some e =>
      cases e with
      | array t =>
        have helement : r.nameWithin fuel t = r.nameWithin i t := by
          cases t with
          | derived j =>
            have hj := h i j he
            exact (ih j hj (by omega)).trans (ih j hj hj).symm
          | _ => simp [nameWithin]
        simp [nameWithin, he, helement]
      | _ => simp [nameWithin, he]

theorem name_array (h : r.Ordered) {i : Nat} {e : TypeId} (hi : r.entries[i]? = some (.array e)) :
    r.name (.derived i) = do return arrayName (← r.name e) := by
  have hsize : i < r.entries.size := (Array.getElem?_eq_some_iff.mp hi).1
  have helement : r.nameWithin r.entries.size e = r.name e := by
    rw [name]
    cases e with
    | derived j =>
      have hj := h.nested i j hi
      exact (nameWithin_of_lt h.nested (by omega)).trans (nameWithin_of_lt h.nested (by omega)).symm
    | _ => simp [nameWithin]
  rw [← helement]
  simp [name, nameWithin, hi, arrayName]

theorem name_group {i : Nat} {g : Overloads} (hi : r.entries[i]? = some (.group g)) :
    r.name (.derived i) = .ok g.name := by
  simp [name, nameWithin, hi]

theorem name_callable {i : Nat} {c : Callable} (hi : r.entries[i]? = some (.callable c)) :
    r.name (.derived i) = do return (← r.group c.group).name := by
  simp [name, nameWithin, hi]

/-- What exists has a name. -/
theorem Ordered.exists_name (h : r.Ordered) {t : TypeId} (ht : r.Exists t) :
    ∃ n, r.name t = .ok n := by
  have hderived : ∀ i, r.Exists (.derived i) → ∃ n, r.name (.derived i) = .ok n := by
    intro i
    induction i using Nat.strongRecOn with
    | _ i ih =>
      intro hi
      obtain ⟨e, he⟩ : ∃ e, r.entries[i]? = some e := ⟨_, Array.getElem?_eq_getElem hi.lt⟩
      cases e with
      | array t =>
        obtain ⟨n, hn⟩ : ∃ n, r.name t = .ok n := by
          cases t with
          | derived j => exact ih j (h.nested i j he) (h.exist he)
          | absent =>
            obtain ⟨k, hk⟩ := h.exist he
            cases hk
          | _ => exact ⟨_, by simp [name, nameWithin]; rfl⟩
        rw [name_array h he, hn]
        exact ⟨_, rfl⟩
      | group g => exact ⟨_, name_group he⟩
      | callable c =>
        obtain ⟨g, hg⟩ := h.grouped he
        rw [name_callable he, hg]
        exact ⟨_, rfl⟩
  cases t with
  | derived i => exact hderived i ht
  | absent =>
    obtain ⟨k, hk⟩ := ht
    cases hk
  | _ => exact ⟨_, by simp [name, nameWithin]; rfl⟩

theorem name_mono (hr : r.Ordered) (hs : s.Ordered) (h : r ≤ s) {t : TypeId} {n : String}
    (hn : r.name t = .ok n) : s.name t = .ok n := by
  have hderived : ∀ i n, r.name (.derived i) = .ok n → s.name (.derived i) = .ok n := by
    intro i
    induction i using Nat.strongRecOn with
    | _ i ih =>
      intro n hn
      cases he : r.entries[i]? with
      | none => simp [name, nameWithin, he] at hn
      | some e =>
        obtain ⟨f, hf, hgrows⟩ := h i e he
        cases e <;> cases f <;> try exact hgrows.elim
        case array.array t u =>
          obtain rfl : t = u := hgrows
          rw [name_array hr he] at hn
          rw [name_array hs hf]
          cases hm : r.name t with
          | error d => simp [hm, bind, Except.bind] at hn
          | ok m =>
            have hm' : s.name t = .ok m := by
              cases t with
              | derived j => exact ih j (hr.nested i j he) m hm
              | absent => simp [name] at hm
              | _ => simpa [name, nameWithin] using hm
            rw [hm', ← hn, hm]
        case group.group g k =>
          rw [name_group he] at hn
          rw [name_group hf, ← hn, hgrows.1]
        case callable.callable c d =>
          obtain rfl : c = d := hgrows
          obtain ⟨g, hg⟩ := hr.grouped he
          obtain ⟨j, hj, hentry⟩ := exists_of_group hg
          obtain ⟨k, hk, hkgrows⟩ := h j _ hentry
          rw [name_callable he, hg] at hn
          cases k with
          | group k =>
            have hgroup : s.group c.group = .ok k := by
              rw [hj]
              exact group_eq_ok.mpr hk
            rw [name_callable hf, hgroup, ← hn]
            exact congrArg Except.ok hkgrows.1.symm
          | _ => exact hkgrows.elim
  cases t with
  | derived i => exact hderived i n hn
  | absent => simp [name] at hn
  | _ => simpa [name, nameWithin] using hn

/-- Built-in types, and arrays of any rank over them. -/
inductive OverBuiltins (r : Registry) : TypeId → Prop
  | builtin (b : Builtin) : OverBuiltins r (.builtin b)
  | array {t e : TypeId} : r.element t = .ok e → OverBuiltins r e → OverBuiltins r t

theorem element_entry {t e : TypeId} (h : r.element t = .ok e) :
    ∃ i, t = .derived i ∧ r.entries[i]? = some (.array e) := by
  rw [element_eq_ok] at h
  cases t with
  | derived i => exact ⟨i, rfl, h⟩
  | _ => simp [get?] at h

namespace OverBuiltins

theorem exists_name (hr : r.Ordered) {t : TypeId} (h : r.OverBuiltins t) :
    ∃ n, r.name t = .ok n ∧ Emission.typeName r t = .ok n := by
  cases h with
  | builtin b => exact ⟨b.name, by simp [name, nameWithin], Emission.typeName_builtin b⟩
  | array ht _ =>
    obtain ⟨i, rfl, hi⟩ := element_entry ht
    obtain ⟨n, hn⟩ := hr.exists_name (t := .derived i) ⟨.array, by simp [Registry.kind, hi]⟩
    exact ⟨n, hn, by simpa [Emission.typeName] using hn⟩

theorem name_array (hr : r.Ordered) {t e : TypeId} (ht : r.element t = .ok e) {n : String}
    (hn : r.name t = .ok n) : ∃ m, r.name e = .ok m ∧ n = arrayName m := by
  obtain ⟨i, rfl, hi⟩ := element_entry ht
  rw [Registry.name_array hr hi] at hn
  cases hm : r.name e with
  | error d => simp [hm, bind, Except.bind] at hn
  | ok m =>
    rw [hm] at hn
    exact ⟨m, rfl, (Except.ok.inj hn).symm⟩

/-- Types of this kind have different names. -/
theorem eq_of_name (hr : r.Ordered) {t u : TypeId} (ht : r.OverBuiltins t) (hu : r.OverBuiltins u)
    {n : String} (hn : r.name t = .ok n) (hn' : r.name u = .ok n) : t = u := by
  have hbuiltin : ∀ b, r.name (.builtin b) = .ok b.name := fun b => by simp [name, nameWithin]
  induction ht generalizing u n with
  | builtin b =>
    rw [hbuiltin b, Except.ok.injEq] at hn
    subst hn
    cases hu with
    | builtin c =>
      rw [hbuiltin c, Except.ok.injEq] at hn'
      rw [Builtin.name_injective hn']
    | array hu _ =>
      obtain ⟨m, -, hm⟩ := name_array hr hu hn'
      exact absurd hm (builtin_ne_arrayName b m)
  | array ht _ ih =>
    obtain ⟨m, hm, rfl⟩ := name_array hr ht hn
    cases hu with
    | builtin c =>
      rw [hbuiltin c, Except.ok.injEq] at hn'
      exact absurd hn' (builtin_ne_arrayName c m)
    | array hu helement =>
      obtain ⟨m', hm', heq⟩ := name_array hr hu hn'
      obtain rfl := arrayName_injective heq
      obtain rfl := ih helement hm hm'
      obtain ⟨i, rfl, hi⟩ := element_entry ht
      obtain ⟨j, rfl, hj⟩ := element_entry hu
      rw [hr.unique hi hj]

end OverBuiltins

/-! ## What lasts -/

/-- What is known of the types of a registry stays known in another, where groups may have more members
behind those that they have. -/
structure Lasts (r s : Registry) : Prop where
  kind : ∀ {t : TypeId} {k : TypeKind}, r.kind t = .ok k → s.kind t = .ok k
  name : ∀ {t : TypeId} {n : String}, r.name t = .ok n → s.name t = .ok n
  element : ∀ {t e : TypeId}, r.element t = .ok e → s.element t = .ok e
  callable : ∀ {t : TypeId} {c : Callable}, r.callable t = .ok c → s.callable t = .ok c
  group : ∀ {t : TypeId} {g : Overloads}, r.group t = .ok g →
    ∃ more, s.group t = .ok { g with members := g.members ++ more }

/-- Types are told apart by what they are made of: members of groups are different, an array type is
known by its element type, which has a smaller number, and every type has the name that follows from
what it is made of. -/
structure Interned (r : Registry) : Prop where
  nodup : ∀ {t : TypeId} {g : Overloads}, r.group t = .ok g → g.members.Nodup
  eq_of_element : ∀ {t u e : TypeId}, r.element t = .ok e → r.element u = .ok e → t = u
  element_lt : ∀ {t e : TypeId}, r.element t = .ok e → e.number < t.number
  exists_name : ∀ {t : TypeId}, r.Exists t → ∃ n, r.name t = .ok n
  name_array : ∀ {t e : TypeId} {n : String}, r.element t = .ok e → r.name e = .ok n →
    r.name t = .ok (arrayName n)

theorem Built.interned (h : r.Built) : r.Interned where
  nodup hg := by
    obtain ⟨i, -, hi⟩ := exists_of_group hg
    exact (h.listed i _ hi).1
  eq_of_element ht hu := by
    obtain ⟨i, rfl, hi⟩ := element_entry ht
    obtain ⟨j, rfl, hj⟩ := element_entry hu
    rw [h.ordered.unique hi hj]
  element_lt {t e} ht := by
    obtain ⟨i, rfl, hi⟩ := element_entry ht
    cases e with
    | derived j => exact Nat.add_lt_add_left (h.ordered.nested i j hi) _
    | builtin b => cases b <;> (simp [TypeId.number, Builtin.number, TypeId.firstDerived]; omega)
    | _ => simp only [TypeId.number, TypeId.firstDerived]; omega
  exists_name := h.ordered.exists_name
  name_array ht hn := by
    obtain ⟨i, rfl, hi⟩ := element_entry ht
    rw [Registry.name_array h.ordered hi, hn]
    rfl

theorem Becomes.lasts (hr : r.Built) (h : r.Becomes s) : r.Lasts s where
  kind := kind_mono h.le
  name := name_mono hr.ordered (h.built hr).ordered h.le
  element := element_mono h.le
  callable := callable_mono h.le
  group hg := by
    obtain ⟨i, rfl, hi⟩ := exists_of_group hg
    obtain ⟨f, hf, hgrows⟩ := h.le i _ hi
    cases f with
    | group k =>
      obtain ⟨hname, hparent, more, hmembers⟩ := hgrows
      refine ⟨more, ?_⟩
      rw [group_eq_ok, hname, hparent, hmembers]
      exact hf
    | _ => exact hgrows.elim

/-- An array type that exists is found. -/
theorem arrayOf_of_element (h : r.Interned) {t e : TypeId} (ht : r.element t = .ok e) :
    r.arrayOf e = .ok (t, r) := by
  obtain ⟨i, rfl, hi⟩ := element_entry ht
  obtain ⟨hsize, hentry⟩ := Array.getElem?_eq_some_iff.mp hi
  cases hfind : r.entries.findIdx? (· = .array e) with
  | none =>
    have hnone := Array.findIdx?_eq_none_iff.mp hfind _ (Array.mem_of_getElem? hi)
    simp at hnone
  | some j =>
    have hj : r.element (.derived j) = .ok e := element_eq_ok.mpr (findIdx?_eq_some hfind).1
    obtain rfl : i = j := TypeId.derived.inj (h.eq_of_element ht hj)
    simp only [Registry.arrayOf_eq, hfind]

theorem element_of_arrayOf {t e : TypeId} (h : r.arrayOf e = .ok (t, s)) : s.element t = .ok e := by
  obtain ⟨i, hi, rfl, rfl⟩ | ⟨-, -, rfl, rfl⟩ := arrayOf_eq_ok h
  · exact element_eq_ok.mpr (findIdx?_eq_some hi).1
  · rw [element_eq_ok, get?_derived, getElem?_push, if_pos rfl]

/-- The content of an object is taken out where the names agree, whatever the machine. -/
theorem unbox_boxed (wanted type : String) (id : Nat) (v : Value) (w : Machine) :
    Action.unbox wanted (.boxed id type v) w =
      if type = wanted then .ok v w else .error (.fault (w.locate (.unboxFailed type wanted))) w := by
  rw [Action.unbox]
  split
  · rfl
  · rfl

/-- However operations follow each other on an empty registry, the types that it has given out last and
are told apart by what they are made of. Asked again for the array type of an element, it gives the same
one. Arrays over built-in types are told apart by their names in code, so that an object that was made of
a value of one type gives it back as another exactly if the two are one type. -/
theorem Becomes.types_last (hr : empty.Becomes r) (hs : r.Becomes s) :
    r.Lasts s ∧ s.Interned ∧
    (∀ {e t : TypeId} {q : Registry}, q.arrayOf e = .ok (t, r) → r.element t = .ok e ∧
      s.arrayOf e = .ok (t, s)) ∧
    ∀ {t u : TypeId}, s.OverBuiltins t → s.OverBuiltins u → ∃ m n,
      s.name t = .ok m ∧ Emission.typeName s t = .ok m ∧
      s.name u = .ok n ∧ Emission.typeName s u = .ok n ∧ (m = n ↔ t = u) ∧
      ∀ (id : Nat) (v : Value) (w : Machine), Action.unbox n (.boxed id m v) w =
        if t = u then .ok v w else .error (.fault (w.locate (.unboxFailed m n))) w := by
  have hbuilt : r.Built := hr.built .empty
  have hinterned : s.Interned := (hs.built hbuilt).interned
  have hlasts := hs.lasts hbuilt
  refine ⟨hlasts, hinterned, fun harray => ?_, fun {t u} ht hu => ?_⟩
  · have helement := element_of_arrayOf harray
    exact ⟨helement, arrayOf_of_element hinterned (hlasts.element helement)⟩
  · have hordered := (hs.built hbuilt).ordered
    obtain ⟨m, hm, hm'⟩ := ht.exists_name hordered
    obtain ⟨n, hn, hn'⟩ := hu.exists_name hordered
    have hnames : m = n ↔ t = u := by
      constructor
      · rintro rfl
        exact ht.eq_of_name hordered hu hm hn
      · rintro rfl
        exact Except.ok.inj (hm.symm.trans hn)
    refine ⟨m, n, hm, hm', hn, hn', hnames, fun id v w => ?_⟩
    simp only [unbox_boxed, hnames]

/-- Arrays of integers, and arrays of these. -/
theorem types_last_arrays : ∃ r s : Registry, empty.arrayOf (.builtin .i32) = .ok (.derived 0, r) ∧
    r.arrayOf (.derived 0) = .ok (.derived 1, s) ∧ r.Lasts s ∧ s.Interned ∧
    s.arrayOf (.builtin .i32) = .ok (.derived 0, s) ∧
    ∃ m n, s.name (.derived 0) = .ok m ∧ s.name (.derived 1) = .ok n ∧ m ≠ n := by
  have hfirst : empty.arrayOf (.builtin .i32) = .ok (.derived 0, ⟨#[.array (.builtin .i32)]⟩) := by
    simp [Registry.arrayOf, empty, Registry.kind, push, bind, Except.bind, pure, Except.pure]
  have hsecond : arrayOf ⟨#[.array (.builtin .i32)]⟩ (.derived 0) =
      .ok (.derived 1, ⟨#[.array (.builtin .i32), .array (.derived 0)]⟩) := by
    simp [Registry.arrayOf, Registry.kind, push, bind, Except.bind, pure, Except.pure]
  obtain ⟨hlasts, hinterned, hagain, hnames⟩ :=
    Becomes.types_last (.single (.arrayOf hfirst)) (.single (.arrayOf hsecond))
  have hinner : OverBuiltins ⟨#[.array (.builtin .i32), .array (.derived 0)]⟩ (.derived 0) :=
    .array rfl (.builtin .i32)
  obtain ⟨m, n, hm, -, hn, -, heq, -⟩ := hnames hinner (.array (t := .derived 1) rfl hinner)
  exact ⟨_, _, hfirst, hsecond, hlasts, hinterned, (hagain hfirst).2, m, n, hm, hn,
    fun h => by cases heq.mp h⟩

end Registry
end TypedScript
