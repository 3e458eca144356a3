import TypedScript.Proofs.Types.Interning

/-!
# Registries with a map from elements to arrays

The array type of an element type can be found in a map, which is kept beside the entries, instead of by a
search among them. Both ways give the same answers, whatever is asked for and in whatever order.
-/

namespace TypedScript

theorem exists_of_map_eq_ok {ε α β : Type} {m : Except ε α} {f : α → β} {b : β}
    (h : m.map f = .ok b) : ∃ a, m = .ok a ∧ f a = b := by
  cases m with
  | error e => cases h
  | ok a => exact ⟨a, rfl, Except.ok.inj h⟩

deriving instance Hashable for Builtin
deriving instance Hashable for TypeId

namespace Registry

/-- What can be asked of a registry. -/
inductive Request
  | arrayOf (element : TypeId)
  | newGroup (name parent : String)
  | addCallable (c : Callable)
  | adopt (group callable : TypeId)

def grant (r : Registry) : Request → Except Defect (Option TypeId × Registry)
  | .arrayOf element => (r.arrayOf element).map fun (t, s) => (some t, s)
  | .newGroup name parent => .ok (some (r.newGroup name parent).1, (r.newGroup name parent).2)
  | .addCallable c => (r.addCallable c).map fun (t, s) => (some t, s)
  | .adopt group callable => (r.adopt group callable).map fun s => (none, s)

structure Indexed where
  registry : Registry
  arrays : Std.HashMap TypeId TypeId

namespace Indexed

def empty : Indexed := ⟨.empty, ∅⟩

def arrayOf (x : Indexed) (element : TypeId) : Except Defect (TypeId × Indexed) :=
  match x.arrays[element]? with
  | some t => .ok (t, x)
  | none => do
    let _ ← x.registry.kind element
    let (t, registry) := x.registry.push (.array element)
    return (t, ⟨registry, x.arrays.insert element t⟩)

def grant (x : Indexed) : Request → Except Defect (Option TypeId × Indexed)
  | .arrayOf element => (x.arrayOf element).map fun (t, y) => (some t, y)
  | q => (x.registry.grant q).map fun (answer, registry) => (answer, { x with registry })

/-- A number of requests lead from one registry to another. -/
abbrev Becomes : Indexed → Indexed → Prop :=
  Relation.ReflTransGen fun x y => ∃ q answer, x.grant q = .ok (answer, y)

/-- The map holds the array type of each element type that has one. -/
def Noted (x : Indexed) : Prop :=
  ∀ e t : TypeId, x.arrays[e]? = some t ↔ x.registry.element t = .ok e

end Indexed

variable {r s : Registry}

theorem step_iff : r.Step s ↔ ∃ q answer, r.grant q = .ok (answer, s) := by
  constructor
  · rintro (harray | ⟨name, parent⟩ | hadd | hadopt)
    · exact ⟨.arrayOf _, _, by rw [grant, harray]; rfl⟩
    · exact ⟨.newGroup name parent, _, rfl⟩
    · exact ⟨.addCallable _, _, by rw [grant, hadd]; rfl⟩
    · exact ⟨.adopt _ _, _, by rw [grant, hadopt]; rfl⟩
  · rintro ⟨q, answer, h⟩
    cases q with
    | newGroup name parent =>
      cases h
      exact .newGroup name parent
    | arrayOf e =>
      obtain ⟨⟨t, s'⟩, hrun, hs⟩ := exists_of_map_eq_ok h
      cases hs
      exact .arrayOf hrun
    | addCallable c =>
      obtain ⟨⟨t, s'⟩, hrun, hs⟩ := exists_of_map_eq_ok h
      cases hs
      exact .addCallable hrun
    | adopt group callable =>
      obtain ⟨s', hrun, hs⟩ := exists_of_map_eq_ok h
      cases hs
      exact .adopt hrun

/-! ## What requests leave of the arrays -/

theorem element_push {t e : TypeId} {entry : TypeEntry} : (r.push entry).2.element t = .ok e ↔
    r.element t = .ok e ∨ t = .derived r.entries.size ∧ entry = .array e := by
  rw [element_eq_ok, element_eq_ok]
  cases t with
  | derived i =>
    rw [get?_derived, get?_derived, getElem?_push, TypeId.derived.injEq]
    by_cases hi : i = r.entries.size
    · simp [hi]
    · simp [hi]
  | _ => simp [get?]

theorem element_extendGroup {g m t e : TypeId} :
    (r.extendGroup g m).element t = .ok e ↔ r.element t = .ok e := by
  cases g with
  | derived i =>
    rw [element_eq_ok, element_eq_ok]
    cases t with
    | derived j =>
      rw [get?_derived, get?_derived, getElem?_extendGroup]
      by_cases hij : i = j
      · rw [if_pos hij]
        cases r.entries[j]? with
        | none => simp
        | some entry => cases entry <;> simp [TypeEntry.extended]
      · rw [if_neg hij]
    | _ => simp [get?]
  | _ => rfl

/-- Only a request for an array makes one. -/
theorem element_of_grant {q : Request} {answer : Option TypeId} (hq : ∀ e, q ≠ .arrayOf e)
    (h : r.grant q = .ok (answer, s)) {t e : TypeId} : s.element t = .ok e ↔ r.element t = .ok e := by
  cases q with
  | arrayOf e => exact absurd rfl (hq e)
  | newGroup name parent =>
    cases h
    rw [newGroup, element_push]
    simp
  | addCallable c =>
    obtain ⟨⟨u, s'⟩, hrun, hs⟩ := exists_of_map_eq_ok h
    cases hs
    obtain ⟨i, g, -, -, rfl, rfl⟩ := addCallable_eq_ok hrun
    rw [element_extendGroup, element_push]
    simp
  | adopt group callable =>
    obtain ⟨s', hrun, hs⟩ := exists_of_map_eq_ok h
    cases hs
    obtain rfl | ⟨i, g, -, -, rfl⟩ := adopt_eq_ok hrun
    · rfl
    · exact element_extendGroup

namespace Indexed

variable {x : Indexed}

theorem Noted.empty : Indexed.empty.Noted := by
  intro e t
  rw [element_eq_ok]
  cases t <;> simp [Indexed.empty, Registry.empty, get?]

theorem Noted.getElem?_eq (h : x.Noted) (e : TypeId) :
    x.arrays[e]? = (x.registry.entries.findIdx? (· = .array e)).map .derived := by
  cases hfind : x.registry.entries.findIdx? (· = .array e) with
  | some i => exact (h e _).mpr (element_eq_ok.mpr (findIdx?_eq_some hfind).1)
  | none =>
    rw [Option.map_none, Option.eq_none_iff_forall_ne_some]
    intro t ht
    obtain ⟨i, rfl, hi⟩ := element_entry ((h e t).mp ht)
    simpa using Array.findIdx?_eq_none_iff.mp hfind _ (Array.mem_of_getElem? hi)

/-- The map answers as a search does. -/
theorem Noted.arrayOf_eq (h : x.Noted) (e : TypeId) :
    (x.arrayOf e).map (fun (t, y) => (t, y.registry)) = x.registry.arrayOf e := by
  rw [Indexed.arrayOf, Registry.arrayOf_eq, h.getElem?_eq]
  cases x.registry.entries.findIdx? (· = .array e) with
  | some i => rfl
  | none => cases x.registry.kind e <;> rfl

theorem Noted.arrayOf (h : x.Noted) {e t : TypeId} {y : Indexed} (hy : x.arrayOf e = .ok (t, y)) :
    y.Noted := by
  unfold Indexed.arrayOf at hy
  cases hold : x.arrays[e]? with
  | some u =>
    rw [hold] at hy
    cases hy
    exact h
  | none =>
    rw [hold] at hy
    cases hk : x.registry.kind e with
    | error d =>
      rw [hk] at hy
      cases hy
    | ok k =>
      rw [hk] at hy
      cases hy
      intro e' u
      change (x.arrays.insert e (.derived x.registry.entries.size))[e']? = some u ↔
        (x.registry.push (.array e)).2.element u = .ok e'
      rw [element_push, Std.HashMap.getElem?_insert]
      by_cases he : e = e'
      · subst he
        have hnone : x.registry.element u ≠ .ok e := fun hu => by
          rw [(h e u).mpr hu] at hold
          cases hold
        simp [hnone, eq_comm]
      · simp [he, h e' u]

/-- A registry with a map answers as one without does. -/
theorem Noted.grant (h : x.Noted) (q : Request) :
    ((x.grant q).map fun (answer, y) => (answer, y.registry)) = x.registry.grant q ∧
      ∀ {answer y}, x.grant q = .ok (answer, y) → y.Noted := by
  by_cases hq : ∃ e, q = .arrayOf e
  · obtain ⟨e, rfl⟩ := hq
    refine ⟨?_, fun {answer y} hy => ?_⟩
    · rw [Registry.grant, ← h.arrayOf_eq, Indexed.grant]
      cases x.arrayOf e <;> rfl
    · obtain ⟨⟨t, z⟩, harray, hz⟩ := exists_of_map_eq_ok hy
      cases hz
      exact h.arrayOf harray
  · push Not at hq
    have hgrant : x.grant q =
        (x.registry.grant q).map fun (answer, registry) => (answer, { x with registry }) := by
      cases q with
      | arrayOf e => exact absurd rfl (hq e)
      | _ => rfl
    rw [hgrant]
    cases hr : x.registry.grant q with
    | error d => exact ⟨rfl, fun hy => by cases hy⟩
    | ok p =>
      refine ⟨rfl, fun hy => ?_⟩
      cases hy
      intro e t
      rw [h e t, element_of_grant hq hr]

/-- Whatever a registry that searches becomes, one with a map becomes as well. -/
theorem Noted.becomes_iff (h : x.Noted) :
    x.registry.Becomes s ↔ ∃ y, x.Becomes y ∧ y.registry = s ∧ y.Noted := by
  constructor
  · intro hs
    induction hs with
    | refl => exact ⟨x, .refl, rfl, h⟩
    | tail _ hstep ih =>
      obtain ⟨y, hy, rfl, hnoted⟩ := ih
      obtain ⟨q, answer, hgrant⟩ := step_iff.mp hstep
      obtain ⟨hsame, hkeeps⟩ := hnoted.grant q
      obtain ⟨⟨_, z⟩, hz, heq⟩ := exists_of_map_eq_ok (hsame.trans hgrant)
      cases heq
      exact ⟨z, hy.tail ⟨q, answer, hz⟩, rfl, hkeeps hz⟩
  · rintro ⟨y, hy, rfl, -⟩
    suffices y.Noted ∧ x.registry.Becomes y.registry from this.2
    induction hy with
    | refl => exact ⟨h, .refl⟩
    | tail _ hstep ih =>
      obtain ⟨q, answer, hgrant⟩ := hstep
      obtain ⟨hsame, hkeeps⟩ := ih.1.grant q
      rw [hgrant] at hsame
      exact ⟨hkeeps hgrant, ih.2.tail (step_iff.mpr ⟨q, answer, hsame.symm⟩)⟩

/-- The registries of compilations are those that a map is kept for. -/
theorem becomes_empty_iff :
    Registry.empty.Becomes s ↔ ∃ y, Indexed.empty.Becomes y ∧ y.registry = s ∧ y.Noted :=
  Noted.empty.becomes_iff

end Indexed
end Registry
end TypedScript
