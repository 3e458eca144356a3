import TypedScript.Proofs.Binding.Provenance
import TypedScript.Proofs.Bytecode.Codes
import TypedScript.Proofs.Machine.Natives

/-!
# The names of types

In modules types are known by their names. The name of an array type is that of its element type with
brackets behind it, so the names tell which values a type has.
-/

namespace TypedScript

@[simp] theorem Tag.ofTypeName_builtin (b : Builtin) : Tag.ofTypeName b.name = b.tag := by
  cases b <;> decide +kernel

def arrayName (element : String) : String := element ++ "[]"

theorem toList_arrayName (n : String) : (arrayName n).toList = n.toList ++ ['[', ']'] := by
  simp [arrayName]

theorem arrayName_injective {n m : String} (h : arrayName n = arrayName m) : n = m := by
  have hlists := congrArg String.toList h
  rw [toList_arrayName, toList_arrayName] at hlists
  exact String.toList_injective (List.append_cancel_right hlists)

theorem ne_arrayName {s : String} (h : s.toList.getLast? ≠ some ']') (n : String) :
    s ≠ arrayName n := by
  rintro rfl
  simp [toList_arrayName] at h

theorem builtin_ne_arrayName (b : Builtin) (n : String) : b.name ≠ arrayName n := by
  refine ne_arrayName ?_ n
  cases b <;> decide +kernel

@[simp] theorem Tag.ofTypeName_arrayName (n : String) : Tag.ofTypeName (arrayName n) = .reference := by
  have hlast : ∀ t ∈ Tag.scalars, t.name.toList.getLast? ≠ some ']' := by decide +kernel
  have hnone : (Tag.scalars.find? fun t => t.name == arrayName n) = .none := by
    rw [List.find?_eq_none]
    intro t ht heq
    exact ne_arrayName (hlast t ht) n (by simpa using heq)
  have hvoid : "void" ≠ arrayName n := builtin_ne_arrayName .void n
  have hempty : "" ≠ arrayName n := ne_arrayName (by decide) n
  simp [Tag.ofTypeName, hnone, hvoid.symm, hempty.symm]

theorem Builtin.name_injective {b c : Builtin} (h : b.name = c.name) : b = c := by
  revert h
  cases b <;> cases c <;> decide +kernel

inductive IsValueType : String → Prop
  | builtin {b : Builtin} : b ≠ .void → IsValueType b.name
  | array {n : String} : IsValueType n → IsValueType (arrayName n)

theorem IsValueType.ne_void {n : String} (h : IsValueType n) : n ≠ "void" := by
  cases h with
  | builtin hb => exact fun he => hb (Builtin.name_injective (c := .void) he)
  | array => exact (builtin_ne_arrayName .void _).symm

attribute [local simp] Registry.nameWithin

namespace Registry

variable {r : Registry}

/-- A name does not depend on how many steps are allowed, if there are enough. -/
theorem nameWithin_eq (hn : r.Nested) {fuel i : Nat} {t : TypeId}
    (hi : r.entries[i]? = some (.array t)) (hf : i < fuel) (hw : r.WellFormed) :
    r.nameWithin fuel (.derived i) = r.nameWithin (i + 1) (.derived i) := by
  induction i using Nat.strongRecOn generalizing fuel t with
  | _ i ih =>
    obtain ⟨fuel, rfl⟩ : ∃ k, fuel = k + 1 := ⟨fuel - 1, by omega⟩
    have helement : r.nameWithin fuel t = r.nameWithin i t := by
      cases t with
      | derived j =>
        have hj := hn i j hi
        obtain ⟨u, hu⟩ := (hw.array hi).1
        exact (ih j hj hu (by omega)).trans (ih j hj hu hj).symm
      | absent => exact (hw.array hi).1.elim
      | builtin b => simp
      | error => simp
    simp [hi, helement]

theorem name_element (hw : r.WellFormed) (hn : r.Nested) {t u : TypeId} (h : r.element t = .ok u)
    {n : String} (hu : r.name u = .ok n) : r.name t = .ok (arrayName n) := by
  rw [element_eq_ok] at h
  cases t with
  | derived i =>
    have hi : i < r.entries.size := (Array.getElem?_eq_some_iff.mp h).1
    have hinner : r.nameWithin r.entries.size u = .ok n := by
      rw [← hu, name]
      cases u with
      | derived j =>
        have hj := hn i j h
        obtain ⟨v, hv⟩ := (hw.array h).1
        exact (nameWithin_eq hn hv (by omega) hw).trans (nameWithin_eq hn hv (by omega) hw).symm
      | absent => exact (hw.array h).1.elim
      | builtin b => simp
      | error => simp
    simp [name, show r.entries[i]? = some (.array u) from h, hinner, Bind.bind,
      Except.bind, Pure.pure, Except.pure, arrayName]
  | _ => simp [get?] at h

end Registry

namespace Emission

variable {r : Registry}

@[simp] theorem typeName_builtin (b : Builtin) : typeName r (.builtin b) = .ok b.name := by
  simp [typeName, Registry.name]

theorem typeName_element (hw : r.WellFormed) (hn : r.Nested) {t u : TypeId}
    (h : r.element t = .ok u) :
    ∃ n, typeName r u = .ok n ∧ typeName r t = .ok (arrayName n) := by
  obtain ⟨ht, he, -⟩ := hw.isElement h
  obtain ⟨n, hname⟩ := exists_typeName hw ht he
  have hu : r.name u = .ok n := by
    simp only [typeName] at hname
    split at hname
    · cases hname
    · exact hname
  refine ⟨n, hname, ?_⟩
  cases t with
  | derived i => simpa [typeName] using Registry.name_element hw hn h hu
  | _ => simp [Registry.element, Registry.get?] at h

theorem typeName_array (hw : r.WellFormed) (hn : r.Nested) {t u : TypeId}
    (h : r.element t = .ok u) {n : String} (hu : typeName r u = .ok n) :
    typeName r t = .ok (arrayName n) := by
  obtain ⟨m, hm, harray⟩ := typeName_element hw hn h
  rw [hu, Except.ok.injEq] at hm
  rw [harray, hm]

/-- Types whose values exist have names that say so. -/
theorem isValueType_of_typeName (hw : r.WellFormed) (hn : r.Nested) {t : TypeId} {n : String}
    (ht : r.IsType t) (hv : t ≠ .builtin .void) (h : typeName r t = .ok n) : IsValueType n := by
  have hderived : ∀ i n, r.IsType (.derived i) → typeName r (.derived i) = .ok n → IsValueType n := by
    intro i
    induction i using Nat.strongRecOn with
    | _ i ih =>
      intro n ht h
      obtain ⟨u, hu⟩ := ht
      obtain ⟨m, hm, harray⟩ := typeName_element hw hn
        (show r.element (.derived i) = .ok u from Registry.element_eq_ok.mpr hu)
      obtain ⟨hut, hue, huv⟩ := hw.array hu
      rw [harray, Except.ok.injEq] at h
      subst h
      refine .array ?_
      cases u with
      | absent => exact hut.elim
      | error => exact absurd rfl hue
      | builtin b =>
        rw [typeName_builtin, Except.ok.injEq] at hm
        subst hm
        exact .builtin fun hb => huv (by rw [hb])
      | derived j => exact ih j (hn i j hu) m hut hm
  cases t with
  | absent => exact ht.elim
  | error => simp [typeName] at h
  | builtin b =>
    rw [typeName_builtin, Except.ok.injEq] at h
    subst h
    exact .builtin fun hb => hv (by rw [hb])
  | derived i => exact hderived i n ht h

end Emission

end TypedScript
