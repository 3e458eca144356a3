import TypedScript.Proofs.Types.Names

/-!
# The values of types

The machine keeps no types at run time, but each value is represented as those of its static type are:
integers are within the range of their width, a reference is null or leads to an array whose elements
have the type that its name says, and an object is null or a value with the name of its own type.
-/

namespace TypedScript

theorem Builtin.isSigned_tag (b : Builtin) : b.tag.isSigned = b.isSigned := by
  cases b <;> rfl

theorem Builtin.isUnsigned_tag (b : Builtin) : b.tag.isUnsigned = b.isUnsigned := by
  cases b <;> rfl

theorem Builtin.isFloat_tag (b : Builtin) : b.tag.isFloat = b.isFloat := by
  cases b <;> rfl

theorem Builtin.bits_tag {b : Builtin} (h : b.isInteger) : b.tag.bits = b.bits := by
  revert h
  cases b <;> decide

/-- A value is represented as those of a type, which is given by its name. -/
def Value.Has (heap : Heap) : Value → String → Prop
  | .null, t => Tag.ofTypeName t = .reference
  | .int v, t => (Tag.ofTypeName t).isSigned ∧ Literal.fitsSigned v (Tag.ofTypeName t).bits
  | .uint v, t => (Tag.ofTypeName t).isUnsigned ∧ Literal.fitsUnsigned v.toNat (Tag.ofTypeName t).bits
  | .float _, t => (Tag.ofTypeName t).isFloat
  | .bool _, t => Tag.ofTypeName t = .bool
  | .char _, t => Tag.ofTypeName t = .char
  | .string _, t => Tag.ofTypeName t = .string
  | .array ref, t => ∃ a, heap[ref]? = some a ∧ t = arrayName a.element
  | .boxed _ type content, t => t = Builtin.object.name ∧ content.Has heap type

attribute [local simp] Value.Has

namespace Value

/-- Variables and elements of a type start with one of its values. -/
theorem zero_has (heap : Heap) {t : String} (h : IsValueType t) : (zero t).Has heap t := by
  cases h with
  | @builtin b hb =>
    unfold zero
    rw [Tag.ofTypeName_builtin]
    cases b with
    | void => exact absurd rfl hb
    | _ =>
      simp [Builtin.tag, Tag.isSigned, Tag.isUnsigned, Tag.isFloat, Tag.bits,
        Literal.fitsSigned, Literal.fitsUnsigned]
  | array hn => simp [zero]

theorem int_has (heap : Heap) {b : Builtin} {v : Int64} (hb : b.isSigned)
    (hv : Literal.fitsSigned v b.bits) : (int v).Has heap b.name := by
  have hbits := Builtin.bits_tag (b := b) (by simp [Builtin.isInteger, hb])
  simp [Builtin.isSigned_tag, hb, hbits, hv]

theorem uint_has (heap : Heap) {b : Builtin} {v : UInt64} (hb : b.isUnsigned)
    (hv : Literal.fitsUnsigned v.toNat b.bits) : (uint v).Has heap b.name := by
  have hbits := Builtin.bits_tag (b := b) (by simp [Builtin.isInteger, hb])
  simp [Builtin.isUnsigned_tag, hb, hbits, hv]

theorem float_has (heap : Heap) {b : Builtin} (hb : b.isFloat) (v : Double) :
    (float v).Has heap b.name := by
  simp [Builtin.isFloat_tag, hb]

end Value

/-- The constant of a literal is a value of its type. -/
theorem Emission.constantOf_has (heap : Heap) {r : Registry} (hw : r.WellFormed) (hn : r.Nested)
    {c : Typing} (hc : c.registry = r) {v : Option Literal} {t : TypeId}
    (h : (Flat.Expr.literal v t).Typed c) {n : String} (hname : typeName r t = .ok n) :
    (constantOf v t).value.Has heap n := by
  subst hc
  obtain ⟨ht, he, hv, hfits, hnone⟩ := h
  cases v with
  | none =>
    have hscalar := hnone rfl
    cases t with
    | absent => exact ht.elim
    | error => exact absurd rfl he
    | builtin b =>
      rw [typeName_builtin, Except.ok.injEq] at hname
      subst hname
      cases b with
      | object => simp [constantOf, Constant.value, Constant.null, Builtin.tag]
      | void => exact absurd rfl hv
      | _ => simp [TypeId.satisfies, Builtin.isScalar] at hscalar
    | derived i =>
      obtain ⟨u, hu⟩ := ht
      obtain ⟨m, -, harray⟩ := typeName_element hw hn
        (show c.registry.element (.derived i) = .ok u from Registry.element_eq_ok.mpr hu)
      rw [harray, Except.ok.injEq] at hname
      subst hname
      simp [constantOf, Constant.value, Constant.null]
  | some l =>
    have hl := hfits l rfl
    obtain ⟨b, rfl, -⟩ := hl.exists_builtin
    rw [typeName_builtin, Except.ok.injEq] at hname
    subst hname
    cases l with
    | int v =>
      have hunsigned : b.isUnsigned = false ∧ b.isFloat = false := by
        have hb : b.isSigned := hl.1
        revert hb
        cases b <;> decide
      simpa [constantOf, TypeId.isUnsigned, TypeId.isFloat, TypeId.satisfies, hunsigned,
        Constant.value, Constant.int] using Value.int_has heap hl.1 hl.2
    | uint v =>
      have hsigned : b.isSigned = false ∧ b.isFloat = false := by
        have hb : b.isUnsigned := hl.1
        revert hb
        cases b <;> decide
      simpa [constantOf, TypeId.isSigned, TypeId.isFloat, TypeId.satisfies, hsigned,
        Constant.value, Constant.uint] using Value.uint_has heap hl.1 hl.2
    | float v => exact Value.float_has heap hl _
    | bool v =>
      cases hl
      simp [constantOf, Constant.value, Constant.bool, Builtin.tag]
    | char v =>
      cases hl
      simp [constantOf, Constant.value, Constant.char, Builtin.tag]
    | string v =>
      cases hl
      simp [constantOf, Constant.value, Constant.string, Builtin.tag]

end TypedScript
