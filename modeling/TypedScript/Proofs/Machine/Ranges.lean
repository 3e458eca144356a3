import Mathlib.Tactic.Linarith
import Mathlib.Tactic.NormNum
import Mathlib.Tactic.Positivity
import TypedScript.Machine.Arithmetic
import TypedScript.Proofs.Machine.Values

/-!
# Arithmetic keeps to the ranges of types

Operators on values of a type give values of the type that the result is said to have, integers within
its range. They fail only if a divisor is zero or a shift count negative.
-/

namespace TypedScript

/-- Causes that a program of which the types make sense can still come to. -/
def Cause.isExpected : Cause → Bool
  | stackOverflow _ | divisionByZero | negativeShift _ | unboxFailed _ _ | indexOutOfRange _ _ => true
  | indexOfNull | negativeSize _ | lengthOfNull | unreadable _ _ _ | emptyRange _ _ _ => true
  | _ => false

namespace Arithmetic

/-- A signed integer within a range keeps its value when it is cut to the width of the range. -/
theorem bmod_eq_self_iff {v : Int} {k : Nat} (hk : 0 < k) :
    v.bmod (2 * k) = v ↔ -(k : Int) ≤ v ∧ v < k := by
  constructor
  · intro h
    have hlow := @Int.le_bmod v (2 * k) (by omega)
    have hhigh := @Int.bmod_lt v (2 * k) (by omega)
    rw [h] at hlow hhigh
    omega
  · rintro ⟨hlow, hhigh⟩
    exact Int.bmod_eq_of_le (by omega) (by omega)

theorem fitsSigned_eq_true {v : Int64} {bits : Nat} : Literal.fitsSigned v bits ↔
    64 ≤ bits ∨ -(2 ^ (bits - 1) : Int) ≤ v.toInt ∧ v.toInt < 2 ^ (bits - 1) := by
  have hpow : ((Nat.pow 2 (bits - 1) : Nat) : Int) = 2 ^ (bits - 1) := by
    exact_mod_cast rfl
  rw [Literal.fitsSigned, Bool.or_eq_true, Bool.and_eq_true, decide_eq_true_iff, decide_eq_true_iff,
    decide_eq_true_iff, hpow]

theorem fitsUnsigned_eq_true {v bits : Nat} : Literal.fitsUnsigned v bits ↔ 64 ≤ bits ∨ v < 2 ^ bits := by
  rw [Literal.fitsUnsigned, Bool.or_eq_true, decide_eq_true_iff, decide_eq_true_iff]
  rfl

/-- A signed integer is within the range of a tag exactly if it stays the same when it is cut to its
width. -/
theorem fitsSigned_iff {t : Tag} (ht : t.isSigned) (v : Int64) :
    Literal.fitsSigned v t.bits ↔ wrapSigned t v = v := by
  rw [← Int64.toInt_inj, fitsSigned_eq_true]
  cases t with
  | i8 =>
    rw [wrapSigned, Int8.toInt_toInt64, Int64.toInt_toInt8]
    have h := @bmod_eq_self_iff v.toInt 128 (by decide)
    simpa [Tag.bits] using h.symm
  | i16 =>
    rw [wrapSigned, Int16.toInt_toInt64, Int64.toInt_toInt16]
    have h := @bmod_eq_self_iff v.toInt 32768 (by decide)
    simpa [Tag.bits] using h.symm
  | i32 =>
    rw [wrapSigned, Int32.toInt_toInt64, Int64.toInt_toInt32]
    have h := @bmod_eq_self_iff v.toInt 2147483648 (by decide)
    simpa [Tag.bits] using h.symm
  | i64 => simp [Tag.bits, wrapSigned]
  | _ => cases ht

theorem fitsSigned_wrapSigned {t : Tag} (ht : t.isSigned) (v : Int64) :
    Literal.fitsSigned (wrapSigned t v) t.bits := by
  rw [fitsSigned_iff ht]
  cases t <;> simp [wrapSigned]

theorem fitsUnsigned_wrapUnsigned {t : Tag} (ht : t.isUnsigned) (v : UInt64) :
    Literal.fitsUnsigned (wrapUnsigned t v).toNat t.bits := by
  cases t with
  | u8 => simpa [Literal.fitsUnsigned, Tag.bits, wrapUnsigned] using Nat.mod_lt _ (by decide)
  | u16 => simpa [Literal.fitsUnsigned, Tag.bits, wrapUnsigned] using Nat.mod_lt _ (by decide)
  | u32 => simpa [Literal.fitsUnsigned, Tag.bits, wrapUnsigned] using Nat.mod_lt _ (by decide)
  | u64 => simp [Literal.fitsUnsigned, Tag.bits]
  | _ => cases ht

section

variable {t : Tag} {x y : Int64}

theorem wrapSigned_and (t : Tag) (x y : Int64) :
    wrapSigned t (x &&& y) = wrapSigned t x &&& wrapSigned t y := by
  cases t <;> simp [wrapSigned]

theorem wrapSigned_or (t : Tag) (x y : Int64) :
    wrapSigned t (x ||| y) = wrapSigned t x ||| wrapSigned t y := by
  cases t <;> simp [wrapSigned]

theorem wrapSigned_xor (t : Tag) (x y : Int64) :
    wrapSigned t (x ^^^ y) = wrapSigned t x ^^^ wrapSigned t y := by
  cases t <;> simp [wrapSigned]

/-- The complement of an integer is as far from minus one half as the integer itself. -/
theorem fitsSigned_not (hx : Literal.fitsSigned x t.bits) : Literal.fitsSigned (~~~x) t.bits := by
  rw [fitsSigned_eq_true] at hx ⊢
  have hlow := x.le_toInt
  have hhigh := x.toInt_lt
  rw [Int64.toInt_not, Int.bmod_eq_of_le (by norm_num; omega) (by norm_num; omega)]
  omega

theorem toInt_shiftRight (x : Int64) {count : Nat} (h : count < 64) :
    (x >>> Int64.ofNat count).toInt = x.toInt / 2 ^ count := by
  have hcount : ∀ count < 64, (BitVec.smod (Int64.ofNat count).toBitVec 64).toNat = count := by
    decide
  rw [← Int64.toInt_toBitVec, Int64.toBitVec_shiftRight, BitVec.sshiftRight', hcount count h,
    BitVec.toInt_sshiftRight, Int64.toInt_toBitVec, Int.shiftRight_eq_div_pow]
  norm_cast

/-- A shift to the right brings an integer nearer to zero or to minus one. -/
theorem fitsSigned_shiftRight (hx : Literal.fitsSigned x t.bits) (count : Nat) :
    Literal.fitsSigned (shiftRightSigned x count) t.bits := by
  have hpow : (0 : Int) < 2 ^ (t.bits - 1) := by positivity
  have hnear : ∀ y : Int64, (0 ≤ x.toInt → 0 ≤ y.toInt ∧ y.toInt ≤ x.toInt) →
      (x.toInt < 0 → x.toInt ≤ y.toInt ∧ y.toInt < 0) → Literal.fitsSigned y t.bits := by
    intro y hpos hneg
    rw [fitsSigned_eq_true] at hx ⊢
    omega
  unfold shiftRightSigned
  by_cases hcount : count < 64
  · rw [if_pos hcount]
    have hdiv := toInt_shiftRight x hcount
    have hdpow : (0 : Int) < 2 ^ count := by positivity
    refine hnear _ (fun hpos => ?_) fun hneg => ?_
    · rw [hdiv]
      exact ⟨Int.ediv_nonneg hpos hdpow.le, Int.ediv_le_self _ hpos⟩
    · rw [hdiv]
      refine ⟨?_, Int.ediv_neg_of_neg_of_pos hneg hdpow⟩
      rw [Int.le_ediv_iff_mul_le hdpow]
      nlinarith
  · rw [if_neg hcount]
    by_cases hneg : x < 0
    · rw [if_pos hneg]
      have hneg' : x.toInt < 0 := Int64.lt_iff_toInt_lt.mp hneg
      refine hnear _ (fun hpos => by omega) fun _ => ⟨?_, by decide⟩
      change x.toInt ≤ -1
      omega
    · rw [if_neg hneg]
      have hpos : ¬x.toInt < 0 := fun h => hneg (Int64.lt_iff_toInt_lt.mpr h)
      refine hnear _ (fun h => ⟨by decide, h⟩) fun h => absurd h hpos

end

section

variable {t : Tag} {x y : UInt64}

theorem fitsUnsigned_of_le (h : Literal.fitsUnsigned x.toNat t.bits) {n : Nat} (hn : n ≤ x.toNat) :
    Literal.fitsUnsigned n t.bits := by
  rw [fitsUnsigned_eq_true] at h ⊢
  exact h.imp_right (Nat.lt_of_le_of_lt hn)

theorem fitsUnsigned_or (hx : Literal.fitsUnsigned x.toNat t.bits)
    (hy : Literal.fitsUnsigned y.toNat t.bits) :
    Literal.fitsUnsigned (x ||| y).toNat t.bits ∧ Literal.fitsUnsigned (x ^^^ y).toNat t.bits := by
  simp only [fitsUnsigned_eq_true, UInt64.toNat_or, UInt64.toNat_xor] at hx hy ⊢
  rcases hx with hx | hx
  · exact ⟨.inl hx, .inl hx⟩
  · rcases hy with hy | hy
    · exact ⟨.inl hy, .inl hy⟩
    · exact ⟨.inr (Nat.or_lt_two_pow hx hy), .inr (Nat.xor_lt_two_pow hx hy)⟩

theorem toNat_shiftRight_le (x : UInt64) (count : Nat) : (shiftRight x count).toNat ≤ x.toNat := by
  unfold shiftRight
  split
  · rw [UInt64.toNat_shiftRight]
    exact Nat.shiftRight_le _ _
  · exact Nat.zero_le _

end

end Arithmetic

theorem Tag.not_isUnsigned {t : Tag} (h : t.isSigned) : t.isUnsigned = false := by
  revert h
  cases t <;> decide

theorem Tag.not_isFloat {t : Tag} (h : t.isSigned ∨ t.isUnsigned) : t.isFloat = false := by
  revert h
  cases t <;> decide

namespace Value

/-- How the values of built-in types are represented. -/
inductive Represents (heap : Heap) : Builtin → Value → Prop
  | int {b : Builtin} {x : Int64} : b.tag.isSigned → Literal.fitsSigned x b.tag.bits →
    Represents heap b (.int x)
  | uint {b : Builtin} {x : UInt64} : b.tag.isUnsigned → Literal.fitsUnsigned x.toNat b.tag.bits →
    Represents heap b (.uint x)
  | float {b : Builtin} (x : Double) : b.tag.isFloat → Represents heap b (.float x)
  | bool (x : Bool) : Represents heap .bool (.bool x)
  | char (x : Int32) : Represents heap .char (.char x)
  | string (x : String) : Represents heap .string (.string x)
  | null : Represents heap .object .null
  | boxed {id : Nat} {type : String} {content : Value} : content.Has heap type →
    Represents heap .object (.boxed id type content)

variable {heap : Heap} {v : Value} {b : Builtin}

theorem has_builtin_iff : v.Has heap b.name ↔ Represents heap b v := by
  constructor
  · intro h
    cases v with
    | array ref =>
      obtain ⟨a, -, ha⟩ := h
      exact absurd ha (builtin_ne_arrayName b _)
    | boxed id type content =>
      obtain rfl := Builtin.name_injective h.1
      exact .boxed h.2
    | int x =>
      simp only [Has, Tag.ofTypeName_builtin] at h
      exact .int h.1 h.2
    | uint x =>
      simp only [Has, Tag.ofTypeName_builtin] at h
      exact .uint h.1 h.2
    | float x =>
      simp only [Has, Tag.ofTypeName_builtin] at h
      exact .float x h
    | null | bool x | char x | string x =>
      simp only [Has, Tag.ofTypeName_builtin] at h
      cases b <;> cases h
      constructor
  · intro h
    cases h with
    | int hb hx => simp [Has, hb, hx]
    | uint hb hx => simp [Has, hb, hx]
    | float x hb => simp [Has, hb]
    | bool | char | string | null => simp [Has, Builtin.tag]
    | boxed hcontent => exact ⟨rfl, hcontent⟩

namespace Represents

theorem exists_int (h : Represents heap b v) (hb : b.tag.isSigned) :
    ∃ x, v = .int x ∧ Literal.fitsSigned x b.tag.bits := by
  cases h with
  | int _ hx => exact ⟨_, rfl, hx⟩
  | uint hu => simp [Tag.not_isUnsigned hb] at hu
  | float x hf => simp [Tag.not_isFloat (.inl hb)] at hf
  | _ => cases hb

theorem exists_uint (h : Represents heap b v) (hb : b.tag.isUnsigned) :
    ∃ x, v = .uint x ∧ Literal.fitsUnsigned x.toNat b.tag.bits := by
  cases h with
  | int hs => simp [Tag.not_isUnsigned hs] at hb
  | uint _ hx => exact ⟨_, rfl, hx⟩
  | float x hf => simp [Tag.not_isFloat (.inr hb)] at hf
  | _ => cases hb

theorem exists_float (h : Represents heap b v) (hb : b.tag.isFloat) : ∃ x, v = .float x := by
  cases h with
  | int hs => simp [Tag.not_isFloat (.inl hs)] at hb
  | uint hu => simp [Tag.not_isFloat (.inr hu)] at hb
  | float x => exact ⟨x, rfl⟩
  | _ => cases hb

theorem exists_bool (h : Represents heap .bool v) : ∃ x, v = .bool x := by
  cases h with
  | int hb | uint hb | float _ hb => cases hb
  | bool x => exact ⟨x, rfl⟩

theorem exists_char (h : Represents heap .char v) : ∃ x, v = .char x := by
  cases h with
  | int hb | uint hb | float _ hb => cases hb
  | char x => exact ⟨x, rfl⟩

theorem exists_string (h : Represents heap .string v) : ∃ x, v = .string x := by
  cases h with
  | int hb | uint hb | float _ hb => cases hb
  | string x => exact ⟨x, rfl⟩

end Represents

/-- A value of an array type is null or leads to an array of that type. -/
theorem has_array_iff {t : String} : v.Has heap (arrayName t) ↔
    v = .null ∨ ∃ ref a, v = .array ref ∧ heap[ref]? = some a ∧ a.element = t := by
  cases v with
  | array ref =>
    constructor
    · rintro ⟨a, ha, ht⟩
      exact .inr ⟨ref, a, rfl, ha, (arrayName_injective ht).symm⟩
    · rintro (h | ⟨ref', a, h, ha, rfl⟩)
      · cases h
      · cases h
        exact ⟨a, ha, rfl⟩
  | boxed id type content =>
    refine ⟨fun h => absurd h.1.symm (builtin_ne_arrayName .object t), ?_⟩
    rintro (h | ⟨_, _, h, _⟩) <;> cases h
  | _ => simp [Has, Tag.isSigned, Tag.isUnsigned, Tag.isFloat]

end Value

namespace Arithmetic

variable {heap : Heap} {b : Builtin}

def Yields (heap : Heap) (t : Builtin) : Except Cause Value → Prop
  | .ok v => v.Represents heap t
  | .error c => c.isExpected

theorem signed_yields {op : BinaryOperator} {o : Operation} {negated : Bool}
    (hop : Emission.operation? op = some (o, negated)) (hb : b.tag.isSigned) {x y : Int64}
    (hx : Literal.fitsSigned x b.tag.bits) (hy : Literal.fitsSigned y b.tag.bits) :
    Yields heap (if op.isComparison then .bool else b) (signed o b.tag x y) := by
  have hwrapped : ∀ v, Value.Represents heap b (.int (wrapSigned b.tag v)) :=
    fun v => .int hb (fitsSigned_wrapSigned hb v)
  rw [fitsSigned_iff hb] at hx hy
  cases op <;> cases hop
  case add | sub | mul => exact hwrapped _
  case div =>
    change Yields heap b (if y = 0 then _ else _)
    split
    · rfl
    · exact hwrapped _
  case rem =>
    change Yields heap b (if y = 0 then _ else _)
    split
    · rfl
    · exact hwrapped _
  case and =>
    change Value.Represents heap b _
    exact .int hb (by rw [fitsSigned_iff hb, wrapSigned_and, hx, hy])
  case or =>
    change Value.Represents heap b _
    exact .int hb (by rw [fitsSigned_iff hb, wrapSigned_or, hx, hy])
  case xor =>
    change Value.Represents heap b _
    exact .int hb (by rw [fitsSigned_iff hb, wrapSigned_xor, hx, hy])
  case shiftLeft =>
    change Yields heap b (if y < 0 then _ else _)
    split
    · rfl
    · exact hwrapped _
  case shiftRight =>
    change Yields heap b (if y < 0 then _ else _)
    split
    · rfl
    · exact .int hb (fitsSigned_shiftRight ((fitsSigned_iff hb x).mpr hx) _)
  all_goals exact .bool _

theorem unsigned_yields {op : BinaryOperator} {o : Operation} {negated : Bool}
    (hop : Emission.operation? op = some (o, negated)) (hb : b.tag.isUnsigned) {x y : UInt64}
    (hx : Literal.fitsUnsigned x.toNat b.tag.bits) (hy : Literal.fitsUnsigned y.toNat b.tag.bits) :
    Yields heap (if op.isComparison then .bool else b) (unsigned o b.tag x y) := by
  have hwrapped : ∀ v, Value.Represents heap b (.uint (wrapUnsigned b.tag v)) :=
    fun v => .uint hb (fitsUnsigned_wrapUnsigned hb v)
  have hle : ∀ v : UInt64, v.toNat ≤ x.toNat → Value.Represents heap b (.uint v) :=
    fun v hv => .uint hb (fitsUnsigned_of_le hx hv)
  cases op <;> cases hop
  case add | sub | mul | shiftLeft => exact hwrapped _
  case div =>
    change Yields heap b (if y = 0 then _ else _)
    split
    · rfl
    · exact hle _ (Nat.div_le_self _ _)
  case rem =>
    change Yields heap b (if y = 0 then _ else _)
    split
    · rfl
    · exact hle _ (Nat.mod_le _ _)
  case and => exact hle _ (by rw [UInt64.toNat_and]; exact Nat.and_le_left)
  case or =>
    change Value.Represents heap b _
    exact .uint hb (fitsUnsigned_or hx hy).1
  case xor =>
    change Value.Represents heap b _
    exact .uint hb (fitsUnsigned_or hx hy).2
  case shiftRight => exact hle _ (toNat_shiftRight_le x _)
  all_goals exact .bool _

theorem float_yields {op : BinaryOperator} {o : Operation} {negated : Bool}
    (hop : Emission.operation? op = some (o, negated)) (hb : b ∈ Intrinsics.operands op)
    (hf : b.tag.isFloat) (x y : Double) :
    Yields heap (if op.isComparison then .bool else b) (float o b.tag x y) := by
  have hrounded : ∀ v, Value.Represents heap b (.float (roundTo b.tag v)) := fun v => .float _ hf
  cases op <;> cases hop
  case add | sub | mul | div | rem => exact hrounded _
  case and | or | xor | shiftLeft | shiftRight =>
    cases b <;> first | exact absurd hb (by decide) | cases hf
  all_goals exact .bool _

theorem binary_int {t : Tag} (ht : t.isSigned) (o : Operation) (x y : Int64) :
    binary o t (.int x) (.int y) = signed o t x y := by
  cases t <;> first | rfl | cases ht

theorem binary_uint {t : Tag} (ht : t.isUnsigned) (o : Operation) (x y : UInt64) :
    binary o t (.uint x) (.uint y) = unsigned o t x y := by
  cases t <;> first | rfl | cases ht

theorem binary_float {t : Tag} (ht : t.isFloat) (o : Operation) (x y : Double) :
    binary o t (.float x) (.float y) = float o t x y := by
  cases t <;> first | rfl | cases ht

/-- A binary operator on operands of one of its types. -/
theorem binary_yields {op : BinaryOperator} {o : Operation} {negated : Bool}
    (hop : Emission.operation? op = some (o, negated)) (hb : b ∈ Intrinsics.operands op)
    {x y : Value} (hx : x.Represents heap b) (hy : y.Represents heap b) :
    Yields heap (if op.isComparison then .bool else b) (binary o b.tag x y) := by
  cases hx with
  | int hs hx =>
    obtain ⟨y, rfl, hfits⟩ := hy.exists_int hs
    rw [binary_int hs]
    exact signed_yields hop hs hx hfits
  | uint hu hx =>
    obtain ⟨y, rfl, hfits⟩ := hy.exists_uint hu
    rw [binary_uint hu]
    exact unsigned_yields hop hu hx hfits
  | float x hf =>
    obtain ⟨y, rfl⟩ := hy.exists_float hf
    rw [binary_float hf]
    exact float_yields hop hb hf x y
  | bool x =>
    obtain ⟨y, rfl⟩ := hy.exists_bool
    cases op <;> cases hop <;> first | exact .bool _ | exact absurd hb (by decide)
  | char x =>
    obtain ⟨y, rfl⟩ := hy.exists_char
    cases op <;> cases hop <;> first | exact .bool _ | exact absurd hb (by decide)
  | string | null | boxed => cases op <;> exact absurd hb (by decide)

theorem negate_yields (hb : b ∈ Intrinsics.operand .negate) {v : Value} (hv : v.Represents heap b) :
    Yields heap b (unary .neg b.tag v) := by
  cases hv with
  | int hs => exact .int hs (fitsSigned_wrapSigned hs _)
  | float x hf => exact .float _ hf
  | uint hu => cases b <;> first | exact absurd hb (by decide) | cases hu
  | _ => exact absurd hb (by decide)

theorem complement_yields (hb : b ∈ Intrinsics.operand .complement) {v : Value}
    (hv : v.Represents heap b) : Yields heap b (unary .compl b.tag v) := by
  cases hv with
  | int hs hx => exact .int hs (fitsSigned_not hx)
  | uint hu => exact .uint hu (fitsUnsigned_wrapUnsigned hu _)
  | float x hf => cases b <;> first | exact absurd hb (by decide) | cases hf
  | _ => exact absurd hb (by decide)

/-- Numbers and characters can be converted to each other. -/
theorem convert_yields {c : Builtin} (hb : b.isNumberLike) (hc : c.isNumberLike) (source : Tag)
    {v : Value} (hv : v.Represents heap b) : ∃ x, convert source c.tag v = .ok x ∧
      x.Represents heap c := by
  have hviews : ∃ w, views? v = some w := by
    cases hv with
    | int | uint | float | char => exact ⟨_, rfl⟩
    | _ => exact absurd hb (by decide)
  obtain ⟨w, hw⟩ := hviews
  unfold convert
  rw [hw]
  cases c with
  | i8 | i16 | i32 | i64 => exact ⟨_, rfl, .int rfl (fitsSigned_wrapSigned rfl _)⟩
  | u8 | u16 | u32 | u64 => exact ⟨_, rfl, .uint rfl (fitsUnsigned_wrapUnsigned rfl _)⟩
  | f32 | f64 => exact ⟨_, rfl, .float _ rfl⟩
  | char => exact ⟨_, rfl, .char _⟩
  | _ => exact absurd hc (by decide)

end Arithmetic
end TypedScript
