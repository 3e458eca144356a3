import TypedScript.Bytecode.Emission
import TypedScript.Proofs.Machine.Integers
import TypedScript.Proofs.Number.Rounding

/-!
# Literals keep their number

An integer literal that takes on the type expected of it is written into the code as a constant of that
type. If that is an integer type, its range holds the number and the constant is the number. A
floating-point type takes every integer literal: the constant is the number exactly if the type holds
it, and a number near it otherwise.
-/

namespace TypedScript

/-- The number is an integer of at most `precision` bits times a power of two. -/
def BinaryFormat.Holds (f : BinaryFormat) (n : Int) : Prop :=
  ∃ m k : Int, (n : ℚ) = m * 2 ^ k ∧ |m| ≤ 2 ^ f.precision

namespace Builtin

def format? : Builtin → Option BinaryFormat
  | f32 => some .single
  | f64 => some .double
  | _ => none

/-- The number is exactly one of the type. -/
def Holds (b : Builtin) (n : Int) : Prop :=
  match b.format? with
  | some f => f.Holds n
  | none => b.isInteger ∧ b.tag.InRange n

theorem holds_iff_of_isInteger {b : Builtin} (hb : b.isInteger) {n : Int} :
    b.Holds n ↔ b.tag.InRange n := by
  have hformat : b.format? = none := by
    revert hb
    cases b <;> decide
  simp [Holds, hformat, hb]

end Builtin

/-- The number that an integer literal is written for. -/
def Literal.integer? : Literal → Option Int
  | .int v => some v.toInt
  | .uint v => some v.toNat
  | _ => none

/-- A value of a numeric type is exactly a number. -/
inductive Value.IsNumber (b : Builtin) (n : Int) : Value → Prop
  | integer {v : Value} : v.Denotes b.tag n → IsNumber b n v
  | float {x : Double} : b.isFloat → x.isFinite → x.toRat = n → IsNumber b n (.float x)

namespace Double

theorem natAbs_eq (n : Int) : (n.natAbs : ℚ) = if n < 0 then -(n : ℚ) else n := by
  rw [Nat.cast_natAbs, Int.cast_abs]
  split
  · rename_i h
    exact abs_of_neg (by exact_mod_cast h)
  · rename_i h
    exact abs_of_nonneg (by exact_mod_cast not_lt.mp h)

/-- An integer that a format holds has a natural number as its significand, and no fraction. -/
theorem exists_of_holds {f : BinaryFormat} {n : Int} (h : f.Holds n) : ∃ k j : Nat,
    k ≤ 2 ^ f.precision ∧ (n.natAbs : ℚ) = k * 2 ^ (j : Int) := by
  obtain ⟨m, k, hn, hm⟩ := h
  have habs : (n.natAbs : ℚ) = m.natAbs * 2 ^ k := by
    rw [Nat.cast_natAbs, Nat.cast_natAbs, Int.cast_abs, Int.cast_abs, hn, abs_mul,
      abs_of_pos (show (0 : ℚ) < 2 ^ k by positivity)]
  have hm' : m.natAbs ≤ 2 ^ f.precision := by
    zify
    exact hm
  rcases le_or_gt 0 k with hk | hk
  · refine ⟨m.natAbs, k.toNat, hm', ?_⟩
    rw [habs, Int.toNat_of_nonneg hk]
  · refine ⟨n.natAbs, 0, le_trans ?_ hm', by simp⟩
    have hle : (n.natAbs : ℚ) ≤ m.natAbs := by
      rw [habs]
      exact mul_le_of_le_one_right (by positivity) (zpow_le_one_of_nonpos₀ one_le_two hk.le)
    exact_mod_cast hle

/-- A number that is the integer and has the form in which a format holds numbers. -/
theorem holds_of_toRat {f : BinaryFormat} {negative : Bool} {n : Int} {k : Nat} {j : Int}
    (hk : k ≤ 2 ^ f.precision) (h : (n : ℚ) = if negative then -(k * 2 ^ j : ℚ) else k * 2 ^ j) :
    f.Holds n := by
  have hk' : |(k : Int)| ≤ 2 ^ f.precision := by
    rw [Nat.abs_cast]
    exact_mod_cast hk
  cases negative with
  | true => exact ⟨-k, j, by simpa using h, by rwa [abs_neg]⟩
  | false => exact ⟨k, j, by simpa using h, hk'⟩

/-- An integer that a format holds is rounded to itself. -/
theorem ofRatio_of_holds {f : BinaryFormat} (hf : f.InDouble) (hleast : f.leastExponent ≤ 0)
    {n : Int} (h : f.Holds n) (hsmall : n.natAbs < 2 ^ f.limit) (negative : Bool) {num den : Nat}
    (hden : 0 < den) (hratio : (num : ℚ) / den = n.natAbs) :
    (ofRatio f negative num den).isFinite ∧
      (ofRatio f negative num den).toRat = if negative then -(n.natAbs : ℚ) else n.natAbs := by
  obtain ⟨k, j, hk, hn⟩ := exists_of_holds h
  rw [← hratio]
  refine ofRatio_exact hf negative hden (hratio.trans hn) hk (hleast.trans (Int.natCast_nonneg j)) ?_
  rw [hratio]
  exact_mod_cast hsmall

theorem abs_toRat (x : Double) : |x.toRat| = x.magnitude.toRat := by
  have hpos : 0 ≤ x.magnitude.toRat := by
    unfold Scaled.toRat
    positivity
  unfold toRat
  split
  · rw [abs_neg, abs_of_nonneg hpos]
  · exact abs_of_nonneg hpos

/-- An integer literal becomes exactly its number in double precision if that holds the number. -/
theorem ofInt_exact_iff {n : Int} (hsmall : n.natAbs < 2 ^ 65) :
    (ofInt n).isFinite ∧ (ofInt n).toRat = n ↔ BinaryFormat.double.Holds n := by
  constructor
  · rintro ⟨hfinite, hrat⟩
    obtain ⟨k, j, hk, hkj⟩ := exists_of_isFinite_ofRatio BinaryFormat.double_inDouble _
      Nat.one_pos hfinite
    exact holds_of_toRat hk (hrat.symm.trans hkj)
  · intro h
    obtain ⟨hfinite, hrat⟩ := ofRatio_of_holds BinaryFormat.double_inDouble (by decide) h
      (hsmall.trans_le (Nat.pow_le_pow_right (by decide) (by decide))) (decide (n < 0)) Nat.one_pos
      (show (n.natAbs : ℚ) / (1 : Nat) = n.natAbs by simp)
    refine ⟨hfinite, hrat.trans ?_⟩
    rw [natAbs_eq]
    by_cases hneg : n < 0 <;> simp [hneg]

theorem holds_double_of_single {n : Int} (h : BinaryFormat.single.Holds n) :
    BinaryFormat.double.Holds n := by
  obtain ⟨m, k, hn, hm⟩ := h
  exact ⟨m, k, hn, hm.trans (by decide)⟩

/-- It becomes exactly its number in single precision, through double precision, if that holds the
number. -/
theorem toSingle_ofInt_exact_iff {n : Int} (hsmall : n.natAbs < 2 ^ 65) :
    (ofInt n).toSingle.isFinite ∧ (ofInt n).toSingle.toRat = n ↔ BinaryFormat.single.Holds n := by
  have hsingle : (ofInt n).isFinite → (ofInt n).toSingle = ofRatio .single (ofInt n).isNegative
      (ofInt n).magnitude.ratio.1 (ofInt n).magnitude.ratio.2 := by
    intro h
    simp only [isFinite, Bool.and_eq_true, Bool.not_eq_true'] at h
    simp [toSingle, h.1, h.2]
  obtain ⟨hden, hratio⟩ := (ofInt n).magnitude.ratio_eq
  constructor
  · rintro ⟨hfinite, hrat⟩
    by_cases h : (ofInt n).isFinite
    · rw [hsingle h] at hfinite hrat
      obtain ⟨k, j, hk, hkj⟩ := exists_of_isFinite_ofRatio BinaryFormat.single_inDouble _ hden hfinite
      exact holds_of_toRat hk (hrat.symm.trans hkj)
    · have hsame : (ofInt n).toSingle = ofInt n := by
        simp only [isFinite, Bool.and_eq_true, Bool.not_eq_true', not_and_or, Bool.not_eq_false] at h
        simp [toSingle, h]
      rw [hsame] at hfinite
      exact absurd hfinite h
  · intro h
    obtain ⟨hfinite, hrat⟩ := (ofInt_exact_iff hsmall).mpr (holds_double_of_single h)
    have hmagnitude : ((ofInt n).magnitude.ratio.1 : ℚ) / (ofInt n).magnitude.ratio.2 = n.natAbs := by
      rw [hratio, ← abs_toRat, hrat, Nat.cast_natAbs, Int.cast_abs]
    obtain ⟨hfinite', hrat'⟩ := ofRatio_of_holds BinaryFormat.single_inDouble (by decide) h
      (hsmall.trans_le (Nat.pow_le_pow_right (by decide) (by decide))) (ofInt n).isNegative hden
      hmagnitude
    rw [hsingle hfinite]
    refine ⟨hfinite', hrat'.trans ?_⟩
    rw [← hrat, toRat, ← hratio, hmagnitude]

end Double

namespace Literal

open Emission

variable {l l' : Literal} {n : Int}

theorem natAbs_integer?_lt (h : l.integer? = some n) : n.natAbs < 2 ^ 65 := by
  cases l with
  | int v =>
    cases h
    have hlow := v.le_toInt
    have hhigh := v.toInt_lt
    omega
  | uint v =>
    cases h
    have hlt := v.toNat_lt
    omega
  | _ => cases h

/-- A literal goes only to numeric types. -/
theorem exists_of_retype? (hl : l.integer? = some n) {t : TypeId} (h : l.retype? t = some l') :
    ∃ b, t = .builtin b ∧ (b.isInteger ∨ b.isFloat) := by
  have hnumeric : t.isNumeric := by
    cases l with
    | int v =>
      unfold retype? at h
      cases t with
      | builtin b => cases b <;> first | rfl | cases h
      | _ => cases h
    | uint v =>
      unfold retype? at h
      cases t with
      | builtin b => cases b <;> first | rfl | cases h
      | _ => cases h
    | _ => cases hl
  obtain ⟨b, rfl, hb⟩ := TypeId.exists_builtin_of_satisfies hnumeric
  exact ⟨b, rfl, by simpa [Builtin.isNumeric] using hb⟩

/-- To a floating-point type every integer literal goes, as its nearest double-precision number. -/
theorem retype?_float (hl : l.integer? = some n) {b : Builtin} (hb : b.isFloat) :
    l.retype? (.builtin b) = some (.float (.ofInt n)) := by
  cases l with
  | int v =>
    cases hl
    cases b <;> first | rfl | cases hb
  | uint v =>
    cases hl
    cases b <;> first | rfl | cases hb
  | _ => cases hl

/-- To an integer type a signed literal goes exactly if the type has the number. -/
theorem retype?_int {b : Builtin} (hb : b.isInteger) (v : Int64) :
    (Literal.int v).retype? (.builtin b) = if b.tag.InRange v.toInt
      then some (if b.isSigned then .int v else .uint v.toUInt64) else none := by
  have hfloat : TypeId.isFloat (.builtin b) = false := by
    revert hb
    cases b <;> decide
  have hbits := Builtin.bits_tag hb
  unfold retype?
  rw [hfloat]
  rcases Bool.or_eq_true_iff.mp hb with hb | hb
  · have hsigned : TypeId.isSigned (.builtin b) = true := hb
    have hunsigned : TypeId.isUnsigned (.builtin b) = false := by
      revert hb
      cases b <;> decide
    have hrange := Tag.inRange_iff_fitsSigned (x := v) (b.isSigned_tag.trans hb)
    rw [hbits] at hrange
    simp [hsigned, hunsigned, hrange, hb, TypeId.bits]
  · have hunsigned : TypeId.isUnsigned (.builtin b) = true := hb
    have hsigned : b.isSigned = false := by
      revert hb
      cases b <;> decide
    have hsigned' : TypeId.isSigned (.builtin b) = false := hsigned
    have hrange : b.tag.InRange v.toInt ↔ 0 ≤ v.toInt ∧ fitsUnsigned v.toInt.toNat b.bits := by
      have hhigh := v.toInt_lt
      have hcast : ((2 ^ b.bits : Nat) : Int) = 2 ^ b.bits := by norm_cast
      have hwide : 64 ≤ b.bits → 2 ^ 64 ≤ 2 ^ b.bits := Nat.pow_le_pow_right (by decide)
      rw [Tag.inRange_of_isUnsigned (b.isUnsigned_tag.trans hb), Arithmetic.fitsUnsigned_eq_true,
        Tag.width_of_isUnsigned (b.isUnsigned_tag.trans hb), hbits]
      omega
    simp [hsigned, hsigned', hunsigned, hrange, TypeId.bits, Int64.le_iff_toInt_le]

/-- What goes to an integer type becomes a constant that denotes the number. -/
theorem constantOf_retype? (hl : l.integer? = some n) {b : Builtin} (hb : b.isInteger)
    (h : l.retype? (.builtin b) = some l') :
    (constantOf (some l') (.builtin b)).value.Denotes b.tag n := by
  cases l with
  | int v =>
    cases hl
    rw [retype?_int hb] at h
    split at h
    · rename_i hrange
      cases h
      by_cases hsigned : b.isSigned
      · have hplain : TypeId.isUnsigned (.builtin b) = false ∧ TypeId.isFloat (.builtin b) = false := by
          revert hsigned
          cases b <;> decide
        have hvalue : (constantOf (some (.int v)) (.builtin b)).value = .int v := by
          simp [constantOf, hplain, Constant.value, Constant.int]
        rw [if_pos hsigned, hvalue]
        exact .signed (b.isSigned_tag.trans hsigned) hrange
      · have hunsigned : b.isUnsigned := by simpa [Builtin.isInteger, hsigned] using hb
        have hplain : TypeId.isSigned (.builtin b) = false ∧ TypeId.isFloat (.builtin b) = false := by
          revert hunsigned
          cases b <;> decide
        have hvalue : (constantOf (some (.uint v.toUInt64)) (.builtin b)).value =
            .uint v.toUInt64 := by
          simp [constantOf, hplain, Constant.value, Constant.uint]
        have hnonneg := ((Tag.inRange_of_isUnsigned (b.isUnsigned_tag.trans hunsigned)).mp hrange).1
        have hnat : (v.toUInt64.toNat : Int) = v.toInt := by
          have hcond := BitVec.toInt_eq_toNat_cond v.toBitVec
          have hlt := v.toBitVec.isLt
          rw [Int64.toInt_toBitVec] at hcond
          change (v.toBitVec.toNat : Int) = _
          split at hcond <;> omega
        rw [if_neg hsigned, hvalue, ← hnat]
        exact .unsigned (b.isUnsigned_tag.trans hunsigned) (hnat ▸ hrange)
    · cases h
  | uint v =>
    have hfloat : TypeId.isFloat (.builtin b) = false := by
      revert hb
      cases b <;> decide
    simp [retype?, hfloat] at h
  | _ => cases hl

/-- What goes to a floating-point type becomes a constant that is the number if the type holds it. -/
theorem isNumber_float_iff {b : Builtin} (hb : b.isFloat) (hsmall : n.natAbs < 2 ^ 65) :
    Value.IsNumber b n (constantOf (some (.float (.ofInt n))) (.builtin b)).value ↔ b.Holds n := by
  have hfloat : ∀ x : Double, Value.IsNumber b n (.float x) ↔ x.isFinite ∧ x.toRat = n := by
    intro x
    constructor
    · rintro (hden | ⟨-, hfinite, hrat⟩)
      · cases hden
      · exact ⟨hfinite, hrat⟩
    · rintro ⟨hfinite, hrat⟩
      exact .float hb hfinite hrat
  cases b with
  | f32 => exact (hfloat _).trans (Double.toSingle_ofInt_exact_iff hsmall)
  | f64 => exact (hfloat _).trans (Double.ofInt_exact_iff hsmall)
  | _ => cases hb

/-- An integer literal that takes on another type keeps its number, except that a floating-point type
takes also numbers that it does not hold. -/
theorem retyping_keeps_number (hl : l.integer? = some n) (t : TypeId) :
    (∀ l', l.retype? t = some l' → ∃ b, t = .builtin b ∧ (b.isInteger → b.Holds n) ∧
      (Value.IsNumber b n (constantOf (some l') t).value ↔ b.Holds n)) ∧
    (∀ b v, t = .builtin b → b.isInteger → l = .int v → ((l.retype? t).isSome ↔ b.Holds n)) := by
  refine ⟨fun l' h => ?_, ?_⟩
  · obtain ⟨b, rfl, hb | hb⟩ := exists_of_retype? hl h
    · have hden := constantOf_retype? hl hb h
      have hholds := (Builtin.holds_iff_of_isInteger hb).mpr hden.inRange
      exact ⟨b, rfl, fun _ => hholds, iff_of_true (.integer hden) hholds⟩
    · rw [retype?_float hl hb] at h
      cases h
      refine ⟨b, rfl, fun hint => absurd hb (by revert hint; cases b <;> decide), ?_⟩
      exact isNumber_float_iff hb (natAbs_integer?_lt hl)
  · rintro b v rfl hb rfl
    cases hl
    rw [retype?_int hb, Builtin.holds_iff_of_isInteger hb]
    split <;> simp [*]

/-- A number of 26 bits, the last two of them zero, in single precision. -/
theorem retyping_keeps_number_wide : (Literal.int 33554436).integer? = some 33554436 ∧
    Value.IsNumber .f32 33554436
      (constantOf (some (.float (.ofInt 33554436))) (.builtin .f32)).value := by
  have hl : (Literal.int 33554436).integer? = some 33554436 := rfl
  obtain ⟨h, -⟩ := retyping_keeps_number hl (.builtin .f32)
  obtain ⟨b, hb, -, hiff⟩ := h _ rfl
  cases hb
  exact ⟨hl, hiff.mpr ⟨8388609, 2, by norm_num, by decide⟩⟩

-- An odd number of 25 bits is between two numbers of single precision and becomes the even one.
example : (Literal.int 16777217).retype? (.builtin .f32) = some (.float (.ofInt 16777217)) ∧
    constantOf (some (.float (.ofInt 16777217))) (.builtin .f32) = .float (.ofInt 16777216) := by
  decide +kernel

end Literal

end TypedScript
