import Mathlib.Data.Int.ModEq
import TypedScript.Proofs.Machine.Ranges

/-!
# Integer arithmetic and conversions are modular

A tag of width `w` has a range of `2 ^ w` integers, so every integer is congruent modulo `2 ^ w` to just
one of the range. The machine computes in 64 bits and cuts some of its results to the width: what comes
out denotes the residue of the exact result, and where nothing is cut the exact result itself.
-/

namespace TypedScript

namespace Tag

/-- The width of the integers of a tag; those of characters are code points. -/
def width : Tag → Nat
  | .char => 32
  | t => t.bits

def least (t : Tag) : Int := if t.isUnsigned then 0 else -2 ^ (t.width - 1)

/-- The integers of a tag: as many as its width can tell apart, from the least one on. -/
def InRange (t : Tag) (n : Int) : Prop := t.least ≤ n ∧ n < t.least + 2 ^ t.width

instance (t : Tag) (n : Int) : Decidable (t.InRange n) := inferInstanceAs (Decidable (_ ∧ _))

/-- The only integer of a tag that is congruent to a given one. -/
structure Residue (t : Tag) (n r : Int) : Prop where
  inRange : t.InRange r
  congruent : r ≡ n [ZMOD 2 ^ t.width]
  only : ∀ m, t.InRange m → m ≡ n [ZMOD 2 ^ t.width] → m = r

variable {t : Tag} {n r : Int}

/-- Congruent integers of one range are equal, as it is no longer than the modulus. -/
theorem InRange.eq_of_modEq {m : Int} (hn : t.InRange n) (hm : t.InRange m)
    (h : n ≡ m [ZMOD 2 ^ t.width]) : n = m := by
  obtain ⟨hlow, hhigh⟩ := hn
  obtain ⟨hlow', hhigh'⟩ := hm
  have hdvd : (2 ^ t.width : Int) ∣ m - n := h.dvd
  have hzero : m - n = 0 := Int.eq_zero_of_abs_lt_dvd hdvd (by rw [abs_lt]; omega)
  omega

theorem InRange.residue (hr : t.InRange r) (h : r ≡ n [ZMOD 2 ^ t.width]) : t.Residue n r :=
  ⟨hr, h, fun _ hm hmn => hm.eq_of_modEq hr (hmn.trans h.symm)⟩

theorem Residue.eq_of_inRange (h : t.Residue n r) (hn : t.InRange n) : r = n :=
  (h.only n hn rfl).symm

theorem width_le (t : Tag) : t.width ≤ 64 := by cases t <;> decide

theorem width_pos (t : Tag) : 0 < t.width := by cases t <;> decide

theorem width_of_isSigned (ht : t.isSigned) : t.width = t.bits := by
  cases t <;> first | rfl | cases ht

theorem width_of_isUnsigned (ht : t.isUnsigned) : t.width = t.bits := by
  cases t <;> first | rfl | cases ht

theorem inRange_of_isUnsigned (ht : t.isUnsigned) : t.InRange n ↔ 0 ≤ n ∧ n < 2 ^ t.width := by
  simp [InRange, least, ht]

theorem inRange_of_not_isUnsigned (ht : t.isUnsigned = false) :
    t.InRange n ↔ -2 ^ (t.width - 1) ≤ n ∧ n < 2 ^ (t.width - 1) := by
  have hpow : (2 ^ t.width : Int) = 2 * 2 ^ (t.width - 1) := by
    rw [← pow_succ', Nat.sub_add_cancel t.width_pos]
  simp only [InRange, least, ht, Bool.false_eq_true, if_false, hpow]
  omega

/-- What is congruent in 64 bits is so in fewer. -/
theorem modEq_width (t : Tag) {m : Int} (h : m ≡ n [ZMOD 2 ^ 64]) : m ≡ n [ZMOD 2 ^ t.width] :=
  h.of_dvd (pow_dvd_pow 2 t.width_le)

theorem inRange_iff_fitsSigned (ht : t.isSigned) {x : Int64} :
    t.InRange x.toInt ↔ Literal.fitsSigned x t.bits := by
  rw [inRange_of_not_isUnsigned (not_isUnsigned ht), Arithmetic.fitsSigned_eq_true,
    width_of_isSigned ht]
  refine ⟨.inr, fun h => ?_⟩
  rcases h with h | h
  · have hbits : t.bits = 64 := by
      have hle := t.width_le
      rw [width_of_isSigned ht] at hle
      omega
    have hlow := x.le_toInt
    have hhigh := x.toInt_lt
    rw [hbits]
    exact ⟨hlow, hhigh⟩
  · exact h

theorem inRange_iff_fitsUnsigned (ht : t.isUnsigned) {x : UInt64} :
    t.InRange x.toNat ↔ Literal.fitsUnsigned x.toNat t.bits := by
  rw [inRange_of_isUnsigned ht, Arithmetic.fitsUnsigned_eq_true, width_of_isUnsigned ht]
  have hcast : ((2 ^ t.bits : Nat) : Int) = 2 ^ t.bits := by norm_cast
  constructor
  · rintro ⟨-, h⟩
    exact .inr (by omega)
  · rintro (h | h)
    · have hbits : 2 ^ 64 ≤ 2 ^ t.bits := Nat.pow_le_pow_right (by decide) h
      have hlt := x.toNat_lt
      omega
    · omega

end Tag

/-- A value denotes an integer of a tag. -/
inductive Value.Denotes : Value → Tag → Int → Prop
  | signed {t : Tag} {x : Int64} : t.isSigned → t.InRange x.toInt → Denotes (.int x) t x.toInt
  | unsigned {t : Tag} {x : UInt64} : t.isUnsigned → t.InRange x.toNat → Denotes (.uint x) t x.toNat
  | char (x : Int32) : Denotes (.char x) .char x.toInt

namespace Value

variable {t : Tag} {v : Value} {n : Int}

theorem Denotes.inRange (h : v.Denotes t n) : t.InRange n := by
  cases h with
  | signed _ hx => exact hx
  | unsigned _ hx => exact hx
  | char x =>
    rw [Tag.inRange_of_not_isUnsigned rfl]
    exact ⟨x.le_toInt, x.toInt_lt⟩

theorem Denotes.exists_int (h : v.Denotes t n) (ht : t.isSigned) : ∃ x, v = .int x ∧ x.toInt = n := by
  cases h with
  | signed => exact ⟨_, rfl, rfl⟩
  | unsigned ht' => simp [Tag.not_isUnsigned ht] at ht'
  | char => cases ht

theorem Denotes.exists_uint (h : v.Denotes t n) (ht : t.isUnsigned) :
    ∃ x, v = .uint x ∧ (x.toNat : Int) = n := by
  cases h with
  | signed ht' => simp [Tag.not_isUnsigned ht'] at ht
  | unsigned => exact ⟨_, rfl, rfl⟩
  | char => cases ht

theorem Denotes.exists_char (h : v.Denotes .char n) : ∃ x, v = .char x ∧ x.toInt = n := by
  cases h with
  | signed ht | unsigned ht => cases ht
  | char x => exact ⟨x, rfl, rfl⟩

/-- An integer is denoted by one value at most. -/
theorem Denotes.value_unique {u : Value} (hv : v.Denotes t n) (hu : u.Denotes t n) : v = u := by
  cases hv with
  | signed ht =>
    obtain ⟨x, rfl, hx⟩ := hu.exists_int ht
    rw [Int64.toInt_inj.mp hx]
  | unsigned ht =>
    obtain ⟨x, rfl, hx⟩ := hu.exists_uint ht
    rw [UInt64.toNat_inj.mp (Int.natCast_inj.mp hx)]
  | char =>
    obtain ⟨x, rfl, hx⟩ := hu.exists_char
    rw [Int32.toInt_inj.mp hx]

end Value

namespace Arithmetic

def Gives (t : Tag) (n : Int) (result : Except Cause Value) : Prop :=
  ∃ v, result = .ok v ∧ v.Denotes t n

/-- A result denotes the residue of an integer. -/
def Wraps (t : Tag) (n : Int) (result : Except Cause Value) : Prop :=
  ∃ r, Gives t r result ∧ t.Residue n r

def GivesBits (t : Tag) (bits : BitVec t.width) (result : Except Cause Value) : Prop :=
  ∃ n, Gives t n result ∧ BitVec.ofInt t.width n = bits

def Fails (result : Except Cause Value) : Prop := ∃ c, result = .error c

@[simp] theorem fails_error (c : Cause) : Fails (.error c) := ⟨c, rfl⟩

@[simp] theorem not_fails_ok (v : Value) : ¬Fails (.ok v) := by
  rintro ⟨c, hc⟩
  cases hc

/-- A result that is there except in one case. -/
@[simp] theorem fails_ite {p : Prop} [Decidable p] {c : Cause} {v : Value} :
    Fails (if p then .error c else .ok v) ↔ p := by
  split <;> simp [*]

def integerOperations : List Operation :=
  [.add, .sub, .mul, .div, .rem, .and, .or, .xor, .shl, .shr, .ceq, .clt, .cgt]

section

variable {t : Tag} {n : Int}

theorem toInt_wrapSigned (ht : t.isSigned) (v : Int64) :
    (wrapSigned t v).toInt = v.toInt.bmod (2 ^ t.width) := by
  cases t with
  | i8 => exact (Int8.toInt_toInt64 _).trans (Int64.toInt_toInt8 v)
  | i16 => exact (Int16.toInt_toInt64 _).trans (Int64.toInt_toInt16 v)
  | i32 => exact (Int32.toInt_toInt64 _).trans (Int64.toInt_toInt32 v)
  | i64 => exact v.toInt_bmod.symm
  | _ => cases ht

theorem toNat_wrapUnsigned (ht : t.isUnsigned) (v : UInt64) :
    (wrapUnsigned t v).toNat = v.toNat % 2 ^ t.width := by
  cases t with
  | u8 => exact v.toNat_toUInt8
  | u16 => exact v.toNat_toUInt16
  | u32 => exact v.toNat_toUInt32
  | u64 => exact (Nat.mod_eq_of_lt v.toNat_lt).symm
  | _ => cases ht

theorem bmod_modEq (m : Int) (k : Nat) : m.bmod (2 ^ k) ≡ m [ZMOD 2 ^ k] := by
  have h := @Int.bmod_emod m (2 ^ k)
  push_cast at h
  exact h

/-- A signed result that is cut to the width, and was right modulo `2 ^ 64` before. -/
theorem wraps_signed (ht : t.isSigned) {v : Int64} (h : v.toInt ≡ n [ZMOD 2 ^ 64]) :
    Wraps t n (.ok (.int (wrapSigned t v))) := by
  have hrange := (Tag.inRange_iff_fitsSigned ht).mpr (fitsSigned_wrapSigned ht v)
  refine ⟨_, ⟨_, rfl, .signed ht hrange⟩, hrange.residue ?_⟩
  rw [toInt_wrapSigned ht]
  exact (bmod_modEq _ _).trans (t.modEq_width h)

/-- An unsigned result that is cut to the width, and was right modulo `2 ^ 64` before. -/
theorem wraps_unsigned (ht : t.isUnsigned) {v : UInt64} (h : (v.toNat : Int) ≡ n [ZMOD 2 ^ 64]) :
    Wraps t n (.ok (.uint (wrapUnsigned t v))) := by
  have hrange := (Tag.inRange_iff_fitsUnsigned ht).mpr (fitsUnsigned_wrapUnsigned ht v)
  refine ⟨_, ⟨_, rfl, .unsigned ht hrange⟩, hrange.residue ?_⟩
  rw [toNat_wrapUnsigned ht]
  push_cast
  exact (Int.mod_modEq _ _).trans (t.modEq_width h)

theorem shiftLeftSigned_modEq (x : Int64) (count : Nat) :
    (shiftLeftSigned x count).toInt ≡ x.toInt * 2 ^ count [ZMOD 2 ^ 64] := by
  unfold shiftLeftSigned
  split
  · rename_i h
    have hcount : ∀ count < 64, (BitVec.smod (Int64.ofNat count).toBitVec 64).toNat = count := by
      decide
    have hbits : (x.toBitVec.toNat : Int) ≡ x.toInt [ZMOD 2 ^ 64] := by
      rw [← Int64.toInt_toBitVec, BitVec.toInt_eq_toNat_bmod]
      exact (bmod_modEq _ _).symm
    rw [← Int64.toInt_toBitVec, Int64.toBitVec_shiftLeft, BitVec.shiftLeft_eq', hcount count h,
      BitVec.toInt_shiftLeft, Nat.shiftLeft_eq, Nat.cast_mul, Nat.cast_pow, Nat.cast_two]
    exact (bmod_modEq _ _).trans (hbits.mul_right _)
  · rename_i h
    have hdvd : (2 ^ 64 : Int) ∣ x.toInt * 2 ^ count :=
      (pow_dvd_pow 2 (Nat.le_of_not_lt h)).mul_left _
    rw [Int64.toInt_zero]
    exact (Int.modEq_zero_iff_dvd.mpr hdvd).symm

theorem shiftLeft_modEq (x : UInt64) (count : Nat) :
    ((shiftLeft x count).toNat : Int) ≡ x.toNat * 2 ^ count [ZMOD 2 ^ 64] := by
  unfold shiftLeft
  split
  · rename_i h
    have hcount : (UInt64.ofNat count).toNat = count :=
      UInt64.toNat_ofNat_of_lt' (Nat.lt_trans h (by decide))
    rw [UInt64.toNat_shiftLeft, hcount, Nat.mod_eq_of_lt h, Nat.shiftLeft_eq]
    push_cast
    exact Int.mod_modEq _ _
  · rename_i h
    have hdvd : (2 ^ 64 : Int) ∣ x.toNat * 2 ^ count :=
      (pow_dvd_pow 2 (Nat.le_of_not_lt h)).mul_left _
    exact (Int.modEq_zero_iff_dvd.mpr hdvd).symm

/-- From 64 bits on, a shift to the right leaves the sign alone, which is the quotient then. -/
theorem toInt_shiftRightSigned (x : Int64) (count : Nat) :
    (shiftRightSigned x count).toInt = x.toInt / 2 ^ count := by
  unfold shiftRightSigned
  by_cases hcount : count < 64
  · rw [if_pos hcount]
    exact toInt_shiftRight x hcount
  rw [if_neg hcount]
  have hpow : (2 ^ 64 : Int) ≤ 2 ^ count := pow_le_pow_right₀ (by decide) (Nat.le_of_not_lt hcount)
  have hlow := x.le_toInt
  have hhigh := x.toInt_lt
  by_cases hneg : x < 0
  · rw [if_pos hneg]
    have hneg' : x.toInt < 0 := Int64.lt_iff_toInt_lt.mp hneg
    symm
    rw [Int.ediv_eq_iff_of_pos (by omega)]
    change (-1) * (2 ^ count : Int) ≤ _ ∧ _ < (-1) * 2 ^ count + 2 ^ count
    omega
  · rw [if_neg hneg]
    have hpos : ¬x.toInt < 0 := fun h => hneg (Int64.lt_iff_toInt_lt.mpr h)
    exact (Int.ediv_eq_zero_of_lt (by omega) (by omega)).symm

theorem toNat_shiftRight (x : UInt64) (count : Nat) :
    (shiftRight x count).toNat = x.toNat / 2 ^ count := by
  unfold shiftRight
  split
  · rename_i h
    have hcount : (UInt64.ofNat count).toNat = count :=
      UInt64.toNat_ofNat_of_lt' (Nat.lt_trans h (by decide))
    rw [UInt64.toNat_shiftRight, hcount, Nat.mod_eq_of_lt h, Nat.shiftRight_eq_div_pow]
  · rename_i h
    have hpow : 2 ^ 64 ≤ 2 ^ count := Nat.pow_le_pow_right (by decide) (Nat.le_of_not_lt h)
    exact (Nat.div_eq_of_lt (Nat.lt_of_lt_of_le x.toNat_lt hpow)).symm

theorem ofInt_toInt (k : Nat) (x : Int64) : BitVec.ofInt k x.toInt = x.toBitVec.signExtend k := rfl

theorem ofInt_toNat (k : Nat) (x : UInt64) :
    BitVec.ofInt k (x.toNat : Int) = x.toBitVec.setWidth k := by
  rw [BitVec.ofInt_natCast, ← UInt64.toNat_toBitVec, BitVec.ofNat_toNat]

end

/-- What the operations give for two values that denote integers of one tag. -/
structure IntegerResults (t : Tag) (a b : Value) (x y : Int) : Prop where
  add : Wraps t (x + y) (binary .add t a b)
  sub : Wraps t (x - y) (binary .sub t a b)
  mul : Wraps t (x * y) (binary .mul t a b)
  neg : t.isSigned → Wraps t (-x) (unary .neg t a)
  complement : Wraps t (-x - 1) (unary .compl t a)
  shiftLeft : 0 ≤ y → Wraps t (x * 2 ^ y.toNat) (binary .shl t a b)
  shiftRight : 0 ≤ y → Gives t (x.fdiv (2 ^ y.toNat)) (binary .shr t a b)
  div : y ≠ 0 → Wraps t (x.tdiv y) (binary .div t a b)
  div_least : t.isSigned → x = t.least → y = -1 → Gives t t.least (binary .div t a b)
  rem : y ≠ 0 → Gives t (x.tmod y) (binary .rem t a b)
  and : GivesBits t (.ofInt _ x &&& .ofInt _ y) (binary .and t a b)
  or : GivesBits t (.ofInt _ x ||| .ofInt _ y) (binary .or t a b)
  xor : GivesBits t (.ofInt _ x ^^^ .ofInt _ y) (binary .xor t a b)
  equal : binary .ceq t a b = .ok (.bool (x = y))
  less : binary .clt t a b = .ok (.bool (x < y))
  greater : binary .cgt t a b = .ok (.bool (x > y))
  fails_iff : ∀ op ∈ integerOperations, Fails (binary op t a b) ↔
    (op = .div ∨ op = .rem) ∧ y = 0 ∨ (op = .shl ∨ op = .shr) ∧ t.isSigned ∧ y < 0
  neg_fails_iff : Fails (unary .neg t a) ↔ t.isUnsigned
  complement_succeeds : ¬Fails (unary .compl t a)

section

variable {t : Tag} {x y : Int64}

theorem Gives.inRange {n : Int} {result : Except Cause Value} (h : Gives t n result) :
    t.InRange n := by
  obtain ⟨v, -, hv⟩ := h
  exact hv.inRange

theorem gives_signed (ht : t.isSigned) {n : Int} {v : Int64} (hv : v.toInt = n) (hn : t.InRange n) :
    Gives t n (.ok (.int v)) := by
  subst hv
  exact ⟨_, rfl, .signed ht hn⟩

theorem gives_unsigned (ht : t.isUnsigned) {n : Int} {v : UInt64} (hv : v.toNat = n)
    (hn : t.InRange n) : Gives t n (.ok (.uint v)) := by
  subst hv
  exact ⟨_, rfl, .unsigned ht hn⟩

/-- If the exact result is an integer of the tag, it is its own residue. -/
theorem Wraps.gives {n : Int} {result : Except Cause Value} (h : Wraps t n result)
    (hn : t.InRange n) : Gives t n result := by
  obtain ⟨r, hr, hres⟩ := h
  rwa [hres.eq_of_inRange hn] at hr

theorem inRange_zero (t : Tag) : t.InRange 0 := by
  have hpow : (0 : Int) < 2 ^ (t.width - 1) := by positivity
  cases ht : t.isUnsigned with
  | true =>
    rw [Tag.inRange_of_isUnsigned ht]
    exact ⟨le_rfl, by positivity⟩
  | false =>
    rw [Tag.inRange_of_not_isUnsigned ht]
    omega

/-- A remainder lies between zero and the dividend. -/
theorem inRange_tmod {m : Int} (hm : t.InRange m) (n : Int) : t.InRange (m.tmod n) := by
  have hbetween : ∀ k : Nat, 0 ≤ (k : Int).tmod n ∧ (k : Int).tmod n ≤ k := by
    intro k
    have habs : ((k : Int).tmod n).natAbs = k % n.natAbs := Int.natAbs_tmod _ _
    have hle : k % n.natAbs ≤ k := Nat.mod_le _ _
    have hnonneg : 0 ≤ (k : Int).tmod n := Int.tmod_nonneg n (Int.natCast_nonneg k)
    omega
  obtain ⟨hlow, hhigh⟩ := hm
  obtain ⟨hleast, hzero⟩ := inRange_zero t
  obtain ⟨k, rfl | rfl⟩ := m.eq_nat_or_neg
  · have h := hbetween k
    exact ⟨by omega, by omega⟩
  · have h := hbetween k
    rw [Int.neg_tmod]
    exact ⟨by omega, by omega⟩

/-- Minus the least integer of a signed tag is congruent to it. -/
theorem least_residue (ht : t.isSigned) : t.Residue (t.least.tdiv (-1)) t.least := by
  have hpow : (2 ^ t.width : Int) = 2 * 2 ^ (t.width - 1) := by
    rw [← pow_succ', Nat.sub_add_cancel t.width_pos]
  have hleast : t.least = -2 ^ (t.width - 1) := by simp [Tag.least, Tag.not_isUnsigned ht]
  refine Tag.InRange.residue ⟨le_rfl, by rw [lt_add_iff_pos_right]; positivity⟩ ?_
  rw [Int.tdiv_neg, Int.tdiv_one, hleast, neg_neg]
  exact Int.modEq_iff_dvd.mpr ⟨1, by omega⟩

theorem toInt_eq_zero_iff : y.toInt = 0 ↔ y = 0 := by
  rw [← Int64.toInt_inj, Int64.toInt_zero]

theorem toInt_neg_iff : y.toInt < 0 ↔ y < 0 := by
  rw [Int64.lt_iff_toInt_lt, Int64.toInt_zero]

/-- Bits that are combined one by one can be combined before or after the width is cut. -/
theorem givesBits_signed (ht : t.isSigned) {v : Int64} {bits : BitVec t.width}
    (hfits : wrapSigned t v = v) (h : v.toBitVec.signExtend t.width = bits) :
    GivesBits t bits (.ok (.int v)) := by
  have hrange := (Tag.inRange_iff_fitsSigned ht).mpr ((fitsSigned_iff ht v).mpr hfits)
  exact ⟨_, gives_signed ht rfl hrange, h⟩

theorem signed_integerResults (ht : t.isSigned) (hx : t.InRange x.toInt) (hy : t.InRange y.toInt) :
    IntegerResults t (.int x) (.int y) x.toInt y.toInt := by
  have hfits := (Tag.inRange_iff_fitsSigned ht).mp hx
  have hx' := (fitsSigned_iff ht x).mp hfits
  have hy' := (fitsSigned_iff ht y).mp ((Tag.inRange_iff_fitsSigned ht).mp hy)
  have hdiv : y.toInt ≠ 0 →
      Wraps t (x.toInt.tdiv y.toInt) (binary .div t (.int x) (.int y)) := by
    intro h
    rw [binary_int ht]
    change Wraps t _ (if y = 0 then _ else _)
    rw [if_neg (mt toInt_eq_zero_iff.mpr h)]
    exact wraps_signed ht (by rw [Int64.toInt_div]; exact bmod_modEq _ 64)
  have hcomplement : (~~~x).toInt = -x.toInt - 1 := by
    have hlow := x.le_toInt
    have hhigh := x.toInt_lt
    rw [Int64.toInt_not, Int.bmod_eq_of_le (by norm_num; omega) (by norm_num; omega)]
  constructor
  case add =>
    rw [binary_int ht]
    exact wraps_signed ht (by rw [Int64.toInt_add]; exact bmod_modEq _ 64)
  case sub =>
    rw [binary_int ht]
    exact wraps_signed ht (by rw [Int64.toInt_sub]; exact bmod_modEq _ 64)
  case mul =>
    rw [binary_int ht]
    exact wraps_signed ht (by rw [Int64.toInt_mul]; exact bmod_modEq _ 64)
  case neg => exact fun _ => wraps_signed ht (by rw [Int64.toInt_neg]; exact bmod_modEq _ 64)
  case complement =>
    have hrange := (Tag.inRange_iff_fitsSigned ht).mpr (fitsSigned_not hfits)
    exact ⟨_, gives_signed ht rfl hrange, hrange.residue (by rw [hcomplement])⟩
  case shiftLeft =>
    intro h
    rw [binary_int ht]
    change Wraps t _ (if y < 0 then _ else _)
    rw [if_neg (mt toInt_neg_iff.mpr (Int.not_lt.mpr h))]
    exact wraps_signed ht (shiftLeftSigned_modEq x _)
  case shiftRight =>
    intro h
    have hrange := (Tag.inRange_iff_fitsSigned ht).mpr (fitsSigned_shiftRight hfits y.toInt.toNat)
    rw [binary_int ht]
    change Gives t _ (if y < 0 then _ else _)
    rw [if_neg (mt toInt_neg_iff.mpr (Int.not_lt.mpr h)),
      Int.fdiv_eq_ediv_of_nonneg _ (by positivity), ← toInt_shiftRightSigned]
    exact gives_signed ht rfl hrange
  case div => exact hdiv
  case div_least =>
    intro _ hleast hone
    obtain ⟨r, hr, hres⟩ := hdiv (by omega)
    rw [hleast, hone] at hres
    rwa [← hres.only _ (least_residue ht).inRange (least_residue ht).congruent] at hr
  case rem =>
    intro h
    rw [binary_int ht]
    change Gives t _ (if y = 0 then _ else _)
    rw [if_neg (mt toInt_eq_zero_iff.mpr h)]
    exact (wraps_signed ht (by rw [Int64.toInt_mod])).gives (inRange_tmod hx _)
  case and =>
    rw [binary_int ht]
    refine givesBits_signed ht (by rw [wrapSigned_and, hx', hy']) ?_
    rw [Int64.toBitVec_and, BitVec.signExtend_and]
    rfl
  case or =>
    rw [binary_int ht]
    refine givesBits_signed ht (by rw [wrapSigned_or, hx', hy']) ?_
    rw [Int64.toBitVec_or, BitVec.signExtend_or]
    rfl
  case xor =>
    rw [binary_int ht]
    refine givesBits_signed ht (by rw [wrapSigned_xor, hx', hy']) ?_
    rw [Int64.toBitVec_xor, BitVec.signExtend_xor]
    rfl
  case equal =>
    rw [binary_int ht]
    simp [signed, Int64.toInt_inj, beq_eq_decide]
  case less =>
    rw [binary_int ht]
    simp [signed, Int64.lt_iff_toInt_lt]
  case greater =>
    rw [binary_int ht]
    simp [signed, Int64.lt_iff_toInt_lt]
  case fails_iff =>
    intro op hop
    rw [binary_int ht]
    simp only [toInt_eq_zero_iff, toInt_neg_iff, ht, true_and]
    simp only [integerOperations, List.mem_cons, List.not_mem_nil, or_false] at hop
    rcases hop with rfl | rfl | rfl | rfl | rfl | rfl | rfl | rfl | rfl | rfl | rfl | rfl | rfl <;>
      simp [signed]
  case neg_fails_iff => simp [unary, Tag.not_isUnsigned ht]
  case complement_succeeds => simp [unary]

end

section

variable {t : Tag} {x y : UInt64}

theorem givesBits_unsigned (ht : t.isUnsigned) {v : UInt64} {bits : BitVec t.width}
    (hfits : Literal.fitsUnsigned v.toNat t.bits) (h : v.toBitVec.setWidth t.width = bits) :
    GivesBits t bits (.ok (.uint v)) :=
  ⟨_, gives_unsigned ht rfl ((Tag.inRange_iff_fitsUnsigned ht).mpr hfits), by rw [ofInt_toNat, h]⟩

theorem toNat_eq_zero_iff : (y.toNat : Int) = 0 ↔ y = 0 := by
  rw [← UInt64.toNat_inj, UInt64.toNat_zero, Int.natCast_eq_zero]

theorem unsigned_integerResults (ht : t.isUnsigned) (hx : t.InRange x.toNat)
    (hy : t.InRange y.toNat) : IntegerResults t (.uint x) (.uint y) x.toNat y.toNat := by
  have hsigned : t.isSigned = false := by cases h : t.isSigned with
    | false => rfl
    | true => simp [Tag.not_isUnsigned h] at ht
  have hfits := (Tag.inRange_iff_fitsUnsigned ht).mp hx
  have hfits' := (Tag.inRange_iff_fitsUnsigned ht).mp hy
  have hle : ∀ {n : Int} {v : UInt64}, (v.toNat : Int) = n → v.toNat ≤ x.toNat →
      Gives t n (.ok (.uint v)) := fun hn hv =>
    gives_unsigned ht hn (hn ▸ (Tag.inRange_iff_fitsUnsigned ht).mpr (fitsUnsigned_of_le hfits hv))
  have hmod : ∀ m : Nat, ((m % 2 ^ 64 : Nat) : Int) ≡ m [ZMOD 2 ^ 64] := by
    intro m
    push_cast
    exact Int.mod_modEq _ _
  constructor
  case add =>
    rw [binary_uint ht]
    exact wraps_unsigned ht (by rw [UInt64.toNat_add]; exact hmod _)
  case sub =>
    rw [binary_uint ht]
    refine wraps_unsigned ht ?_
    have hlt := y.toNat_lt
    rw [UInt64.toNat_sub]
    refine (hmod _).trans (Int.modEq_iff_dvd.mpr ⟨-1, ?_⟩)
    rw [Nat.cast_add, Nat.cast_sub hlt.le]
    push_cast
    omega
  case mul =>
    rw [binary_uint ht]
    exact wraps_unsigned ht (by rw [UInt64.toNat_mul]; exact hmod _)
  case neg => exact fun h => absurd h (by simp [hsigned])
  case complement =>
    refine wraps_unsigned ht ?_
    have hlt := x.toNat_lt
    rw [UInt64.toNat_not]
    refine Int.modEq_iff_dvd.mpr ⟨-1, ?_⟩
    simp only [UInt64.size]
    omega
  case shiftLeft =>
    intro _
    rw [binary_uint ht]
    exact wraps_unsigned ht (shiftLeft_modEq x _)
  case shiftRight =>
    intro _
    rw [binary_uint ht, Int.fdiv_eq_ediv_of_nonneg _ (by positivity)]
    refine hle ?_ (toNat_shiftRight_le x y.toNat)
    rw [toNat_shiftRight]
    push_cast
    rfl
  case div =>
    intro h
    rw [binary_uint ht]
    change Wraps t _ (if y = 0 then _ else _)
    rw [if_neg (mt toNat_eq_zero_iff.mpr h)]
    have hgives : Gives t _ (.ok (.uint (x / y))) := hle rfl (Nat.div_le_self x.toNat y.toNat)
    exact ⟨_, hgives, hgives.inRange.residue (by rw [UInt64.toNat_div]; rfl)⟩
  case div_least => exact fun h => absurd h (by simp [hsigned])
  case rem =>
    intro h
    rw [binary_uint ht]
    change Gives t _ (if y = 0 then _ else _)
    rw [if_neg (mt toNat_eq_zero_iff.mpr h)]
    exact hle (by rw [UInt64.toNat_mod]; rfl) (Nat.mod_le x.toNat y.toNat)
  case and =>
    rw [binary_uint ht]
    refine givesBits_unsigned ht
      (fitsUnsigned_of_le hfits (by rw [UInt64.toNat_and]; exact Nat.and_le_left)) ?_
    rw [UInt64.toBitVec_and, BitVec.setWidth_and, ofInt_toNat, ofInt_toNat]
  case or =>
    rw [binary_uint ht]
    refine givesBits_unsigned ht (fitsUnsigned_or hfits hfits').1 ?_
    rw [UInt64.toBitVec_or, BitVec.setWidth_or, ofInt_toNat, ofInt_toNat]
  case xor =>
    rw [binary_uint ht]
    refine givesBits_unsigned ht (fitsUnsigned_or hfits hfits').2 ?_
    rw [UInt64.toBitVec_xor, BitVec.setWidth_xor, ofInt_toNat, ofInt_toNat]
  case equal =>
    rw [binary_uint ht]
    simp [unsigned, UInt64.toNat_inj, beq_eq_decide]
  case less =>
    rw [binary_uint ht]
    simp [unsigned, UInt64.lt_iff_toNat_lt]
  case greater =>
    rw [binary_uint ht]
    simp [unsigned, UInt64.lt_iff_toNat_lt]
  case fails_iff =>
    intro op hop
    rw [binary_uint ht]
    simp only [toNat_eq_zero_iff, hsigned, Bool.false_eq_true, false_and, and_false, or_false]
    simp only [integerOperations, List.mem_cons, List.not_mem_nil, or_false] at hop
    rcases hop with rfl | rfl | rfl | rfl | rfl | rfl | rfl | rfl | rfl | rfl | rfl | rfl | rfl <;>
      simp [unsigned]
  case neg_fails_iff => simp [unary, ht]
  case complement_succeeds => simp [unary]

end

/-- Integer arithmetic is exact up to the width. -/
theorem integers_exact {t : Tag} (ht : t.isSigned ∨ t.isUnsigned) {a b : Value} {x y : Int}
    (ha : a.Denotes t x) (hb : b.Denotes t y) : IntegerResults t a b x y := by
  cases ha with
  | signed ht hx =>
    obtain ⟨y, rfl, rfl⟩ := hb.exists_int ht
    exact signed_integerResults ht hx hb.inRange
  | unsigned ht hx =>
    obtain ⟨y, rfl, rfl⟩ := hb.exists_uint ht
    exact unsigned_integerResults ht hx hb.inRange
  | char => rcases ht with h | h <;> cases h

/-- The least integer of eight bits, divided by minus one: nothing but itself has its residue. -/
theorem integers_exact_least :
    (Value.int (-128)).Denotes .i8 (-128) ∧ (Value.int (-1)).Denotes .i8 (-1) ∧
      IntegerResults .i8 (.int (-128)) (.int (-1)) (-128) (-1) := by
  have ha : (Value.int (-128)).Denotes .i8 (-128) := .signed (x := -128) rfl (by decide)
  have hb : (Value.int (-1)).Denotes .i8 (-1) := .signed (x := -1) rfl (by decide)
  exact ⟨ha, hb, integers_exact (.inl rfl) ha hb⟩

end Arithmetic

/-!
## Conversions of integers are modular, and widening loses nothing

A conversion carries its operand in a signed and in an unsigned word, which are both right modulo
`2 ^ 64`; the type asked for takes one of them and cuts it to its width. So the result denotes the
residue of the operand, and the operand itself if the type has it.
-/

namespace Arithmetic

section

variable {s t : Tag} {v : Value} {n : Int}

/-- Both integers that a conversion can take are right modulo `2 ^ 64`. -/
theorem views_modEq (h : v.Denotes s n) : ∃ w, views? v = some w ∧
    w.signed.toInt ≡ n [ZMOD 2 ^ 64] ∧ (w.unsigned.toNat : Int) ≡ n [ZMOD 2 ^ 64] := by
  have hunsigned : ∀ x : Int64, (x.toUInt64.toNat : Int) ≡ x.toInt [ZMOD 2 ^ 64] := by
    intro x
    rw [← Int64.toInt_toBitVec, BitVec.toInt_eq_toNat_bmod]
    exact (bmod_modEq _ _).symm
  cases h with
  | @signed _ x => exact ⟨_, rfl, rfl, hunsigned x⟩
  | @unsigned _ x =>
    refine ⟨_, rfl, ?_, rfl⟩
    rw [← Int64.toInt_toBitVec, BitVec.toInt_eq_toNat_bmod]
    exact bmod_modEq _ _
  | char x =>
    refine ⟨_, rfl, ?_, ?_⟩
    · rw [Int32.toInt_toInt64]
    · simpa only [Int32.toInt_toInt64] using hunsigned x.toInt64

/-- A conversion between integers, characters among them, gives the residue. -/
theorem convert_wraps (ht : t.isSigned ∨ t.isUnsigned ∨ t = .char) (source : Tag)
    (h : v.Denotes s n) : Wraps t n (convert source t v) := by
  obtain ⟨w, hw, hsigned, hunsigned⟩ := views_modEq h
  unfold convert
  rw [hw]
  rcases ht with ht | ht | rfl
  · have hwraps := wraps_signed ht hsigned
    cases t <;> first | exact hwraps | cases ht
  · have hwraps := wraps_unsigned ht hunsigned
    cases t <;> first | exact hwraps | cases ht
  · have hden := Value.Denotes.char w.signed.toInt32
    refine ⟨_, ⟨_, rfl, hden⟩, hden.inRange.residue ?_⟩
    rw [Int64.toInt_toInt32]
    exact (bmod_modEq _ 32).trans (Tag.char.modEq_width hsigned)

end

end Arithmetic

namespace Builtin

/-- Whether the values of the type denote integers; those of characters are code points. -/
def isIntegral (b : Builtin) : Bool := b.isInteger || b = char

variable {s t k : Builtin}

theorem tag_of_isIntegral (h : t.isIntegral) :
    t.tag.isSigned ∨ t.tag.isUnsigned ∨ t.tag = .char := by
  revert h
  cases t <;> decide

theorem isIntegral_of_isInteger (h : t.isInteger) : t.isIntegral := by
  simp [isIntegral, h]

/-- A wider type of the same sign has all the integers of the narrower one. -/
theorem inRange_of_widens (hs : s.isInteger) (ht : t.isInteger) (h : s.widens t) {n : Int}
    (hn : s.tag.InRange n) : t.tag.InRange n := by
  have hwider : t.tag.least ≤ s.tag.least ∧
      s.tag.least + 2 ^ s.tag.width ≤ t.tag.least + 2 ^ t.tag.width := by
    revert h
    cases s <;> cases hs <;> cases t <;> cases ht <;> decide
  exact ⟨hwider.1.trans hn.1, hn.2.trans_le hwider.2⟩

/-- What can be widened can only be narrowed back. -/
theorem not_widens_of_widens (hs : s.isInteger) (ht : t.isInteger) (h : s.widens t) :
    t.widens s = false := by
  revert h
  cases s <;> cases hs <;> cases t <;> cases ht <;> decide

theorem widens_trans (hs : s.isInteger) (ht : t.isInteger) (hk : k.isInteger) (h : s.widens t)
    (h' : t.widens k) : s.widens k := by
  revert h h'
  cases s <;> cases hs <;> cases t <;> cases ht <;> cases k <;> cases hk <;> decide

/-- Between integers there are widenings, and numeric conversions for all else. -/
theorem classify_integers (r : Registry) (hs : s.isInteger) (ht : t.isInteger) :
    r.classify (.builtin s) (.builtin t) =
      .ok (if s = t then .identity else if s.widens t then .widen else .numeric) := by
  cases s <;> cases hs <;> cases t <;> cases ht <;> rfl

theorem widens_of_classify {r : Registry} (hs : s.isInteger) (ht : t.isInteger)
    (h : r.classify (.builtin s) (.builtin t) = .ok .widen) : s.widens t := by
  rw [classify_integers r hs ht] at h
  by_contra hnot
  rw [if_neg hnot] at h
  split at h <;> cases h

end Builtin

namespace Arithmetic

open Builtin in
/-- Conversions between integers, characters among them, are modular, and widening loses nothing: the
integer stays what it is, the conversion back gives the old value, and it does not matter whether a
type in between is passed. -/
theorem conversions_modular (r : Registry) {s t : Builtin} (hs : s.isIntegral) (ht : t.isIntegral)
    {v : Value} {n : Int} (hv : v.Denotes s.tag n) :
    Wraps t.tag n (convert s.tag t.tag v) ∧
      (s.isInteger → t.isInteger → r.classify (.builtin s) (.builtin t) = .ok .widen →
        ∃ u, convert s.tag t.tag v = .ok u ∧ u.Denotes t.tag n ∧
          r.classify (.builtin t) (.builtin s) = .ok .numeric ∧ convert t.tag s.tag u = .ok v ∧
          ∀ k : Builtin, k.isInteger → r.classify (.builtin t) (.builtin k) = .ok .widen →
            r.classify (.builtin s) (.builtin k) = .ok .widen ∧
              convert t.tag k.tag u = convert s.tag k.tag v) := by
  have hwraps := convert_wraps (tag_of_isIntegral ht) s.tag hv
  refine ⟨hwraps, fun hs' ht' hclass => ?_⟩
  have hwidens := widens_of_classify hs' ht' hclass
  obtain ⟨u, hu, hden⟩ := hwraps.gives (inRange_of_widens hs' ht' hwidens hv.inRange)
  refine ⟨u, hu, hden, ?_, ?_, fun k hk hclass' => ?_⟩
  · have hne : t ≠ s := by
      rintro rfl
      simp [not_widens_of_widens hs' ht' hwidens] at hwidens
    rw [classify_integers r ht' hs', if_neg hne, not_widens_of_widens hs' ht' hwidens]
    rfl
  · obtain ⟨v', hv', hden'⟩ := (convert_wraps (tag_of_isIntegral hs) t.tag hden).gives hv.inRange
    rw [hv', hden'.value_unique hv]
  · have hwidens' := widens_of_classify ht' hk hclass'
    have hthrough := widens_trans hs' ht' hk hwidens hwidens'
    have hrange := inRange_of_widens hs' hk hthrough hv.inRange
    have hk' := tag_of_isIntegral (isIntegral_of_isInteger hk)
    obtain ⟨x, hx, hdenx⟩ := (convert_wraps hk' t.tag hden).gives hrange
    obtain ⟨y, hy, hdeny⟩ := (convert_wraps hk' s.tag hv).gives hrange
    refine ⟨?_, by rw [hx, hy, hdenx.value_unique hdeny]⟩
    have hne : s ≠ k := by
      rintro rfl
      simp [not_widens_of_widens hs' hk hthrough] at hthrough
    rw [classify_integers r hs' hk, if_neg hne, if_pos hthrough]

/-- Eight bits in sixteen. -/
theorem conversions_modular_byte :
    (Value.int (-128)).Denotes .i8 (-128) ∧
      Wraps .i16 (-128) (convert .i8 .i16 (.int (-128))) ∧
      ∃ u, convert .i8 .i16 (.int (-128)) = .ok u ∧ u.Denotes .i16 (-128) ∧
        convert .i16 .i8 u = .ok (.int (-128)) ∧
        convert .i16 .i64 u = convert .i8 .i64 (.int (-128)) := by
  have hv : (Value.int (-128)).Denotes .i8 (-128) := .signed (x := -128) rfl (by decide)
  obtain ⟨hwraps, hwiden⟩ := conversions_modular .empty (s := .i8) (t := .i16) rfl rfl hv
  obtain ⟨u, hu, hden, -, hback, hthrough⟩ := hwiden rfl rfl rfl
  exact ⟨hv, hwraps, u, hu, hden, hback, (hthrough .i64 rfl rfl).2⟩

end Arithmetic
end TypedScript
