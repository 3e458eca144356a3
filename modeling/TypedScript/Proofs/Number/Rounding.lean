import Mathlib.Algebra.Order.Field.Power
import Mathlib.Data.Nat.Log
import Mathlib.Tactic.FieldSimp
import Mathlib.Tactic.Linarith
import Mathlib.Tactic.NormNum
import Mathlib.Tactic.Positivity
import Mathlib.Tactic.Ring
import TypedScript.Number.Double

/-!
# Rounding keeps what a format holds

Rounding scales a number by a power of two so that it has as many bits before the point as the format
keeps, and takes the nearest integer. So a number whose significand has no more bits comes out as it
was, and every result has a significand of no more bits.
-/

namespace TypedScript

namespace Scaled

def toRat (s : Scaled) : ℚ := s.significand * 2 ^ s.exponent

/-- What the quotient by a power of two is, as a number. -/
theorem descale_eq (num den : Nat) (hden : 0 < den) (e : Int) :
    0 < (descale num den e).2 ∧
      ((descale num den e).1 : ℚ) / (descale num den e).2 = (num : ℚ) / den / 2 ^ e := by
  cases e with
  | ofNat k =>
    refine ⟨Nat.mul_pos hden (Nat.two_pow_pos k), ?_⟩
    simp only [descale, Int.ofNat_eq_natCast, zpow_natCast, Nat.pow_eq]
    push_cast
    rw [div_div]
  | negSucc k =>
    refine ⟨hden, ?_⟩
    simp only [descale, zpow_negSucc, Nat.pow_eq]
    push_cast
    rw [div_inv_eq_mul]
    ring

theorem ratio_eq (s : Scaled) : 0 < s.ratio.2 ∧ (s.ratio.1 : ℚ) / s.ratio.2 = s.toRat := by
  obtain ⟨m, e⟩ := s
  cases e with
  | ofNat k => simp [ratio, toRat]
  | negSucc k =>
    refine ⟨Nat.two_pow_pos _, ?_⟩
    simp [ratio, toRat, zpow_negSucc, div_eq_mul_inv]

/-- The logarithms of numerator and denominator tell the magnitude of a ratio up to a factor of two. -/
theorem ratio_bounds {num den : Nat} (hnum : 0 < num) (hden : 0 < den) :
    (2 : ℚ) ^ ((num.log2 : Int) - den.log2 - 1) < num / den ∧
      (num : ℚ) / den < 2 ^ ((num.log2 : Int) - den.log2 + 1) := by
  have hpos : (0 : ℚ) < den := by exact_mod_cast hden
  have hnum' : (2 : ℚ) ^ num.log2 ≤ num ∧ (num : ℚ) < 2 ^ (num.log2 + 1) := by
    exact ⟨by exact_mod_cast Nat.log2_self_le hnum.ne', by exact_mod_cast Nat.lt_log2_self⟩
  have hden' : (2 : ℚ) ^ den.log2 ≤ den ∧ (den : ℚ) < 2 ^ (den.log2 + 1) := by
    exact ⟨by exact_mod_cast Nat.log2_self_le hden.ne', by exact_mod_cast Nat.lt_log2_self⟩
  constructor
  · rw [lt_div_iff₀ hpos]
    calc (2 : ℚ) ^ ((num.log2 : Int) - den.log2 - 1) * den
        < 2 ^ ((num.log2 : Int) - den.log2 - 1) * 2 ^ (den.log2 + 1) := by
          exact mul_lt_mul_of_pos_left hden'.2 (by positivity)
      _ = 2 ^ num.log2 := by
          rw [← zpow_natCast, ← zpow_add₀ two_ne_zero, ← zpow_natCast]
          congr 1
          push_cast
          ring
      _ ≤ num := hnum'.1
  · rw [div_lt_iff₀ hpos]
    calc (num : ℚ) < 2 ^ (num.log2 + 1) := hnum'.2
      _ = 2 ^ ((num.log2 : Int) - den.log2 + 1) * 2 ^ den.log2 := by
          rw [← zpow_natCast, ← zpow_natCast, ← zpow_add₀ two_ne_zero]
          congr 1
          push_cast
          ring
      _ ≤ 2 ^ ((num.log2 : Int) - den.log2 + 1) * den := by
          exact mul_le_mul_of_nonneg_left hden'.1 (by positivity)

/-- The number scaled by the exponent it is rounded to has `precision` bits before the point, or fewer
only if the exponent is the least one. -/
theorem targetExponent_spec (f : BinaryFormat) {num den : Nat} (hnum : 0 < num)
    (hden : 0 < den) :
    f.leastExponent ≤ targetExponent f num den ∧
      (num : ℚ) / den < 2 ^ (targetExponent f num den + f.precision) ∧
      (2 ^ (targetExponent f num den + f.precision - 1) ≤ (num : ℚ) / den ∨
        targetExponent f num den = f.leastExponent) := by
  obtain ⟨hlow, hhigh⟩ := ratio_bounds hnum hden
  set guess : Int := (num.log2 : Int) - den.log2 - f.precision with hguess
  obtain ⟨hd, hq⟩ := descale_eq num den hden guess
  have hd' : (0 : ℚ) < (descale num den guess).2 := by exact_mod_cast hd
  have htest : (descale num den guess).1 < (descale num den guess).2 * Nat.pow 2 f.precision ↔
      (num : ℚ) / den < 2 ^ (guess + f.precision) := by
    rw [zpow_add₀ two_ne_zero, ← div_lt_iff₀' (by positivity), ← hq, div_lt_iff₀' hd', zpow_natCast]
    exact_mod_cast Iff.rfl
  set exact : Int := if (descale num den guess).1 < (descale num den guess).2 * Nat.pow 2 f.precision
    then guess else guess + 1 with hexact
  have htarget : targetExponent f num den = max exact f.leastExponent := rfl
  have hbounds : (num : ℚ) / den < 2 ^ (exact + f.precision) ∧
      2 ^ (exact + f.precision - 1) ≤ (num : ℚ) / den := by
    rw [hexact]
    split
    · rename_i h
      refine ⟨htest.mp h, ?_⟩
      rw [show guess + f.precision - 1 = (num.log2 : Int) - den.log2 - 1 by omega]
      exact hlow.le
    · rename_i h
      refine ⟨?_, ?_⟩
      · rw [show guess + 1 + f.precision = (num.log2 : Int) - den.log2 + 1 by omega]
        exact hhigh
      · rw [show guess + 1 + f.precision - 1 = guess + f.precision by omega]
        exact not_lt.mp (mt htest.mpr h)
  refine ⟨by rw [htarget]; exact le_max_right _ _, ?_, ?_⟩
  · refine hbounds.1.trans_le (zpow_le_zpow_right₀ one_le_two ?_)
    rw [htarget]
    exact add_le_add_left (le_max_left _ _) _
  · rw [htarget]
    rcases le_total exact f.leastExponent with h | h
    · exact .inr (max_eq_right h)
    · rw [max_eq_left h]
      exact .inl hbounds.2

theorem roundedQuotient_le {num den k : Nat} (hden : 0 < den) (h : num < k * den) :
    roundedQuotient num den ≤ k := by
  have hq : num / den < k := (Nat.div_lt_iff_lt_mul hden).mpr h
  unfold roundedQuotient
  dsimp only
  split
  · omega
  · split
    · omega
    · split <;> omega

theorem le_roundedQuotient (num den : Nat) : num / den ≤ roundedQuotient num den := by
  unfold roundedQuotient
  dsimp only
  split
  · exact le_rfl
  · split
    · omega
    · split <;> omega

/-- A quotient without a remainder is not changed. -/
theorem roundedQuotient_of_dvd {num den : Nat} (hden : 0 < den) (h : den ∣ num) :
    roundedQuotient num den = num / den := by
  unfold roundedQuotient
  simp [Nat.mod_eq_zero_of_dvd h, hden]

/-- The form in which a format holds a number: with all its bits, unless the number is too small. -/
structure Canonical (f : BinaryFormat) (s : Scaled) : Prop where
  significand_lt : s.significand < 2 ^ f.precision
  least_le : f.leastExponent ≤ s.exponent
  full : 2 ^ (f.precision - 1) ≤ s.significand ∨ s.exponent = f.leastExponent
  bounded : s.exponent + f.precision ≤ f.limit ∨ s.significand < 2 ^ (f.precision - 1)

section

variable {f : BinaryFormat} {num den : Nat}

/-- A number is rounded through a quotient of natural numbers, which has `precision` bits before the
point; only the next power of two above it needs one bit more. -/
theorem exists_quotient (f : BinaryFormat) (num : Nat) (hden : 0 < den) :
    ∃ (n d : Nat) (r : Scaled), 0 < d ∧ (n : ℚ) / d = num / den / 2 ^ targetExponent f num den ∧
      (roundedQuotient n d = 2 * 2 ^ (f.precision - 1) ∧
          r = ⟨2 ^ (f.precision - 1), targetExponent f num den + 1⟩ ∨
        roundedQuotient n d ≠ 2 * 2 ^ (f.precision - 1) ∧
          r = ⟨roundedQuotient n d, targetExponent f num den⟩) ∧
      round? f num den =
        if (f.limit : Int) < r.exponent + f.precision ∧ 2 ^ (f.precision - 1) ≤ r.significand
          then none else some r := by
  obtain ⟨hd, hq⟩ := descale_eq num den hden (targetExponent f num den)
  by_cases hcarry : roundedQuotient (descale num den (targetExponent f num den)).1
      (descale num den (targetExponent f num den)).2 = 2 * 2 ^ (f.precision - 1)
  · refine ⟨_, _, _, hd, hq, .inl ⟨hcarry, rfl⟩, ?_⟩
    simp [round?, hcarry]
  · refine ⟨_, _, _, hd, hq, .inr ⟨hcarry, rfl⟩, ?_⟩
    simp [round?, hcarry]

theorem round?_canonical (hp : 0 < f.precision) (hnum : 0 < num) (hden : 0 < den) {s : Scaled}
    (h : round? f num den = some s) : s.Canonical f := by
  have htop : 2 * 2 ^ (f.precision - 1) = 2 ^ f.precision := by
    rw [← pow_succ', Nat.sub_add_cancel hp]
  have hpos : 0 < 2 ^ (f.precision - 1) := Nat.two_pow_pos _
  obtain ⟨hleast, hlt, hfull⟩ := targetExponent_spec f hnum hden
  obtain ⟨n, d, r, hd, hq, hr, hround⟩ := exists_quotient f num hden
  have hd' : (0 : ℚ) < d := by exact_mod_cast hd
  have hle : roundedQuotient n d ≤ 2 ^ f.precision := by
    refine roundedQuotient_le hd ?_
    rw [zpow_add₀ two_ne_zero, ← div_lt_iff₀' (by positivity), ← hq, div_lt_iff₀ hd', zpow_natCast]
      at hlt
    exact_mod_cast hlt
  have hge : 2 ^ (f.precision - 1) ≤ roundedQuotient n d ∨
      targetExponent f num den = f.leastExponent := by
    refine hfull.imp_left fun hfull => le_trans ?_ (le_roundedQuotient n d)
    rw [show targetExponent f num den + f.precision - 1 =
      targetExponent f num den + (f.precision - 1 : Nat) by omega, zpow_add₀ two_ne_zero,
      ← le_div_iff₀' (by positivity), ← hq, le_div_iff₀ hd', zpow_natCast] at hfull
    exact (Nat.le_div_iff_mul_le hd).mpr (by exact_mod_cast hfull)
  rw [hround] at h
  split at h
  · cases h
  rename_i hbounded
  cases h
  rw [not_and_or, not_lt, not_le] at hbounded
  rcases hr with ⟨hcarry, rfl⟩ | ⟨hcarry, rfl⟩
  · exact ⟨by dsimp only; omega, by dsimp only; omega, .inl le_rfl, hbounded⟩
  · exact ⟨by dsimp only; omega, hleast, hge, hbounded⟩

/-- Rounding does not change a number that the format holds. -/
theorem round?_exact (hp : 0 < f.precision) (hnum : 0 < num) (hden : 0 < den) {k : Nat} {j : Int}
    (h : (num : ℚ) / den = k * 2 ^ j) (hk : k ≤ 2 ^ f.precision) (hj : f.leastExponent ≤ j)
    (hlimit : (num : ℚ) / den < 2 ^ f.limit) :
    ∃ s, round? f num den = some s ∧ s.toRat = num / den := by
  have htop : 2 * 2 ^ (f.precision - 1) = 2 ^ f.precision := by
    rw [← pow_succ', Nat.sub_add_cancel hp]
  obtain ⟨hleast, hlt, hfull⟩ := targetExponent_spec f hnum hden
  obtain ⟨n, d, r, hd, hq, hr, hround⟩ := exists_quotient f num hden
  have hd' : (0 : ℚ) < d := by exact_mod_cast hd
  generalize targetExponent f num den = e at *
  obtain ⟨c, hc⟩ : ∃ c : Nat, (num : ℚ) / den = c * 2 ^ e := by
    rcases le_or_gt e j with hej | hej
    · refine ⟨k * 2 ^ (j - e).toNat, ?_⟩
      push_cast
      rw [h, mul_assoc, ← zpow_natCast, ← zpow_add₀ two_ne_zero]
      congr 2
      omega
    · -- Only the next power of two above a full significand is scaled down once more than it needs.
      have hfull : (2 : ℚ) ^ (e + f.precision - 1) ≤ k * 2 ^ j := by
        rw [← h]
        exact hfull.resolve_right (by omega)
      have hk' : (k : ℚ) ≤ 2 ^ f.precision := by exact_mod_cast hk
      have hle : (2 : ℚ) ^ (e + f.precision - 1) ≤ 2 ^ (f.precision + j) := by
        rw [zpow_add₀ two_ne_zero, zpow_natCast]
        exact hfull.trans (mul_le_mul_of_nonneg_right hk' (by positivity))
      have hej' : j = e - 1 := by
        have := (zpow_le_zpow_iff_right₀ one_lt_two).mp hle
        omega
      subst hej'
      refine ⟨2 ^ (f.precision - 1), ?_⟩
      rw [show e + f.precision - 1 = f.precision + (e - 1) by omega, zpow_add₀ two_ne_zero,
        mul_le_mul_iff_left₀ (by positivity), zpow_natCast] at hfull
      push_cast
      rw [h, le_antisymm hk' hfull, ← zpow_natCast, ← zpow_natCast, ← zpow_add₀ two_ne_zero,
        ← zpow_add₀ two_ne_zero]
      congr 1
      omega
  have hcd : n = c * d := by
    rw [hc, mul_div_cancel_right₀ _ (by positivity), div_eq_iff hd'.ne'] at hq
    exact_mod_cast hq
  have hrq : roundedQuotient n d = c := by
    rw [hcd, roundedQuotient_of_dvd hd (Nat.dvd_mul_left d c), Nat.mul_div_cancel _ hd]
  have hclt : c < 2 ^ f.precision := by
    rw [hc, add_comm, zpow_add₀ two_ne_zero, mul_lt_mul_iff_left₀ (by positivity), zpow_natCast] at hlt
    exact_mod_cast hlt
  obtain rfl : r = ⟨c, e⟩ := by
    rcases hr with ⟨hcarry, -⟩ | ⟨-, rfl⟩
    · omega
    · rw [hrq]
  refine ⟨_, hround.trans (if_neg ?_), hc.symm⟩
  rintro ⟨hover, hbig⟩
  refine absurd hlimit (not_lt.mpr ?_)
  have hbig' : (2 : ℚ) ^ (f.precision - 1) ≤ c := by exact_mod_cast hbig
  calc (2 : ℚ) ^ f.limit = 2 ^ (f.limit : Int) := (zpow_natCast _ _).symm
    _ ≤ 2 ^ (((f.precision - 1 : Nat) : Int) + e) := by
        refine zpow_le_zpow_right₀ one_le_two ?_
        dsimp only at hover
        omega
    _ = 2 ^ (f.precision - 1) * 2 ^ e := by rw [zpow_add₀ two_ne_zero, zpow_natCast]
    _ ≤ c * 2 ^ e := mul_le_mul_of_nonneg_right hbig' (by positivity)
    _ = num / den := hc.symm

/-- A format holds numbers below the power of two that is its limit. -/
theorem Canonical.toRat_lt {s : Scaled} (h : s.Canonical f) (hp : 0 < f.precision)
    (hlimit : 0 < f.limit) :
    s.toRat < 2 ^ f.limit := by
  have hbound : ∀ k : Nat, s.significand < 2 ^ k → s.exponent + k ≤ f.limit → s.toRat < 2 ^ f.limit := by
    intro k hk hle
    have hk' : (s.significand : ℚ) < 2 ^ k := by exact_mod_cast hk
    calc s.toRat = s.significand * 2 ^ s.exponent := rfl
      _ < 2 ^ k * 2 ^ s.exponent := mul_lt_mul_of_pos_right hk' (by positivity)
      _ = 2 ^ ((k : Int) + s.exponent) := by rw [zpow_add₀ two_ne_zero, zpow_natCast]
      _ ≤ 2 ^ (f.limit : Int) := zpow_le_zpow_right₀ one_le_two (by omega)
      _ = 2 ^ f.limit := zpow_natCast _ _
  rcases h.bounded with hb | hb
  · exact hbound _ h.significand_lt hb
  · refine hbound _ hb ?_
    have hleast := h.full.resolve_left (by omega)
    rw [hleast, BinaryFormat.leastExponent]
    omega

end

end Scaled

/-- All numbers of the format are double-precision numbers. -/
structure BinaryFormat.InDouble (f : BinaryFormat) : Prop where
  precision_pos : 0 < f.precision
  precision_le : f.precision ≤ 53
  limit_pos : 0 < f.limit
  limit_le : f.limit ≤ 1024
  least_le : -1074 ≤ f.leastExponent

theorem BinaryFormat.double_inDouble : BinaryFormat.double.InDouble := by
  constructor <;> decide

theorem BinaryFormat.single_inDouble : BinaryFormat.single.InDouble := by
  constructor <;> decide

namespace Double

def isFinite (x : Double) : Bool := !x.isNaN && !x.isInfinite

def toRat (x : Double) : ℚ := if x.isNegative then -x.magnitude.toRat else x.magnitude.toRat

theorem toNat_magnitudeBits (x : Double) : x.magnitudeBits.toNat = x.bits.toNat % 2 ^ 63 := by
  rw [magnitudeBits, UInt64.toNat_and]
  exact Nat.and_two_pow_sub_one_eq_mod _ 63

theorem isNegative_iff (x : Double) : x.isNegative ↔ 2 ^ 63 ≤ x.bits.toNat := by
  simp [isNegative, UInt64.le_iff_toNat_le]

/-- The bits without the sign of a number in canonical form. -/
def packed (s : Scaled) : Nat :=
  if s.significand < hiddenBit then s.significand
  else (s.exponent + 1075).toNat * hiddenBit + (s.significand - hiddenBit)

theorem ofScaled_bits {s : Scaled} (negative : Bool) (h : packed s < 2 ^ 63) :
    (ofScaled negative s).bits.toNat = if negative then packed s + 2 ^ 63 else packed s := by
  have hbits : (ofScaled negative s).bits =
      UInt64.ofNat (if negative then packed s + 2 ^ 63 else packed s) := rfl
  rw [hbits, UInt64.toNat_ofNat_of_lt']
  change _ < 2 ^ 64
  split <;> omega

/-- The exponent of a canonical number is what its bits say above the fraction. -/
theorem packed_spec {s : Scaled} (h : s.Canonical .double) : packed s < 2047 * hiddenBit ∧
    (if packed s / hiddenBit = 0 then (⟨packed s, -1074⟩ : Scaled)
      else ⟨packed s % hiddenBit + hiddenBit, ((packed s / hiddenBit : Nat) : Int) - 1075⟩) = s := by
  obtain ⟨m, e⟩ := s
  obtain ⟨hlt, hleast, hfull, hbounded⟩ := h
  simp only [BinaryFormat.double, BinaryFormat.leastExponent] at hlt hleast hfull hbounded
  norm_num at hlt hleast hfull hbounded
  unfold packed hiddenBit
  dsimp only
  by_cases hm : m < 0x10000000000000
  · obtain rfl : e = -1074 := hfull.resolve_left (by omega)
    rw [if_pos hm, if_pos (Nat.div_eq_of_lt hm)]
    exact ⟨by omega, rfl⟩
  · have he : e ≤ 971 := by
      have := hbounded.resolve_right (by omega)
      omega
    have hdiv : ((e + 1075).toNat * 0x10000000000000 + (m - 0x10000000000000)) / 0x10000000000000 =
        (e + 1075).toNat := by omega
    have hmod : ((e + 1075).toNat * 0x10000000000000 + (m - 0x10000000000000)) % 0x10000000000000 =
        m - 0x10000000000000 := by omega
    rw [if_neg hm, hdiv, hmod, if_neg (by omega)]
    refine ⟨by omega, ?_⟩
    rw [Scaled.mk.injEq]
    omega

/-- The bits of a number in canonical form give it back. -/
theorem ofScaled_spec {s : Scaled} (h : s.Canonical .double) (negative : Bool) :
    (ofScaled negative s).isFinite ∧ (ofScaled negative s).isNegative = negative ∧
      (ofScaled negative s).magnitude = s := by
  obtain ⟨hlt, hunpacked⟩ := packed_spec h
  have hlt' : packed s < 2 ^ 63 := by
    unfold hiddenBit at hlt
    omega
  have hbits := ofScaled_bits negative hlt'
  have hmagnitude : (ofScaled negative s).magnitudeBits.toNat = packed s := by
    rw [toNat_magnitudeBits, hbits]
    split <;> omega
  refine ⟨?_, ?_, ?_⟩
  · unfold hiddenBit at hlt
    simp [isFinite, isNaN, isInfinite, UInt64.lt_iff_toNat_lt, ← UInt64.toNat_inj, hmagnitude]
    omega
  · rw [Bool.eq_iff_iff, isNegative_iff, hbits]
    cases negative
    · simpa using hlt'
    · simp
  · unfold magnitude
    rw [hmagnitude]
    exact hunpacked

theorem toRat_ofScaled {s : Scaled} (h : s.Canonical .double) (negative : Bool) :
    (ofScaled negative s).toRat = if negative then -s.toRat else s.toRat := by
  obtain ⟨-, hsign, hmagnitude⟩ := ofScaled_spec h negative
  rw [toRat, hsign, hmagnitude]

theorem zeroOf_spec (negative : Bool) :
    (zeroOf negative).isFinite ∧ (zeroOf negative).toRat = 0 := by
  have hmagnitude : (zeroOf negative).magnitude = ⟨0, -1074⟩ := by cases negative <;> decide
  exact ⟨by cases negative <;> decide, by simp [toRat, Scaled.toRat, hmagnitude]⟩

theorem not_isFinite_infinityOf (negative : Bool) : (infinityOf negative).isFinite = false := by
  cases negative <;> decide

variable {f : BinaryFormat} {num den : Nat}

/-- What is rounded to a format in between is not changed by rounding it again. -/
theorem ofRatio_of_round? (hf : f.InDouble) (negative : Bool) (hnum : 0 < num) (hden : 0 < den)
    {s : Scaled} (h : Scaled.round? f num den = some s) :
    (ofRatio f negative num den).isFinite ∧
      (ofRatio f negative num den).toRat = if negative then -s.toRat else s.toRat := by
  have hs := Scaled.round?_canonical hf.precision_pos hnum hden h
  by_cases hzero : s.significand = 0
  · have hofRatio : ofRatio f negative num den = zeroOf negative := by
      simp [ofRatio, ofRatio?, hnum.ne', h, hzero]
    obtain ⟨hfinite, hrat⟩ := zeroOf_spec negative
    rw [hofRatio, hrat]
    exact ⟨hfinite, by simp [Scaled.toRat, hzero]⟩
  · obtain ⟨hpos, hratio⟩ := s.ratio_eq
    have hpos' : (0 : ℚ) < s.ratio.2 := by exact_mod_cast hpos
    have hnonzero : 0 < s.ratio.1 := by
      have hsig : (0 : ℚ) < s.significand := by exact_mod_cast Nat.pos_of_ne_zero hzero
      have hrat : (0 : ℚ) < (s.ratio.1 : ℚ) / s.ratio.2 := by
        rw [hratio]
        exact mul_pos hsig (by positivity)
      rw [div_pos_iff_of_pos_right hpos'] at hrat
      exact_mod_cast hrat
    have hsmall : s.toRat < 2 ^ BinaryFormat.double.limit :=
      (hs.toRat_lt hf.precision_pos hf.limit_pos).trans_le
        (pow_le_pow_right₀ one_le_two hf.limit_le)
    obtain ⟨exact, hexact, hrat⟩ := Scaled.round?_exact (f := .double) (by decide) hnonzero hpos
      hratio (hs.significand_lt.le.trans (Nat.pow_le_pow_right (by decide) hf.precision_le))
      (hf.least_le.trans hs.least_le) (by rwa [hratio])
    have hofRatio : ofRatio f negative num den = ofScaled negative exact := by
      simp [ofRatio, ofRatio?, hnum.ne', h, hzero, hexact]
    have hcanonical := Scaled.round?_canonical (by decide) hnonzero hpos hexact
    rw [hofRatio, toRat_ofScaled hcanonical, hrat, hratio]
    exact ⟨(ofScaled_spec hcanonical negative).1, rfl⟩

/-- A number that a format holds is not changed. -/
theorem ofRatio_exact (hf : f.InDouble) (negative : Bool) (hden : 0 < den) {k : Nat} {j : Int}
    (h : (num : ℚ) / den = k * 2 ^ j) (hk : k ≤ 2 ^ f.precision) (hj : f.leastExponent ≤ j)
    (hlimit : (num : ℚ) / den < 2 ^ f.limit) :
    (ofRatio f negative num den).isFinite ∧
      (ofRatio f negative num den).toRat = if negative then -(num / den : ℚ) else num / den := by
  rcases Nat.eq_zero_or_pos num with rfl | hnum
  · obtain ⟨hfinite, hrat⟩ := zeroOf_spec negative
    have hofRatio : ofRatio f negative 0 den = zeroOf negative := rfl
    rw [hofRatio, hrat]
    exact ⟨hfinite, by simp⟩
  · obtain ⟨s, hs, hrat⟩ := Scaled.round?_exact hf.precision_pos hnum hden h hk hj hlimit
    rw [← hrat]
    exact ofRatio_of_round? hf negative hnum hden hs

/-- What comes out of rounding to a format has no more bits than it keeps. -/
theorem exists_of_isFinite_ofRatio (hf : f.InDouble) (negative : Bool) (hden : 0 < den)
    (h : (ofRatio f negative num den).isFinite) : ∃ (k : Nat) (j : Int), k ≤ 2 ^ f.precision ∧
      (ofRatio f negative num den).toRat = if negative then -(k * 2 ^ j : ℚ) else k * 2 ^ j := by
  rcases Nat.eq_zero_or_pos num with rfl | hnum
  · have hofRatio : ofRatio f negative 0 den = zeroOf negative := rfl
    refine ⟨0, 0, Nat.zero_le _, ?_⟩
    rw [hofRatio, (zeroOf_spec negative).2]
    simp
  · cases hround : Scaled.round? f num den with
    | none =>
      have hofRatio : ofRatio f negative num den = infinityOf negative := by
        simp [ofRatio, ofRatio?, hnum.ne', hround]
      rw [hofRatio, not_isFinite_infinityOf] at h
      cases h
    | some s =>
      have hs := Scaled.round?_canonical hf.precision_pos hnum hden hround
      exact ⟨s.significand, s.exponent, hs.significand_lt.le,
        (ofRatio_of_round? hf negative hnum hden hround).2⟩

end Double

end TypedScript
