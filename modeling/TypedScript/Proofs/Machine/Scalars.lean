import TypedScript.Proofs.Machine.Integers
import TypedScript.Proofs.Machine.Results
import TypedScript.Proofs.Number.Numerals

/-!
# Texts of scalars

An integer is written in decimal, a truth value as its name and a character as a text of its own. Each
is read back from its text, except the replacement character: the reader takes it for the mark of a
text that is none.
-/

namespace TypedScript

namespace Number

theorem natural_toDigits {most n : Nat} (hn : n ≤ most) :
    natural 10 most (Nat.toDigits 10 n) = .ok n := by
  have hsome : (Nat.toDigits 10 n).isEmpty = false :=
    List.isEmpty_eq_false_iff.mpr (toDigits_ne_nil 10 n (by decide))
  rw [natural, hsome]
  exact digitsFrom_toDigits (by decide) (by decide) hn

/-- A digit is no sign and no blank. -/
theorem digit_plain (n : Nat) : ∀ c ∈ Nat.toDigits 10 n, c ≠ '-' ∧ c ≠ '+' ∧ Text.isBlank c = false :=
  forall_digitChar 10 (by decide) (by decide) n

theorem toList_toString_nat (n : Nat) : (toString n).toList = Nat.toDigits 10 n := by
  simp [toString, Nat.repr]

theorem toList_toString_ofNat (n : Nat) : (toString (Int.ofNat n)).toList = Nat.toDigits 10 n :=
  toList_toString_nat n

theorem toList_toString_negSucc (n : Nat) :
    (toString (Int.negSucc n)).toList = '-' :: Nat.toDigits 10 (n + 1) := by
  simp [toString, Int.repr, Nat.repr]

/-- A natural number is read back from its decimal text. -/
theorem unsigned?_toDigits {width n : Nat} (hn : n < 2 ^ width) :
    unsigned? width (Nat.toDigits 10 n) = some n := by
  rw [unsigned?, Nat.pow_eq, natural_toDigits (Nat.le_sub_one_of_lt hn)]
  rfl

/-- An integer is read back from its decimal text, which has a sign only if the integer is negative. -/
theorem signed?_toString {width : Nat} {n : Int} (hlow : -(2 ^ (width - 1) : Int) ≤ n)
    (hhigh : n < 2 ^ (width - 1)) : signed? width (toString n).toList = some n := by
  have hcast : ((2 ^ (width - 1) : Nat) : Int) = 2 ^ (width - 1) := by norm_cast
  have hpos : 0 < 2 ^ (width - 1) := Nat.two_pow_pos _
  cases n with
  | ofNat n =>
    have hn : n ≤ 2 ^ (width - 1) - 1 := by
      rw [Int.ofNat_eq_natCast] at hhigh
      omega
    have hread := natural_toDigits hn
    rw [toList_toString_ofNat]
    obtain ⟨d, ds, hds⟩ := List.exists_cons_of_ne_nil (toDigits_ne_nil 10 n (by decide))
    have hd := digit_plain n d (by rw [hds]; exact List.mem_cons_self)
    rw [hds] at hread ⊢
    unfold signed?
    split
    · next heq => exact absurd (List.cons.inj heq).1 hd.1
    · next heq => exact absurd (List.cons.inj heq).1 hd.2.1
    · simp only [Nat.pow_eq, hread]
      rfl
  | negSucc n =>
    have hn : n + 1 ≤ 2 ^ (width - 1) := by
      rw [Int.negSucc_eq] at hlow
      omega
    rw [toList_toString_negSucc, signed?, Nat.pow_eq, natural_toDigits hn]
    rfl

end Number

namespace Text

/-- Nothing is cut from a text without blanks. -/
theorem trimBlanks_eq_self {cs : List Char} (h : ∀ c ∈ cs, isBlank c = false) :
    trimBlanks cs = cs := by
  have hkeep : ∀ {ds : List Char}, (∀ c ∈ ds, isBlank c = false) → ds.dropWhile isBlank = ds := by
    intro ds hds
    cases ds with
    | nil => rfl
    | cons d ds => exact List.dropWhile_cons_of_neg (by simp [hds d List.mem_cons_self])
  rw [trimBlanks, hkeep h, hkeep (by simpa using h), List.reverse_reverse]

/-- The decimal text of an integer has no blanks. -/
theorem trimBlanks_toString (n : Int) : trimBlanks (toString n).toList = (toString n).toList := by
  refine trimBlanks_eq_self ?_
  cases n with
  | ofNat n =>
    rw [Number.toList_toString_ofNat]
    exact fun c hc => (Number.digit_plain n c hc).2.2
  | negSucc n =>
    rw [Number.toList_toString_negSucc, List.forall_mem_cons]
    exact ⟨by decide, fun c hc => (Number.digit_plain (n + 1) c hc).2.2⟩

end Text

namespace Value

variable {t : Tag} {v : Value} {n : Int}

/-- An integer of a tag, a truth value, or a character that is a scalar value. -/
inductive IsScalar : Tag → Value → Prop
  | integer {t : Tag} {v : Value} {n : Int} : t.isSigned || t.isUnsigned → v.Denotes t n → IsScalar t v
  | bool (b : Bool) : IsScalar .bool (.bool b)
  | char (c : Char) : IsScalar .char (.char (Int32.ofNat c.toNat))

/-- The replacement character. -/
def replacement : Value := .char 0xFFFD

theorem parse?_signed (ht : t.isSigned) (text : String) : parse? t text =
    (Number.signed? t.bits (Text.trimBlanks text.toList)).map fun n => .int (Int64.ofInt n) := by
  cases t <;> first | exact absurd ht (by decide) | rfl

theorem parse?_unsigned (ht : t.isUnsigned) (text : String) : parse? t text =
    (Number.unsigned? t.bits (Text.trimBlanks text.toList)).map fun n => .uint (UInt64.ofNat n) := by
  cases t <;> first | exact absurd ht (by decide) | rfl

theorem Denotes.parse?_toString (ht : t.isSigned || t.isUnsigned) (h : v.Denotes t n) :
    parse? t (toString n) = some v := by
  cases h with
  | @signed t x hs hx =>
    have hrange := (Tag.inRange_of_not_isUnsigned (Tag.not_isUnsigned hs)).mp hx
    rw [Tag.width_of_isSigned hs] at hrange
    rw [parse?_signed hs, Text.trimBlanks_toString, Number.signed?_toString hrange.1 hrange.2,
      Option.map_some, Int64.ofInt_toInt]
  | @unsigned t x hu hx =>
    have hrange := ((Tag.inRange_of_isUnsigned hu).mp hx).2
    rw [Tag.width_of_isUnsigned hu] at hrange
    have htext : (toString (x.toNat : Int)).toList = Nat.toDigits 10 x.toNat :=
      Number.toList_toString_ofNat x.toNat
    rw [parse?_unsigned hu, Text.trimBlanks_toString, htext,
      Number.unsigned?_toDigits (by exact_mod_cast hrange), Option.map_some, UInt64.ofNat_toNat]
  | char => cases ht

/-- What is read for an integer type is one of its integers. -/
theorem denotes_of_parse? (ht : t.isSigned || t.isUnsigned) {text : String}
    (h : parse? t text = some v) : ∃ n, v.Denotes t n := by
  rw [Bool.or_eq_true] at ht
  obtain ht | ht := ht
  · rw [parse?_signed ht] at h
    obtain ⟨n, hn, rfl⟩ := Option.map_eq_some_iff.mp h
    have hrange := Number.signed?_range hn
    have hsmall : (2 ^ (t.bits - 1) : Int) ≤ 2 ^ 63 := by cases t <;> simp [Tag.bits]
    have hvalue : (Int64.ofInt n).toInt = n := Int64.toInt_ofInt_of_le (by omega) (by omega)
    refine ⟨_, .signed ht ?_⟩
    rwa [Tag.inRange_of_not_isUnsigned (Tag.not_isUnsigned ht), Tag.width_of_isSigned ht, hvalue]
  · rw [parse?_unsigned ht] at h
    obtain ⟨n, hn, rfl⟩ := Option.map_eq_some_iff.mp h
    have hrange := Number.unsigned?_range hn
    have hsmall : 2 ^ t.bits ≤ 2 ^ 64 := by cases t <;> simp [Tag.bits]
    have hvalue : (UInt64.ofNat n).toNat = n :=
      UInt64.toNat_ofNat_of_lt' (Nat.lt_of_lt_of_le hrange hsmall)
    refine ⟨_, .unsigned ht ?_⟩
    rw [Tag.inRange_of_isUnsigned ht, Tag.width_of_isUnsigned ht, hvalue]
    exact ⟨Int.natCast_nonneg n, by exact_mod_cast hrange⟩

theorem toInt_ofNat_toNat (c : Char) : (Int32.ofNat c.toNat).toInt = c.toNat := by
  have hvalid : c.toNat.isValidChar := c.valid
  simp only [Nat.isValidChar] at hvalid
  exact Int32.toInt_ofNat_of_lt (by omega)

/-- The text of a character that is a scalar value is that character. -/
theorem codePointChar_toNat (c : Char) : codePointChar (Int32.ofNat c.toNat) = c := by
  have hvalid : (Int32.ofNat c.toNat).toInt.toNat.isValidChar := by
    rw [toInt_ofNat_toNat, Int.toNat_natCast]
    exact c.valid
  have hnonneg : (0 : Int32) ≤ Int32.ofNat c.toNat := by
    rw [Int32.le_iff_toInt_le, toInt_ofNat_toNat]
    exact Int.natCast_nonneg _
  rw [codePointChar, dif_pos hvalid, if_pos hnonneg]
  refine Char.toNat_inj.mp ?_
  change (Int32.ofNat c.toNat).toInt.toNat = c.toNat
  rw [toInt_ofNat_toNat, Int.toNat_natCast]

theorem char_eq_replacement {c : Char} :
    Value.char (Int32.ofNat c.toNat) = replacement ↔ c = '\uFFFD' := by
  rw [replacement, Value.char.injEq, ← Int32.toInt_inj, toInt_ofNat_toNat]
  refine ⟨fun h => ?_, ?_⟩
  · have hnat : (c.toNat : Int) = (0xFFFD : Nat) := h
    exact Char.toNat_inj.mp (Int.natCast_inj.mp hnat)
  · rintro rfl
    rfl

/-- The texts of scalars do not depend on the arrays. -/
theorem IsScalar.exists_text (h : v.IsScalar t) : ∃ text, (∀ heap, v.format? heap = some text) ∧
    parse? t text = if v = replacement then none else some v := by
  cases h with
  | @integer t v n ht h =>
    have hread := h.parse?_toString ht
    have hne : v ≠ replacement := by
      rintro rfl
      cases h
      cases ht
    rw [if_neg hne]
    refine ⟨toString n, fun heap => ?_, hread⟩
    cases h with
    | signed => rfl
    | unsigned => rfl
    | char => cases ht
  | bool b => exact ⟨if b then "true" else "false", fun heap => rfl, by cases b <;> decide⟩
  | char c =>
    refine ⟨String.singleton c, fun heap => ?_, ?_⟩
    · exact congrArg (fun d => some (String.singleton d)) (codePointChar_toNat c)
    · simp only [parse?, String.toList_singleton, char_eq_replacement]

end Value
end TypedScript
