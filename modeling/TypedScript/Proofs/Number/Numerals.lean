import Mathlib.Data.List.Forall2
import TypedScript.Number.Integer

/-!
# Written numbers

Every 64-bit number is read back from its digits in each of the bases of the language, with underscores
behind any of the digits.
-/

namespace TypedScript
namespace Number

/-- How digits are written: with any number of underscores behind each. -/
inductive Spread : List Char → List Char → Prop
  | nil : Spread [] []
  | digit {d : Char} {ds text : List Char} (n : Nat) : Spread ds text →
    Spread (d :: ds) (d :: (List.replicate n '_' ++ text))

def SameDigit (c d : Char) : Prop := c = d ∨ c = d.toUpper

/-- How a number is written as a literal. -/
inductive Numeral (v : Nat) : List Char → Prop
  | decimal {text : List Char} : Spread (Nat.toDigits 10 v) text → Numeral v text
  | hexadecimal {ds text : List Char} : List.Forall₂ SameDigit ds (Nat.toDigits 16 v) →
    Spread ds text → Numeral v ('0' :: 'x' :: text)
  | binary {text : List Char} : Spread (Nat.toDigits 2 v) text → Numeral v ('0' :: 'b' :: text)

theorem Spread.filter {ds text : List Char} (h : Spread ds text) (hds : '_' ∉ ds) :
    text.filter (· != '_') = ds := by
  induction h with
  | nil => rfl
  | digit n _ ih =>
    rw [List.mem_cons, not_or] at hds
    rw [List.filter_cons_of_pos (by simpa using Ne.symm hds.1), List.filter_append, ih hds.2]
    simp

/-- What holds of the digits and of the underscore holds of all that is written. -/
theorem Spread.forall {p : Char → Prop} {ds text : List Char} (h : Spread ds text)
    (hds : ∀ d ∈ ds, p d) (hunderscore : p '_') : ∀ c ∈ text, p c := by
  induction h with
  | nil => simp
  | digit n _ ih =>
    rw [List.forall_mem_cons] at hds ⊢
    refine ⟨hds.1, fun c hc => ?_⟩
    obtain hc | hc := List.mem_append.mp hc
    · exact (List.eq_of_mem_replicate hc) ▸ hunderscore
    · exact ih hds.2 c hc

/-- A property that every digit has. -/
theorem forall_digitChar {p : Char → Prop} (b : Nat) (hp : ∀ d : Nat, d < b → p d.digitChar) (hb : 1 < b)
    (v : Nat) : ∀ c ∈ Nat.toDigits b v, p c := by
  induction v using Nat.strongRecOn with
  | ind v ih =>
    rw [Nat.toDigits_eq_if hb]
    split
    · rename_i hlt
      simpa using hp v hlt
    · rename_i hle
      intro c hc
      obtain hc | hc := List.mem_append.mp hc
      · exact ih _ (Nat.div_lt_self (by omega) hb) c hc
      · rw [List.mem_singleton.mp hc]
        exact hp _ (Nat.mod_lt _ (by omega))

theorem digitValue?_digitChar : ∀ d : Nat, d < 16 → digitValue? d.digitChar = some d := by decide

theorem digitsFrom_append (b most n : Nat) (cs ds : List Char) :
    digitsFrom b most n (cs ++ ds) = (digitsFrom b most n cs).bind fun k => digitsFrom b most k ds := by
  induction cs generalizing n with
  | nil => rfl
  | cons c cs ih =>
    rw [List.cons_append, digitsFrom, digitsFrom]
    split
    · rfl
    split
    · rfl
    split
    · rfl
    · exact ih _

/-- A number is read back from its digits. -/
theorem digitsFrom_toDigits {b most v : Nat} (hb : 1 < b) (hb' : b ≤ 16) (hv : v ≤ most) :
    digitsFrom b most 0 (Nat.toDigits b v) = .ok v := by
  have hdigit : ∀ {n d : Nat}, d < b → n * b + d ≤ most →
      digitsFrom b most n [d.digitChar] = .ok (n * b + d) := by
    intro n d hd hmost
    rw [digitsFrom, digitValue?_digitChar d (by omega)]
    simp only [if_neg (Nat.not_le_of_lt hd), if_neg (Nat.not_lt_of_le hmost)]
    rfl
  induction v using Nat.strongRecOn with
  | ind v ih =>
    rw [Nat.toDigits_eq_if hb]
    split
    · rename_i hlt
      simpa using hdigit (n := 0) hlt (by omega)
    · rename_i hle
      have hsplit : v / b * b + v % b = v := Nat.div_add_mod' v b
      have hquotient : v / b < v := Nat.div_lt_self (by omega) hb
      rw [digitsFrom_append, ih _ hquotient (by omega)]
      have hlast := hdigit (n := v / b) (Nat.mod_lt v (by omega)) (hsplit.symm ▸ hv)
      rw [hsplit] at hlast
      exact hlast

theorem digitsFrom_congr (b most n : Nat) {cs ds : List Char}
    (h : List.Forall₂ (fun c d => digitValue? c = digitValue? d) cs ds) :
    digitsFrom b most n cs = digitsFrom b most n ds := by
  induction h generalizing n with
  | nil => rfl
  | cons hd _ ih =>
    rw [digitsFrom, digitsFrom, hd]
    split
    · rfl
    split
    · rfl
    split
    · rfl
    · exact ih _

/-- A number but zero has no zero in front. -/
theorem head_toDigits {v : Nat} (hv : 0 < v) : ∃ d ds, Nat.toDigits 10 v = d :: ds ∧ d ≠ '0' := by
  induction v using Nat.strongRecOn with
  | ind v ih =>
    rw [Nat.toDigits_eq_if (by decide)]
    split
    · rename_i hlt
      have hall : ∀ d : Nat, d < 10 → 0 < d → d.digitChar ≠ '0' := by decide
      exact ⟨_, [], rfl, hall v hlt hv⟩
    · rename_i hle
      obtain ⟨d, ds, hds, hd⟩ := ih (v / 10) (by omega) (by omega)
      exact ⟨d, _, by rw [hds]; rfl, hd⟩

theorem toDigits_ne_nil (b v : Nat) (hb : 1 < b) : Nat.toDigits b v ≠ [] := by
  rw [Nat.toDigits_eq_if hb]
  split <;> simp

theorem literalValue_decimal {v : Nat} (hv : v ≤ maxWord) :
    literalValue (Nat.toDigits 10 v) = .ok v := by
  have hread : digitsFrom 10 maxWord 0 (Nat.toDigits 10 v) = .ok v :=
    digitsFrom_toDigits (by decide) (by decide) hv
  obtain rfl | hpos := Nat.eq_zero_or_pos v
  · rfl
  · obtain ⟨d, ds, hds, hd⟩ := head_toDigits hpos
    rw [hds] at hread ⊢
    unfold literalValue
    split
    · rename_i heq
      exact absurd (List.cons.inj heq).1 hd
    · rename_i heq
      exact absurd (List.cons.inj heq).1 hd
    · exact hread

theorem literalValue_based {b v : Nat} {mark : Char} {ds : List Char}
    (hmark : b = 16 ∧ mark = 'x' ∨ b = 2 ∧ mark = 'b')
    (hds : List.Forall₂ (fun c d => digitValue? c = digitValue? d) ds (Nat.toDigits b v))
    (hv : v ≤ maxWord) : literalValue ('0' :: mark :: ds) = .ok v := by
  have hb : 1 < b ∧ b ≤ 16 := by omega
  have hread := digitsFrom_toDigits hb.1 hb.2 hv
  rw [← digitsFrom_congr b maxWord 0 hds] at hread
  cases ds with
  | nil => exact absurd (List.forall₂_nil_left_iff.mp hds) (toDigits_ne_nil b v hb.1)
  | cons d ds =>
    obtain ⟨rfl, rfl⟩ | ⟨rfl, rfl⟩ := hmark
    · exact hread
    · exact hread

theorem sameDigit_digitValue? {c : Char} {d : Nat} (hd : d < 16) (h : SameDigit c d.digitChar) :
    digitValue? c = digitValue? d.digitChar := by
  have hall : ∀ d : Nat, d < 16 → digitValue? d.digitChar.toUpper = digitValue? d.digitChar := by
    decide
  obtain rfl | rfl := h
  · rfl
  · exact hall d hd

theorem Numeral.digits_same {b v : Nat} {ds : List Char} (hb : 1 < b) (hb' : b ≤ 16)
    (h : List.Forall₂ SameDigit ds (Nat.toDigits b v)) :
    List.Forall₂ (fun c d => digitValue? c = digitValue? d) ds (Nat.toDigits b v) := by
  have hall : ∀ d ∈ Nat.toDigits b v, ∀ c, SameDigit c d → digitValue? c = digitValue? d :=
    forall_digitChar b (fun d hd c hc => sameDigit_digitValue? (by omega) hc) hb v
  generalize Nat.toDigits b v = digits at h hall
  induction h with
  | nil => exact .nil
  | cons hd _ ih =>
    rw [List.forall_mem_cons] at hall
    exact .cons (hall.1 _ hd) (ih hall.2)

/-- What holds of every way to write a digit holds of all that is written for a number. -/
theorem Numeral.forall_sameDigit {p : Char → Prop} {b v : Nat} {ds : List Char} (hb : 1 < b)
    (hp : ∀ d : Nat, d < b → p d.digitChar ∧ p d.digitChar.toUpper)
    (h : List.Forall₂ SameDigit ds (Nat.toDigits b v)) : ∀ c ∈ ds, p c := by
  have hall : ∀ d ∈ Nat.toDigits b v, p d ∧ p d.toUpper := forall_digitChar b hp hb v
  generalize Nat.toDigits b v = digits at h hall
  induction h with
  | nil => simp
  | cons hd _ ih =>
    rw [List.forall_mem_cons] at hall ⊢
    refine ⟨?_, ih hall.2⟩
    obtain rfl | rfl := hd
    · exact hall.1.1
    · exact hall.1.2

theorem sameDigit_refl (ds : List Char) : List.Forall₂ SameDigit ds ds :=
  List.forall₂_same.mpr fun _ _ => .inl rfl

/-- A written number is read as the number. -/
theorem literal_numeral {v : Nat} {text : List Char} (h : Numeral v text) (hv : v ≤ maxWord) :
    literal (String.ofList text) = (UInt64.ofNat v, true) := by
  have hvalue : literalValue (text.filter (· != '_')) = .ok v := by
    have hplain : ∀ {b : Nat}, 1 < b → b ≤ 16 → '_' ∉ Nat.toDigits b v := by
      intro b hb hb' hmem
      have hall : ∀ d : Nat, d < 16 → d.digitChar ≠ '_' := by decide
      have hdigits : ∀ c ∈ Nat.toDigits b v, c ≠ '_' :=
        forall_digitChar b (fun d hd => hall d (by omega)) hb v
      exact hdigits _ hmem rfl
    cases h with
    | decimal htext =>
      rw [htext.filter (hplain (by decide) (by decide))]
      exact literalValue_decimal hv
    | @hexadecimal ds text hds htext =>
      have hall : ∀ d : Nat, d < 16 → d.digitChar ≠ '_' ∧ d.digitChar.toUpper ≠ '_' := by
        decide
      have hdigits : ∀ c ∈ ds, c ≠ '_' := Numeral.forall_sameDigit (by decide) hall hds
      have hfilter := htext.filter fun hmem => hdigits _ hmem rfl
      rw [List.filter_cons_of_pos (by decide), List.filter_cons_of_pos (by decide), hfilter]
      exact literalValue_based (.inl ⟨rfl, rfl⟩) (Numeral.digits_same (by decide) (by decide) hds) hv
    | @binary text htext =>
      have hfilter := htext.filter (hplain (by decide) (by decide))
      rw [List.filter_cons_of_pos (by decide), List.filter_cons_of_pos (by decide), hfilter]
      exact literalValue_based (.inr ⟨rfl, rfl⟩)
        (Numeral.digits_same (by decide) (by decide) (sameDigit_refl _)) hv
  rw [literal, String.toList_ofList, hvalue]

end Number
end TypedScript
