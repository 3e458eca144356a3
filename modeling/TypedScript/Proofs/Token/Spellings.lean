import Mathlib.Data.List.Find
import TypedScript.Proofs.Token.Names
import TypedScript.Proofs.Token.Written

/-!
# How words are spelled

Names, reserved words, operators and numbers with a fraction or an exponent: what they look like by
themselves, that they are read as such apart from other words, and that nothing else is read as a name or
as such a number.
-/

namespace TypedScript
namespace Lexer

theorem takeWhile_written {p : Char → Bool} {text : List Char} (htext : ∀ c ∈ text, p c)
    {rest : List Glyph} (hrest : ∀ g ∈ rest.head?, p g.char = false) (here : Position) :
    Cursor.takeWhile p ⟨here, text.map Glyph.ofChar ++ rest⟩ =
      (text, ⟨here.afterAll (text.map Glyph.ofChar), rest⟩) :=
  Cursor.takeFrom_written htext hrest here

theorem Apart.stops {p : Char → Bool} (hp : p ' ' = false) {rest : List Glyph} (hrest : Apart rest) :
    ∀ g ∈ rest.head?, p g.char = false := by
  intro g hg
  rwa [hrest g hg]

/-! ## Names and reserved words -/

def isWord : List Char → Bool
  | [] => false
  | c :: more => isNameStart c && more.all isNameChar

def isName (text : String) : Bool :=
  isWord text.toList && decide (Token.Kind.ofWord text = .identifier)

theorem isNameChar_of_isNameStart {c : Char} (h : isNameStart c) : isNameChar c := by
  simp only [isNameStart, isNameChar, Bool.or_eq_true] at h ⊢
  tauto

theorem isLetter_of_isDigit {c : Char} (h : isDigit c) : Text.isLetter c = false := by
  have hbounds : 48 ≤ c.toNat ∧ c.toNat ≤ 57 := by
    rw [isDigit, Bool.and_eq_true, decide_eq_true_eq, decide_eq_true_eq, Char.le_def, Char.le_def,
      UInt32.le_iff_toNat_le, UInt32.le_iff_toNat_le] at h
    exact h
  have hall : ∀ n : Fin 58, 48 ≤ n.val → (Char.ofNat n).isAlpha = false := by decide
  rw [Text.isLetter, if_pos (by omega), ← Char.ofNat_toNat c]
  exact hall ⟨c.toNat, by omega⟩ hbounds.1

theorem isNameStart_of_isDigit {c : Char} (h : isDigit c) : isNameStart c = false := by
  rw [isNameStart, isLetter_of_isDigit h]
  rw [isDigit, Bool.and_eq_true] at h
  have hunderscore : c ≠ '_' := by
    rintro rfl
    exact absurd h (by decide)
  simpa using hunderscore

theorem ofWord_ne (text : String) : Token.Kind.ofWord text ≠ .endOfInput ∧
    Token.Kind.ofWord text ≠ .float ∧ Token.Kind.ofWord text ∉ Token.Kind.operators := by
  have hreserved : ∀ k ∈ Token.Kind.reserved,
      k ≠ .endOfInput ∧ k ≠ .float ∧ k ∉ Token.Kind.operators := by decide
  obtain h | h := Token.Kind.ofWord_cases text
  · rw [h]
    decide
  · exact hreserved _ h

/-- What looks like a name is read as a name or a reserved word. -/
theorem Word.reads_word {c : Char} {more : List Char} (hc : isNameStart c)
    (hmore : ∀ d ∈ more, isNameChar d) : Word.Reads
      ⟨c :: more, Token.Kind.ofWord (String.ofList (c :: more)), String.ofList (c :: more)⟩ := by
  have hne : ∀ d : Char, isNameStart d = false → c ≠ d := by
    rintro d hd rfl
    rw [hc] at hd
    cases hd
  have hall : ∀ d ∈ c :: more, isNameChar d :=
    List.forall_mem_cons.mpr ⟨isNameChar_of_isNameStart hc, hmore⟩
  refine ⟨by simp, fun hnul => absurd (hall _ hnul) (by decide), (ofWord_ne _).1, fun here rest _ => ?_,
    fun here rest hrest => ?_⟩
  · refine skip_of_first ?_ (hne '/' (by decide)) _ _
    simp [isSpace, hne ' ' (by decide), hne '\t' (by decide), hne '\n' (by decide),
      hne '\r' (by decide)]
  · have hdigit : isDigit c = false := by
      rw [← Bool.not_eq_true]
      intro h
      rw [isNameStart_of_isDigit h] at hc
      cases hc
    have htaken := takeWhile_written hall (hrest.stops (by decide)) here
    have hword : word ⟨here, (c :: more).map Glyph.ofChar ++ rest⟩ =
        ⟨Token.Kind.ofWord (String.ofList (c :: more)), String.ofList (c :: more),
          ⟨here.afterAll ((c :: more).map Glyph.ofChar), rest⟩⟩ := by
      simp only [word, htaken]
    rw [← hword]
    simp only [wordAt, Cursor.current?, List.map_cons, List.cons_append, List.head?_cons,
      Option.map_some]
    have hchar : (Glyph.ofChar c).char = c := rfl
    rw [hchar, if_neg (hne '"' (by decide)), if_neg (hne '\'' (by decide)), hdigit, if_neg (by decide),
      if_pos hc]

theorem Word.reads_isWord {text : List Char} (h : isWord text) :
    Word.Reads ⟨text, Token.Kind.ofWord (String.ofList text), String.ofList text⟩ := by
  cases text with
  | nil => cases h
  | cons c more =>
    rw [isWord, Bool.and_eq_true, List.all_eq_true] at h
    exact Word.reads_word h.1 h.2

theorem Word.reads_name {text : String} (h : isName text) :
    Word.Reads ⟨text.toList, .identifier, text⟩ := by
  rw [isName, Bool.and_eq_true, decide_eq_true_eq] at h
  have hread := Word.reads_isWord h.1
  rwa [String.ofList_toList, h.2] at hread

theorem Word.reads_reserved {k : Token.Kind} (h : k ∈ Token.Kind.reserved) :
    Word.Reads ⟨k.name.toList, k, k.name⟩ := by
  have hall : ∀ k ∈ Token.Kind.reserved,
      isWord k.name.toList ∧ Token.Kind.ofWord (String.ofList k.name.toList) = k := by decide
  have hread := Word.reads_isWord (hall k h).1
  rwa [(hall k h).2, String.ofList_toList] at hread

/-! ## Operators -/

/-- A single slash is not skipped. -/
theorem skip_of_slash {rest : List Glyph} (hrest : ∀ g ∈ rest.head?, g.char ≠ '/' ∧ g.char ≠ '*')
    (here : Position) : skip ⟨here, Glyph.ofChar '/' :: rest⟩ = .ok ⟨here, Glyph.ofChar '/' :: rest⟩ := by
  have hspace : ¬isSpace (Glyph.ofChar '/').char := by decide
  cases rest with
  | nil => simp [skip, skipFrom, hspace]
  | cons g rest =>
    obtain ⟨hslash, hstar⟩ := hrest g rfl
    simp [skip, skipFrom, hspace, hslash, hstar]

/-- What has no blanks in it starts a text up to the first blank if it starts the text at all. -/
theorem startsWith_written {word text : List Char} (hword : ' ' ∉ word) {rest : List Glyph}
    (hrest : Apart rest) (here : Position) :
    Cursor.startsWith word ⟨here, text.map Glyph.ofChar ++ rest⟩ = word.isPrefixOf text := by
  rw [Cursor.startsWith]
  induction word generalizing text with
  | nil => simp
  | cons c word ih =>
    rw [List.mem_cons, not_or] at hword
    cases text with
    | nil =>
      cases rest with
      | nil => rfl
      | cons g rest =>
        have hg : c ≠ g.char := by
          rw [hrest g rfl]
          exact Ne.symm hword.1
        simp [List.isPrefixOf, hg]
    | cons d text =>
      have hchar : (Glyph.ofChar d).char = d := rfl
      simpa only [List.map_cons, List.cons_append, List.length_cons, List.take_succ_cons,
        List.isPrefixOf, hchar] using congrArg (c == d && ·) (ih hword.2)

theorem advance_written (text : List Char) (here : Position) (rest : List Glyph) :
    Cursor.advance text.length ⟨here, text.map Glyph.ofChar ++ rest⟩ =
      ⟨here.afterAll (text.map Glyph.ofChar), rest⟩ := by
  induction text generalizing here with
  | nil => rfl
  | cons c text ih => exact ih (here.after (Glyph.ofChar c))

/-- Whether a text starts like no blank, no comment and no word other than an operator. -/
def opensOperator : List Char → Bool
  | [] => false
  | c :: more => !isSpace c && c != '"' && c != '\'' && !isDigit c && !isNameStart c &&
    (c != '/' || more.head?.all fun d => d != '/' && d != '*')

/-- How operators are spelled: without blanks and NUL characters, not like other words or comments, and so
that no operator in front of it starts it. -/
theorem spelled_operator : ∀ k ∈ Token.Kind.operators,
    (' ' ∉ k.name.toList ∧ '\x00' ∉ k.name.toList ∧ k ≠ .endOfInput) ∧
    Token.Kind.operators.find? (fun l => l.name.toList.isPrefixOf k.name.toList) = some k ∧
    opensOperator k.name.toList := by decide

theorem Word.reads_operator {k : Token.Kind} (hk : k ∈ Token.Kind.operators) :
    Word.Reads ⟨k.name.toList, k, k.name⟩ := by
  obtain ⟨⟨-, hreadable, hend⟩, hfind, hopens⟩ := spelled_operator k hk
  have hne : k.name.toList ≠ [] := fun h => by simp [h, opensOperator] at hopens
  obtain ⟨c, more, htext⟩ := List.exists_cons_of_ne_nil hne
  simp only [htext, opensOperator, Bool.and_eq_true, Bool.or_eq_true, Bool.not_eq_true', bne_iff_ne,
    Option.all_eq_true] at hopens
  obtain ⟨⟨⟨⟨⟨hspace, hstring⟩, hcharacter⟩, hdigit⟩, hname⟩, hslash⟩ := hopens
  refine ⟨hne, hreadable, hend, fun here rest hrest => ?_, fun here rest hrest => ?_⟩
  · simp only [htext, List.map_cons, List.cons_append]
    by_cases hc : c = '/'
    · subst hc
      refine skip_of_slash ?_ here
      cases more with
      | nil =>
        intro g hg
        rw [hrest g hg]
        decide
      | cons d more =>
        intro g hg
        obtain rfl : Glyph.ofChar d = g := Option.some.inj hg
        exact hslash.resolve_left (absurd rfl) d rfl
    · exact skip_of_first hspace hc here _
  · have hoperator : operator? ⟨here, k.name.toList.map Glyph.ofChar ++ rest⟩ = some k := by
      have hspaces : ∀ l ∈ Token.Kind.operators, ' ' ∉ l.name.toList := fun l hl =>
        (spelled_operator l hl).1.1
      rw [operator?, ← hfind]
      refine List.find?_congr fun l hl => ?_
      rw [startsWith_written (hspaces l hl) hrest]
    have hadvance : Cursor.advance k.name.length ⟨here, k.name.toList.map Glyph.ofChar ++ rest⟩ =
        ⟨here.afterAll (k.name.toList.map Glyph.ofChar), rest⟩ := advance_written k.name.toList here rest
    have hcurrent : Cursor.current? ⟨here, k.name.toList.map Glyph.ofChar ++ rest⟩ = some c := by
      rw [htext]
      rfl
    simp only [wordAt, hcurrent, if_neg hstring, if_neg hcharacter, hdigit, hname, hoperator, hadvance,
      Bool.false_eq_true, if_false]

/-! ## Numbers with a fraction or an exponent -/

/-- A fraction, which may be left out: a point and digits, the first of which is no underscore. -/
inductive Fraction : List Char → Prop
  | none : Fraction []
  | some {d : Char} {more : List Char} : isDigit d → (∀ e ∈ more, isDigitOrUnderscore e) →
    Fraction ('.' :: d :: more)

/-- An exponent, which may be left out: its mark, a sign that may be left out, and digits. -/
inductive Exponent : List Char → Prop
  | none : Exponent []
  | some {e : Char} {sign digits : List Char} : e = 'e' ∨ e = 'E' →
    sign = [] ∨ sign = ['+'] ∨ sign = ['-'] → digits ≠ [] → (∀ d ∈ digits, isDigit d) →
    Exponent (e :: (sign ++ digits))

/-- How a number is written that has a fraction or an exponent. -/
inductive IsFloat : List Char → Prop
  | mk {c : Char} {whole fraction power : List Char} : isDigit c → (∀ d ∈ whole, isDigitOrUnderscore d) →
    Fraction fraction → Exponent power → fraction ≠ [] ∨ power ≠ [] →
    IsFloat (c :: (whole ++ (fraction ++ power)))

/-- Behind the mark of an exponent and its sign digits are read. -/
theorem exponent_digits {e f : Char} {cursor behind : Cursor} {sign digits : List Char}
    (he : cursor.current? = some e) (hf : cursor.following? = some f) (hmark : e = 'e' ∨ e = 'E')
    (hsign : sign = [] ∧ isDigit f ∨ sign = [f] ∧ (f = '+' ∨ f = '-'))
    (htaken : (cursor.advance (sign.length + 1)).takeWhile isDigit = (digits, behind))
    (hne : digits ≠ []) (isFloat : Bool) (read : List Char) :
    exponent isFloat read cursor = ⟨.float, String.ofList (read ++ e :: (sign ++ digits)), behind⟩ := by
  have hmark' : (e == 'e' || e == 'E') = true := by simpa using hmark
  have hempty : digits.isEmpty = false := by simpa using hne
  obtain ⟨rfl, hdigit⟩ | ⟨rfl, hf'⟩ := hsign
  · have hunsigned : (f == '+' || f == '-') = false := by
      rw [Bool.or_eq_false_iff, beq_eq_false_iff_ne, beq_eq_false_iff_ne]
      constructor <;>
      · rintro rfl
        exact absurd hdigit (by decide)
    simp only [List.length_nil, Nat.zero_add] at htaken
    simp only [exponent, he, hf, hmark', hdigit, hunsigned, htaken, hempty, Bool.true_or, Bool.and_self,
      Bool.false_eq_true, if_true, if_false]
    simp
  · have hsigned : (f == '+' || f == '-') = true := by simpa using hf'
    simp only [List.length_singleton] at htaken
    simp only [exponent, he, hf, hmark', hsigned, Bool.or_assoc, Bool.or_true, htaken, hempty,
      Bool.and_self, Bool.false_eq_true, if_true, if_false]
    simp

theorem exponent_written {power : List Char} (h : Exponent power) {rest : List Glyph} (hrest : Apart rest)
    (isFloat : Bool) (read : List Char) (here : Position) :
    exponent isFloat read ⟨here, power.map Glyph.ofChar ++ rest⟩ =
      ⟨if isFloat ∨ power ≠ [] then .float else .integer, String.ofList (read ++ power),
        ⟨here.afterAll (power.map Glyph.ofChar), rest⟩⟩ := by
  cases h with
  | none =>
    rw [List.append_nil]
    simpa using exponent_of_apart (c := ⟨here, rest⟩) hrest isFloat
  | @some e sign digits he hsign hne hdigits =>
    have hfloat : (isFloat = true ∨ e :: (sign ++ digits) ≠ []) = True := by simp
    have hadvance : Cursor.advance (sign.length + 1)
        ⟨here, (e :: (sign ++ digits)).map Glyph.ofChar ++ rest⟩ =
        ⟨here.afterAll ((e :: sign).map Glyph.ofChar), digits.map Glyph.ofChar ++ rest⟩ := by
      have hwritten := advance_written (e :: sign) here (digits.map Glyph.ofChar ++ rest)
      simpa using hwritten
    have htaken := takeWhile_written hdigits (hrest.stops (by decide))
      (here.afterAll ((e :: sign).map Glyph.ofChar))
    rw [← Position.afterAll_append, ← List.map_append, List.cons_append] at htaken
    simp only [hfloat, if_true]
    obtain ⟨d, more, rfl⟩ := List.exists_cons_of_ne_nil hne
    obtain rfl | rfl | rfl := hsign
    · refine exponent_digits (f := d) rfl rfl he (.inl ⟨rfl, hdigits d List.mem_cons_self⟩) ?_ hne _ _
      rw [hadvance]
      exact htaken
    · refine exponent_digits (f := '+') rfl rfl he (.inr ⟨rfl, .inl rfl⟩) ?_ hne _ _
      rw [hadvance]
      exact htaken
    · refine exponent_digits (f := '-') rfl rfl he (.inr ⟨rfl, .inr rfl⟩) ?_ hne _ _
      rw [hadvance]
      exact htaken

/-- Digits, a point and more digits come before the exponent of a number. -/
theorem decimalNumber_point {c behind behind' : Cursor} {whole fraction : List Char}
    (hwhole : c.takeWhile isDigitOrUnderscore = (whole, behind)) (hpoint : behind.current? = some '.')
    (hdigit : behind.following?.any isDigit)
    (hfraction : behind.next.takeWhile isDigitOrUnderscore = (fraction, behind')) :
    decimalNumber c = exponent true (whole ++ '.' :: fraction) behind' := by
  simp only [decimalNumber, hwhole, hpoint, hdigit, hfraction, decide_true, Bool.and_self, if_true]

theorem decimalNumber_written {c : Char} {whole fraction power : List Char} (hc : isDigit c)
    (hwhole : ∀ d ∈ whole, isDigitOrUnderscore d) (hfraction : Fraction fraction) (hpower : Exponent power)
    {rest : List Glyph} (hrest : Apart rest) (here : Position) :
    decimalNumber ⟨here, (c :: (whole ++ (fraction ++ power))).map Glyph.ofChar ++ rest⟩ =
      ⟨if fraction ≠ [] ∨ power ≠ [] then .float else .integer,
        String.ofList (c :: (whole ++ (fraction ++ power))),
        ⟨here.afterAll ((c :: (whole ++ (fraction ++ power))).map Glyph.ofChar), rest⟩⟩ := by
  have hfirst : ∀ d ∈ c :: whole, isDigitOrUnderscore d :=
    List.forall_mem_cons.mpr ⟨by simp [isDigitOrUnderscore, hc], hwhole⟩
  have hmark : ∀ g ∈ (power.map Glyph.ofChar ++ rest).head?,
      isDigitOrUnderscore g.char = false ∧ g.char ≠ '.' := by
    cases hpower with
    | none =>
      intro g hg
      rw [hrest g hg]
      decide
    | some he =>
      intro g hg
      obtain rfl : Glyph.ofChar _ = g := Option.some.inj hg
      obtain rfl | rfl := he <;> decide
  cases hfraction with
  | none =>
    have htaken := takeWhile_written hfirst (fun g hg => (hmark g hg).1) here
    have hpoint : (Cursor.mk (here.afterAll ((c :: whole).map Glyph.ofChar))
        (power.map Glyph.ofChar ++ rest)).current? ≠ some '.' := by
      intro h
      obtain ⟨g, hg, hchar⟩ := Option.map_eq_some_iff.mp h
      exact (hmark g hg).2 hchar
    have hwritten : (c :: (whole ++ ([] ++ power))).map Glyph.ofChar ++ rest =
        (c :: whole).map Glyph.ofChar ++ (power.map Glyph.ofChar ++ rest) := by simp
    rw [hwritten]
    simp only [decimalNumber, htaken, hpoint, decide_false, Bool.false_and,
      Bool.false_eq_true, if_false]
    rw [exponent_written hpower hrest]
    simp [Position.afterAll_append]
  | @some d more hd hmore =>
    have hstop : ∀ g ∈ (Glyph.ofChar '.' :: ((d :: more).map Glyph.ofChar ++ (power.map Glyph.ofChar ++
        rest))).head?, isDigitOrUnderscore g.char = false := by
      intro g hg
      obtain rfl : Glyph.ofChar '.' = g := Option.some.inj hg
      decide
    have hbehind : ∀ e ∈ d :: more, isDigitOrUnderscore e :=
      List.forall_mem_cons.mpr ⟨by simp [isDigitOrUnderscore, hd], hmore⟩
    have hwritten : (c :: (whole ++ ('.' :: d :: more ++ power))).map Glyph.ofChar ++ rest =
        (c :: whole).map Glyph.ofChar ++ (Glyph.ofChar '.' :: ((d :: more).map Glyph.ofChar ++
          (power.map Glyph.ofChar ++ rest))) := by simp
    rw [hwritten, decimalNumber_point (takeWhile_written hfirst hstop here) rfl hd
      (takeWhile_written hbehind (fun g hg => (hmark g hg).1) _), exponent_written hpower hrest]
    simp [Position.afterAll_append]

theorem Word.reads_float {text : List Char} (h : IsFloat text) :
    Word.Reads ⟨text, .float, String.ofList text⟩ := by
  obtain ⟨hc, hwhole, hfraction, hpower, hne⟩ := h
  rename_i c whole fraction power
  have hchars : ∀ d ∈ c :: (whole ++ (fraction ++ power)), isDigitOrUnderscore d ∨ d ∈ ".eE+-".toList := by
    have hdigit : ∀ {d}, isDigit d → isDigitOrUnderscore d := fun hd => by simp [isDigitOrUnderscore, hd]
    intro d hd
    rw [List.mem_cons, List.mem_append, List.mem_append] at hd
    obtain rfl | hd | hd | hd := hd
    · exact .inl (hdigit hc)
    · exact .inl (hwhole d hd)
    · cases hfraction with
      | none => cases hd
      | some hfirst hmore =>
        rw [List.mem_cons, List.mem_cons] at hd
        obtain rfl | rfl | hd := hd
        · exact .inr (by decide)
        · exact .inl (hdigit hfirst)
        · exact .inl (hmore d hd)
    · cases hpower with
      | none => cases hd
      | some he hsign _ hdigits =>
        rw [List.mem_cons, List.mem_append] at hd
        obtain rfl | hd | hd := hd
        · obtain rfl | rfl := he <;> exact .inr (by decide)
        · obtain rfl | rfl | rfl := hsign
          · cases hd
          · exact .inr (List.mem_singleton.mp hd ▸ by decide)
          · exact .inr (List.mem_singleton.mp hd ▸ by decide)
        · exact .inl (hdigit (hdigits d hd))
  refine Word.reads_number hc ?_ (by decide) fun here rest hrest => ?_
  · intro hnul
    exact absurd (hchars _ hnul) (by decide)
  · have hdecimal := decimalNumber_written hc hwhole hfraction hpower hrest here
    rw [if_pos hne] at hdecimal
    rw [← hdecimal]
    unfold number
    split
    · rename_i mark hmark
      have hbase : isBaseMark mark = false := by
        generalize whole ++ (fraction ++ power) = more at hmark hchars
        cases more with
        | nil =>
          cases rest with
          | nil => cases hmark
          | cons g rest =>
            obtain rfl : g.char = mark := Option.some.inj hmark
            rw [hrest g rfl]
            rfl
        | cons d more =>
          obtain rfl : d = mark := Option.some.inj hmark
          have hd := hchars d (by simp)
          simp only [isBaseMark, Bool.or_eq_false_iff, beq_eq_false_iff_ne]
          refine ⟨⟨⟨?_, ?_⟩, ?_⟩, ?_⟩ <;>
          · rintro rfl
            exact absurd hd (by decide)
      rw [if_neg (by simp [hbase])]
    · rfl

/-! ## What is read as a name or a number -/

/-- What is read as a name is one. -/
theorem isName_of_wordAt {c : Cursor} (h : (wordAt c).kind = .identifier) : isName (wordAt c).literal := by
  obtain ⟨hword, g, rest, hrest, hstart⟩ := word_of_identifier h
  rw [hword] at h ⊢
  obtain ⟨read, -, hchars, hall⟩ := Cursor.passes_takeWhile_cons hrest (isNameChar_of_isNameStart hstart)
  have hkind : Token.Kind.ofWord (String.ofList (c.takeWhile isNameChar).1) = .identifier := h
  have hliteral : (word c).literal = String.ofList (c.takeWhile isNameChar).1 := rfl
  rw [isName, hliteral, hkind, String.toList_ofList, hchars, List.map_cons, isWord, hstart]
  simpa using fun g hg => hall g (List.mem_cons_of_mem _ hg)

/-- What is read behind the digits of a number is an exponent, which may be left out. -/
theorem power_of_exponent {isFloat : Bool} {read : List Char} {c : Cursor} {r : Reading}
    (hr : exponent isFloat read c = r) (h : r.kind = .float) : ∃ power, Exponent power ∧
      r.literal = String.ofList (read ++ power) ∧ (isFloat ∨ power ≠ []) := by
  have hplain : (if isFloat then Token.Kind.float else .integer) = .float → isFloat := by
    cases isFloat <;> simp
  unfold exponent at hr
  dsimp only at hr
  split at hr
  · rename_i e f _ _
    split at hr
    · rename_i hmark
      simp only [Bool.and_eq_true, Bool.or_eq_true, beq_iff_eq] at hmark
      obtain ⟨digits, -, hdigits, hall⟩ := Cursor.passes_takeWhile isDigit
        (c.advance (if f == '+' || f == '-' then 2 else 1))
      rw [hdigits] at hr
      split at hr
      · subst hr
        cases h
      · rename_i hne
        subst hr
        have hall' : ∀ d ∈ digits.map Glyph.char, isDigit d := by simpa using hall
        have hne' : digits.map Glyph.char ≠ [] := by simpa using hne
        by_cases hsigned : f = '+' ∨ f = '-'
        · refine ⟨e :: ([f] ++ digits.map Glyph.char), .some hmark.1 (.inr ?_) hne' hall', ?_,
            .inr nofun⟩
          · obtain rfl | rfl := hsigned <;> simp
          · simp [hsigned]
        · refine ⟨e :: ([] ++ digits.map Glyph.char), .some hmark.1 (.inl rfl) hne' hall', ?_, .inr nofun⟩
          simp [hsigned]
    · subst hr
      exact ⟨[], .none, by rw [List.append_nil], .inl (hplain h)⟩
  · subst hr
    exact ⟨[], .none, by rw [List.append_nil], .inl (hplain h)⟩

theorem isFloat_of_decimalNumber {c : Cursor} {g : Glyph} {rest : List Glyph} (hrest : c.rest = g :: rest)
    (hg : isDigit g.char) {r : Reading} (hr : decimalNumber c = r) (h : r.kind = .float) :
    IsFloat r.literal.toList := by
  have hfirst : isDigitOrUnderscore g.char := by simp [isDigitOrUnderscore, hg]
  obtain ⟨whole, -, hchars, hall⟩ := Cursor.passes_takeWhile_cons hrest hfirst
  have hwhole : ∀ d ∈ whole.map Glyph.char, isDigitOrUnderscore d := by
    simpa using fun g hg => hall g (List.mem_cons_of_mem _ hg)
  unfold decimalNumber at hr
  dsimp only at hr
  rw [hchars, List.map_cons] at hr
  split at hr
  · rename_i hpoint
    simp only [Bool.and_eq_true, decide_eq_true_eq] at hpoint
    obtain ⟨d, hfollowing, hd⟩ := (Option.any_eq_true _ _).mp hpoint.2
    obtain ⟨point, k, behind, hbehind, rfl⟩ := Cursor.following?_eq hfollowing
    have hnext : (c.takeWhile isDigitOrUnderscore).2.next.rest = k :: behind := by
      simp [Cursor.next, hbehind]
    have hk : isDigitOrUnderscore k.char := by simp [isDigitOrUnderscore, hd]
    obtain ⟨more, -, hchars', hall'⟩ := Cursor.passes_takeWhile_cons hnext hk
    rw [hchars', List.map_cons] at hr
    obtain ⟨power, hpower, hliteral, -⟩ := power_of_exponent hr h
    have hmore : ∀ e ∈ more.map Glyph.char, isDigitOrUnderscore e := by
      simpa using fun g hg => hall' g (List.mem_cons_of_mem _ hg)
    rw [hliteral, String.toList_ofList, List.cons_append, List.cons_append, List.append_assoc]
    exact .mk hg hwhole (.some hd hmore) hpower (.inl (List.cons_ne_nil _ _))
  · obtain ⟨power, hpower, hliteral, hne⟩ := power_of_exponent hr h
    rw [hliteral, String.toList_ofList]
    exact .mk hg hwhole .none hpower (.inr (by simpa using hne))

/-- What is read as a number with a fraction or an exponent is one. -/
theorem isFloat_of_wordAt {c : Cursor} (h : (wordAt c).kind = .float) :
    IsFloat (wordAt c).literal.toList := by
  obtain hend | hrendered | hoperator | ⟨g, rest, hrest, ⟨hdigit, hword⟩ | ⟨-, hword⟩⟩ := wordAt_cases c
  · rw [hend] at h
    cases h
  · rw [h] at hrendered
    cases hrendered
  · rw [h] at hoperator
    exact absurd hoperator (by decide)
  · generalize wordAt c = r at h hword
    unfold number at hword
    split at hword
    · split at hword
      · unfold basedNumber at hword
        dsimp only at hword
        split at hword <;>
        · subst hword
          cases h
      · exact isFloat_of_decimalNumber hrest hdigit hword.symm h
    · exact isFloat_of_decimalNumber hrest hdigit hword.symm h
  · rw [hword] at h
    exact absurd h (ofWord_ne _).2.1

/-- Tokens are read as words, unless they are invalid. -/
theorem token_cases {fuel : Nat} {c : Cursor} {t : Token} (ht : t ∈ tokensFrom fuel c) :
    (∃ f, t.kind = .invalid f) ∨ ∃ c', t.kind = (wordAt c').kind ∧ t.literal = (wordAt c').literal := by
  induction fuel generalizing c with
  | zero => cases ht
  | succ fuel ih =>
    have hfirst : (∃ f, (token c).1.kind = .invalid f) ∨
        ∃ c', (token c).1.kind = (wordAt c').kind ∧ (token c).1.literal = (wordAt c').literal := by
      unfold token
      split
      · exact .inr ⟨_, rfl, rfl⟩
      · exact .inl ⟨_, rfl⟩
    unfold tokensFrom at ht
    dsimp only at ht
    split at ht
    · rw [List.mem_singleton] at ht
      exact ht ▸ hfirst
    · obtain rfl | ht := List.mem_cons.mp ht
      · exact hfirst
      · exact ih ht

/-- Names among the tokens of a text are names, and numbers with a fraction or an exponent are such. -/
theorem spelled_tokenize {source : List Glyph} {t : Token} (ht : t ∈ tokenize source) :
    (t.kind = .identifier → isName t.literal) ∧ (t.kind = .float → IsFloat t.literal.toList) := by
  obtain ⟨f, hf⟩ | ⟨c, hkind, hliteral⟩ := token_cases ht
  · rw [hf]
    exact ⟨nofun, nofun⟩
  · rw [hkind, hliteral]
    exact ⟨isName_of_wordAt, isFloat_of_wordAt⟩

end Lexer
end TypedScript
