import TypedScript.Proofs.Source.Positions
import TypedScript.Token.Lexer

/-!
# Written words

What a word is read as when nothing or a space follows it, and that a text of such words with a space
between each two is read as their tokens.
-/

namespace TypedScript

namespace Cursor

/-- Characters that fit are read up to the first that does not. -/
theorem takeFrom_written {p : Char → Bool} {text : List Char} (htext : ∀ c ∈ text, p c)
    {rest : List Glyph} (hrest : ∀ g ∈ rest.head?, p g.char = false) (here : Position) :
    takeFrom p here (text.map Glyph.ofChar ++ rest) =
      (text, ⟨here.afterAll (text.map Glyph.ofChar), rest⟩) := by
  induction text generalizing here with
  | nil =>
    cases rest with
    | nil => rfl
    | cons g rest =>
      have hg : ¬p g.char := by simp [hrest g rfl]
      simp [takeFrom, hg]
  | cons c text ih =>
    rw [List.forall_mem_cons] at htext
    have hc : p (Glyph.ofChar c).char := htext.1
    rw [List.map_cons, List.cons_append, takeFrom, if_pos hc, ih htext.2]
    rfl

end Cursor

namespace Lexer

def Apart (rest : List Glyph) : Prop := ∀ g ∈ rest.head?, g.char = ' '

/-- A word as it is written, and what it is read as. -/
structure Word where
  text : List Char
  kind : Token.Kind
  literal : String

namespace Word

/-- A word is read as it should be, apart from others. -/
structure Reads (w : Word) : Prop where
  ne_nil : w.text ≠ []
  readable : '\x00' ∉ w.text
  ne_endOfInput : w.kind ≠ .endOfInput
  stays : ∀ here rest, Apart rest → skip ⟨here, w.text.map Glyph.ofChar ++ rest⟩ =
    .ok ⟨here, w.text.map Glyph.ofChar ++ rest⟩
  reads : ∀ here rest, Apart rest → wordAt ⟨here, w.text.map Glyph.ofChar ++ rest⟩ =
    ⟨w.kind, w.literal, ⟨here.afterAll (w.text.map Glyph.ofChar), rest⟩⟩

def spell : List Word → List Char
  | [] => []
  | [w] => w.text
  | w :: v :: ws => w.text ++ ' ' :: spell (v :: ws)

end Word

/-- Skipping stops at once before what is neither a blank nor a slash. -/
theorem skip_of_first {c : Char} (hspace : isSpace c = false) (hslash : c ≠ '/') (here : Position)
    (rest : List Glyph) : skip ⟨here, Glyph.ofChar c :: rest⟩ = .ok ⟨here, Glyph.ofChar c :: rest⟩ := by
  have hspace' : ¬isSpace (Glyph.ofChar c).char := by simp [Glyph.ofChar, hspace]
  have hslash' : (Glyph.ofChar c).char ≠ '/' := hslash
  cases rest with
  | nil => simp [skip, skipFrom, hspace']
  | cons g rest => simp [skip, skipFrom, hspace', hslash']

theorem skip_space (here : Position) (rest : List Glyph) :
    skip ⟨here, Glyph.ofChar ' ' :: rest⟩ = skip ⟨here.after (Glyph.ofChar ' '), rest⟩ := by
  have hspace : isSpace (Glyph.ofChar ' ').char := rfl
  cases rest with
  | nil => rw [skip, skipFrom, if_pos hspace, skip]
  | cons g rest => rw [skip, skipFrom, if_pos hspace, skip]

theorem tokensFrom_space (fuel : Nat) (here : Position) (rest : List Glyph) :
    tokensFrom fuel ⟨here, Glyph.ofChar ' ' :: rest⟩ =
      tokensFrom fuel ⟨here.after (Glyph.ofChar ' '), rest⟩ := by
  have htoken : token ⟨here, Glyph.ofChar ' ' :: rest⟩ =
      token ⟨here.after (Glyph.ofChar ' '), rest⟩ := by
    unfold token
    rw [skip_space]
  cases fuel with
  | zero => rfl
  | succ fuel => rw [tokensFrom, tokensFrom, htoken]

/-- The first token of a text that starts with a word. -/
theorem tokensFrom_word {w : Word} (h : w.Reads) (fuel : Nat) (here : Position) {rest : List Glyph}
    (hrest : Apart rest) : ∃ span, tokensFrom (fuel + 1) ⟨here, w.text.map Glyph.ofChar ++ rest⟩ =
      ⟨w.kind, w.literal, span⟩ ::
        tokensFrom fuel ⟨here.afterAll (w.text.map Glyph.ofChar), rest⟩ := by
  simp only [tokensFrom, token, h.stays here rest hrest, h.reads here rest hrest, h.ne_endOfInput,
    if_false]
  exact ⟨_, rfl⟩

theorem tokensFrom_spell {ws : List Word} (h : ∀ w ∈ ws, w.Reads) {fuel : Nat} (here : Position)
    (hfuel : (Word.spell ws).length < fuel) : ∃ tokens stop,
      tokensFrom fuel ⟨here, (Word.spell ws).map Glyph.ofChar⟩ =
        tokens ++ [⟨.endOfInput, "", ⟨stop, stop⟩⟩] ∧
      tokens.map (fun t => (t.kind, t.literal)) = ws.map fun w => (w.kind, w.literal) := by
  induction ws generalizing fuel here with
  | nil =>
    obtain ⟨fuel, rfl⟩ := Nat.exists_eq_add_one_of_ne_zero (Nat.ne_of_gt (Nat.zero_lt_of_lt hfuel))
    exact ⟨[], here, rfl, rfl⟩
  | cons w ws ih =>
    rw [List.forall_mem_cons] at h
    obtain ⟨fuel, rfl⟩ := Nat.exists_eq_add_one_of_ne_zero (Nat.ne_of_gt (Nat.zero_lt_of_lt hfuel))
    have hlength := List.length_pos_iff.mpr h.1.ne_nil
    cases ws with
    | nil =>
      have hend : Apart [] := by simp [Apart]
      obtain ⟨span, htoken⟩ := tokensFrom_word h.1 fuel here hend
      obtain ⟨fuel, rfl⟩ : ∃ k, fuel = k + 1 := by
        rw [Word.spell] at hfuel
        exact Nat.exists_eq_add_one_of_ne_zero (by omega)
      rw [List.append_nil] at htoken
      exact ⟨[⟨w.kind, w.literal, span⟩], _, htoken, rfl⟩
    | cons v ws =>
      rw [Word.spell, List.length_append, List.length_cons] at hfuel
      have hspace : Apart (Glyph.ofChar ' ' :: (Word.spell (v :: ws)).map Glyph.ofChar) := by
        simp [Apart, Glyph.ofChar]
      obtain ⟨span, htoken⟩ := tokensFrom_word h.1 fuel here hspace
      rw [tokensFrom_space] at htoken
      have hshorter : (Word.spell (v :: ws)).length < fuel := by omega
      obtain ⟨tokens, stop, htokens, hsame⟩ :=
        ih h.2 ((here.afterAll (w.text.map Glyph.ofChar)).after (Glyph.ofChar ' ')) hshorter
      refine ⟨⟨w.kind, w.literal, span⟩ :: tokens, stop, ?_, ?_⟩
      · rw [Word.spell, List.map_append, List.map_cons, htoken, htokens, List.cons_append]
      · exact congrArg ((w.kind, w.literal) :: ·) hsame

theorem readable_spell {ws : List Word} (h : ∀ w ∈ ws, w.Reads) : '\x00' ∉ Word.spell ws := by
  induction ws with
  | nil => simp [Word.spell]
  | cons w ws ih =>
    rw [List.forall_mem_cons] at h
    cases ws with
    | nil => exact h.1.readable
    | cons v ws =>
      rw [Word.spell, List.mem_append, List.mem_cons]
      rintro (hw | hspace | hrest)
      · exact h.1.readable hw
      · exact absurd hspace (by decide)
      · exact ih h.2 hrest

/-- A text of words is read as their tokens. -/
theorem tokenize_spell {ws : List Word} (h : ∀ w ∈ ws, w.Reads) : ∃ tokens stop,
    tokenize ((Word.spell ws).map Glyph.ofChar) = tokens ++ [⟨.endOfInput, "", ⟨stop, stop⟩⟩] ∧
      tokens.map (fun t => (t.kind, t.literal)) = ws.map fun w => (w.kind, w.literal) := by
  have hreadable : readable ((Word.spell ws).map Glyph.ofChar) =
      (Word.spell ws).map Glyph.ofChar := by
    rw [readable, List.takeWhile_eq_self_iff]
    intro g hg
    obtain ⟨c, hc, rfl⟩ := List.mem_map.mp hg
    have hne : c ≠ '\x00' := fun heq => readable_spell h (heq ▸ hc)
    simpa [Glyph.ofChar] using hne
  rw [tokenize, hreadable]
  exact tokensFrom_spell h _ (by rw [List.length_map]; exact Nat.lt_succ_self _)

/-! ## Numbers -/

/-- Where no exponent follows, a number is what was read of it. -/
theorem exponent_of_apart {read : List Char} {c : Cursor} (hc : Apart c.rest) (isFloat : Bool) :
    exponent isFloat read c =
      ⟨if isFloat then .float else .integer, String.ofList read, c⟩ := by
  obtain ⟨here, rest⟩ := c
  cases rest with
  | nil => rfl
  | cons g rest =>
    have hg : g.char = ' ' := hc g rfl
    cases rest with
    | nil => rfl
    | cons k rest => simp [exponent, Cursor.current?, Cursor.following?, hg]

/-- A word that starts with a digit is a number. -/
theorem Word.reads_number {c : Char} {more : List Char} {k : Token.Kind} {literal : String}
    (hc : isDigit c) (hreadable : '\x00' ∉ c :: more) (hk : k ≠ .endOfInput)
    (h : ∀ here rest, Apart rest → number ⟨here, (c :: more).map Glyph.ofChar ++ rest⟩ =
      ⟨k, literal, ⟨here.afterAll ((c :: more).map Glyph.ofChar), rest⟩⟩) :
    Word.Reads ⟨c :: more, k, literal⟩ := by
  have hne : ∀ d : Char, isDigit d = false → c ≠ d := by
    rintro d hd rfl
    rw [hc] at hd
    cases hd
  refine ⟨by simp, hreadable, hk, fun here rest _ => ?_, fun here rest hrest => ?_⟩
  · refine skip_of_first ?_ (hne '/' (by decide)) _ _
    simp [isSpace, hne ' ' (by decide), hne '\t' (by decide), hne '\n' (by decide),
      hne '\r' (by decide)]
  · rw [← h here rest hrest]
    simp only [wordAt, Cursor.current?, List.map_cons, List.cons_append, List.head?_cons,
      Option.map_some]
    have hchar : (Glyph.ofChar c).char = c := rfl
    rw [hchar, if_neg (hne '"' (by decide)), if_neg (hne '\'' (by decide)), if_pos hc]

theorem Word.reads_decimal {c : Char} {more : List Char} (hc : isDigit c)
    (hmore : ∀ d ∈ more, isDigitOrUnderscore d) :
    Word.Reads ⟨c :: more, .integer, String.ofList (c :: more)⟩ := by
  have hall : ∀ d ∈ c :: more, isDigitOrUnderscore d :=
    List.forall_mem_cons.mpr ⟨by simp [isDigitOrUnderscore, hc], hmore⟩
  refine Word.reads_number hc (fun hnul => absurd (hall _ hnul) (by decide)) nofun ?_
  intro here rest hrest
  have hstops : ∀ g ∈ rest.head?, isDigitOrUnderscore g.char = false := by
    intro g hg
    rw [hrest g hg]
    rfl
  have htaken := Cursor.takeFrom_written hall hstops here
  have hdecimal : decimalNumber ⟨here, (c :: more).map Glyph.ofChar ++ rest⟩ =
      ⟨.integer, String.ofList (c :: more), ⟨here.afterAll ((c :: more).map Glyph.ofChar), rest⟩⟩ := by
    simp only [decimalNumber, Cursor.takeWhile, htaken]
    have hpoint : (Cursor.mk (here.afterAll ((c :: more).map Glyph.ofChar)) rest).current? ≠
        some '.' := by
      cases rest with
      | nil => simp [Cursor.current?]
      | cons g rest => simp [Cursor.current?, hrest g rfl]
    simp only [hpoint, decide_false, Bool.false_and, Bool.false_eq_true, if_false]
    exact exponent_of_apart hrest false
  rw [← hdecimal]
  unfold number
  split
  · rename_i mark hmark
    have hbase : isBaseMark mark = false := by
      cases more with
      | nil =>
        cases rest with
        | nil => cases hmark
        | cons g rest =>
          obtain rfl : g.char = mark := Option.some.inj hmark
          rw [hrest g rfl]
          rfl
      | cons d more =>
        obtain rfl : d = mark := Option.some.inj hmark
        have hd := hmore d List.mem_cons_self
        simp only [isBaseMark, Bool.or_eq_false_iff, beq_eq_false_iff_ne]
        refine ⟨⟨⟨?_, ?_⟩, ?_⟩, ?_⟩ <;>
        · rintro rfl
          exact absurd hd (by decide)
    rw [if_neg (by simp [hbase])]
  · rfl

theorem Word.reads_based {mark : Char} {digits : List Char} (hmark : mark = 'x' ∨ mark = 'b')
    (hne : digits ≠ []) (hdigits : ∀ d ∈ digits, isHexDigit d || d == '_') :
    Word.Reads ⟨'0' :: mark :: digits, .integer, String.ofList ('0' :: mark :: digits)⟩ := by
  have hbase : isBaseMark mark := by
    obtain rfl | rfl := hmark <;> rfl
  refine Word.reads_number (by decide) ?_ nofun ?_
  · rw [List.mem_cons, List.mem_cons, not_or, not_or]
    refine ⟨by decide, ?_, fun hnul => absurd (hdigits _ hnul) (by decide)⟩
    obtain rfl | rfl := hmark <;> decide
  intro here rest hrest
  have hstops : ∀ g ∈ rest.head?, (isHexDigit g.char || g.char == '_') = false := by
    intro g hg
    rw [hrest g hg]
    rfl
  have hchar : (Glyph.ofChar '0').char = '0' := rfl
  have hchar' : (Glyph.ofChar mark).char = mark := rfl
  simp only [number, Cursor.following?, Cursor.current?, List.map_cons, List.cons_append, List.tail_cons,
    List.head?_cons, Option.map_some, hchar, hchar', hbase, decide_true, Bool.and_true, if_true]
  have htaken : (Cursor.advance 2 ⟨here, Glyph.ofChar '0' :: Glyph.ofChar mark ::
      (digits.map Glyph.ofChar ++ rest)⟩).takeWhile (fun c => isHexDigit c || c == '_') =
      (digits, ⟨here.afterAll (('0' :: mark :: digits).map Glyph.ofChar), rest⟩) :=
    Cursor.takeFrom_written hdigits hstops _
  simp only [basedNumber, htaken]
  simp [hne]

/-! ## Strings and characters -/

/-- The characters that have a spelling behind a backslash, with the character written there. -/
def escapes : List (Char × Char) :=
  [('\n', 'n'), ('\t', 't'), ('\r', 'r'), ('\x00', '0'), ('\\', '\\'), ('"', '"'), ('\'', '\'')]

theorem escape?_of_mem {c e : Char} (h : (c, e) ∈ escapes) : escape? e = some c := by
  have hall : ∀ p ∈ escapes, escape? p.2 = some p.1 := by decide
  exact hall _ h

theorem mem_escapes_readable {c e : Char} (h : (c, e) ∈ escapes) : e ≠ '\x00' := by
  have hall : ∀ p ∈ escapes, p.2 ≠ '\x00' := by decide
  exact hall _ h

/-- How characters are written in a literal: some of them only behind a backslash, and others that have a
spelling there in either way. -/
inductive Escaped (only : List Char) : List Char → List Char → Prop
  | nil : Escaped only [] []
  | plain {c : Char} {cs text : List Char} : c ∉ only → Escaped only cs text →
    Escaped only (c :: cs) (c :: text)
  | escaped {c e : Char} {cs text : List Char} : (c, e) ∈ escapes → Escaped only cs text →
    Escaped only (c :: cs) ('\\' :: e :: text)

theorem Escaped.readable {only cs text : List Char} (h : Escaped only cs text)
    (hnul : '\x00' ∈ only) : '\x00' ∉ text := by
  induction h with
  | nil => simp
  | plain hc _ ih =>
    rw [List.mem_cons]
    rintro (rfl | hmem)
    · exact hc hnul
    · exact ih hmem
  | escaped he _ ih =>
    rw [List.mem_cons, List.mem_cons]
    rintro (heq | heq | hmem)
    · exact absurd heq (by decide)
    · exact mem_escapes_readable he heq.symm
    · exact ih hmem

def onlyEscapedInString : List Char := ['\n', '\x00', '"', '\\']

theorem stringFrom_escaped {cs text : List Char} (h : Escaped onlyEscapedInString cs text)
    (soFar : List Char) (here : Position) (rest : List Glyph) :
    stringFrom soFar here (text.map Glyph.ofChar ++ Glyph.ofChar '"' :: rest) =
      ⟨.string, String.ofList (soFar.reverse ++ cs),
        ⟨here.afterAll ((text ++ ['"']).map Glyph.ofChar), rest⟩⟩ := by
  have hquote : (Glyph.ofChar '"').char = '"' := rfl
  induction h generalizing soFar here with
  | nil => cases rest <;> simp [stringFrom, hquote]
  | @plain c cs text hc _ ih =>
    obtain ⟨g, behind, hbehind⟩ : ∃ g behind,
        text.map Glyph.ofChar ++ Glyph.ofChar '"' :: rest = g :: behind :=
      List.exists_cons_of_ne_nil (by simp)
    have hrest := ih (c :: soFar) (here.after (Glyph.ofChar c))
    simp only [onlyEscapedInString, List.mem_cons, List.not_mem_nil, or_false, not_or] at hc
    have hchar : (Glyph.ofChar c).char = c := rfl
    rw [hbehind] at hrest
    rw [List.map_cons, List.cons_append, hbehind, stringFrom]
    simp only [hchar, hc.1, hc.2.2.1, hc.2.2.2, if_false, hrest]
    simp
  | @escaped c e cs text he _ ih =>
    have hslash : (Glyph.ofChar '\\').char = '\\' := rfl
    have hchar : (Glyph.ofChar e).char = e := rfl
    rw [List.map_cons, List.map_cons, List.cons_append, List.cons_append, stringFrom]
    simp only [hslash, hchar, escape?_of_mem he, ih]
    simp

theorem Word.reads_string {s : String} {text : List Char}
    (h : Escaped onlyEscapedInString s.toList text) :
    Word.Reads ⟨'"' :: (text ++ ['"']), .string, s⟩ := by
  refine ⟨by simp, ?_, nofun, fun here rest _ => ?_, fun here rest _ => ?_⟩
  · rw [List.mem_cons, List.mem_append, List.mem_singleton]
    rintro (heq | hmem | heq)
    · exact absurd heq (by decide)
    · exact h.readable (by decide) hmem
    · exact absurd heq (by decide)
  · exact skip_of_first (by decide) (by decide) _ _
  · have hread := stringFrom_escaped h [] (here.after (Glyph.ofChar '"')) rest
    have hquote : (Glyph.ofChar '"').char = '"' := rfl
    simp only [wordAt, Cursor.current?, Cursor.next, List.map_cons, List.map_append, List.map_nil,
      List.append_assoc, List.cons_append, List.nil_append, List.head?_cons, Option.map_some, hquote,
      if_true, hread, List.reverse_nil, String.ofList_toList, Position.afterAll_cons]

def onlyEscapedInCharacter : List Char := ['\n', '\x00', '\\']

theorem character_escaped {c : Char} {text : List Char} (h : Escaped onlyEscapedInCharacter [c] text)
    (here : Position) (rest : List Glyph) :
    character ⟨here, text.map Glyph.ofChar ++ Glyph.ofChar '\'' :: rest⟩ =
      ⟨.character, String.singleton c, ⟨here.afterAll ((text ++ ['\'']).map Glyph.ofChar), rest⟩⟩ := by
  cases h with
  | plain hc h =>
    cases h
    simp only [onlyEscapedInCharacter, List.mem_cons, List.not_mem_nil, or_false, not_or] at hc
    simp only [character, List.map_cons, List.map_nil, List.cons_append, List.nil_append,
      Cursor.current?, List.head?_cons, Option.map_some]
    split
    · rename_i heq
      cases heq
    · rename_i heq
      exact absurd (Option.some.inj heq) hc.1
    · rename_i heq
      exact absurd (Option.some.inj heq) hc.2.2
    · rename_i d _ _ heq
      obtain rfl : c = d := Option.some.inj heq
      simp [closeCharacter, Cursor.current?, Cursor.next, Glyph.ofChar]
  | escaped he h =>
    cases h
    simp [character, closeCharacter, Cursor.current?, Cursor.next, Glyph.ofChar, escape?_of_mem he]

theorem Word.reads_character {c : Char} {text : List Char}
    (h : Escaped onlyEscapedInCharacter [c] text) :
    Word.Reads ⟨'\'' :: (text ++ ['\'']), .character, String.singleton c⟩ := by
  refine ⟨by simp, ?_, nofun, fun here rest _ => ?_, fun here rest _ => ?_⟩
  · rw [List.mem_cons, List.mem_append, List.mem_singleton]
    rintro (heq | hmem | heq)
    · exact absurd heq (by decide)
    · exact h.readable (by decide) hmem
    · exact absurd heq (by decide)
  · exact skip_of_first (by decide) (by decide) _ _
  · have hread := character_escaped h (here.after (Glyph.ofChar '\'')) rest
    have hquote : (Glyph.ofChar '\'').char = '\'' := rfl
    have hne : '\'' ≠ '"' := by decide
    simp only [wordAt, Cursor.current?, Cursor.next, List.map_cons, List.map_append, List.map_nil,
      List.append_assoc, List.cons_append, List.nil_append, List.head?_cons, Option.map_some, hquote,
      hne, if_false, if_true, hread, Position.afterAll_cons]

end Lexer
end TypedScript
