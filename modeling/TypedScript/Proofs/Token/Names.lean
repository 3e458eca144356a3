import TypedScript.Proofs.Token.Layout

/-!
# Names in a text

A token that is a name stands for the longest stretch of letters, digits and underscores at its place.
-/

namespace TypedScript
namespace Lexer

/-- Reading goes on as long as characters fit. -/
theorem takeFrom_stops (p : Char → Bool) (here : Position) (gs : List Glyph) :
    ∀ g ∈ (Cursor.takeFrom p here gs).2.rest.head?, p g.char = false := by
  induction gs generalizing here with
  | nil => simp [Cursor.takeFrom]
  | cons g rest ih =>
    unfold Cursor.takeFrom
    split
    · exact ih (here.after g)
    · next hg => simpa using hg

theorem kind_decimalNumber (c : Cursor) : (decimalNumber c).kind ≠ .identifier := by
  have hexponent : ∀ isFloat read c, (exponent isFloat read c).kind ≠ .identifier := by
    intro isFloat read c
    unfold exponent
    dsimp only
    repeat' split
    all_goals nofun
  unfold decimalNumber
  dsimp only
  split <;> exact hexponent _ _ _

theorem kind_number (c : Cursor) : (number c).kind ≠ .identifier := by
  unfold number
  split
  · split
    · unfold basedNumber
      dsimp only
      split <;> nofun
    · exact kind_decimalNumber c
  · exact kind_decimalNumber c

/-- What is read as a word by what comes first. -/
theorem wordAt_cases (c : Cursor) : (wordAt c).kind = .endOfInput ∨ (wordAt c).kind.isRendered ∨
    (wordAt c).kind ∈ Token.Kind.operators ∨
    ∃ g rest, c.rest = g :: rest ∧ (isDigit g.char ∧ wordAt c = number c ∨
      isNameStart g.char ∧ wordAt c = word c) := by
  obtain ⟨here, gs⟩ := c
  cases gs with
  | nil => exact .inl rfl
  | cons g rest =>
    refine .inr ?_
    simp only [wordAt, Cursor.current?, List.head?_cons, Option.map_some]
    split
    · exact .inl (rendered_stringFrom _ _ _).1
    split
    · exact .inl (rendered_character _).1
    split
    · exact .inr (.inr ⟨g, rest, rfl, .inl ⟨‹_›, rfl⟩⟩)
    split
    · exact .inr (.inr ⟨g, rest, rfl, .inr ⟨‹_›, rfl⟩⟩)
    split
    · exact .inr (.inl (longest_of_operator? ‹_›).1)
    · exact .inl rfl

/-- A word that is a name was read as one. -/
theorem word_of_identifier {c : Cursor} (h : (wordAt c).kind = .identifier) :
    wordAt c = word c ∧ ∃ g rest, c.rest = g :: rest ∧ isNameStart g.char := by
  obtain hend | hrendered | hoperator | ⟨g, rest, hrest, ⟨-, hword⟩ | ⟨hstart, hword⟩⟩ := wordAt_cases c
  · rw [hend] at h
    cases h
  · rw [h] at hrendered
    cases hrendered
  · rw [h] at hoperator
    exact absurd hoperator (by decide)
  · rw [hword] at h
    exact absurd h (kind_number c)
  · exact ⟨hword, g, rest, hrest, hstart⟩

/-- A name stands behind some glyphs, and it goes on as long as it can. -/
structure Named (here : Position) (gs : List Glyph) (t : Token) (before read rest : List Glyph) :
    Prop where
  glyphs : gs = before ++ (read ++ rest)
  span : t.span = ⟨here.afterAll before, here.afterAll (before ++ read)⟩
  literal : t.literal = Glyph.text read
  name : ∀ g ∈ read, isNameChar g.char
  longest : ∀ g ∈ rest.head?, isNameChar g.char = false

theorem named_token {c : Cursor} (h : (token c).1.kind = .identifier) :
    ∃ gap read, Named c.position c.rest (token c).1 gap read (token c).2.rest := by
  have hskips := skips_skipFrom .blank c.position c.rest
  unfold token skip at h ⊢
  generalize skipFrom .blank c.position c.rest = out at h hskips
  cases out with
  | error e => cases h
  | ok start =>
    obtain ⟨gap, hgap⟩ : ∃ gap, c.Passes gap start := by
      cases hskips with
      | token hpasses => exact ⟨_, hpasses⟩
      | ends hpasses => exact ⟨_, hpasses⟩
    have hword : wordAt start = word start := (word_of_identifier h).1
    obtain ⟨read, hread, hchars, hall⟩ := Cursor.passes_takeWhile isNameChar start
    have hwhole := hgap.trans hread
    dsimp only
    rw [hword]
    refine ⟨gap, read, ⟨?_, ?_, ?_, hall, takeFrom_stops isNameChar _ _⟩⟩
    · rw [hwhole.rest, List.append_assoc]
      rfl
    · simp only [word, hgap.position, hwhole.position]
    · simp only [word, hchars, Glyph.text]

/-- What was read before does not count. -/
theorem Named.behind {c c' : Cursor} {t : Token} {passed before read rest : List Glyph}
    (h : Named c'.position c'.rest t before read rest) (hc : c.Passes passed c') :
    Named c.position c.rest t (passed ++ before) read rest := by
  refine ⟨?_, ?_, h.literal, h.name, h.longest⟩
  · rw [hc.rest, h.glyphs, List.append_assoc]
  · simp only [h.span, hc.position, Position.afterAll_append]

theorem named_tokensFrom {fuel : Nat} {c : Cursor} {t : Token} (ht : t ∈ tokensFrom fuel c)
    (hkind : t.kind = .identifier) : ∃ before read rest, Named c.position c.rest t before read rest := by
  induction fuel generalizing c with
  | zero => simp [tokensFrom] at ht
  | succ fuel ih =>
    unfold tokensFrom at ht
    dsimp only at ht
    obtain ⟨-, htoken⟩ | ⟨gap, word, -, hpasses, hspells, -⟩ := laid_token c
    · rw [if_pos (by rw [htoken]), List.mem_singleton] at ht
      rw [ht, htoken] at hkind
      cases hkind
    · rw [if_neg hspells.ne_endOfInput] at ht
      obtain rfl | ht := List.mem_cons.mp ht
      · obtain ⟨gap, read, hnamed⟩ := named_token hkind
        exact ⟨_, _, _, hnamed⟩
      · obtain ⟨before, read, rest, hnamed⟩ := ih ht
        exact ⟨_, _, _, hnamed.behind hpasses⟩

/-- Every name among the tokens of a text is a longest stretch of it that can be one. -/
theorem named_tokenize {source : List Glyph} {t : Token} (ht : t ∈ tokenize source)
    (hkind : t.kind = .identifier) : ∃ before read rest,
      Named Position.start source t before read rest := by
  obtain ⟨before, read, rest, h⟩ := named_tokensFrom ht hkind
  obtain ⟨beyond, hsource, hbeyond⟩ := readable_append source
  refine ⟨before, read, rest ++ beyond, ⟨?_, h.span, h.literal, h.name, ?_⟩⟩
  · have hglyphs : readable source = before ++ (read ++ rest) := h.glyphs
    rw [hsource, hglyphs]
    simp only [List.append_assoc]
  · cases rest with
    | nil =>
      intro g hg
      rw [hbeyond g hg]
      decide +kernel
    | cons g rest => exact h.longest

end Lexer
end TypedScript
