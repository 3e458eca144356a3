import TypedScript.Proofs.Token.Gaps

/-!
# Words

What is taken off the text for a word. A number, a name, a reserved word or an operator consists of the
characters that were taken off, and no longer operator stands where one was found.
-/

namespace TypedScript

namespace Token.Kind

def isVerbatim : Kind → Bool
  | .endOfInput | .invalid _ | .string | .character => false
  | _ => true

/-- Whether the literal of a token says something else than the text. -/
def isRendered : Kind → Bool
  | .invalid _ | .string | .character => true
  | _ => false

theorem isVerbatim_of_mem_operators : ∀ k ∈ operators, k.isVerbatim := by decide

theorem isVerbatim_of_mem_reserved : ∀ k ∈ reserved, k.isVerbatim ∧ k ∉ operators := by decide

theorem ofWord_cases (word : String) : ofWord word = .identifier ∨ ofWord word ∈ reserved := by
  unfold ofWord
  cases hfind : reserved.find? fun k => k.name == word with
  | none => exact .inl rfl
  | some k => exact .inr (List.mem_of_find?_eq_some hfind)

/-- A longer operator stands before a shorter one. -/
theorem operators_sorted :
    operators.Pairwise fun k l => l.name.length ≤ k.name.length := by decide

end Token.Kind

namespace Glyph

def Legible (gs : List Glyph) : Prop := ∀ g ∈ gs, g.char ≠ replacement

theorem Legible.append {gs hs : List Glyph} (h : Legible gs) (h' : Legible hs) :
    Legible (gs ++ hs) := by
  intro g hg
  obtain hg | hg := List.mem_append.mp hg
  · exact h g hg
  · exact h' g hg

theorem legible_of_forall {p : Char → Bool} (hp : p replacement = false) {gs : List Glyph}
    (h : ∀ g ∈ gs, p g.char) : Legible gs := by
  intro g hg heq
  have hg := h g hg
  rw [heq, hp] at hg
  cases hg

end Glyph

namespace Cursor

theorem current?_eq {c : Cursor} {x : Char} (h : c.current? = some x) :
    ∃ g rest, c.rest = g :: rest ∧ g.char = x := by
  obtain ⟨here, gs⟩ := c
  cases gs with
  | nil => cases h
  | cons g rest => exact ⟨g, rest, rfl, Option.some.inj h⟩

theorem following?_eq {c : Cursor} {x : Char} (h : c.following? = some x) :
    ∃ g h rest, c.rest = g :: h :: rest ∧ h.char = x := by
  obtain ⟨here, gs⟩ := c
  match gs, h with
  | g :: k :: rest, h => exact ⟨g, k, rest, rfl, Option.some.inj h⟩

/-- Reading starts with a character that fits. -/
theorem passes_takeWhile_cons {p : Char → Bool} {c : Cursor} {g : Glyph} {rest : List Glyph}
    (hrest : c.rest = g :: rest) (hg : p g.char) :
    ∃ read, c.Passes (g :: read) (c.takeWhile p).2 ∧
      (c.takeWhile p).1 = (g :: read).map Glyph.char ∧ ∀ g' ∈ g :: read, p g'.char := by
  obtain ⟨read, hpasses, hchars, hall⟩ := passes_takeFrom p (c.position.after g) rest
  have hfirst : c.takeWhile p =
      (g.char :: (takeFrom p (c.position.after g) rest).1, (takeFrom p (c.position.after g) rest).2) := by
    rw [takeWhile, hrest, takeFrom, if_pos hg]
  rw [hfirst]
  refine ⟨read, ?_, congrArg (g.char :: ·) hchars, List.forall_mem_cons.mpr ⟨hg, hall⟩⟩
  exact (passes_next hrest).trans (by rw [next, hrest]; exact hpasses)

end Cursor

namespace Lexer

/-- A reading took glyphs off. A word that stands for itself consists of them, and an operator is the
longest that the text starts with. -/
structure Takes (c : Cursor) (r : Reading) (read : List Glyph) : Prop where
  passes : c.Passes read r.cursor
  ne_endOfInput : r.kind ≠ .endOfInput
  verbatim : r.kind.isVerbatim → r.literal = Glyph.text read ∧ Glyph.Legible read
  longest : r.kind ∈ Token.Kind.operators → r.literal = r.kind.name ∧
    ∀ k ∈ Token.Kind.operators, k.name.toList <+: c.rest.map Glyph.char →
      k.name.length ≤ r.kind.name.length

theorem Takes.rendered {c : Cursor} {r : Reading} {read : List Glyph} (h : c.Passes read r.cursor)
    (hr : r.kind.isRendered) : Takes c r read := by
  have hverbatim : r.kind.isVerbatim = false := by
    revert hr
    cases r.kind <;> simp [Token.Kind.isRendered, Token.Kind.isVerbatim]
  refine ⟨h, ?_, ?_, ?_⟩
  · intro hend
    rw [hend] at hr
    cases hr
  · intro hv
    rw [hverbatim] at hv
    cases hv
  · intro hop
    have hv := Token.Kind.isVerbatim_of_mem_operators _ hop
    rw [hverbatim] at hv
    cases hv

theorem Takes.number {c behind : Cursor} {k : Token.Kind} {read : List Glyph}
    (h : c.Passes read behind) (hread : Glyph.Legible read) (hk : k = .integer ∨ k = .float) :
    Takes c ⟨k, Glyph.text read, behind⟩ read := by
  have hkinds : ∀ k : Token.Kind, k = .integer ∨ k = .float →
      k ≠ .endOfInput ∧ k ∉ Token.Kind.operators := by
    rintro k (rfl | rfl) <;> decide
  obtain ⟨hend, hop⟩ := hkinds k hk
  exact ⟨h, hend, fun _ => ⟨rfl, hread⟩, fun h => absurd h hop⟩

theorem rendered_stringFrom (soFar : List Char) (here : Position) (gs : List Glyph) :
    (stringFrom soFar here gs).kind.isRendered ∧
      ∃ read, Cursor.Passes ⟨here, gs⟩ read (stringFrom soFar here gs).cursor := by
  fun_induction stringFrom soFar here gs with
  | case1 | case3 | case7 => exact ⟨rfl, [], .refl _⟩
  | case2 | case4 | case5 | case6 | case9 => exact ⟨rfl, [_], .cons (.refl _)⟩
  | case8 soFar here g h rest _ _ _ c hc ih =>
    obtain ⟨hkind, read, hread⟩ := ih
    exact ⟨hkind, g :: h :: read, hread.cons.cons⟩
  | case10 soFar here g h rest _ _ _ ih =>
    obtain ⟨hkind, read, hread⟩ := ih
    exact ⟨hkind, g :: read, hread.cons⟩

theorem rendered_closeCharacter (c : Char) (cursor : Cursor) :
    (closeCharacter c cursor).kind.isRendered ∧
      ∃ read, cursor.Passes read (closeCharacter c cursor).cursor := by
  unfold closeCharacter
  split
  · rename_i hquote
    obtain ⟨g, rest, hrest, -⟩ := Cursor.current?_eq hquote
    exact ⟨rfl, [g], Cursor.passes_next hrest⟩
  · exact ⟨rfl, [], .refl _⟩

theorem rendered_character (cursor : Cursor) :
    (character cursor).kind.isRendered ∧
      ∃ read, cursor.Passes read (character cursor).cursor := by
  have hclose : ∀ {c : Char} {before : Cursor} {g : Glyph} {rest : List Glyph},
      before.rest = g :: rest → (closeCharacter c before.next).kind.isRendered ∧
        ∃ read, before.Passes read (closeCharacter c before.next).cursor := by
    intro c before g rest hrest
    obtain ⟨hkind, read, hread⟩ := rendered_closeCharacter c before.next
    exact ⟨hkind, _, (Cursor.passes_next hrest).trans hread⟩
  unfold character
  split
  · exact ⟨rfl, [], .refl _⟩
  · exact ⟨rfl, [], .refl _⟩
  · rename_i hslash
    obtain ⟨g, rest, hrest, -⟩ := Cursor.current?_eq hslash
    have hnext := Cursor.passes_next hrest
    dsimp only
    split
    · exact ⟨rfl, _, hnext⟩
    · rename_i e he
      obtain ⟨h, more, hmore, -⟩ := Cursor.current?_eq he
      split
      · obtain ⟨hkind, read, hread⟩ := hclose (c := ‹Char›) hmore
        exact ⟨hkind, _, hnext.trans hread⟩
      · exact ⟨rfl, _, hnext⟩
  · rename_i hc
    obtain ⟨g, rest, hrest, -⟩ := Cursor.current?_eq hc
    exact hclose hrest

theorem legible_of_isDigit {gs : List Glyph} (h : ∀ g ∈ gs, isDigit g.char) : Glyph.Legible gs :=
  Glyph.legible_of_forall (by decide) h

/-- The exponent goes on from what was read of the number before. -/
theorem takes_exponent {c cursor : Cursor} {before : List Glyph} (isFloat : Bool)
    (h : c.Passes before cursor) (hbefore : Glyph.Legible before) :
    ∃ read, Takes c (exponent isFloat (before.map Glyph.char) cursor) (before ++ read) := by
  have hplain : Takes c ⟨if isFloat then .float else .integer, Glyph.text before, cursor⟩
      (before ++ []) := by
    rw [List.append_nil]
    refine .number h hbefore ?_
    cases isFloat
    · exact .inl rfl
    · exact .inr rfl
  unfold exponent
  dsimp only
  split
  · rename_i e f he hf
    split
    · rename_i hmark
      obtain ⟨g, k, rest, hrest, rfl⟩ := Cursor.following?_eq hf
      obtain rfl : g.char = e := by simpa [Cursor.current?, hrest] using he
      simp only [Bool.and_eq_true, Bool.or_eq_true, beq_iff_eq] at hmark
      obtain ⟨mark, hpasses, hchars, hlegible⟩ : ∃ mark : List Glyph,
          cursor.Passes mark
            (cursor.advance (if k.char == '+' || k.char == '-' then 2 else 1)) ∧
          (if k.char == '+' || k.char == '-' then before.map Glyph.char ++ [g.char, k.char]
            else before.map Glyph.char ++ [g.char]) = (before ++ mark).map Glyph.char ∧
          Glyph.Legible mark := by
        have hg : g.char ≠ Glyph.replacement := by
          rintro heq
          rw [heq] at hmark
          exact absurd hmark.1 (by decide)
        have hadvance := cursor.passes_advance
          (if k.char == '+' || k.char == '-' then 2 else 1)
        rw [hrest] at hadvance
        refine ⟨_, hadvance, ?_⟩
        split
        · rename_i hsign
          have hk : k.char ≠ Glyph.replacement := by
            rintro heq
            rw [heq] at hsign
            exact absurd hsign (by decide)
          refine ⟨by simp, ?_⟩
          intro x hx
          simp only [List.take_succ_cons, List.take_zero, List.mem_cons, List.not_mem_nil,
            or_false] at hx
          obtain rfl | rfl := hx
          · exact hg
          · exact hk
        · refine ⟨by simp, ?_⟩
          intro x hx
          simp only [List.take_succ_cons, List.take_zero, List.mem_singleton] at hx
          exact hx ▸ hg
      obtain ⟨digits, hdigits, htaken, hall⟩ := Cursor.passes_takeWhile isDigit
        (cursor.advance (if k.char == '+' || k.char == '-' then 2 else 1))
      have hwhole := h.trans (hpasses.trans hdigits)
      refine ⟨mark ++ digits, ?_⟩
      rw [hchars, htaken]
      split
      · exact .rendered hwhole rfl
      · rw [← List.map_append, List.append_assoc]
        exact .number hwhole
          (hbefore.append (hlegible.append (legible_of_isDigit hall))) (.inr rfl)
    · exact ⟨[], hplain⟩
  · exact ⟨[], hplain⟩

theorem takes_decimalNumber {c : Cursor} {g : Glyph} {rest : List Glyph} (hrest : c.rest = g :: rest)
    (hg : isDigit g.char) : ∃ read, Takes c (decimalNumber c) (g :: read) := by
  have hunread : isDigitOrUnderscore Glyph.replacement = false := by decide
  have hfirst : isDigitOrUnderscore g.char := by simp [isDigitOrUnderscore, hg]
  obtain ⟨whole, hwhole, hchars, hall⟩ := Cursor.passes_takeWhile_cons hrest hfirst
  have hlegible := Glyph.legible_of_forall hunread hall
  unfold decimalNumber
  dsimp only
  rw [hchars]
  split
  · rename_i hpoint
    simp only [Bool.and_eq_true, decide_eq_true_eq] at hpoint
    obtain ⟨point, more, hmore, hdot⟩ := Cursor.current?_eq hpoint.1
    obtain ⟨fraction, hfraction, hdigits, hall'⟩ := Cursor.passes_takeWhile isDigitOrUnderscore
      (c.takeWhile isDigitOrUnderscore).2.next
    have hpasses := (hwhole.trans (Cursor.passes_next hmore)).trans hfraction
    have hbefore : Glyph.Legible (g :: whole ++ [point] ++ fraction) := by
      refine (hlegible.append ?_).append (Glyph.legible_of_forall hunread hall')
      intro x hx
      rw [List.mem_singleton.mp hx, hdot]
      decide
    obtain ⟨read, hread⟩ := takes_exponent true hpasses hbefore
    have hspelled : (g :: whole).map Glyph.char ++ '.' :: fraction.map Glyph.char =
        (g :: whole ++ [point] ++ fraction).map Glyph.char := by simp [hdot]
    rw [hdigits, hspelled]
    exact ⟨_, hread⟩
  · obtain ⟨read, hread⟩ := takes_exponent false hwhole hlegible
    exact ⟨_, hread⟩

theorem takes_number {c : Cursor} {g : Glyph} {rest : List Glyph} (hrest : c.rest = g :: rest)
    (hg : isDigit g.char) : ∃ read, Takes c (number c) (g :: read) := by
  have hunread : (isHexDigit Glyph.replacement || Glyph.replacement == '_') = false := by decide
  unfold number
  split
  · rename_i mark hmark
    split
    · rename_i hbased
      simp only [Bool.and_eq_true, decide_eq_true_eq] at hbased
      obtain ⟨zero, m, more, hmore, rfl⟩ := Cursor.following?_eq hmark
      obtain ⟨rfl, -⟩ := List.cons.inj (hrest.symm.trans hmore)
      have hzero : g.char = '0' := by simpa [Cursor.current?, hrest] using hbased.1
      have hm : m.char ≠ Glyph.replacement := by
        rintro heq
        rw [heq] at hbased
        exact absurd hbased.2 (by decide)
      obtain ⟨digits, hdigits, hchars, hall⟩ := Cursor.passes_takeWhile
        (fun c => isHexDigit c || c == '_') (c.advance 2)
      have hpasses := (c.passes_advance 2).trans hdigits
      rw [hmore] at hpasses
      refine ⟨m :: digits, ?_⟩
      unfold basedNumber
      dsimp only
      rw [hchars]
      split
      · exact .rendered hpasses rfl
      · have hspelled : '0' :: m.char :: digits.map Glyph.char =
            (g :: m :: digits).map Glyph.char := by simp [hzero]
        rw [hspelled]
        refine .number hpasses ?_ (.inl rfl)
        intro x hx
        simp only [List.mem_cons] at hx
        obtain rfl | rfl | hx := hx
        · rw [hzero]
          decide
        · exact hm
        · exact Glyph.legible_of_forall (p := fun c => isHexDigit c || c == '_') hunread hall x hx
    · exact takes_decimalNumber hrest hg
  · exact takes_decimalNumber hrest hg

theorem isNameChar_replacement : isNameChar Glyph.replacement = false := by
  have hletter : Text.isLetter Glyph.replacement = false := by
    rw [Text.isLetter, if_neg (by decide), ← Array.any_toList]
    decide +kernel
  rw [isNameChar, hletter]
  decide

theorem takes_word {c : Cursor} {g : Glyph} {rest : List Glyph} (hrest : c.rest = g :: rest)
    (hg : isNameChar g.char) : ∃ read, Takes c (word c) (g :: read) := by
  obtain ⟨read, hread, hchars, hall⟩ := Cursor.passes_takeWhile_cons hrest hg
  refine ⟨read, ?_⟩
  have hkind : ∀ text, Token.Kind.ofWord text ≠ .endOfInput ∧
      Token.Kind.ofWord text ∉ Token.Kind.operators := by
    intro text
    obtain h | h := Token.Kind.ofWord_cases text
    · rw [h]
      decide
    · have hverbatim := Token.Kind.isVerbatim_of_mem_reserved _ h
      refine ⟨fun hend => ?_, hverbatim.2⟩
      rw [hend] at hverbatim
      cases hverbatim.1
  refine ⟨hread, (hkind _).1, fun _ => ⟨?_, ?_⟩, fun hop => absurd hop (hkind _).2⟩
  · simp only [word, hchars, Glyph.text]
  · exact Glyph.legible_of_forall isNameChar_replacement hall

/-- An operator that is found is the longest that the text starts with. -/
theorem longest_of_operator? {c : Cursor} {k : Token.Kind} (h : operator? c = some k) :
    k ∈ Token.Kind.operators ∧ k.name.toList <+: c.rest.map Glyph.char ∧
      ∀ l ∈ Token.Kind.operators, l.name.toList <+: c.rest.map Glyph.char →
        l.name.length ≤ k.name.length := by
  have hstarts : ∀ l : Token.Kind, c.startsWith l.name.toList ↔
      l.name.toList <+: c.rest.map Glyph.char := by
    intro l
    rw [Cursor.startsWith, List.isPrefixOf_iff_prefix, List.map_take]
    exact ⟨fun hl => hl.trans (List.take_prefix _ _), fun hl => List.prefix_take_iff.mpr ⟨hl, le_rfl⟩⟩
  obtain ⟨hk, before, after, heq, hnone⟩ := List.find?_eq_some_iff_append.mp h
  refine ⟨heq ▸ by simp, (hstarts k).mp hk, fun l hl hprefix => ?_⟩
  have hsorted := Token.Kind.operators_sorted
  rw [heq] at hl hsorted
  rw [List.pairwise_append, List.pairwise_cons] at hsorted
  simp only [List.mem_append, List.mem_cons] at hl
  obtain hl | rfl | hl := hl
  · have := hnone l hl
    simp [(hstarts l).mpr hprefix] at this
  · exact le_rfl
  · exact hsorted.2.1.1 l hl

theorem name_operator_ne : ∀ k ∈ Token.Kind.operators, k.name.toList ≠ [] ∧
    Glyph.replacement ∉ k.name.toList := by decide

theorem takes_operator {c : Cursor} {k : Token.Kind} (h : operator? c = some k) :
    ∃ read, Takes c ⟨k, k.name, c.advance k.name.length⟩ read ∧ read ≠ [] := by
  obtain ⟨hmem, hprefix, hlongest⟩ := longest_of_operator? h
  obtain ⟨hne, hlegible⟩ := name_operator_ne k hmem
  have hspelled : k.name.toList = (c.rest.take k.name.length).map Glyph.char := by
    rw [List.map_take]
    exact List.prefix_iff_eq_take.mp hprefix
  refine ⟨c.rest.take k.name.length, ⟨c.passes_advance _, ?_, fun _ => ⟨?_, ?_⟩, ?_⟩, ?_⟩
  · rintro rfl
    exact absurd hmem (by decide)
  · exact String.toList_injective (by rw [hspelled, Glyph.text, String.toList_ofList])
  · intro g hg heq
    rw [hspelled, ← heq] at hlegible
    exact hlegible (List.mem_map_of_mem hg)
  · exact fun _ => ⟨rfl, hlongest⟩
  · intro hnil
    rw [hspelled, hnil] at hne
    exact hne rfl

/-- At the end of a text there is nothing to read, and before it every reading takes glyphs off. -/
theorem takes_wordAt (c : Cursor) :
    (c.rest = [] ∧ wordAt c = ⟨.endOfInput, "", c⟩) ∨
      ∃ read, Takes c (wordAt c) read ∧ read ≠ [] := by
  obtain ⟨here, gs⟩ := c
  cases gs with
  | nil => exact .inl ⟨rfl, rfl⟩
  | cons g rest =>
    right
    have hnext : Cursor.Passes ⟨here, g :: rest⟩ [g] ⟨here.after g, rest⟩ := ⟨rfl, rfl⟩
    simp only [wordAt, Cursor.current?, Cursor.next, List.head?_cons, Option.map_some]
    split
    · obtain ⟨hkind, read, hread⟩ := rendered_stringFrom [] (here.after g) rest
      exact ⟨_, .rendered (hnext.trans hread) hkind, by simp⟩
    split
    · obtain ⟨hkind, read, hread⟩ := rendered_character ⟨here.after g, rest⟩
      exact ⟨_, .rendered (hnext.trans hread) hkind, by simp⟩
    split
    · obtain ⟨read, hread⟩ := takes_number (c := ⟨here, g :: rest⟩) rfl ‹_›
      exact ⟨_, hread, by simp⟩
    split
    · rename_i hstart
      have hname : isNameChar g.char := by
        simp only [isNameStart, isNameChar, Bool.or_eq_true] at hstart ⊢
        tauto
      obtain ⟨read, hread⟩ := takes_word (c := ⟨here, g :: rest⟩) rfl hname
      exact ⟨_, hread, by simp⟩
    split
    · exact takes_operator ‹_›
    · exact ⟨_, .rendered hnext rfl, by simp⟩

end Lexer
end TypedScript
