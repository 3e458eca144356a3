import Mathlib.Data.List.Find
import TypedScript.Proofs.Source.Positions
import TypedScript.Proofs.Token.Layout

/-!
# Texts behind each other

Where the words of a text are valid, a line break and more text behind them does not change them: none of
them goes over a line break. And a text is read the same at every place, but for the places of its words.
Both are said at once, of a cursor at another place with more text behind what is left.
-/

namespace TypedScript

namespace Glyph

/-- No sequence of bytes goes over one below 128. -/
theorem leading_append {n : UInt8} (hn : n.toNat < 0x80) (a : UInt8) (rest more : List UInt8) :
    leading a (rest ++ n :: more) = leading a rest := by
  by_cases hfits : (leading a (rest ++ n :: more)).width ≤ rest.length + 1
  · rw [← leading_take hfits, List.take_left]
  · have hmem : n ∈ (rest ++ n :: more).take ((leading a (rest ++ n :: more)).width - 1) := by
      obtain ⟨k, hk⟩ : ∃ k, (leading a (rest ++ n :: more)).width - 1 = rest.length + (k + 1) :=
        ⟨(leading a (rest ++ n :: more)).width - 1 - rest.length - 1, by omega⟩
      rw [hk, List.take_length_add_append, List.take_succ_cons]
      exact List.mem_append_right _ List.mem_cons_self
    exact absurd ((leads_leading a (rest ++ n :: more)).ne_of_mem hmem) (by omega)

/-- A byte below 128 is a glyph by itself, and the texts before and behind it are read by themselves. -/
theorem ofBytes_append {n : UInt8} (hn : n.toNat < 0x80) (bytes more : List UInt8) :
    ofBytes (bytes ++ n :: more) = ofBytes bytes ++ ⟨Char.ofNat n.toNat, 1⟩ :: ofBytes more := by
  induction hlen : bytes.length using Nat.strongRecOn generalizing bytes with
  | ind len ih =>
    cases bytes with
    | nil => rw [List.nil_append, ofBytes_cons, leading_one hn]; rfl
    | cons b rest =>
      have hle := (leads_leading b rest).width_le
      have hpos := (leads_leading b rest).width_pos
      have hdrop : (rest ++ n :: more).drop ((leading b rest).width - 1) =
          rest.drop ((leading b rest).width - 1) ++ n :: more :=
        List.drop_append_of_le_length (by omega)
      rw [List.cons_append, ofBytes_cons, leading_append hn, hdrop, ih _ _ _ rfl, ofBytes_cons,
        List.cons_append]
      rw [List.length_drop, ← hlen, List.length_cons]
      omega

end Glyph

namespace Cursor

/-- The cursor moved down, with more text behind what is left. -/
def placed (bytes lines : Nat) (more : List Glyph) (c : Cursor) : Cursor :=
  ⟨c.position.down bytes lines, c.rest ++ more⟩

variable {bytes lines : Nat} {more : List Glyph}

theorem current?_placed {c : Cursor} (h : c.rest ≠ [] ∨ more = []) :
    (c.placed bytes lines more).current? = c.current? := by
  obtain ⟨here, gs⟩ := c
  cases gs with
  | nil =>
    obtain rfl := h.resolve_left (· rfl)
    rfl
  | cons g rest => rfl

theorem next_placed {c : Cursor} (h : c.rest ≠ [] ∨ more = []) :
    (c.placed bytes lines more).next = c.next.placed bytes lines more := by
  obtain ⟨here, gs⟩ := c
  cases gs with
  | nil =>
    obtain rfl := h.resolve_left (· rfl)
    rfl
  | cons g rest => simp [next, placed, Position.down_after]

theorem advance_placed {n : Nat} {c : Cursor} (h : n ≤ c.rest.length) :
    (c.placed bytes lines more).advance n = (c.advance n).placed bytes lines more := by
  induction n generalizing c with
  | zero => rfl
  | succ n ih =>
    have hne : c.rest ≠ [] := fun hnil => by simp [hnil] at h
    rw [advance, advance, next_placed (.inl hne)]
    refine ih ?_
    obtain ⟨g, rest, hrest⟩ := List.exists_cons_of_ne_nil hne
    simp only [next, hrest, List.length_cons] at h ⊢
    omega

variable (hmore : ∀ g ∈ more.head?, g.char = '\n')

include hmore

theorem takeFrom_placed {p : Char → Bool} (hp : p '\n' = false) (here : Position) (gs : List Glyph) :
    takeFrom p (here.down bytes lines) (gs ++ more) =
      ((takeFrom p here gs).1, (takeFrom p here gs).2.placed bytes lines more) := by
  induction gs generalizing here with
  | nil =>
    cases more with
    | nil => rfl
    | cons g more =>
      have hg : ¬p g.char := by simp [hmore g rfl, hp]
      simp [takeFrom, hg, placed]
  | cons g rest ih =>
    rw [List.cons_append, takeFrom, takeFrom]
    split
    · rw [Position.down_after, ih]
    · rfl

theorem takeWhile_placed {p : Char → Bool} (hp : p '\n' = false) (c : Cursor) :
    (c.placed bytes lines more).takeWhile p =
      ((c.takeWhile p).1, (c.takeWhile p).2.placed bytes lines more) :=
  takeFrom_placed hmore hp c.position c.rest

theorem startsWith_placed {word : List Char} (hword : '\n' ∉ word) (c : Cursor) :
    (c.placed bytes lines more).startsWith word = c.startsWith word := by
  obtain ⟨here, gs⟩ := c
  simp only [startsWith, placed]
  induction word generalizing gs with
  | nil => rfl
  | cons x word ih =>
    rw [List.mem_cons, not_or] at hword
    cases gs with
    | nil =>
      cases more with
      | nil => rfl
      | cons g more =>
        have hg : (x == g.char) = false := by simpa [hmore g rfl] using Ne.symm hword.1
        simp only [List.nil_append, List.length_cons, List.take_succ_cons, List.map_cons,
          List.isPrefixOf_cons_cons, hg, Bool.false_and]
        rfl
    | cons g rest =>
      simp only [List.cons_append, List.length_cons, List.take_succ_cons, List.map_cons,
        List.isPrefixOf_cons_cons, ih hword.2]

end Cursor

namespace Lexer

open Cursor

/-- What was read at a cursor moved down, with more text behind. -/
def Reading.placed (bytes lines : Nat) (more : List Glyph) (r : Reading) : Reading :=
  { r with cursor := r.cursor.placed bytes lines more }

def Gap.down (bytes lines : Nat) : Gap → Gap
  | .blockComment start => .blockComment (start.down bytes lines)
  | gap => gap

/-- Where skipping leads in a text that is moved down, with more text behind. -/
def placedSkip (bytes lines : Nat) (more : List Glyph) :
    Except (Position × Cursor) Cursor → Except (Position × Cursor) Cursor
  | .ok c => .ok (c.placed bytes lines more)
  | .error (start, c) => .error (start.down bytes lines, c.placed bytes lines more)

def Stays (more : List Glyph) (k : Token.Kind) : Prop := more = [] ∨ ∀ f, k ≠ .invalid f

variable {bytes lines : Nat} {more : List Glyph} (hmore : ∀ g ∈ more.head?, g.char = '\n')

theorem Stays.eq_nil {r : Reading} {f : LexicalFault} (h : Stays more r.kind)
    (hr : r.kind = .invalid f) : more = [] := h.resolve_right fun hne => hne f hr

theorem stringFrom_placed (soFar : List Char) (here : Position) (gs : List Glyph)
    (h : Stays more (stringFrom soFar here gs).kind) :
    stringFrom soFar (here.down bytes lines) (gs ++ more) =
      (stringFrom soFar here gs).placed bytes lines more := by
  have hquote {soFar : List Char} {g : Glyph} (here : Position) (rest : List Glyph)
      (hg : g.char = '"') : stringFrom soFar here (g :: rest) =
        ⟨.string, String.ofList soFar.reverse, ⟨here.after g, rest⟩⟩ := by
    cases rest <;> simp [stringFrom, hg]
  fun_induction stringFrom soFar here gs with
  | case1 soFar here =>
    obtain rfl := h.eq_nil rfl
    rfl
  | case2 soFar here g hg => rw [List.cons_append, hquote _ _ hg, Position.down_after]; rfl
  | case3 soFar here g hg hbreak =>
    obtain rfl := h.eq_nil rfl
    simp [stringFrom, hbreak, Reading.placed, Reading.fault, placed]
  | case4 soFar here g hg hbreak hback =>
    obtain rfl := h.eq_nil rfl
    simp [stringFrom, hback, Reading.placed, Reading.fault, placed, Position.down_after]
  | case5 soFar here g hg hbreak hback =>
    obtain rfl := h.eq_nil rfl
    simp [stringFrom, hg, hbreak, hback, Reading.placed, Reading.fault, placed, Position.down_after]
  | case6 soFar here g k rest hg => rw [List.cons_append, hquote _ _ hg, Position.down_after]; rfl
  | case7 soFar here g k rest hg hbreak =>
    obtain rfl := h.eq_nil rfl
    simp [stringFrom, hbreak, Reading.placed, Reading.fault, placed]
  | case8 soFar here g k rest hg hbreak hback c hescape ih =>
    simp only [List.cons_append, stringFrom, hback, hescape, Position.down_after]
    exact ih h
  | case9 soFar here g k rest hg hbreak hback hescape =>
    obtain rfl := h.eq_nil rfl
    simp [stringFrom, hback, hescape, Reading.placed, Reading.fault, placed, Position.down_after]
  | case10 soFar here g k rest hg hbreak hback ih =>
    simp only [List.cons_append, stringFrom, hg, hbreak, hback, if_false, Position.down_after]
    exact ih h

theorem closeCharacter_placed {x : Char} {c : Cursor} (h : Stays more (closeCharacter x c).kind) :
    closeCharacter x (c.placed bytes lines more) = (closeCharacter x c).placed bytes lines more := by
  have hrest : c.rest ≠ [] ∨ more = [] := by
    by_cases hnil : c.rest = []
    · have hnone : c.current? = none := by rw [current?, hnil]; rfl
      exact .inr (h.eq_nil (f := .unterminatedCharacter) (by rw [closeCharacter, hnone]; rfl))
    · exact .inl hnil
  unfold closeCharacter
  rw [current?_placed hrest, next_placed hrest]
  split <;> rfl

theorem character_placed {c : Cursor} (h : Stays more (character c).kind) :
    character (c.placed bytes lines more) = (character c).placed bytes lines more := by
  have hrest : c.rest ≠ [] ∨ more = [] := by
    by_cases hnil : c.rest = []
    · have hnone : c.current? = none := by rw [current?, hnil]; rfl
      exact .inr (h.eq_nil (f := .missingCharacter) (by rw [character, hnone]; rfl))
    · exact .inl hnil
  unfold character at h ⊢
  rw [current?_placed hrest, next_placed hrest]
  split at h
  · rfl
  · rfl
  · have hrest' : c.next.rest ≠ [] ∨ more = [] := by
      by_cases hnil : c.next.rest = []
      · have hnone : c.next.current? = none := by rw [current?, hnil]; rfl
        exact .inr (h.eq_nil (f := .invalidEscape '\x00') (by dsimp only; rw [hnone]; rfl))
      · exact .inl hnil
    dsimp only at h ⊢
    rw [current?_placed hrest', next_placed hrest']
    split at h
    · rfl
    · split at h
      · exact closeCharacter_placed h
      · rfl
  · exact closeCharacter_placed h

section

include hmore

theorem basedNumber_placed (mark : Char) (c : Cursor) :
    basedNumber mark (c.placed bytes lines more) =
      (basedNumber mark c).placed bytes lines more := by
  unfold basedNumber
  rw [takeWhile_placed hmore (by decide)]
  dsimp only
  split <;> rfl

theorem exponent_placed (isFloat : Bool) (read : List Char) (c : Cursor) :
    exponent isFloat read (c.placed bytes lines more) =
      (exponent isFloat read c).placed bytes lines more := by
  obtain ⟨here, gs⟩ := c
  have hbreak : ∀ e : Char, ((e == 'e' || e == 'E') &&
      (isDigit '\n' || '\n' == '+' || '\n' == '-')) = false := fun e => Bool.and_false _
  match gs, more, hmore with
  | [], [], _ => rfl
  | [], [l], hmore => rfl
  | [], l :: k :: more, hmore =>
    have hl : l.char = '\n' := hmore l rfl
    simp [exponent, placed, current?, following?, hl, Reading.placed]
  | [g], [], _ => rfl
  | [g], l :: more, hmore =>
    have hl : l.char = '\n' := hmore l rfl
    simp only [exponent, placed, current?, following?, List.cons_append, List.nil_append,
      List.head?_cons, List.tail_cons, List.head?_nil, Option.map_some, Option.map_none, hl, hbreak,
      Reading.placed]
    rfl
  | g :: h :: rest, more, hmore =>
    have hcurrent : (Cursor.mk here (g :: h :: rest)).current? = some g.char := rfl
    have hfollowing : (Cursor.mk here (g :: h :: rest)).following? = some h.char := rfl
    have hcurrent' : ((Cursor.mk here (g :: h :: rest)).placed bytes lines more).current? =
      some g.char := rfl
    have hfollowing' : ((Cursor.mk here (g :: h :: rest)).placed bytes lines more).following? =
      some h.char := rfl
    unfold exponent
    rw [hcurrent, hfollowing, hcurrent', hfollowing']
    dsimp only
    split
    · rw [advance_placed (by split <;> simp), takeWhile_placed hmore (by decide),
        apply_ite (Reading.placed bytes lines more)]
      rfl
    · rfl

theorem decimalNumber_placed (c : Cursor) : decimalNumber (c.placed bytes lines more) =
    (decimalNumber c).placed bytes lines more := by
  unfold decimalNumber
  rw [takeWhile_placed hmore (by decide)]
  dsimp only
  generalize c.takeWhile isDigitOrUnderscore = taken
  obtain ⟨whole, here, gs⟩ := taken
  have hpoint : (((Cursor.mk here gs).placed bytes lines more).current? = some '.' &&
      ((Cursor.mk here gs).placed bytes lines more).following?.any isDigit) =
        ((Cursor.mk here gs).current? = some '.' && (Cursor.mk here gs).following?.any isDigit) := by
    match gs, more, hmore with
    | [], [], _ => rfl
    | [], l :: more, hmore =>
      have hl : l.char = '\n' := hmore l rfl
      simp [placed, current?, hl]
    | [g], [], _ => rfl
    | [g], l :: more, hmore =>
      have hl : l.char = '\n' := hmore l rfl
      have hdigit : isDigit '\n' = false := rfl
      simp [placed, current?, following?, hl, hdigit]
    | g :: h :: rest, more, _ => rfl
  dsimp only
  rw [hpoint]
  split
  · next hdot =>
    have hne : gs ≠ [] := by
      rintro rfl
      simp [current?] at hdot
    rw [next_placed (.inl hne), takeWhile_placed hmore (by decide)]
    exact exponent_placed hmore _ _ _
  · exact exponent_placed hmore _ _ _

theorem number_placed {c : Cursor} (hrest : c.rest ≠ []) :
    number (c.placed bytes lines more) = (number c).placed bytes lines more := by
  obtain ⟨here, gs⟩ := c
  match gs, more, hmore with
  | [], _, _ => exact absurd rfl hrest
  | [g], [], hmore => exact decimalNumber_placed hmore _
  | [g], l :: more, hmore =>
    have hl : l.char = '\n' := hmore l rfl
    have hmark : isBaseMark '\n' = false := rfl
    have hnumber : number ((Cursor.mk here [g]).placed bytes lines (l :: more)) =
        decimalNumber ((Cursor.mk here [g]).placed bytes lines (l :: more)) := by
      simp [number, placed, following?, hl, hmark]
    rw [hnumber]
    exact decimalNumber_placed hmore _
  | g :: h :: rest, more, hmore =>
    have hfollowing : (Cursor.mk here (g :: h :: rest)).following? = some h.char := rfl
    have hfollowing' : ((Cursor.mk here (g :: h :: rest)).placed bytes lines more).following? =
      some h.char := rfl
    unfold number
    rw [hfollowing, hfollowing', current?_placed (.inl hrest)]
    dsimp only
    split
    · rw [advance_placed (by simp)]
      exact basedNumber_placed hmore _ _
    · exact decimalNumber_placed hmore _

theorem word_placed (c : Cursor) :
    word (c.placed bytes lines more) = (word c).placed bytes lines more := by
  unfold word
  rw [takeWhile_placed hmore (by decide)]
  rfl

theorem operator?_placed (c : Cursor) : operator? (c.placed bytes lines more) = operator? c := by
  have hnames : ∀ k ∈ Token.Kind.operators, '\n' ∉ k.name.toList := by decide
  unfold operator?
  refine List.find?_congr fun k hk => ?_
  exact startsWith_placed hmore (hnames k hk) c

/-- A word is read the same at every place, and if it is valid also with more text behind. -/
theorem wordAt_placed {c : Cursor} (hrest : c.rest ≠ [] ∨ more = []) (h : Stays more (wordAt c).kind) :
    wordAt (c.placed bytes lines more) = (wordAt c).placed bytes lines more := by
  unfold wordAt at h ⊢
  rw [current?_placed hrest, next_placed hrest]
  split at h
  · next hnone => rfl
  · next x hx =>
    have hne : c.rest ≠ [] := fun hnil => by simp [current?, hnil] at hx
    split at h
    · next hquote =>
      rw [if_pos hquote, if_pos hquote]
      exact stringFrom_placed _ _ _ h
    next hquote =>
    rw [if_neg hquote, if_neg hquote]
    split at h
    · next hmark =>
      rw [if_pos hmark, if_pos hmark]
      exact character_placed h
    next hmark =>
    rw [if_neg hmark, if_neg hmark]
    split at h
    · next hdigit =>
      rw [if_pos hdigit, if_pos hdigit]
      exact number_placed hmore hne
    next hdigit =>
    rw [if_neg hdigit, if_neg hdigit]
    split at h
    · next hname =>
      rw [if_pos hname, if_pos hname]
      exact word_placed hmore c
    next hname =>
    rw [if_neg hname, if_neg hname, operator?_placed hmore]
    split at h
    · next k hk =>
      have hle : k.name.length ≤ c.rest.length := by
        have hfits := List.find?_some hk
        have hlength := (List.isPrefixOf_iff_prefix.mp hfits).length_le
        rw [List.length_map, String.length_toList] at hlength
        exact Nat.le_trans hlength (List.length_take_le' _ _)
      rw [advance_placed hle]
      rfl
    · rfl

/-- A gap up to a word is skipped in the same way with more text behind. -/
theorem skipFrom_placed (gap : Gap) (here : Position) (gs : List Glyph)
    (h : more = [] ∨ ∃ c, skipFrom gap here gs = .ok c ∧ c.rest ≠ []) :
    skipFrom (gap.down bytes lines) (here.down bytes lines) (gs ++ more) =
      placedSkip bytes lines more (skipFrom gap here gs) := by
  fun_induction skipFrom gap here gs with
  | case1 here start =>
    obtain rfl := h.resolve_right (by rintro ⟨c, hc, -⟩; cases hc)
    rfl
  | case2 gap here hgap =>
    obtain rfl := h.resolve_right (by rintro ⟨c, hc, hne⟩; cases hc; exact hne rfl)
    cases gap with
    | blockComment start => exact absurd rfl (hgap start)
    | blank | lineComment => rfl
  | case3 here g rest ih =>
    rw [← ih h, ← Position.down_after]
    simp only [List.cons_append, Gap.down, skipFrom]
    split <;> rfl
  | case4 start here g ih =>
    obtain rfl := h.resolve_right (by rintro ⟨c, hc, -⟩; simp [skipFrom] at hc)
    rw [← ih h, ← Position.down_after]
    rfl
  | case5 start here g k rest hgk ih =>
    rw [← ih h, ← Position.down_after, ← Position.down_after]
    simp only [List.cons_append, Gap.down, skipFrom, hgk, if_true]
  | case6 start here g k rest hgk ih =>
    rw [← ih h, ← Position.down_after]
    simp only [List.cons_append, Gap.down, skipFrom, hgk]
    rfl
  | case7 here g hg ih =>
    obtain rfl := h.resolve_right (by
      rintro ⟨c, hc, hne⟩
      simp only [skipFrom, Except.ok.injEq] at hc
      exact hne (hc ▸ rfl))
    rw [← ih h, ← Position.down_after]
    simp only [List.append_nil, Gap.down, skipFrom, hg, if_true]
  | case8 here g hg =>
    cases more with
    | nil => simp [skipFrom, hg, placedSkip, placed, Gap.down]
    | cons l more =>
      have hl : l.char = '\n' := hmore l rfl
      simp [skipFrom, hg, hl, placedSkip, placed, Gap.down]
  | case9 here g k rest hg ih =>
    rw [← ih h, ← Position.down_after]
    simp only [List.cons_append, Gap.down, skipFrom, hg, if_true]
  | case10 here g k rest hg hgk ih =>
    rw [← ih h, ← Position.down_after, ← Position.down_after]
    simp only [List.cons_append, Gap.down, skipFrom, hg, hgk, if_true]
    rfl
  | case11 here g k rest hg hgk hgk' ih =>
    rw [← ih h, ← Position.down_after, ← Position.down_after]
    simp only [List.cons_append, Gap.down, skipFrom, hg, hgk, hgk', if_true]
    rfl
  | case12 here g k rest hg hgk hgk' =>
    simp only [List.cons_append, Gap.down, skipFrom, hg, hgk, hgk']
    rfl

/-- A token is the same at another place, and a valid one that is not the end also with more text
behind. -/
theorem token_placed {c : Cursor} (hstays : Stays more (token c).1.kind)
    (hend : (token c).1.kind ≠ .endOfInput ∨ more = []) :
    token (c.placed bytes lines more) =
      ((token c).1.moved (.down bytes lines), (token c).2.placed bytes lines more) := by
  have hskip : more = [] ∨ ∃ start, skipFrom .blank c.position c.rest = .ok start ∧ start.rest ≠ [] := by
    refine or_iff_not_imp_left.mpr fun hne => ?_
    replace hend := hend.resolve_right hne
    replace hstays := hstays.resolve_left hne
    unfold token skip at hend hstays
    split at hend
    · next start hstart =>
      refine ⟨start, hstart, fun hnil => hend ?_⟩
      simp [wordAt, current?, hnil]
    · next start stop herror =>
      rw [herror] at hstays
      exact absurd rfl (hstays _)
  have hsame : skip (c.placed bytes lines more) = placedSkip bytes lines more (skip c) :=
    skipFrom_placed hmore .blank c.position c.rest hskip
  unfold token at hstays ⊢
  rw [hsame]
  split at hstays
  · next start hstart =>
    rw [hstart]
    have hrest : start.rest ≠ [] ∨ more = [] := by
      obtain hnil | ⟨start', hstart', hne⟩ := hskip
      · exact .inr hnil
      · have heq : start = start' := Except.ok.inj (hstart.symm.trans hstart')
        exact .inl (heq ▸ hne)
    simp only [placedSkip, wordAt_placed hmore hrest hstays]
    rfl
  · next start stop herror =>
    rw [herror]
    rfl

omit hmore in
/-- A text at another place has its tokens there. -/
theorem tokensFrom_down (fuel : Nat) (c : Cursor) :
    tokensFrom fuel ⟨c.position.down bytes lines, c.rest⟩ =
      (tokensFrom fuel c).map (Token.moved (.down bytes lines)) := by
  induction fuel generalizing c with
  | zero => rfl
  | succ fuel ih =>
    have htoken := @token_placed bytes lines [] (by simp) c (.inl rfl) (.inr rfl)
    simp only [placed, List.append_nil] at htoken
    rw [tokensFrom, tokensFrom, htoken]
    dsimp only
    have hkind : ((token c).1.moved (.down bytes lines)).kind = (token c).1.kind := rfl
    rw [hkind, ih]
    split <;> rfl

end

/-- Behind a gap up to the end of a text, a line break goes on as a new text does. -/
theorem skipFrom_lineBreak {l : Glyph} (hl : l.char = '\n') (more : List Glyph) (gap : Gap)
    (here : Position) (gs : List Glyph) {c : Cursor} (hok : skipFrom gap here gs = .ok c)
    (hend : c.rest = []) :
    skipFrom gap here (gs ++ l :: more) = skipFrom .blank (c.position.after l) more := by
  have hspace : isSpace l.char := by rw [hl]; rfl
  have hblank (here : Position) :
      skipFrom .blank here (l :: more) = skipFrom .blank (here.after l) more := by
    cases more with
    | nil => simp only [skipFrom, hspace, if_true]
    | cons k more => rw [skipFrom, if_pos hspace]
  fun_induction skipFrom gap here gs with
  | case1 here start => cases hok
  | case2 gap here hgap =>
    cases hok
    cases gap with
    | blank => exact hblank here
    | lineComment => rw [List.nil_append, skipFrom, if_pos hl]
    | blockComment start => exact absurd rfl (hgap start)
  | case3 here g rest ih =>
    rw [← ih hok, List.cons_append, skipFrom]
  | case4 start here g ih => simp [skipFrom] at hok
  | case5 start here g k rest hgk ih =>
    rw [← ih hok, List.cons_append, List.cons_append, skipFrom, if_pos hgk]
  | case6 start here g k rest hgk ih =>
    rw [← ih hok, List.cons_append, List.cons_append, skipFrom, if_neg hgk]
  | case7 here g hg ih =>
    rw [← ih hok, List.cons_append, List.nil_append, skipFrom, if_pos hg]
  | case8 here g hg =>
    cases hok
    cases hend
  | case9 here g k rest hg ih =>
    rw [← ih hok, List.cons_append, List.cons_append, skipFrom, if_pos hg]
  | case10 here g k rest hg hgk ih =>
    rw [← ih hok, List.cons_append, List.cons_append, skipFrom, if_neg hg, if_pos hgk]
  | case11 here g k rest hg hgk hgk' ih =>
    rw [← ih hok, List.cons_append, List.cons_append, skipFrom, if_neg hg, if_neg hgk, if_pos hgk']
  | case12 here g k rest hg hgk hgk' =>
    cases hok
    cases hend

/-- Where a text has no more tokens, only a gap is left. -/
theorem skip_of_end {c : Cursor} (hend : (token c).1.kind = .endOfInput) :
    skip c = .ok ⟨c.position.afterAll c.rest, []⟩ := by
  have hskips := skips_skipFrom .blank c.position c.rest
  change Skips .blank c.position c.rest (skip c) at hskips
  unfold token at hend
  split at hend
  · next start hstart =>
    rw [hstart] at hskips ⊢
    obtain ⟨hnil, -⟩ | ⟨read, htakes, -⟩ := takes_wordAt start
    · have hpasses : Cursor.Passes ⟨c.position, c.rest⟩ c.rest start := by
        cases hskips with
        | @token read _ hpasses _ =>
          have hrest : c.rest = read := by simpa [hnil] using hpasses.rest
          exact hrest ▸ hpasses
        | ends hpasses _ => exact hpasses
      obtain ⟨position, rest⟩ := start
      obtain rfl : rest = [] := hnil
      exact congrArg (fun p => Except.ok (Cursor.mk p [])) hpasses.position
    · exact absurd hend htakes.ne_endOfInput
  · cases hend

/-- At the end of a text a line break goes on as a new text does. -/
theorem token_lineBreak {l : Glyph} (hl : l.char = '\n') (more : List Glyph) {c : Cursor}
    (hend : (token c).1.kind = .endOfInput) :
    token ⟨c.position, c.rest ++ l :: more⟩ = token ⟨(c.position.afterAll c.rest).after l, more⟩ := by
  have hskip : skip ⟨c.position, c.rest ++ l :: more⟩ =
      skip ⟨(c.position.afterAll c.rest).after l, more⟩ :=
    skipFrom_lineBreak hl more .blank c.position c.rest (skip_of_end hend) rfl
  rw [token, token, hskip]

/-- The tokens of a text without invalid ones stand before those of what follows a line break. -/
theorem tokensFrom_lineBreak {l : Glyph} (hl : l.char = '\n') (more : List Glyph) {fuel : Nat}
    {c : Cursor} (hvalid : ∀ t ∈ tokensFrom fuel c, ∀ f, t.kind ≠ .invalid f)
    {words : List Token} {stop : Token} (htokens : tokensFrom fuel c = words ++ [stop])
    (hstop : stop.kind = .endOfInput) (hwords : ∀ t ∈ words, t.kind ≠ .endOfInput) (fuel' : Nat) :
    tokensFrom (fuel' + 1 + words.length) ⟨c.position, c.rest ++ l :: more⟩ =
      words ++ tokensFrom (fuel' + 1) ⟨(c.position.afterAll c.rest).after l, more⟩ := by
  induction words generalizing fuel c with
  | nil =>
    cases fuel with
    | zero => cases htokens
    | succ fuel =>
      have hend : (token c).1.kind = .endOfInput := by
        rw [tokensFrom] at htokens
        dsimp only at htokens
        split at htokens
        · assumption
        · obtain ⟨heq, hrest⟩ := List.cons.inj htokens
          rw [heq, hstop]
      simp only [List.length_nil, Nat.add_zero, List.nil_append, tokensFrom, token_lineBreak hl more hend]
  | cons t words ih =>
    rw [List.forall_mem_cons] at hwords
    cases fuel with
    | zero => cases htokens
    | succ fuel =>
      rw [tokensFrom] at htokens hvalid
      dsimp only at htokens hvalid
      split at htokens
      · next hend =>
        obtain ⟨heq, -⟩ := List.cons.inj htokens
        exact absurd (heq ▸ hend) hwords.1
      · next hend =>
        rw [if_neg hend, List.forall_mem_cons] at hvalid
        obtain ⟨heq, hrest⟩ := List.cons.inj htokens
        have hplaced : token ⟨c.position, c.rest ++ l :: more⟩ =
            ((token c).1, ⟨(token c).2.position, (token c).2.rest ++ l :: more⟩) :=
          @token_placed 0 0 _ (by simp [hl]) c (.inr hvalid.1) (.inl hend)
        obtain ⟨-, hlast⟩ | ⟨gap, read, -, hpasses, -⟩ := laid_token c
        · rw [hlast] at hend
          exact absurd rfl hend
        have hposition : (token c).2.position.afterAll (token c).2.rest = c.position.afterAll c.rest := by
          rw [hpasses.position, hpasses.rest, ← Position.afterAll_append]
        rw [List.length_cons, ← Nat.add_assoc, tokensFrom, hplaced]
        dsimp only
        rw [if_neg hend, ih hvalid.2 hrest hwords.2, hposition, ← heq, List.cons_append]

/-- More fuel than there are glyphs makes no difference. -/
theorem tokensFrom_add {fuel : Nat} {c : Cursor} (h : c.rest.length < fuel) (n : Nat) :
    tokensFrom (fuel + n) c = tokensFrom fuel c := by
  induction fuel generalizing c with
  | zero => omega
  | succ fuel ih =>
    rw [Nat.add_right_comm, tokensFrom, tokensFrom]
    dsimp only
    obtain ⟨-, htoken⟩ | ⟨gap, read, -, hpasses, hspells, -⟩ := laid_token c
    · rw [if_pos (by rw [htoken]), if_pos (by rw [htoken])]
    · have hlength := congrArg List.length hpasses.rest
      have hpos := List.length_pos_iff.mpr hspells.ne_nil
      simp only [List.length_append] at hlength
      rw [ih (by omega)]

theorem Laid.length_le {here : Position} {gs : List Glyph} {tokens : List Token}
    (h : Laid here gs tokens) : tokens.length ≤ gs.length + 1 := by
  induction h with
  | last _ => simp
  | cons _ hspells _ _ ih =>
    have hpos := List.length_pos_iff.mpr hspells.ne_nil
    simp only [List.length_cons, List.length_append]
    omega

/-- No token ends before the text. -/
theorem Laid.line_pos {here : Position} {gs : List Glyph} {tokens : List Token}
    (h : Laid here gs tokens) (hhere : 0 < here.line) : ∀ t ∈ tokens, 0 < t.span.stop.line := by
  induction h with
  | last _ =>
    simp only [List.mem_singleton, forall_eq]
    exact Position.line_pos_afterAll hhere _
  | cons _ _ hspan _ ih =>
    refine List.forall_mem_cons.mpr ⟨?_, ih (Position.line_pos_afterAll hhere _)⟩
    rw [hspan]
    exact Position.line_pos_afterAll hhere _

/-- The tokens of a text without a NUL and without invalid tokens stand before those of what follows a line
break, which are moved down. -/
theorem tokenize_lineBreak {gs : List Glyph} {l : Glyph} (more : List Glyph)
    (hnul : '\x00' ∉ gs.map Glyph.char) (hl : l.char = '\n')
    (hvalid : ∀ t ∈ tokenize gs, ∀ f, t.kind ≠ .invalid f) :
    ∃ (words : List Token) (stop : Token), tokenize gs = words ++ [stop] ∧ stop.kind = .endOfInput ∧
      (∀ t ∈ words, t.kind ≠ .endOfInput) ∧
      tokenize (gs ++ l :: more) = words ++ (tokenize more).map
        (Token.moved (.down (Glyph.widthOf gs + l.width) ((gs.map Glyph.char).count '\n' + 1))) := by
  have hgs : ∀ g ∈ gs, (g.char != '\x00') = true := fun g hg => by
    simpa using fun heq : g.char = '\x00' => hnul (heq ▸ List.mem_map_of_mem hg)
  have hreadable : readable gs = gs := List.takeWhile_eq_self_iff.mpr hgs
  have hreadable' : readable (gs ++ l :: more) = gs ++ l :: readable more := by
    rw [readable, List.takeWhile_append_of_pos hgs, List.takeWhile_cons_of_pos (by simp [hl]), readable]
  have hlaid := laid_tokenize gs
  rw [hreadable] at hlaid
  obtain ⟨words, hwords, hne⟩ := hlaid.last_eq
  refine ⟨words, _, hwords, rfl, hne, ?_⟩
  have hlength := hlaid.length_le
  rw [hwords, List.length_append, List.length_singleton] at hlength
  rw [tokenize, hreadable] at hvalid hwords
  let n := gs.length - words.length + 1
  have hfuel : (gs ++ l :: readable more).length + 1 =
      (readable more).length + n + 1 + words.length := by
    simp only [List.length_append, List.length_cons, n]
    omega
  have hfuel' : (readable more).length + n + 1 = (readable more).length + 1 + n := by omega
  rw [tokenize, hreadable', hfuel, tokensFrom_lineBreak hl (readable more) hvalid hwords rfl hne,
    Position.afterAll_lineBreak gs hl, hfuel', tokensFrom_add (Nat.lt_succ_self (readable more).length)]
  exact congrArg (words ++ ·) (tokensFrom_down _ ⟨Position.start, readable more⟩)

end Lexer
end TypedScript
