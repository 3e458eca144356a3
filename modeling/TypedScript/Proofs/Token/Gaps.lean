import TypedScript.Proofs.Source.Positions
import TypedScript.Token.Lexer

/-!
# Between tokens

What is skipped between two tokens consists of blanks and whole comments. Only at the end of a text may
a line comment go without a line break, and only there a block comment stays open, which is then an
invalid token.
-/

namespace TypedScript

namespace Cursor

/-- Reading leads from one cursor to another, over the glyphs between them. -/
structure Passes (c : Cursor) (read : List Glyph) (c' : Cursor) : Prop where
  rest : c.rest = read ++ c'.rest
  position : c'.position = c.position.afterAll read

namespace Passes

variable {a b c : Cursor} {gs hs : List Glyph}

theorem refl (c : Cursor) : c.Passes [] c := ⟨rfl, rfl⟩

theorem trans (h : a.Passes gs b) (h' : b.Passes hs c) : a.Passes (gs ++ hs) c := by
  refine ⟨?_, ?_⟩
  · rw [h.rest, h'.rest, List.append_assoc]
  · rw [h'.position, h.position, Position.afterAll_append]

/-- Reading the first glyph, then the others. -/
theorem cons {here : Position} {g : Glyph} {rest : List Glyph}
    (h : Passes ⟨here.after g, rest⟩ gs c) : Passes ⟨here, g :: rest⟩ (g :: gs) c :=
  ⟨congrArg (g :: ·) h.rest, h.position⟩

end Passes

theorem passes_next {c : Cursor} {g : Glyph} {rest : List Glyph} (h : c.rest = g :: rest) :
    c.Passes [g] c.next := by
  obtain ⟨here, gs⟩ := c
  obtain rfl : gs = g :: rest := h
  exact ⟨rfl, rfl⟩

theorem passes_advance (c : Cursor) (n : Nat) : c.Passes (c.rest.take n) (c.advance n) := by
  induction n generalizing c with
  | zero => exact .refl c
  | succ n ih =>
    obtain ⟨here, gs⟩ := c
    cases gs with
    | nil => simpa [advance, next] using ih ⟨here, []⟩
    | cons g rest => exact .cons (ih ⟨here.after g, rest⟩)

theorem passes_takeFrom (p : Char → Bool) (here : Position) (gs : List Glyph) :
    ∃ read, Passes ⟨here, gs⟩ read (takeFrom p here gs).2 ∧
      (takeFrom p here gs).1 = read.map Glyph.char ∧ ∀ g ∈ read, p g.char := by
  induction gs generalizing here with
  | nil => exact ⟨[], .refl _, rfl, by simp⟩
  | cons g rest ih =>
    unfold takeFrom
    split
    · rename_i hg
      obtain ⟨read, hpasses, hchars, hall⟩ := ih (here.after g)
      exact ⟨g :: read, hpasses.cons, congrArg (g.char :: ·) hchars,
        List.forall_mem_cons.mpr ⟨hg, hall⟩⟩
    · exact ⟨[], .refl _, rfl, by simp⟩

theorem passes_takeWhile (p : Char → Bool) (c : Cursor) :
    ∃ read, c.Passes read (c.takeWhile p).2 ∧ (c.takeWhile p).1 = read.map Glyph.char ∧
      ∀ g ∈ read, p g.char :=
  passes_takeFrom p c.position c.rest

end Cursor

namespace Lexer

/-- Blanks and whole comments. A block comment ends with the first mark that closes it. -/
inductive Filler : List Char → Prop
  | nil : Filler []
  | blank {c : Char} {cs : List Char} : c ∈ [' ', '\t', '\n', '\r'] → Filler cs → Filler (c :: cs)
  | lineComment {body cs : List Char} : '\n' ∉ body → Filler cs →
    Filler ('/' :: '/' :: (body ++ '\n' :: cs))
  | blockComment {body cs : List Char} : ¬['*', '/'] <:+: body → Filler cs →
    Filler ('/' :: '*' :: (body ++ '*' :: '/' :: cs))

def IsLastComment (cs : List Char) : Prop := ∃ body, '\n' ∉ body ∧ cs = '/' :: '/' :: body

def Gap.Completes : Gap → List Char → Prop
  | .blank, cs => Filler cs
  | .lineComment, cs => ∃ body more, '\n' ∉ body ∧ Filler more ∧ cs = body ++ '\n' :: more
  | .blockComment _, cs => ∃ body more, ¬['*', '/'] <:+: body ∧ Filler more ∧
    cs = body ++ '*' :: '/' :: more

/-- What leads from inside a gap to the end of the text, where a line comment may be open. -/
def Gap.RunsOut (gap : Gap) (cs : List Char) : Prop :=
  (gap = .lineComment ∧ '\n' ∉ cs) ∨
    ∃ filler comment, gap.Completes filler ∧ IsLastComment comment ∧ cs = filler ++ comment

/-- What skipping does: it comes to the next token, to the end of the text, or into a comment that
stays open. -/
inductive Skips (gap : Gap) (here : Position) (gs : List Glyph) :
    Except (Position × Cursor) Cursor → Prop
  | token {read : List Glyph} {c : Cursor} : Cursor.Passes ⟨here, gs⟩ read c →
    gap.Completes (read.map Glyph.char) → Skips gap here gs (.ok c)
  | ends {c : Cursor} : Cursor.Passes ⟨here, gs⟩ gs c → gap.RunsOut (gs.map Glyph.char) →
    Skips gap here gs (.ok c)
  | inside {start : Position} {c : Cursor} : gap = .blockComment start →
    Cursor.Passes ⟨here, gs⟩ gs c → Skips gap here gs (.error (start, c))
  | opened {read comment : List Glyph} {c : Cursor} : gs = read ++ comment →
    gap.Completes (read.map Glyph.char) → ['/', '*'] <+: comment.map Glyph.char →
    Cursor.Passes ⟨here, gs⟩ gs c → Skips gap here gs (.error (here.afterAll read, c))

/-- Skipping goes on in another gap behind some glyphs. What completes that gap must complete the first
one together with them, and so must a comment that stays open. -/
theorem Skips.step {gap gap' : Gap} {here : Position} {read rest : List Glyph}
    {out : Except (Position × Cursor) Cursor}
    (hcompletes : ∀ cs, cs <+: rest.map Glyph.char → gap'.Completes cs →
      gap.Completes (read.map Glyph.char ++ cs))
    (hline : gap' = .lineComment → ∀ cs, '\n' ∉ cs → gap.RunsOut (read.map Glyph.char ++ cs))
    (hblock : ∀ start, gap' = .blockComment start → gap = .blockComment start ∨
      gap = .blank ∧ start = here ∧ read.map Glyph.char = ['/', '*'])
    (h : Skips gap' (here.afterAll read) rest out) : Skips gap here (read ++ rest) out := by
  have hread : Cursor.Passes ⟨here, read ++ rest⟩ read ⟨here.afterAll read, rest⟩ := ⟨rfl, rfl⟩
  cases h with
  | token hpasses hdone =>
    have hbefore : _ <+: rest := ⟨_, hpasses.rest.symm⟩
    refine .token (hread.trans hpasses) ?_
    rw [List.map_append]
    exact hcompletes _ (hbefore.map _) hdone
  | ends hpasses hopen =>
    refine .ends (hread.trans hpasses) ?_
    rw [List.map_append]
    obtain ⟨hgap, hbreak⟩ | ⟨filler, comment, hfiller, hcomment, heq⟩ := hopen
    · exact hline hgap _ hbreak
    · refine .inr ⟨read.map Glyph.char ++ filler, comment, ?_, hcomment, ?_⟩
      · exact hcompletes filler ⟨comment, heq.symm⟩ hfiller
      · rw [heq, List.append_assoc]
  | inside hgap hpasses =>
    obtain hsame | ⟨rfl, rfl, hmark⟩ := hblock _ hgap
    · exact .inside hsame (hread.trans hpasses)
    · have hall : read ++ rest = [] ++ (read ++ rest) := rfl
      refine .opened hall Filler.nil ?_ (hread.trans hpasses)
      rw [List.map_append, hmark]
      exact List.prefix_append _ _
  | @opened filler comment c heq hfiller hcomment hpasses =>
    rw [← Position.afterAll_append]
    refine .opened ?_ ?_ hcomment (hread.trans hpasses)
    · rw [heq, List.append_assoc]
    · have hbefore : filler <+: rest := ⟨comment, heq.symm⟩
      rw [List.map_append]
      exact hcompletes _ (hbefore.map _) hfiller

namespace Skips

variable {here start : Position} {g h : Glyph} {rest : List Glyph}
  {out : Except (Position × Cursor) Cursor}

theorem space (hg : isSpace g.char) (hskips : Skips .blank (here.after g) rest out) :
    Skips .blank here (g :: rest) out := by
  have hmem : g.char ∈ [' ', '\t', '\n', '\r'] := by
    simp only [isSpace, Bool.or_eq_true, beq_iff_eq] at hg
    simpa [or_assoc] using hg
  have hread : Skips .blank (here.afterAll [g]) rest out := hskips
  refine hread.step (fun cs _ hdone => ?_) (by simp) (by simp)
  exact Filler.blank hmem hdone

theorem opensLine (hg : g.char = '/') (hh : h.char = '/')
    (hskips : Skips .lineComment ((here.after g).after h) rest out) :
    Skips .blank here (g :: h :: rest) out := by
  have hread : Skips .lineComment (here.afterAll [g, h]) rest out := hskips
  refine hread.step (fun cs _ hdone => ?_) (fun _ cs hbreak => ?_) (by simp)
  · obtain ⟨body, more, hbody, hmore, rfl⟩ := hdone
    simpa [hg, hh, Gap.Completes] using Filler.lineComment hbody hmore
  · exact .inr ⟨[], _, Filler.nil, ⟨cs, hbreak, rfl⟩, by simp [hg, hh]⟩

theorem opensBlock (hg : g.char = '/') (hh : h.char = '*')
    (hskips : Skips (.blockComment here) ((here.after g).after h) rest out) :
    Skips .blank here (g :: h :: rest) out := by
  have hread : Skips (.blockComment here) (here.afterAll [g, h]) rest out := hskips
  refine hread.step (fun cs _ hdone => ?_) (by simp) (fun start hstart => .inr ⟨rfl, ?_, ?_⟩)
  · obtain ⟨body, more, hbody, hmore, rfl⟩ := hdone
    simpa [hg, hh, Gap.Completes] using Filler.blockComment hbody hmore
  · exact (Gap.blockComment.inj hstart).symm
  · simp [hg, hh]

theorem endsLine (hg : g.char = '\n') (hskips : Skips .blank (here.after g) rest out) :
    Skips .lineComment here (g :: rest) out := by
  have hread : Skips .blank (here.afterAll [g]) rest out := hskips
  refine hread.step (fun cs _ hdone => ?_) (by simp) (by simp)
  exact ⟨[], cs, by simp, hdone, by simp [hg]⟩

theorem inLine (hg : g.char ≠ '\n') (hskips : Skips .lineComment (here.after g) rest out) :
    Skips .lineComment here (g :: rest) out := by
  have hread : Skips .lineComment (here.afterAll [g]) rest out := hskips
  refine hread.step (fun cs _ hdone => ?_) (fun _ cs hbreak => .inl ⟨rfl, ?_⟩) (by simp)
  · obtain ⟨body, more, hbody, hmore, rfl⟩ := hdone
    exact ⟨g.char :: body, more, by simp [hbody, Ne.symm hg], hmore, rfl⟩
  · simp [hbreak, Ne.symm hg]

theorem closesBlock (hg : g.char = '*') (hh : h.char = '/')
    (hskips : Skips .blank ((here.after g).after h) rest out) :
    Skips (.blockComment start) here (g :: h :: rest) out := by
  have hread : Skips .blank (here.afterAll [g, h]) rest out := hskips
  refine hread.step (fun cs _ hdone => ?_) (by simp) (by simp)
  exact ⟨[], cs, by simp, hdone, by simp [hg, hh]⟩

/-- A glyph inside a block comment belongs to it unless it closes it together with the next one. -/
theorem inBlock (hgh : ∀ h rest', rest = h :: rest' → ¬(g.char = '*' ∧ h.char = '/'))
    (hskips : Skips (.blockComment start) (here.after g) rest out) :
    Skips (.blockComment start) here (g :: rest) out := by
  have hread : Skips (.blockComment start) (here.afterAll [g]) rest out := hskips
  refine hread.step (fun cs hcs hdone => ?_) (by simp) (fun _ hstart => .inl hstart)
  obtain ⟨body, more, hbody, hmore, rfl⟩ := hdone
  refine ⟨g.char :: body, more, ?_, hmore, rfl⟩
  rw [List.infix_cons_iff, not_or]
  refine ⟨?_, hbody⟩
  cases body with
  | nil => simp
  | cons d body =>
    cases rest with
    | nil => simp at hcs
    | cons h rest' =>
      obtain ⟨rfl, -⟩ := List.cons_prefix_cons.mp hcs
      simp only [List.cons_prefix_cons]
      rintro ⟨hg, hh, -⟩
      exact hgh h rest' rfl ⟨hg.symm, hh.symm⟩

end Skips

/-- Skipping finds what it should. -/
theorem skips_skipFrom (gap : Gap) (here : Position) (gs : List Glyph) :
    Skips gap here gs (skipFrom gap here gs) := by
  fun_induction skipFrom gap here gs with
  | case1 here start => exact .inside rfl (.refl _)
  | case2 gap here hgap =>
    cases gap with
    | blank => exact .token (.refl _) Filler.nil
    | lineComment => exact .ends (.refl _) (.inl ⟨rfl, by simp⟩)
    | blockComment start => exact absurd rfl (hgap start)
  | case3 here g rest ih =>
    by_cases hg : g.char = '\n'
    · rw [if_pos hg] at ih ⊢
      exact ih.endsLine hg
    · rw [if_neg hg] at ih ⊢
      exact ih.inLine hg
  | case4 start here g ih => exact ih.inBlock (by simp)
  | case5 start here g h rest hgh ih =>
    simp only [Bool.and_eq_true, decide_eq_true_eq] at hgh
    exact ih.closesBlock hgh.1 hgh.2
  | case6 start here g h rest hgh ih =>
    simp only [Bool.and_eq_true, decide_eq_true_eq] at hgh
    refine ih.inBlock fun h' rest' heq => ?_
    obtain ⟨rfl, rfl⟩ := List.cons.inj heq
    exact hgh
  | case7 here g hg ih => exact ih.space hg
  | case8 here g hg => exact .token (.refl _) Filler.nil
  | case9 here g h rest hg ih => exact ih.space hg
  | case10 here g h rest _ hgh ih =>
    simp only [Bool.and_eq_true, decide_eq_true_eq] at hgh
    exact ih.opensLine hgh.1 hgh.2
  | case11 here g h rest _ _ hgh ih =>
    simp only [Bool.and_eq_true, decide_eq_true_eq] at hgh
    exact ih.opensBlock hgh.1 hgh.2
  | case12 here g h rest => exact .token (.refl _) Filler.nil

end Lexer
end TypedScript
