import Mathlib.Data.List.DropRight
import TypedScript.Proofs.Text.Decoding
import TypedScript.Source.Position
import TypedScript.Token.Basic

/-!
# Where positions are, and moved places

The position that is reached glyph by glyph is the one that the bytes before it say: the line is told
by their line breaks and the column by the glyphs behind the last of these.
-/

namespace TypedScript

def Text.slice (bytes : List UInt8) (start stop : Nat) : List UInt8 :=
  (bytes.drop start).take (stop - start)

def Glyph.isInLine (g : Glyph) : Bool := g.char != '\n'

namespace Position

/-- The place behind glyphs of which the first stands at `p`. -/
def afterAll (p : Position) (gs : List Glyph) : Position := gs.foldl after p

@[simp] theorem afterAll_nil (p : Position) : p.afterAll [] = p := rfl

@[simp] theorem afterAll_cons (p : Position) (g : Glyph) (gs : List Glyph) :
    p.afterAll (g :: gs) = (p.after g).afterAll gs := rfl

theorem afterAll_append (p : Position) (gs hs : List Glyph) :
    p.afterAll (gs ++ hs) = (p.afterAll gs).afterAll hs := List.foldl_append

@[simp] theorem afterAll_offset (p : Position) (gs : List Glyph) :
    (p.afterAll gs).offset = p.offset + Glyph.widthOf gs := by
  induction gs generalizing p with
  | nil => rfl
  | cons g gs ih => rw [afterAll_cons, ih, after_offset, Glyph.widthOf_cons, Nat.add_assoc]

def ofOffset (bytes : List UInt8) (offset : Nat) : Position where
  offset
  line := 1 + (bytes.take offset).count 10
  column := 1 + (Glyph.ofBytes ((bytes.take offset).rtakeWhile (· != 10))).length

theorem line_afterAll (gs : List Glyph) :
    (start.afterAll gs).line = 1 + (gs.map Glyph.char).count '\n' := by
  induction gs using List.reverseRecOn with
  | nil => rfl
  | append_singleton gs g ih =>
    rw [afterAll_append, afterAll_cons, afterAll_nil, after]
    by_cases hbreak : g.char = '\n'
    · simp [hbreak, ih, Nat.add_assoc]
    · simp [hbreak, ih]

theorem column_afterAll (gs : List Glyph) :
    (start.afterAll gs).column = 1 + (gs.rtakeWhile Glyph.isInLine).length := by
  induction gs using List.reverseRecOn with
  | nil => rfl
  | append_singleton gs g ih =>
    rw [afterAll_append, afterAll_cons, afterAll_nil, after, List.rtakeWhile_concat]
    by_cases hbreak : g.char = '\n'
    · simp [hbreak, Glyph.isInLine]
    · simp [hbreak, ih, Nat.add_assoc, Glyph.isInLine]

end Position

theorem rtakeWhile_append_of_forall {α : Type} {p : α → Bool} (xs : List α) {ys : List α}
    (h : ∀ y ∈ ys, p y) : (xs ++ ys).rtakeWhile p = xs.rtakeWhile p ++ ys := by
  rw [List.rtakeWhile, List.reverse_append, List.takeWhile_append_of_pos (by simpa using h),
    List.reverse_append, List.reverse_reverse, List.rtakeWhile]

namespace Glyph

/-- Bytes are read as a single line break only if they are one. -/
theorem eq_of_ofBytes_singleton {bytes : List UInt8} {g : Glyph} (h : ofBytes bytes = [g])
    (hg : g.char = '\n') : bytes = [10] := by
  cases bytes with
  | nil => cases h
  | cons b rest =>
    rw [ofBytes_cons, List.cons.injEq] at h
    obtain ⟨hfirst, hrest⟩ := h
    obtain rfl : b = 10 := ((leads_leading b rest).ascii_iff (by decide)).mpr (by rw [hfirst, hg]; rfl)
    have hone : leading 10 rest = ⟨Char.ofNat 10, 1⟩ := leading_one (by decide)
    have hlength := widthOf_ofBytes rest
    rw [hone] at hrest
    rw [show ofBytes rest = [] from hrest, widthOf_nil] at hlength
    rw [List.eq_nil_of_length_eq_zero hlength.symm]

/-- The bytes behind the last line break are read as the glyphs behind it. -/
theorem ofBytes_rtakeWhile {bytes : List UInt8} {gs : List Glyph} (h : ofBytes bytes = gs) :
    ofBytes (bytes.rtakeWhile (· != 10)) = gs.rtakeWhile isInLine := by
  obtain ⟨before, hgs⟩ := List.rtakeWhile_suffix isInLine gs
  have hlast : ∀ (earlier : List Glyph) (g : Glyph), before = earlier ++ [g] → g.char = '\n' := by
    rintro earlier g rfl
    by_contra hne
    have hall : ∀ y ∈ [g] ++ gs.rtakeWhile isInLine, isInLine y := by
      intro y hy
      obtain hy | hy := List.mem_append.mp hy
      · simpa [List.mem_singleton.mp hy, isInLine] using hne
      · exact List.mem_rtakeWhile_imp hy
    have hmore := rtakeWhile_append_of_forall earlier hall
    rw [← List.append_assoc, hgs] at hmore
    have hlength := congrArg List.length hmore
    simp at hlength
    omega
  rw [← hgs] at h
  obtain ⟨hbefore, hline⟩ := ofBytes_cut h
  have hnone : ∀ b ∈ bytes.drop (widthOf before), (b != 10) = true := by
    have hcount := count_ofBytes (n := 10) (by decide) (bytes.drop (widthOf before))
    have hzero : ((gs.rtakeWhile isInLine).map char).count (Char.ofNat 10) = 0 := by
      rw [List.count_eq_zero, List.mem_map]
      rintro ⟨g, hg, hchar⟩
      have hp : isInLine g := List.mem_rtakeWhile_imp hg
      simp only [isInLine, bne_iff_ne] at hp
      exact hp hchar
    rw [hline, show ((10 : UInt8).toNat) = 10 from rfl, hzero] at hcount
    intro b hb
    have hne : b ≠ 10 := fun hb' => List.count_eq_zero.mp hcount.symm (hb' ▸ hb)
    simpa using hne
  have hend : (bytes.take (widthOf before)).rtakeWhile (· != 10) = [] := by
    cases before using List.reverseRecOn with
    | nil => rfl
    | append_singleton earlier g =>
      obtain ⟨hfirst, hsecond⟩ := ofBytes_cut hbefore
      have hten := eq_of_ofBytes_singleton hsecond (hlast earlier g rfl)
      rw [← List.take_append_drop (widthOf earlier) (List.take _ bytes), hten,
        List.rtakeWhile_concat_neg]
      simp
  rw [← List.take_append_drop (widthOf before) bytes, rtakeWhile_append_of_forall _ hnone, hend,
    List.nil_append, hline]

end Glyph

/-- The place behind the first glyphs of a text is where their bytes end. -/
theorem Position.afterAll_start {bytes : List UInt8} {gs hs : List Glyph}
    (h : Glyph.ofBytes bytes = gs ++ hs) :
    start.afterAll gs = ofOffset bytes (start.afterAll gs).offset := by
  have hcut := (Glyph.ofBytes_cut h).1
  have hoffset : (start.afterAll gs).offset = Glyph.widthOf gs := by
    rw [afterAll_offset]
    exact Nat.zero_add _
  have hline := line_afterAll gs
  have hcolumn := column_afterAll gs
  rw [hoffset]
  have hcount := Glyph.count_ofBytes (n := 10) (by decide) (bytes.take (Glyph.widthOf gs))
  rw [hcut] at hcount
  rw [show '\n' = Char.ofNat (10 : UInt8).toNat from rfl, hcount] at hline
  rw [← Glyph.ofBytes_rtakeWhile hcut] at hcolumn
  rw [ofOffset, ← hline, ← hcolumn, ← hoffset]

/-!
## Moved places

What stands in a text can be moved to another place. Where a span starts and where it ends are moved each
in its own way, since what is read first starts at a token but might end where nothing has been read yet.
-/

/-- How starts and ends of spans are moved. -/
structure Move where
  start : Position → Position
  stop : Position → Position

/-- A position moved by a number of bytes and of lines. -/
def Position.down (bytes lines : Nat) (p : Position) : Position :=
  ⟨p.offset + bytes, p.line + lines, p.column⟩

namespace Move

def stay : Move := ⟨id, id⟩

/-- Everything is moved by a number of bytes and of lines. -/
def down (bytes lines : Nat) : Move := ⟨.down bytes lines, .down bytes lines⟩

/-- Everything is moved down, and what ended before any text ends at a position. -/
def behind (p : Position) (bytes lines : Nat) : Move :=
  ⟨.down bytes lines, fun q => if q = .zero then p else q.down bytes lines⟩

end Move

def Span.moved (m : Move) (s : Span) : Span := ⟨m.start s.start, m.stop s.stop⟩

theorem Span.moved_behind {s : Span} (h : s.stop ≠ .zero) (p : Position) (bytes lines : Nat) :
    s.moved (.behind p bytes lines) = s.moved (.down bytes lines) :=
  congrArg (Span.mk _) (if_neg h)

def Token.moved (m : Move) (t : Token) : Token := { t with span := t.span.moved m }

namespace Position

variable (bytes lines : Nat)

theorem down_after (p : Position) (g : Glyph) :
    (p.down bytes lines).after g = (p.after g).down bytes lines := by
  unfold after
  split <;> simp only [down, Nat.add_right_comm]

/-- Behind a line break the first place is the one before the text, moved down. -/
theorem afterAll_lineBreak (gs : List Glyph) {g : Glyph} (hg : g.char = '\n') :
    (start.afterAll gs).after g =
      start.down (Glyph.widthOf gs + g.width) ((gs.map Glyph.char).count '\n' + 1) := by
  rw [after, if_pos hg, afterAll_offset, line_afterAll]
  simp only [start, down, Nat.zero_add, Nat.add_assoc]

/-- A place within a text is not before any text. -/
theorem line_pos_afterAll {p : Position} (hp : 0 < p.line) (gs : List Glyph) :
    0 < (p.afterAll gs).line := by
  induction gs generalizing p with
  | nil => exact hp
  | cons g gs ih =>
    refine ih ?_
    unfold after
    split
    · exact Nat.succ_pos _
    · exact hp

end Position
end TypedScript
