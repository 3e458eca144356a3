import TypedScript.Text.Glyph

/-!
# Positions and spans

A position counts bytes from the start of the text, and lines and characters from one. A span runs
from its first character to just behind its last.
-/

namespace TypedScript

/-- A place in a source text. -/
structure Position where
  offset : Nat
  line : Nat
  column : Nat
  deriving DecidableEq, Repr, Inhabited

namespace Position

def zero : Position := ⟨0, 0, 0⟩

def start : Position := ⟨0, 1, 1⟩

/-- The place just behind a character that stands at `p`. -/
def after (p : Position) (g : Glyph) : Position :=
  if g.char = '\n' then ⟨p.offset + g.width, p.line + 1, 1⟩
  else ⟨p.offset + g.width, p.line, p.column + 1⟩

@[simp] theorem after_offset (p : Position) (g : Glyph) :
    (p.after g).offset = p.offset + g.width := by
  unfold after
  split <;> rfl

end Position

/-- A stretch of a source text. -/
structure Span where
  start : Position
  stop : Position
  deriving DecidableEq, Repr, Inhabited

end TypedScript
