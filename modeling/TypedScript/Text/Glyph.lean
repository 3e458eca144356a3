/-!
# Source characters

A source text is a sequence of bytes, read as UTF-8. Every byte that starts no well-formed sequence
counts as one replacement character of width one, so reading never fails and no byte is lost: the
widths of the glyphs add up to the length of the text.
-/

namespace TypedScript

/-- A character of a source text with the number of bytes that it takes up there. -/
structure Glyph where
  char : Char
  width : Nat
  deriving DecidableEq, Repr

namespace Glyph

/-- What a byte counts for when no well-formed sequence starts with it. -/
def stray : Glyph := ⟨'\uFFFD', 1⟩

def ofChar (c : Char) : Glyph := ⟨c, c.utf8Size⟩

def ofString (s : String) : List Glyph := s.toList.map ofChar

def isContinuation (b : UInt8) : Bool := 0x80 ≤ b && b ≤ 0xBF

/-- The least and the greatest byte that may come second after a first byte of a sequence of three
or four; they keep out overlong forms, surrogates and what lies beyond the last code point. -/
def secondBounds (first : UInt8) : UInt8 × UInt8 :=
  if first = 0xE0 then (0xA0, 0xBF)
  else if first = 0xED then (0x80, 0x9F)
  else if first = 0xF0 then (0x90, 0xBF)
  else if first = 0xF4 then (0x80, 0x8F)
  else (0x80, 0xBF)

/-- The glyph that starts with the byte `first`, given the bytes behind it. -/
def leading (first : UInt8) (rest : List UInt8) : Glyph :=
  let payload (b : UInt8) : Nat := b.toNat % 64
  let (low, high) := secondBounds first
  if first < 0x80 then ⟨Char.ofNat first.toNat, 1⟩
  else if 0xC2 ≤ first && first ≤ 0xDF then
    match rest with
    | b :: _ =>
      if isContinuation b then ⟨Char.ofNat (first.toNat % 32 * 64 + payload b), 2⟩ else stray
    | _ => stray
  else if 0xE0 ≤ first && first ≤ 0xEF then
    match rest with
    | b :: c :: _ =>
      if low ≤ b && b ≤ high && isContinuation c then
        ⟨Char.ofNat ((first.toNat % 16 * 64 + payload b) * 64 + payload c), 3⟩
      else stray
    | _ => stray
  else if 0xF0 ≤ first && first ≤ 0xF4 then
    match rest with
    | b :: c :: d :: _ =>
      if low ≤ b && b ≤ high && isContinuation c && isContinuation d then
        ⟨Char.ofNat (((first.toNat % 8 * 64 + payload b) * 64 + payload c) * 64 + payload d), 4⟩
      else stray
    | _ => stray
  else stray

/-- The glyphs of a byte sequence, each with the byte that it starts with; the first `skip` bytes
belong to a glyph already read. -/
def splitFrom : Nat → List UInt8 → List (Glyph × UInt8)
  | _, [] => []
  | skip + 1, _ :: rest => splitFrom skip rest
  | 0, b :: rest =>
    let g := leading b rest
    (g, b) :: splitFrom (g.width - 1) rest

def ofBytes (bytes : List UInt8) : List Glyph :=
  (splitFrom 0 bytes).map Prod.fst

def text (glyphs : List Glyph) : String :=
  String.ofList (glyphs.map Glyph.char)

end Glyph
end TypedScript
