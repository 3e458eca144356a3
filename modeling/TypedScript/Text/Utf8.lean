import TypedScript.Text.Glyph

/-!
# Texts as bytes

The bytes of a text, and the text that bytes spell if they are well formed.
-/

namespace TypedScript
namespace Text

def bytes (s : String) : List UInt8 := s.toList.flatMap String.utf8EncodeChar

/-- The text that bytes spell, if they are well formed. -/
def ofBytes? (bytes : List UInt8) : Option String :=
  let glyphs := Glyph.ofBytes bytes
  if glyphs.contains Glyph.stray then none else some (Glyph.text glyphs)

end Text
end TypedScript
