/-!
# Splitting texts

Cutting a text at every occurrence of a character. There is always one piece more than there are
cuts.
-/

namespace TypedScript
namespace Text

def splitChars (separator : Char) : List Char → List (List Char)
  | [] => [[]]
  | c :: rest =>
    if c = separator then [] :: splitChars separator rest
    else match splitChars separator rest with
      | [] => [[c]]
      | piece :: pieces => (c :: piece) :: pieces

def split (separator : Char) (s : String) : List String :=
  (splitChars separator s.toList).map String.ofList

def startsWith (s start : String) : Bool := start.toList.isPrefixOf s.toList

def endsWith (s ending : String) : Bool := ending.toList.isSuffixOf s.toList

def dropEnding (s ending : String) : String :=
  if endsWith s ending then String.ofList (s.toList.take (s.length - ending.length)) else s

end Text
end TypedScript
