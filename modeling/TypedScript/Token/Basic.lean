import TypedScript.Source.Position
import TypedScript.Text.Quoted

/-!
# Tokens

The words of the language: literals, names, punctuation, operators and reserved words. A stretch of
text that is no word becomes an invalid token that says why.
-/

namespace TypedScript

/-- Why a stretch of text is no token. -/
inductive LexicalFault
  | unterminatedComment
  | unterminatedString
  | unterminatedCharacter
  | missingCharacter
  | invalidEscape (c : Char)
  | malformedNumber (text : String)
  | malformedExponent (text : String)
  | unexpectedCharacter (c : Char)
  deriving DecidableEq, Repr

def LexicalFault.message : LexicalFault → String
  | unterminatedComment => "unterminated comment"
  | unterminatedString => "unterminated string"
  | unterminatedCharacter => "unterminated character literal"
  | missingCharacter => "unexpected end of character literal"
  | invalidEscape c => "invalid escape: \\" ++ String.singleton c
  | malformedNumber text => "malformed number: " ++ text
  | malformedExponent text => "malformed exponent: " ++ text
  | unexpectedCharacter c => "unexpected character: " ++ String.singleton c

namespace Token

inductive Kind
  | endOfInput
  | invalid (fault : LexicalFault)
  | integer | float | string | character | identifier
  | leftParen | rightParen | leftBracket | rightBracket | leftBrace | rightBrace
  | comma | semicolon | colon | dot
  | plus | minus | star | slash | percent | ampersand | bar | caret | tilde | bang
  | shiftLeft | shiftRight | andAnd | orOr
  | equal | notEqual | less | lessEqual | greater | greaterEqual
  | assign | plusAssign | minusAssign | starAssign | slashAssign | percentAssign
  | ampersandAssign | barAssign | caretAssign | shiftLeftAssign | shiftRightAssign
  | varWord | constWord | funcWord | importWord | ifWord | elseWord | whileWord | forWord
  | breakWord | continueWord | returnWord | trueWord | falseWord | newWord | asWord
  deriving DecidableEq, Repr

namespace Kind

def name : Kind → String
  | endOfInput => "EOF"
  | invalid _ => "ERROR"
  | integer => "INTEGER"
  | float => "FLOAT"
  | string => "STRING"
  | character => "CHARACTER"
  | identifier => "IDENTIFIER"
  | leftParen => "("
  | rightParen => ")"
  | leftBracket => "["
  | rightBracket => "]"
  | leftBrace => "\x7b"
  | rightBrace => "\x7d"
  | comma => ","
  | semicolon => ";"
  | colon => ":"
  | dot => "."
  | plus => "+"
  | minus => "-"
  | star => "*"
  | slash => "/"
  | percent => "%"
  | ampersand => "&"
  | bar => "|"
  | caret => "^"
  | tilde => "~"
  | bang => "!"
  | shiftLeft => "<<"
  | shiftRight => ">>"
  | andAnd => "&&"
  | orOr => "||"
  | equal => "=="
  | notEqual => "!="
  | less => "<"
  | lessEqual => "<="
  | greater => ">"
  | greaterEqual => ">="
  | assign => "="
  | plusAssign => "+="
  | minusAssign => "-="
  | starAssign => "*="
  | slashAssign => "/="
  | percentAssign => "%="
  | ampersandAssign => "&="
  | barAssign => "|="
  | caretAssign => "^="
  | shiftLeftAssign => "<<="
  | shiftRightAssign => ">>="
  | varWord => "var"
  | constWord => "const"
  | funcWord => "func"
  | importWord => "import"
  | ifWord => "if"
  | elseWord => "else"
  | whileWord => "while"
  | forWord => "for"
  | breakWord => "break"
  | continueWord => "continue"
  | returnWord => "return"
  | trueWord => "true"
  | falseWord => "false"
  | newWord => "new"
  | asWord => "as"

def reserved : List Kind :=
  [varWord, constWord, funcWord, importWord, ifWord, elseWord, whileWord, forWord, breakWord,
    continueWord, returnWord, trueWord, falseWord, newWord, asWord]

/-- Punctuation and operators; a longer spelling stands before every shorter one, so the first
that fits is the longest. -/
def operators : List Kind :=
  [shiftLeftAssign, shiftRightAssign, andAnd, orOr, equal, notEqual, lessEqual, greaterEqual,
    shiftLeft, shiftRight, plusAssign, minusAssign, starAssign, slashAssign, percentAssign,
    ampersandAssign, barAssign, caretAssign, leftParen, rightParen, leftBracket, rightBracket,
    leftBrace, rightBrace, comma, semicolon, colon, dot, plus, minus, star, slash, percent,
    ampersand, bar, caret, tilde, bang, less, greater, assign]

def ofWord (word : String) : Kind :=
  (reserved.find? fun k => k.name == word).getD identifier

end Kind
end Token

/-- A word of the source text. The literal is the text itself, for strings and characters what they
stand for, and for an invalid token the wording of its fault. -/
structure Token where
  kind : Token.Kind
  literal : String
  span : Span
  deriving DecidableEq, Repr

namespace Token

/-- A token for display: its kind and the first twenty bytes of its literal. -/
def display (t : Token) : String :=
  match t.kind with
  | .endOfInput => "EOF"
  | .invalid _ => "ERROR(" ++ t.literal ++ ")"
  | kind =>
    let bytes := t.literal.toUTF8.toList
    if 20 < bytes.length then kind.name ++ "(" ++ Text.quoteBytes (bytes.take 20) ++ "...)"
    else kind.name ++ "(" ++ Text.quote t.literal ++ ")"

end Token
end TypedScript
