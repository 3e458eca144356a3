import TypedScript.Token.Basic

/-!
# Mistakes of grammar, and the reader of tokens

What can be wrong with the order of the tokens, and how it is said.
-/

namespace TypedScript
namespace Parsed

/-- What the grammar asks for at a place. -/
inductive Expectation
  | token (kind : Token.Kind)
  | name
  | functionName
  | functionBody
  | parameterName
  | variableName
  | memberName
  | type
  | elementType
  deriving DecidableEq, Repr

def Expectation.text : Expectation → String
  | token kind => kind.name
  | name => "name"
  | functionName => "function name"
  | functionBody => "function body"
  | parameterName => "parameter name"
  | variableName => "variable name"
  | memberName => "member name"
  | type => "type"
  | elementType => "element type"

def describe (t : Token) : String :=
  match t.kind with
  | .endOfInput => "end of file"
  | .identifier | .integer | .float => Text.quote t.literal
  | kind => kind.name

inductive Fault
  | lexical (fault : LexicalFault)
  | expected (what : Expectation) (got : Token)
  | unexpected (got : Token)
  | emptyStatement
  | untypedDeclaration (name : String)
  | uninitializedConstant (name : String)
  | invalidInteger (text : String)
  | invalidFloat (text : String)
  deriving DecidableEq, Repr

def Fault.message : Fault → String
  | lexical f => f.message
  | expected what got => "expected " ++ what.text ++ ", got " ++ describe got
  | unexpected got => "unexpected " ++ describe got
  | emptyStatement => "empty statement"
  | untypedDeclaration name =>
    "declaration of " ++ Text.quote name ++ " needs a type or an initializer"
  | uninitializedConstant name => "constant " ++ Text.quote name ++ " must be initialized"
  | invalidInteger text => "invalid integer literal " ++ text
  | invalidFloat text => "invalid float literal " ++ text

structure Error where
  span : Span
  fault : Fault
  deriving DecidableEq, Repr

namespace Error

def message (e : Error) : String := e.fault.message

def text (e : Error) : String :=
  "line " ++ toString e.span.start.line ++ ", column " ++ toString e.span.start.column ++ ": " ++
    e.message

end Error
end Parsed

/-!
## The reader of tokens

Reading a program keeps two tokens in view, the current one and the one ahead, and collects the
mistakes met on the way. An invalid token is never in view: it is recorded as a mistake at the moment
when it would come into view, and passed over. The end of the input never goes away.
-/

namespace Parsed

/-- How far reading has come. -/
structure State where
  current : Token
  ahead : Token
  rest : List Token
  /-- Where the token before the current one ends. -/
  lastEnd : Position
  errors : Array Error

/-- The first token that is not invalid, what follows it, and the mistakes passed over; `last`
stands in at the end of the list. -/
def fetch (last : Token) (errors : Array Error) : List Token → Token × List Token × Array Error
  | [] => (last, [], errors)
  | t :: rest =>
    match t.kind with
    | .invalid f => fetch last (errors.push ⟨t.span, .lexical f⟩) rest
    | _ => (t, rest, errors)

namespace State

def step (s : State) : State :=
  let (ahead, rest, errors) := fetch s.ahead s.errors s.rest
  { current := s.ahead, ahead, rest, lastEnd := s.current.span.stop, errors }

/-- The state before the first token of a list that ends with the end of the input. -/
def ofTokens (tokens : List Token) : State :=
  let nothing : Token := ⟨.endOfInput, "", ⟨Position.zero, Position.zero⟩⟩
  let (current, rest, errors) := fetch nothing #[] tokens
  let (ahead, rest, errors) := fetch current errors rest
  { current, ahead, rest, lastEnd := Position.zero, errors }

/-- An upper bound on the number of tokens that can still be consumed. -/
def remaining (s : State) : Nat := s.rest.length + 2

def isBoundary : Token.Kind → Bool
  | .rightBrace | .leftBrace | .varWord | .constWord | .funcWord | .importWord | .ifWord
  | .whileWord | .forWord | .breakWord | .continueWord | .returnWord => true
  | _ => false

/-- Skips at most `fuel` tokens up to the next place where a statement may start. -/
def recoverWithin : Nat → State → State
  | 0, s => s
  | fuel + 1, s =>
    if s.current.kind = .endOfInput then s
    else if s.current.kind = .semicolon then s.step
    else if isBoundary s.current.kind then s
    else recoverWithin fuel s.step

/-- Skips to the next place where a statement may start: behind a semicolon or before a brace or a
word that opens a statement. -/
def recover (s : State) : State := s.recoverWithin s.remaining

end State

/-- Where reading goes on behind a mistake. -/
abbrev Recovery := State → State

/-- A reader of part of a program; it leaves open where to go on behind a mistake. -/
abbrev Reader := ReaderT Recovery (StateM State)

namespace Reader

def advance : Reader Unit := modify State.step

def kind : Reader Token.Kind := return (← get).current.kind

def at? (k : Token.Kind) : Reader Bool := return (← get).current.kind = k

def ahead? (k : Token.Kind) : Reader Bool := return (← get).ahead.kind = k

def position : Reader Position := return (← get).current.span.start

def literal : Reader String := return (← get).current.literal

def reportAt (span : Span) (f : Fault) : Reader Unit :=
  modify fun s => { s with errors := s.errors.push ⟨span, f⟩ }

def report (f : Fault) : Reader Unit := do
  reportAt (← get).current.span f

def reportExpected (what : Expectation) : Reader Unit := do
  report (.expected what (← get).current)

def expect (k : Token.Kind) : Reader Bool := do
  if ← at? k then
    advance
    return true
  else
    reportExpected (.token k)
    return false

def spanFrom (start : Position) : Reader Span := return ⟨start, (← get).lastEnd⟩

def recover : Reader Unit := do
  modify (← read)

end Reader
end Parsed
end TypedScript
