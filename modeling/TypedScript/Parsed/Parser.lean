import TypedScript.Number.Reading
import TypedScript.Parsed.State
import TypedScript.Parsed.Tree
import TypedScript.Token.Lexer

/-!
# Reading programs

Recursive descent with one token of lookahead. A reader that fails has recorded a mistake; the
statement around it is dropped and reading goes on at the next place where a statement may start.

Each step down in the descent takes one unit of fuel. Between two tokens the descent goes through a
bounded number of levels, so fuel in proportion to the number of tokens is never used up.
-/

namespace TypedScript
namespace Parsed
namespace Reader

def binaryOperator? : Token.Kind → Option BinaryOperator
  | .orOr => some .orElse
  | .andAnd => some .andAlso
  | .bar => some .or
  | .caret => some .xor
  | .ampersand => some .and
  | .equal => some .equal
  | .notEqual => some .notEqual
  | .less => some .less
  | .lessEqual => some .lessEqual
  | .greater => some .greater
  | .greaterEqual => some .greaterEqual
  | .shiftLeft => some .shiftLeft
  | .shiftRight => some .shiftRight
  | .plus => some .add
  | .minus => some .sub
  | .star => some .mul
  | .slash => some .div
  | .percent => some .rem
  | _ => none

def unaryOperator? : Token.Kind → Option UnaryOperator
  | .minus => some .negate
  | .plus => some .plus
  | .bang => some .not
  | .tilde => some .complement
  | _ => none

def assignment? : Token.Kind → Option (Option BinaryOperator)
  | .assign => some none
  | .plusAssign => some (some .add)
  | .minusAssign => some (some .sub)
  | .starAssign => some (some .mul)
  | .slashAssign => some (some .div)
  | .percentAssign => some (some .rem)
  | .ampersandAssign => some (some .and)
  | .barAssign => some (some .or)
  | .caretAssign => some (some .xor)
  | .shiftLeftAssign => some (some .shiftLeft)
  | .shiftRightAssign => some (some .shiftRight)
  | _ => none

def ranksWithin : Nat → Reader Nat
  | 0 => return 0
  | fuel + 1 => do
    if (← at? .leftBracket) && (← ahead? .rightBracket) then
      advance
      advance
      return (← ranksWithin fuel) + 1
    else return 0

/-- Reads the pairs of brackets behind a type name. -/
def ranks : Reader Nat := do
  ranksWithin (← get).remaining

def typeName : Reader (Option TypeName) := do
  let start ← position
  if ← at? .identifier then
    let name ← literal
    advance
    let rank ← ranks
    return some ⟨← spanFrom start, name, rank⟩
  else
    reportExpected .type
    return none

def optionalType : Reader (Option TypeName) := do
  if ← at? .colon then
    advance
    typeName
  else return none

def literalExpr (t : Token) : Reader (Option Expr) := do
  advance
  let span ← spanFrom t.span.start
  match t.kind with
  | .integer =>
    let (value, valid) := Number.literal t.literal
    if !valid then reportAt t.span (.invalidInteger t.literal)
    return some (.int span value)
  | .float =>
    let (value, valid) := Number.floatLiteral t.literal
    if !valid then reportAt t.span (.invalidFloat t.literal)
    return some (.float span value)
  | .string => return some (.string span t.literal)
  | .character => return some (.char span (t.literal.toList.headD '\x00'))
  | .trueWord => return some (.bool span true)
  | .falseWord => return some (.bool span false)
  | _ => return some (.name span t.literal)

mutual

/-- Reads an expression: an assignment, which groups to the right, or what stands below it. -/
def expression : Nat → Reader (Option Expr)
  | 0 => return none
  | fuel + 1 => do
    let start ← position
    let some left ← binary fuel 1 | return none
    match assignment? (← kind) with
    | none => return some left
    | some op =>
      advance
      let some value ← expression fuel | return none
      return some (.assign (← spanFrom start) op left value)

/-- Reads operators of at least the given level and their operands. -/
def binary : Nat → Nat → Reader (Option Expr)
  | 0, _ => return none
  | fuel + 1, level => do
    let start ← position
    let some left ← unary fuel | return none
    binaryTail fuel level start left

/-- Reads what follows a left operand; operators of one level group to the left. -/
def binaryTail : Nat → Nat → Position → Expr → Reader (Option Expr)
  | 0, _, _, _ => return none
  | fuel + 1, level, start, left => do
    match binaryOperator? (← kind) with
    | none => return some left
    | some op =>
      if op.precedence < level then return some left
      else
        advance
        let some right ← binary fuel (op.precedence + 1) | return none
        binaryTail fuel level start (.binary (← spanFrom start) op left right)

def unary : Nat → Reader (Option Expr)
  | 0 => return none
  | fuel + 1 => do
    match unaryOperator? (← kind) with
    | none => postfixed fuel
    | some op =>
      let start ← position
      advance
      let some operand ← unary fuel | return none
      return some (.unary (← spanFrom start) op operand)

def postfixed : Nat → Reader (Option Expr)
  | 0 => return none
  | fuel + 1 => do
    let start ← position
    let some expr ← primary fuel | return none
    postfixedTail fuel start expr

/-- Reads what follows the operand of a call, an element, a member or a cast. -/
def postfixedTail : Nat → Position → Expr → Reader (Option Expr)
  | 0, _, _ => return none
  | fuel + 1, start, expr => do
    match ← kind with
    | .leftParen =>
      advance
      let some args ← arguments fuel | return none
      if !(← expect .rightParen) then return none
      postfixedTail fuel start (.call (← spanFrom start) expr args)
    | .leftBracket =>
      advance
      let some index ← expression fuel | return none
      if !(← expect .rightBracket) then return none
      postfixedTail fuel start (.index (← spanFrom start) expr index)
    | .dot =>
      advance
      if ← at? .identifier then
        let name ← literal
        advance
        postfixedTail fuel start (.member (← spanFrom start) expr name)
      else
        reportExpected .memberName
        return none
    | .asWord =>
      advance
      let some type ← typeName | return none
      postfixedTail fuel start (.cast (← spanFrom start) expr type)
    | _ => return some expr

def arguments : Nat → Reader (Option (List Expr))
  | 0 => return none
  | fuel + 1 => do
    if (← at? .rightParen) || (← at? .endOfInput) then return some []
    let some arg ← expression fuel | return none
    if ← at? .comma then
      advance
      let some args ← arguments fuel | return none
      return some (arg :: args)
    else return some [arg]

/-- Reads literals, names, new arrays and what stands in parentheses. -/
def primary : Nat → Reader (Option Expr)
  | 0 => return none
  | fuel + 1 => do
    let t := (← get).current
    match t.kind with
    | .integer | .float | .string | .character | .trueWord | .falseWord | .identifier =>
      literalExpr t
    | .newWord => newArray fuel
    | .leftParen =>
      advance
      let some expr ← expression fuel | return none
      if ← expect .rightParen then return some expr else return none
    | _ =>
      report (.unexpected t)
      return none

/-- Reads a new array. The brackets behind its size belong to the element type. -/
def newArray : Nat → Reader (Option Expr)
  | 0 => return none
  | fuel + 1 => do
    let start ← position
    advance
    let t := (← get).current
    if t.kind = .identifier then
      advance
      if !(← expect .leftBracket) then return none
      let some size ← expression fuel | return none
      if !(← expect .rightBracket) then return none
      let rank ← ranks
      return some (.newArray (← spanFrom start) ⟨t.span, t.literal, rank⟩ size)
    else
      reportExpected .elementType
      return none

end

/-- Consumes a semicolon, or records that it is missing and recovers. -/
def terminate : Reader Unit := do
  if !(← expect .semicolon) then recover

def declaration (fuel : Nat) : Reader (Option Declaration) := do
  let start ← position
  let isConst ← at? .constWord
  advance
  if ← at? .identifier then
    let name ← literal
    advance
    let type? ← optionalType
    let init? ← if ← at? .assign then do
        advance
        expression fuel
      else pure none
    if type?.isNone && init?.isNone then report (.untypedDeclaration name)
    if isConst && init?.isNone then report (.uninitializedConstant name)
    terminate
    return some ⟨← spanFrom start, name, isConst, type?, init?⟩
  else
    reportExpected .variableName
    recover
    return none

def condition (fuel : Nat) : Reader (Option Expr) := do
  if ← expect .leftParen then
    let cond ← expression fuel
    let _ ← expect .rightParen
    return cond
  else return none

/-- Reads the first part of the header of a counted loop, with its semicolon. -/
def setup (fuel : Nat) : Reader (Option Setup) := do
  match ← kind with
  | .varWord | .constWord => return (← declaration fuel).map .declare
  | .semicolon =>
    advance
    return none
  | _ =>
    let start ← position
    let expr ← expression fuel
    let span ← spanFrom start
    let _ ← expect .semicolon
    return expr.map fun e => .eval ⟨span, e⟩

def optionalBefore (stop : Token.Kind) (fuel : Nat) : Reader (Option Expr) := do
  if ← at? stop then return none else expression fuel

def evaluation (fuel : Nat) : Reader (Option Stmt) := do
  let start ← position
  match ← expression fuel with
  | some expr =>
    terminate
    return some (.eval ⟨← spanFrom start, expr⟩)
  | none =>
    recover
    return none

def jump (make : Span → Stmt) : Reader (Option Stmt) := do
  let start ← position
  advance
  let _ ← expect .semicolon
  return some (make (← spanFrom start))

def returning (fuel : Nat) : Reader (Option Stmt) := do
  let start ← position
  advance
  let value ← optionalBefore .semicolon fuel
  terminate
  return some (.returnStmt (← spanFrom start) value)

/-- Reads a part of a list. A part that consumes nothing costs a token, unless the list ends there. -/
def progressing {α : Type} (ended : Reader Bool) (part : Reader (Option α)) : Reader (Option α) := do
  let before := (← position).offset
  let found ← part
  if (← position).offset = before && !(← ended) then advance
  return found

def atBlockEnd : Reader Bool := return (← at? .rightBrace) || (← at? .endOfInput)

mutual

def statement : Nat → Reader (Option Stmt)
  | 0 => return none
  | fuel + 1 => do
    match ← kind with
    | .leftBrace =>
      let (span, body) ← block fuel
      return some (.block span body)
    | .varWord | .constWord =>
      return some (((← declaration fuel).map .declare).getD .missing)
    | .ifWord => conditional fuel
    | .whileWord => whileLoop fuel
    | .forWord => forLoop fuel
    | .breakWord => jump .breakLoop
    | .continueWord => jump .continueLoop
    | .returnWord => returning fuel
    | .semicolon =>
      report .emptyStatement
      advance
      return none
    | _ => evaluation fuel

def block : Nat → Reader (Span × List Stmt)
  | 0 => return (⟨Position.zero, Position.zero⟩, [])
  | fuel + 1 => do
    let start ← position
    advance
    let body ← statements fuel
    let _ ← expect .rightBrace
    return (← spanFrom start, body)

def statements : Nat → Reader (List Stmt)
  | 0 => return []
  | fuel + 1 => do
    if ← atBlockEnd then return []
    let stmt ← progressing atBlockEnd (statement fuel)
    return stmt.toList ++ (← statements fuel)

/-- Reads a conditional statement; an `else` belongs to the nearest one. -/
def conditional : Nat → Reader (Option Stmt)
  | 0 => return none
  | fuel + 1 => do
    let start ← position
    advance
    let cond? ← condition fuel
    let yes? ← statement fuel
    match cond?, yes? with
    | some cond, some yes =>
      if ← at? .elseWord then
        advance
        match ← statement fuel with
        | some no => return some (.ifElse (← spanFrom start) cond yes no)
        | none => return some (.ifThen (← spanFrom start) cond yes)
      else return some (.ifThen (← spanFrom start) cond yes)
    | _, _ => return none

def whileLoop : Nat → Reader (Option Stmt)
  | 0 => return none
  | fuel + 1 => do
    let start ← position
    advance
    let cond? ← condition fuel
    let body? ← statement fuel
    match cond?, body? with
    | some cond, some body => return some (.whileLoop (← spanFrom start) cond body)
    | _, _ => return none

def forLoop : Nat → Reader (Option Stmt)
  | 0 => return none
  | fuel + 1 => do
    let start ← position
    advance
    if ← expect .leftParen then
      let first ← setup fuel
      let cond ← optionalBefore .semicolon fuel
      let _ ← expect .semicolon
      let post ← optionalBefore .rightParen fuel
      if ← expect .rightParen then
        let some body ← statement fuel | return none
        return some (.forLoop (← spanFrom start) first cond post body)
      else
        recover
        return none
    else
      recover
      return none

end

/-- Reads the parts of a qualified name behind the first. -/
def qualifiersWithin : Nat → Reader (List String)
  | 0 => return []
  | fuel + 1 => do
    if (← at? .dot) && (← ahead? .identifier) then
      advance
      let name ← literal
      advance
      return name :: (← qualifiersWithin fuel)
    else return []

def qualifiedName : Reader (Option (List String)) := do
  if ← at? .identifier then
    let name ← literal
    advance
    return some (name :: (← qualifiersWithin (← get).remaining))
  else
    reportExpected .name
    return none

def itemsWithin {α : Type} (item : Reader (Option α)) : Nat → Reader (Option (List α))
  | 0 => return none
  | fuel + 1 => do
    if (← at? .rightParen) || (← at? .endOfInput) then return some []
    let some x ← item | return none
    if ← at? .comma then
      advance
      let some xs ← itemsWithin item fuel | return none
      return some (x :: xs)
    else return some [x]

def parenthesized {α : Type} (item : Reader (Option α)) : Reader (Option (List α)) := do
  let some xs ← itemsWithin item (← get).remaining | return none
  if ← expect .rightParen then return some xs else return none

def importDecl : Reader (Option Import) := do
  let start ← position
  advance
  let some path ← qualifiedName
    | recover
      return none
  if ← at? .leftParen then
    advance
    let some params ← parenthesized typeName
      | recover
        return none
    let result? ← optionalType
    let _ ← expect .semicolon
    return some ⟨← spanFrom start, path, true, params, result?⟩
  else
    let _ ← expect .semicolon
    return some ⟨← spanFrom start, path, false, [], none⟩

def param : Reader (Option Param) := do
  let start ← position
  if ← at? .identifier then
    let name ← literal
    advance
    if !(← expect .colon) then return none
    let some type ← typeName | return none
    return some ⟨← spanFrom start, name, type⟩
  else
    reportExpected .parameterName
    return none

def signature : Reader (Option (List Param × Option TypeName)) := do
  if !(← expect .leftParen) then return none
  let some params ← parenthesized param | return none
  let result? ← optionalType
  if ← at? .leftBrace then return some (params, result?)
  else
    reportExpected .functionBody
    return none

def function (fuel : Nat) : Reader (Option Function) := do
  let start ← position
  advance
  if ← at? .identifier then
    let name ← literal
    advance
    let some (params, result?) ← signature
      | recover
        return none
    let (bodySpan, body) ← block fuel
    return some ⟨← spanFrom start, name, params, result?, bodySpan, body⟩
  else
    reportExpected .functionName
    recover
    return none

/-- A part of a source file. -/
inductive Item
  | import (i : Import)
  | global (d : Declaration)
  | function (f : Function)
  | statement (s : Stmt)

def item (fuel : Nat) : Reader (Option Item) := do
  match ← kind with
  | .importWord => return (← importDecl).map .import
  | .funcWord => return (← function fuel).map .function
  | .varWord | .constWord => return (← declaration fuel).map .global
  | _ => return (← statement fuel).map .statement

def items : Nat → Reader (List Item)
  | 0 => return []
  | fuel + 1 => do
    if ← at? .endOfInput then return []
    let found ← progressing (at? .endOfInput) (item fuel)
    return found.toList ++ (← items fuel)

def sortItems (span : Span) : List Item → File
  | [] => ⟨span, [], [], [], []⟩
  | i :: rest =>
    let f := sortItems span rest
    match i with
    | .import i => { f with imports := i :: f.imports }
    | .global d => { f with globals := d :: f.globals }
    | .function g => { f with functions := g :: f.functions }
    | .statement s => { f with statements := s :: f.statements }

def file (fuel : Nat) : Reader File := do
  let start ← position
  let found ← items fuel
  return sortItems (← spanFrom start) found

end Reader

/-- Runs a reader on a source text, with as much fuel as its tokens can use up. -/
def readWith {α : Type} (reader : Nat → Reader α) (source : List Glyph) : α × Array Error :=
  let tokens := tokenize source
  let (result, state) :=
    ((reader (10 * (tokens.length + 2))).run State.recover).run (State.ofTokens tokens)
  (result, state.errors)

def parse (source : List Glyph) : File × Array Error := readWith Reader.file source

def parseStatement (source : List Glyph) : Option Stmt × Array Error :=
  readWith Reader.statement source

def parseExpression (source : List Glyph) : Option Expr × Array Error :=
  readWith Reader.expression source

end Parsed
end TypedScript
