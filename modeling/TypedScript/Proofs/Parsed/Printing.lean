import TypedScript.Proofs.Parsed.Grammar
import TypedScript.Proofs.Parsed.Literals
import TypedScript.Proofs.Token.Spellings

/-!
# Printing programs

A well-formed program as words with a space between each two: the imports, the global declarations, the
functions and the statements. Parentheses stand only around what binds less tightly than its place in the
grammar asks for. Floating-point numbers can be written in many ways, so how each is written is given.

What is printed is what the grammar writes for the program, and the grammar writes nothing shorter for it.
-/

namespace TypedScript

open Lexeme

/-! ## Words -/

/-- A character in a literal, behind a backslash if it has a spelling there. -/
def Lexer.spelled (c : Char) : List Char :=
  match escapes.lookup c with
  | some e => ['\\', e]
  | none => [c]

def Lexeme.word (l : Lexeme) : Lexer.Word :=
  match l.kind with
  | .integer | .float | .identifier => ⟨l.text.toList, l.kind, l.text⟩
  | .string => ⟨'"' :: (l.text.toList.flatMap Lexer.spelled ++ ['"']), .string, l.text⟩
  | .character => ⟨'\'' :: (l.text.toList.flatMap Lexer.spelled ++ ['\'']), .character, l.text⟩
  | k => ⟨k.name.toList, k, k.name⟩

/-- A lexeme that some word is read as. -/
structure Lexeme.Proper (l : Lexeme) : Prop where
  reads : l.word.Reads
  valid : ∀ f, l.kind ≠ .invalid f
  text : l.kind.isWorded = false → l.text = ""

theorem Lexer.escaped_spelled {only : List Char} (honly : only.all fun c => (escapes.lookup c).isSome)
    (cs : List Char) : Escaped only cs (cs.flatMap spelled) := by
  have hmem : ∀ {c e : Char}, escapes.lookup c = some e → (c, e) ∈ escapes := by
    intro c e h
    obtain ⟨before, after, heq, -⟩ := List.lookup_eq_some_iff.mp h
    rw [heq]
    exact List.mem_append_right _ List.mem_cons_self
  induction cs with
  | nil => exact .nil
  | cons c cs ih =>
    rw [List.flatMap_cons, spelled]
    cases h : escapes.lookup c with
    | some e => exact .escaped (hmem h) ih
    | none =>
      refine .plain (fun hc => ?_) ih
      have hsome := List.all_eq_true.mp honly c hc
      rw [h] at hsome
      cases hsome

namespace Lexeme

theorem kind_word (l : Lexeme) : l.word.kind = l.kind := by
  obtain ⟨k, text⟩ := l
  cases k <;> rfl

theorem literal_word {l : Lexeme} (h : l.kind.isWorded) : l.word.literal = l.text := by
  obtain ⟨k, text⟩ := l
  cases k <;> first | rfl | cases h

/-- A lexeme as it is read from its word. -/
theorem Proper.eq {l : Lexeme} (h : l.Proper) :
    Lexeme.mk l.word.kind (if l.word.kind.isWorded then l.word.literal else "") = l := by
  rw [kind_word]
  cases hworded : l.kind.isWorded with
  | false => rw [if_neg nofun, ← h.text hworded]
  | true => rw [if_pos rfl, literal_word hworded]

theorem word_mark {k : Token.Kind} (hk : k.isWorded = false) :
    (mark k).word = ⟨k.name.toList, k, k.name⟩ := by
  cases k <;> first | rfl | cases hk

theorem proper_mark {k : Token.Kind} (h : k ∈ Token.Kind.operators ∨ k ∈ Token.Kind.reserved) :
    (mark k).Proper := by
  have hall : ∀ k ∈ Token.Kind.operators ++ Token.Kind.reserved, k.isWorded = false := by decide
  refine ⟨?_, fun f hk => ?_, fun _ => rfl⟩
  · rw [word_mark (hall k (List.mem_append.mpr h))]
    obtain h | h := h
    · exact Lexer.Word.reads_operator h
    · exact Lexer.Word.reads_reserved h
  · obtain rfl : k = .invalid f := hk
    simp [Token.Kind.operators, Token.Kind.reserved] at h

theorem proper_ident {name : String} (h : Lexer.isName name) : (ident name).Proper :=
  ⟨Lexer.Word.reads_name h, nofun, nofun⟩

theorem proper_float {text : String} (h : Lexer.IsFloat text.toList) : Proper ⟨.float, text⟩ := by
  have hread := Lexer.Word.reads_float h
  rw [String.ofList_toList] at hread
  exact ⟨hread, nofun, nofun⟩

theorem proper_string (text : String) : Proper ⟨.string, text⟩ :=
  ⟨Lexer.Word.reads_string (Lexer.escaped_spelled rfl _), nofun, nofun⟩

theorem proper_char (c : Char) : Proper ⟨.character, String.singleton c⟩ := by
  refine ⟨Lexer.Word.reads_character ?_, nofun, nofun⟩
  rw [String.toList_singleton]
  exact Lexer.escaped_spelled rfl [c]

end Lexeme

namespace Parsed

def decimal (v : UInt64) : Lexeme := ⟨.integer, String.ofList (Nat.toDigits 10 v.toNat)⟩

theorem numeral_decimal (v : UInt64) : Number.Numeral v.toNat (Nat.toDigits 10 v.toNat) := by
  refine .decimal ?_
  generalize Nat.toDigits 10 v.toNat = ds
  induction ds with
  | nil => exact .nil
  | cons d ds ih => exact .digit 0 ih

theorem proper_decimal (v : UInt64) : (decimal v).Proper := by
  refine ⟨?_, nofun, nofun⟩
  have hread := reads_of_numeral (numeral_decimal v)
  rwa [← String.toList_ofList (l := Nat.toDigits 10 v.toNat), String.ofList_toList] at hread

theorem literal_decimal (v : UInt64) : Number.literal (decimal v).text = (v, true) := by
  have hvalue := Number.literal_numeral (numeral_decimal v) (Nat.le_of_lt_succ v.toNat_lt)
  rwa [UInt64.ofNat_toNat] at hvalue

/-! ## Trees -/

/-- How tightly an expression binds, by the levels of the grammar: below the binary operators there are
assignments, and above them prefix operators, what follows an operand, and what stands by itself. -/
def Expr.level : Expr → Nat
  | .assign .. => 0
  | .binary _ op _ _ => op.level
  | .unary .. => 11
  | .call .. | .index .. | .member .. | .cast .. => 12
  | _ => 13

/-- The lexemes of an expression where one of at least the given level is asked for. -/
def enclosed (least : Nat) (e : Expr) (ts : List Lexeme) : List Lexeme :=
  if e.level < least then mark .leftParen :: (ts ++ [mark .rightParen]) else ts

def separated : List (List Lexeme) → List Lexeme
  | [] => []
  | [ts] => ts
  | ts :: us :: rest => ts ++ mark .comma :: separated (us :: rest)

section

variable (text : Span → Double → String)

mutual

def Expr.printed : Expr → List Lexeme
  | .int _ v => [decimal v]
  | .float span v => [⟨.float, text span v⟩]
  | .string _ s => [⟨.string, s⟩]
  | .char _ c => [⟨.character, String.singleton c⟩]
  | .bool _ b => [mark (if b then .trueWord else .falseWord)]
  | .name _ n => [ident n]
  | .assign _ op target value => enclosed 1 target target.printed ++
    mark (.ofSymbol (assignmentSymbol op)) :: value.printed
  | .binary _ op left right => enclosed op.level left left.printed ++
    mark (.ofSymbol op.symbol) :: enclosed (op.level + 1) right right.printed
  | .unary _ op operand => mark (.ofSymbol op.symbol) :: enclosed 11 operand operand.printed
  | .call _ callee args => enclosed 12 callee callee.printed ++
    mark .leftParen :: (separated (printedAll args) ++ [mark .rightParen])
  | .index _ target index => enclosed 12 target target.printed ++
    mark .leftBracket :: (index.printed ++ [mark .rightBracket])
  | .member _ target n => enclosed 12 target target.printed ++ [mark .dot, ident n]
  | .cast _ operand type => enclosed 12 operand operand.printed ++ mark .asWord :: type.lexemes
  | .newArray _ type size => mark .newWord :: ident type.name :: mark .leftBracket ::
    (size.printed ++ mark .rightBracket :: brackets type.rank)

def printedAll : List Expr → List (List Lexeme)
  | [] => []
  | e :: es => e.printed :: printedAll es

end

def printedOr (e? : Option Expr) : List Lexeme := (e?.map (Expr.printed text)).getD []

def Declaration.printed (d : Declaration) : List Lexeme :=
  mark (if d.isConst then .constWord else .varWord) :: ident d.name :: (typePart d.type? ++
    ((d.init?.map fun e => mark .assign :: e.printed text).getD [] ++ [mark .semicolon]))

/-- The lexemes of the first part of the header of a counted loop. -/
def printedSetup : Option Setup → List Lexeme
  | none => [mark .semicolon]
  | some (.declare d) => d.printed text
  | some (.eval v) => v.expr.printed text ++ [mark .semicolon]

mutual

def Stmt.printed : Stmt → List Lexeme
  | .eval v => v.expr.printed text ++ [mark .semicolon]
  | .declare d => d.printed text
  | .missing => []
  | .block _ body => mark .leftBrace :: (printedStatements body ++ [mark .rightBrace])
  | .ifThen _ cond yes => mark .ifWord :: mark .leftParen :: (cond.printed text ++
    mark .rightParen :: yes.printed)
  | .ifElse _ cond yes no => mark .ifWord :: mark .leftParen :: (cond.printed text ++
    mark .rightParen :: (yes.printed ++ mark .elseWord :: no.printed))
  | .whileLoop _ cond body => mark .whileWord :: mark .leftParen :: (cond.printed text ++
    mark .rightParen :: body.printed)
  | .forLoop _ first cond post body => mark .forWord :: mark .leftParen :: (printedSetup text first ++
    (printedOr text cond ++ mark .semicolon :: (printedOr text post ++ mark .rightParen :: body.printed)))
  | .breakLoop _ => [mark .breakWord, mark .semicolon]
  | .continueLoop _ => [mark .continueWord, mark .semicolon]
  | .returnStmt _ value => mark .returnWord :: (printedOr text value ++ [mark .semicolon])

def printedStatements : List Stmt → List Lexeme
  | [] => []
  | st :: rest => st.printed ++ printedStatements rest

end

def Import.printed (i : Import) : List Lexeme :=
  mark .importWord :: (pathLexemes i.path ++
    ((if i.hasSignature then mark .leftParen :: (separated (i.params.map TypeName.lexemes) ++
      mark .rightParen :: typePart i.result?) else []) ++ [mark .semicolon]))

def Function.printed (f : Function) : List Lexeme :=
  mark .funcWord :: ident f.name :: mark .leftParen :: (separated (f.params.map Param.lexemes) ++
    mark .rightParen :: (typePart f.result? ++
      mark .leftBrace :: (printedStatements text f.body ++ [mark .rightBrace])))

def Reader.Item.printed : Reader.Item → List Lexeme
  | .import i => i.printed
  | .global d => d.printed text
  | .function f => f.printed text
  | .statement st => st.printed text

def File.items (f : File) : List Reader.Item :=
  f.imports.map .import ++ (f.globals.map .global ++
    (f.functions.map .function ++ f.statements.map .statement))

/-- The lexemes of a source file. -/
def File.printed (f : File) : List Lexeme := f.items.flatMap (Reader.Item.printed text)

/-- The text of a source file. -/
def File.spelling (f : File) : String := String.ofList (Lexer.Word.spell ((f.printed text).map Lexeme.word))

end

/-! ## Well-formed trees -/

/-- A text by which a number is given. -/
structure IsLexeme (text : String) (v : Double) : Prop where
  spelled : Lexer.IsFloat text.toList
  value : Number.floatLiteral text = (v, true)

def TypeName.WellFormed (t : TypeName) : Prop := Lexer.isName t.name

section

variable (floats : Span → Double → Prop)

mutual

/-- In an expression names are names, assignments have operators that can be assigned with, and numbers
can be written. -/
def Expr.WellFormed : Expr → Prop
  | .int .. | .string .. | .char .. | .bool .. => True
  | .float span v => floats span v
  | .name _ n => Lexer.isName n
  | .assign _ op target value => isAssignment op ∧ target.WellFormed ∧ value.WellFormed
  | .binary _ _ left right => left.WellFormed ∧ right.WellFormed
  | .unary _ _ operand => operand.WellFormed
  | .call _ callee args => callee.WellFormed ∧ AllWellFormed args
  | .index _ target index => target.WellFormed ∧ index.WellFormed
  | .member _ target n => target.WellFormed ∧ Lexer.isName n
  | .cast _ operand type => operand.WellFormed ∧ type.WellFormed
  | .newArray _ type size => type.WellFormed ∧ size.WellFormed

def AllWellFormed : List Expr → Prop
  | [] => True
  | e :: es => e.WellFormed ∧ AllWellFormed es

end

/-- A declaration has a type or an initial value, and a constant has the latter. -/
structure Declaration.WellFormed (d : Declaration) : Prop where
  name : Lexer.isName d.name
  type : ∀ t ∈ d.type?, t.WellFormed
  init : ∀ e ∈ d.init?, e.WellFormed floats
  typed : d.type?.isSome ∨ d.init?.isSome
  constant : d.isConst → d.init?.isSome

/-- The first part of the header of a counted loop. -/
def Setup.WellFormed : Setup → Prop
  | .declare d => d.WellFormed floats
  | .eval v => v.expr.WellFormed floats

mutual

/-- In a statement nothing is missing, and an `else` belongs to the nearest `if` that has none. -/
def Stmt.WellFormed : Stmt → Prop
  | .eval v => v.expr.WellFormed floats
  | .declare d => d.WellFormed floats
  | .missing => False
  | .block _ body => StatementsWellFormed body
  | .ifThen _ cond yes => cond.WellFormed floats ∧ yes.WellFormed
  | .ifElse _ cond yes no =>
    cond.WellFormed floats ∧ yes.WellFormed ∧ yes.isOpen = false ∧ no.WellFormed
  | .whileLoop _ cond body => cond.WellFormed floats ∧ body.WellFormed
  | .forLoop _ first cond post body => (∀ s ∈ first, s.WellFormed floats) ∧
    (∀ e ∈ cond, e.WellFormed floats) ∧ (∀ e ∈ post, e.WellFormed floats) ∧ body.WellFormed
  | .breakLoop _ | .continueLoop _ => True
  | .returnStmt _ value => ∀ e ∈ value, e.WellFormed floats

def StatementsWellFormed : List Stmt → Prop
  | [] => True
  | st :: rest => st.WellFormed ∧ StatementsWellFormed rest

end

/-- An import has a path, and parameters and a result only with a signature. -/
structure Import.WellFormed (i : Import) : Prop where
  path : i.path ≠ []
  names : ∀ n ∈ i.path, Lexer.isName n
  params : ∀ t ∈ i.params, t.WellFormed
  result : ∀ t ∈ i.result?, t.WellFormed
  signature : i.hasSignature = false → i.params = [] ∧ i.result? = none

/-- A function whose name, parameters and statements are well formed. -/
structure Function.WellFormed (f : Function) : Prop where
  name : Lexer.isName f.name
  params : ∀ p ∈ f.params, Lexer.isName p.name ∧ p.type.WellFormed
  result : ∀ t ∈ f.result?, t.WellFormed
  body : StatementsWellFormed floats f.body

/-- A part of a source file; a declaration outside functions is a global one. -/
def Reader.Item.WellFormed : Reader.Item → Prop
  | .import i => i.WellFormed
  | .global d => d.WellFormed floats
  | .function f => f.WellFormed floats
  | .statement st => st.WellFormed floats ∧ ∀ d, st ≠ .declare d

/-- A source file whose parts are well formed. -/
def File.WellFormed (f : File) : Prop := ∀ i ∈ f.items, i.WellFormed floats

end

/-! ## What is printed is what the grammar writes -/

/-- Lexemes are those of an expression, at every level of the grammar that it reaches. -/
structure Writes (e : Expr) (ts : List Lexeme) : Prop where
  expression : Phrase.Spelt (.expression e) ts
  binary : ∀ least, 1 ≤ least → least ≤ e.level → Phrase.Spelt (.binary least e) ts
  unary : 11 ≤ e.level → Phrase.Spelt (.unary e) ts
  postfixed : 12 ≤ e.level → Phrase.Spelt (.postfixed e) ts

namespace Writes

variable {e : Expr} {ts : List Lexeme}

theorem ofPostfixed (h : Phrase.Spelt (.postfixed e) ts) : Writes e ts :=
  ⟨.expression (.binary (.unary h)), fun _ _ _ => .binary (.unary h), fun _ => .unary h, fun _ => h⟩

theorem ofUnary (hlevel : e.level ≤ 11) (h : Phrase.Spelt (.unary e) ts) : Writes e ts :=
  ⟨.expression (.binary h), fun _ _ _ => .binary h, fun _ => h, fun h => absurd h (by omega)⟩

theorem ofBinary (hlevel : 1 ≤ e.level ∧ e.level ≤ 10)
    (h : ∀ least ≤ e.level, Phrase.Spelt (.binary least e) ts) : Writes e ts :=
  ⟨.expression (h 1 hlevel.1), fun least _ hle => h least hle, fun h => absurd h (by omega),
    fun h => absurd h (by omega)⟩

theorem ofExpression (hlevel : e.level = 0) (h : Phrase.Spelt (.expression e) ts) : Writes e ts :=
  ⟨h, fun least _ _ => absurd hlevel (by omega), fun h => absurd h (by omega),
    fun h => absurd h (by omega)⟩

theorem binary_enclosed (h : Writes e ts) {least : Nat} (hleast : 1 ≤ least) :
    Phrase.Spelt (.binary least e) (enclosed least e ts) := by
  unfold enclosed
  split
  · exact .binary (.unary (.postfixed (.parentheses h.expression)))
  · exact h.binary least hleast (by omega)

theorem unary_enclosed (h : Writes e ts) : Phrase.Spelt (.unary e) (enclosed 11 e ts) := by
  unfold enclosed
  split
  · exact .unary (.postfixed (.parentheses h.expression))
  · exact h.unary (by omega)

theorem postfixed_enclosed (h : Writes e ts) : Phrase.Spelt (.postfixed e) (enclosed 12 e ts) := by
  unfold enclosed
  split
  · exact .postfixed (.parentheses h.expression)
  · exact h.postfixed (by omega)

end Writes

theorem level_bounds (op : BinaryOperator) : 1 ≤ op.level ∧ op.level ≤ 10 := by
  cases op <;> decide

section

variable {text : Span → Double → String}

mutual

/-- The lexemes of an expression are what the grammar writes for it. -/
theorem writes_printed : ∀ {e : Expr}, e.WellFormed (fun span v => IsLexeme (text span v) v) →
    Writes e (e.printed text)
  | .int _ v, _ => .ofPostfixed (.postfixed (.int (literal_decimal v)))
  | .float _ _, h => .ofPostfixed (.postfixed (.float h.value))
  | .string _ _, _ => .ofPostfixed (.postfixed .string)
  | .char _ c, _ => .ofPostfixed (.postfixed (.char (by simp)))
  | .bool _ _, _ => .ofPostfixed (.postfixed .bool)
  | .name _ _, _ => .ofPostfixed (.postfixed .name)
  | .assign _ op target value, ⟨hop, htarget, hvalue⟩ =>
    .ofExpression rfl (.assignment (Token.Kind.ofSymbol_spec (Reader.symbol_assignment hop)).1 hop
      ((writes_printed htarget).binary_enclosed (Nat.le_refl 1)) (writes_printed hvalue).expression)
  | .binary _ op left right, ⟨hleft, hright⟩ => by
    refine .ofBinary (level_bounds op) fun least hleast => ?_
    exact .operation (Token.Kind.ofSymbol_spec (Reader.symbol_binary op)).1 hleast
      ((writes_printed hleft).binary_enclosed (level_bounds op).1)
      ((writes_printed hright).binary_enclosed (Nat.le_add_left _ _))
  | .unary _ op operand, h =>
    .ofUnary (Nat.le_refl 11)
      (.prefixed (Token.Kind.ofSymbol_spec (Reader.symbol_unary op)).1
        (writes_printed (e := operand) h).unary_enclosed)
  | .call _ callee args, ⟨hcallee, hargs⟩ =>
    .ofPostfixed (.call (writes_printed hcallee).postfixed_enclosed (spelt_arguments hargs))
  | .index _ target index, ⟨htarget, hindex⟩ =>
    .ofPostfixed (.index (writes_printed htarget).postfixed_enclosed (writes_printed hindex).expression)
  | .member _ target n, ⟨htarget, _⟩ => .ofPostfixed (.member (writes_printed htarget).postfixed_enclosed)
  | .cast _ operand type, ⟨hoperand, _⟩ =>
    .ofPostfixed (.cast (writes_printed hoperand).postfixed_enclosed)
  | .newArray _ type size, ⟨_, hsize⟩ =>
    .ofPostfixed (.postfixed (.newArray (writes_printed hsize).expression))

theorem spelt_arguments : ∀ {es : List Expr}, AllWellFormed (fun span v => IsLexeme (text span v) v) es →
    Phrase.Spelt (.arguments es) (separated (printedAll text es))
  | [], _ => .noArguments
  | [_], ⟨he, _⟩ => .lastArgument (writes_printed he).expression
  | _ :: f :: es, ⟨he, hes⟩ => .argument (writes_printed he).expression (@spelt_arguments (f :: es) hes)

end

/-- The lexemes of an expression that may be left out. -/
theorem spelt_printedOr {e? : Option Expr} (h : ∀ e ∈ e?, e.WellFormed fun span v => IsLexeme (text span v) v) :
    SpeltOr e? (printedOr text e?) := by
  cases e? with
  | none => exact .none
  | some e => exact .some (writes_printed (h e rfl)).expression

theorem spelt_declaration {d : Declaration} (h : d.WellFormed fun span v => IsLexeme (text span v) v) :
    d.Spelt (d.printed text) := by
  refine ⟨h.typed, h.constant, _, ?_, rfl⟩
  cases hinit : d.init? with
  | none => exact .none
  | some e => exact .some (writes_printed (h.init e hinit)).expression

theorem spelt_setup {first : Option Setup}
    (h : ∀ s ∈ first, s.WellFormed fun span v => IsLexeme (text span v) v) :
    SetupPart first (printedSetup text first) := by
  cases first with
  | none => exact .none
  | some s =>
    have hs := h s rfl
    cases s with
    | declare d => exact .declare (spelt_declaration hs)
    | eval v => exact .eval (writes_printed hs).expression

mutual

/-- The lexemes of a statement are what the grammar writes for it. -/
theorem spelt_statement : ∀ {st : Stmt}, st.WellFormed (fun span v => IsLexeme (text span v) v) →
    Clause.Spelt (.stmt st) (st.printed text)
  | .eval _, h => .eval (writes_printed h).expression
  | .declare _, h => .declare (spelt_declaration h)
  | .block _ body, h => .block (@spelt_statements body h)
  | .ifThen .., ⟨hcond, hyes⟩ => .ifThen (writes_printed hcond).expression (spelt_statement hyes)
  | .ifElse .., ⟨hcond, hyes, hclosed, hno⟩ =>
    .ifElse (writes_printed hcond).expression (spelt_statement hyes) hclosed (spelt_statement hno)
  | .whileLoop .., ⟨hcond, hbody⟩ => .whileLoop (writes_printed hcond).expression (spelt_statement hbody)
  | .forLoop .., ⟨hfirst, hcond, hpost, hbody⟩ =>
    .forLoop (spelt_setup hfirst) (spelt_printedOr hcond) (spelt_printedOr hpost) (spelt_statement hbody)
  | .breakLoop _, _ => .breakLoop
  | .continueLoop _, _ => .continueLoop
  | .returnStmt _ _, h => .returnStmt (spelt_printedOr h)

theorem spelt_statements : ∀ {ss : List Stmt},
    StatementsWellFormed (fun span v => IsLexeme (text span v) v) ss →
    Clause.Spelt (.stmts ss) (printedStatements text ss)
  | [], _ => .nil
  | _ :: _, ⟨hst, hss⟩ => .cons (spelt_statement hst) (spelt_statements hss)

end

theorem listed_separated {α : Type} (f : α → List Lexeme) :
    ∀ as : List α, Listed (fun a ts => ts = f a) as (separated (as.map f))
  | [] => .nil
  | [_] => .last rfl
  | _ :: b :: as => .cons rfl (listed_separated f (b :: as))

theorem spelt_import {i : Import} (h : i.WellFormed) : i.Spelt i.printed := by
  obtain ⟨span, path, hasSignature, params, result?⟩ := i
  cases hasSignature with
  | false =>
    obtain ⟨rfl, rfl⟩ : params = [] ∧ result? = none := h.signature rfl
    exact .plain h.path
  | true =>
    have hspelt : Import.Spelt ⟨span, path, true, params, result?⟩ _ :=
      .overload h.path (listed_separated TypeName.lexemes params)
    simpa [Import.printed] using hspelt

theorem spelt_function {f : Function} (h : f.WellFormed fun span v => IsLexeme (text span v) v) :
    f.Spelt (f.printed text) :=
  .mk (listed_separated Param.lexemes f.params) (spelt_statements h.body)

theorem spelt_item {i : Reader.Item} (h : i.WellFormed fun span v => IsLexeme (text span v) v) :
    i.Spelt (i.printed text) := by
  cases i with
  | «import» i => exact .import (spelt_import h)
  | global d => exact .global (spelt_declaration h)
  | function f => exact .function (spelt_function h)
  | statement st => exact .statement (spelt_statement h.1) h.2

theorem sortItems_items (f : File) : Reader.sortItems f.span f.items = f := by
  obtain ⟨span, imports, globals, functions, statements⟩ := f
  have hstatements : Reader.sortItems span (statements.map .statement) =
      ⟨span, [], [], [], statements⟩ := by
    induction statements with
    | nil => rfl
    | cons st statements ih => rw [List.map_cons, Reader.sortItems, ih]
  have hfunctions : Reader.sortItems span (functions.map .function ++ statements.map .statement) =
      ⟨span, [], [], functions, statements⟩ := by
    induction functions with
    | nil => exact hstatements
    | cons g functions ih => rw [List.map_cons, List.cons_append, Reader.sortItems, ih]
  have hglobals : Reader.sortItems span (globals.map .global ++
      (functions.map .function ++ statements.map .statement)) =
      ⟨span, [], globals, functions, statements⟩ := by
    induction globals with
    | nil => exact hfunctions
    | cons d globals ih => rw [List.map_cons, List.cons_append, Reader.sortItems, ih]
  rw [File.items]
  induction imports with
  | nil => exact hglobals
  | cons i imports ih => rw [List.map_cons, List.cons_append, Reader.sortItems, ih]

/-- The lexemes of a source file are what the grammar writes for it. -/
theorem spelt_file {f : File} (h : f.WellFormed fun span v => IsLexeme (text span v) v) :
    f.Spelt (f.printed text) := by
  refine ⟨f.items, ?_, sortItems_items f⟩
  rw [File.printed]
  rw [File.WellFormed] at h
  generalize f.items = is at h
  induction is with
  | nil => exact .nil
  | cons i is ih =>
    rw [List.forall_mem_cons] at h
    exact .cons (spelt_item h.1) (ih h.2)

end

/-! ## What is printed can be written -/

def AllProper (ts : List Lexeme) : Prop := ∀ l ∈ ts, l.Proper

@[simp] theorem allProper_nil : AllProper [] := by simp [AllProper]

@[simp] theorem allProper_cons {l : Lexeme} {ts : List Lexeme} :
    AllProper (l :: ts) ↔ l.Proper ∧ AllProper ts := List.forall_mem_cons

@[simp] theorem allProper_append {ts us : List Lexeme} :
    AllProper (ts ++ us) ↔ AllProper ts ∧ AllProper us := List.forall_mem_append

theorem allProper_enclosed {least : Nat} {e : Expr} {ts : List Lexeme} (h : AllProper ts) :
    AllProper (enclosed least e ts) := by
  unfold enclosed
  split <;> simp (disch := decide) [proper_mark, h]

theorem allProper_separated : ∀ {tss : List (List Lexeme)}, (∀ ts ∈ tss, AllProper ts) →
    AllProper (separated tss)
  | [], _ => allProper_nil
  | [ts], h => h ts List.mem_cons_self
  | ts :: us :: rest, h => by
    rw [List.forall_mem_cons] at h
    simpa (disch := decide) [separated, proper_mark, h.1] using allProper_separated h.2

theorem allProper_brackets (rank : Nat) : AllProper (brackets rank) := by
  induction rank with
  | zero => exact allProper_nil
  | succ rank ih => simpa (disch := decide) [brackets, proper_mark] using ih

theorem TypeName.WellFormed.allProper {t : TypeName} (h : t.WellFormed) : AllProper t.lexemes := by
  simpa [TypeName.lexemes, proper_ident h] using allProper_brackets t.rank

theorem allProper_typePart {type? : Option TypeName} (h : ∀ t ∈ type?, t.WellFormed) :
    AllProper (typePart type?) := by
  cases type? with
  | none => exact allProper_nil
  | some t => simpa (disch := decide) [typePart, proper_mark] using (h t rfl).allProper

section

variable {text : Span → Double → String}

mutual

theorem allProper_printed : ∀ {e : Expr}, e.WellFormed (fun span v => IsLexeme (text span v) v) →
    AllProper (e.printed text)
  | .int _ v, _ => by simp [Expr.printed, proper_decimal]
  | .float _ _, h => by simpa [Expr.printed] using proper_float h.spelled
  | .string _ s, _ => by simp [Expr.printed, proper_string]
  | .char _ c, _ => by simp [Expr.printed, proper_char]
  | .bool _ b, _ => by cases b <;> simp (disch := decide) [Expr.printed, proper_mark]
  | .name _ _, h => by simpa [Expr.printed] using proper_ident h
  | .assign _ op target value, ⟨hop, htarget, hvalue⟩ => by
    have hmark := proper_mark (.inl (Token.Kind.ofSymbol_spec (Reader.symbol_assignment hop)).2)
    simpa [Expr.printed, hmark] using
      ⟨allProper_enclosed (allProper_printed htarget), allProper_printed hvalue⟩
  | .binary _ op left right, ⟨hleft, hright⟩ => by
    have hmark := proper_mark (.inl (Token.Kind.ofSymbol_spec (Reader.symbol_binary op)).2)
    simpa [Expr.printed, hmark] using ⟨allProper_enclosed (allProper_printed hleft),
      allProper_enclosed (allProper_printed hright)⟩
  | .unary _ op operand, h => by
    have hmark := proper_mark (.inl (Token.Kind.ofSymbol_spec (Reader.symbol_unary op)).2)
    simpa [Expr.printed, hmark] using allProper_enclosed (allProper_printed (e := operand) h)
  | .call _ callee args, ⟨hcallee, hargs⟩ => by
    simpa (disch := decide) [Expr.printed, proper_mark] using
      ⟨allProper_enclosed (allProper_printed hcallee), allProper_separated (allProper_arguments hargs)⟩
  | .index _ target index, ⟨htarget, hindex⟩ => by
    simpa (disch := decide) [Expr.printed, proper_mark] using
      ⟨allProper_enclosed (allProper_printed htarget), allProper_printed hindex⟩
  | .member _ target n, ⟨htarget, hn⟩ => by
    simpa (disch := decide) [Expr.printed, proper_mark, proper_ident hn] using
      allProper_enclosed (allProper_printed htarget)
  | .cast _ operand type, ⟨hoperand, htype⟩ => by
    simpa (disch := decide) [Expr.printed, proper_mark] using
      ⟨allProper_enclosed (allProper_printed hoperand), htype.allProper⟩
  | .newArray _ type size, ⟨htype, hsize⟩ => by
    simpa (disch := decide) [Expr.printed, proper_mark, proper_ident htype] using
      ⟨allProper_printed hsize, allProper_brackets type.rank⟩

theorem allProper_arguments : ∀ {es : List Expr},
    AllWellFormed (fun span v => IsLexeme (text span v) v) es →
    ∀ ts ∈ printedAll text es, AllProper ts
  | [], _ => nofun
  | _ :: _, ⟨he, hes⟩ =>
    List.forall_mem_cons.mpr ⟨allProper_printed he, allProper_arguments hes⟩

end

theorem allProper_printedOr {e? : Option Expr}
    (h : ∀ e ∈ e?, e.WellFormed fun span v => IsLexeme (text span v) v) :
    AllProper (printedOr text e?) := by
  cases e? with
  | none => exact allProper_nil
  | some e => exact allProper_printed (h e rfl)

theorem allProper_declaration {d : Declaration}
    (h : d.WellFormed fun span v => IsLexeme (text span v) v) : AllProper (d.printed text) := by
  have hword : (mark (if d.isConst then .constWord else .varWord)).Proper := by
    cases d.isConst <;> exact proper_mark (by decide)
  have hinit : AllProper ((d.init?.map fun e => mark .assign :: e.printed text).getD []) := by
    cases hinit : d.init? with
    | none => exact allProper_nil
    | some e =>
      simpa (disch := decide) [proper_mark] using allProper_printed (h.init e hinit)
  simpa (disch := decide) [Declaration.printed, hword, proper_mark, proper_ident h.name, hinit] using
    allProper_typePart h.type

theorem allProper_setup {first : Option Setup}
    (h : ∀ s ∈ first, s.WellFormed fun span v => IsLexeme (text span v) v) :
    AllProper (printedSetup text first) := by
  cases first with
  | none => simp (disch := decide) [printedSetup, proper_mark]
  | some s =>
    have hs := h s rfl
    cases s with
    | declare d => exact allProper_declaration hs
    | eval v => simpa (disch := decide) [printedSetup, proper_mark] using allProper_printed hs

mutual

theorem allProper_statement : ∀ {st : Stmt}, st.WellFormed (fun span v => IsLexeme (text span v) v) →
    AllProper (st.printed text)
  | .eval _, h => by simpa (disch := decide) [Stmt.printed, proper_mark] using allProper_printed h
  | .declare _, h => allProper_declaration h
  | .block _ body, h => by
    simpa (disch := decide) [Stmt.printed, proper_mark] using @allProper_statements body h
  | .ifThen .., ⟨hcond, hyes⟩ => by
    simpa (disch := decide) [Stmt.printed, proper_mark] using
      ⟨allProper_printed hcond, allProper_statement hyes⟩
  | .ifElse .., ⟨hcond, hyes, _, hno⟩ => by
    simpa (disch := decide) [Stmt.printed, proper_mark] using
      ⟨allProper_printed hcond, allProper_statement hyes, allProper_statement hno⟩
  | .whileLoop .., ⟨hcond, hbody⟩ => by
    simpa (disch := decide) [Stmt.printed, proper_mark] using
      ⟨allProper_printed hcond, allProper_statement hbody⟩
  | .forLoop .., ⟨hfirst, hcond, hpost, hbody⟩ => by
    simpa (disch := decide) [Stmt.printed, proper_mark] using ⟨allProper_setup hfirst,
      allProper_printedOr hcond, allProper_printedOr hpost, allProper_statement hbody⟩
  | .breakLoop _, _ => by simp (disch := decide) [Stmt.printed, proper_mark]
  | .continueLoop _, _ => by simp (disch := decide) [Stmt.printed, proper_mark]
  | .returnStmt _ value, h => by
    simpa (disch := decide) [Stmt.printed, proper_mark] using @allProper_printedOr text value h

theorem allProper_statements : ∀ {ss : List Stmt},
    StatementsWellFormed (fun span v => IsLexeme (text span v) v) ss → AllProper (printedStatements text ss)
  | [], _ => allProper_nil
  | _ :: _, ⟨hst, hss⟩ => allProper_append.mpr ⟨allProper_statement hst, allProper_statements hss⟩

end

theorem allProper_path {path : List String} (h : ∀ n ∈ path, Lexer.isName n) :
    AllProper (pathLexemes path) := by
  cases path with
  | nil => exact allProper_nil
  | cons name parts =>
    rw [List.forall_mem_cons] at h
    refine allProper_cons.mpr ⟨proper_ident h.1, fun l hl => ?_⟩
    obtain ⟨part, hpart, hl⟩ := List.mem_flatMap.mp hl
    have hboth : AllProper [mark .dot, ident part] := by
      simp (disch := decide) [proper_mark, proper_ident (h.2 part hpart)]
    exact hboth l hl

theorem allProper_import {i : Import} (h : i.WellFormed) : AllProper i.printed := by
  have hpath := allProper_path h.names
  have hparams : AllProper (separated (i.params.map TypeName.lexemes)) := by
    refine allProper_separated fun ts hts => ?_
    obtain ⟨t, ht, rfl⟩ := List.mem_map.mp hts
    exact (h.params t ht).allProper
  cases hsignature : i.hasSignature with
  | false => simpa (disch := decide) [Import.printed, proper_mark, hsignature] using hpath
  | true =>
    simpa (disch := decide) [Import.printed, proper_mark, hsignature] using
      ⟨hpath, hparams, allProper_typePart h.result⟩

theorem allProper_function {f : Function} (h : f.WellFormed fun span v => IsLexeme (text span v) v) :
    AllProper (f.printed text) := by
  have hparams : AllProper (separated (f.params.map Param.lexemes)) := by
    refine allProper_separated fun ts hts => ?_
    obtain ⟨p, hp, rfl⟩ := List.mem_map.mp hts
    obtain ⟨hname, htype⟩ := h.params p hp
    simpa (disch := decide) [Param.lexemes, proper_mark, proper_ident hname] using htype.allProper
  simpa (disch := decide) [Function.printed, proper_mark, proper_ident h.name] using
    ⟨hparams, allProper_typePart h.result, allProper_statements h.body⟩

/-- Every lexeme of a well-formed source file can be written. -/
theorem allProper_file {f : File} (h : f.WellFormed fun span v => IsLexeme (text span v) v) :
    AllProper (f.printed text) := by
  intro l hl
  obtain ⟨i, hi, hl⟩ := List.mem_flatMap.mp hl
  have hitem := h i hi
  cases i with
  | «import» i => exact allProper_import hitem l hl
  | global d => exact allProper_declaration hitem l hl
  | function f => exact allProper_function hitem l hl
  | statement st => exact allProper_statement hitem.1 l hl

end

/-! ## Nothing shorter is written -/

theorem length_enclosed (least : Nat) (e : Expr) (ts : List Lexeme) :
    (enclosed least e ts).length = ts.length + if e.level < least then 2 else 0 := by
  unfold enclosed
  split <;> simp

theorem length_enclosed_mono {least least' : Nat} (h : least ≤ least') (e : Expr) (ts : List Lexeme) :
    (enclosed least e ts).length ≤ (enclosed least' e ts).length := by
  rw [length_enclosed, length_enclosed]
  split
  · rw [if_pos (by omega)]
  · exact Nat.add_le_add_left (Nat.zero_le _) _

theorem length_le_enclosed (least : Nat) (e : Expr) (ts : List Lexeme) :
    ts.length ≤ (enclosed least e ts).length := by
  rw [length_enclosed]
  exact Nat.le_add_right _ _

theorem length_enclosed_le (least : Nat) (e : Expr) (ts : List Lexeme) :
    (enclosed least e ts).length ≤ ts.length + 2 := by
  rw [length_enclosed]
  split <;> omega

theorem enclosed_eq {least : Nat} {e : Expr} (h : least ≤ e.level) (ts : List Lexeme) :
    enclosed least e ts = ts := if_neg (Nat.not_lt.mpr h)

section

variable (text : Span → Double → String)

/-- How many lexemes a part of an expression is printed with. -/
def Phrase.size (text : Span → Double → String) : Phrase → Nat
  | .expression e => (e.printed text).length
  | .binary least e => (enclosed (min least 11) e (e.printed text)).length
  | .unary e => (enclosed 11 e (e.printed text)).length
  | .postfixed e => (enclosed 12 e (e.printed text)).length
  | .primary e => (enclosed 13 e (e.printed text)).length
  | .arguments es => (separated (printedAll text es)).length

/-- The grammar writes no part of an expression with fewer lexemes than it is printed with. -/
theorem Phrase.Spelt.size_le {p : Phrase} {ts : List Lexeme} (h : p.Spelt ts) :
    p.size text ≤ ts.length := by
  induction h with
  | int | float | string | char | bool | name =>
    rw [Phrase.size, enclosed_eq (Nat.le_refl 13)]
    exact Nat.le_refl 1
  | newArray _ ih =>
    rw [Phrase.size, enclosed_eq (Nat.le_refl 13)]
    simp only [Expr.printed, Phrase.size, List.length_cons, List.length_append] at ih ⊢
    omega
  | @parentheses e ts _ ih =>
    have hle := length_enclosed_le 13 e (e.printed text)
    simp only [Phrase.size, List.length_cons, List.length_append, List.length_nil] at ih ⊢
    omega
  | @postfixed e _ _ ih => exact Nat.le_trans (length_enclosed_mono (by decide) e _) ih
  | @unary e _ _ ih => exact Nat.le_trans (length_enclosed_mono (by decide) e _) ih
  | @call _ callee args _ _ _ _ ih ih' =>
    rw [Phrase.size, enclosed_eq (Nat.le_refl 12)]
    simp only [Expr.printed, Phrase.size, List.length_cons, List.length_append, List.length_nil] at ih ih' ⊢
    omega
  | index _ _ ih ih' =>
    rw [Phrase.size, enclosed_eq (Nat.le_refl 12)]
    simp only [Expr.printed, Phrase.size, List.length_cons, List.length_append, List.length_nil] at ih ih' ⊢
    omega
  | member _ ih | cast _ ih =>
    rw [Phrase.size, enclosed_eq (Nat.le_refl 12)]
    simp only [Expr.printed, Phrase.size, List.length_cons, List.length_append, List.length_nil] at ih ⊢
    omega
  | prefixed _ _ ih =>
    rw [Phrase.size, enclosed_eq (Nat.le_refl 11)]
    simp only [Expr.printed, Phrase.size, List.length_cons] at ih ⊢
    omega
  | @binary _ e _ _ ih => exact Nat.le_trans (length_enclosed_mono (Nat.min_le_right _ _) e _) ih
  | @operation _ _ _ op left right _ _ _ hleast _ _ ih ih' =>
    have hle := (level_bounds op).2
    rw [Phrase.size, Nat.min_eq_left (by omega)] at ih ih'
    rw [Phrase.size, enclosed_eq (Nat.le_trans (Nat.min_le_left _ _) hleast)]
    simp only [Expr.printed, List.length_cons, List.length_append] at ih ih' ⊢
    omega
  | @expression e _ _ ih => exact Nat.le_trans (length_le_enclosed 1 e _) ih
  | assignment _ _ _ _ ih ih' =>
    rw [Phrase.size, Nat.min_eq_left (by decide)] at ih
    rw [Phrase.size] at ih' ⊢
    simp only [Expr.printed, List.length_cons, List.length_append]
    omega
  | noArguments => exact Nat.le_refl 0
  | lastArgument _ ih => exact ih
  | @argument e es ts us _ _ ih ih' =>
    simp only [Phrase.size, printedAll, List.length_cons, List.length_append] at ih ih' ⊢
    cases es with
    | nil =>
      simp only [printedAll, separated]
      omega
    | cons f es =>
      simp only [printedAll, separated, List.length_cons, List.length_append] at ih' ⊢
      omega

theorem Expr.Spelt.length_le {e : Expr} {ts : List Lexeme} (h : e.Spelt ts) :
    (e.printed text).length ≤ ts.length :=
  Phrase.Spelt.size_le text (p := .expression e) h

theorem SpeltOr.length_le {e? : Option Expr} {ts : List Lexeme} (h : SpeltOr e? ts) :
    (printedOr text e?).length ≤ ts.length := by
  cases h with
  | none => exact Nat.le_refl 0
  | some he => exact Expr.Spelt.length_le text he

theorem Declaration.Spelt.length_le {d : Declaration} {ts : List Lexeme} (h : d.Spelt ts) :
    (d.printed text).length ≤ ts.length := by
  obtain ⟨us, hus, rfl⟩ := h.spelt
  have hinit : ((d.init?.map fun e => mark .assign :: e.printed text).getD []).length ≤ us.length := by
    generalize d.init? = init? at hus
    cases hus with
    | none => exact Nat.le_refl 0
    | some he => exact Nat.succ_le_succ (Expr.Spelt.length_le text he)
  simp only [Declaration.printed, List.length_cons, List.length_append, List.length_nil]
  omega

theorem SetupPart.length_le {first : Option Setup} {ts : List Lexeme} (h : SetupPart first ts) :
    (printedSetup text first).length ≤ ts.length := by
  cases h with
  | none => exact Nat.le_refl 1
  | declare hd => exact hd.length_le text
  | eval hv =>
    have hle := Expr.Spelt.length_le text hv
    simp only [printedSetup, List.length_append, List.length_singleton]
    omega

/-- How many lexemes a statement or several are printed with. -/
def Clause.size (text : Span → Double → String) : Clause → Nat
  | .stmt st => (st.printed text).length
  | .stmts ss => (printedStatements text ss).length

/-- The grammar writes no statement with fewer lexemes than it is printed with. -/
theorem Clause.Spelt.size_le {c : Clause} {ts : List Lexeme} (h : c.Spelt ts) :
    c.size text ≤ ts.length := by
  induction h with
  | eval hv =>
    have hle := Expr.Spelt.length_le text hv
    simp only [Clause.size, Stmt.printed, List.length_append, List.length_singleton]
    omega
  | declare hd => exact hd.length_le text
  | block _ ih =>
    simp only [Clause.size, Stmt.printed, List.length_cons, List.length_append, List.length_nil] at ih ⊢
    omega
  | ifThen hcond _ ih | whileLoop hcond _ ih =>
    have hle := Expr.Spelt.length_le text hcond
    simp only [Clause.size, Stmt.printed, List.length_cons, List.length_append] at ih ⊢
    omega
  | ifElse hcond _ _ _ ih ih' =>
    have hle := Expr.Spelt.length_le text hcond
    simp only [Clause.size, Stmt.printed, List.length_cons, List.length_append] at ih ih' ⊢
    omega
  | forLoop hfirst hcond hpost _ ih =>
    have hfirst' := hfirst.length_le text
    have hcond' := hcond.length_le text
    have hpost' := hpost.length_le text
    simp only [Clause.size, Stmt.printed, List.length_cons, List.length_append] at ih ⊢
    omega
  | breakLoop | continueLoop => exact Nat.le_refl 2
  | returnStmt hvalue =>
    have hle := hvalue.length_le text
    simp only [Clause.size, Stmt.printed, List.length_cons, List.length_append, List.length_nil]
    omega
  | nil => exact Nat.le_refl 0
  | cons _ _ ih ih' =>
    simp only [Clause.size, printedStatements, List.length_append] at ih ih' ⊢
    omega

theorem length_separated_le {α : Type} {f : α → List Lexeme} {as : List α} {ts : List Lexeme}
    (h : Listed (fun a us => us = f a) as ts) : (separated (as.map f)).length ≤ ts.length := by
  induction h with
  | nil => exact Nat.le_refl 0
  | last ha =>
    subst ha
    exact Nat.le_refl _
  | @cons a as ts us ha _ ih =>
    subst ha
    cases as with
    | nil => simp only [List.map_cons, List.map_nil, separated, List.length_append]; omega
    | cons b as =>
      simp only [List.map_cons, separated, List.length_cons, List.length_append] at ih ⊢
      omega

theorem Reader.Item.Spelt.length_le {i : Reader.Item} {ts : List Lexeme} (h : i.Spelt ts) :
    (i.printed text).length ≤ ts.length := by
  cases h with
  | «import» hi =>
    cases hi with
    | plain => simp [Reader.Item.printed, Import.printed]
    | overload _ hparams =>
      have hle := length_separated_le hparams
      simp only [Reader.Item.printed, Import.printed, if_true, List.length_cons, List.length_append]
      omega
  | global hd => exact hd.length_le text
  | function hf =>
    cases hf with
    | mk hparams hbody =>
      have hle := length_separated_le hparams
      have hle' := hbody.size_le text
      simp only [Reader.Item.printed, Function.printed, Clause.size, List.length_cons,
        List.length_append] at hle' ⊢
      omega
  | statement hst _ => exact hst.size_le text

/-- How many lexemes the parts of a file are printed with, whatever their order. -/
theorem length_printed_sortItems (span : Span) (is : List Reader.Item) :
    ((Reader.sortItems span is).printed text).length = (is.flatMap fun i => i.printed text).length := by
  induction is with
  | nil => rfl
  | cons i is ih =>
    rw [List.flatMap_cons, List.length_append, ← ih]
    cases i <;>
    · simp only [Reader.sortItems, File.printed, File.items, List.map_cons, List.flatMap_append,
        List.flatMap_cons, List.length_append]
      omega

/-- The grammar writes no source file with fewer lexemes than it is printed with. -/
theorem File.Spelt.length_le {f : File} {ts : List Lexeme} (h : f.Spelt ts) :
    (f.printed text).length ≤ ts.length := by
  obtain ⟨is, his, hf⟩ := h
  rw [← hf, length_printed_sortItems]
  clear hf
  induction his with
  | nil => exact Nat.le_refl 0
  | cons hi _ ih =>
    rw [List.flatMap_cons, List.length_append, List.length_append]
    exact Nat.add_le_add (hi.length_le text) ih

end

end Parsed
end TypedScript
