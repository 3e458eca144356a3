import Mathlib.Data.List.Nodup
import TypedScript.Parsed.Parser

/-!
# The grammar

What the lexemes of a program, a statement and an expression are. There are ten levels of binary operators
between assignments and prefix operators, and everything in parentheses counts as a primary expression.
Commas may also stand behind the last of several items.
-/

namespace TypedScript

/-- A token as the grammar sees it: its kind, and its text where the kind leaves it open. -/
structure Lexeme where
  kind : Token.Kind
  text : String
  deriving DecidableEq, Repr

def Lexeme.mark (k : Token.Kind) : Lexeme := ⟨k, ""⟩

def Lexeme.ident (name : String) : Lexeme := ⟨.identifier, name⟩

namespace Token

def Kind.isWorded : Kind → Bool
  | .integer | .float | .string | .character | .identifier => true
  | _ => false

theorem Kind.isWorded_iff {k : Kind} : k.isWorded ↔ k = .integer ∨ k = .float ∨ k = .string ∨
    k = .character ∨ k = .identifier := by
  cases k <;> simp [isWorded]

def lexeme (t : Token) : Lexeme := ⟨t.kind, if t.kind.isWorded then t.literal else ""⟩

theorem lexeme_mark {t : Token} {k : Kind} (h : t.kind = k) (hk : k.isWorded = false) :
    t.lexeme = .mark k := by
  subst h
  simp [lexeme, Lexeme.mark, hk]

theorem lexeme_ident {t : Token} (h : t.kind = .identifier) : t.lexeme = .ident t.literal := by
  simp [lexeme, h, Kind.isWorded, Lexeme.ident]

namespace Kind

def ofSymbol (symbol : String) : Kind := (operators.find? fun k => k.name = symbol).getD .endOfInput

theorem ofSymbol_spec {symbol : String} (h : operators.any fun k => k.name = symbol) :
    (ofSymbol symbol).name = symbol ∧ ofSymbol symbol ∈ operators := by
  obtain ⟨k, hk, hname⟩ := List.any_eq_true.mp h
  cases hfind : operators.find? fun k => k.name = symbol with
  | none =>
    have hnone := List.find?_eq_none.mp hfind k hk
    exact absurd hname hnone
  | some k =>
    rw [ofSymbol, hfind]
    exact ⟨by simpa using List.find?_some hfind, List.mem_of_find?_eq_some hfind⟩

/-- No two kinds have the name of an operator: all other names begin with a letter. -/
theorem eq_of_name {k k' : Kind} (hk' : k' ∈ operators) (h : k.name = k'.name) : k = k' := by
  have hnodup : (operators.map name).Nodup := by decide +kernel
  have hletter : ∀ k' ∈ operators, k'.name.toList.head?.any Char.isAlpha = false := by decide
  have hname : k.name.toList.head?.any Char.isAlpha = true ∨ operators.contains k = true := by
    cases k with
    | invalid => exact .inl (show "ERROR".toList.head?.any Char.isAlpha = true from rfl)
    | _ => first | exact .inl rfl | exact .inr rfl
  obtain hk | hk := hname
  · rw [h, hletter k' hk'] at hk
    cases hk
  · exact List.inj_on_of_nodup_map hnodup (List.contains_iff_mem.mp hk) hk' h

theorem eq_ofSymbol {k : Kind} {symbol : String} (hsymbol : operators.any fun k => k.name = symbol)
    (h : k.name = symbol) : k = ofSymbol symbol := by
  obtain ⟨hname, hmem⟩ := ofSymbol_spec hsymbol
  exact eq_of_name hmem (h.trans hname.symm)

end Kind
end Token

/-- The symbols of the binary operators by level, from the one that binds least. -/
def binaryLevels : List (List String) :=
  [["||"], ["&&"], ["|"], ["^"], ["&"], ["==", "!="], ["<", ">", "<=", ">="], ["<<", ">>"], ["+", "-"],
    ["*", "/", "%"]]

def BinaryOperator.level (op : BinaryOperator) : Nat :=
  binaryLevels.findIdx (fun symbols => symbols.contains op.symbol) + 1

namespace Parsed

open Lexeme

def assignmentSymbols : List String :=
  ["=", "+=", "-=", "*=", "/=", "%=", "&=", "|=", "^=", "<<=", ">>="]

/-- How an assignment is written that does something with the old value, or nothing. -/
def assignmentSymbol : Option BinaryOperator → String
  | none => "="
  | some op => op.symbol ++ "="

def isAssignment (op : Option BinaryOperator) : Bool := assignmentSymbols.contains (assignmentSymbol op)

namespace Reader

/-! What is read as an operator, and how tightly it binds, is as the symbols and the levels have it. -/

theorem level_eq_precedence (op : BinaryOperator) : op.level = op.precedence := by
  cases op <;> decide

theorem symbol_binary (op : BinaryOperator) :
    Token.Kind.operators.any fun k => k.name = op.symbol := by
  cases op <;> decide

theorem symbol_unary (op : UnaryOperator) :
    Token.Kind.operators.any fun k => k.name = op.symbol := by
  cases op <;> decide

theorem symbol_assignment {op : Option BinaryOperator} (h : isAssignment op) :
    Token.Kind.operators.any fun k => k.name = assignmentSymbol op := by
  have hall : ∀ symbol ∈ assignmentSymbols,
      (Token.Kind.operators.any fun k => k.name = symbol) = true := by decide
  exact hall _ (List.contains_iff_mem.mp h)

theorem binaryOperator?_eq_some_iff {k : Token.Kind} {op : BinaryOperator} :
    binaryOperator? k = some op ↔ k.name = op.symbol := by
  constructor
  · intro h
    unfold binaryOperator? at h
    split at h <;> cases h <;> rfl
  · intro h
    rw [Token.Kind.eq_ofSymbol (symbol_binary op) h]
    cases op <;> decide

theorem unaryOperator?_eq_some_iff {k : Token.Kind} {op : UnaryOperator} :
    unaryOperator? k = some op ↔ k.name = op.symbol := by
  constructor
  · intro h
    unfold unaryOperator? at h
    split at h <;> cases h <;> rfl
  · intro h
    rw [Token.Kind.eq_ofSymbol (symbol_unary op) h]
    cases op <;> decide

theorem assignment?_eq_some_iff {k : Token.Kind} {op : Option BinaryOperator} :
    assignment? k = some op ↔ k.name = assignmentSymbol op ∧ isAssignment op := by
  constructor
  · intro h
    unfold assignment? at h
    split at h <;> cases h <;> decide
  · rintro ⟨h, hop⟩
    rw [Token.Kind.eq_ofSymbol (symbol_assignment hop) h]
    revert hop
    clear h
    cases op with
    | none => decide
    | some op => cases op <;> decide

end Reader

def brackets : Nat → List Lexeme
  | 0 => []
  | rank + 1 => mark .leftBracket :: mark .rightBracket :: brackets rank

def TypeName.lexemes (t : TypeName) : List Lexeme := ident t.name :: brackets t.rank

/-- Several items with commas between them; one more may follow the last. -/
inductive Listed {α : Type} (item : α → List Lexeme → Prop) : List α → List Lexeme → Prop
  | nil : Listed item [] []
  | last {a : α} {ts : List Lexeme} : item a ts → Listed item [a] ts
  | cons {a : α} {rest : List α} {ts us : List Lexeme} : item a ts → Listed item rest us →
    Listed item (a :: rest) (ts ++ mark .comma :: us)

/-- A part of an expression: an expression at one of the levels of the grammar, or arguments. -/
inductive Phrase
  | expression (e : Expr)
  | binary (least : Nat) (e : Expr)
  | unary (e : Expr)
  | postfixed (e : Expr)
  | primary (e : Expr)
  | arguments (es : List Expr)

/-- How expressions are written. -/
inductive Phrase.Spelt : Phrase → List Lexeme → Prop
  | int {span : Span} {v : UInt64} {l : String} : Number.literal l = (v, true) →
    Spelt (.primary (.int span v)) [⟨.integer, l⟩]
  | float {span : Span} {v : Double} {l : String} : Number.floatLiteral l = (v, true) →
    Spelt (.primary (.float span v)) [⟨.float, l⟩]
  | string {span : Span} {s : String} : Spelt (.primary (.string span s)) [⟨.string, s⟩]
  | char {span : Span} {c : Char} {l : String} : l.toList.headD '\x00' = c →
    Spelt (.primary (.char span c)) [⟨.character, l⟩]
  | bool {span : Span} {b : Bool} :
    Spelt (.primary (.bool span b)) [mark (if b then .trueWord else .falseWord)]
  | name {span : Span} {n : String} : Spelt (.primary (.name span n)) [ident n]
  | newArray {span : Span} {t : TypeName} {size : Expr} {ts : List Lexeme} :
    Spelt (.expression size) ts → Spelt (.primary (.newArray span t size))
      (mark .newWord :: ident t.name :: mark .leftBracket ::
        (ts ++ mark .rightBracket :: brackets t.rank))
  | parentheses {e : Expr} {ts : List Lexeme} : Spelt (.expression e) ts →
    Spelt (.primary e) (mark .leftParen :: (ts ++ [mark .rightParen]))
  | postfixed {e : Expr} {ts : List Lexeme} : Spelt (.primary e) ts → Spelt (.postfixed e) ts
  | call {span : Span} {callee : Expr} {args : List Expr} {ts us : List Lexeme} :
    Spelt (.postfixed callee) ts → Spelt (.arguments args) us →
    Spelt (.postfixed (.call span callee args))
      (ts ++ mark .leftParen :: (us ++ [mark .rightParen]))
  | index {span : Span} {target index : Expr} {ts us : List Lexeme} :
    Spelt (.postfixed target) ts → Spelt (.expression index) us →
    Spelt (.postfixed (.index span target index))
      (ts ++ mark .leftBracket :: (us ++ [mark .rightBracket]))
  | member {span : Span} {target : Expr} {n : String} {ts : List Lexeme} :
    Spelt (.postfixed target) ts →
    Spelt (.postfixed (.member span target n)) (ts ++ [mark .dot, ident n])
  | cast {span : Span} {operand : Expr} {t : TypeName} {ts : List Lexeme} :
    Spelt (.postfixed operand) ts →
    Spelt (.postfixed (.cast span operand t)) (ts ++ mark .asWord :: t.lexemes)
  | unary {e : Expr} {ts : List Lexeme} : Spelt (.postfixed e) ts → Spelt (.unary e) ts
  | prefixed {span : Span} {k : Token.Kind} {op : UnaryOperator} {e : Expr} {ts : List Lexeme} :
    k.name = op.symbol → Spelt (.unary e) ts →
    Spelt (.unary (.unary span op e)) (mark k :: ts)
  | binary {least : Nat} {e : Expr} {ts : List Lexeme} : Spelt (.unary e) ts →
    Spelt (.binary least e) ts
  | operation {span : Span} {least : Nat} {k : Token.Kind} {op : BinaryOperator} {left right : Expr}
    {ts us : List Lexeme} : k.name = op.symbol → least ≤ op.level →
    Spelt (.binary op.level left) ts → Spelt (.binary (op.level + 1) right) us →
    Spelt (.binary least (.binary span op left right)) (ts ++ mark k :: us)
  | expression {e : Expr} {ts : List Lexeme} : Spelt (.binary 1 e) ts → Spelt (.expression e) ts
  | assignment {span : Span} {k : Token.Kind} {op : Option BinaryOperator} {target value : Expr}
    {ts us : List Lexeme} : k.name = assignmentSymbol op → isAssignment op →
    Spelt (.binary 1 target) ts → Spelt (.expression value) us →
    Spelt (.expression (.assign span op target value)) (ts ++ mark k :: us)
  | noArguments : Spelt (.arguments []) []
  | lastArgument {e : Expr} {ts : List Lexeme} : Spelt (.expression e) ts → Spelt (.arguments [e]) ts
  | argument {e : Expr} {es : List Expr} {ts us : List Lexeme} : Spelt (.expression e) ts →
    Spelt (.arguments es) us → Spelt (.arguments (e :: es)) (ts ++ mark .comma :: us)

theorem Phrase.Spelt.of_binaryOperator? {span : Span} {least : Nat} {k : Token.Kind}
    {op : BinaryOperator} {left right : Expr} {ts us : List Lexeme}
    (hop : Reader.binaryOperator? k = some op) (hleast : least ≤ op.precedence)
    (hleft : Spelt (.binary op.precedence left) ts)
    (hright : Spelt (.binary (op.precedence + 1) right) us) :
    Spelt (.binary least (.binary span op left right)) (ts ++ mark k :: us) := by
  rw [← Reader.level_eq_precedence] at hleast hleft hright
  exact .operation (Reader.binaryOperator?_eq_some_iff.mp hop) hleast hleft hright

def Expr.Spelt (e : Expr) (ts : List Lexeme) : Prop := Phrase.Spelt (.expression e) ts

/-- How an expression is written that may be left out. -/
inductive SpeltOr : Option Expr → List Lexeme → Prop
  | none : SpeltOr none []
  | some {e : Expr} {ts : List Lexeme} : e.Spelt ts → SpeltOr (some e) ts

def typePart : Option TypeName → List Lexeme
  | none => []
  | some t => mark .colon :: t.lexemes

/-- How an initial value is written that may be left out. -/
inductive InitialPart : Option Expr → List Lexeme → Prop
  | none : InitialPart none []
  | some {e : Expr} {ts : List Lexeme} : e.Spelt ts → InitialPart (some e) (mark .assign :: ts)

/-- How a declaration is written. It has a type or an initial value, and a constant has the latter. -/
structure Declaration.Spelt (d : Declaration) (ts : List Lexeme) : Prop where
  typed : d.type?.isSome ∨ d.init?.isSome
  constant : d.isConst → d.init?.isSome
  spelt : ∃ us, InitialPart d.init? us ∧ ts = mark (if d.isConst then .constWord else .varWord) ::
    ident d.name :: (typePart d.type? ++ (us ++ [mark .semicolon]))

/-- How the first part of the header of a counted loop is written. -/
inductive SetupPart : Option Setup → List Lexeme → Prop
  | none : SetupPart none [mark .semicolon]
  | declare {d : Declaration} {ts : List Lexeme} : d.Spelt ts → SetupPart (some (.declare d)) ts
  | eval {v : Evaluation} {ts : List Lexeme} : v.expr.Spelt ts →
    SetupPart (some (.eval v)) (ts ++ [mark .semicolon])

/-- Whether an `else` behind a statement would belong to it. -/
def Stmt.isOpen : Stmt → Bool
  | .ifThen _ _ _ => true
  | .ifElse _ _ _ no => no.isOpen
  | .whileLoop _ _ body => body.isOpen
  | .forLoop _ _ _ _ body => body.isOpen
  | _ => false

/-- A statement or several. -/
inductive Clause
  | stmt (s : Stmt)
  | stmts (ss : List Stmt)

/-- How statements are written. -/
inductive Clause.Spelt : Clause → List Lexeme → Prop
  | eval {v : Evaluation} {ts : List Lexeme} : v.expr.Spelt ts →
    Spelt (.stmt (.eval v)) (ts ++ [mark .semicolon])
  | declare {d : Declaration} {ts : List Lexeme} : d.Spelt ts → Spelt (.stmt (.declare d)) ts
  | block {span : Span} {body : List Stmt} {ts : List Lexeme} : Spelt (.stmts body) ts →
    Spelt (.stmt (.block span body)) (mark .leftBrace :: (ts ++ [mark .rightBrace]))
  | ifThen {span : Span} {cond : Expr} {yes : Stmt} {ts us : List Lexeme} : cond.Spelt ts →
    Spelt (.stmt yes) us → Spelt (.stmt (.ifThen span cond yes))
      (mark .ifWord :: mark .leftParen :: (ts ++ mark .rightParen :: us))
  | ifElse {span : Span} {cond : Expr} {yes no : Stmt} {ts us vs : List Lexeme} : cond.Spelt ts →
    Spelt (.stmt yes) us → yes.isOpen = false → Spelt (.stmt no) vs →
    Spelt (.stmt (.ifElse span cond yes no))
      (mark .ifWord :: mark .leftParen :: (ts ++ mark .rightParen :: (us ++ mark .elseWord :: vs)))
  | whileLoop {span : Span} {cond : Expr} {body : Stmt} {ts us : List Lexeme} : cond.Spelt ts →
    Spelt (.stmt body) us → Spelt (.stmt (.whileLoop span cond body))
      (mark .whileWord :: mark .leftParen :: (ts ++ mark .rightParen :: us))
  | forLoop {span : Span} {first : Option Setup} {cond post : Option Expr} {body : Stmt}
    {ts us vs ws : List Lexeme} : SetupPart first ts → SpeltOr cond us → SpeltOr post vs →
    Spelt (.stmt body) ws → Spelt (.stmt (.forLoop span first cond post body))
      (mark .forWord :: mark .leftParen :: (ts ++ (us ++ mark .semicolon ::
        (vs ++ mark .rightParen :: ws))))
  | breakLoop {span : Span} :
    Spelt (.stmt (.breakLoop span)) [mark .breakWord, mark .semicolon]
  | continueLoop {span : Span} :
    Spelt (.stmt (.continueLoop span)) [mark .continueWord, mark .semicolon]
  | returnStmt {span : Span} {value : Option Expr} {ts : List Lexeme} : SpeltOr value ts →
    Spelt (.stmt (.returnStmt span value)) (mark .returnWord :: (ts ++ [mark .semicolon]))
  | nil : Spelt (.stmts []) []
  | cons {s : Stmt} {ss : List Stmt} {ts us : List Lexeme} : Spelt (.stmt s) ts →
    Spelt (.stmts ss) us → Spelt (.stmts (s :: ss)) (ts ++ us)

def pathLexemes : List String → List Lexeme
  | [] => []
  | name :: rest => ident name :: rest.flatMap fun part => [mark .dot, ident part]

/-- How an import is written. It has parameters and a result only with a signature. -/
inductive Import.Spelt : Import → List Lexeme → Prop
  | plain {span : Span} {path : List String} : path ≠ [] → Spelt ⟨span, path, false, [], none⟩
    (mark .importWord :: (pathLexemes path ++ [mark .semicolon]))
  | overload {span : Span} {path : List String} {params : List TypeName} {result? : Option TypeName}
    {ts : List Lexeme} : path ≠ [] → Listed (fun t us => us = t.lexemes) params ts →
    Spelt ⟨span, path, true, params, result?⟩
      (mark .importWord :: (pathLexemes path ++ mark .leftParen :: (ts ++ mark .rightParen ::
        (typePart result? ++ [mark .semicolon]))))

def Param.lexemes (p : Param) : List Lexeme := ident p.name :: mark .colon :: p.type.lexemes

inductive Function.Spelt : Function → List Lexeme → Prop
  | mk {span bodySpan : Span} {name : String} {params : List Param} {result? : Option TypeName}
    {body : List Stmt} {ts us : List Lexeme} : Listed (fun p vs => vs = p.lexemes) params ts →
    Clause.Spelt (.stmts body) us → Spelt ⟨span, name, params, result?, bodySpan, body⟩
      (mark .funcWord :: ident name :: mark .leftParen :: (ts ++ mark .rightParen ::
        (typePart result? ++ mark .leftBrace :: (us ++ [mark .rightBrace]))))

/-- How a part of a source file is written. A declaration outside functions is a global one. -/
inductive Reader.Item.Spelt : Reader.Item → List Lexeme → Prop
  | «import» {i : Import} {ts : List Lexeme} : i.Spelt ts → Spelt (.import i) ts
  | global {d : Declaration} {ts : List Lexeme} : d.Spelt ts → Spelt (.global d) ts
  | function {f : Function} {ts : List Lexeme} : f.Spelt ts → Spelt (.function f) ts
  | statement {s : Stmt} {ts : List Lexeme} : Clause.Spelt (.stmt s) ts →
    (∀ d, s ≠ .declare d) → Spelt (.statement s) ts

/-- How the parts of a source file are written one behind the other. -/
inductive Reader.ItemsSpelt : List Reader.Item → List Lexeme → Prop
  | nil : ItemsSpelt [] []
  | cons {i : Reader.Item} {is : List Reader.Item} {ts us : List Lexeme} : i.Spelt ts →
    ItemsSpelt is us → ItemsSpelt (i :: is) (ts ++ us)

/-- How a source file is written: its parts may stand in any order, except that those of one kind are in
the order of the file. -/
def File.Spelt (f : File) (ts : List Lexeme) : Prop :=
  ∃ is, Reader.ItemsSpelt is ts ∧ Reader.sortItems f.span is = f

end Parsed
end TypedScript
