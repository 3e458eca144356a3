import TypedScript.Proofs.Parsed.Before
import TypedScript.Proofs.Parsed.Literals

/-!
# Written expressions are read

What is written as an expression is read as it. The grammar has a level for every level of the operators;
a reader of operands goes on where the operand of a lower level would end, so the two meet only in what
comes next.
-/

namespace TypedScript
namespace Parsed
namespace Reader

def Gives {α : Type} (m : Nat → Reader α) (s : State) (x : α × State) : Prop :=
  Eventually fun n => m n State.recover s = x

section

variable {s t u : State} {e left right : Expr} {x : Option Expr × State} {r : Recovery}

theorem expect_eq {k : Token.Kind} (h : s.current.kind = k) : expect k r s = (true, s.step) := by
  refine bind_eq (a := true) ?_ rfl
  rw [← decide_eq_true h]
  rfl

theorem gives_expression_plain (h : Gives (binary · 1) s (some left, t))
    (hop : assignment? t.current.kind = none) : Gives expression s (some left, t) := by
  refine h.succ fun n hn => bind_eq (a := s.current.span.start) rfl (bind_eq hn ?_)
  refine bind_eq (a := t.current.kind) rfl ?_
  simp only [hop]
  rfl

theorem gives_expression_assign {op : Option BinaryOperator} {value : Expr}
    (h : Gives (binary · 1) s (some left, t)) (hop : assignment? t.current.kind = some op)
    (hvalue : Gives expression t.step (some value, u)) :
    Gives expression s (some (.assign ⟨s.current.span.start, u.lastEnd⟩ op left value), u) := by
  refine (h.and hvalue).succ fun n hn => ?_
  refine bind_eq (a := s.current.span.start) rfl (bind_eq hn.1 ?_)
  refine bind_eq (a := t.current.kind) rfl ?_
  simp only [hop]
  exact bind_eq (a := ()) rfl (bind_eq hn.2 rfl)

theorem gives_binary {level : Nat} (h : Gives unary s (some left, t))
    (htail : Gives (binaryTail · level s.current.span.start left) t x) :
    Gives (binary · level) s x :=
  (h.and htail).succ fun _ hn => bind_eq (a := s.current.span.start) rfl (bind_eq hn.1 hn.2)

theorem gives_binaryTail_stop {level : Nat} {start : Position} (h : Below level s) :
    Gives (binaryTail · level start left) s (some left, s) := by
  refine (Eventually.of_forall fun _ => trivial).succ fun n _ => ?_
  refine bind_eq (a := s.current.kind) rfl ?_
  cases hop : binaryOperator? s.current.kind with
  | none => rfl
  | some op =>
    simp only [if_pos (h op hop)]
    rfl

theorem gives_binaryTail_operation {level : Nat} {start : Position} {op : BinaryOperator}
    (hop : binaryOperator? s.current.kind = some op) (hlevel : level ≤ op.precedence)
    (hright : Gives (binary · (op.precedence + 1)) s.step (some right, t))
    (htail : Gives (binaryTail · level start (.binary ⟨start, t.lastEnd⟩ op left right)) t x) :
    Gives (binaryTail · level start left) s x := by
  refine (hright.and htail).succ fun n hn => bind_eq (a := s.current.kind) rfl ?_
  simp only [hop, if_neg (Nat.not_lt.mpr hlevel)]
  exact bind_eq (a := ()) rfl (bind_eq hn.1 (bind_eq (a := ⟨start, t.lastEnd⟩) rfl hn.2))

theorem gives_unary_plain (hop : unaryOperator? s.current.kind = none) (h : Gives postfixed s x) :
    Gives unary s x := by
  refine h.succ fun n hn => bind_eq (a := s.current.kind) rfl ?_
  simp only [hop]
  exact hn

theorem gives_unary_prefixed {op : UnaryOperator} (hop : unaryOperator? s.current.kind = some op)
    (h : Gives unary s.step (some e, t)) :
    Gives unary s (some (.unary ⟨s.current.span.start, t.lastEnd⟩ op e), t) := by
  refine h.succ fun n hn => bind_eq (a := s.current.kind) rfl ?_
  simp only [hop]
  exact bind_eq (a := s.current.span.start) rfl (bind_eq (a := ()) rfl (bind_eq hn rfl))

theorem gives_postfixed (h : Gives primary s (some e, t))
    (htail : Gives (postfixedTail · s.current.span.start e) t x) : Gives postfixed s x :=
  (h.and htail).succ fun _ hn => bind_eq (a := s.current.span.start) rfl (bind_eq hn.1 hn.2)

variable {start : Position}

theorem gives_postfixedTail_stop (h : continues s.current.kind = false) :
    Gives (postfixedTail · start e) s (some e, s) := by
  refine (Eventually.of_forall fun _ => trivial).succ fun n _ => ?_
  refine bind_eq (a := s.current.kind) rfl ?_
  generalize s.current.kind = k at h
  cases k <;> first | rfl | cases h

theorem gives_postfixedTail_call {args : List Expr} (hkind : s.current.kind = .leftParen)
    (hargs : Gives arguments s.step (some args, t)) (hclose : t.current.kind = .rightParen)
    (htail : Gives (postfixedTail · start (.call ⟨start, t.step.lastEnd⟩ e args)) t.step x) :
    Gives (postfixedTail · start e) s x := by
  refine (hargs.and htail).succ fun n hn => bind_eq (a := s.current.kind) rfl ?_
  simp only [hkind]
  refine bind_eq (a := ()) rfl (bind_eq hn.1 (bind_eq (expect_eq hclose) ?_))
  exact bind_eq (a := ⟨start, t.step.lastEnd⟩) rfl hn.2

theorem gives_postfixedTail_index {index : Expr} (hkind : s.current.kind = .leftBracket)
    (hindex : Gives expression s.step (some index, t)) (hclose : t.current.kind = .rightBracket)
    (htail : Gives (postfixedTail · start (.index ⟨start, t.step.lastEnd⟩ e index)) t.step x) :
    Gives (postfixedTail · start e) s x := by
  refine (hindex.and htail).succ fun n hn => bind_eq (a := s.current.kind) rfl ?_
  simp only [hkind]
  refine bind_eq (a := ()) rfl (bind_eq hn.1 (bind_eq (expect_eq hclose) ?_))
  exact bind_eq (a := ⟨start, t.step.lastEnd⟩) rfl hn.2

theorem gives_postfixedTail_member (hkind : s.current.kind = .dot)
    (hname : s.step.current.kind = .identifier)
    (htail : Gives (postfixedTail · start (.member ⟨start, s.step.step.lastEnd⟩ e
      s.step.current.literal)) s.step.step x) :
    Gives (postfixedTail · start e) s x := by
  refine htail.succ fun n hn => bind_eq (a := s.current.kind) rfl ?_
  simp only [hkind]
  refine bind_eq (a := ()) rfl (bind_eq (a := decide (s.step.current.kind = .identifier)) rfl ?_)
  simp only [hname, decide_true, if_true]
  refine bind_eq (a := s.step.current.literal) rfl (bind_eq (a := ()) rfl ?_)
  exact bind_eq (a := ⟨start, s.step.step.lastEnd⟩) rfl hn

theorem gives_postfixedTail_cast {type : TypeName} (hkind : s.current.kind = .asWord)
    (htype : typeName State.recover s.step = (some type, t))
    (htail : Gives (postfixedTail · start (.cast ⟨start, t.lastEnd⟩ e type)) t x) :
    Gives (postfixedTail · start e) s x := by
  refine htail.succ fun n hn => bind_eq (a := s.current.kind) rfl ?_
  simp only [hkind]
  exact bind_eq (a := ()) rfl (bind_eq htype (bind_eq (a := ⟨start, t.lastEnd⟩) rfl hn))

theorem gives_arguments_none (hkind : s.current.kind = .rightParen) :
    Gives arguments s (some [], s) := by
  refine (Eventually.of_forall fun _ => trivial).succ fun n _ => ?_
  refine bind_eq (a := decide (s.current.kind = .rightParen)) rfl ?_
  refine bind_eq (a := decide (s.current.kind = .endOfInput)) rfl ?_
  simp only [hkind]
  rfl

theorem gives_arguments {x : Option (List Expr) × State} (hkind : opensExpression s.current.kind)
    (h : Gives expression s (some e, t))
    (hrest : t.current.kind ≠ .comma ∧ x = (some [e], t) ∨ t.current.kind = .comma ∧
      ∃ es u, Gives arguments t.step (some es, u) ∧ x = (some (e :: es), u)) :
    Gives arguments s x := by
  have hparen : s.current.kind ≠ .rightParen := by
    intro h
    rw [h] at hkind
    cases hkind
  have hgoing : (decide (s.current.kind = .rightParen) || decide (s.current.kind = .endOfInput)) =
      false := by simp [hparen, ne_endOfInput_of_opens hkind]
  obtain ⟨hcomma, rfl⟩ | ⟨hcomma, es, u, hes, rfl⟩ := hrest
  · refine h.succ fun n hn => ?_
    refine bind_eq (a := decide (s.current.kind = .rightParen)) rfl ?_
    refine bind_eq (a := decide (s.current.kind = .endOfInput)) rfl ?_
    simp only [hgoing]
    refine bind_eq hn (bind_eq (a := decide (t.current.kind = .comma)) rfl ?_)
    simp only [hcomma, decide_false]
    rfl
  · refine (h.and hes).succ fun n hn => ?_
    refine bind_eq (a := decide (s.current.kind = .rightParen)) rfl ?_
    refine bind_eq (a := decide (s.current.kind = .endOfInput)) rfl ?_
    simp only [hgoing]
    refine bind_eq hn.1 (bind_eq (a := decide (t.current.kind = .comma)) rfl ?_)
    simp only [hcomma, decide_true, if_true]
    exact bind_eq (a := ()) rfl (bind_eq hn.2 rfl)

theorem gives_primary_literal (hkind : s.current.kind ∈ literalKinds ∨
      s.current.kind = .identifier) {x : Option Expr × State}
    (h : literalExpr s.current State.recover s = x) : Gives primary s x := by
  refine (Eventually.of_forall fun _ => trivial).succ fun n _ => ?_
  obtain hkind | hkind := hkind
  · exact (primary_literal hkind n).trans h
  · refine bind_eq (a := s) rfl ?_
    simp only [hkind]
    exact h

theorem gives_primary_parentheses (hkind : s.current.kind = .leftParen)
    (h : Gives expression s.step (some e, t)) (hclose : t.current.kind = .rightParen) :
    Gives primary s (some e, t.step) := by
  refine h.succ fun n hn => bind_eq (a := s) rfl ?_
  simp only [hkind]
  exact bind_eq (a := ()) rfl (bind_eq hn (bind_eq (expect_eq hclose) rfl))

theorem gives_primary_newArray {rank : Nat} (hkind : s.current.kind = .newWord)
    (hname : s.step.current.kind = .identifier)
    (hopen : s.step.step.current.kind = .leftBracket)
    (h : Gives expression s.step.step.step (some e, t)) (hclose : t.current.kind = .rightBracket)
    (hranks : ranks State.recover t.step = (rank, u)) :
    Gives primary s (some (.newArray ⟨s.current.span.start, u.lastEnd⟩
      ⟨s.step.current.span, s.step.current.literal, rank⟩ e), u) := by
  have hnew : Gives newArray s (some (.newArray ⟨s.current.span.start, u.lastEnd⟩
      ⟨s.step.current.span, s.step.current.literal, rank⟩ e), u) := by
    refine h.succ fun n hn => bind_eq (a := s.current.span.start) rfl (bind_eq (a := ()) rfl ?_)
    refine bind_eq (a := s.step) rfl ?_
    simp only [hname, if_true]
    refine bind_eq (a := ()) rfl (bind_eq (expect_eq hopen) (bind_eq hn ?_))
    exact bind_eq (expect_eq hclose) (bind_eq hranks rfl)
  refine hnew.succ fun n hn => bind_eq (a := s) rfl ?_
  simp only [hkind]
  exact hn

theorem literalExpr_float {v : Double} (h : s.current.kind = .float)
    (hv : Number.floatLiteral s.current.literal = (v, true)) : literalExpr s.current r s =
      (some (.float ⟨s.current.span.start, s.current.span.stop⟩ v), s.step) := by
  refine bind_eq (a := ()) rfl (bind_eq (a := ⟨s.current.span.start, s.current.span.stop⟩) rfl ?_)
  simp only [h, hv]
  rfl

theorem literalExpr_bool {b : Bool} (h : s.current.kind = if b then .trueWord else .falseWord) :
    literalExpr s.current r s =
      (some (.bool ⟨s.current.span.start, s.current.span.stop⟩ b), s.step) := by
  refine bind_eq (a := ()) rfl (bind_eq (a := ⟨s.current.span.start, s.current.span.stop⟩) rfl ?_)
  cases b <;>
  · simp only [h]
    rfl

theorem literalExpr_name (h : s.current.kind = .identifier) : literalExpr s.current r s =
    (some (.name ⟨s.current.span.start, s.current.span.stop⟩ s.current.literal), s.step) := by
  refine bind_eq (a := ()) rfl (bind_eq (a := ⟨s.current.span.start, s.current.span.stop⟩) rfl ?_)
  simp only [h]
  rfl

end

def NoBrackets (ts : List Lexeme) : Prop :=
  ¬(kindOf ts = .leftBracket ∧ kindOf ts.tail = .rightBracket)

theorem ranksWithin_eq {rank : Nat} {rest : List Lexeme} (hrest : NoBrackets rest) {fuel : Nat}
    (hfuel : rank < fuel) {s : State} (hs : s.Before (brackets rank ++ rest)) : ∃ t, t.Before rest ∧
      ∀ r, ranksWithin fuel r s = (rank, t) := by
  induction rank generalizing fuel s with
  | zero =>
    obtain ⟨fuel, rfl⟩ := Nat.exists_eq_add_one_of_ne_zero (Nat.ne_of_gt hfuel)
    refine ⟨s, hs, fun r => ?_⟩
    refine bind_eq (a := decide (s.current.kind = .leftBracket)) rfl ?_
    refine bind_eq (a := decide (s.ahead.kind = .rightBracket)) rfl ?_
    have hstop : ¬((decide (s.current.kind = .leftBracket) &&
        decide (s.ahead.kind = .rightBracket)) = true) := by
      rw [Bool.and_eq_true, decide_eq_true_eq, decide_eq_true_eq, hs.kind]
      cases rest with
      | nil => nofun
      | cons l rest => rwa [hs.ahead]
    simp only [if_neg hstop]
    rfl
  | succ rank ih =>
    obtain ⟨fuel, rfl⟩ := Nat.exists_eq_add_one_of_ne_zero (Nat.ne_of_gt (Nat.zero_lt_of_lt hfuel))
    have hopen : s.current.kind = .leftBracket := hs.kind
    have hclose : s.ahead.kind = .rightBracket := hs.ahead
    obtain ⟨t, ht, hread⟩ := ih (Nat.lt_of_succ_lt_succ hfuel) hs.step.step
    refine ⟨t, ht, fun r => ?_⟩
    refine bind_eq (a := decide (s.current.kind = .leftBracket)) rfl ?_
    refine bind_eq (a := decide (s.ahead.kind = .rightBracket)) rfl ?_
    simp only [hopen, hclose, decide_true, Bool.and_self, if_true]
    exact bind_eq (a := ()) rfl (bind_eq (a := ()) rfl (bind_eq (hread r) rfl))

theorem ranks_eq {rank : Nat} {rest : List Lexeme} (hrest : NoBrackets rest) {s : State}
    (hs : s.Before (brackets rank ++ rest)) : ∃ t, t.Before rest ∧ ∀ r, ranks r s = (rank, t) := by
  have hlength : ∀ rank, (brackets rank).length = 2 * rank := by
    intro rank
    induction rank with
    | zero => rfl
    | succ rank ih => rw [brackets, List.length_cons, List.length_cons, ih]; omega
  have hleft := hs.whole.left_lt
  have hlexemes := congrArg List.length hs.lexemes
  rw [State.lexemes, List.length_map, List.length_append, hlength] at hlexemes
  rw [State.left] at hleft
  obtain ⟨t, ht, hread⟩ := ranksWithin_eq hrest (by omega : rank < s.remaining) hs
  exact ⟨t, ht, fun r => bind_eq (a := s) rfl (hread r)⟩

theorem typeName_eq {type : TypeName} {rest : List Lexeme} (hrest : NoBrackets rest) {s : State}
    (hs : s.Before (type.lexemes ++ rest)) :
    ∃ type' t, type'.bare = type.bare ∧ t.Before rest ∧ ∀ r, typeName r s = (some type', t) := by
  have hname : s.current.kind = .identifier := hs.kind
  have hliteral : s.current.literal = type.name := by
    simpa [Token.lexeme_ident hname, Lexeme.ident] using hs.lexeme
  obtain ⟨t, ht, hranks⟩ := ranks_eq hrest hs.step
  refine ⟨⟨⟨s.current.span.start, t.lastEnd⟩, s.current.literal, type.rank⟩, t, ?_, ht, fun r => ?_⟩
  · rw [TypeName.bare, hliteral]
    rfl
  refine bind_eq (a := s.current.span.start) rfl ?_
  refine bind_eq (a := decide (s.current.kind = .identifier)) rfl ?_
  simp only [hname, decide_true, if_true]
  refine bind_eq (a := s.current.literal) rfl (bind_eq (a := ()) rfl ?_)
  exact bind_eq (hranks r) (bind_eq (a := ⟨s.current.span.start, t.lastEnd⟩) rfl rfl)

def Recovers (m : Nat → Reader (Option Expr)) (e : Expr) (ts rest : List Lexeme) : Prop :=
  ∀ s : State, s.Before (ts ++ rest) → ∃ e' t, e'.bare = e.bare ∧ t.Before rest ∧
    Gives m s (some e', t)

/-- Before the lexemes a reader goes on, with an expression that is the same up to spans, as the reader
of what follows an operand does behind them. -/
def Continues (m : Nat → Reader (Option Expr))
    (tail : Position → Expr → Nat → Reader (Option Expr)) (e : Expr) (ts rest : List Lexeme) : Prop :=
  ∀ s : State, s.Before (ts ++ rest) → ∃ e' t, e'.bare = e.bare ∧ t.Before rest ∧
    ∀ x, Gives (tail s.current.span.start e') t x → Gives m s x

/-- What the readers do before a part of an expression, in view of what comes next. -/
def ReadsPhrase : Phrase → List Lexeme → Prop
  | .expression e, ts => ∀ rest, closes (kindOf rest) → Recovers expression e ts rest
  | .binary least e, ts => ∀ rest, continues (kindOf rest) = false →
    (∀ op, binaryOperator? (kindOf rest) = some op → op.precedence ≤ least) → ∀ level ≤ least,
      Continues (binary · level) (fun start left n => binaryTail n level start left) e ts rest
  | .unary e, ts => ∀ rest, continues (kindOf rest) = false → Recovers unary e ts rest
  | .postfixed e, ts => ∀ rest, NoBrackets rest →
    Continues postfixed (fun start head n => postfixedTail n start head) e ts rest
  | .primary e, ts => ∀ rest, NoBrackets rest →
    Recovers primary e ts rest
  | .arguments es, ts => ∀ rest, kindOf rest = .rightParen → ∀ s : State, s.Before (ts ++ rest) →
    ∃ es' t, bareAll es' = bareAll es ∧ t.Before rest ∧ Gives arguments s (some es', t)

section

variable {span : Span} {e : Expr} {ts us rest : List Lexeme}

theorem NoBrackets.of_continues {ts : List Lexeme} (h : continues (kindOf ts) = false) :
    NoBrackets ts := by
  rintro ⟨hopen, -⟩
  rw [hopen] at h
  cases h

theorem noBrackets_cons {k : Token.Kind} (hk : k ≠ .leftBracket) : NoBrackets (.mark k :: ts) :=
  fun h => hk h.1

theorem recovers_literal {k : Token.Kind} {text : String} (hk : k.isWorded)
    (hkind : k ∈ literalKinds ∨ k = .identifier) (make : Span → Expr)
    (hmake : ∀ span, (make span).bare = e.bare)
    (h : ∀ s : State, s.current.kind = k → s.current.literal = text →
      literalExpr s.current State.recover s =
        (some (make ⟨s.current.span.start, s.current.span.stop⟩), s.step)) :
    Recovers primary e [⟨k, text⟩] rest := by
  intro s hs
  have hk' : s.current.kind = k := hs.kind
  exact ⟨_, s.step, hmake _, hs.step, gives_primary_literal (by rwa [hk']) (h s hk' (hs.literal hk))⟩

theorem recovers_bool {b : Bool} : Recovers primary (.bool span b)
    [.mark (if b then .trueWord else .falseWord)] rest := by
  intro s hs
  have hkind : s.current.kind = if b then .trueWord else .falseWord := hs.kind
  refine ⟨.bool ⟨s.current.span.start, s.current.span.stop⟩ b, s.step, rfl, hs.step,
    gives_primary_literal (.inl ?_) (literalExpr_bool hkind)⟩
  rw [hkind]
  cases b <;> decide

theorem recovers_newArray {type : TypeName} (hrest : NoBrackets rest)
    (ih : ∀ rest, closes (kindOf rest) → Recovers expression e ts rest) :
    Recovers primary (.newArray span type e) (.mark .newWord :: .ident type.name ::
      .mark .leftBracket :: (ts ++ .mark .rightBracket :: brackets type.rank)) rest := by
  intro s hs
  simp only [List.cons_append, List.append_assoc] at hs
  obtain ⟨e', t, he, ht, hgives⟩ := ih (.mark .rightBracket :: (brackets type.rank ++ rest)) rfl _
    hs.step.step.step
  obtain ⟨u, hu, hranks⟩ := ranks_eq hrest ht.step
  refine ⟨_, u, ?_, hu, gives_primary_newArray hs.kind hs.step.kind hs.step.step.kind hgives ht.kind
    (hranks _)⟩
  have hname : s.step.current.literal = type.name := hs.step.literal rfl
  exact congrArg₂ (fun name size => Expr.newArray nowhere ⟨nowhere, name, type.rank⟩ size) hname he

theorem recovers_parentheses (ih : ∀ rest, closes (kindOf rest) → Recovers expression e ts rest) :
    Recovers primary e (.mark .leftParen :: (ts ++ [Lexeme.mark .rightParen])) rest := by
  intro s hs
  simp only [List.cons_append, List.append_assoc, List.nil_append] at hs
  obtain ⟨e', t, he, ht, hgives⟩ := ih (.mark .rightParen :: rest) rfl _ hs.step
  exact ⟨e', t.step, he, ht.step, gives_primary_parentheses hs.kind hgives ht.kind⟩

theorem continues_primary (ih : Recovers primary e ts rest) :
    Continues postfixed (fun start head n => postfixedTail n start head) e ts rest := by
  intro s hs
  obtain ⟨e', t, he, ht, hgives⟩ := ih s hs
  exact ⟨e', t, he, ht, fun x hx => gives_postfixed hgives hx⟩

section

variable (ih : ∀ rest, NoBrackets rest →
  Continues postfixed (fun start head n => postfixedTail n start head) e ts rest)

include ih

theorem continues_call {args : List Expr} (hargs : ReadsPhrase (.arguments args) us) :
    Continues postfixed (fun start head n => postfixedTail n start head) (.call span e args)
      (ts ++ .mark .leftParen :: (us ++ [Lexeme.mark .rightParen])) rest := by
  intro s hs
  simp only [List.cons_append, List.append_assoc, List.nil_append] at hs
  obtain ⟨e', t, he, ht, hgoes⟩ := ih _ (noBrackets_cons (k := .leftParen) nofun) s hs
  obtain ⟨args', u, hes, hu, hgives⟩ := hargs (.mark .rightParen :: rest) rfl _ ht.step
  refine ⟨.call ⟨s.current.span.start, u.step.lastEnd⟩ e' args', u.step, ?_, hu.step, fun x hx => ?_⟩
  · exact congrArg₂ (Expr.call nowhere) he hes
  · exact hgoes x (gives_postfixedTail_call ht.kind hgives hu.kind hx)

theorem continues_index {index : Expr} (hspelt : Phrase.Spelt (.expression index) us)
    (hindex : ReadsPhrase (.expression index) us) :
    Continues postfixed (fun start head n => postfixedTail n start head) (.index span e index)
      (ts ++ .mark .leftBracket :: (us ++ [Lexeme.mark .rightBracket])) rest := by
  intro s hs
  simp only [List.cons_append, List.append_assoc, List.nil_append] at hs
  have hopens : opensExpression (kindOf us) := hspelt.opens
  have hbrackets : NoBrackets (.mark .leftBracket :: (us ++ .mark .rightBracket :: rest)) := by
    rintro ⟨-, hclose⟩
    rw [List.tail_cons, kindOf_append (ne_endOfInput_of_opens hopens)] at hclose
    rw [hclose] at hopens
    cases hopens
  obtain ⟨e', t, he, ht, hgoes⟩ := ih _ hbrackets s hs
  obtain ⟨index', u, hi, hu, hgives⟩ := hindex (.mark .rightBracket :: rest) rfl _ ht.step
  refine ⟨.index ⟨s.current.span.start, u.step.lastEnd⟩ e' index', u.step, ?_, hu.step,
    fun x hx => ?_⟩
  · exact congrArg₂ (Expr.index nowhere) he hi
  · exact hgoes x (gives_postfixedTail_index ht.kind hgives hu.kind hx)

theorem continues_member {name : String} :
    Continues postfixed (fun start head n => postfixedTail n start head) (.member span e name)
      (ts ++ [Lexeme.mark .dot, .ident name]) rest := by
  intro s hs
  simp only [List.cons_append, List.append_assoc, List.nil_append] at hs
  obtain ⟨e', t, he, ht, hgoes⟩ := ih _ (noBrackets_cons (k := .dot) nofun) s hs
  have hname : t.step.current.literal = name := ht.step.literal (k := .identifier) rfl
  refine ⟨.member ⟨s.current.span.start, t.step.step.lastEnd⟩ e' t.step.current.literal, t.step.step,
    ?_, ht.step.step, fun x hx => ?_⟩
  · exact congrArg₂ (Expr.member nowhere) he hname
  · exact hgoes x (gives_postfixedTail_member ht.kind ht.step.kind hx)

theorem continues_cast {type : TypeName} (hrest : NoBrackets rest) :
    Continues postfixed (fun start head n => postfixedTail n start head) (.cast span e type)
      (ts ++ .mark .asWord :: type.lexemes) rest := by
  intro s hs
  simp only [List.cons_append, List.append_assoc] at hs
  obtain ⟨e', t, he, ht, hgoes⟩ := ih _ (noBrackets_cons (k := .asWord) nofun) s hs
  obtain ⟨type', u, htype, hu, hread⟩ := typeName_eq hrest ht.step
  refine ⟨.cast ⟨s.current.span.start, u.lastEnd⟩ e' type', u, ?_, hu, fun x hx => ?_⟩
  · exact congrArg₂ (Expr.cast nowhere) he htype
  · exact hgoes x (gives_postfixedTail_cast ht.kind (hread _) hx)

theorem recovers_unary (hspelt : Phrase.Spelt (.postfixed e) ts)
    (hrest : continues (kindOf rest) = false) : Recovers unary e ts rest := by
  intro s hs
  have hopens : opensPrimary (kindOf ts) := hspelt.opens
  have hend : kindOf ts ≠ .endOfInput := by
    intro h
    rw [h] at hopens
    cases hopens
  obtain ⟨e', t, he, ht, hgoes⟩ := ih rest (.of_continues hrest) s hs
  refine ⟨e', t, he, ht, gives_unary_plain ?_ (hgoes _ (gives_postfixedTail_stop ?_))⟩
  · rw [hs.kind, kindOf_append hend]
    exact unaryOperator?_of_opensPrimary hopens
  · rw [ht.kind]
    exact hrest

end

theorem recovers_prefixed {k : Token.Kind} {op : UnaryOperator} (hop : unaryOperator? k = some op)
    (ih : Recovers unary e ts rest) : Recovers unary (.unary span op e) (.mark k :: ts) rest := by
  intro s hs
  have hkind : s.current.kind = k := hs.kind
  obtain ⟨e', t, he, ht, hgives⟩ := ih _ hs.step
  refine ⟨_, t, ?_, ht, gives_unary_prefixed (hkind ▸ hop) hgives⟩
  exact congrArg (Expr.unary nowhere op) he

theorem continues_unary {level : Nat} (ih : Recovers unary e ts rest) :
    Continues (binary · level) (fun start left n => binaryTail n level start left) e ts rest := by
  intro s hs
  obtain ⟨e', t, he, ht, hgives⟩ := ih s hs
  exact ⟨e', t, he, ht, fun x hx => gives_binary hgives hx⟩

theorem continues_operation {k : Token.Kind} {op : BinaryOperator} {left right : Expr} {level : Nat}
    (hop : binaryOperator? k = some op) (hlevel : level ≤ op.precedence)
    (hleft : ReadsPhrase (.binary op.precedence left) ts)
    (hright : ReadsPhrase (.binary (op.precedence + 1) right) us)
    (hrest : continues (kindOf rest) = false)
    (hlower : ∀ op', binaryOperator? (kindOf rest) = some op' → op'.precedence ≤ op.precedence) :
    Continues (binary · level) (fun start left n => binaryTail n level start left)
      (.binary span op left right) (ts ++ .mark k :: us) rest := by
  intro s hs
  simp only [List.cons_append, List.append_assoc] at hs
  have hsame : ∀ op', binaryOperator? k = some op' → op'.precedence ≤ op.precedence := by
    intro op' hop'
    rw [hop] at hop'
    exact Nat.le_of_eq (congrArg _ (Option.some.inj hop').symm)
  obtain ⟨left', t, hl, ht, hgoes⟩ := hleft (.mark k :: (us ++ rest))
    (continues_of_binaryOperator? hop) hsame level hlevel s hs
  have hhigher : ∀ op', binaryOperator? (kindOf rest) = some op' →
      op'.precedence ≤ op.precedence + 1 := fun op' hop' => Nat.le_succ_of_le (hlower op' hop')
  obtain ⟨right', u, hr, hu, hgoes'⟩ := hright rest hrest hhigher _ (Nat.le_refl _) _ ht.step
  have hbelow : Below (op.precedence + 1) u := by
    intro op' hop'
    rw [hu.kind] at hop'
    exact Nat.lt_succ_of_le (hlower op' hop')
  have hkind : t.current.kind = k := ht.kind
  refine ⟨.binary ⟨s.current.span.start, u.lastEnd⟩ op left' right', u, ?_, hu, fun x hx => ?_⟩
  · exact congrArg₂ (Expr.binary nowhere op) hl hr
  · exact hgoes x (gives_binaryTail_operation (hkind ▸ hop) hlevel
      (hgoes' _ (gives_binaryTail_stop hbelow)) hx)

theorem recovers_expression (hrest : closes (kindOf rest)) (ih : ReadsPhrase (.binary 1 e) ts) :
    Recovers expression e ts rest := by
  intro s hs
  obtain ⟨hcontinues, hbinary, hassign⟩ := of_closes hrest
  obtain ⟨e', t, he, ht, hgoes⟩ := ih rest hcontinues (by simp [hbinary]) 1 (Nat.le_refl _) s hs
  refine ⟨e', t, he, ht, gives_expression_plain (hgoes _ (gives_binaryTail_stop ?_)) ?_⟩
  · intro op hop
    rw [ht.kind, hbinary] at hop
    cases hop
  · rw [ht.kind]
    exact hassign

theorem recovers_assignment {k : Token.Kind} {op : Option BinaryOperator} {target value : Expr}
    (hop : assignment? k = some op) (htarget : ReadsPhrase (.binary 1 target) ts)
    (hvalue : Recovers expression value us rest) :
    Recovers expression (.assign span op target value) (ts ++ .mark k :: us) rest := by
  intro s hs
  simp only [List.cons_append, List.append_assoc] at hs
  obtain ⟨hcontinues, hbinary⟩ := continues_of_assignment? hop
  obtain ⟨target', t, ht', ht, hgoes⟩ := htarget (.mark k :: (us ++ rest)) hcontinues
    (by simp [kindOf, Lexeme.mark, hbinary]) 1 (Nat.le_refl _) s hs
  obtain ⟨value', u, hv, hu, hgives⟩ := hvalue _ ht.step
  have hkind : t.current.kind = k := ht.kind
  refine ⟨_, u, ?_, hu, gives_expression_assign (hgoes _ (gives_binaryTail_stop ?_)) (hkind ▸ hop)
    hgives⟩
  · exact congrArg₂ (Expr.assign nowhere op) ht' hv
  · intro op' hop'
    rw [hkind, hbinary] at hop'
    cases hop'

theorem readsPhrase_lastArgument (hspelt : Phrase.Spelt (.expression e) ts)
    (ih : ReadsPhrase (.expression e) ts) : ReadsPhrase (.arguments [e]) ts := by
  intro rest hrest s hs
  have hopens : opensExpression (kindOf ts) := hspelt.opens
  obtain ⟨e', t, he, ht, hgives⟩ := ih rest (by rw [hrest]; rfl) s hs
  refine ⟨[e'], t, by rw [bareAll, he]; rfl, ht, gives_arguments ?_ hgives (.inl ⟨?_, rfl⟩)⟩
  · rwa [hs.kind, kindOf_append (ne_endOfInput_of_opens hopens)]
  · rw [ht.kind, hrest]
    nofun

theorem readsPhrase_argument {es : List Expr} (hspelt : Phrase.Spelt (.expression e) ts)
    (ih : ReadsPhrase (.expression e) ts) (ih' : ReadsPhrase (.arguments es) us) :
    ReadsPhrase (.arguments (e :: es)) (ts ++ .mark .comma :: us) := by
  intro rest hrest s hs
  simp only [List.cons_append, List.append_assoc] at hs
  have hopens : opensExpression (kindOf ts) := hspelt.opens
  obtain ⟨e', t, he, ht, hgives⟩ := ih (.mark .comma :: (us ++ rest)) rfl s hs
  obtain ⟨es', u, hes, hu, hgives'⟩ := ih' rest hrest _ ht.step
  refine ⟨e' :: es', u, by rw [bareAll, he, hes]; rfl, hu,
    gives_arguments ?_ hgives (.inr ⟨ht.kind, es', u, hgives', rfl⟩)⟩
  rwa [hs.kind, kindOf_append (ne_endOfInput_of_opens hopens)]

end

/-- What is written as a part of an expression is read as it. -/
theorem readsPhrase {p : Phrase} {ts : List Lexeme} (h : p.Spelt ts) : ReadsPhrase p ts := by
  induction h with
  | @int _ v _ hv =>
    refine fun rest _ => recovers_literal rfl (.inl (by decide)) (.int · v) (fun _ => rfl) ?_
    exact fun s hk hl => literalExpr_integer hk (hl ▸ hv)
  | @float _ v _ hv =>
    refine fun rest _ => recovers_literal rfl (.inl (by decide)) (.float · v) (fun _ => rfl) ?_
    exact fun s hk hl => literalExpr_float hk (hl ▸ hv)
  | @string _ v =>
    refine fun rest _ => recovers_literal rfl (.inl (by decide)) (.string · v) (fun _ => rfl) ?_
    exact fun s hk hl => by rw [literalExpr_string hk, hl]
  | @char _ c _ hc =>
    refine fun rest _ => recovers_literal rfl (.inl (by decide)) (.char · c) (fun _ => rfl) ?_
    exact fun s hk hl => by rw [literalExpr_character hk, hl, hc]
  | bool => exact fun rest _ => recovers_bool
  | @name _ n =>
    refine fun rest _ => recovers_literal rfl (.inr rfl) (.name · n) (fun _ => rfl) ?_
    exact fun s hk hl => by rw [literalExpr_name hk, hl]
  | newArray _ ih => exact fun rest hrest => recovers_newArray hrest ih
  | parentheses _ ih => exact fun rest _ => recovers_parentheses ih
  | postfixed _ ih => exact fun rest hrest => continues_primary (ih rest hrest)
  | call _ _ ih ih' => exact fun rest _ => continues_call ih ih'
  | index _ hspelt ih ih' => exact fun rest _ => continues_index ih hspelt ih'
  | member _ ih => exact fun rest _ => continues_member ih
  | cast _ ih => exact fun rest hrest => continues_cast ih hrest
  | unary hspelt ih => exact fun rest hrest => recovers_unary ih hspelt hrest
  | prefixed hop _ ih =>
    exact fun rest hrest => recovers_prefixed (unaryOperator?_eq_some_iff.mpr hop) (ih rest hrest)
  | binary _ ih => exact fun rest hrest _ _ _ => continues_unary (ih rest hrest)
  | operation hname hleast _ _ ih ih' =>
    rw [level_eq_precedence] at hleast ih ih'
    exact fun rest hrest hlower level hlevel =>
      continues_operation (binaryOperator?_eq_some_iff.mpr hname) (Nat.le_trans hlevel hleast) ih ih'
        hrest fun op' hop' => Nat.le_trans (hlower op' hop') hleast
  | expression _ ih => exact fun rest hrest => recovers_expression hrest ih
  | assignment hname hop _ _ ih ih' =>
    exact fun rest hrest =>
      recovers_assignment (assignment?_eq_some_iff.mpr ⟨hname, hop⟩) ih (ih' rest hrest)
  | noArguments => exact fun rest hrest s hs => ⟨[], s, rfl, hs, gives_arguments_none (hs.kind.trans hrest)⟩
  | lastArgument hspelt ih => exact readsPhrase_lastArgument hspelt ih
  | argument hspelt _ ih ih' => exact readsPhrase_argument hspelt ih ih'

end Reader
end Parsed
end TypedScript
