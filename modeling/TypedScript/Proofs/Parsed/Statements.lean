import TypedScript.Proofs.Parsed.Expressions
import TypedScript.Proofs.Parsed.Joined

/-!
# Written programs are read

What is written as a statement, a declaration or a source file is read as it, up to spans and without a
mistake. Only what comes next has to be kept in view: an `else` would go on with an open statement, and
nothing else does.
-/

namespace TypedScript
namespace Parsed

/-! ## How parts of a program start -/

section

variable {ts rest : List Lexeme}

theorem Reader.noBrackets_of_ne (h : kindOf rest ≠ .leftBracket) : Reader.NoBrackets rest :=
  fun hrest => h hrest.1

theorem Declaration.Spelt.kindOf {d : Declaration} (h : d.Spelt ts) (rest : List Lexeme) :
    kindOf (ts ++ rest) = .varWord ∨ kindOf (ts ++ rest) = .constWord := by
  obtain ⟨us, -, rfl⟩ := h.spelt
  cases d.isConst
  · exact .inl rfl
  · exact .inr rfl

theorem InitialPart.noBrackets {init? : Option Expr} {us : List Lexeme} (h : InitialPart init? us)
    (rest : List Lexeme) :
    kindOf (us ++ .mark .semicolon :: rest) ≠ .colon ∧ Reader.NoBrackets (us ++ .mark .semicolon :: rest) := by
  cases h <;> exact ⟨nofun, Reader.noBrackets_of_ne nofun⟩

theorem SpeltOr.kindOf_eq {e? : Option Expr} (h : SpeltOr e? ts) {stop : Token.Kind}
    (hstop : opensExpression stop = false) :
    decide (kindOf (ts ++ .mark stop :: rest) = stop) = e?.isNone := by
  cases h with
  | none => exact decide_eq_true rfl
  | @some e ts he =>
    have hopens : opensExpression (kindOf ts) := he.opens
    rw [kindOf_append (ne_endOfInput_of_opens hopens)]
    refine decide_eq_false fun h => ?_
    rw [h, hstop] at hopens
    cases hopens

def opensStatement : Token.Kind → Bool
  | .leftBrace | .ifWord | .whileWord | .forWord | .breakWord | .continueWord | .returnWord => true
  | k => opensExpression k

theorem Clause.Spelt.opens {st : Stmt} (h : Clause.Spelt (.stmt st) ts) (hne : ∀ d, st ≠ .declare d)
    (rest : List Lexeme) :
    opensStatement (kindOf (ts ++ rest)) := by
  cases h with
  | @eval v ts hv =>
    have hopens : opensExpression (kindOf ts) := hv.opens
    rw [List.append_assoc, kindOf_append (ne_endOfInput_of_opens hopens)]
    generalize kindOf ts = k at hopens
    cases k <;> first | exact hopens | cases hopens
  | declare => exact absurd rfl (hne _)
  | _ => rfl

/-- No statement starts with a brace that closes. -/
theorem Clause.Spelt.kindOf_ne_rightBrace {st : Stmt} (h : Clause.Spelt (.stmt st) ts) :
    kindOf ts ≠ .rightBrace := by
  rw [← List.append_nil ts]
  by_cases hdeclare : ∃ d, st = .declare d
  · obtain ⟨d, rfl⟩ := hdeclare
    cases h with
    | declare hd =>
      obtain hkind | hkind := hd.kindOf [] <;> simp only [hkind] <;> decide
  · have hopens := h.opens (fun d hd => hdeclare ⟨d, hd⟩) []
    intro hkind
    rw [hkind] at hopens
    cases hopens

theorem ne_nil_of_kindOf {ts : List Lexeme} (h : kindOf ts ≠ .endOfInput) : ts ≠ [] := by
  rintro rfl
  exact h rfl

end

namespace Reader

/-- Before some lexemes a reader with enough fuel gives a result as said, and is then before the rest of
them. -/
def Yields {α : Type} (m : Nat → Reader α) (ts rest : List Lexeme) (Q : α → Prop) : Prop :=
  ∀ s : State, s.Before ts → ∃ x t, Q x ∧ t.Before rest ∧ Gives m s (x, t)

namespace Yields

variable {α β : Type} {P : α → Prop} {Q : β → Prop} {l : Lexeme} {ts us rest : List Lexeme}

theorem pure {b : β} (h : Q b) : Yields (fun _ => Pure.pure b) rest rest Q :=
  fun s hs => ⟨b, s, h, hs, .of_forall fun _ => rfl⟩

theorem imp {m : Nat → Reader α} {P' : α → Prop} (h : Yields m ts rest P) (hP : ∀ a, P a → P' a) :
    Yields m ts rest P' := by
  intro s hs
  obtain ⟨x, t, hx, ht, hgives⟩ := h s hs
  exact ⟨x, t, hP x hx, ht, hgives⟩

theorem bind {m : Nat → Reader α} {f : Nat → α → Reader β} (hm : Yields m ts us P)
    (hf : ∀ a, P a → Yields (fun n => f n a) us rest Q) : Yields (fun n => m n >>= f n) ts rest Q := by
  intro s hs
  obtain ⟨a, t, ha, ht, hgives⟩ := hm s hs
  obtain ⟨b, u, hb, hu, hgives'⟩ := hf a ha t ht
  exact ⟨b, u, hb, hu, (hgives.and hgives').mono fun _ hn => bind_eq hn.1 hn.2⟩

/-- One step down in the descent takes one unit of fuel. -/
theorem succ {m m' : Nat → Reader α} (h : Yields m ts rest P) (heq : ∀ n, m' (n + 1) = m n) :
    Yields m' ts rest P := by
  intro s hs
  obtain ⟨x, t, hx, ht, hgives⟩ := h s hs
  exact ⟨x, t, hx, ht, Eventually.succ hgives fun n hn => by rw [heq, hn]⟩

/-- A reader that only looks. -/
theorem look {m : Reader α} {f : Nat → α → Reader β} {a : α}
    (hm : ∀ s : State, s.Before ts → m State.recover s = (a, s))
    (h : Yields (fun n => f n a) ts rest Q) : Yields (fun n => m >>= f n) ts rest Q := by
  intro s hs
  obtain ⟨x, t, hx, ht, hgives⟩ := h s hs
  exact ⟨x, t, hx, ht, Eventually.mono hgives fun n hn => bind_eq (hm s hs) hn⟩

theorem kind {f : Nat → Token.Kind → Reader β} (h : Yields (fun n => f n (kindOf ts)) ts rest Q) :
    Yields (fun n => Reader.kind >>= f n) ts rest Q := by
  refine .look (fun s hs => ?_) h
  rw [← hs.kind]
  rfl

theorem isAt {k : Token.Kind} {f : Nat → Bool → Reader β}
    (h : Yields (fun n => f n (decide (kindOf ts = k))) ts rest Q) :
    Yields (fun n => at? k >>= f n) ts rest Q := by
  refine .look (fun s hs => ?_) h
  rw [← hs.kind]
  rfl

theorem isAhead {k : Token.Kind} {f : Nat → Bool → Reader β}
    (h : ∀ b, (∀ l us, ts = l :: us → b = decide (kindOf us = k)) → Yields (fun n => f n b) ts rest Q) :
    Yields (fun n => ahead? k >>= f n) ts rest Q := by
  intro s hs
  have hahead : ∀ l us, ts = l :: us → decide (s.ahead.kind = k) = decide (kindOf us = k) := by
    rintro l us rfl
    rw [hs.ahead]
  obtain ⟨x, t, hx, ht, hgives⟩ := h _ hahead s hs
  exact ⟨x, t, hx, ht, Eventually.mono hgives fun n hn => bind_eq (a := decide (s.ahead.kind = k)) rfl hn⟩

theorem literal {name : String} {f : Nat → String → Reader β}
    (h : Yields (fun n => f n name) (.ident name :: ts) rest Q) :
    Yields (fun n => Reader.literal >>= f n) (.ident name :: ts) rest Q := by
  refine .look (fun s hs => ?_) h
  rw [← State.Before.literal (k := .identifier) hs rfl]
  rfl

theorem position {f : Nat → Position → Reader β} (h : ∀ start, Yields (fun n => f n start) ts rest Q) :
    Yields (fun n => Reader.position >>= f n) ts rest Q := by
  intro s hs
  obtain ⟨x, t, hx, ht, hgives⟩ := h s.current.span.start s hs
  exact ⟨x, t, hx, ht,
    Eventually.mono hgives fun n hn => bind_eq (a := s.current.span.start) rfl hn⟩

theorem spanFrom {start : Position} {f : Nat → Span → Reader β}
    (h : ∀ span, Yields (fun n => f n span) ts rest Q) :
    Yields (fun n => Reader.spanFrom start >>= f n) ts rest Q := by
  intro s hs
  obtain ⟨x, t, hx, ht, hgives⟩ := h ⟨start, s.lastEnd⟩ s hs
  exact ⟨x, t, hx, ht,
    Eventually.mono hgives fun n hn => bind_eq (a := ⟨start, s.lastEnd⟩) rfl hn⟩

theorem advance {f : Nat → Unit → Reader β} (h : Yields (fun n => f n ()) ts rest Q) :
    Yields (fun n => Reader.advance >>= f n) (l :: ts) rest Q := by
  intro s hs
  obtain ⟨x, t, hx, ht, hgives⟩ := h s.step hs.step
  exact ⟨x, t, hx, ht, Eventually.mono hgives fun n hn => bind_eq (a := ()) rfl hn⟩

theorem expect {k : Token.Kind} {f : Nat → Bool → Reader β} (hk : l.kind = k)
    (h : Yields (fun n => f n true) ts rest Q) :
    Yields (fun n => Reader.expect k >>= f n) (l :: ts) rest Q := by
  intro s hs
  obtain ⟨x, t, hx, ht, hgives⟩ := h s.step hs.step
  exact ⟨x, t, hx, ht, Eventually.mono hgives fun n hn => bind_eq (expect_eq (hs.kind.trans hk)) hn⟩

/-- As much fuel as tokens remain is more than there are lexemes. -/
theorem remaining {f : Nat → State → Reader β}
    (h : ∀ s, ts.length < s.remaining → Yields (fun n => f n s) ts rest Q) :
    Yields (fun n => get >>= f n) ts rest Q := by
  intro s hs
  have hlt : ts.length < s.remaining := by
    have hleft := hs.whole.left_lt
    rw [← hs.lexemes, State.lexemes, List.length_map]
    exact hleft
  obtain ⟨x, t, hx, ht, hgives⟩ := h s hlt s hs
  exact ⟨x, t, hx, ht, Eventually.mono hgives fun n hn => bind_eq (a := s) rfl hn⟩

end Yields

def Finds {α : Type} (bare : α → α) (a : α) (o : Option α) : Prop := ∃ a', o = some a' ∧ bare a' = bare a

section

variable {ts rest : List Lexeme}

theorem yields_expression {e : Expr} (h : e.Spelt ts) (hrest : closes (kindOf rest)) :
    Yields expression (ts ++ rest) rest (Finds Expr.bare e) := by
  intro s hs
  obtain ⟨e', t, he, ht, hgives⟩ := readsPhrase h rest hrest s hs
  exact ⟨some e', t, ⟨e', rfl, he⟩, ht, hgives⟩

theorem yields_typeName {type : TypeName} (hrest : NoBrackets rest) :
    Yields (fun _ => typeName) (type.lexemes ++ rest) rest (Finds TypeName.bare type) := by
  intro s hs
  obtain ⟨type', t, htype, ht, hread⟩ := typeName_eq hrest hs
  exact ⟨some type', t, ⟨type', rfl, htype⟩, ht, .of_forall fun _ => hread _⟩

theorem yields_optionalType (rest : List Lexeme) {type? : Option TypeName} (hcolon : kindOf rest ≠ .colon)
    (hrest : NoBrackets rest) : Yields (fun _ => optionalType) (typePart type? ++ rest) rest
      fun o => o.map TypeName.bare = type?.map TypeName.bare := by
  unfold optionalType
  refine Yields.isAt ?_
  cases type? with
  | none =>
    have hno : decide (kindOf (typePart none ++ rest) = .colon) = false := decide_eq_false hcolon
    rw [hno]
    exact .pure rfl
  | some type =>
    refine Yields.advance ((yields_typeName hrest).imp ?_)
    rintro _ ⟨type', rfl, htype⟩
    exact congrArg some htype

theorem yields_terminate : Yields (fun _ => terminate) (.mark .semicolon :: rest) rest fun _ => True := by
  unfold terminate
  exact Yields.expect rfl (.pure trivial)

/-- Behind a declaration that has what it needs nothing is noted. -/
theorem yields_declared (rest : List Lexeme) (start : Position) {d : Declaration}
    {type? : Option TypeName} {init? : Option Expr}
    (htype : type?.map TypeName.bare = d.type?.map TypeName.bare)
    (hinit : init?.map Expr.bare = d.init?.map Expr.bare)
    (htyped : d.type?.isSome ∨ d.init?.isSome) (hconstant : d.isConst → d.init?.isSome) :
    let declared : Reader (Option Declaration) := do
      if type?.isNone && init?.isNone then report (.untypedDeclaration d.name)
      if d.isConst && init?.isNone then report (.uninitializedConstant d.name)
      terminate
      return some (Declaration.mk (← spanFrom start) d.name d.isConst type? init?)
    Yields (fun _ => declared) (.mark .semicolon :: rest) rest (Finds Declaration.bare d) := by
  have htype' : type?.isSome = d.type?.isSome := by
    rw [← Option.isSome_map (f := TypeName.bare), htype, Option.isSome_map]
  have hinit' : init?.isSome = d.init?.isSome := by
    rw [← Option.isSome_map (f := Expr.bare), hinit, Option.isSome_map]
  have huntyped : (type?.isNone && init?.isNone) = false := by
    rw [← Option.not_isSome, ← Option.not_isSome, htype', hinit']
    obtain h | h := htyped <;> simp [h]
  have hunset : (d.isConst && init?.isNone) = false := by
    rw [← Option.not_isSome, hinit']
    cases hconst : d.isConst with
    | false => rfl
    | true => simp [hconstant hconst]
  dsimp only
  rw [huntyped, hunset]
  refine yields_terminate.bind fun _ _ => Yields.spanFrom fun span => .pure ⟨_, rfl, ?_⟩
  rw [Declaration.bare, htype, hinit]
  rfl

theorem yields_declaration {d : Declaration} (h : d.Spelt ts) :
    Yields declaration (ts ++ rest) rest (Finds Declaration.bare d) := by
  obtain ⟨us, hus, rfl⟩ := h.spelt
  simp only [List.cons_append, List.append_assoc, List.nil_append]
  obtain ⟨hcolon, hbrackets⟩ := hus.noBrackets rest
  have hconst : decide (kindOf (.mark (if d.isConst then .constWord else .varWord) :: .ident d.name ::
      (typePart d.type? ++ (us ++ .mark .semicolon :: rest))) = .constWord) = d.isConst := by
    cases d.isConst <;> rfl
  refine Yields.position fun start => Yields.isAt (Yields.advance (Yields.isAt ?_))
  rw [hconst]
  refine Yields.literal (Yields.advance ((yields_optionalType _ hcolon hbrackets).bind ?_))
  intro type?' htype
  have hdeclared : ∀ {init? : Option Expr}, init?.map Expr.bare = d.init?.map Expr.bare → _ :=
    fun hinit => yields_declared rest start htype hinit h.typed h.constant
  refine Yields.isAt ?_
  generalize hinit? : d.init? = init? at hus hdeclared
  cases hus with
  | none => exact hdeclared rfl
  | some he =>
    refine Yields.advance ((yields_expression he rfl).bind ?_)
    rintro _ ⟨e', rfl, he'⟩
    exact hdeclared (congrArg some he')

theorem yields_condition {cond : Expr} (h : cond.Spelt ts) :
    Yields condition (.mark .leftParen :: (ts ++ .mark .rightParen :: rest)) rest
      (Finds Expr.bare cond) := by
  refine Yields.expect rfl ((yields_expression h rfl).bind fun _ hcond => ?_)
  exact Yields.expect rfl (.pure hcond)

theorem yields_setup {first : Option Setup} (h : SetupPart first ts) :
    Yields setup (ts ++ rest) rest fun o => o.map Setup.bare = first.map Setup.bare := by
  refine Yields.kind ?_
  cases h with
  | none => exact Yields.advance (.pure rfl)
  | @declare d _ hd =>
    have hdeclare : Yields (fun n => do return (← declaration n).map Setup.declare) (ts ++ rest) rest
        fun o => o.map Setup.bare = some (Setup.declare d).bare := by
      refine (yields_declaration hd).bind fun _ hfound => .pure ?_
      obtain ⟨d', rfl, hd'⟩ := hfound
      exact congrArg (fun d => some (Setup.declare d)) hd'
    obtain hkind | hkind := hd.kindOf rest <;>
    · rw [hkind]
      exact hdeclare
  | @eval v ts hv =>
    have hopens : opensExpression (kindOf ts) := hv.opens
    rw [List.append_assoc, kindOf_append (ne_endOfInput_of_opens hopens)]
    have heval : Yields (fun n => do
        let start ← position
        let expr ← expression n
        let span ← spanFrom start
        let _ ← expect .semicolon
        return expr.map fun e => .eval ⟨span, e⟩) (ts ++ .mark .semicolon :: rest) rest
        fun o => o.map Setup.bare = some (Setup.eval v).bare := by
      refine Yields.position fun start => (yields_expression hv rfl).bind ?_
      rintro _ ⟨e', rfl, he'⟩
      refine Yields.spanFrom fun span => Yields.expect rfl (.pure ?_)
      exact congrArg (fun e => some (Setup.eval ⟨nowhere, e⟩)) he'
    generalize kindOf ts = k at hopens
    cases k <;> first | exact heval | cases hopens

theorem yields_optionalBefore {e? : Option Expr} (h : SpeltOr e? ts) {stop : Token.Kind}
    (hstop : opensExpression stop = false) (hcloses : closes stop) :
    Yields (optionalBefore stop) (ts ++ .mark stop :: rest) (.mark stop :: rest)
      fun o => o.map Expr.bare = e?.map Expr.bare := by
  refine Yields.isAt ?_
  rw [h.kindOf_eq hstop]
  cases h with
  | none => exact .pure rfl
  | some he =>
    have hends : closes (kindOf (.mark stop :: rest)) := hcloses
    refine (yields_expression he hends).imp ?_
    rintro _ ⟨e', rfl, he'⟩
    exact congrArg some he'

theorem yields_evaluation {v : Evaluation} (h : v.expr.Spelt ts) :
    Yields evaluation (ts ++ .mark .semicolon :: rest) rest (Finds Stmt.bare (.eval v)) := by
  refine Yields.position fun start => (yields_expression h rfl).bind ?_
  rintro _ ⟨e', rfl, he'⟩
  refine yields_terminate.bind fun _ _ => Yields.spanFrom fun span => .pure ⟨_, rfl, ?_⟩
  exact congrArg (fun e => Stmt.eval ⟨nowhere, e⟩) he'

theorem yields_jump {make : Span → Stmt} {k : Token.Kind} {st : Stmt}
    (hmake : ∀ span, (make span).bare = st.bare) :
    Yields (fun _ => jump make) (.mark k :: .mark .semicolon :: rest) rest (Finds Stmt.bare st) :=
  Yields.position fun _ => Yields.advance <| Yields.expect rfl <| Yields.spanFrom fun span =>
    .pure ⟨_, rfl, hmake span⟩

theorem yields_returning {span : Span} {value : Option Expr} (h : SpeltOr value ts) :
    Yields returning (.mark .returnWord :: (ts ++ .mark .semicolon :: rest)) rest
      (Finds Stmt.bare (.returnStmt span value)) := by
  refine Yields.position fun start => Yields.advance ?_
  refine (yields_optionalBefore h rfl rfl).bind fun value' hvalue => ?_
  refine yields_terminate.bind fun _ _ => Yields.spanFrom fun span => .pure ⟨_, rfl, ?_⟩
  rw [Stmt.bare, hvalue, Stmt.bare]

/-- A turn of a loop over a part that is found. -/
theorem yields_progressing {α : Type} {ended : Reader Bool} {p : Token.Kind → Bool}
    {part : Nat → Reader (Option α)} {P : Option α → Prop} (hended : Ender ended p)
    (hpart : Yields part (ts ++ rest) rest P) (hts : ts ≠ [])
    (hgoes : ∀ s : State, s.Whole → Eventually fun n => s.Goes (part n State.recover s).2) :
    Yields (fun n => progressing ended (part n)) (ts ++ rest) rest P := by
  intro s hs
  obtain ⟨x, t, hx, ht, hgives⟩ := hpart s hs
  refine ⟨x, t, hx, ht, (hgives.and (hgoes s hs.whole)).mono fun n hn => ?_⟩
  obtain ⟨hn, hgoes⟩ := hn
  rw [hn] at hgoes
  have hleft : t.left < s.left := by
    have hlengths := congrArg List.length (hs.lexemes.trans (congrArg (ts ++ ·) ht.lexemes.symm))
    rw [State.lexemes, State.lexemes, List.length_append, List.length_map, List.length_map] at hlengths
    have hpos := List.length_pos_of_ne_nil hts
    rw [State.left, State.left]
    omega
  have hend : s.current.kind ≠ .endOfInput := by
    intro hend
    have hzero : s.left = 0 := congrArg List.length (State.pending_of_end hend)
    omega
  refine bind_eq (a := s.current.span.start) rfl (bind_eq hn ?_)
  refine bind_eq (a := t.current.span.start) rfl (bind_eq (hended.looks _ t) ?_)
  have hstop : (t.current.span.start.offset = s.current.span.start.offset && !p t.current.kind) =
      false := by
    by_cases htend : t.current.kind = .endOfInput
    · rw [htend, hended.endOfInput]
      simp
    · have hlt := offset_lt_of_goes hs.ordered hgoes hend htend hleft
      simp [Nat.ne_of_gt hlt]
  simp only [hstop]
  rfl

def ReadsClause : Clause → List Lexeme → Prop
  | .stmt st, ts => ∀ rest, (st.isOpen → kindOf rest ≠ .elseWord) →
    Yields statement (ts ++ rest) rest (Finds Stmt.bare st)
  | .stmts ss, ts => ∀ rest, kindOf rest = .rightBrace →
    Yields statements (ts ++ rest) rest fun ss' => bareStmts ss' = bareStmts ss

theorem yields_block {body : List Stmt} (ih : ReadsClause (.stmts body) ts) :
    Yields block (.mark .leftBrace :: (ts ++ .mark .rightBrace :: rest)) rest
      fun b => bareStmts b.2 = bareStmts body := by
  refine Yields.succ (Yields.position fun start => Yields.advance ?_) fun _ => rfl
  refine (ih (.mark .rightBrace :: rest) rfl).bind fun body' hbody => ?_
  exact Yields.expect rfl (Yields.spanFrom fun span => .pure hbody)

theorem yields_blockStatement {span : Span} {body : List Stmt} (ih : ReadsClause (.stmts body) ts) :
    Yields statement (.mark .leftBrace :: (ts ++ .mark .rightBrace :: rest)) rest
      (Finds Stmt.bare (.block span body)) := by
  refine Yields.succ (Yields.kind ?_) fun _ => rfl
  refine (yields_block ih).bind fun b hb => .pure ⟨_, rfl, ?_⟩
  rw [Stmt.bare, hb, Stmt.bare]

theorem yields_statement_declare {d : Declaration} (h : d.Spelt ts) :
    Yields statement (ts ++ rest) rest (Finds Stmt.bare (.declare d)) := by
  have hdeclare : Yields
      (fun n => do return some (((← declaration n).map Stmt.declare).getD .missing)) (ts ++ rest) rest
      (Finds Stmt.bare (.declare d)) := by
    refine (yields_declaration h).bind fun _ hfound => .pure ?_
    obtain ⟨d', rfl, hd'⟩ := hfound
    exact ⟨_, rfl, congrArg Stmt.declare hd'⟩
  refine Yields.succ (Yields.kind ?_) fun _ => rfl
  obtain hkind | hkind := h.kindOf rest <;>
  · rw [hkind]
    exact hdeclare

theorem yields_statement_eval {v : Evaluation} (h : v.expr.Spelt ts) :
    Yields statement (ts ++ .mark .semicolon :: rest) rest (Finds Stmt.bare (.eval v)) := by
  have hopens : opensExpression (kindOf ts) := h.opens
  have heval : Yields evaluation (ts ++ .mark .semicolon :: rest) rest (Finds Stmt.bare (.eval v)) :=
    yields_evaluation h
  refine Yields.succ (Yields.kind ?_) fun _ => rfl
  rw [kindOf_append (ne_endOfInput_of_opens hopens)]
  generalize kindOf ts = k at hopens
  cases k <;> first | exact heval | cases hopens

section

variable {us vs ws : List Lexeme} {span : Span} {cond : Expr} {yes no body : Stmt}

theorem yields_ifThen (hcond : cond.Spelt ts) (hyes : ReadsClause (.stmt yes) us)
    (hrest : kindOf rest ≠ .elseWord) : Yields statement
      (.mark .ifWord :: .mark .leftParen :: (ts ++ .mark .rightParen :: (us ++ rest))) rest
      (Finds Stmt.bare (.ifThen span cond yes)) := by
  refine Yields.succ (Yields.kind ?_) fun _ => rfl
  refine Yields.succ (Yields.position fun start => Yields.advance ?_) fun _ => rfl
  refine (yields_condition hcond).bind fun _ hfound => ?_
  refine (hyes rest fun _ => hrest).bind fun _ hfound' => ?_
  obtain ⟨cond', rfl, hcond'⟩ := hfound
  obtain ⟨yes', rfl, hyes'⟩ := hfound'
  refine Yields.isAt ?_
  rw [decide_eq_false hrest]
  refine Yields.spanFrom fun span => .pure ⟨_, rfl, ?_⟩
  rw [Stmt.bare, hcond', hyes', Stmt.bare]

theorem yields_ifElse (hcond : cond.Spelt ts) (hyes : ReadsClause (.stmt yes) us)
    (hclosed : yes.isOpen = false) (hno : ReadsClause (.stmt no) vs)
    (hrest : no.isOpen → kindOf rest ≠ .elseWord) : Yields statement
      (.mark .ifWord :: .mark .leftParen :: (ts ++ .mark .rightParen ::
        (us ++ .mark .elseWord :: (vs ++ rest)))) rest
      (Finds Stmt.bare (.ifElse span cond yes no)) := by
  refine Yields.succ (Yields.kind ?_) fun _ => rfl
  refine Yields.succ (Yields.position fun start => Yields.advance ?_) fun _ => rfl
  refine (yields_condition hcond).bind fun _ hfound => ?_
  refine (hyes (.mark .elseWord :: (vs ++ rest)) (by simp [hclosed])).bind fun _ hfound' => ?_
  obtain ⟨cond', rfl, hcond'⟩ := hfound
  obtain ⟨yes', rfl, hyes'⟩ := hfound'
  refine Yields.isAt (Yields.advance ((hno rest hrest).bind fun _ hfound'' => ?_))
  obtain ⟨no', rfl, hno'⟩ := hfound''
  refine Yields.spanFrom fun span => .pure ⟨_, rfl, ?_⟩
  rw [Stmt.bare, hcond', hyes', hno', Stmt.bare]

theorem yields_whileLoop (hcond : cond.Spelt ts) (hbody : ReadsClause (.stmt body) us)
    (hrest : body.isOpen → kindOf rest ≠ .elseWord) : Yields statement
      (.mark .whileWord :: .mark .leftParen :: (ts ++ .mark .rightParen :: (us ++ rest))) rest
      (Finds Stmt.bare (.whileLoop span cond body)) := by
  refine Yields.succ (Yields.kind ?_) fun _ => rfl
  refine Yields.succ (Yields.position fun start => Yields.advance ?_) fun _ => rfl
  refine (yields_condition hcond).bind fun _ hfound => ?_
  refine (hbody rest hrest).bind fun _ hfound' => ?_
  obtain ⟨cond', rfl, hcond'⟩ := hfound
  obtain ⟨body', rfl, hbody'⟩ := hfound'
  refine Yields.spanFrom fun span => .pure ⟨_, rfl, ?_⟩
  rw [Stmt.bare, hcond', hbody', Stmt.bare]

theorem yields_forLoop {first : Option Setup} {cond post : Option Expr} (hfirst : SetupPart first ts)
    (hcond : SpeltOr cond us) (hpost : SpeltOr post vs) (hbody : ReadsClause (.stmt body) ws)
    (hrest : body.isOpen → kindOf rest ≠ .elseWord) : Yields statement
      (.mark .forWord :: .mark .leftParen :: (ts ++ (us ++ .mark .semicolon ::
        (vs ++ .mark .rightParen :: (ws ++ rest))))) rest
      (Finds Stmt.bare (.forLoop span first cond post body)) := by
  refine Yields.succ (Yields.kind ?_) fun _ => rfl
  refine Yields.succ (Yields.position fun start => Yields.advance (Yields.expect rfl ?_)) fun _ => rfl
  refine (yields_setup hfirst).bind fun first' hfirst' => ?_
  refine (yields_optionalBefore hcond rfl rfl).bind fun cond' hcond' => Yields.expect rfl ?_
  refine (yields_optionalBefore hpost rfl rfl).bind fun post' hpost' => Yields.expect rfl ?_
  refine (hbody rest hrest).bind fun _ hfound => ?_
  obtain ⟨body', rfl, hbody'⟩ := hfound
  refine Yields.spanFrom fun span => .pure ⟨_, rfl, ?_⟩
  rw [Stmt.bare, hfirst', hcond', hpost', hbody', Stmt.bare]

end

theorem goes_statement (s : State) (hs : s.Whole) :
    Eventually fun n => s.Goes (statement n State.recover s).2 :=
  ⟨10 * s.left + 7, fun n hn =>
    ((runsStmt Companion.recoveries_self n).statement hs hn hn).goes⟩

theorem yields_statements_cons {st : Stmt} {ss : List Stmt} {us : List Lexeme}
    (hspelt : Clause.Spelt (.stmt st) ts) (hspelts : Clause.Spelt (.stmts ss) us)
    (hst : ReadsClause (.stmt st) ts) (hss : ReadsClause (.stmts ss) us)
    (hrest : kindOf rest = .rightBrace) : Yields statements (ts ++ (us ++ rest)) rest
      fun ss' => bareStmts ss' = bareStmts (st :: ss) := by
  have hne := hspelt.kindOf_ne
  have helse : kindOf (us ++ rest) ≠ .elseWord := by
    cases hspelts with
    | nil => simp [hrest]
    | cons hspelt _ =>
      rw [List.append_assoc, kindOf_append hspelt.kindOf_ne.2]
      exact hspelt.kindOf_ne.1
  have hstart : kindOf (ts ++ (us ++ rest)) = kindOf ts := kindOf_append hne.2
  have hgoing : (decide (kindOf (ts ++ (us ++ rest)) = .rightBrace) ||
      decide (kindOf (ts ++ (us ++ rest)) = .endOfInput)) = false := by
    rw [hstart]
    simp [hspelt.kindOf_ne_rightBrace, hne.2]
  refine Yields.succ (.look (a := false) (fun s hs => ?_) ?_) fun _ => rfl
  · rw [ender_atBlockEnd.looks, hs.kind, hgoing]
  refine (yields_progressing ender_atBlockEnd (hst (us ++ rest) fun _ => helse)
    (ne_nil_of_kindOf hne.2) goes_statement).bind fun _ hfound => ?_
  obtain ⟨st', rfl, hst'⟩ := hfound
  refine (hss rest hrest).bind fun ss' hss' => .pure ?_
  show bareStmts (st' :: ss') = _
  rw [bareStmts, hst', hss', bareStmts]

/-- What is written as a statement or as several is read as it. -/
theorem readsClause {c : Clause} (h : c.Spelt ts) : ReadsClause c ts := by
  induction h with
  | eval hv =>
    intro rest _
    rw [List.append_assoc]
    exact yields_statement_eval hv
  | declare hd => exact fun rest _ => yields_statement_declare hd
  | block _ ih =>
    intro rest _
    simp only [List.cons_append, List.append_assoc, List.nil_append]
    exact yields_blockStatement ih
  | ifThen hcond _ ih =>
    intro rest hrest
    simp only [List.cons_append, List.append_assoc]
    exact yields_ifThen hcond ih (hrest rfl)
  | ifElse hcond _ hclosed _ ih ih' =>
    intro rest hrest
    simp only [List.cons_append, List.append_assoc]
    exact yields_ifElse hcond ih hclosed ih' hrest
  | whileLoop hcond _ ih =>
    intro rest hrest
    simp only [List.cons_append, List.append_assoc]
    exact yields_whileLoop hcond ih hrest
  | forLoop hfirst hcond hpost _ ih =>
    intro rest hrest
    simp only [List.cons_append, List.append_assoc]
    exact yields_forLoop hfirst hcond hpost ih hrest
  | @breakLoop span =>
    intro rest _
    have hjump : Yields (fun _ => jump .breakLoop) _ rest (Finds Stmt.bare (.breakLoop span)) :=
      yields_jump (k := .breakWord) fun _ => rfl
    exact Yields.succ (Yields.kind hjump) fun _ => rfl
  | @continueLoop span =>
    intro rest _
    have hjump : Yields (fun _ => jump .continueLoop) _ rest (Finds Stmt.bare (.continueLoop span)) :=
      yields_jump (k := .continueWord) fun _ => rfl
    exact Yields.succ (Yields.kind hjump) fun _ => rfl
  | returnStmt hvalue =>
    intro rest _
    simp only [List.cons_append, List.append_assoc, List.nil_append]
    exact Yields.succ (Yields.kind (yields_returning hvalue)) fun _ => rfl
  | nil =>
    intro rest hrest
    have hnone : Yields (fun _ => Pure.pure []) rest rest fun ss => bareStmts ss = bareStmts [] :=
      .pure rfl
    refine Yields.succ (.look (a := true) (fun s hs => ?_) hnone) fun _ => rfl
    rw [ender_atBlockEnd.looks, hs.kind, List.nil_append, hrest]
    rfl
  | cons hspelt hspelts ih ih' =>
    intro rest hrest
    rw [List.append_assoc]
    exact yields_statements_cons hspelt hspelts ih ih' hrest

/-! ## Imports and functions -/

theorem yields_qualifiers {parts : List String} (hrest : kindOf rest ≠ .dot) {fuel : Nat}
    (hfuel : parts.length < fuel) : Yields (fun _ => qualifiersWithin fuel)
      ((parts.flatMap fun part => [Lexeme.mark .dot, .ident part]) ++ rest) rest (· = parts) := by
  induction parts generalizing fuel with
  | nil =>
    obtain ⟨fuel, rfl⟩ := Nat.exists_eq_add_one_of_ne_zero (Nat.ne_of_gt hfuel)
    have hnone : Yields (fun _ => Pure.pure []) rest rest (· = ([] : List String)) := .pure rfl
    refine Yields.isAt (Yields.isAhead fun ahead _ => ?_)
    rw [List.flatMap_nil, List.nil_append, decide_eq_false hrest, Bool.false_and]
    exact hnone
  | cons part parts ih =>
    obtain ⟨fuel, rfl⟩ := Nat.exists_eq_add_one_of_ne_zero (Nat.ne_of_gt (Nat.zero_lt_of_lt hfuel))
    refine Yields.isAt (Yields.isAhead fun ahead hahead => ?_)
    rw [hahead _ _ rfl]
    refine Yields.advance (Yields.literal (Yields.advance ?_))
    refine (ih (Nat.lt_of_succ_lt_succ hfuel)).bind fun _ hparts => .pure ?_
    rw [hparts]

theorem yields_qualifiedName (rest : List Lexeme) {path : List String} (hpath : path ≠ [])
    (hrest : kindOf rest ≠ .dot) :
    Yields (fun _ => qualifiedName) (pathLexemes path ++ rest) rest (· = some path) := by
  obtain ⟨name, parts, rfl⟩ := List.exists_cons_of_ne_nil hpath
  refine Yields.isAt (Yields.literal (Yields.advance (Yields.remaining fun s henough => ?_)))
  refine (yields_qualifiers hrest ?_).bind fun _ hparts => .pure (by rw [hparts])
  rw [List.append_eq, List.length_append, List.length_flatMap] at henough
  simp only [List.length_cons, List.length_nil, List.map_const', List.sum_replicate_nat] at henough
  omega

section

variable {α : Type} {item : Reader (Option α)} {P : α → List Lexeme → Prop} {bare : α → α}
  (hstart : ∀ {a ts}, P a ts → kindOf ts = .identifier)
  (hitem : ∀ {a ts rest}, P a ts → kindOf rest = .comma ∨ kindOf rest = .rightParen →
    Yields (fun _ => item) (ts ++ rest) rest (Finds bare a))

include hstart hitem

theorem yields_itemsWithin {as : List α} (h : Listed P as ts) (hrest : kindOf rest = .rightParen)
    {fuel : Nat} (hfuel : ts.length < fuel) : Yields (fun _ => itemsWithin item fuel) (ts ++ rest) rest
      fun o => ∃ as', o = some as' ∧ as'.map bare = as.map bare := by
  induction h generalizing fuel with
  | nil =>
    obtain ⟨fuel, rfl⟩ := Nat.exists_eq_add_one_of_ne_zero (Nat.ne_of_gt hfuel)
    have hnone : Yields (fun _ => Pure.pure (some [])) rest rest
        fun o => ∃ as', o = some as' ∧ as'.map bare = ([] : List α).map bare := .pure ⟨[], rfl, rfl⟩
    refine Yields.isAt (Yields.isAt ?_)
    rw [List.nil_append, hrest]
    exact hnone
  | @last a ts ha =>
    obtain ⟨fuel, rfl⟩ := Nat.exists_eq_add_one_of_ne_zero (Nat.ne_of_gt (Nat.zero_lt_of_lt hfuel))
    refine Yields.isAt (Yields.isAt ?_)
    rw [kindOf_append (by rw [hstart ha]; decide), hstart ha]
    refine (hitem ha (.inr hrest)).bind fun _ hfound => ?_
    obtain ⟨a', rfl, ha'⟩ := hfound
    refine Yields.isAt ?_
    rw [hrest]
    exact .pure ⟨[a'], rfl, by simp [ha']⟩
  | @cons a as ts us ha _ ih =>
    obtain ⟨fuel, rfl⟩ := Nat.exists_eq_add_one_of_ne_zero (Nat.ne_of_gt (Nat.zero_lt_of_lt hfuel))
    rw [List.length_append, List.length_cons] at hfuel
    rw [List.append_assoc, List.cons_append]
    refine Yields.isAt (Yields.isAt ?_)
    rw [kindOf_append (by rw [hstart ha]; decide), hstart ha]
    refine (hitem ha (.inl rfl)).bind fun _ hfound => ?_
    obtain ⟨a', rfl, ha'⟩ := hfound
    refine Yields.isAt (Yields.advance ?_)
    refine ((ih (by omega)).bind fun _ hfound' => ?_)
    obtain ⟨as', rfl, has'⟩ := hfound'
    exact .pure ⟨a' :: as', rfl, by simp [ha', has']⟩

theorem yields_parenthesized {as : List α} (h : Listed P as ts) :
    Yields (fun _ => parenthesized item) (ts ++ .mark .rightParen :: rest) rest
      fun o => ∃ as', o = some as' ∧ as'.map bare = as.map bare := by
  refine Yields.remaining fun s henough => ?_
  have hlt : ts.length < s.remaining := by
    rw [List.length_append] at henough
    omega
  refine (yields_itemsWithin hstart hitem h rfl hlt).bind fun _ hfound => ?_
  obtain ⟨as', rfl, has'⟩ := hfound
  exact Yields.expect rfl (.pure ⟨as', rfl, has'⟩)

end

/-- Types in parentheses. -/
theorem yields_types {types : List TypeName} (h : Listed (fun t us => us = t.lexemes) types ts) :
    Yields (fun _ => parenthesized typeName) (ts ++ .mark .rightParen :: rest) rest
      fun o => ∃ types', o = some types' ∧ types'.map TypeName.bare = types.map TypeName.bare := by
  refine yields_parenthesized ?_ ?_ h
  · rintro type _ rfl
    rfl
  · rintro type _ rest rfl hrest
    refine yields_typeName (noBrackets_of_ne ?_)
    obtain hrest | hrest := hrest <;> simp [hrest]

theorem yields_importDecl {i : Import} (h : i.Spelt ts) :
    Yields (fun _ => importDecl) (ts ++ rest) rest (Finds Import.bare i) := by
  cases h with
  | @plain span path hpath =>
    simp only [List.cons_append, List.append_assoc, List.nil_append]
    refine Yields.position fun start => Yields.advance ?_
    refine (yields_qualifiedName (.mark .semicolon :: rest) hpath nofun).bind fun _ hfound => ?_
    subst hfound
    exact Yields.isAt (Yields.expect rfl (Yields.spanFrom fun span => .pure ⟨_, rfl, rfl⟩))
  | @overload span path params result? us hpath hparams =>
    simp only [List.cons_append, List.append_assoc, List.nil_append]
    refine Yields.position fun start => Yields.advance ?_
    refine (yields_qualifiedName (.mark .leftParen :: _) hpath nofun).bind fun _ hfound => ?_
    subst hfound
    refine Yields.isAt (Yields.advance ((yields_types hparams).bind fun _ hfound => ?_))
    obtain ⟨params', rfl, hparams'⟩ := hfound
    refine (yields_optionalType (.mark .semicolon :: rest) nofun (noBrackets_of_ne nofun)).bind ?_
    refine fun result?' hresult => Yields.expect rfl (Yields.spanFrom fun span => .pure ⟨_, rfl, ?_⟩)
    rw [Import.bare, hparams', hresult]
    rfl

theorem yields_param {p : Param} (hrest : NoBrackets rest) :
    Yields (fun _ => param) (p.lexemes ++ rest) rest (Finds Param.bare p) := by
  refine Yields.position fun start => Yields.isAt (Yields.literal (Yields.advance ?_))
  refine Yields.expect rfl ((yields_typeName hrest).bind fun _ hfound => ?_)
  obtain ⟨type', rfl, htype⟩ := hfound
  refine Yields.spanFrom fun span => .pure ⟨_, rfl, ?_⟩
  rw [Param.bare, htype]
  rfl

theorem yields_signature (rest : List Lexeme) {params : List Param} {result? : Option TypeName}
    (h : Listed (fun p vs => vs = p.lexemes) params ts) (hrest : kindOf rest = .leftBrace) :
    Yields (fun _ => signature)
      (.mark .leftParen :: (ts ++ .mark .rightParen :: (typePart result? ++ rest))) rest
      fun o => ∃ params' result?', o = some (params', result?') ∧
        params'.map Param.bare = params.map Param.bare ∧
        result?'.map TypeName.bare = result?.map TypeName.bare := by
  have hparams : Yields (fun _ => parenthesized param)
      (ts ++ .mark .rightParen :: (typePart result? ++ rest)) (typePart result? ++ rest)
      fun o => ∃ params', o = some params' ∧ params'.map Param.bare = params.map Param.bare := by
    refine yields_parenthesized ?_ ?_ h
    · rintro p _ rfl
      rfl
    · rintro p _ rest rfl hrest
      refine yields_param (noBrackets_of_ne ?_)
      obtain hrest | hrest := hrest <;> simp [hrest]
  refine Yields.expect rfl (hparams.bind fun _ hfound => ?_)
  obtain ⟨params', rfl, hparams'⟩ := hfound
  refine (yields_optionalType _ ?_ (noBrackets_of_ne ?_)).bind fun result?' hresult => Yields.isAt ?_
  · simp [hrest]
  · simp [hrest]
  rw [hrest]
  exact .pure ⟨params', result?', rfl, hparams', hresult⟩

theorem yields_function {f : Function} (h : f.Spelt ts) :
    Yields function (ts ++ rest) rest (Finds Function.bare f) := by
  cases h with
  | @mk span bodySpan name params result? body us vs hparams hbody =>
    simp only [List.cons_append, List.append_assoc, List.nil_append]
    refine Yields.position fun start => Yields.advance (Yields.isAt (Yields.literal (Yields.advance ?_)))
    refine (yields_signature (.mark .leftBrace :: _) hparams rfl).bind fun _ hfound => ?_
    obtain ⟨params', result?', rfl, hparams', hresult⟩ := hfound
    refine (yields_block (readsClause hbody)).bind fun body' hbody' => ?_
    refine Yields.spanFrom fun span => .pure ⟨_, rfl, ?_⟩
    rw [Function.bare, hparams', hresult, hbody']
    rfl

/-! ## Source files -/

theorem yields_item {i : Item} (h : i.Spelt ts) (hrest : kindOf rest ≠ .elseWord) :
    Yields item (ts ++ rest) rest (Finds Item.bare i) := by
  have hmap : ∀ {α : Type} {m : Nat → Reader (Option α)} {f : α → Item} {bare : α → α} {a : α},
      Yields m (ts ++ rest) rest (Finds bare a) →
      (∀ a', bare a' = bare a → (f a').bare = (f a).bare) →
      Yields (fun n => do return (← m n).map f) (ts ++ rest) rest (Finds Item.bare (f a)) := by
    intro α m f bare a hm hf
    refine hm.bind fun _ hfound => .pure ?_
    obtain ⟨a', rfl, ha'⟩ := hfound
    exact ⟨f a', rfl, hf a' ha'⟩
  refine Yields.kind ?_
  cases h with
  | @«import» i _ hi =>
    have hkind : kindOf (ts ++ rest) = .importWord := by cases hi <;> rfl
    rw [hkind]
    exact hmap (yields_importDecl hi) fun _ h => congrArg Item.import h
  | @global d _ hd =>
    have hglobal := hmap (yields_declaration hd) (f := .global) fun _ h =>
      congrArg Item.global h
    obtain hkind | hkind := hd.kindOf rest <;>
    · rw [hkind]
      exact hglobal
  | @function f _ hf =>
    have hkind : kindOf (ts ++ rest) = .funcWord := by cases hf; rfl
    rw [hkind]
    exact hmap (yields_function hf) fun _ h => congrArg Item.function h
  | @statement st _ hst hne =>
    have hstatement := hmap (readsClause hst rest fun _ => hrest) (f := .statement) fun _ h =>
      congrArg Item.statement h
    have hopens := hst.opens hne rest
    generalize kindOf (ts ++ rest) = k at hopens
    cases k <;> first | exact hstatement | cases hopens

theorem goes_item (s : State) (hs : s.Whole) :
    Eventually fun n => s.Goes (item n State.recover s).2 :=
  ⟨10 * s.left + 7, fun _ hn => (runs_item Companion.recoveries_self hs hn hn).goes⟩

theorem Item.Spelt.kindOf_ne {i : Item} (h : i.Spelt ts) : kindOf ts ≠ .endOfInput := by
  cases h with
  | «import» hi => cases hi <;> exact nofun
  | global hd =>
    rw [← List.append_nil ts]
    obtain hkind | hkind := hd.kindOf [] <;> simp only [hkind] <;> decide
  | function hf => cases hf; exact nofun
  | statement hst _ => exact hst.kindOf_ne.2

/-- What is written as the parts of a source file is read as them. -/
theorem yields_items {is : List Item} (h : ItemsSpelt is ts) :
    Yields items ts [] fun is' => is'.map Item.bare = is.map Item.bare := by
  induction h with
  | nil =>
    have hnone : Yields (fun _ => Pure.pure []) [] []
        fun is' => is'.map Item.bare = ([] : List Item).map Item.bare := .pure rfl
    exact Yields.succ (Yields.isAt hnone) fun _ => rfl
  | @cons i is ts us hi his ih =>
    have hne := hi.kindOf_ne
    refine Yields.succ (Yields.isAt ?_) fun _ => rfl
    rw [kindOf_append hne, decide_eq_false hne]
    refine (yields_progressing ender_at (yields_item hi his.kindOf_ne) (ne_nil_of_kindOf hne)
      goes_item).bind fun _ hfound => ?_
    obtain ⟨i', rfl, hi'⟩ := hfound
    refine ih.bind fun is' his' => .pure ?_
    show (i' :: is').map Item.bare = _
    rw [List.map_cons, hi', his', List.map_cons]

end

end Reader
end Parsed
end TypedScript
