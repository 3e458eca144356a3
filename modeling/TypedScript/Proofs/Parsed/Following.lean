import TypedScript.Proofs.Parsed.Companion

/-!
# All readers are followed

Every reader of the grammar is followed by its companions: expressions up to where the run is stuck, and
what ends with a semicolon or a brace as a whole.
-/

namespace TypedScript
namespace Parsed
namespace Companion

open Reader

variable {c : Companion} {s : State} {s'? : Option State} {l₀ : Prop}

theorem follows_terminate (hs : s.Whole) (h : c.Tracks l₀ s s'?) :
    c.Follows False id terminate terminate s s'? := by
  have hexpect : c.Follows False id (expect .semicolon) (expect .semicolon) s s'? :=
    (follows_expect (by decide) hs h).loosen fun h => h.1 rfl
  refine hexpect.bind fun b t t'? hrun ht _ h => ?_
  cases b with
  | true => exact .pure ht h rfl
  | false =>
    have hruns : Runs State.recover State.recover _ _ s _ :=
      runs_expect (by decide : Token.Kind.semicolon ≠ .endOfInput ∧ _) hs
    have hfound := hruns.result
    rw [hrun] at hfound
    exact follows_recover ht (by rintro h; simp [Found, h] at hfound) h

theorem follows_ranksWithin (fuel : Nat) (hs : s.Whole) (h : c.Tracks True s s'?) :
    c.Follows True id (ranksWithin fuel) (ranksWithin fuel) s s'? := by
  induction fuel generalizing s s'? with
  | zero => exact .pure hs h rfl
  | succ fuel ih =>
    refine follows_at h fun s'? h => ?_
    by_cases hopen : s.current.kind = .leftBracket
    · refine follows_ahead h (by simp [hopen]) (by simp [hopen]) (by simp [hopen]) fun s'? h => ?_
      split
      · next hboth =>
        simp only [Bool.and_eq_true, decide_eq_true_eq] at hboth
        refine .advance hs (by simp [hopen]) h fun hstep _ _ h => ?_
        have hkind : s.step.current.kind = .rightBracket := hboth.2
        refine .advance hstep (by simp [hkind]) h fun hstep' _ _ h => ?_
        exact (ih hstep' h).bind fun rank t t'? _ ht _ h => .pure ht h rfl
      · exact .pure hs h rfl
    · rw [decide_eq_false hopen]
      exact .pure hs h rfl

/-- How far the companion could read makes no difference. -/
theorem follows_ranks (hs : s.Whole) (h : c.Tracks True s s'?) :
    c.Follows True id ranks ranks s s'? := by
  have hfuel : ∀ {t : State} {fuel : Nat}, t.Whole → t.remaining ≤ fuel →
      ranks State.recover t = ranksWithin fuel State.recover t := fun ht hle =>
    have hruns : Runs State.recover State.recover _ _ _ _ :=
      runs_ranksWithin ht ht.left_lt (Nat.lt_of_lt_of_le ht.left_lt hle)
    hruns.same.symm
  let fuel := s.remaining + (s'?.elim 0 State.remaining)
  refine (follows_ranksWithin fuel hs h).congr (hfuel hs (Nat.le_add_right _ _)) ?_
  rintro s' rfl hcounts
  exact hfuel (c.whole hs hcounts (h hcounts)) (Nat.le_add_left _ _)

theorem follows_typeName (hs : s.Whole) (h : c.Tracks True s s'?) :
    c.Follows True (Option.map (TypeName.moved c.move)) typeName typeName s s'? := by
  refine follows_position h fun s'? h => follows_at h fun s'? h => ?_
  split
  · next hname =>
    rw [decide_eq_true_eq] at hname
    refine follows_literal h fun s'? h => .advance hs (by simp [hname]) h fun hstep _ s'? h => ?_
    refine (follows_ranks hstep h).bind fun rank t t'? _ ht _ h => ?_
    exact follows_spanFrom h fun _ h => .pure ht h rfl
  · exact (follows_reportExpected hs h _).bind fun _ t t'? _ ht _ h => .pure ht h rfl

theorem follows_optionalType (hs : s.Whole) (h : c.Tracks True s s'?) :
    c.Follows True (Option.map (TypeName.moved c.move)) optionalType optionalType s s'? := by
  refine follows_at h fun s'? h => ?_
  split
  · next hcolon =>
    rw [decide_eq_true_eq] at hcolon
    exact .advance hs (by simp [hcolon]) h fun hstep _ _ h => follows_typeName hstep h
  · exact .pure hs h rfl

/-- A mistake noted on the way. -/
theorem follows_noting {β : Type} {out : β → β} {l l₁ : Prop} {b : Bool} {note note' : Reader Unit}
    {m m' : Reader β} (hs : s.Whole) (hnote : ∀ s'?, c.Tracks l₀ s s'? → c.Follows l₁ id note note' s s'?)
    (h : c.Tracks l₀ s s'?) (hl : l₀ → l₁)
    (hm : ∀ t t'?, t.Whole → s.Goes t → c.Tracks l₁ t t'? → c.Follows l out m m' t t'?) :
    let noted : Reader β := do
      if b then note
      m
    let noted' : Reader β := do
      if b then note'
      m'
    c.Follows l out noted noted' s s'? := by
  dsimp only
  split
  · exact (hnote s'? h).bind fun _ t t'? _ ht hgoes h => hm t t'? ht hgoes h
  · exact hm s s'? hs (.refl hs) (h.loosen hl)

theorem follows_literalExpr (hs : s.Whole) (hend : s.current.kind ≠ .endOfInput)
    (h : c.Tracks True s s'?) :
    c.Follows True (Option.map (Expr.moved c.move)) (literalExpr s.current)
      (literalExpr (s.current.moved c.move)) s s'? := by
  refine .advance hs hend h fun hstep _ s'? h => follows_spanFrom h fun s'? h => ?_
  dsimp only [Token.moved]
  split
  · exact follows_noting hstep (fun _ h => follows_reportAt hstep h _ _) h id
      fun t t'? ht _ h => .pure ht h rfl
  · exact follows_noting hstep (fun _ h => follows_reportAt hstep h _ _) h id
      fun t t'? ht _ h => .pure ht h rfl
  all_goals exact .pure hstep h rfl

/-- What the readers of expressions find is what their companions find. -/
structure FollowsExpr (c : Companion) (fuel : Nat) : Prop where
  expression : ∀ {s s'?}, s.Whole → c.Tracks True s s'? →
    c.Follows True (Option.map (Expr.moved c.move)) (expression fuel) (expression fuel) s s'?
  binary : ∀ {s s'?} level, s.Whole → c.Tracks True s s'? →
    c.Follows True (Option.map (Expr.moved c.move)) (binary fuel level) (binary fuel level) s s'?
  binaryTail : ∀ {s s'?} level start left, s.Whole → c.Tracks True s s'? →
    c.Follows True (Option.map (Expr.moved c.move)) (binaryTail fuel level start left)
      (binaryTail fuel level (c.move.start start) (left.moved c.move)) s s'?
  unary : ∀ {s s'?}, s.Whole → c.Tracks True s s'? →
    c.Follows True (Option.map (Expr.moved c.move)) (unary fuel) (unary fuel) s s'?
  postfixed : ∀ {s s'?}, s.Whole → c.Tracks True s s'? →
    c.Follows True (Option.map (Expr.moved c.move)) (postfixed fuel) (postfixed fuel) s s'?
  postfixedTail : ∀ {s s'?} start head, s.Whole → c.Tracks True s s'? →
    c.Follows True (Option.map (Expr.moved c.move)) (postfixedTail fuel start head)
      (postfixedTail fuel (c.move.start start) (head.moved c.move)) s s'?
  arguments : ∀ {s s'?}, s.Whole → c.Tracks True s s'? →
    c.Follows True (Option.map (movedAll c.move)) (arguments fuel) (arguments fuel) s s'?
  primary : ∀ {s s'?}, s.Whole → c.Tracks True s s'? →
    c.Follows True (Option.map (Expr.moved c.move)) (primary fuel) (primary fuel) s s'?
  newArray : ∀ {s s'?}, s.Whole → s.current.kind = .newWord → c.Tracks True s s'? →
    c.Follows True (Option.map (Expr.moved c.move)) (newArray fuel) (newArray fuel) s s'?

theorem followsExpr_zero : FollowsExpr c 0 where
  expression hs h := .pure hs h rfl
  binary _ hs h := .pure hs h rfl
  binaryTail _ _ _ hs h := .pure hs h rfl
  unary hs h := .pure hs h rfl
  postfixed hs h := .pure hs h rfl
  postfixedTail _ _ hs h := .pure hs h rfl
  arguments hs h := .pure hs h rfl
  primary hs h := .pure hs h rfl
  newArray hs _ h := .pure hs h rfl

namespace FollowsExpr

variable {fuel : Nat} (ih : FollowsExpr c fuel) (hs : s.Whole) (h : c.Tracks True s s'?)

include ih hs h

theorem expression_succ : c.Follows True (Option.map (Expr.moved c.move)) (Reader.expression (fuel + 1))
    (Reader.expression (fuel + 1)) s s'? := by
  refine follows_position h fun s'? h => .optional (ih.binary 1 hs h) rfl rfl ?_
  intro left t t'? _ ht _ h
  refine follows_kind h fun t'? h => ?_
  split
  · exact .pure ht h rfl
  · next op hop =>
    obtain ⟨hend, -⟩ := reads_operator ht (by decide) hop
    refine .advance ht hend h fun hstep _ t'? h => .optional (ih.expression hstep h) rfl rfl ?_
    exact fun value u u'? _ hu _ h => follows_spanFrom h fun _ h => .pure hu h rfl

theorem binary_succ (level : Nat) : c.Follows True (Option.map (Expr.moved c.move))
    (Reader.binary (fuel + 1) level) (Reader.binary (fuel + 1) level) s s'? := by
  refine follows_position h fun s'? h => .optional (ih.unary hs h) rfl rfl ?_
  exact fun left t t'? _ ht _ h => ih.binaryTail level _ left ht h

theorem binaryTail_succ (level : Nat) (start : Position) (left : Expr) :
    c.Follows True (Option.map (Expr.moved c.move)) (Reader.binaryTail (fuel + 1) level start left)
      (Reader.binaryTail (fuel + 1) level (c.move.start start) (left.moved c.move)) s s'? := by
  refine follows_kind h fun s'? h => ?_
  split
  · exact .pure hs h rfl
  · next op hop =>
    split
    · exact .pure hs h rfl
    · obtain ⟨hend, -⟩ := reads_operator hs (by decide) hop
      refine .advance hs hend h fun hstep _ s'? h => .optional (ih.binary _ hstep h) rfl rfl ?_
      intro right t t'? _ ht _ h
      exact follows_spanFrom h fun _ h => ih.binaryTail level start (.binary _ op left right) ht h

theorem unary_succ : c.Follows True (Option.map (Expr.moved c.move)) (Reader.unary (fuel + 1))
    (Reader.unary (fuel + 1)) s s'? := by
  refine follows_kind h fun s'? h => ?_
  split
  · exact ih.postfixed hs h
  · next op hop =>
    obtain ⟨hend, -⟩ := reads_operator hs (by decide) hop
    refine follows_position h fun s'? h => .advance hs hend h fun hstep _ s'? h => ?_
    refine .optional (ih.unary hstep h) rfl rfl fun operand t t'? _ ht _ h => ?_
    exact follows_spanFrom h fun _ h => .pure ht h rfl

theorem postfixed_succ : c.Follows True (Option.map (Expr.moved c.move)) (Reader.postfixed (fuel + 1))
    (Reader.postfixed (fuel + 1)) s s'? := by
  refine follows_position h fun s'? h => .optional (ih.primary hs h) rfl rfl ?_
  exact fun head t t'? _ ht _ h => ih.postfixedTail _ head ht h

theorem postfixedTail_succ (start : Position) (head : Expr) :
    c.Follows True (Option.map (Expr.moved c.move)) (Reader.postfixedTail (fuel + 1) start head)
      (Reader.postfixedTail (fuel + 1) (c.move.start start) (head.moved c.move)) s s'? := by
  refine follows_kind h fun s'? h => ?_
  split
  · next hkind =>
    refine .advance hs (by simp [hkind]) h fun hstep _ s'? h => ?_
    refine .optional (ih.arguments hstep h) rfl rfl fun args t t'? _ ht _ h => ?_
    refine ((follows_expect (by decide) ht h).loosen fun _ => trivial).bind fun b u u'? _ hu _ h => ?_
    dsimp only [id]
    split
    · exact .pure hu h rfl
    · exact follows_spanFrom h fun _ h => ih.postfixedTail start (.call _ head args) hu h
  · next hkind =>
    refine .advance hs (by simp [hkind]) h fun hstep _ s'? h => ?_
    refine .optional (ih.expression hstep h) rfl rfl fun index t t'? _ ht _ h => ?_
    refine ((follows_expect (by decide) ht h).loosen fun _ => trivial).bind fun b u u'? _ hu _ h => ?_
    dsimp only [id]
    split
    · exact .pure hu h rfl
    · exact follows_spanFrom h fun _ h => ih.postfixedTail start (.index _ head index) hu h
  · next hkind =>
    refine .advance hs (by simp [hkind]) h fun hstep _ s'? h => follows_at h fun s'? h => ?_
    split
    · next hname =>
      rw [decide_eq_true_eq] at hname
      refine follows_literal h fun s'? h => .advance hstep (by simp [hname]) h fun hstep' _ s'? h => ?_
      exact follows_spanFrom h fun _ h => ih.postfixedTail start (.member _ head _) hstep' h
    · exact (follows_reportExpected hstep h _).bind fun _ t t'? _ ht _ h => .pure ht h rfl
  · next hkind =>
    refine .advance hs (by simp [hkind]) h fun hstep _ s'? h => ?_
    refine .optional (follows_typeName hstep h) rfl rfl fun type t t'? _ ht _ h => ?_
    exact follows_spanFrom h fun _ h => ih.postfixedTail start (.cast _ head type) ht h
  · exact .pure hs h rfl

theorem arguments_succ : c.Follows True (Option.map (movedAll c.move)) (Reader.arguments (fuel + 1))
    (Reader.arguments (fuel + 1)) s s'? := by
  refine follows_at h fun s'? h => follows_at h fun s'? h => ?_
  split
  · exact .pure hs h rfl
  · refine (ih.expression hs h).bind fun arg? t t'? _ ht _ h => ?_
    cases arg? with
    | none => exact .pure ht h rfl
    | some arg =>
      refine follows_at h fun t'? h => ?_
      split
      · next hcomma =>
        rw [decide_eq_true_eq] at hcomma
        refine .advance ht (by simp [hcomma]) h fun hstep _ t'? h => ?_
        exact .optional (ih.arguments hstep h) rfl rfl fun args u u'? _ hu _ h => .pure hu h rfl
      · exact .pure ht h rfl

theorem primary_succ : c.Follows True (Option.map (Expr.moved c.move)) (Reader.primary (fuel + 1))
    (Reader.primary (fuel + 1)) s s'? := by
  refine follows_get h fun s'? h s₁ hcurrent => ?_
  dsimp only
  rw [hcurrent]
  dsimp only [Token.moved]
  split
  case h_8 hkind => exact ih.newArray hs hkind h
  case h_9 hkind =>
    refine .advance hs (by simp [hkind]) h fun hstep _ s'? h => ?_
    refine .optional (ih.expression hstep h) rfl rfl fun e t t'? _ ht _ h => ?_
    refine ((follows_expect (by decide) ht h).loosen fun _ => trivial).bind fun b u u'? _ hu _ h => ?_
    dsimp only [id]
    split
    · exact .pure hu h rfl
    · exact .pure hu h rfl
  case h_10 =>
    exact (follows_report hs h (.unexpected s.current)).bind fun _ t t'? _ ht _ h => .pure ht h rfl
  all_goals exact follows_literalExpr hs (by simp [*]) h

theorem newArray_succ (hkind : s.current.kind = .newWord) :
    c.Follows True (Option.map (Expr.moved c.move)) (Reader.newArray (fuel + 1))
      (Reader.newArray (fuel + 1)) s s'? := by
  refine follows_position h fun s'? h => .advance hs (by simp [hkind]) h fun hstep _ s'? h => ?_
  refine follows_get h fun s'? h s₁ hcurrent => ?_
  dsimp only
  rw [hcurrent]
  dsimp only [Token.moved]
  by_cases hname : s.step.current.kind = .identifier
  · simp only [hname, if_true]
    refine .advance hstep (by simp [hname]) h fun hstep' _ s'? h => ?_
    refine ((follows_expect (by decide) hstep' h).loosen fun _ => trivial).bind ?_
    intro b t t'? _ ht _ h
    dsimp only [id]
    split
    · exact .pure ht h rfl
    refine .optional (ih.expression ht h) rfl rfl fun size u u'? _ hu _ h => ?_
    refine ((follows_expect (by decide) hu h).loosen fun _ => trivial).bind fun b v v'? _ hv _ h => ?_
    dsimp only [id]
    split
    · exact .pure hv h rfl
    refine (follows_ranks hv h).bind fun rank w w'? _ hw _ h => ?_
    exact follows_spanFrom h fun _ h => .pure hw h rfl
  · simp only [hname, if_false]
    exact (follows_reportExpected hstep h _).bind fun _ t t'? _ ht _ h => .pure ht h rfl

end FollowsExpr

theorem followsExpr (c : Companion) (fuel : Nat) : FollowsExpr c fuel := by
  induction fuel with
  | zero => exact followsExpr_zero
  | succ fuel ih =>
    exact ⟨ih.expression_succ, fun level hs h => ih.binary_succ hs h level,
      fun level start left hs h => ih.binaryTail_succ hs h level start left, ih.unary_succ,
      ih.postfixed_succ, fun start head hs h => ih.postfixedTail_succ hs h start head,
      ih.arguments_succ, ih.primary_succ, fun hs hkind h => ih.newArray_succ hs h hkind⟩

theorem errors_ne_of_lt {t : State} (h : s.errors.size < t.errors.size) : t.errors ≠ #[] := by
  rintro heq
  simp [heq] at h

section

variable {α : Type} {out : α → α} {l : Prop}

/-- Where a mistake is recorded, both runs give up. -/
theorem follows_abandon (hs : s.Whole) (herrors : s.errors ≠ #[]) (h : c.Tracks l₀ s s'?) :
    let abandon : Reader (Option α) := do
      recover
      return none
    c.Follows False (Option.map out) abandon abandon s s'? :=
  (follows_recover (l := False) hs herrors h).bind fun _ _ _ _ ht _ h => .pure ht h rfl

theorem follows_missing (hs : s.Whole) (what : Expectation) (h : c.Tracks l₀ s s'?) :
    let missing : Reader (Option α) := do
      reportExpected what
      recover
      return none
    c.Follows False (Option.map out) missing missing s s'? := by
  refine (follows_reportExpected (l := False) hs h what).bind fun _ t t'? hrun ht _ h => ?_
  have hruns : Runs State.recover State.recover (reportExpected what) _ s _ := runs_reportExpected hs
  have hreported := hruns.result
  rw [hrun] at hreported
  exact follows_abandon ht (errors_ne_of_lt hreported.2.2) h

end

theorem follows_declared (start : Position) (name : String) (isConst : Bool) (type? : Option TypeName)
    (init? : Option Expr) (hs : s.Whole) (h : c.Tracks True s s'?) :
    let declared (start : Position) (type? : Option TypeName) (init? : Option Expr) :
        Reader (Option Declaration) := do
      if type?.isNone && init?.isNone then report (.untypedDeclaration name)
      if isConst && init?.isNone then report (.uninitializedConstant name)
      terminate
      return some (Declaration.mk (← spanFrom start) name isConst type? init?)
    c.Follows False (Option.map (Declaration.moved c.move)) (declared start type? init?)
      (declared (c.move.start start) (type?.map (TypeName.moved c.move))
        (init?.map (Expr.moved c.move))) s s'? := by
  dsimp only
  rw [Option.isNone_map, Option.isNone_map]
  refine follows_noting hs (fun _ h => follows_report hs h (.untypedDeclaration name)) h id ?_
  intro t t'? ht _ h
  refine follows_noting ht (fun _ h => follows_report ht h (.uninitializedConstant name)) h id ?_
  intro u u'? hu _ h
  refine (follows_terminate hu h).bind fun _ v v'? _ hv _ h => ?_
  exact follows_spanFrom h fun _ h => .pure hv h rfl

theorem follows_declaration (fuel : Nat) (hs : s.Whole) (hend : s.current.kind ≠ .endOfInput)
    (h : c.Tracks True s s'?) : c.Follows False (Option.map (Declaration.moved c.move))
      (declaration fuel) (declaration fuel) s s'? := by
  refine follows_position h fun s'? h => follows_at h fun s'? h => ?_
  refine .advance hs hend h fun hstep _ s'? h => follows_at h fun s'? h => ?_
  split
  · next hname =>
    rw [decide_eq_true_eq] at hname
    refine follows_literal h fun s'? h => .advance hstep (by simp [hname]) h fun hstep' _ s'? h => ?_
    refine (follows_optionalType hstep' h).bind fun type? t t'? _ ht _ h => follows_at h fun t'? h => ?_
    dsimp only
    split
    · next hassign =>
      rw [decide_eq_true_eq] at hassign
      refine .advance ht (by simp [hassign]) h fun htstep _ t'? h => ?_
      refine ((followsExpr c fuel).expression htstep h).bind fun init? u u'? _ hu _ h => ?_
      exact follows_declared _ _ _ type? init? hu h
    · exact follows_declared _ _ _ type? none ht h
  · exact follows_missing hstep _ h

theorem follows_condition (fuel : Nat) (hs : s.Whole) (h : c.Tracks True s s'?) :
    c.Follows True (Option.map (Expr.moved c.move)) (condition fuel) (condition fuel) s s'? := by
  refine ((follows_expect (by decide) hs h).loosen fun _ => trivial).bind fun b t t'? _ ht _ h => ?_
  dsimp only [id]
  split
  · refine ((followsExpr c fuel).expression ht h).bind fun cond u u'? _ hu _ h => ?_
    refine ((follows_expect (by decide) hu h).loosen fun _ => trivial).bind ?_
    exact fun _ v v'? _ hv _ h => .pure hv h rfl
  · exact .pure ht h rfl

theorem follows_setup (fuel : Nat) (hs : s.Whole) (h : c.Tracks True s s'?) :
    c.Follows True (Option.map (Setup.moved c.move)) (setup fuel) (setup fuel) s s'? := by
  have hdeclare (hend : s.current.kind ≠ .endOfInput) : ∀ s'?, c.Tracks True s s'? →
      c.Follows True (Option.map (Setup.moved c.move))
        (do return (← declaration fuel).map Setup.declare)
        (do return (← declaration fuel).map Setup.declare) s s'? := fun s'? h => by
    refine (follows_declaration fuel hs hend h).bind fun d t t'? _ ht _ h => ?_
    exact .pure ht (h.loosen False.elim) (by cases d <;> rfl)
  refine follows_kind h fun s'? h => ?_
  split
  · exact hdeclare (by simp [*]) _ h
  · exact hdeclare (by simp [*]) _ h
  · exact .advance hs (by simp [*]) h fun hstep _ _ h => .pure hstep h rfl
  · refine follows_position h fun s'? h => ?_
    refine ((followsExpr c fuel).expression hs h).bind fun e t t'? _ ht _ h => ?_
    refine follows_spanFrom h fun t'? h => ?_
    refine ((follows_expect (by decide) ht h).loosen fun _ => trivial).bind ?_
    exact fun _ u u'? _ hu _ h => .pure hu h (by cases e <;> rfl)

theorem follows_optionalBefore (stop : Token.Kind) (fuel : Nat) (hs : s.Whole)
    (h : c.Tracks True s s'?) : c.Follows True (Option.map (Expr.moved c.move))
      (optionalBefore stop fuel) (optionalBefore stop fuel) s s'? := by
  refine follows_at h fun s'? h => ?_
  split
  · exact .pure hs h rfl
  · exact (followsExpr c fuel).expression hs h

theorem follows_evaluation {fuel : Nat} (hs : s.Whole) (hfuel : 10 * s.left + 6 ≤ fuel)
    (h : c.Tracks True s s'?) : c.Follows False (Option.map (Stmt.moved c.move)) (evaluation fuel)
      (evaluation fuel) s s'? := by
  refine follows_position h fun s'? h => ?_
  refine ((followsExpr c fuel).expression hs h).bind fun e t t'? hrun ht _ h => ?_
  cases e with
  | none =>
    have hends := ((runsExpr State.recover State.recover fuel).expression hs hfuel hfuel).result
    rw [hrun] at hends
    exact follows_abandon ht (errors_ne_of_lt hends) h
  | some e =>
    refine (follows_terminate ht h).bind fun _ u u'? _ hu _ h => ?_
    exact follows_spanFrom h fun _ h => .pure hu h rfl

theorem follows_jump {make : Span → Stmt} (hs : s.Whole) (hend : s.current.kind ≠ .endOfInput)
    (hmake : ∀ span, (make span).moved c.move = make (span.moved c.move)) (h : c.Tracks True s s'?) :
    c.Follows False (Option.map (Stmt.moved c.move)) (jump make) (jump make) s s'? := by
  refine follows_position h fun s'? h => .advance hs hend h fun hstep _ s'? h => ?_
  refine ((follows_expect (by decide) hstep h).loosen fun h => h.1 rfl).bind (k := False) ?_
  intro _ t t'? _ ht _ h
  exact follows_spanFrom h fun _ h => .pure ht h (by rw [Option.map_some, hmake])

theorem follows_returning (fuel : Nat) (hs : s.Whole) (hend : s.current.kind ≠ .endOfInput)
    (h : c.Tracks True s s'?) : c.Follows False (Option.map (Stmt.moved c.move)) (returning fuel)
      (returning fuel) s s'? := by
  refine follows_position h fun s'? h => .advance hs hend h fun hstep _ s'? h => ?_
  refine (follows_optionalBefore _ fuel hstep h).bind fun value t t'? _ ht _ h => ?_
  refine (follows_terminate ht h).bind fun _ u u'? _ hu _ h => ?_
  exact follows_spanFrom h fun _ h => .pure hu h rfl

theorem follows_ended {β : Type} {out : β → β} {l : Prop} {ended : Reader Bool} {p : Token.Kind → Bool}
    {f f' : Bool → Reader β} (hended : Ender ended p) (h : c.Tracks l₀ s s'?)
    (hf : ∀ s'?, c.Tracks True s s'? →
      c.Follows l out (f (p s.current.kind)) (f' (p s.current.kind)) s s'?) :
    c.Follows l out (ended >>= f) (ended >>= f') s s'? :=
  follows_looking (g := fun t => p t.kind) (hended.looks State.recover) h hf

theorem follows_progressing {α : Type} {out : α → α} {ended : Reader Bool} {p : Token.Kind → Bool}
    {part : Reader (Option α)} {l : Prop} (hended : Ender ended p) (h : c.Tracks True s s'?)
    (hpart : ∀ s'?, c.Tracks True s s'? → c.Follows l (Option.map out) part part s s'?) :
    c.Follows True (Option.map out) (progressing ended part) (progressing ended part) s s'? := by
  refine follows_position h fun s'? h => (hpart s'? h).bind fun found t t'? _ ht _ h => ?_
  refine follows_position h fun t'? h => follows_ended hended h fun t'? h => ?_
  have hoffset : decide ((c.move.start t.current.span.start).offset =
      (c.move.start s.current.span.start).offset) =
        decide (t.current.span.start.offset = s.current.span.start.offset) := by simp only [c.offset]
  rw [hoffset]
  dsimp only
  split
  · next hstay =>
    have hend : t.current.kind ≠ .endOfInput := by
      rintro hend
      rw [hend, hended.endOfInput, Bool.not_true, Bool.and_false] at hstay
      cases hstay
    exact .advance ht hend h fun hstep _ _ h => .pure hstep h rfl
  · exact .pure ht h rfl

/-- What the readers of statements find is what their companions find; a statement that may go on with an
`else` unless one comes next for the companion alone. -/
structure FollowsStmt (c : Companion) (fuel : Nat) : Prop where
  statement : ∀ {s s'?}, s.Whole → 10 * s.left + 7 ≤ fuel → c.Tracks True s s'? →
    c.Follows c.elseAhead (Option.map (Stmt.moved c.move)) (statement fuel) (statement fuel) s s'?
  block : ∀ {s s'?}, s.Whole → s.current.kind = .leftBrace → 10 * s.left + 1 ≤ fuel →
    c.Tracks True s s'? → c.Follows False (fun b => (b.1.moved c.move, movedStmts c.move b.2))
      (block fuel) (block fuel) s s'?
  statements : ∀ {s s'?}, s.Whole → 10 * s.left + 8 ≤ fuel → c.Tracks True s s'? →
    c.Follows True (movedStmts c.move) (statements fuel) (statements fuel) s s'?
  conditional : ∀ {s s'?}, s.Whole → s.current.kind = .ifWord → 10 * s.left + 1 ≤ fuel →
    c.Tracks True s s'? → c.Follows c.elseAhead (Option.map (Stmt.moved c.move))
      (conditional fuel) (conditional fuel) s s'?
  whileLoop : ∀ {s s'?}, s.Whole → s.current.kind = .whileWord → 10 * s.left + 1 ≤ fuel →
    c.Tracks True s s'? → c.Follows c.elseAhead (Option.map (Stmt.moved c.move))
      (whileLoop fuel) (whileLoop fuel) s s'?
  forLoop : ∀ {s s'?}, s.Whole → s.current.kind = .forWord → 10 * s.left + 1 ≤ fuel →
    c.Tracks True s s'? → c.Follows c.elseAhead (Option.map (Stmt.moved c.move))
      (forLoop fuel) (forLoop fuel) s s'?

theorem followsStmt_zero : FollowsStmt c 0 := by
  constructor <;> intros <;> omega

theorem recoveries_self : Recoveries State.recover State.recover :=
  recoveries_of_same fun _ _ => rfl

namespace FollowsStmt

variable {fuel : Nat} (ih : FollowsStmt c fuel) (hs : s.Whole) (h : c.Tracks True s s'?)

include ih hs h

theorem statement_succ (hfuel : 10 * s.left + 7 ≤ fuel + 1) :
    c.Follows c.elseAhead (Option.map (Stmt.moved c.move)) (Reader.statement (fuel + 1))
      (Reader.statement (fuel + 1)) s s'? := by
  have hdeclare (hend : s.current.kind ≠ .endOfInput) : ∀ s'?, c.Tracks True s s'? →
      c.Follows False (Option.map (Stmt.moved c.move))
        (do return some (((← declaration fuel).map Stmt.declare).getD .missing))
        (do return some (((← declaration fuel).map Stmt.declare).getD .missing)) s s'? := fun s'? h => by
    refine (follows_declaration fuel hs hend h).bind fun d t t'? _ ht _ h => .pure ht h ?_
    cases d <;> rfl
  refine follows_kind h fun s'? h => ?_
  split
  · next hkind =>
    refine ((ih.block hs hkind (by omega) h).bind fun b t t'? _ ht _ h => ?_).loosen False.elim
    exact .pure ht h rfl
  · exact (hdeclare (by simp [*]) _ h).loosen False.elim
  · exact (hdeclare (by simp [*]) _ h).loosen False.elim
  · next hkind => exact ih.conditional hs hkind (by omega) h
  · next hkind => exact ih.whileLoop hs hkind (by omega) h
  · next hkind => exact ih.forLoop hs hkind (by omega) h
  · exact (follows_jump hs (by simp [*]) (fun _ => rfl) h).loosen False.elim
  · exact (follows_jump hs (by simp [*]) (fun _ => rfl) h).loosen False.elim
  · exact (follows_returning fuel hs (by simp [*]) h).loosen False.elim
  · next hkind =>
    refine (follows_report (l := False) hs h .emptyStatement).bind fun _ t t'? hrun ht _ h => ?_
    have hruns : Runs State.recover State.recover (report .emptyStatement) _ s _ := runs_report hs
    have hreported := hruns.result
    rw [hrun] at hreported
    have hcurrent : t.current = s.current := hreported.1
    refine .advance ht (by simp [hcurrent, hkind]) h fun hstep _ _ h => ?_
    exact .pure hstep (h.loosen False.elim) rfl
  · exact (follows_evaluation hs (by omega) h).loosen False.elim

theorem block_succ (hkind : s.current.kind = .leftBrace) (hfuel : 10 * s.left + 1 ≤ fuel + 1) :
    c.Follows False (fun b => (b.1.moved c.move, movedStmts c.move b.2)) (Reader.block (fuel + 1))
      (Reader.block (fuel + 1)) s s'? := by
  refine follows_position h fun s'? h => .advance hs (by simp [hkind]) h fun hstep hleft s'? h => ?_
  refine (ih.statements hstep (by omega) h).bind fun body t t'? _ ht _ h => ?_
  refine ((follows_expect (by decide) ht h).loosen fun h => h.2 rfl).bind (k := False) ?_
  exact fun _ u u'? _ hu _ h => follows_spanFrom h fun _ h => .pure hu h rfl

theorem statements_succ (hfuel : 10 * s.left + 8 ≤ fuel + 1) :
    c.Follows True (movedStmts c.move) (Reader.statements (fuel + 1)) (Reader.statements (fuel + 1))
      s s'? := by
  refine follows_ended ender_atBlockEnd h fun s'? h => ?_
  split
  · exact .pure hs h rfl
  · next hgoing =>
    have hfuel' : 10 * s.left + 7 ≤ fuel := by omega
    have hturn := (runs_progressing ender_atBlockEnd (Bool.eq_false_iff.mpr hgoing)
      ((runsStmt recoveries_self fuel).statement hs hfuel' hfuel')).result
    refine (follows_progressing ender_atBlockEnd h fun s'? h =>
      ih.statement hs hfuel' h).bind fun found t t'? hrun ht _ h => ?_
    rw [hrun] at hturn
    have hless : t.left < s.left := hturn.1
    refine (ih.statements ht (by omega) h).bind fun rest u u'? _ hu _ h => .pure hu h ?_
    cases found <;> rfl

theorem conditional_succ (hkind : s.current.kind = .ifWord) (hfuel : 10 * s.left + 1 ≤ fuel + 1) :
    c.Follows c.elseAhead (Option.map (Stmt.moved c.move)) (Reader.conditional (fuel + 1))
      (Reader.conditional (fuel + 1)) s s'? := by
  refine follows_position h fun s'? h => .advance hs (by simp [hkind]) h fun hstep hleft s'? h => ?_
  refine (follows_condition fuel hstep h).bind fun cond? t t'? _ ht hgoes h => ?_
  have hle := hgoes.left_le
  refine (ih.statement ht (by omega) h).bind fun yes? u u'? _ hu hgoes' h => ?_
  have hle' := hgoes'.left_le
  cases cond? with
  | none => exact .pure hu h rfl
  | some cond =>
    cases yes? with
    | none => exact .pure hu h rfl
    | some yes =>
      refine follows_at_else h fun u'? h => ?_
      have hthen {v : State} {v'? : Option State} (hv : v.Whole) (h : c.Tracks c.elseAhead v v'?) :
          c.Follows c.elseAhead (Option.map (Stmt.moved c.move))
            (do return some (Stmt.ifThen (← spanFrom s.current.span.start) cond yes))
            (do return some (Stmt.ifThen (← spanFrom (c.move.start s.current.span.start))
              (cond.moved c.move) (yes.moved c.move))) v v'? :=
        follows_spanFrom h fun _ h => .pure hv h rfl
      split
      · next helse =>
        rw [decide_eq_true_eq] at helse
        refine .advance hu (by simp [helse]) h fun hustep huleft u'? h => ?_
        refine (ih.statement hustep (by omega) (h.loosen fun _ => trivial)).bind ?_
        intro no? v v'? _ hv _ h
        cases no? with
        | none => exact hthen hv h
        | some no => exact follows_spanFrom h fun _ h => .pure hv h rfl
      · exact hthen hu h

theorem whileLoop_succ (hkind : s.current.kind = .whileWord) (hfuel : 10 * s.left + 1 ≤ fuel + 1) :
    c.Follows c.elseAhead (Option.map (Stmt.moved c.move)) (Reader.whileLoop (fuel + 1))
      (Reader.whileLoop (fuel + 1)) s s'? := by
  refine follows_position h fun s'? h => .advance hs (by simp [hkind]) h fun hstep hleft s'? h => ?_
  refine (follows_condition fuel hstep h).bind fun cond? t t'? _ ht hgoes h => ?_
  have hle := hgoes.left_le
  refine (ih.statement ht (by omega) h).bind fun body? u u'? _ hu _ h => ?_
  cases cond? with
  | none => exact .pure hu h rfl
  | some cond =>
    cases body? with
    | none => exact .pure hu h rfl
    | some body => exact follows_spanFrom h fun _ h => .pure hu h rfl

theorem forLoop_succ (hkind : s.current.kind = .forWord) (hfuel : 10 * s.left + 1 ≤ fuel + 1) :
    c.Follows c.elseAhead (Option.map (Stmt.moved c.move)) (Reader.forLoop (fuel + 1))
      (Reader.forLoop (fuel + 1)) s s'? := by
  have hexpect {k : Token.Kind} (hk : k ≠ .endOfInput ∧ k.isWorded = false) {t u : State} {b : Bool}
      (ht : t.Whole) (hrun : expect k State.recover t = (b, u)) : b = false → u.errors ≠ #[] := by
    rintro rfl
    have hruns : Runs State.recover State.recover _ _ t _ := runs_expect hk ht
    have hfound := hruns.result
    rw [hrun] at hfound
    exact errors_ne_of_lt hfound
  refine follows_position h fun s'? h => .advance hs (by simp [hkind]) h fun hstep hleft s'? h => ?_
  refine ((follows_expect (by decide) hstep h).loosen fun _ => trivial).bind ?_
  intro b t t'? hrun ht hgoes h
  have hle := hgoes.left_le
  cases b with
  | false => exact (follows_abandon ht (hexpect (by decide) hstep hrun rfl) h).loosen False.elim
  | true =>
    refine (follows_setup fuel ht h).bind fun first u u'? _ hu hgoes h => ?_
    have hle' := hgoes.left_le
    refine (follows_optionalBefore _ fuel hu h).bind fun cond v v'? _ hv hgoes h => ?_
    have hle'' := hgoes.left_le
    refine ((follows_expect (by decide) hv h).loosen fun _ => trivial).bind ?_
    intro _ w w'? _ hw hgoes h
    have hlew := hgoes.left_le
    refine (follows_optionalBefore _ fuel hw h).bind fun post x x'? _ hx hgoes h => ?_
    have hlex := hgoes.left_le
    refine ((follows_expect (by decide) hx h).loosen fun _ => trivial).bind ?_
    intro b y y'? hrun hy hgoes h
    have hley := hgoes.left_le
    cases b with
    | false => exact (follows_abandon hy (hexpect (by decide) hx hrun rfl) h).loosen False.elim
    | true =>
      refine (ih.statement hy (by omega) h).bind fun body? z z'? _ hz _ h => ?_
      cases body? with
      | none => exact .pure hz h rfl
      | some body => exact follows_spanFrom h fun _ h => .pure hz h rfl

end FollowsStmt

theorem followsStmt (c : Companion) (fuel : Nat) : FollowsStmt c fuel := by
  induction fuel with
  | zero => exact followsStmt_zero
  | succ fuel ih =>
    exact ⟨fun hs hfuel h => ih.statement_succ hs h hfuel,
      fun hs hkind hfuel h => ih.block_succ hs h hkind hfuel,
      fun hs hfuel h => ih.statements_succ hs h hfuel,
      fun hs hkind hfuel h => ih.conditional_succ hs h hkind hfuel,
      fun hs hkind hfuel h => ih.whileLoop_succ hs h hkind hfuel,
      fun hs hkind hfuel h => ih.forLoop_succ hs h hkind hfuel⟩

theorem follows_qualifiersWithin (fuel : Nat) (hs : s.Whole) (h : c.Tracks True s s'?) :
    c.Follows True id (qualifiersWithin fuel) (qualifiersWithin fuel) s s'? := by
  induction fuel generalizing s s'? with
  | zero => exact .pure hs h rfl
  | succ fuel ih =>
    refine follows_at h fun s'? h => ?_
    by_cases hdot : s.current.kind = .dot
    · refine follows_ahead h (by simp [hdot]) (by simp [hdot]) (by simp [hdot]) fun s'? h => ?_
      split
      · next hboth =>
        simp only [Bool.and_eq_true, decide_eq_true_eq] at hboth
        refine .advance hs (by simp [hdot]) h fun hstep _ s'? h => follows_literal h fun s'? h => ?_
        have hkind : s.step.current.kind = .identifier := hboth.2
        refine .advance hstep (by simp [hkind]) h fun hstep' _ _ h => ?_
        exact (ih hstep' h).bind fun names t t'? _ ht _ h => .pure ht h rfl
      · exact .pure hs h rfl
    · rw [decide_eq_false hdot]
      exact .pure hs h rfl

theorem follows_qualifiers (hs : s.Whole) (h : c.Tracks True s s'?) :
    let qualifiers : Reader (List String) := do qualifiersWithin (← get).remaining
    c.Follows True id qualifiers qualifiers s s'? := by
  have hfuel : ∀ {t : State} {fuel : Nat}, t.Whole → t.remaining ≤ fuel →
      qualifiersWithin t.remaining State.recover t = qualifiersWithin fuel State.recover t :=
    fun ht hle =>
    have hruns : Runs State.recover State.recover _ _ _ _ :=
      runs_qualifiersWithin ht ht.left_lt (Nat.lt_of_lt_of_le ht.left_lt hle)
    hruns.same.symm
  let fuel := s.remaining + (s'?.elim 0 State.remaining)
  refine (follows_qualifiersWithin fuel hs h).congr (hfuel hs (Nat.le_add_right _ _)) ?_
  rintro s' rfl hcounts
  exact hfuel (c.whole hs hcounts (h hcounts)) (Nat.le_add_left _ _)

theorem follows_qualifiedName (hs : s.Whole) (h : c.Tracks True s s'?) :
    c.Follows True id qualifiedName qualifiedName s s'? := by
  refine follows_at h fun s'? h => ?_
  split
  · next hname =>
    rw [decide_eq_true_eq] at hname
    refine follows_literal h fun s'? h => .advance hs (by simp [hname]) h fun hstep _ s'? h => ?_
    have hnames : ∀ name, c.Follows True id
        ((do qualifiersWithin (← get).remaining) >>= fun names => pure (some (name :: names)))
        ((do qualifiersWithin (← get).remaining) >>= fun names => pure (some (name :: names)))
        s.step s'? :=
      fun name => (follows_qualifiers hstep h).bind fun names t t'? _ ht _ h => .pure ht h rfl
    exact hnames _
  · exact (follows_reportExpected hs h _).bind fun _ t t'? _ ht _ h => .pure ht h rfl

theorem bind_congr_at {α β : Type} {m m' : Reader α} {f : α → Reader β} {s : State}
    (h : m State.recover s = m' State.recover s) :
    (m >>= f) State.recover s = (m' >>= f) State.recover s := by
  change f (m State.recover s).1 State.recover (m State.recover s).2 = _
  rw [h]
  rfl

section

variable {α : Type} {item : Reader (Option α)} {out : α → α} {P : α → List Lexeme → Prop}
  (hitem : ∀ {s s'?}, s.Whole → c.Tracks True s s'? → c.Follows True (Option.map out) item item s s'?)

include hitem

theorem follows_itemsWithin (fuel : Nat) (hs : s.Whole) (h : c.Tracks True s s'?) :
    c.Follows True (Option.map (List.map out)) (itemsWithin item fuel) (itemsWithin item fuel) s s'? := by
  induction fuel generalizing s s'? with
  | zero => exact .pure hs h rfl
  | succ fuel ih =>
    refine follows_at h fun s'? h => follows_at h fun s'? h => ?_
    split
    · exact .pure hs h rfl
    · refine (hitem hs h).bind fun x? t t'? _ ht _ h => ?_
      cases x? with
      | none => exact .pure ht h rfl
      | some x =>
        refine follows_at h fun t'? h => ?_
        split
        · next hcomma =>
          rw [decide_eq_true_eq] at hcomma
          refine .advance ht (by simp [hcomma]) h fun hstep _ t'? h => ?_
          exact .optional (ih hstep h) rfl rfl fun xs u u'? _ hu _ h => .pure hu h rfl
        · exact .pure ht h rfl

def closing (found : Option (List α)) : Reader (Option (List α)) := do
  let some xs := found | return none
  if ← expect .rightParen then return some xs else return none

theorem follows_parenthesized (hruns : ∀ {s : State}, s.Whole → Runs State.recover State.recover item item
      s (Ends s s.left fun a _ => P a)) (hs : s.Whole) (h : c.Tracks True s s'?) :
    c.Follows True (Option.map (List.map out)) (parenthesized item) (parenthesized item) s s'? := by
  have hfuel : ∀ {t : State} {fuel : Nat}, t.Whole → t.remaining ≤ fuel →
      itemsWithin item t.remaining State.recover t = itemsWithin item fuel State.recover t :=
    fun ht hle =>
    have hitems : Runs State.recover State.recover _ _ _ _ :=
      runs_itemsWithin hruns ht ht.left_lt (Nat.lt_of_lt_of_le ht.left_lt hle)
    hitems.same.symm
  let fuel := s.remaining + (s'?.elim 0 State.remaining)
  have hclosed : c.Follows True (Option.map (List.map out)) (itemsWithin item fuel >>= closing)
      (itemsWithin item fuel >>= closing) s s'? := by
    refine (follows_itemsWithin hitem fuel hs h).optional rfl rfl fun xs t t'? _ ht _ h => ?_
    refine ((follows_expect (by decide) ht h).loosen fun _ => trivial).bind fun b u u'? _ hu _ h => ?_
    dsimp only [id]
    split
    · exact .pure hu h rfl
    · exact .pure hu h rfl
  have hsame {t : State} (ht : t.Whole) (hle : t.remaining ≤ fuel) :
      parenthesized item State.recover t = (itemsWithin item fuel >>= closing) State.recover t :=
    bind_congr_at (f := closing) (hfuel ht hle)
  refine hclosed.congr (hsame hs (Nat.le_add_right _ _)) ?_
  rintro s' rfl hcounts
  exact hsame (c.whole hs hcounts (h hcounts)) (Nat.le_add_left _ _)

end

theorem follows_importDecl (hs : s.Whole) (hend : s.current.kind ≠ .endOfInput)
    (h : c.Tracks l₀ s s'?) : c.Follows False (Option.map (Import.moved c.move)) importDecl importDecl
      s s'? := by
  refine follows_position h fun s'? h => .advance hs hend h fun hstep _ s'? h => ?_
  refine (follows_qualifiedName hstep h).bind fun path? t t'? hrun ht _ h => ?_
  have hruns : Runs State.recover State.recover _ _ _ _ := runs_qualifiedName hstep
  have hpath := hruns.result
  rw [hrun] at hpath
  cases path? with
  | none => exact follows_abandon ht (errors_ne_of_lt hpath) h
  | some path =>
    refine follows_at h fun t'? h => ?_
    split
    · next hparen =>
      rw [decide_eq_true_eq] at hparen
      refine .advance ht (by simp [hparen]) h fun htstep _ t'? h => ?_
      refine (follows_parenthesized follows_typeName runs_typeName htstep h).bind ?_
      intro params? u u'? hrun hu _ h
      have hruns : Runs State.recover State.recover _ _ _ _ := runs_parenthesized runs_typeName htstep
      have hparams := hruns.result
      rw [hrun] at hparams
      cases params? with
      | none => exact follows_abandon hu (errors_ne_of_lt hparams) h
      | some params =>
        refine (follows_optionalType hu h).bind fun result? v v'? _ hv _ h => ?_
        refine ((follows_expect (by decide) hv h).loosen fun h => h.1 rfl).bind (k := False) ?_
        exact fun _ w w'? _ hw _ h => follows_spanFrom h fun _ h => .pure hw h rfl
    · refine ((follows_expect (by decide) ht h).loosen fun h => h.1 rfl).bind (k := False) ?_
      exact fun _ u u'? _ hu _ h => follows_spanFrom h fun _ h => .pure hu h rfl

theorem follows_param (hs : s.Whole) (h : c.Tracks True s s'?) :
    c.Follows True (Option.map (Param.moved c.move)) param param s s'? := by
  refine follows_position h fun s'? h => follows_at h fun s'? h => ?_
  split
  · next hname =>
    rw [decide_eq_true_eq] at hname
    refine follows_literal h fun s'? h => .advance hs (by simp [hname]) h fun hstep _ s'? h => ?_
    refine ((follows_expect (by decide) hstep h).loosen fun _ => trivial).bind fun b t t'? _ ht _ h => ?_
    cases b with
    | false => exact .pure ht h rfl
    | true =>
      refine .optional (follows_typeName ht h) rfl rfl fun type u u'? _ hu _ h => ?_
      exact follows_spanFrom h fun _ h => .pure hu h rfl
  · exact (follows_reportExpected hs h _).bind fun _ t t'? _ ht _ h => .pure ht h rfl

theorem follows_signature (hs : s.Whole) (h : c.Tracks True s s'?) :
    c.Follows True (Option.map fun parts =>
      (parts.1.map (Param.moved c.move), parts.2.map (TypeName.moved c.move))) signature signature
      s s'? := by
  refine ((follows_expect (by decide) hs h).loosen fun _ => trivial).bind fun b t t'? _ ht _ h => ?_
  cases b with
  | false => exact .pure ht h rfl
  | true =>
    refine .optional (follows_parenthesized follows_param runs_param ht h) rfl rfl ?_
    intro params u u'? _ hu _ h
    refine (follows_optionalType hu h).bind fun result? v v'? _ hv _ h => follows_at h fun v'? h => ?_
    split
    · exact .pure hv h rfl
    · exact (follows_reportExpected hv h _).bind fun _ w w'? _ hw _ h => .pure hw h rfl

theorem follows_function {fuel : Nat} (hs : s.Whole) (hend : s.current.kind ≠ .endOfInput)
    (hfuel : 10 * s.left ≤ fuel) (h : c.Tracks l₀ s s'?) :
    c.Follows False (Option.map (Function.moved c.move)) (function fuel) (function fuel) s s'? := by
  refine follows_position h fun s'? h => .advance hs hend h fun hstep hleft s'? h => ?_
  refine follows_at h fun s'? h => ?_
  split
  · next hname =>
    rw [decide_eq_true_eq] at hname
    refine follows_literal h fun s'? h => .advance hstep (by simp [hname]) h fun hstep' hleft' s'? h => ?_
    refine (follows_signature hstep' h).bind fun parts? t t'? hrun ht hgoes h => ?_
    have hruns : Runs State.recover State.recover _ _ _ _ := runs_signature hstep'
    have hparts := hruns.result
    rw [hrun] at hparts
    have hle := hgoes.left_le
    cases parts? with
    | none => exact follows_abandon ht (errors_ne_of_lt hparts.1) h
    | some parts =>
      refine ((followsStmt c fuel).block ht (hparts.2 rfl) (by omega) h).bind ?_
      exact fun body u u'? _ hu _ h => follows_spanFrom h fun _ h => .pure hu h rfl
  · exact follows_missing hstep _ h

/-- A word that opens a part of a source file which is no statement. -/
def opensDeclaration : Token.Kind → Bool
  | .importWord | .funcWord | .varWord | .constWord => true
  | _ => false

theorem follows_item {fuel : Nat} (hs : s.Whole) (hfuel : 10 * s.left + 7 ≤ fuel)
    (h : c.Tracks True s s'?) :
    c.Follows (c.elseAhead ∧ opensDeclaration s.current.kind = false)
      (Option.map (Item.moved c.move)) (item fuel) (item fuel) s s'? := by
  have hmap {α : Type} {out : α → α} {m : Reader (Option α)} {f : α → Item} {l l' : Prop} {s'?}
      (hm : c.Follows l (Option.map out) m m s s'?) (hf : ∀ a, (f a).moved c.move = f (out a))
      (hl : l → l') : c.Follows l' (Option.map (Item.moved c.move)) (do return (← m).map f)
        (do return (← m).map f) s s'? :=
    hm.bind fun o t t'? _ ht _ h => .pure ht (h.loosen hl) (by cases o <;> simp [hf])
  refine follows_kind h fun s'? h => ?_
  split
  · exact hmap (follows_importDecl hs (by simp [*]) h) (fun _ => rfl) False.elim
  · exact hmap (follows_function hs (by simp [*]) (by omega) h) (fun _ => rfl) False.elim
  · exact hmap (follows_declaration fuel hs (by simp [*]) h) (fun _ => rfl) False.elim
  · exact hmap (follows_declaration fuel hs (by simp [*]) h) (fun _ => rfl) False.elim
  · next himport hfunc hvar hconst =>
    refine hmap ((followsStmt c fuel).statement hs hfuel h) (fun _ => rfl) fun helse => ⟨helse, ?_⟩
    unfold opensDeclaration
    split <;> first | contradiction | rfl

theorem follows_items {fuel : Nat} (hs : s.Whole) (hfuel : 10 * s.left + 8 ≤ fuel)
    (h : c.Tracks True s s'?) :
    c.Follows True (List.map (Item.moved c.move)) (items fuel) (items fuel) s s'? := by
  induction fuel generalizing s s'? with
  | zero => omega
  | succ fuel ih =>
    refine follows_ended ender_at h fun s'? h => ?_
    split
    · exact .pure hs h rfl
    · next hgoing =>
      have hfuel' : 10 * s.left + 7 ≤ fuel := by omega
      have hturn := (runs_progressing ender_at (Bool.eq_false_iff.mpr hgoing)
        (runs_item recoveries_self hs hfuel' hfuel')).result
      refine (follows_progressing ender_at h fun s'? h =>
        follows_item hs hfuel' h).bind fun found t t'? hrun ht _ h => ?_
      rw [hrun] at hturn
      have hless : t.left < s.left := hturn.1
      refine (ih ht (by omega) h).bind fun rest u u'? _ hu _ h => .pure hu h ?_
      cases found <;> rfl

end Companion
end Parsed
end TypedScript
