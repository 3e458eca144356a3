import TypedScript.Proofs.Parsed.Recovery
import TypedScript.Proofs.Parsed.Spans
import TypedScript.Proofs.Token.Layout

/-!
# Nodes are nested and in order

Every reader finds its nodes between the token where it starts and the token where it ends, each behind
the one before it. A node is made from where its reader started and from all that was found since. What
is dropped, be it because of a mistake or because of parentheses, takes nothing away from that.
-/

namespace TypedScript
namespace Parsed
namespace Reader

variable {limit : Nat}

section

variable {s : State} (h : s.Apart limit)

include h

theorem tells_ranksWithin (fuel : Nat) :
    Tells (ranksWithin fuel) s fun _ t => s.Covers limit t [] := by
  induction fuel generalizing s with
  | zero => exact .pure (.refl h)
  | succ fuel ih =>
    refine tells_at (tells_ahead ?_)
    split
    · next hopen =>
      simp only [Bool.and_eq_true, decide_eq_true_eq] at hopen
      refine .advance (.refl h) (by simp [hopen.1]) fun _ hstep => ?_
      have hkind : s.step.current.kind = .rightBracket := hopen.2
      refine .advance hstep (by simp [hkind]) fun _ hstep' => ?_
      exact (ih hstep'.apart).after hstep' fun _ t _ ht => .pure ht
    · exact .pure (.refl h)

theorem tells_ranks : Tells ranks s fun _ t => s.Covers limit t [] :=
  tells_get (tells_ranksWithin h _)

theorem tells_typeName :
    Tells typeName s fun o t => s.Covers limit t (o.toList.map TypeName.outline) := by
  refine tells_position (tells_at ?_)
  split
  · next hname =>
    rw [decide_eq_true_eq] at hname
    refine tells_literal (.advance (.refl h) (by simp [hname]) fun hless hstep => ?_)
    refine (tells_ranks hstep.apart).after hstep fun _ t hle ht => tells_spanFrom (.pure ?_)
    exact ht.close (ht.consumed (by omega))
  · exact (tells_reportExpected h _).after (.refl h) fun _ t _ ht => .pure ht

theorem tells_optionalType :
    Tells optionalType s fun o t => s.Covers limit t (o.toList.map TypeName.outline) := by
  refine tells_at ?_
  split
  · next hcolon =>
    rw [decide_eq_true_eq] at hcolon
    refine .advance (.refl h) (by simp [hcolon]) fun _ hstep => ?_
    exact (tells_typeName hstep.apart).imp fun _ t ht => hstep.trans ht
  · exact .pure (.refl h)

theorem tells_literalExpr (hend : s.current.kind ≠ .endOfInput) : Tells (literalExpr s.current) s
    fun o t => s.Covers limit t (o.toList.map Expr.outline) := by
  refine .advance (.refl h) hend fun hless hstep => tells_spanFrom ?_
  have hnode := hstep.close (hstep.consumed hless)
  split
  · exact .noting (tells_reportAt hstep.apart _ _) hnode fun _ _ ht => .pure ht
  · exact .noting (tells_reportAt hstep.apart _ _) hnode fun _ _ ht => .pure ht
  all_goals exact .pure hnode

end

/-- What the readers of expressions find with some fuel. -/
structure TellsExpr (limit fuel : Nat) : Prop where
  expression : ∀ {s}, s.Apart limit →
    Tells (expression fuel) s fun o t => s.Covers limit t (o.toList.map Expr.outline)
  binary : ∀ {s} level, s.Apart limit →
    Tells (binary fuel level) s fun o t => s.Covers limit t (o.toList.map Expr.outline)
  binaryTail : ∀ {s₀ s : State} level left, s₀.Covers limit s [left.outline] →
    Tells (binaryTail fuel level s₀.current.span.start left) s
      fun o t => s₀.Covers limit t (o.toList.map Expr.outline)
  unary : ∀ {s}, s.Apart limit →
    Tells (unary fuel) s fun o t => s.Covers limit t (o.toList.map Expr.outline)
  postfixed : ∀ {s}, s.Apart limit →
    Tells (postfixed fuel) s fun o t => s.Covers limit t (o.toList.map Expr.outline)
  postfixedTail : ∀ {s₀ s : State} head, s₀.Covers limit s [head.outline] →
    Tells (postfixedTail fuel s₀.current.span.start head) s
      fun o t => s₀.Covers limit t (o.toList.map Expr.outline)
  arguments : ∀ {s}, s.Apart limit →
    Tells (arguments fuel) s fun o t => s.Covers limit t (outlineAll (o.getD []))
  primary : ∀ {s}, s.Apart limit →
    Tells (primary fuel) s fun o t => s.Covers limit t (o.toList.map Expr.outline)
  newArray : ∀ {s}, s.Apart limit → s.current.kind = .newWord →
    Tells (newArray fuel) s fun o t => s.Covers limit t (o.toList.map Expr.outline)

theorem tellsExpr_zero : TellsExpr limit 0 where
  expression h := .pure (.refl h)
  binary _ h := .pure (.refl h)
  binaryTail _ _ h := .pure h.none
  unary h := .pure (.refl h)
  postfixed h := .pure (.refl h)
  postfixedTail _ h := .pure h.none
  arguments h := .pure (.refl h)
  primary h := .pure (.refl h)
  newArray h _ := .pure (.refl h)

namespace TellsExpr

variable {fuel : Nat} {s s₀ : State} (ih : TellsExpr limit fuel)

include ih

theorem expression_succ (h : s.Apart limit) : Tells (Reader.expression (fuel + 1)) s
    fun o t => s.Covers limit t (o.toList.map Expr.outline) := by
  refine tells_position (.optional (ih.binary 1 h) (.refl h) rfl (fun _ => id) ?_)
  intro left t _ hleft
  refine tells_kind ?_
  split
  · exact .pure hleft
  · next op hop =>
    obtain ⟨hend, -⟩ := reads_operator hleft.goes.whole (by decide) hop
    refine .advance hleft hend fun _ hstep => ?_
    refine .optional (ih.expression hstep.apart) hstep rfl (fun _ => id) fun value u _ hu => ?_
    exact tells_spanFrom (.pure (hu.close hu.moved))

theorem binary_succ (level : Nat) (h : s.Apart limit) : Tells (Reader.binary (fuel + 1) level) s
    fun o t => s.Covers limit t (o.toList.map Expr.outline) := by
  refine tells_position (.optional (ih.unary h) (.refl h) rfl (fun _ => id) ?_)
  exact fun left t _ hleft => ih.binaryTail level left hleft

theorem binaryTail_succ (level : Nat) (left : Expr) (h : s₀.Covers limit s [left.outline]) :
    Tells (Reader.binaryTail (fuel + 1) level s₀.current.span.start left) s
      fun o t => s₀.Covers limit t (o.toList.map Expr.outline) := by
  refine tells_kind ?_
  split
  · exact .pure h
  · next op hop =>
    split
    · exact .pure h
    · obtain ⟨hend, -⟩ := reads_operator h.goes.whole (by decide) hop
      refine .advance h hend fun _ hstep => ?_
      refine .optional (ih.binary _ hstep.apart) hstep rfl (fun _ => id) fun right t _ ht => ?_
      exact tells_spanFrom (ih.binaryTail level _ (ht.close ht.moved))

theorem unary_succ (h : s.Apart limit) : Tells (Reader.unary (fuel + 1)) s
    fun o t => s.Covers limit t (o.toList.map Expr.outline) := by
  refine tells_kind ?_
  split
  · exact ih.postfixed h
  · next op hop =>
    obtain ⟨hend, -⟩ := reads_operator h.whole (by decide) hop
    refine tells_position (.advance (.refl h) hend fun hless hstep => ?_)
    refine .optional (ih.unary hstep.apart) hstep rfl (fun _ => id) fun operand t hle ht => ?_
    exact tells_spanFrom (.pure (ht.close ht.moved))

theorem postfixed_succ (h : s.Apart limit) : Tells (Reader.postfixed (fuel + 1)) s
    fun o t => s.Covers limit t (o.toList.map Expr.outline) := by
  refine tells_position (.optional (ih.primary h) (.refl h) rfl (fun _ => id) ?_)
  exact fun head t _ hhead => ih.postfixedTail head hhead

theorem postfixedTail_succ (head : Expr) (h : s₀.Covers limit s [head.outline]) :
    Tells (Reader.postfixedTail (fuel + 1) s₀.current.span.start head) s
      fun o t => s₀.Covers limit t (o.toList.map Expr.outline) := by
  refine tells_kind ?_
  split
  · next hkind =>
    refine .advance h (by simp [hkind]) fun _ hstep => ?_
    refine (ih.arguments hstep.apart).behind hstep fun args? t _ ht => ?_
    cases args? with
    | none => exact .pure ht.none
    | some args =>
      refine (tells_expect (by decide) ht.apart).after ht fun b u _ hu => ?_
      split
      · exact .pure hu.none
      · exact tells_spanFrom (ih.postfixedTail _ (hu.close hu.moved))
  · next hkind =>
    refine .advance h (by simp [hkind]) fun _ hstep => ?_
    refine .optional (ih.expression hstep.apart) hstep rfl (fun _ => id) fun index t _ ht => ?_
    refine (tells_expect (by decide) ht.apart).after ht fun b u _ hu => ?_
    split
    · exact .pure hu.none
    · exact tells_spanFrom (ih.postfixedTail _ (hu.close hu.moved))
  · next hkind =>
    refine .advance h (by simp [hkind]) fun _ hstep => tells_at ?_
    split
    · next hname =>
      rw [decide_eq_true_eq] at hname
      refine tells_literal (.advance hstep (by simp [hname]) fun _ hstep' => ?_)
      exact tells_spanFrom (ih.postfixedTail _ (hstep'.close hstep'.moved))
    · exact (tells_reportExpected hstep.apart _).after hstep fun _ t _ ht => .pure ht.none
  · next hkind =>
    refine .advance h (by simp [hkind]) fun _ hstep => ?_
    refine .optional (tells_typeName hstep.apart) hstep rfl (fun _ => id) fun type t _ ht => ?_
    exact tells_spanFrom (ih.postfixedTail _ (ht.close ht.moved))
  · exact .pure h

theorem arguments_succ (h : s.Apart limit) : Tells (Reader.arguments (fuel + 1)) s
    fun o t => s.Covers limit t (outlineAll (o.getD [])) := by
  refine tells_at (tells_at ?_)
  split
  · exact .pure (.refl h)
  · refine .optional (ih.expression h) (.refl h) rfl (fun _ => id) fun arg t _ ht => tells_at ?_
    split
    · next hcomma =>
      rw [decide_eq_true_eq] at hcomma
      refine .advance ht (by simp [hcomma]) fun _ hstep => ?_
      refine (ih.arguments hstep.apart).behind hstep fun args? u _ hu => ?_
      cases args? with
      | none => exact .pure hu.none
      | some args => exact .pure hu
    · exact .pure ht

theorem primary_succ (h : s.Apart limit) : Tells (Reader.primary (fuel + 1)) s
    fun o t => s.Covers limit t (o.toList.map Expr.outline) := by
  refine tells_get ?_
  dsimp only
  split
  case h_8 hkind => exact ih.newArray h hkind
  case h_9 hkind =>
    refine .advance (.refl h) (by simp [hkind]) fun _ hstep => ?_
    refine .optional (ih.expression hstep.apart) hstep rfl (fun _ => id) fun e t _ ht => ?_
    refine (tells_expect (by decide) ht.apart).after ht fun b u _ hu => ?_
    split
    · exact .pure hu
    · exact .pure hu.none
  case h_10 => exact (tells_report h _).after (.refl h) fun _ t _ ht => .pure ht
  all_goals exact tells_literalExpr h (by simp [*])

theorem newArray_succ (h : s.Apart limit) (hkind : s.current.kind = .newWord) :
    Tells (Reader.newArray (fuel + 1)) s
      fun o t => s.Covers limit t (o.toList.map Expr.outline) := by
  refine tells_position (.advance (.refl h) (by simp [hkind]) fun _ hstep => tells_get ?_)
  dsimp only
  split
  · next hname =>
    refine .advance hstep (by simp [hname]) fun hless hstep' => ?_
    have htype : s.Covers limit s.step.step [.node s.step.current.span []] := by
      obtain ⟨hname, hless⟩ := hstep.apart.step (by simp [hname])
      exact hstep.trans (hname.close (hname.consumed hless))
    refine (tells_expect (by decide) htype.apart).after htype fun b t _ ht => ?_
    split
    · exact .pure ht.none
    refine .optional (ih.expression ht.apart) ht rfl (fun _ => id) fun size u _ hu => ?_
    refine (tells_expect (by decide) hu.apart).after hu fun b v _ hv => ?_
    split
    · exact .pure hv.none
    refine (tells_ranks hv.apart).after hv fun rank w _ hw => ?_
    exact tells_spanFrom (.pure (hw.close hw.moved))
  · exact (tells_reportExpected hstep.apart _).after hstep fun _ t _ ht => .pure ht

end TellsExpr

theorem tellsExpr (limit fuel : Nat) : TellsExpr limit fuel := by
  induction fuel with
  | zero => exact tellsExpr_zero
  | succ fuel ih =>
    exact ⟨ih.expression_succ, ih.binary_succ, ih.binaryTail_succ, ih.unary_succ,
      ih.postfixed_succ, ih.postfixedTail_succ, ih.arguments_succ, ih.primary_succ,
      ih.newArray_succ⟩

section

variable {s : State} (h : s.Apart limit)

/-- What a declaration says is known before its semicolon is read. -/
theorem tells_declared {s₀ : State} (name : String) (isConst : Bool) {type? : Option TypeName}
    {init? : Option Expr} (hless : s.left < s₀.left)
    (h : s₀.Covers limit s (type?.toList.map TypeName.outline ++ init?.toList.map Expr.outline)) :
    let declared : Reader (Option Declaration) := do
      if type?.isNone && init?.isNone then report (.untypedDeclaration name)
      if isConst && init?.isNone then report (.uninitializedConstant name)
      terminate
      return some (Declaration.mk (← spanFrom s₀.current.span.start) name isConst type? init?)
    Tells declared s fun o t => s₀.Covers limit t (o.toList.map Declaration.outline) := by
  refine .noting (tells_report h.apart _) h fun t hle ht => ?_
  refine .noting (tells_report ht.apart _) ht fun u hle' hu => ?_
  refine (tells_terminate hu.apart).after hu fun _ v hle'' hv => tells_spanFrom (.pure ?_)
  exact hv.close (hv.consumed (by omega))

include h

theorem tells_declaration (fuel : Nat) (hend : s.current.kind ≠ .endOfInput) :
    Tells (declaration fuel) s fun o t => s.Covers limit t (o.toList.map Declaration.outline) := by
  refine tells_position (tells_at (.advance (.refl h) hend fun hless hstep => tells_at ?_))
  split
  · next hname =>
    rw [decide_eq_true_eq] at hname
    refine tells_literal (.advance hstep (by simp [hname]) fun hless' hstep' => ?_)
    refine (tells_optionalType hstep'.apart).behind hstep' fun type? t hle ht => tells_at ?_
    dsimp only
    split
    · next hassign =>
      rw [decide_eq_true_eq] at hassign
      refine .advance ht (by simp [hassign]) fun hless'' htstep => ?_
      refine ((tellsExpr limit fuel).expression htstep.apart).behind htstep ?_
      exact fun init? u hle' hu => tells_declared _ _ (by omega) hu
    · exact tells_declared _ _ (by omega) (by simpa using ht)
  · refine (tells_reportExpected hstep.apart _).after hstep fun _ t _ ht => ?_
    exact (tells_recover ht.apart).after ht fun _ u _ hu => .pure hu

theorem tells_condition (fuel : Nat) :
    Tells (condition fuel) s fun o t => s.Covers limit t (o.toList.map Expr.outline) := by
  refine (tells_expect (by decide) h).after (.refl h) fun b t _ ht => ?_
  split
  · refine ((tellsExpr limit fuel).expression ht.apart).behind ht fun cond u _ hu => ?_
    exact (tells_expect (by decide) hu.apart).after hu fun _ v _ hv => .pure hv
  · exact .pure ht

theorem tells_setup (fuel : Nat) :
    Tells (setup fuel) s fun o t => s.Covers limit t (o.toList.map Setup.outline) := by
  have hdeclare (hend : s.current.kind ≠ .endOfInput) :
      Tells (do return (← declaration fuel).map Setup.declare) s
        fun o t => s.Covers limit t (o.toList.map Setup.outline) := by
    refine (tells_declaration h fuel hend).bind fun d t ht => .pure ?_
    cases d <;> exact ht
  refine tells_kind ?_
  split
  · exact hdeclare (by simp [*])
  · exact hdeclare (by simp [*])
  · exact .advance (.refl h) (by simp [*]) fun _ hstep => .pure hstep
  · refine tells_position (((tellsExpr limit fuel).expression h).bind fun e t ht => ?_)
    refine tells_spanFrom ?_
    have hnode : s.Covers limit t ((e.map fun e => .eval ⟨⟨s.current.span.start, t.lastEnd⟩, e⟩ :
        Option Setup).toList.map Setup.outline) := by
      cases e with
      | none => exact ht
      | some e => exact ht.close ht.moved
    exact (tells_expect (by decide) ht.apart).after hnode fun _ u _ hu => .pure hu

theorem tells_optionalBefore (stop : Token.Kind) (fuel : Nat) :
    Tells (optionalBefore stop fuel) s fun o t => s.Covers limit t (o.toList.map Expr.outline) := by
  refine tells_at ?_
  split
  · exact .pure (.refl h)
  · exact (tellsExpr limit fuel).expression h

def Standing (limit : Nat) (s : State) (o : Option Stmt) (t : State) : Prop :=
  s.Covers limit t (outlinesOf o.toList)

omit h in
theorem outlinesOf_some (st : Stmt) : outlinesOf (some st).toList = st.outlines := by
  rw [Option.toList_some, outlinesOf, outlinesOf, List.append_nil]

omit h in
theorem standing_some {st : Stmt} {t : State} (h : s.Covers limit t st.outlines) :
    Standing limit s (some st) t := by
  rw [Standing, outlinesOf_some]
  exact h

theorem tells_evaluation (fuel : Nat) : Tells (evaluation fuel) s (Standing limit s) := by
  refine tells_position (((tellsExpr limit fuel).expression h).bind fun e t ht => ?_)
  cases e with
  | none => exact (tells_recover ht.apart).after ht fun _ u _ hu => .pure hu
  | some e =>
    refine (tells_terminate ht.apart).after ht fun _ u _ hu => tells_spanFrom (.pure ?_)
    exact standing_some (hu.close hu.moved)

theorem tells_jump {make : Span → Stmt} (hend : s.current.kind ≠ .endOfInput)
    (hmake : ∀ span, (make span).outlines = [.node span []]) :
    Tells (jump make) s (Standing limit s) := by
  refine tells_position (.advance (.refl h) hend fun hless hstep => ?_)
  refine (tells_expect (by decide) hstep.apart).after hstep fun _ t hle ht => ?_
  refine tells_spanFrom (.pure (standing_some ?_))
  rw [hmake]
  exact ht.close (ht.consumed (by omega))

theorem tells_returning (fuel : Nat) (hend : s.current.kind ≠ .endOfInput) :
    Tells (returning fuel) s (Standing limit s) := by
  refine tells_position (.advance (.refl h) hend fun hless hstep => ?_)
  refine (tells_optionalBefore hstep.apart _ fuel).behind hstep fun value t hle ht => ?_
  refine (tells_terminate ht.apart).after ht fun _ u hle' hu => tells_spanFrom (.pure ?_)
  exact standing_some (hu.close (hu.consumed (by omega)))

end

/-- A turn of a loop consumes a token unless the list ends. -/
theorem tells_progressing {α : Type} {s : State} {ended : Reader Bool} {p : Token.Kind → Bool}
    {part : Reader (Option α)} {outlines : Option α → List Outline} (hended : Ender ended p)
    (hpart : Tells part s fun o t => s.Covers limit t (outlines o)) :
    Tells (progressing ended part) s fun o t => s.Covers limit t (outlines o) ∧
      (t.left < s.left ∨ p t.current.kind) := by
  refine tells_position (hpart.bind fun found t ht => tells_position ?_)
  refine .look (hended.looks _ t) ?_
  dsimp only
  have hle := ht.goes.left_le
  split
  · next hstay =>
    rw [Bool.and_eq_true, Bool.not_eq_true'] at hstay
    have hend : t.current.kind ≠ .endOfInput := by
      intro hend
      rw [hend, hended.endOfInput] at hstay
      exact absurd hstay.2 (by decide)
    exact .advance ht hend fun hless hstep => .pure ⟨hstep, .inl (by omega)⟩
  · next hgone =>
    refine .pure ⟨ht, Nat.lt_or_ge t.left s.left |>.imp_right fun hge => ?_⟩
    have hsame : t.pending = s.pending := ht.goes.pending.eq_of_length (Nat.le_antisymm hle hge)
    by_cases hend : t.current.kind = .endOfInput
    · rw [hend, hended.endOfInput]
    have hsend : s.current.kind ≠ .endOfInput := by
      intro hsend
      rw [State.pending_of_end hsend, State.pending_of_not_end hend] at hsame
      cases hsame
    rw [State.pending_of_not_end hend, State.pending_of_not_end hsend] at hsame
    simpa [(List.cons.inj hsame).1] using hgone

/-- What the readers of statements find with fuel enough for the tokens that are still to be consumed.
Without it a block would have no place. -/
structure TellsStmt (limit fuel : Nat) : Prop where
  statement : ∀ {s}, s.Apart limit → 3 * s.left ≤ fuel → Tells (statement fuel) s (Standing limit s)
  block : ∀ {s}, s.Apart limit → s.current.kind = .leftBrace → 3 * s.left ≤ fuel + 1 →
    Tells (block fuel) s fun b t => s.Covers limit t [.node b.1 (outlinesOf b.2)]
  statements : ∀ {s}, s.Apart limit → 3 * s.left < fuel →
    Tells (statements fuel) s fun ss t => s.Covers limit t (outlinesOf ss)
  conditional : ∀ {s}, s.Apart limit → s.current.kind = .ifWord → 3 * s.left ≤ fuel + 1 →
    Tells (conditional fuel) s (Standing limit s)
  whileLoop : ∀ {s}, s.Apart limit → s.current.kind = .whileWord → 3 * s.left ≤ fuel + 1 →
    Tells (whileLoop fuel) s (Standing limit s)
  forLoop : ∀ {s}, s.Apart limit → s.current.kind = .forWord → 3 * s.left ≤ fuel + 1 →
    Tells (forLoop fuel) s (Standing limit s)

theorem tellsStmt_zero : TellsStmt limit 0 where
  statement h _ := .pure (.refl h)
  block h hkind hfuel := by
    have := State.left_pos (s := _) (by rw [hkind]; decide)
    omega
  statements h hfuel := by omega
  conditional h _ _ := .pure (.refl h)
  whileLoop h _ _ := .pure (.refl h)
  forLoop h _ _ := .pure (.refl h)

/-- Where the statements in braces end there are no more, with any fuel. -/
theorem tells_statements_of_end {s : State} {fuel : Nat} (h : s.Apart limit)
    (hend : decide (s.current.kind = .rightBrace) || decide (s.current.kind = .endOfInput)) :
    Tells (statements fuel) s fun ss t => s.Covers limit t (outlinesOf ss) := by
  cases fuel with
  | zero => exact .pure (.refl h)
  | succ fuel =>
    refine .look (ender_atBlockEnd.looks _ s) ?_
    rw [if_pos hend]
    exact .pure (.refl h)

namespace TellsStmt

variable {fuel : Nat} {s : State} (ih : TellsStmt limit fuel) (h : s.Apart limit)

include ih h

theorem statement_succ (hfuel : 3 * s.left ≤ fuel + 1) :
    Tells (Reader.statement (fuel + 1)) s (Standing limit s) := by
  have hdeclare (hend : s.current.kind ≠ .endOfInput) :
      Tells (do return some (((← declaration fuel).map Stmt.declare).getD .missing)) s
        (Standing limit s) := by
    refine (tells_declaration h fuel hend).bind fun d t ht => .pure (standing_some ?_)
    cases d <;> exact ht
  refine tells_kind ?_
  split
  · next hkind => exact (ih.block h hkind hfuel).bind fun b t ht => .pure (standing_some ht)
  · exact hdeclare (by simp [*])
  · exact hdeclare (by simp [*])
  · next hkind => exact ih.conditional h hkind hfuel
  · next hkind => exact ih.whileLoop h hkind hfuel
  · next hkind => exact ih.forLoop h hkind hfuel
  · exact tells_jump h (by simp [*]) fun _ => rfl
  · exact tells_jump h (by simp [*]) fun _ => rfl
  · exact tells_returning h fuel (by simp [*])
  · next hkind =>
    refine Tells.bind (P := fun _ t => s.Covers limit t [] ∧ t.current = s.current)
      ⟨h.report _, rfl⟩ ?_
    rintro _ t ⟨ht, hcurrent⟩
    exact .advance ht (by simp [hcurrent, hkind]) fun _ hstep => .pure hstep
  · exact tells_evaluation h fuel

theorem block_succ (hkind : s.current.kind = .leftBrace) (hfuel : 3 * s.left ≤ fuel + 2) :
    Tells (Reader.block (fuel + 1)) s fun b t => s.Covers limit t [.node b.1 (outlinesOf b.2)] := by
  refine tells_position (.advance (.refl h) (by simp [hkind]) fun hless hstep => ?_)
  refine (ih.statements hstep.apart (by omega)).behind hstep fun body t hle ht => ?_
  refine (tells_expect (by decide) ht.apart).after ht fun _ u hle' hu => tells_spanFrom (.pure ?_)
  exact hu.close (hu.consumed (by omega))

theorem statements_succ (hfuel : 3 * s.left < fuel + 1) :
    Tells (Reader.statements (fuel + 1)) s fun ss t => s.Covers limit t (outlinesOf ss) := by
  refine .look (ender_atBlockEnd.looks _ s) ?_
  split
  · exact .pure (.refl h)
  · refine (tells_progressing ender_atBlockEnd (ih.statement h (by omega))).bind ?_
    rintro found t ⟨ht, hless⟩
    have hrest : Tells (Reader.statements fuel) t fun ss u => t.Covers limit u (outlinesOf ss) := by
      obtain hless | hend := hless
      · exact ih.statements ht.apart (by omega)
      · exact tells_statements_of_end ht.apart hend
    refine hrest.behind ht fun ss u _ hu => .pure ?_
    cases found with
    | none => exact hu
    | some st => rwa [outlinesOf_some] at hu

theorem conditional_succ (hkind : s.current.kind = .ifWord) (hfuel : 3 * s.left ≤ fuel + 2) :
    Tells (Reader.conditional (fuel + 1)) s (Standing limit s) := by
  refine tells_position (.advance (.refl h) (by simp [hkind]) fun hless hstep => ?_)
  refine (tells_condition hstep.apart fuel).behind hstep fun cond? t hle ht => ?_
  refine (ih.statement ht.apart (by omega)).behind ht fun yes? u hle' hu => ?_
  split
  · next cond yes =>
    rw [outlinesOf_some] at hu
    have hthen {v : State} (hv : s.Covers limit v (cond.outline :: yes.outlines)) :
        Tells (do return some (Stmt.ifThen (← spanFrom s.current.span.start) cond yes)) v
          (Standing limit s) :=
      tells_spanFrom (.pure (standing_some (hv.close hv.moved)))
    refine tells_at ?_
    split
    · next helse =>
      rw [decide_eq_true_eq] at helse
      refine .advance hu (by simp [helse]) fun hless' hstep' => ?_
      refine (ih.statement hstep'.apart (by omega)).behind hstep' fun no? v _ hv => ?_
      cases no? with
      | none => exact hthen (by simpa [outlinesOf] using hv)
      | some no =>
        rw [outlinesOf_some] at hv
        exact tells_spanFrom (.pure (standing_some (hv.close hv.moved)))
    · exact hthen hu
  · exact .pure hu.none

theorem whileLoop_succ (hkind : s.current.kind = .whileWord) (hfuel : 3 * s.left ≤ fuel + 2) :
    Tells (Reader.whileLoop (fuel + 1)) s (Standing limit s) := by
  refine tells_position (.advance (.refl h) (by simp [hkind]) fun hless hstep => ?_)
  refine (tells_condition hstep.apart fuel).behind hstep fun cond? t hle ht => ?_
  refine (ih.statement ht.apart (by omega)).behind ht fun body? u _ hu => ?_
  split
  · rw [outlinesOf_some] at hu
    exact tells_spanFrom (.pure (standing_some (hu.close hu.moved)))
  · exact .pure hu.none

theorem forLoop_succ (hkind : s.current.kind = .forWord) (hfuel : 3 * s.left ≤ fuel + 2) :
    Tells (Reader.forLoop (fuel + 1)) s (Standing limit s) := by
  have habandon {t : State} {os : List Outline} (ht : s.Covers limit t os) :
      Tells (do recover; return none) t (Standing limit s) :=
    (tells_recover ht.apart).after ht fun _ u _ hu => .pure hu.none
  refine tells_position (.advance (.refl h) (by simp [hkind]) fun hless hstep => ?_)
  refine (tells_expect (by decide) hstep.apart).after hstep fun b t ht' ht => ?_
  split
  · refine (tells_setup ht.apart fuel).behind ht fun first u hu' hu => ?_
    refine (tells_optionalBefore hu.apart _ fuel).behind hu fun cond v hv' hv => ?_
    refine (tells_expect (by decide) hv.apart).after hv fun _ w hw' hw => ?_
    refine (tells_optionalBefore hw.apart _ fuel).behind hw fun post x hx' hx => ?_
    refine (tells_expect (by decide) hx.apart).after hx fun b y hy' hy => ?_
    split
    · refine (ih.statement hy.apart (by omega)).behind hy fun body? z hz' hz => ?_
      cases body? with
      | none => exact .pure hz.none
      | some body =>
        rw [outlinesOf_some] at hz
        exact tells_spanFrom (.pure (standing_some (hz.close (hz.consumed (by omega)))))
    · exact habandon hy
  · exact habandon ht

end TellsStmt

theorem tellsStmt (limit fuel : Nat) : TellsStmt limit fuel := by
  induction fuel with
  | zero => exact tellsStmt_zero
  | succ fuel ih =>
    exact ⟨ih.statement_succ, ih.block_succ, ih.statements_succ, ih.conditional_succ,
      ih.whileLoop_succ, ih.forLoop_succ⟩

theorem tells_qualifiersWithin {s : State} (h : s.Apart limit) (fuel : Nat) :
    Tells (qualifiersWithin fuel) s fun _ t => s.Covers limit t [] := by
  induction fuel generalizing s with
  | zero => exact .pure (.refl h)
  | succ fuel ih =>
    refine tells_at (tells_ahead ?_)
    split
    · next hdot =>
      simp only [Bool.and_eq_true, decide_eq_true_eq] at hdot
      refine .advance (.refl h) (by simp [hdot.1]) fun _ hstep => tells_literal ?_
      have hkind : s.step.current.kind = .identifier := hdot.2
      refine .advance hstep (by simp [hkind]) fun _ hstep' => ?_
      exact (ih hstep'.apart).after hstep' fun _ t _ ht => .pure ht
    · exact .pure (.refl h)

theorem tells_qualifiedName {s : State} (h : s.Apart limit) :
    Tells qualifiedName s fun _ t => s.Covers limit t [] := by
  refine tells_at ?_
  split
  · next hname =>
    rw [decide_eq_true_eq] at hname
    refine tells_literal (.advance (.refl h) (by simp [hname]) fun _ hstep => tells_get ?_)
    exact (tells_qualifiersWithin hstep.apart _).after hstep fun _ t _ ht => .pure ht
  · exact (tells_reportExpected h _).after (.refl h) fun _ t _ ht => .pure ht

section

variable {α : Type} {item : Reader (Option α)} {outline : α → Outline}
  (hitem : ∀ {s : State}, s.Apart limit →
    Tells item s fun o t => s.Covers limit t (o.toList.map outline)) {s : State} (h : s.Apart limit)

include hitem h

theorem tells_itemsWithin (fuel : Nat) :
    Tells (itemsWithin item fuel) s fun o t => s.Covers limit t ((o.getD []).map outline) := by
  induction fuel generalizing s with
  | zero => exact .pure (.refl h)
  | succ fuel ih =>
    refine tells_at (tells_at ?_)
    split
    · exact .pure (.refl h)
    · refine .optional (hitem h) (.refl h) rfl (fun _ => id) fun x t _ ht => tells_at ?_
      split
      · next hcomma =>
        rw [decide_eq_true_eq] at hcomma
        refine .advance ht (by simp [hcomma]) fun _ hstep => ?_
        refine (ih hstep.apart).behind hstep fun xs? u _ hu => ?_
        cases xs? with
        | none => exact .pure hu.none
        | some xs => exact .pure hu
      · exact .pure ht

theorem tells_parenthesized :
    Tells (parenthesized item) s fun o t => s.Covers limit t ((o.getD []).map outline) := by
  refine tells_get ((tells_itemsWithin hitem h _).bind fun xs? t ht => ?_)
  cases xs? with
  | none => exact .pure ht
  | some xs =>
    refine (tells_expect (by decide) ht.apart).after ht fun b u _ hu => ?_
    split
    · exact .pure hu
    · exact .pure hu.none

end

section

variable {s : State} (h : s.Apart limit)

/-- A reader that gives up with a mistake and goes on behind it finds nothing. -/
theorem tells_abandon {α : Type} {s₀ : State} {os : List Outline} {outline : α → Outline}
    (h : s₀.Covers limit s os) : Tells (do recover; return none) s
      fun (o : Option α) t => s₀.Covers limit t (o.toList.map outline) :=
  (tells_recover h.apart).after h fun _ _ _ ht => .pure ht.none

include h

theorem tells_importDecl (hend : s.current.kind ≠ .endOfInput) :
    Tells importDecl s fun o t => s.Covers limit t (o.toList.map Import.outline) := by
  refine tells_position (.advance (.refl h) hend fun hless hstep => ?_)
  refine (tells_qualifiedName hstep.apart).after hstep fun path? t hle ht => ?_
  cases path? with
  | none => exact tells_abandon ht
  | some path =>
    refine tells_at ?_
    split
    · next hopen =>
      rw [decide_eq_true_eq] at hopen
      refine .advance ht (by simp [hopen]) fun hless' htstep => ?_
      refine (tells_parenthesized tells_typeName htstep.apart).behind htstep ?_
      intro params? u hle' hu
      cases params? with
      | none => exact tells_abandon hu
      | some params =>
        refine (tells_optionalType hu.apart).behind hu fun result? v hle'' hv => ?_
        refine (tells_expect (by decide) hv.apart).after hv fun _ w hw' hw => ?_
        exact tells_spanFrom (.pure (hw.close (hw.consumed (by omega))))
    · refine (tells_expect (by decide) ht.apart).after ht fun _ u hle' hu => ?_
      exact tells_spanFrom (.pure (hu.close (hu.consumed (by omega))))

theorem tells_param :
    Tells param s fun o t => s.Covers limit t (o.toList.map Param.outline) := by
  refine tells_position (tells_at ?_)
  split
  · next hname =>
    rw [decide_eq_true_eq] at hname
    refine tells_literal (.advance (.refl h) (by simp [hname]) fun _ hstep => ?_)
    refine (tells_expect (by decide) hstep.apart).after hstep fun b t _ ht => ?_
    split
    · exact .pure ht
    · refine .optional (tells_typeName ht.apart) ht rfl (fun _ => id) fun type u _ hu => ?_
      exact tells_spanFrom (.pure (hu.close hu.moved))
  · exact (tells_reportExpected h _).after (.refl h) fun _ t _ ht => .pure ht

theorem tells_signature : Tells signature s fun o t => s.Covers limit t
    (o.elim [] fun parts => parts.1.map Param.outline ++ parts.2.toList.map TypeName.outline) ∧
      (o.isSome → t.current.kind = .leftBrace) := by
  have hnone {t : State} {os : List Outline} (ht : s.Covers limit t os) := And.intro ht.none
    (nofun : (none : Option (List Param × Option TypeName)).isSome → t.current.kind = .leftBrace)
  refine (tells_expect (by decide) h).after (.refl h) fun b t _ ht => ?_
  split
  · exact .pure (hnone ht)
  refine (tells_parenthesized tells_param ht.apart).behind ht fun params? u _ hu => ?_
  cases params? with
  | none => exact .pure (hnone hu)
  | some params =>
    refine (tells_optionalType hu.apart).behind hu fun result? v _ hv => tells_at ?_
    split
    · next hbrace => exact .pure ⟨hv, fun _ => by simpa using hbrace⟩
    · exact (tells_reportExpected hv.apart _).after hv fun _ w _ hw => .pure (hnone hw)

theorem tells_function {fuel : Nat} (hend : s.current.kind ≠ .endOfInput) (hfuel : 3 * s.left ≤ fuel) :
    Tells (function fuel) s fun o t => s.Covers limit t (o.toList.map Function.outline) := by
  refine tells_position (.advance (.refl h) hend fun hless hstep => tells_at ?_)
  split
  · next hname =>
    rw [decide_eq_true_eq] at hname
    refine tells_literal (.advance hstep (by simp [hname]) fun hless' hstep' => ?_)
    refine (tells_signature hstep'.apart).bind fun parts? t ht => ?_
    have hle := ht.1.goes.left_le
    cases parts? with
    | none => exact tells_abandon (hstep'.trans ht.1)
    | some parts =>
      refine ((tellsStmt limit fuel).block ht.1.apart (ht.2 rfl) (by omega)).behind
        (hstep'.trans ht.1) fun body u hle' hu => tells_spanFrom (.pure ?_)
      exact hu.close (hu.consumed (by omega))
  · refine (tells_reportExpected hstep.apart _).after hstep fun _ t _ ht => ?_
    exact tells_abandon ht

end

def Item.outlines : Item → List Outline
  | .import i => [i.outline]
  | .global d => [d.outline]
  | .function f => [f.outline]
  | .statement st => st.outlines

theorem tells_item {s : State} {fuel : Nat} (h : s.Apart limit) (hend : s.current.kind ≠ .endOfInput)
    (hfuel : 3 * s.left ≤ fuel) :
    Tells (item fuel) s fun o t => s.Covers limit t (o.toList.flatMap Item.outlines) := by
  have hmap {α : Type} {m : Reader (Option α)} {f : α → Item} {outline : α → Outline}
      (hf : ∀ a, (f a).outlines = [outline a])
      (hm : Tells m s fun o t => s.Covers limit t (o.toList.map outline)) :
      Tells (do return (← m).map f) s
        fun o t => s.Covers limit t (o.toList.flatMap Item.outlines) := by
    refine hm.bind fun o t ht => .pure ?_
    cases o with
    | none => exact ht
    | some a => simpa [hf] using ht
  refine tells_kind ?_
  split
  · exact hmap (fun _ => rfl) (tells_importDecl h hend)
  · exact hmap (fun _ => rfl) (tells_function h hend hfuel)
  · exact hmap (fun _ => rfl) (tells_declaration h fuel hend)
  · exact hmap (fun _ => rfl) (tells_declaration h fuel hend)
  · refine ((tellsStmt limit fuel).statement h hfuel).bind fun o t ht => .pure ?_
    cases o with
    | none => exact ht
    | some st =>
      rw [Standing, outlinesOf_some] at ht
      simpa [Item.outlines] using ht

theorem tells_items {s : State} {fuel : Nat} (h : s.Apart limit) (hfuel : 3 * s.left < fuel) :
    Tells (items fuel) s fun is t => s.Covers limit t (is.flatMap Item.outlines) := by
  induction fuel generalizing s with
  | zero => omega
  | succ fuel ih =>
    refine .look (ender_at.looks _ s) ?_
    split
    · exact .pure (.refl h)
    · next hgoing =>
      rw [decide_eq_true_eq] at hgoing
      refine (tells_progressing ender_at (tells_item h hgoing (by omega))).bind ?_
      rintro found t ⟨ht, hless⟩
      have hrest : 3 * t.left < fuel := by
        obtain hless | hend := hless
        · omega
        · rw [decide_eq_true_eq] at hend
          have hpos := State.left_pos hgoing
          rw [State.left, State.pending_of_end hend, List.length_nil]
          omega
      refine (ih ht.apart hrest).behind ht fun is u _ hu => .pure ?_
      rwa [List.flatMap_append]

theorem tells_file {s : State} {fuel : Nat} (h : s.Apart limit) (hfuel : 3 * s.left < fuel) :
    Tells (file fuel) s fun f t => ∃ span is, f = sortItems span is ∧
      s.Covers limit t (is.flatMap Item.outlines) := by
  refine tells_position ((tells_items h hfuel).bind fun is t ht => tells_spanFrom (.pure ?_))
  exact ⟨_, is, rfl, ht⟩

end Reader

def File.outlines (f : File) : List Outline :=
  f.imports.map Import.outline ++ f.globals.map Declaration.outline ++
    f.functions.map Function.outline ++ outlinesOf f.statements

/-- Sorting the parts of a file keeps the order within each kind and loses none. -/
theorem sortItems_outlines (span : Span) (is : List Reader.Item) :
    let f := Reader.sortItems span is
    let all := is.flatMap Reader.Item.outlines
    ((f.imports.map Import.outline).Sublist all ∧ (f.globals.map Declaration.outline).Sublist all ∧
      (f.functions.map Function.outline).Sublist all ∧ (outlinesOf f.statements).Sublist all) ∧
    f.outlines.Perm all := by
  induction is with
  | nil => simp [Reader.sortItems, outlinesOf, File.outlines]
  | cons i is ih =>
    obtain ⟨⟨himports, hglobals, hfunctions, hstatements⟩, hperm⟩ := ih
    dsimp only [File.outlines] at hperm ⊢
    cases i with
    | «import» i =>
      refine ⟨⟨himports.cons_cons _, hglobals.cons _, hfunctions.cons _, hstatements.cons _⟩, ?_⟩
      exact hperm.cons _
    | global d =>
      refine ⟨⟨himports.cons _, hglobals.cons_cons _, hfunctions.cons _, hstatements.cons _⟩, ?_⟩
      refine .trans ?_ (hperm.cons _)
      simp only [Reader.sortItems, List.map_cons, List.append_assoc, List.cons_append]
      exact List.perm_middle
    | function g =>
      refine ⟨⟨himports.cons _, hglobals.cons _, hfunctions.cons_cons _, hstatements.cons _⟩, ?_⟩
      refine .trans ?_ (hperm.cons _)
      simp only [Reader.sortItems, List.map_cons, List.append_assoc, List.cons_append]
      rw [← List.append_assoc, ← List.append_assoc]
      exact List.perm_middle
    | statement st =>
      refine ⟨⟨?_, ?_, ?_, .append (.refl _) hstatements⟩, ?_⟩
      · exact himports.trans (List.sublist_append_right _ _)
      · exact hglobals.trans (List.sublist_append_right _ _)
      · exact hfunctions.trans (List.sublist_append_right _ _)
      · refine .trans ?_ (hperm.append_left _)
        simp only [Reader.sortItems, outlinesOf]
        rw [← List.append_assoc, ← List.append_assoc]
        exact List.perm_append_comm.append_right _

namespace State

/-- Tokens one behind the other are in order. -/
theorem ordered_of_isChain {bytes : List UInt8} {a : Nat} {words : List Token}
    (hwords : ∀ t ∈ words, t.Exact bytes ∧ t.kind ≠ .endOfInput)
    (hfirst : ∀ t ∈ words.head?, a ≤ t.span.start.offset)
    (hchain : words.IsChain fun t u => t.span.stop.offset ≤ u.span.start.offset) :
    Outline.Ordered a (words.map Outline.ofToken) bytes.length := by
  induction words generalizing a with
  | nil => exact .nil
  | cons t words ih =>
    obtain ⟨⟨hexact, hend⟩, hrest⟩ := List.forall_mem_cons.mp hwords
    rw [List.isChain_cons] at hchain
    exact .cons (hfirst t rfl) (hexact.nonempty hend) hexact.inside .nil (ih hrest hchain.1 hchain.2)

/-- The tokens of a text are apart from each other. -/
theorem apart_ofTokens (bytes : List UInt8) :
    let tokens := tokenize (Glyph.ofBytes bytes)
    (ofTokens tokens).Apart bytes.length ∧ (ofTokens tokens).left ≤ tokens.length := by
  dsimp only
  have hlaid := Lexer.laid_tokenize (Glyph.ofBytes bytes)
  obtain ⟨beyond, hbytes, hbeyond⟩ := Lexer.readable_append (Glyph.ofBytes bytes)
  obtain ⟨hexact, hfirst, hchain⟩ :=
    hlaid.exact (by rfl : Position.start = Position.start.afterAll []) hbytes hbeyond
  obtain ⟨words, hwords, hne⟩ := hlaid.last_eq
  obtain ⟨hwhole, hpending⟩ := hwords ▸ pending_ofTokens hne rfl
  refine ⟨⟨hwhole, ?_, Nat.zero_le _⟩, ?_⟩
  · rw [hpending]
    rw [hwords] at hexact hfirst hchain
    refine .sublist ?_ (List.filter_sublist.map _)
    refine ordered_of_isChain (fun t ht => ⟨hexact t (List.mem_append_left _ ht), hne t ht⟩) ?_ ?_
    · exact fun t _ => Nat.zero_le _
    · exact (List.IsChain.left_of_append hchain).imp fun t u h => h.le
  · rw [left, hpending, hwords, List.length_append]
    exact Nat.le_trans (List.length_filter_le _ _) (Nat.le_add_right _ _)

end State

/-- Every node that stands somewhere has a place that is not empty, within the text, and around the
places of its parts, which are disjoint and in order. The nodes of each kind on the top level are in
order, and no two of them overlap. -/
theorem nodes_nested (bytes : List UInt8) :
    let file := (parse (Glyph.ofBytes bytes)).1
    (∀ o ∈ Outline.allOf file.outlines, o.Proper bytes.length) ∧
    (file.imports.map Import.outline).Pairwise Outline.Before ∧
    (file.globals.map Declaration.outline).Pairwise Outline.Before ∧
    (file.functions.map Function.outline).Pairwise Outline.Before ∧
    (outlinesOf file.statements).Pairwise Outline.Before ∧
    file.outlines.Pairwise fun o p => o.Before p ∨ p.Before o := by
  intro file
  obtain ⟨hapart, hleft⟩ := State.apart_ofTokens bytes
  have hfuel : 3 * (State.ofTokens (tokenize (Glyph.ofBytes bytes))).left <
      10 * ((tokenize (Glyph.ofBytes bytes)).length + 2) := by omega
  obtain ⟨span, is, hfile, hcovers⟩ := Reader.tells_file hapart hfuel
  replace hfile : file = Reader.sortItems span is := hfile
  have hordered := hcovers.outlines.mono (Nat.zero_le _) hcovers.apart.lastEnd
  obtain ⟨⟨himports, hglobals, hfunctions, hstatements⟩, hperm⟩ := sortItems_outlines span is
  rw [hfile]
  refine ⟨fun o ho => ?_, hordered.pairwise.sublist himports, hordered.pairwise.sublist hglobals,
    hordered.pairwise.sublist hfunctions, hordered.pairwise.sublist hstatements, ?_⟩
  · obtain ⟨p, hp, ho⟩ := Outline.mem_allOf.mp ho
    exact hordered.proper (Nat.le_refl _) o (Outline.mem_allOf.mpr ⟨p, hperm.mem_iff.mp hp, ho⟩)
  · exact hperm.symm.pairwise (hordered.pairwise.imp .inl) fun h => h.symm

end Parsed
end TypedScript
