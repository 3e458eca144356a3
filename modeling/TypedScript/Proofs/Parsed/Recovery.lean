import TypedScript.Proofs.Parsed.Progress

/-!
# Recovery from mistakes

Reading a source file comes to its end whatever its tokens are. Every turn of the loops over the parts of
a file and over the statements in braces consumes a token, and what is dropped has left a mistake.
-/

namespace TypedScript
namespace Parsed
namespace Reader

section

variable {r r' : Recovery} {s : State} {fuel fuel' : Nat} (hr : Recoveries r r')

include hr

/-- Recovery is for a missing semicolon only. -/
theorem runs_terminate (hs : s.Whole) : Runs r r' terminate terminate s
    fun _ t => s.Reads t (· = [.mark .semicolon]) := by
  refine (runs_expect (by decide) hs).bind fun b s' hs' _ herr hb => ?_
  cases b with
  | true => exact .pure hs' hb.2
  | false =>
    have hlt : s.errors.size < s'.errors.size := hb
    refine (runs_recover hr hs' (Nat.zero_lt_of_lt hb)).imp fun _ t hgoes _ => ?_
    exact .mistaken (Nat.lt_of_lt_of_le hlt hgoes.errors)

/-- Giving up behind a mistake. -/
theorem runs_abandon {α : Type} {s₀ : State} {n : Nat} {R : α → State → List Lexeme → Prop}
    (hs : s.Whole) (h : s₀.errors.size < s.errors.size) :
    let abandon : Reader (Option α) := do
      recover
      return none
    Runs r r' abandon abandon s (Ends s₀ n R) :=
  (runs_recover hr hs (Nat.zero_lt_of_lt h)).bind fun _ _ hs' _ herr _ =>
    .none hs' (Nat.lt_of_lt_of_le h herr)

omit hr in
theorem runs_optionalType (hs : s.Whole) : Runs r r' optionalType optionalType s
    fun type? t => s.Reads t (· = typePart type?) := by
  refine runs_at ?_
  split
  · rename_i h
    rw [decide_eq_true_eq] at h
    have hcolon := State.reads_mark hs h rfl nofun
    refine .advance hs (by simp [h]) fun hstep _ herr => ?_
    refine (runs_typeName hstep).imp fun o t hgoes ho => ?_
    cases o with
    | none => exact .mistaken (Nat.lt_of_le_of_lt herr ho)
    | some type =>
      refine hcolon.bind ⟨herr, hgoes.errors⟩ fun ts hts => ho.2.imp fun us hus => ?_
      rw [hts, hus]
      rfl
  · exact .pure hs (.here rfl)

/-- Mistakes noted on the way do not keep a declaration from being made. -/
theorem runs_declared (start : Position) (name : String) (isConst : Bool) (type? : Option TypeName)
    (init? : Option Expr) {s₀ : State} {n : Nat} {p : Prop} (hs : s.Whole) (hn : s.left < n)
    (herr : s₀.errors.size ≤ s.errors.size)
    (hread : s₀.Reads s fun ts => p → ∃ us, InitialPart init? us ∧
      ts = .mark (if isConst then .constWord else .varWord) :: .ident name :: (typePart type? ++ us)) :
    let declared : Reader (Option Declaration) := do
      if type?.isNone && init?.isNone then report (.untypedDeclaration name)
      if isConst && init?.isNone then report (.uninitializedConstant name)
      terminate
      return some (Declaration.mk (← spanFrom start) name isConst type? init?)
    Runs r r' declared declared s (Ends s₀ n fun d _ ts => p → d.Spelt ts) := by
  let Declares (t : State) : Prop := ∀ u : State, t.errors.size ≤ u.errors.size →
    t.Reads u (· = [.mark .semicolon]) →
    s₀.Reads u fun ts => p → ∀ span, Declaration.Spelt ⟨span, name, isConst, type?, init?⟩ ts
  have hend : ∀ {t : State}, t.Whole → t.left < n → Declares t →
      let ended : Reader (Option Declaration) := do
        terminate
        return some (Declaration.mk (← spanFrom start) name isConst type? init?)
      Runs r r' ended ended t (Ends s₀ n fun d _ ts => p → d.Spelt ts) := by
    intro t ht hlt hdeclares
    refine (runs_terminate hr ht).bind fun _ u hu hle herr' hstop => runs_spanFrom (.some hu ?_ ?_)
    · omega
    · exact (hdeclares u herr' hstop).imp fun ts hts hp => hts hp _
  have hmistaken : ∀ {t : State}, s.errors.size < t.errors.size → Declares t :=
    fun hlt u hle _ => .mistaken (by omega)
  have hconst : ∀ {t : State}, t.Whole → t.left < n → s.errors.size ≤ t.errors.size →
      ((isConst && init?.isNone) = false → Declares t) →
      let ended : Reader (Option Declaration) := do
        if isConst && init?.isNone then report (.uninitializedConstant name)
        terminate
        return some (Declaration.mk (← spanFrom start) name isConst type? init?)
      Runs r r' ended ended t (Ends s₀ n fun d _ ts => p → d.Spelt ts) := by
    intro t ht hlt herr' hdeclares
    dsimp only
    split
    · refine (runs_report ht).bind fun _ u hu hle _ hreported => hend hu (by omega) (hmistaken ?_)
      have := hreported.2.2
      omega
    · rename_i hvalid
      exact hend ht hlt (hdeclares (Bool.eq_false_iff.mpr hvalid))
  dsimp only
  split
  · refine (runs_report hs).bind fun _ t ht hle _ hreported => ?_
    have hlt := hreported.2.2
    exact hconst ht (by omega) (by omega) fun _ => hmistaken hlt
  · rename_i htyped
    refine hconst hs hn (Nat.le_refl _) fun hvalid u herr' hstop => ?_
    refine hread.bind ⟨herr, herr'⟩ fun ts hts => hstop.imp fun us hus hp span => ?_
    obtain ⟨vs, hvs, rfl⟩ := hts hp
    refine ⟨?_, ?_, vs, hvs, by simp [hus]⟩
    · revert htyped
      cases type? <;> cases init? <;> simp
    · rintro (hisConst : isConst = true)
      simpa [hisConst] using hvalid

/-- A declaration consumes its first word even where it gives up. -/
theorem runs_declaration (hs : s.Whole) (hend : s.current.kind ≠ .endOfInput)
    (hfuel : 10 * s.left ≤ fuel) (hfuel' : 10 * s.left ≤ fuel') :
    Runs r r' (declaration fuel) (declaration fuel') s fun o s' => s'.left < s.left ∧
      Ends s s.left (fun d _ ts => s.current.kind = .varWord ∨ s.current.kind = .constWord →
        d.Spelt ts) o s' := by
  have hword : s.Reads s.step fun ts => s.current.kind = .varWord ∨ s.current.kind = .constWord →
      ts = [.mark (if s.current.kind = .constWord then .constWord else .varWord)] := by
    refine (State.reads_step hs hend).imp fun ts hts hkind => ?_
    rw [hts]
    obtain h | h := hkind <;> simp [Token.lexeme_mark h rfl, h]
  refine runs_position (runs_at (.advance hs hend fun hstep hleft hnow => ?_))
  refine Runs.imp (P := Ends s s.left fun d _ ts =>
    s.current.kind = .varWord ∨ s.current.kind = .constWord → d.Spelt ts) ?_
    fun o t hgoes ho => ⟨Nat.lt_of_le_of_lt hgoes.left_le (by omega), ho⟩
  refine runs_at ?_
  split
  · rename_i hname
    rw [decide_eq_true_eq] at hname
    have hident := State.reads_ident hstep hname
    refine runs_literal (.advance hstep (by simp [hname]) fun hstep' hleft' hnow' => ?_)
    refine (runs_optionalType hstep').bind fun type? t ht hle herr htype => runs_at ?_
    dsimp only
    split
    · rename_i hassign
      rw [decide_eq_true_eq] at hassign
      have hmark := State.reads_mark ht hassign rfl nofun
      refine .advance ht (by simp [hassign]) fun htstep htleft htnow => ?_
      refine ((runsExpr r r' fuel).expression htstep (by omega) (by omega)).bind ?_
      intro init? t' ht' hle' herr' hinit
      refine runs_declared hr _ _ _ _ _ ht' (by omega) (by omega) ?_
      cases init? with
      | none =>
        have : t.step.errors.size < t'.errors.size := hinit
        exact .mistaken (by omega)
      | some e =>
        refine hword.bind (by omega) fun ts hts => hident.bind (by omega) fun us hus => ?_
        refine htype.bind (by omega) fun vs hvs => hmark.bind (by omega) fun ws hws => ?_
        refine hinit.2.imp fun xs hxs hkind => ⟨_, .some hxs, ?_⟩
        simp [hts hkind, hus, hvs, hws]
    · refine runs_declared hr _ _ _ _ _ ht (by omega) (by omega) ?_
      refine hword.bind (by omega) fun ts hts => hident.bind (by omega) fun us hus => ?_
      exact htype.imp fun vs hvs hkind => ⟨_, .none, by simp [hts hkind, hus, hvs]⟩
  · refine (runs_reportExpected hstep).bind fun _ t ht _ _ hreported => ?_
    refine runs_abandon hr ht ?_
    have := hreported.2.2
    omega

omit hr in
theorem runs_condition (hs : s.Whole) (hfuel : 10 * s.left ≤ fuel) (hfuel' : 10 * s.left ≤ fuel') :
    Runs r r' (condition fuel) (condition fuel') s (Ends s s.left fun e _ ts => ∃ us, e.Spelt us ∧
      ts = .mark .leftParen :: (us ++ [Lexeme.mark .rightParen])) := by
  refine .required (runs_expect (by decide) hs) (Nat.le_refl _) rfl rfl ?_
  intro t ht _ herr hlt hopen
  refine ((runsExpr r r' fuel).expression ht (by omega) (by omega)).bind ?_
  intro cond t' ht' _ herr' hcond
  refine (runs_expect (by decide) ht').bind fun closed u hu hle hnow hclosed => .pure hu ?_
  cases cond with
  | none =>
    have : t.errors.size < t'.errors.size := hcond
    rw [Ends]
    omega
  | some e =>
    refine ⟨by have := hcond.1; omega, ?_⟩
    cases closed with
    | false =>
      have : t'.errors.size < u.errors.size := hclosed
      exact .mistaken (by omega)
    | true =>
      refine hopen.bind (by omega) fun ts hts => hcond.2.bind (by omega) fun us hus => ?_
      exact hclosed.2.imp fun vs hvs => ⟨us, hus, by simp [hts, hvs]⟩

theorem runs_setup (hs : s.Whole) (hfuel : 10 * s.left + 6 ≤ fuel)
    (hfuel' : 10 * s.left + 6 ≤ fuel') :
    Runs r r' (setup fuel) (setup fuel') s fun first t => s.Reads t (SetupPart first) := by
  have hdeclare : s.current.kind = .varWord ∨ s.current.kind = .constWord →
      Runs r r' (do return (← declaration fuel).map Setup.declare)
        (do return (← declaration fuel').map Setup.declare) s
        fun first t => s.Reads t (SetupPart first) := by
    intro hkind
    have hend : s.current.kind ≠ .endOfInput := by
      rintro h
      simp [h] at hkind
    refine (runs_declaration hr hs hend (by omega) (by omega)).bind fun o t ht _ _ ho => .pure ht ?_
    cases o with
    | none => exact .mistaken ho.2
    | some d => exact ho.2.2.imp fun ts hts => .declare (hts hkind)
  refine runs_kind ?_
  split
  · exact hdeclare (by simp [*])
  · exact hdeclare (by simp [*])
  · rename_i hkind
    have hmark := State.reads_mark hs hkind rfl nofun
    refine .advance hs (by simp [hkind]) fun hstep _ _ => .pure hstep ?_
    exact hmark.imp fun ts hts => hts ▸ .none
  · refine runs_position (((runsExpr r r' fuel).expression hs hfuel hfuel').bind ?_)
    intro o t ht _ herr ho
    refine runs_spanFrom ((runs_expect (by decide) ht).bind fun stopped u hu _ herr' hstopped => ?_)
    refine .pure hu ?_
    cases o with
    | none =>
      have : s.errors.size < t.errors.size := ho
      exact .mistaken (by omega)
    | some e =>
      cases stopped with
      | false =>
        have : t.errors.size < u.errors.size := hstopped
        exact .mistaken (by omega)
      | true =>
        refine ho.2.bind (by omega) fun ts hts => hstopped.2.imp fun us hus => ?_
        rw [hus]
        exact .eval (v := ⟨_, e⟩) hts

omit hr in
theorem runs_optionalBefore (stop : Token.Kind) (hs : s.Whole) (hfuel : 10 * s.left + 6 ≤ fuel)
    (hfuel' : 10 * s.left + 6 ≤ fuel') : Runs r r' (optionalBefore stop fuel)
      (optionalBefore stop fuel') s fun e t => s.Reads t (SpeltOr e) := by
  refine runs_at ?_
  split
  · exact .pure hs (.here .none)
  · refine ((runsExpr r r' fuel).expression hs hfuel hfuel').imp fun o t _ ho => ?_
    cases o with
    | none => exact .mistaken ho
    | some e => exact ho.2.imp fun ts hts => .some hts

theorem runs_evaluation (hs : s.Whole) (hfuel : 10 * s.left + 6 ≤ fuel)
    (hfuel' : 10 * s.left + 6 ≤ fuel') : Runs r r' (evaluation fuel) (evaluation fuel') s
      (Ends s s.left fun st _ ts => Clause.Spelt (.stmt st) ts ∧ st.isOpen = false) := by
  refine runs_position (((runsExpr r r' fuel).expression hs hfuel hfuel').bind ?_)
  intro o t ht _ herr ho
  cases o with
  | none => exact runs_abandon hr ht ho
  | some e =>
    refine (runs_terminate hr ht).bind fun _ u hu hle herr' hstop => runs_spanFrom (.some hu ?_ ?_)
    · exact Nat.lt_of_le_of_lt hle ho.1
    · refine ho.2.bind ⟨herr, herr'⟩ fun ts hts => hstop.imp fun us hus => ?_
      rw [hus]
      exact ⟨.eval (v := ⟨_, e⟩) hts, rfl⟩

omit hr in
theorem runs_jump {make : Span → Stmt} (hs : s.Whole) {k : Token.Kind} (hkind : s.current.kind = k)
    (hk : k ≠ .endOfInput ∧ k.isWorded = false)
    (hmake : ∀ span, Clause.Spelt (.stmt (make span)) [.mark k, .mark .semicolon] ∧
      (make span).isOpen = false) :
    Runs r r' (jump make) (jump make) s
      (Ends s s.left fun st _ ts => Clause.Spelt (.stmt st) ts ∧ st.isOpen = false) := by
  have hmark := State.reads_mark hs hkind hk.2 hk.1
  refine runs_position (.advance hs (hkind ▸ hk.1) fun hstep hleft herr => ?_)
  refine (runs_expect (by decide) hstep).bind fun stopped t ht hle herr' hstopped => ?_
  refine runs_spanFrom (.some ht (by omega) ?_)
  cases stopped with
  | false =>
    have : s.step.errors.size < t.errors.size := hstopped
    exact .mistaken (by omega)
  | true =>
    refine hmark.bind (by omega) fun ts hts => hstopped.2.imp fun us hus => ?_
    rw [hts, hus]
    exact hmake _

theorem runs_returning (hs : s.Whole) (hkind : s.current.kind = .returnWord)
    (hfuel : 10 * s.left ≤ fuel) (hfuel' : 10 * s.left ≤ fuel') :
    Runs r r' (returning fuel) (returning fuel') s
      (Ends s s.left fun st _ ts => Clause.Spelt (.stmt st) ts ∧ st.isOpen = false) := by
  have hmark := State.reads_mark hs hkind rfl nofun
  refine runs_position (.advance hs (by simp [hkind]) fun hstep hleft herr => ?_)
  refine (runs_optionalBefore _ hstep (by omega) (by omega)).bind fun value t ht hle herr' hvalue => ?_
  refine (runs_terminate hr ht).bind fun _ u hu hle' herr'' hstop => runs_spanFrom (.some hu ?_ ?_)
  · omega
  · refine hmark.bind (by omega) fun ts hts => hvalue.bind (by omega) fun us hus => ?_
    refine hstop.imp fun vs hvs => ⟨?_, rfl⟩
    simpa [hts, hvs] using .returnStmt hus

end

section

variable {r r' : Recovery} {s : State}

/-- A reader that looks whether a list ends here. -/
structure Ender (ended : Reader Bool) (p : Token.Kind → Bool) : Prop where
  looks : ∀ r s, ended r s = (p s.current.kind, s)
  endOfInput : p .endOfInput

theorem ender_at : Ender (at? .endOfInput) fun k => decide (k = .endOfInput) := ⟨fun _ _ => rfl, rfl⟩

theorem ender_atBlockEnd :
    Ender atBlockEnd fun k => decide (k = .rightBrace) || decide (k = .endOfInput) :=
  ⟨fun _ _ => rfl, rfl⟩

/-- Of tokens in order, those that are left start behind one that was consumed. -/
theorem offset_lt_of_goes {t : State} (hordered : s.Ordered) (hgoes : s.Goes t)
    (hend : s.current.kind ≠ .endOfInput) (htend : t.current.kind ≠ .endOfInput)
    (hlt : t.left < s.left) : s.current.span.start.offset < t.current.span.start.offset := by
  obtain ⟨us, hus⟩ := hgoes.pending
  rw [State.left, State.left, ← hus, List.length_append] at hlt
  obtain ⟨u, us, rfl⟩ := List.exists_cons_of_length_pos (by omega : 0 < us.length)
  rw [State.pending_of_not_end htend, State.pending_of_not_end hend] at hus
  rw [State.Ordered, State.pending_of_not_end hend, ← hus, List.cons_append,
    List.pairwise_cons] at hordered
  have hu : u = s.current := (List.cons.inj hus).1
  exact hu ▸ hordered.1 t.current (by simp)

/-- A turn of a loop consumes a token, and leaves a mistake if it finds nothing. A part that consumes
nothing leaves the current token where it is. -/
theorem runs_progressing {α : Type} {ended : Reader Bool} {p : Token.Kind → Bool}
    {part part' : Reader (Option α)} {R : α → State → List Lexeme → Prop} (hended : Ender ended p)
    (hgoing : p s.current.kind = false) (hpart : Runs r r' part part' s (Ends s s.left R)) :
    Runs r r' (progressing ended part) (progressing ended part') s fun o s' =>
      s'.left < s.left ∧ Ends s s.left R o s' := by
  have hgoes := hpart.imp fun o s' hgoes ho =>
    (⟨hgoes, ho⟩ : s.Goes s' ∧ Ends s s.left R o s')
  refine runs_position (hgoes.bind fun found t ht hle herr hfound => runs_position ?_)
  refine .look (hended.looks · t) ?_
  obtain ⟨hgoes, hfound⟩ := hfound
  have hend : s.current.kind ≠ .endOfInput := by
    intro hend
    rw [hend, hended.endOfInput] at hgoing
    cases hgoing
  dsimp only
  by_cases hstuck : t.left = s.left
  · have hsame : t.pending = s.pending := hgoes.pending.eq_of_length hstuck
    have htend : t.current.kind ≠ .endOfInput := by
      intro htend
      have hpos := State.left_pos hend
      rw [← hstuck, State.left, State.pending_of_end htend] at hpos
      cases hpos
    have hcurrent : t.current = s.current := by
      rw [State.pending_of_not_end htend, State.pending_of_not_end hend] at hsame
      exact (List.cons.inj hsame).1
    rw [hcurrent, hgoing, if_pos (by simp)]
    refine .advance ht htend fun hstep hleft hnow => .pure hstep ⟨by omega, ?_⟩
    cases found with
    | none => exact Nat.lt_of_lt_of_le hfound hnow
    | some a => exact absurd hstuck (Nat.ne_of_lt hfound.1)
  · have hlt : t.left < s.left := by omega
    split
    · rename_i hstay
      rw [Bool.and_eq_true, decide_eq_true_eq] at hstay
      have htend : t.current.kind ≠ .endOfInput := by
        intro htend
        simp [htend, hended.endOfInput] at hstay
      refine .advance ht htend fun hstep hleft hnow => .pure hstep ⟨by omega, ?_⟩
      cases found with
      | none => exact Nat.lt_of_lt_of_le hfound hnow
      | some a =>
        refine ⟨by omega, fun hordered _ => ?_⟩
        exact absurd (offset_lt_of_goes hordered hgoes hend htend hlt) (by omega)
    · exact .pure ht ⟨hlt, hfound⟩

end

/-- An `else` that comes next does not belong to the statement. -/
def NoElse (st : Stmt) (s : State) : Prop := st.isOpen → s.current.kind ≠ .elseWord

/-- What the readers of statements do with fuel enough for the tokens that are still to be consumed. -/
structure RunsStmt (r r' : Recovery) (fuel : Nat) : Prop where
  statement : ∀ {fuel' s}, s.Whole → 10 * s.left + 7 ≤ fuel → 10 * s.left + 7 ≤ fuel' →
    Runs r r' (statement fuel) (statement fuel') s
      (Ends s s.left fun st t ts => Clause.Spelt (.stmt st) ts ∧ NoElse st t)
  block : ∀ {fuel' s}, s.Whole → s.current.kind = .leftBrace → 10 * s.left + 1 ≤ fuel →
    10 * s.left + 1 ≤ fuel' → Runs r r' (block fuel) (block fuel') s fun b t => t.left < s.left ∧
      s.Reads t fun ts => ∃ us, Clause.Spelt (.stmts b.2) us ∧
        ts = .mark .leftBrace :: (us ++ [Lexeme.mark .rightBrace])
  statements : ∀ {fuel' s}, s.Whole → 10 * s.left + 8 ≤ fuel → 10 * s.left + 8 ≤ fuel' →
    Runs r r' (statements fuel) (statements fuel') s fun ss t => s.Reads t (Clause.Spelt (.stmts ss))
  conditional : ∀ {fuel' s}, s.Whole → s.current.kind = .ifWord → 10 * s.left + 1 ≤ fuel →
    10 * s.left + 1 ≤ fuel' → Runs r r' (conditional fuel) (conditional fuel') s
      (Ends s s.left fun st t ts => Clause.Spelt (.stmt st) ts ∧ NoElse st t)
  whileLoop : ∀ {fuel' s}, s.Whole → s.current.kind = .whileWord → 10 * s.left + 1 ≤ fuel →
    10 * s.left + 1 ≤ fuel' → Runs r r' (whileLoop fuel) (whileLoop fuel') s
      (Ends s s.left fun st t ts => Clause.Spelt (.stmt st) ts ∧ NoElse st t)
  forLoop : ∀ {fuel' s}, s.Whole → s.current.kind = .forWord → 10 * s.left + 1 ≤ fuel →
    10 * s.left + 1 ≤ fuel' → Runs r r' (forLoop fuel) (forLoop fuel') s
      (Ends s s.left fun st t ts => Clause.Spelt (.stmt st) ts ∧ NoElse st t)

theorem runsStmt_zero {r r' : Recovery} : RunsStmt r r' 0 := by
  constructor <;> intros <;> omega

namespace RunsStmt

variable {r r' : Recovery} {fuel fuel' : Nat} {s : State} (hr : Recoveries r r')
  (ih : RunsStmt r r' fuel)

include ih

include hr in
theorem statement_succ (hs : s.Whole) (hfuel : 10 * s.left + 7 ≤ fuel + 1)
    (hfuel' : 10 * s.left + 7 ≤ fuel' + 1) : Runs r r' (Reader.statement (fuel + 1))
      (Reader.statement (fuel' + 1)) s
      (Ends s s.left fun st t ts => Clause.Spelt (.stmt st) ts ∧ NoElse st t) := by
  -- A declaration that gives up still takes the place of a statement, and has consumed its first word.
  have hdeclare : s.current.kind = .varWord ∨ s.current.kind = .constWord →
      Runs r r' (do return some (((← declaration fuel).map Stmt.declare).getD .missing))
        (do return some (((← declaration fuel').map Stmt.declare).getD .missing)) s
        (Ends s s.left fun st t ts => Clause.Spelt (.stmt st) ts ∧ NoElse st t) := by
    intro hkind
    have hend : s.current.kind ≠ .endOfInput := by
      rintro h
      simp [h] at hkind
    refine (runs_declaration hr hs hend (by omega) (by omega)).bind fun o t ht _ _ ho => ?_
    refine .some ht ho.1 ?_
    cases o with
    | none => exact .mistaken ho.2
    | some d => exact ho.2.2.imp fun ts hts => ⟨.declare (hts hkind), nofun⟩
  have hclosed : ∀ {m m' : Reader (Option Stmt)}, Runs r r' m m' s
        (Ends s s.left fun st _ ts => Clause.Spelt (.stmt st) ts ∧ st.isOpen = false) →
      Runs r r' m m' s (Ends s s.left fun st t ts => Clause.Spelt (.stmt st) ts ∧ NoElse st t) := by
    intro m m' hm
    refine hm.behind (Nat.le_refl _) (Nat.le_refl _) fun st t _ hread => hread.imp fun ts hts => ?_
    exact ⟨hts.1, fun hopen => by simp [hts.2] at hopen⟩
  refine runs_kind ?_
  split
  · rename_i hkind
    refine (ih.block hs hkind (by omega) (by omega)).bind fun b t ht _ _ hb => ?_
    refine .some ht hb.1 (hb.2.imp fun ts hts => ⟨?_, nofun⟩)
    obtain ⟨us, hus, rfl⟩ := hts
    exact .block hus
  · exact hdeclare (by simp [*])
  · exact hdeclare (by simp [*])
  · rename_i hkind
    exact ih.conditional hs hkind (by omega) (by omega)
  · rename_i hkind
    exact ih.whileLoop hs hkind (by omega) (by omega)
  · rename_i hkind
    exact ih.forLoop hs hkind (by omega) (by omega)
  · rename_i hkind
    exact hclosed (runs_jump hs hkind (by decide) fun _ => ⟨.breakLoop, rfl⟩)
  · rename_i hkind
    exact hclosed (runs_jump hs hkind (by decide) fun _ => ⟨.continueLoop, rfl⟩)
  · rename_i hkind
    exact hclosed (runs_returning hr hs hkind (by omega) (by omega))
  · rename_i hkind
    refine (runs_report hs).bind fun _ t ht _ _ hreported => ?_
    obtain ⟨hcurrent, -, hnow⟩ := hreported
    have hend : t.current.kind ≠ .endOfInput := by simp [hcurrent, hkind]
    exact .advance ht hend fun hstep _ _ => .none hstep (by omega)
  · exact hclosed (runs_evaluation hr hs (by omega) (by omega))

theorem block_succ (hs : s.Whole) (hkind : s.current.kind = .leftBrace)
    (hfuel : 10 * s.left + 1 ≤ fuel + 1) (hfuel' : 10 * s.left + 1 ≤ fuel' + 1) :
    Runs r r' (Reader.block (fuel + 1)) (Reader.block (fuel' + 1)) s fun b t => t.left < s.left ∧
      s.Reads t fun ts => ∃ us, Clause.Spelt (.stmts b.2) us ∧
        ts = .mark .leftBrace :: (us ++ [Lexeme.mark .rightBrace]) := by
  have hopen := State.reads_mark hs hkind rfl nofun
  refine runs_position (.advance hs (by simp [hkind]) fun hstep hleft herr => ?_)
  refine (ih.statements hstep (by omega) (by omega)).bind fun body t ht hle herr' hbody => ?_
  refine (runs_expect (by decide) ht).bind fun closed u hu hle' herr'' hclosed => ?_
  refine runs_spanFrom (.pure hu ⟨by omega, ?_⟩)
  cases closed with
  | false =>
    have : t.errors.size < u.errors.size := hclosed
    exact .mistaken (by omega)
  | true =>
    refine hopen.bind (by omega) fun ts hts => hbody.bind (by omega) fun us hus => ?_
    exact hclosed.2.imp fun vs hvs => ⟨us, hus, by simp [hts, hvs]⟩

theorem statements_succ (hs : s.Whole) (hfuel : 10 * s.left + 8 ≤ fuel + 1)
    (hfuel' : 10 * s.left + 8 ≤ fuel' + 1) : Runs r r' (Reader.statements (fuel + 1))
      (Reader.statements (fuel' + 1)) s fun ss t => s.Reads t (Clause.Spelt (.stmts ss)) := by
  refine .look (ender_atBlockEnd.looks · s) ?_
  split
  · exact .pure hs (.here .nil)
  · rename_i hgoing
    rw [Bool.not_eq_true] at hgoing
    refine (runs_progressing ender_atBlockEnd hgoing
      (ih.statement hs (by omega) (by omega))).bind fun stmt t ht _ herr hstmt => ?_
    have hlt := hstmt.1
    refine (ih.statements ht (by omega) (by omega)).bind fun ss u hu _ herr' hss => .pure hu ?_
    cases stmt with
    | none => exact .mistaken (Nat.lt_of_lt_of_le hstmt.2 herr')
    | some st => exact hstmt.2.2.bind ⟨herr, herr'⟩ fun ts hts => hss.imp fun us hus => .cons hts.1 hus

theorem conditional_succ (hs : s.Whole) (hkind : s.current.kind = .ifWord)
    (hfuel : 10 * s.left + 1 ≤ fuel + 1) (hfuel' : 10 * s.left + 1 ≤ fuel' + 1) :
    Runs r r' (Reader.conditional (fuel + 1)) (Reader.conditional (fuel' + 1)) s
      (Ends s s.left fun st t ts => Clause.Spelt (.stmt st) ts ∧ NoElse st t) := by
  have hword := State.reads_mark hs hkind rfl nofun
  refine runs_position (.advance hs (by simp [hkind]) fun hstep hleft hnow => ?_)
  refine (runs_condition hstep (by omega) (by omega)).bind fun cond? t ht hle herr hcond => ?_
  refine (ih.statement ht (by omega) (by omega)).bind fun yes? u hu hle' herr' hyes => ?_
  cases cond? with
  | none =>
    rw [Ends] at hcond
    exact .none hu (by omega)
  | some cond =>
    cases yes? with
    | none =>
      rw [Ends] at hyes
      exact .none hu (by omega)
    | some yes =>
      refine runs_at ?_
      split
      · rename_i helse
        rw [decide_eq_true_eq] at helse
        have hmark := State.reads_mark hu helse rfl nofun
        refine .advance hu (by simp [helse]) fun hustep huleft hunow => ?_
        refine (ih.statement hustep (by omega) (by omega)).bind fun no? v hv hle'' herr'' hno => ?_
        cases no? with
        | none =>
          have : u.step.errors.size < v.errors.size := hno
          exact runs_spanFrom (.some hv (by omega) (.mistaken (by omega)))
        | some no =>
          refine runs_spanFrom (.some hv (by omega) ?_)
          refine hword.bind (by omega) fun ts hts => hcond.2.bind (by omega) fun us hus => ?_
          refine hyes.2.bind (by omega) fun vs hvs => hmark.bind (by omega) fun ws hws => ?_
          refine hno.2.imp fun xs hxs => ?_
          obtain ⟨us, hspelt, rfl⟩ := hus
          have hclosed : yes.isOpen = false := by
            rw [← Bool.not_eq_true]
            exact fun hopen => hvs.2 hopen helse
          refine ⟨?_, fun hopen => hxs.2 hopen⟩
          simpa [hts, hws] using .ifElse hspelt hvs.1 hclosed hxs.1
      · rename_i helse
        rw [decide_eq_true_eq] at helse
        refine runs_spanFrom (.some hu (by omega) ?_)
        refine hword.bind (by omega) fun ts hts => hcond.2.bind (by omega) fun us hus => ?_
        refine hyes.2.imp fun vs hvs => ?_
        obtain ⟨us, hspelt, rfl⟩ := hus
        refine ⟨?_, fun _ => helse⟩
        simpa [hts] using .ifThen hspelt hvs.1

theorem whileLoop_succ (hs : s.Whole) (hkind : s.current.kind = .whileWord)
    (hfuel : 10 * s.left + 1 ≤ fuel + 1) (hfuel' : 10 * s.left + 1 ≤ fuel' + 1) :
    Runs r r' (Reader.whileLoop (fuel + 1)) (Reader.whileLoop (fuel' + 1)) s
      (Ends s s.left fun st t ts => Clause.Spelt (.stmt st) ts ∧ NoElse st t) := by
  have hword := State.reads_mark hs hkind rfl nofun
  refine runs_position (.advance hs (by simp [hkind]) fun hstep hleft hnow => ?_)
  refine (runs_condition hstep (by omega) (by omega)).bind fun cond? t ht hle herr hcond => ?_
  refine (ih.statement ht (by omega) (by omega)).bind fun body? u hu hle' herr' hbody => ?_
  cases cond? with
  | none =>
    rw [Ends] at hcond
    exact .none hu (by omega)
  | some cond =>
    cases body? with
    | none =>
      rw [Ends] at hbody
      exact .none hu (by omega)
    | some body =>
      refine runs_spanFrom (.some hu (by omega) ?_)
      refine hword.bind (by omega) fun ts hts => hcond.2.bind (by omega) fun us hus => ?_
      refine hbody.2.imp fun vs hvs => ?_
      obtain ⟨us, hspelt, rfl⟩ := hus
      refine ⟨?_, fun hopen => hvs.2 hopen⟩
      simpa [hts] using .whileLoop hspelt hvs.1

include hr in
theorem forLoop_succ (hs : s.Whole) (hkind : s.current.kind = .forWord)
    (hfuel : 10 * s.left + 1 ≤ fuel + 1) (hfuel' : 10 * s.left + 1 ≤ fuel' + 1) :
    Runs r r' (Reader.forLoop (fuel + 1)) (Reader.forLoop (fuel' + 1)) s
      (Ends s s.left fun st t ts => Clause.Spelt (.stmt st) ts ∧ NoElse st t) := by
  have hword := State.reads_mark hs hkind rfl nofun
  refine runs_position (.advance hs (by simp [hkind]) fun hstep hleft hnow => ?_)
  refine (runs_expect (by decide) hstep).bind fun b t ht hle herr hb => ?_
  cases b with
  | false =>
    rw [Found] at hb
    exact runs_abandon hr ht (by omega)
  | true =>
    have hlt := hb.1
    refine (runs_setup hr ht (by omega) (by omega)).bind fun first u hu hle' herr' hfirst => ?_
    refine (runs_optionalBefore _ hu (by omega) (by omega)).bind ?_
    intro cond v hv hle'' herr'' hcond
    refine (runs_expect (by decide) hv).bind fun stopped w hw hlw herrw hstopped => ?_
    refine (runs_optionalBefore _ hw (by omega) (by omega)).bind fun post x hx hlx herrx hpost => ?_
    refine (runs_expect (by decide) hx).bind fun b y hy hly herry hb' => ?_
    cases b with
    | false =>
      rw [Found] at hb'
      exact runs_abandon hr hy (by omega)
    | true =>
      refine .optional (ih.statement hy (by omega) (by omega)) (by omega) rfl rfl ?_
      intro body z hz hlz herrz _ hbody
      refine runs_spanFrom (.some hz (by omega) ?_)
      cases stopped with
      | false =>
        have : v.errors.size < w.errors.size := hstopped
        exact .mistaken (by omega)
      | true =>
        refine hword.bind (by omega) fun ts hts => hb.2.bind (by omega) fun us hus => ?_
        refine hfirst.bind (by omega) fun vs hvs => hcond.bind (by omega) fun ws hws => ?_
        refine hstopped.2.bind (by omega) fun xs hxs => hpost.bind (by omega) fun ys hys => ?_
        refine hb'.2.bind (by omega) fun zs hzs => hbody.imp fun bs hbs => ?_
        refine ⟨?_, fun hopen => hbs.2 hopen⟩
        simpa [hts, hus, hxs, hzs] using .forLoop hvs hws hys hbs.1

end RunsStmt

theorem runsStmt {r r' : Recovery} (hr : Recoveries r r') (fuel : Nat) : RunsStmt r r' fuel := by
  induction fuel with
  | zero => exact runsStmt_zero
  | succ fuel ih =>
    have hpred : ∀ {n fuel' : Nat}, n + 1 ≤ fuel' → ∃ k, fuel' = k + 1 :=
      fun h => Nat.exists_eq_add_one_of_ne_zero (by omega)
    constructor
    · intro fuel' s hs hfuel hfuel'
      obtain ⟨k, rfl⟩ := hpred hfuel'
      exact ih.statement_succ hr hs hfuel hfuel'
    · intro fuel' s hs hkind hfuel hfuel'
      obtain ⟨k, rfl⟩ := hpred hfuel'
      exact ih.block_succ hs hkind hfuel hfuel'
    · intro fuel' s hs hfuel hfuel'
      obtain ⟨k, rfl⟩ := hpred hfuel'
      exact ih.statements_succ hs hfuel hfuel'
    · intro fuel' s hs hkind hfuel hfuel'
      obtain ⟨k, rfl⟩ := hpred hfuel'
      exact ih.conditional_succ hs hkind hfuel hfuel'
    · intro fuel' s hs hkind hfuel hfuel'
      obtain ⟨k, rfl⟩ := hpred hfuel'
      exact ih.whileLoop_succ hs hkind hfuel hfuel'
    · intro fuel' s hs hkind hfuel hfuel'
      obtain ⟨k, rfl⟩ := hpred hfuel'
      exact ih.forLoop_succ hr hs hkind hfuel hfuel'

section

variable {r r' : Recovery} {s : State} {fuel fuel' : Nat}

theorem runs_qualifiersWithin (hs : s.Whole) (hfuel : s.left < fuel) (hfuel' : s.left < fuel') :
    Runs r r' (qualifiersWithin fuel) (qualifiersWithin fuel') s fun parts t =>
      s.Reads t (· = parts.flatMap fun part => [.mark .dot, .ident part]) := by
  induction fuel generalizing fuel' s with
  | zero => omega
  | succ fuel ih =>
    obtain ⟨fuel', rfl⟩ := Nat.exists_eq_add_one_of_ne_zero (Nat.ne_of_gt (Nat.zero_lt_of_lt hfuel'))
    refine runs_at (runs_ahead ?_)
    split
    · rename_i h
      simp only [Bool.and_eq_true, decide_eq_true_eq] at h
      have hdot := State.reads_mark hs h.1 rfl nofun
      refine .advance hs (by simp [h.1]) fun hstep hleft _ => runs_literal ?_
      have hname : s.step.current.kind = .identifier := h.2
      have hident := State.reads_ident hstep hname
      refine .advance hstep (by simp [hname]) fun hstep' hleft' _ => ?_
      refine (ih hstep' (by omega) (by omega)).bind fun parts t ht _ _ hparts => .pure ht ?_
      refine hdot.bind (by omega) fun ts hts => hident.bind (by omega) fun us hus => ?_
      exact hparts.imp fun vs hvs => by simp [hts, hus, hvs]
    · exact .pure hs (.here rfl)

theorem runs_qualifiedName (hs : s.Whole) : Runs r r' qualifiedName qualifiedName s
    (Ends s s.left fun path _ ts => path ≠ [] ∧ ts = pathLexemes path) := by
  refine runs_at ?_
  split
  · rename_i h
    rw [decide_eq_true_eq] at h
    have hident := State.reads_ident hs h
    refine runs_literal (.advance hs (by simp [h]) fun hstep hleft _ => runs_get ?_)
    refine (runs_qualifiersWithin hstep hstep.left_lt hstep.left_lt).bind fun parts t ht hle _ hparts => ?_
    refine .some ht (by omega) ?_
    exact hident.bind (by omega) fun ts hts => hparts.imp fun us hus => ⟨nofun, by
      rw [hts, hus]
      rfl⟩
  · refine (runs_reportExpected hs).bind fun _ t ht _ _ hreported => .none ht ?_
    exact hreported.2.2

section

variable {α : Type} {item : Reader (Option α)} {P : α → List Lexeme → Prop}
  (hitem : ∀ {s : State}, s.Whole → Runs r r' item item s (Ends s s.left fun a _ => P a))

include hitem

theorem runs_itemsWithin (hs : s.Whole) (hfuel : s.left < fuel) (hfuel' : s.left < fuel') :
    Runs r r' (itemsWithin item fuel) (itemsWithin item fuel') s
      (Ends s (s.left + 1) fun as _ => Listed P as) := by
  induction fuel generalizing fuel' s with
  | zero => omega
  | succ fuel ih =>
    obtain ⟨fuel', rfl⟩ := Nat.exists_eq_add_one_of_ne_zero (Nat.ne_of_gt (Nat.zero_lt_of_lt hfuel'))
    refine runs_at (runs_at ?_)
    split
    · exact .some hs (by omega) (.here .nil)
    · refine .optional (hitem hs) (Nat.le_refl _) rfl rfl fun a t ht _ herr hlt ha => runs_at ?_
      split
      · rename_i hcomma
        rw [decide_eq_true_eq] at hcomma
        have hmark := State.reads_mark ht hcomma rfl nofun
        refine .advance ht (by simp [hcomma]) fun hstep hleft hnow => ?_
        refine .optional (ih hstep (by omega) (by omega)) (by omega) rfl rfl ?_
        intro as u hu hle herr' _ has
        refine .some hu (by omega) ?_
        refine ha.bind (by omega) fun ts hts => hmark.bind (by omega) fun us hus => ?_
        exact has.imp fun vs hvs => by simpa [hus] using .cons hts hvs
      · exact .some ht (by omega) (ha.imp fun ts hts => .last hts)

theorem runs_parenthesized (hs : s.Whole) : Runs r r' (parenthesized item) (parenthesized item) s
    (Ends s s.left fun as _ ts => ∃ us, Listed P as us ∧ ts = us ++ [Lexeme.mark .rightParen]) := by
  refine runs_get (.optional (runs_itemsWithin hitem hs hs.left_lt hs.left_lt) (Nat.le_refl _) rfl rfl ?_)
  intro as t ht hle herr _ has
  refine .required (runs_expect (by decide) ht) (by omega) rfl rfl fun u hu _ herr' hlt hclose => ?_
  refine .some hu (by omega) ?_
  refine has.bind (by omega) fun ts hts => hclose.imp fun us hus => ⟨ts, hts, by rw [hus]⟩

end

theorem runs_param (hs : s.Whole) :
    Runs r r' param param s (Ends s s.left fun p _ ts => ts = p.lexemes) := by
  refine runs_position (runs_at ?_)
  split
  · rename_i h
    rw [decide_eq_true_eq] at h
    have hident := State.reads_ident hs h
    refine runs_literal (.advance hs (by simp [h]) fun hstep hleft hnow => ?_)
    refine .required (runs_expect (by decide) hstep) (by omega) rfl rfl fun t ht hle herr _ hcolon => ?_
    refine .optional (runs_typeName ht) (by omega) rfl rfl fun type u hu hle' _ _ htype => ?_
    refine runs_spanFrom (.some hu (by omega) ?_)
    refine hident.bind (by omega) fun ts hts => hcolon.bind (by omega) fun us hus => ?_
    exact htype.imp fun vs hvs => by simp [hts, hus, hvs, Param.lexemes]
  · refine (runs_reportExpected hs).bind fun _ t ht _ _ hreported => .none ht ?_
    exact hreported.2.2

def signaturePart (parts : List Param × Option TypeName) (ts : List Lexeme) : Prop :=
  ∃ us, Listed (fun p vs => vs = p.lexemes) parts.1 us ∧
    ts = .mark .leftParen :: (us ++ .mark .rightParen :: typePart parts.2)

/-- A signature ends before the brace that opens the body. -/
theorem runs_signature (hs : s.Whole) :
    Runs r r' signature signature s fun o t => Ends s s.left (fun parts _ => signaturePart parts) o t ∧
      (o.isSome → t.current.kind = .leftBrace) := by
  have hnone : ∀ {t : State}, t.Whole → s.errors.size < t.errors.size →
      Runs r r' (Pure.pure (none : Option (List Param × Option TypeName))) (Pure.pure none) t
        fun o t => Ends s s.left (fun parts _ => signaturePart parts) o t ∧
          (o.isSome → t.current.kind = .leftBrace) :=
    fun ht hlt => .pure ht ⟨hlt, nofun⟩
  refine (runs_expect (by decide) hs).bind fun b t ht hle herr hb => ?_
  cases b with
  | false => exact hnone ht hb
  | true =>
    have hlt := hb.1
    refine (runs_parenthesized runs_param ht).bind fun params? u hu hle' herr' hparams => ?_
    cases params? with
    | none =>
      rw [Ends] at hparams
      exact hnone hu (by omega)
    | some params =>
      refine (runs_optionalType hu).bind fun result? v hv hle'' herr'' hresult => runs_at ?_
      split
      · rename_i hbrace
        rw [decide_eq_true_eq] at hbrace
        refine .pure hv ⟨⟨by omega, ?_⟩, fun _ => hbrace⟩
        refine hb.2.bind (by omega) fun ts hts => hparams.2.bind (by omega) fun us hus => ?_
        obtain ⟨us, hlisted, rfl⟩ := hus
        exact hresult.imp fun vs hvs => ⟨us, hlisted, by simp [hts, hvs]⟩
      · refine (runs_reportExpected hv).bind fun _ w hw _ _ hreported => hnone hw ?_
        have := hreported.2.2
        omega

variable (hr : Recoveries r r')

include hr

theorem runs_importDecl (hs : s.Whole) (hkind : s.current.kind = .importWord) :
    Runs r r' importDecl importDecl s (Ends s s.left fun i _ => i.Spelt) := by
  have hword := State.reads_mark hs hkind rfl nofun
  refine runs_position (.advance hs (by simp [hkind]) fun hstep hleft hnow => ?_)
  refine (runs_qualifiedName hstep).bind fun path? t ht hle herr hpath => ?_
  cases path? with
  | none =>
    rw [Ends] at hpath
    exact runs_abandon hr ht (by omega)
  | some path =>
    refine runs_at ?_
    split
    · rename_i hparen
      rw [decide_eq_true_eq] at hparen
      have hopen := State.reads_mark ht hparen rfl nofun
      refine .advance ht (by simp [hparen]) fun htstep htleft htnow => ?_
      refine (runs_parenthesized runs_typeName htstep).bind fun params? u hu hle' herr' hparams => ?_
      cases params? with
      | none =>
        rw [Ends] at hparams
        exact runs_abandon hr hu (by omega)
      | some params =>
        refine (runs_optionalType hu).bind fun result? v hv hlv herrv hresult => ?_
        refine (runs_expect (by decide) hv).bind fun stopped w hw hlw herrw hstopped => ?_
        refine runs_spanFrom (.some hw (by omega) ?_)
        cases stopped with
        | false =>
          have : v.errors.size < w.errors.size := hstopped
          exact .mistaken (by omega)
        | true =>
          refine hword.bind (by omega) fun ts hts => hpath.2.bind (by omega) fun us hus => ?_
          refine hopen.bind (by omega) fun vs hvs => hparams.2.bind (by omega) fun ws hws => ?_
          refine hresult.bind (by omega) fun xs hxs => hstopped.2.imp fun ys hys => ?_
          obtain ⟨ws, hlisted, rfl⟩ := hws
          simpa [hts, hus.2, hvs, hxs, hys] using .overload hus.1 hlisted
    · refine (runs_expect (by decide) ht).bind fun stopped u hu hle' herr' hstopped => ?_
      refine runs_spanFrom (.some hu (by omega) ?_)
      cases stopped with
      | false =>
        have : t.errors.size < u.errors.size := hstopped
        exact .mistaken (by omega)
      | true =>
        refine hword.bind (by omega) fun ts hts => hpath.2.bind (by omega) fun us hus => ?_
        exact hstopped.2.imp fun vs hvs => by simpa [hts, hus.2, hvs] using .plain hus.1

theorem runs_function (hs : s.Whole) (hkind : s.current.kind = .funcWord)
    (hfuel : 10 * s.left ≤ fuel) (hfuel' : 10 * s.left ≤ fuel') :
    Runs r r' (function fuel) (function fuel') s (Ends s s.left fun f _ => f.Spelt) := by
  have hword := State.reads_mark hs hkind rfl nofun
  refine runs_position (.advance hs (by simp [hkind]) fun hstep hleft hnow => runs_at ?_)
  split
  · rename_i hname
    rw [decide_eq_true_eq] at hname
    have hident := State.reads_ident hstep hname
    refine runs_literal (.advance hstep (by simp [hname]) fun hstep' hleft' hnow' => ?_)
    refine (runs_signature hstep').bind fun parts? t ht hle herr hparts => ?_
    cases parts? with
    | none =>
      have : s.step.step.errors.size < t.errors.size := hparts.1
      exact runs_abandon hr ht (by omega)
    | some parts =>
      obtain ⟨params, result?⟩ := parts
      refine ((runsStmt hr fuel).block ht (hparts.2 rfl) (by omega) (by omega)).bind ?_
      intro body u hu hle' herr' hbody
      refine runs_spanFrom (.some hu (by omega) ?_)
      refine hword.bind (by omega) fun ts hts => hident.bind (by omega) fun us hus => ?_
      refine hparts.1.2.bind (by omega) fun vs hvs => hbody.2.imp fun ws hws => ?_
      obtain ⟨vs, hlisted, rfl⟩ := hvs
      obtain ⟨ws, hspelt, rfl⟩ := hws
      simpa [hts, hus] using .mk hlisted hspelt
  · refine (runs_reportExpected hstep).bind fun _ t ht _ _ hreported => runs_abandon hr ht ?_
    have := hreported.2.2
    omega

theorem runs_item (hs : s.Whole) (hfuel : 10 * s.left + 7 ≤ fuel)
    (hfuel' : 10 * s.left + 7 ≤ fuel') :
    Runs r r' (item fuel) (item fuel') s (Ends s s.left fun i _ => i.Spelt) := by
  have hmap : ∀ {α : Type} {m m' : Reader (Option α)} {f : α → Item}
      {R : α → State → List Lexeme → Prop}, Runs r r' m m' s (Ends s s.left R) →
      (∀ a t, s.Reads t (R a t) → s.Reads t (f a).Spelt) → Runs r r' (do return (← m).map f)
        (do return (← m').map f) s (Ends s s.left fun i _ => i.Spelt) := by
    intro α m m' f R hm hf
    refine hm.bind fun o t ht _ _ ho => .pure ht ?_
    cases o with
    | none => exact ho
    | some a => exact ⟨ho.1, hf a t ho.2⟩
  have hglobal : s.current.kind = .varWord ∨ s.current.kind = .constWord →
      Runs r r' (do return (← declaration fuel).map Item.global)
        (do return (← declaration fuel').map Item.global) s (Ends s s.left fun i _ => i.Spelt) := by
    intro hkind
    have hend : s.current.kind ≠ .endOfInput := by
      rintro h
      simp [h] at hkind
    refine hmap ((runs_declaration hr hs hend (by omega) (by omega)).imp fun _ _ _ h => h.2) ?_
    exact fun d t hread => hread.imp fun ts hts => .global (hts hkind)
  refine runs_kind ?_
  split
  · exact hmap (runs_importDecl hr hs ‹_›) fun _ _ hread => hread.imp fun _ => .import
  · exact hmap (runs_function hr hs ‹_› (by omega) (by omega)) fun _ _ hread =>
      hread.imp fun _ => .function
  · exact hglobal (by simp [*])
  · exact hglobal (by simp [*])
  · rename_i hvar hconst
    refine hmap ((runsStmt hr fuel).statement hs hfuel hfuel') fun st t hread hordered herr => ?_
    obtain ⟨ts, hts, ht, hspelt, -⟩ := hread hordered herr
    refine ⟨ts, hts, ht, .statement hspelt ?_⟩
    rintro d rfl
    cases hspelt with
    | declare hd =>
      obtain ⟨us, -, rfl⟩ := hd.spelt
      have hkind := State.kind_of_lexemes hts
      cases hisConst : d.isConst with
      | true => exact hconst (by simpa [hisConst, Lexeme.mark] using hkind)
      | false => exact hvar (by simpa [hisConst, Lexeme.mark] using hkind)

theorem runs_items (hs : s.Whole) (hfuel : 10 * s.left + 8 ≤ fuel)
    (hfuel' : 10 * s.left + 8 ≤ fuel') : Runs r r' (items fuel) (items fuel') s
      fun is t => t.current.kind = .endOfInput ∧ s.Reads t (ItemsSpelt is) := by
  induction fuel generalizing fuel' s with
  | zero => omega
  | succ fuel ih =>
    obtain ⟨fuel', rfl⟩ : ∃ k, fuel' = k + 1 := Nat.exists_eq_add_one_of_ne_zero (by omega)
    refine .look (ender_at.looks · s) ?_
    split
    · rename_i hend
      exact .pure hs ⟨by simpa using hend, .here .nil⟩
    · rename_i hgoing
      rw [Bool.not_eq_true] at hgoing
      refine (runs_progressing ender_at hgoing
        (runs_item hr hs (by omega) (by omega))).bind fun found t ht _ herr hfound => ?_
      have hlt := hfound.1
      refine (ih ht (by omega) (by omega)).bind fun is u hu _ herr' his => .pure hu ⟨his.1, ?_⟩
      cases found with
      | none => exact .mistaken (Nat.lt_of_lt_of_le hfound.2 herr')
      | some i =>
        exact hfound.2.2.bind ⟨herr, herr'⟩ fun ts hts => his.2.imp fun us hus => .cons hts hus

omit hr in
theorem sortItems_span (span : Span) (is : List Item) : (sortItems span is).span = span := by
  induction is with
  | nil => rfl
  | cons i is ih => cases i <;> exact ih

theorem runs_file (hs : s.Whole) (hfuel : 10 * s.left + 8 ≤ fuel)
    (hfuel' : 10 * s.left + 8 ≤ fuel') : Runs r r' (file fuel) (file fuel') s
      fun f t => t.current.kind = .endOfInput ∧ s.Reads t f.Spelt :=
  runs_position ((runs_items hr hs hfuel hfuel').bind fun is _ ht _ _ his =>
    runs_spanFrom (.pure ht ⟨his.1, his.2.imp fun _ hts => ⟨is, hts, by rw [sortItems_span]⟩⟩))

end

/-- Another way to go on behind a mistake that does what is done as soon as a mistake is recorded. -/
def SameBehindMistakes (r : Recovery) : Prop := ∀ s : State, s.errors ≠ #[] → r s = s.recover

theorem recoveries_of_same {r : Recovery} (h : SameBehindMistakes r) : Recoveries State.recover r :=
  ⟨h, fun _ hs _ => State.goes_recover hs⟩

/-- What a reader with enough fuel does at a state: more fuel makes no difference, and neither does what
would be done without a mistake; it consumes some of the pending tokens, and if it gives up it has
recorded a mistake. -/
structure Settles {α : Type} (reader : Nat → Reader (Option α)) (enough : Nat) (s : State) : Prop where
  stable : ∀ fuel ≥ enough, ∀ r, SameBehindMistakes r → reader fuel r s = reader enough State.recover s
  consumed : (reader enough State.recover s).2.pending <:+ s.pending
  recorded : (reader enough State.recover s).1 = none →
    s.errors.size < (reader enough State.recover s).2.errors.size

theorem settles_of_runs {α : Type} {reader : Nat → Reader (Option α)} {enough n : Nat} {s : State}
    {R : α → State → List Lexeme → Prop}
    (h : ∀ fuel ≥ enough, ∀ r, SameBehindMistakes r → Runs State.recover r (reader enough) (reader fuel) s
      (Ends s n R)) : Settles reader enough s := by
  have hself := h enough (Nat.le_refl _) State.recover fun _ _ => rfl
  refine ⟨fun fuel hfuel r hr => (h fuel hfuel r hr).same, hself.goes.pending, fun hnone => ?_⟩
  have hresult := hself.result
  rw [hnone] at hresult
  exact hresult

/-- Reading recovers from mistakes. Whatever the tokens are, reading a file comes to their end, and with
enough fuel neither more of it nor another recovery where no mistake is recorded makes a difference. From
any state on, recovery and every reader consume some of the pending tokens; a reader that gives up has
recorded a mistake; and a turn of the loops over the parts of a file and over the statements in braces
consumes at least one token. -/
theorem reading_recovers :
    (∀ tokens : List Token, (∃ t ∈ tokens, t.kind = .endOfInput) →
      let enough := 10 * (tokens.length + 2)
      ((file enough).run State.recover (State.ofTokens tokens)).2.current.kind = .endOfInput ∧
      ∀ fuel ≥ enough, ∀ r, SameBehindMistakes r → (file fuel).run r (State.ofTokens tokens) =
        (file enough).run State.recover (State.ofTokens tokens)) ∧
    ∀ s : State, s.Whole →
      let enough := 10 * s.left + 8
      (s.recover.pending <:+ s.pending ∧ ∀ fuel ≥ s.remaining, s.recoverWithin fuel = s.recover) ∧
      (Settles expression enough s ∧ (∀ level, Settles (binary · level) enough s) ∧
        Settles unary enough s ∧ Settles postfixed enough s ∧ Settles primary enough s) ∧
      Settles statement enough s ∧ Settles item enough s ∧
      (s.current.kind ≠ .endOfInput → Settles declaration enough s ∧
        (∀ fuel ≥ enough, ((progressing (at? .endOfInput) (item fuel)).run State.recover s).2.left <
          s.left) ∧
        (s.current.kind ≠ .rightBrace → ∀ fuel ≥ enough,
          ((progressing atBlockEnd (statement fuel)).run State.recover s).2.left < s.left)) := by
  have hself : SameBehindMistakes State.recover := fun _ _ => rfl
  refine ⟨fun tokens hend => ?_, fun s hs => ⟨⟨?_, ?_⟩, ⟨?_, fun level => ?_, ?_, ?_, ?_⟩, ?_, ?_, ?_⟩⟩
  · obtain ⟨hs, hpending⟩ := State.whole_ofTokens hend
    have hle : (State.ofTokens tokens).left ≤ tokens.length := by
      rw [State.left, hpending]
      exact Nat.le_trans (List.takeWhile_prefix _).length_le (List.length_filter_le _ _)
    have hfile : ∀ fuel ≥ 10 * (tokens.length + 2), ∀ r, SameBehindMistakes r → Runs State.recover r
        (file (10 * (tokens.length + 2))) (file fuel) (State.ofTokens tokens)
        fun _ s' => s'.current.kind = .endOfInput :=
      fun fuel hfuel r hr => (runs_file (recoveries_of_same hr) hs (by omega) (by omega)).imp
        fun _ _ _ h => h.1
    exact ⟨(hfile _ (Nat.le_refl _) _ hself).result, fun fuel hfuel r hr => (hfile fuel hfuel r hr).same⟩
  · exact (State.goes_recover hs).pending
  · intro fuel hfuel
    obtain ⟨more, rfl⟩ := Nat.exists_eq_add_of_le hfuel
    exact (State.goes_recoverWithin hs hs.left_lt).2 more
  · exact settles_of_runs fun fuel hfuel r _ =>
      (runsExpr _ r _).expression hs (by omega) (by omega)
  · exact settles_of_runs fun fuel hfuel r _ =>
      (runsExpr _ r _).binary level hs (by omega) (by omega)
  · exact settles_of_runs fun fuel hfuel r _ => (runsExpr _ r _).unary hs (by omega) (by omega)
  · exact settles_of_runs fun fuel hfuel r _ => (runsExpr _ r _).postfixed hs (by omega) (by omega)
  · exact settles_of_runs fun fuel hfuel r _ => (runsExpr _ r _).primary hs (by omega) (by omega)
  · exact settles_of_runs fun fuel hfuel r hr =>
      (runsStmt (recoveries_of_same hr) _).statement hs (by omega) (by omega)
  · exact settles_of_runs fun fuel hfuel r hr =>
      runs_item (recoveries_of_same hr) hs (by omega) (by omega)
  · have hr := recoveries_of_same hself
    refine fun hend => ⟨?_, fun fuel hfuel => ?_, fun hbrace fuel hfuel => ?_⟩
    · exact settles_of_runs fun fuel hfuel r hr =>
        (runs_declaration (recoveries_of_same hr) hs hend (by omega) (by omega)).imp fun _ _ _ h => h.2
    · have hitem : Runs _ _ (item fuel) (item fuel) s _ := runs_item hr hs (by omega) (by omega)
      exact (runs_progressing ender_at (by simpa using hend) hitem).result.1
    · have hstmt : Runs _ _ (statement fuel) (statement fuel) s _ :=
        (runsStmt hr fuel).statement hs (by omega) (by omega)
      exact (runs_progressing ender_atBlockEnd (by simp [hend, hbrace]) hstmt).result.1

/-- The tokens of a file of a stray brace and a declaration that breaks off. -/
def brokenOff : List Token :=
  [⟨.rightBrace, "\x7d", ⟨⟨0, 1, 1⟩, ⟨1, 1, 2⟩⟩⟩, ⟨.varWord, "var", ⟨⟨1, 1, 2⟩, ⟨4, 1, 5⟩⟩⟩,
    ⟨.endOfInput, "", ⟨⟨4, 1, 5⟩, ⟨4, 1, 5⟩⟩⟩]

theorem reading_recovers_brokenOff :
    ((file 50).run State.recover (State.ofTokens brokenOff)).2.current.kind = .endOfInput ∧
    (State.ofTokens brokenOff).Whole ∧
    ((progressing (at? .endOfInput) (item 50)).run State.recover
      (State.ofTokens brokenOff)).2.left < (State.ofTokens brokenOff).left := by
  have hend : ∃ t ∈ brokenOff, t.kind = .endOfInput := by decide
  have hwhole := (State.whole_ofTokens hend).1
  have hleft : (State.ofTokens brokenOff).left = 2 := by decide
  refine ⟨(reading_recovers.1 brokenOff hend).1, hwhole, ?_⟩
  refine ((reading_recovers.2 _ hwhole).2.2.2.2 (by decide)).2.1 50 ?_
  rw [hleft]
  decide

end Reader
end Parsed
end TypedScript
