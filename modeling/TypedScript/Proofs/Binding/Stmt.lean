import TypedScript.Binding.Stmt
import TypedScript.Proofs.Binding.Expr

/-!
# Statements are bound well typed

Statements are bound in the scopes that are open where they stand, and loops count how deep a jump
may be. The only thing that gets past binding without a value or a report is a bare name behind the
second semicolon of a counted loop.
-/

namespace TypedScript
namespace Binder

open TypedScript.Binding TypedScript.Bound

section

variable {params : List Symbol} {s : State}

theorem isBound_cases {c : Typing} {e : Expr} (h : IsBound c e) : e.Typed c ∨ e.isName := by
  obtain h | ⟨_, _, _, rfl, -⟩ | ⟨_, _, rfl⟩ := h
  · exact .inl h
  · exact .inr rfl
  · exact .inr rfl

variable (hs : Sound params s)
include hs

theorem Binds.mapOption {α β : Type} {o : Option α} {f : α → Binder β} {Q : β → Typing → Prop}
    (h : ∀ a, o = some a → Binds params s (f a) Q) :
    Binds params s (o.mapM f) fun r c => r.isSome = o.isSome ∧ ∀ b, r = some b → Q b c := by
  cases o with
  | none => exact Binds.pure hs ⟨rfl, by simp⟩
  | some a =>
    refine Binds.map (h a rfl) ?_
    intro b s1 _ _ hb
    exact ⟨rfl, by rintro _ ⟨⟩; exact hb⟩

/-- A declared variable gets a type that values have, and a value of that type. -/
theorem Binds.bindDeclaration {d : Parsed.Declaration} (hd : d.Proper) :
    Binds params s (Binder.bindDeclaration d) fun p c =>
      IsDeclarable c p.1 ∧ ∀ v, p.2 = some v → v.Typed c ∧ (v.type = p.1 ∨ c.lenient) := by
  unfold Binder.bindDeclaration
  refine Binds.bind (Binds.mapOption hs (f := Binder.valueType)
    (Q := fun t c => IsDeclarable c t) fun t _ => Binds.valueType hs t) ?_
  rintro declared? s1 hs1 hf1 ⟨hsome, hdecl⟩
  split
  · next hinit =>
    have hdeclared : declared?.isSome := by
      rw [hsome]
      simpa [hinit] using hd.1
    obtain ⟨t, rfl⟩ := Option.isSome_iff_exists.1 hdeclared
    exact Binds.pure hs1 ⟨hdecl t rfl, by simp⟩
  · next init hinit =>
    refine Binds.bind (Binds.bindValue hs1 init (hd.2 init hinit)) ?_
    intro value s2 hs2 hf2 hv
    split
    · refine Binds.pure hs2 ⟨⟨hv.isType hs2, hv.2, fun he => ?_⟩, ?_⟩
      · exact Expr.Typed.lenient hs2.types.wellFormed hv.1 he
      · rintro _ ⟨⟩
        exact ⟨hv.1, .inl rfl⟩
    · next t =>
      have ht := (hdecl t rfl).mono hf2.toGrows
      refine Binds.bind (Binds.convertImplicit hs2 hv ht _) ?_
      rintro value s3 hs3 hf3 ⟨hv, htypes⟩
      have ht := ht.mono hf3.toGrows
      refine Binds.pure hs3 ⟨ht, ?_⟩
      rintro _ ⟨⟩
      refine ⟨hv.1, ?_⟩
      obtain h | h | h := htypes
      · exact .inl h
      · exact .inr (Expr.Typed.lenient hs3.types.wellFormed hv.1 h)
      · exact .inr (ht.2.2 h)

theorem Binds.bindLocal {d : Parsed.Declaration} (hd : d.Proper) :
    Binds params s (Binder.bindLocal d) fun b c => b.Typed c := by
  unfold Binder.bindLocal
  refine Binds.bind (Binds.bindDeclaration hs hd) ?_
  rintro ⟨type, value⟩ s1 hs1 hf1 ⟨htype, hvalue⟩
  refine Binds.bind (Binds.newSymbol hs1 d.name .localVariable type d.isConst) ?_
  rintro sym s2 hs2 hf2 ⟨n, rfl⟩
  have htype2 := htype.mono hf2.toGrows
  have hknown : (typing params s2).Declares ⟨.declared n, d.name, .localVariable, type, d.isConst⟩ :=
    ⟨trivial, htype2.1, htype2.2.1, htype2.2.2⟩
  refine Binds.bind (Binds.declare hs2 ?_ (by simp)) ?_
  · unfold Known
    rw [if_neg (by simp)]
    exact ⟨hknown, n, rfl⟩
  intro declared s3 hs3 hf3 _
  have hfinish : ∀ s4, Sound params s4 → Follows s3 s4 → Declaration.Typed (typing params s4)
      ⟨d.span, ⟨.declared n, d.name, .localVariable, type, d.isConst⟩, value⟩ := by
    intro s4 hs4 hf4
    have hf24 := hf3.trans hf4
    refine ⟨hknown.mono (hf24.extends params), ⟨n, rfl⟩, rfl, fun e he => ?_⟩
    obtain ⟨htyped, heq⟩ := hvalue e he
    have hf14 := hf2.trans hf24
    exact ⟨Expr.Typed.mono hs1.types.wellFormed (hf14.extends params) e htyped,
      heq.imp_right (hf14.extends params).lenient⟩
  cases declared with
  | true =>
    refine Binds.bind (Binds.modify hs3 rfl rfl rfl rfl rfl rfl rfl) ?_
    intro _ s4 hs4 hf4 _
    exact Binds.pure hs4 (hfinish s4 hs4 hf4)
  | false =>
    refine Binds.bind (Binds.complain hs3 _ _) ?_
    intro _ s4 hs4 hf4 _
    exact Binds.pure hs4 (hfinish s4 hs4 hf4)

theorem Binds.bindEvaluation {e : Parsed.Evaluation} (he : e.expr.Proper) :
    Binds params s (Binder.bindEvaluation e) fun b c => b.expr.Typed c := by
  unfold Binder.bindEvaluation
  refine Binds.bind (Binds.bindExpr e.expr he hs) ?_
  intro bound s1 hs1 _ hb
  have hrequire : Binds params s1 (do return (⟨e.span, ← Binder.requireValue bound⟩ : Evaluation))
      fun b c => b.expr.Typed c := by
    refine Binds.bind (Binds.requireValue hs1 hb) ?_
    intro v s2 hs2 _ hv
    exact Binds.pure hs2 hv.1
  split
  · exact hrequire
  · exact hrequire
  · next hg hn =>
    refine Binds.pure hs1 ?_
    obtain h | ⟨_, _, _, rfl, -⟩ | ⟨_, _, rfl⟩ := hb
    · exact h
    · exact absurd rfl (hg _ _ _)
    · exact absurd rfl (hn _ _)

theorem Binds.bindSetup {p : Parsed.Setup} (hp : p.Proper) :
    Binds params s (Binder.bindSetup p) fun b c => b.Typed c := by
  cases p with
  | declare d =>
    refine Binds.bind (Binds.bindLocal hs hp) ?_
    intro b s1 hs1 _ hb
    exact Binds.pure hs1 hb
  | eval e =>
    refine Binds.bind (Binds.bindEvaluation hs hp) ?_
    intro b s1 hs1 _ hb
    exact Binds.pure hs1 hb

theorem Binds.bindCondition {e : Parsed.Expr} (he : e.Proper) :
    Binds params s (Binder.bindCondition e) fun b c => b.IsCondition c := by
  unfold Binder.bindCondition
  refine Binds.bind (Binds.bindValue hs e he) ?_
  intro v s1 hs1 _ hv
  refine (Binds.convertImplicit hs1 hv (isDeclarable_builtin _ (by simp)) _).imp ?_
  rintro b s2 hs2 _ ⟨hb, htypes⟩
  refine ⟨hb.1, ?_⟩
  obtain h | h | h := htypes
  · exact .inl h
  · exact .inr (Expr.Typed.lenient hs2.types.wellFormed hb.1 h)
  · cases h

theorem Binds.bindReturn (span : Span) {value? : Option Parsed.Expr}
    (hv : ∀ e, value? = some e → e.Proper) (looping : Bool) :
    Binds params s (Binder.bindReturn span value?) fun b c =>
      b.Typed c s.context.result looping := by
  unfold Binder.bindReturn
  refine Binds.get_bind ?_
  cases value? with
  | none =>
    dsimp only
    split
    · refine Binds.bind (Binds.fullName hs hs.result) ?_
      intro _ s1 hs1 _ _
      refine Binds.bind (Binds.complain hs1 _ _) ?_
      intro _ s2 hs2 _ hl
      refine Binds.pure hs2 ?_
      simp only [Stmt.Typed]
      exact .inr (hl rfl)
    · next h =>
      refine Binds.pure hs ?_
      simp only [Stmt.Typed]
      by_cases hvoid : s.context.result = .builtin .void
      · exact .inl hvoid
      · refine .inr (hs.resultError ?_)
        simpa [hvoid] using h
  | some e =>
    dsimp only
    refine Binds.bind (Binds.bindExpr e (hv e rfl) hs) ?_
    intro value s1 hs1 hf1 hb
    split
    · next hvoid =>
      have hdone : ∀ s2, Sound params s2 → Binds params s2 (Pure.pure (Stmt.returnStmt span none))
          fun b c => b.Typed c s.context.result looping := by
        intro s2 hs2
        refine Binds.pure hs2 ?_
        simp only [Stmt.Typed]
        exact .inl hvoid
      split
      · refine Binds.bind (Binds.complain hs1 _ _) ?_
        intro _ s2 hs2 _ _
        exact hdone s2 hs2
      · exact hdone s1 hs1
    · next hvoid =>
      refine Binds.bind (Binds.requireValue hs1 hb) ?_
      intro value s2 hs2 hf2 hv
      have hres : s2.context.result = s.context.result := hf2.result.trans hf1.result
      refine Binds.bind (Binds.convertImplicit hs2 hv (t := s.context.result)
        ⟨hres ▸ hs2.result, hvoid, fun he => hs2.resultError (hres.trans he)⟩ _) ?_
      rintro value s3 hs3 hf3 ⟨hv, htypes⟩
      refine Binds.pure hs3 ?_
      simp only [Stmt.Typed]
      refine ⟨hv.1, hvoid, ?_⟩
      obtain h | h | h := htypes
      · exact .inl h
      · exact .inr (Expr.Typed.lenient hs3.types.wellFormed hv.1 h)
      · exact .inr (hs3.resultError ((hf3.result.trans hres).trans h))

theorem Binds.inLoop {α : Type} {body : Binder α} {Q : α → Typing → Prop}
    (hb : ∀ s', Sound params s' → s'.context.result = s.context.result →
      s'.context.loops = s.context.loops + 1 → typing params s' = typing params s →
      Binds params s' body Q) : Binds params s (Binder.inLoop body) Q := by
  let s1 : State := { s with context := { s.context with loops := s.context.loops + 1 } }
  have hs1 : Sound params s1 :=
    ⟨hs.types, hs.library, hs.intrinsics, hs.symbols, hs.result, hs.resultError⟩
  obtain ⟨a, s2, hrun, hs2, hf2, hq⟩ := hb s1 hs1 rfl rfl rfl
  let s3 : State := { s2 with context := { s2.context with loops := s2.context.loops - 1 } }
  refine ⟨a, s3, ?_, ⟨hs2.types, hs2.library, hs2.intrinsics, hs2.symbols, hs2.result,
    hs2.resultError⟩, ⟨⟨⟨hf2.registry, hf2.errors, hf2.outermost⟩, hf2.result, ?_⟩, hf2.nests⟩, hq⟩
  · rw [Binder.inLoop, run_bind (run_modify _ s), run_bind hrun, run_bind (run_modify _ s2)]
    rfl
  · show s2.context.loops - 1 = s.context.loops
    rw [hf2.loops]
    rfl

theorem Binds.bindJump (word : String) (span : Span) {stmt : Stmt} {looping : Bool}
    (hl : s.context.loops ≠ 0 → looping = true) (result : TypeId)
    (hstmt : ∀ c, stmt.Typed c result true) :
    Binds params s (Binder.bindJump word span stmt) fun b c => b.Typed c result looping := by
  unfold Binder.bindJump
  refine Binds.get_bind ?_
  split
  · refine Binds.bind (Binds.complain hs _ _) ?_
    intro _ s1 hs1 _ _
    refine Binds.pure hs1 ?_
    simp only [Stmt.Typed, typedStmts]
  · next h =>
    rw [hl h]
    exact Binds.pure hs (hstmt _)

end

/-- The body of a conditional or a loop. -/
theorem Binds.nested {params : List Symbol} {s : State} (hs : Sound params s) {st : Parsed.Stmt}
    (hst : st.Proper) {bind : Binder Stmt} {result : TypeId} {looping : Bool}
    (hb : Binds params s bind fun b c => b.Typed c result looping) :
    Binds params s (Binder.nested st bind) fun b c => b.Typed c result looping := by
  unfold Binder.nested
  split
  · simp only [Parsed.Stmt.Proper] at hst
    refine Binds.bind (Binds.inScope hs .block fun s1 hs1 _ => Binds.bindLocal hs1 hst) ?_
    intro b s1 hs1 _ hb
    refine Binds.pure hs1 ?_
    simp only [Stmt.Typed, typedStmts]
    exact ⟨hb, trivial⟩
  · exact hb

mutual

/-- Binding a statement never fails, and what it gives makes sense. -/
theorem Binds.bindStmt {params : List Symbol} {result : TypeId} : (st : Parsed.Stmt) → st.Proper →
    ∀ {s : State} {looping : Bool}, Sound params s → s.context.result = result →
      (s.context.loops ≠ 0 → looping = true) →
      Binds params s (Binder.bindStmt st) fun b c => b.Typed c result looping
  | .block span body, h, s, looping, hs, hr, hl => by
    simp only [Parsed.Stmt.Proper] at h
    rw [Binder.bindStmt]
    refine Binds.bind (Binds.inScope hs .block fun s1 hs1 hf1 =>
      Binds.bindStmts body h hs1 (hf1.result.trans hr) (hf1.loops ▸ hl)) ?_
    intro body s1 hs1 _ hb
    refine Binds.pure hs1 ?_
    simp only [Stmt.Typed]
    exact hb
  | .declare d, h, s, looping, hs, hr, hl => by
    simp only [Parsed.Stmt.Proper] at h
    rw [Binder.bindStmt]
    refine Binds.bind (Binds.bindLocal hs h) ?_
    intro b s1 hs1 _ hb
    refine Binds.pure hs1 ?_
    simp only [Stmt.Typed]
    exact hb
  | .eval e, h, s, looping, hs, hr, hl => by
    simp only [Parsed.Stmt.Proper] at h
    rw [Binder.bindStmt]
    refine Binds.bind (Binds.bindEvaluation hs h) ?_
    intro b s1 hs1 _ hb
    refine Binds.pure hs1 ?_
    simp only [Stmt.Typed]
    exact hb
  | .missing, h, s, looping, hs, hr, hl => by
    rw [Binder.bindStmt]
    refine Binds.pure hs ?_
    simp only [Stmt.Typed, typedStmts]
  | .ifThen span cond yes, h, s, looping, hs, hr, hl => by
    simp only [Parsed.Stmt.Proper] at h
    rw [Binder.bindStmt]
    refine Binds.bind (Binds.bindCondition hs h.1) ?_
    intro cond s1 hs1 hf1 hc
    refine Binds.bind (Binds.nested hs1 h.2
      (Binds.bindStmt yes h.2 hs1 (hf1.result.trans hr) (hf1.loops ▸ hl))) ?_
    intro yes s2 hs2 hf2 hy
    refine Binds.pure hs2 ?_
    simp only [Stmt.Typed]
    exact ⟨Expr.IsCondition.mono hs1.types.wellFormed (hf2.extends params) hc, hy⟩
  | .ifElse span cond yes no, h, s, looping, hs, hr, hl => by
    simp only [Parsed.Stmt.Proper] at h
    rw [Binder.bindStmt]
    refine Binds.bind (Binds.bindCondition hs h.1) ?_
    intro cond s1 hs1 hf1 hc
    refine Binds.bind (Binds.nested hs1 h.2.1
      (Binds.bindStmt yes h.2.1 hs1 (hf1.result.trans hr) (hf1.loops ▸ hl))) ?_
    intro yes s2 hs2 hf2 hy
    have hf12 := hf1.trans hf2
    refine Binds.bind (Binds.nested hs2 h.2.2
      (Binds.bindStmt no h.2.2 hs2 (hf12.result.trans hr) (hf12.loops ▸ hl))) ?_
    intro no s3 hs3 hf3 hn
    refine Binds.pure hs3 ?_
    simp only [Stmt.Typed]
    exact ⟨Expr.IsCondition.mono hs1.types.wellFormed ((hf2.trans hf3).extends params) hc,
      Stmt.Typed.mono hs2.types.wellFormed (hf3.extends params) yes hy, hn⟩
  | .whileLoop span cond body, h, s, looping, hs, hr, hl => by
    simp only [Parsed.Stmt.Proper] at h
    rw [Binder.bindStmt]
    refine Binds.bind (Binds.bindCondition hs h.1) ?_
    intro cond s1 hs1 hf1 hc
    refine Binds.bind (Binds.inLoop hs1 fun s2 hs2 hres _ _ => Binds.nested hs2 h.2
      (Binds.bindStmt body h.2 hs2 (hres.trans (hf1.result.trans hr)) fun _ => rfl)) ?_
    intro body s2 hs2 hf2 hb
    refine Binds.pure hs2 ?_
    simp only [Stmt.Typed]
    exact ⟨Expr.IsCondition.mono hs1.types.wellFormed (hf2.extends params) hc, hb⟩
  | .forLoop span setup cond post body, h, s, looping, hs, hr, hl => by
    simp only [Parsed.Stmt.Proper] at h
    obtain ⟨hsetup, hcond, hpost, hbody⟩ := h
    rw [Binder.bindStmt]
    refine Binds.inScope hs .block fun s0 hs0 hf0 => ?_
    refine Binds.bind (Binds.mapOption hs0 fun a ha => Binds.bindSetup hs0 (hsetup a ha)) ?_
    rintro setup s1 hs1 hf1 ⟨-, hsetup⟩
    refine Binds.bind (Binds.mapOption hs1 fun a ha => Binds.bindCondition hs1 (hcond a ha)) ?_
    rintro cond s2 hs2 hf2 ⟨-, hcond⟩
    refine Binds.bind (Binds.mapOption hs2 fun a ha => Binds.bindExpr a (hpost a ha) hs2) ?_
    rintro post s3 hs3 hf3 ⟨-, hpost⟩
    have hres3 : s3.context.result = result :=
      ((hf1.trans hf2).trans hf3).result.trans (hf0.result.trans hr)
    refine Binds.bind (Binds.inLoop hs3 fun s4 hs4 hres _ _ => Binds.nested hs4 hbody
      (Binds.bindStmt body hbody hs4 (hres.trans hres3) fun _ => rfl)) ?_
    intro body s4 hs4 hf4 hb
    refine Binds.pure hs4 ?_
    simp only [Stmt.Typed]
    have hf34 := hf3.trans hf4
    refine ⟨fun a ha => ?_, fun e he => ?_, fun e he => ?_, hb⟩
    · exact Setup.Typed.mono hs1.types.wellFormed ((hf2.trans hf34).extends params) (hsetup a ha)
    · exact Expr.IsCondition.mono hs2.types.wellFormed (hf34.extends params) (hcond e he)
    · exact isBound_cases ((hpost e he).mono hs3 hf4.toGrows)
  | .breakLoop span, h, s, looping, hs, hr, hl => by
    rw [Binder.bindStmt]
    exact Binds.bindJump hs "break" span hl result fun c => by simp only [Stmt.Typed]
  | .continueLoop span, h, s, looping, hs, hr, hl => by
    rw [Binder.bindStmt]
    exact Binds.bindJump hs "continue" span hl result fun c => by simp only [Stmt.Typed]
  | .returnStmt span value, h, s, looping, hs, hr, hl => by
    simp only [Parsed.Stmt.Proper] at h
    rw [Binder.bindStmt]
    exact hr ▸ Binds.bindReturn hs span h looping

theorem Binds.bindStmts {params : List Symbol} {result : TypeId} : (ss : List Parsed.Stmt) →
    Parsed.properStmts ss → ∀ {s : State} {looping : Bool}, Sound params s →
      s.context.result = result → (s.context.loops ≠ 0 → looping = true) →
      Binds params s (Binder.bindStmts ss) fun bs c => typedStmts c result looping bs
  | [], _, s, looping, hs, hr, hl => by
    rw [Binder.bindStmts]
    exact Binds.pure hs (by simp only [typedStmts])
  | st :: rest, h, s, looping, hs, hr, hl => by
    simp only [Parsed.properStmts] at h
    rw [Binder.bindStmts]
    refine Binds.bind (Binds.bindStmt st h.1 hs hr hl) ?_
    intro b s1 hs1 hf1 hb
    refine Binds.bind (Binds.bindStmts rest h.2 hs1 (hf1.result.trans hr) (hf1.loops ▸ hl)) ?_
    intro bs s2 hs2 hf2 hbs
    refine Binds.pure hs2 ?_
    simp only [typedStmts]
    exact ⟨Stmt.Typed.mono hs1.types.wellFormed (hf2.extends params) b hb, hbs⟩

end

end Binder
end TypedScript
