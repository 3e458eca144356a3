import TypedScript.Proofs.Binding.Provenance

/-!
# Identities

Declarations make symbols, and each gets the next number. So two symbols of a bound program that have
the same number are the same. Likewise each function of the program has a callable of its own.
-/

namespace TypedScript
namespace Binder

open TypedScript.Binding TypedScript.Bound

/-- A step of binding that may make symbols, but no callables. What is said of its result is said in
terms of the symbols made so far. -/
def Mints {α : Type} (functions : List TypeId) (made : List Symbol) (m : Binder α)
    (Q : List Symbol → α → Prop) : Prop :=
  ∀ s a s', Minted functions made s → m s = .ok (a, s') →
    ∃ made', made ⊆ made' ∧ Minted functions made' s' ∧ Q made' a

section

variable {α β : Type} {functions : List TypeId} {made : List Symbol}

theorem Finds.mints {m : Binder α} {Q : List Symbol → α → Prop}
    (h : Finds functions made m (Q made)) : Mints functions made m Q := by
  intro s a s' hs hrun
  obtain ⟨hs', hq⟩ := h s a s' hs hrun
  exact ⟨made, List.Subset.refl made, hs', hq⟩

namespace Mints

theorem pure {a : α} {Q : List Symbol → α → Prop} (h : Q made a) :
    Mints functions made (Pure.pure a) Q :=
  Finds.mints (Finds.pure h)

theorem bind {m : Binder α} {f : α → Binder β} {Q : List Symbol → α → Prop}
    {R : List Symbol → β → Prop} (hm : Mints functions made m Q)
    (hf : ∀ made', made ⊆ made' → ∀ a, Q made' a → Mints functions made' (f a) R) :
    Mints functions made (m >>= f) R := by
  intro s b s' hs hrun
  obtain ⟨a, s₁, hrun₁, hrun₂⟩ := bind_eq_ok hrun
  obtain ⟨made₁, hsub₁, hs₁, hq⟩ := hm s a s₁ hs hrun₁
  obtain ⟨made₂, hsub₂, hs₂, hr⟩ := hf made₁ hsub₁ a hq s₁ b s' hs₁ hrun₂
  exact ⟨made₂, List.Subset.trans hsub₁ hsub₂, hs₂, hr⟩

/-- A first step that makes nothing. -/
theorem find_bind {m : Binder α} {f : α → Binder β} {Q : α → Prop} {R : List Symbol → β → Prop}
    (hm : Finds functions made m Q) (hf : ∀ a, Q a → Mints functions made (f a) R) :
    Mints functions made (m >>= f) R := by
  intro s b s' hs hrun
  obtain ⟨a, s₁, hrun₁, hrun₂⟩ := bind_eq_ok hrun
  obtain ⟨hs₁, hq⟩ := hm s a s₁ hs hrun₁
  exact hf a hq s₁ b s' hs₁ hrun₂

/-- A last step that only changes the shape of the result. -/
theorem map {m : Binder α} {f : α → β} {Q : List Symbol → α → Prop} {R : List Symbol → β → Prop}
    (hm : Mints functions made m Q) (h : ∀ made' a, Q made' a → R made' (f a)) :
    Mints functions made (m >>= fun a => Pure.pure (f a)) R :=
  bind hm fun made' _ a ha => pure (h made' a ha)

theorem mapOption {o : Option α} {f : α → Binder β} {Q : List Symbol → β → Prop}
    (h : ∀ a, Mints functions made (f a) Q) :
    Mints functions made (o.mapM f) fun made' r => ∀ b, r = some b → Q made' b := by
  cases o with
  | none => exact pure (by simp)
  | some a =>
    refine map (h a) fun made' b hb => ?_
    rintro _ ⟨⟩
    exact hb

/-- A new symbol has a number that no other has. -/
theorem newSymbol (name : String) (kind : SymbolKind) (type : TypeId) (readonly : Bool) :
    Mints functions made (Binder.newSymbol name kind type readonly) fun made' sym =>
      sym ∈ made' := by
  intro s sym s' hs hrun
  cases hrun
  have hnew : ∀ a ∈ made, a.id ≠ .declared s.nextSymbol := by
    intro a ha heq
    obtain ⟨n, hn, hid⟩ := hs.numbers a ha
    rw [hid, SymbolId.declared.injEq] at heq
    omega
  refine ⟨⟨.declared s.nextSymbol, name, kind, type, readonly⟩ :: made, List.subset_cons_self _ _,
    ⟨?_, ?_, fun a ha => List.mem_cons_of_mem _ (hs.scope a ha), hs.registry, hs.nested,
      hs.callables, hs.placed, hs.nodup⟩, List.mem_cons_self⟩
  · intro a ha
    obtain rfl | ha := List.mem_cons.mp ha
    · exact ⟨s.nextSymbol, Nat.lt_succ_self _, rfl⟩
    · obtain ⟨n, hn, hid⟩ := hs.numbers a ha
      exact ⟨n, Nat.lt_succ_of_lt hn, hid⟩
  · intro a ha b hb heq
    obtain rfl | ha := List.mem_cons.mp ha <;> obtain rfl | hb := List.mem_cons.mp hb
    · rfl
    · exact absurd heq.symm (hnew b hb)
    · exact absurd heq (hnew a ha)
    · exact hs.distinct a ha b hb heq

end Mints

theorem Minted.withScope {s : State} {scope : Scope} (hs : Minted functions made s)
    (h : ∀ a, InScope scope a → a ∈ made) : Minted functions made { s with scope } :=
  ⟨hs.numbers, hs.distinct, h, hs.registry, hs.nested, hs.callables, hs.placed, hs.nodup⟩

theorem inScope_of_declare? {scope scope' : Scope} {sym a : Symbol}
    (h : scope.declare? sym = some scope') (ha : InScope scope' a) : InScope scope a ∨ a = sym := by
  obtain ⟨-, ho, hi⟩ | ⟨ho, f, f', rest, hi, hi', hf⟩ := declare?_eq_some h
  · rw [InScope, ho, hi, List.mem_cons] at ha
    obtain (rfl | ha) | ha := ha
    · exact .inr rfl
    · exact .inl (.inl ha)
    · exact .inl (.inr ha)
  · rw [InScope, ho, hi'] at ha
    obtain ha | ⟨g, hg, ha⟩ := ha
    · exact .inl (.inl ha)
    · obtain rfl | hg := List.mem_cons.mp hg
      · rw [hf, List.mem_cons] at ha
        obtain rfl | ha := ha
        · exact .inr rfl
        · exact .inl (.inr ⟨f, by simp [hi], ha⟩)
      · exact .inl (.inr ⟨g, by simp [hi, hg], ha⟩)

theorem Finds.declare {sym : Symbol} (hsym : sym ∈ made) :
    Finds functions made (Binder.declare sym) fun _ => True := by
  intro s b s' hs hrun
  rw [run_declare] at hrun
  cases hscope : s.scope.declare? sym with
  | none =>
    rw [hscope] at hrun
    cases hrun
    exact ⟨hs, trivial⟩
  | some scope =>
    rw [hscope] at hrun
    cases hrun
    refine ⟨hs.withScope fun a ha => ?_, trivial⟩
    obtain ha | rfl := inScope_of_declare? hscope ha
    · exact hs.scope a ha
    · exact hsym

theorem Finds.declareGlobal {sym : Symbol} (hsym : sym ∈ made) :
    Finds functions made (Binder.declareGlobal sym) fun _ => True := by
  intro s b s' hs hrun
  rw [run_declareGlobal] at hrun
  cases hscope : s.scope.declareGlobal? sym with
  | none =>
    rw [hscope] at hrun
    cases hrun
    exact ⟨hs, trivial⟩
  | some scope =>
    rw [hscope] at hrun
    cases hrun
    obtain ⟨ho, hi⟩ := declareGlobal?_eq_some hscope
    refine ⟨hs.withScope fun a ha => ?_, trivial⟩
    rw [InScope, ho, hi, List.mem_cons] at ha
    obtain (rfl | ha) | ha := ha
    · exact hsym
    · exact hs.scope a (.inl ha)
    · exact hs.scope a (.inr ha)

theorem Finds.get : Finds functions made get fun _ => True := by
  intro s a s' hs hrun
  cases hrun
  exact ⟨hs, trivial⟩

theorem Finds.forM {f : α → Binder Unit} {as : List α}
    (h : ∀ a, Finds functions made (f a) fun _ => True) :
    Finds functions made (as.forM f) fun _ => True := by
  induction as with
  | nil => exact Finds.pure trivial
  | cons a rest ih => exact Finds.bind (h a) fun _ _ => ih

theorem Finds.mapOption {o : Option α} {f : α → Binder β} {Q : β → Prop}
    (h : ∀ a, Finds functions made (f a) Q) :
    Finds functions made (o.mapM f) fun r => ∀ b, r = some b → Q b := by
  cases o with
  | none => exact Finds.pure (by simp)
  | some a =>
    refine Finds.bind (h a) fun b hb => Finds.pure ?_
    rintro _ ⟨⟩
    exact hb

theorem Finds.bindValue (e : Parsed.Expr) :
    Finds functions made (Binder.bindValue e) (Expr.Over (· ∈ made)) := by
  unfold Binder.bindValue
  exact Finds.bind (Finds.bindExpr e) fun v hv => Finds.requireValue hv

/-! Statements -/

theorem Finds.bindDeclaration (d : Parsed.Declaration) :
    Finds functions made (Binder.bindDeclaration d) fun p =>
      ∀ v, p.2 = some v → v.Over (· ∈ made) := by
  unfold Binder.bindDeclaration
  refine Finds.bind (Finds.mapOption (f := Binder.valueType) fun t => Finds.valueType t) ?_
  intro declared? _
  split
  · exact Finds.pure (by simp)
  · refine Finds.bind (Finds.bindValue _) fun v hv => ?_
    split
    · exact Finds.pure (by simpa using hv)
    · exact Finds.bind (Finds.convertImplicit hv _ _) fun w hw => Finds.pure (by simpa using hw)

theorem Finds.bindEvaluation (e : Parsed.Evaluation) :
    Finds functions made (Binder.bindEvaluation e) fun b => b.expr.Over (· ∈ made) := by
  unfold Binder.bindEvaluation
  refine Finds.bind (Finds.bindExpr e.expr) fun v hv => ?_
  split
  · exact Finds.bind (Finds.requireValue hv) fun w hw => Finds.pure hw
  · exact Finds.bind (Finds.requireValue hv) fun w hw => Finds.pure hw
  · exact Finds.pure hv

theorem Finds.bindCondition (e : Parsed.Expr) :
    Finds functions made (Binder.bindCondition e) (Expr.Over (· ∈ made)) := by
  unfold Binder.bindCondition
  exact Finds.bind (Finds.bindValue e) fun v hv => Finds.convertImplicit hv _ _

theorem Finds.bindReturn (span : Span) (value? : Option Parsed.Expr) :
    Finds functions made (Binder.bindReturn span value?) (Stmt.Over (· ∈ made)) := by
  have hnone : (Stmt.returnStmt span none).Over (· ∈ made) := by simp [Stmt.Over]
  unfold Binder.bindReturn
  refine Finds.get_bind fun s _ => ?_
  dsimp only
  split
  · split
    · exact Finds.bind (Finds.fullName _) fun _ _ => Finds.bind (Finds.complain _ _) fun _ _ =>
        Finds.pure hnone
    · exact Finds.pure hnone
  · refine Finds.bind (Finds.bindExpr _) fun v hv => ?_
    split
    · split
      · exact Finds.bind (Finds.complain _ _) fun _ _ => Finds.pure hnone
      · exact Finds.pure hnone
    · refine Finds.bind (Finds.requireValue hv) fun v hv => ?_
      refine Finds.bind (Finds.convertImplicit hv _ _) fun w hw => Finds.pure ?_
      simpa [Stmt.Over] using hw

theorem Finds.bindJump (word : String) (span : Span) {stmt : Stmt} (h : stmt.Over (· ∈ made)) :
    Finds functions made (Binder.bindJump word span stmt) (Stmt.Over (· ∈ made)) := by
  unfold Binder.bindJump
  refine Finds.get_bind fun s _ => ?_
  split
  · exact Finds.bind (Finds.complain _ _) fun _ _ => Finds.pure (by simp [Stmt.Over, overStmts])
  · exact Finds.pure h

namespace Mints

/-- What is declared inside a scope keeps its number when the scope is closed. -/
theorem inScope {body : Binder α} {Q : List Symbol → α → Prop} (kind : ScopeKind)
    (h : Mints functions made body Q) : Mints functions made (Binder.inScope kind body) Q := by
  intro s a s' hs hrun
  have hopen : Minted functions made { s with scope := s.scope.push kind } := by
    refine hs.withScope fun b hb => ?_
    obtain hb | ⟨f, hf, hb⟩ := hb
    · exact hs.scope b (.inl hb)
    · obtain rfl | hf := List.mem_cons.mp hf
      · simp at hb
      · exact hs.scope b (.inr ⟨f, hf, hb⟩)
  unfold Binder.inScope at hrun
  obtain ⟨_, _, hget, hrun⟩ := bind_eq_ok hrun
  cases hget
  obtain ⟨_, _, hpush, hrun⟩ := bind_eq_ok hrun
  cases hpush
  obtain ⟨b, s₁, hbody, hrun⟩ := bind_eq_ok hrun
  obtain ⟨made', hsub, hs₁, hq⟩ := h _ b s₁ hopen hbody
  cases hrun
  refine ⟨made', hsub, hs₁.withScope fun c hc => ?_, hq⟩
  obtain hc | hc := hc
  · exact hs₁.scope c (.inl hc)
  · exact hsub (hs.scope c (.inr hc))

theorem inLoop {body : Binder α} {Q : List Symbol → α → Prop} (h : Mints functions made body Q) :
    Mints functions made (Binder.inLoop body) Q := by
  unfold Binder.inLoop
  refine find_bind (Finds.adjust (fun _ => rfl) (fun _ => rfl) fun _ => rfl) fun _ _ => ?_
  refine bind h fun made' _ a ha => ?_
  exact find_bind (Finds.adjust (fun _ => rfl) (fun _ => rfl) fun _ => rfl) fun _ _ => pure ha

theorem bindLocal (d : Parsed.Declaration) :
    Mints functions made (Binder.bindLocal d) fun made' b => b.Over (· ∈ made') := by
  unfold Binder.bindLocal
  refine find_bind (Finds.bindDeclaration d) fun p hp => ?_
  refine bind (newSymbol _ _ _ _) fun made' hsub sym hsym => ?_
  refine find_bind (Finds.declare hsym) fun declared _ => ?_
  have hfinish : Mints functions made' (Pure.pure (⟨d.span, sym, p.2⟩ : Declaration))
      fun made' b => b.Over (· ∈ made') :=
    pure ⟨hsym, fun e he => Expr.Over.imp (fun _ hs => hsub hs) e (hp e he)⟩
  split
  · exact find_bind (Finds.adjust (fun _ => rfl) (fun _ => rfl) fun _ => rfl) fun _ _ => hfinish
  · exact find_bind (Finds.complain _ _) fun _ _ => hfinish

theorem bindSetup (p : Parsed.Setup) :
    Mints functions made (Binder.bindSetup p) fun made' b => b.Over (· ∈ made') := by
  cases p with
  | declare d => exact map (bindLocal d) fun _ _ hb => hb
  | eval e => exact Finds.mints (Finds.bind (Finds.bindEvaluation e) fun b hb => Finds.pure hb)

theorem nested {st : Parsed.Stmt} {body : Binder Stmt}
    (h : Mints functions made body fun made' b => b.Over (· ∈ made')) :
    Mints functions made (Binder.nested st body) fun made' b => b.Over (· ∈ made') := by
  unfold Binder.nested
  split
  · refine map (inScope .block (bindLocal _)) fun made' b hb => ?_
    simpa [Stmt.Over, overStmts] using hb
  · exact h

mutual

theorem bindStmt {made : List Symbol} : (st : Parsed.Stmt) →
    Mints functions made (Binder.bindStmt st) fun made' b => b.Over (· ∈ made')
  | .block span body => by
    rw [Binder.bindStmt]
    refine map (inScope .block (bindStmts body)) fun made' b hb => ?_
    simpa only [Stmt.Over] using hb
  | .declare d => by
    rw [Binder.bindStmt]
    refine map (bindLocal d) fun made' b hb => ?_
    simpa only [Stmt.Over] using hb
  | .eval e => by
    rw [Binder.bindStmt]
    refine find_bind (Finds.bindEvaluation e) fun b hb => pure ?_
    simpa only [Stmt.Over] using hb
  | .missing => by
    rw [Binder.bindStmt]
    exact pure (by simp [Stmt.Over, overStmts])
  | .ifThen span cond yes => by
    rw [Binder.bindStmt]
    refine find_bind (Finds.bindCondition cond) fun c hc => ?_
    refine bind (nested (bindStmt yes)) fun made₁ hsub y hy => pure ?_
    simp only [Stmt.Over]
    exact ⟨Expr.Over.imp (fun _ hs => hsub hs) c hc, hy⟩
  | .ifElse span cond yes no => by
    rw [Binder.bindStmt]
    refine find_bind (Finds.bindCondition cond) fun c hc => ?_
    refine bind (nested (bindStmt yes)) fun made₁ hsub₁ y hy => ?_
    refine bind (nested (bindStmt no)) fun made₂ hsub₂ n hn => pure ?_
    simp only [Stmt.Over]
    exact ⟨Expr.Over.imp (fun _ hs => hsub₂ (hsub₁ hs)) c hc,
      Stmt.Over.imp (fun _ hs => hsub₂ hs) y hy, hn⟩
  | .whileLoop span cond body => by
    rw [Binder.bindStmt]
    refine find_bind (Finds.bindCondition cond) fun c hc => ?_
    refine bind (inLoop (nested (bindStmt body))) fun made₁ hsub b hb => pure ?_
    simp only [Stmt.Over]
    exact ⟨Expr.Over.imp (fun _ hs => hsub hs) c hc, hb⟩
  | .forLoop span setup cond post body => by
    rw [Binder.bindStmt]
    refine inScope .block ?_
    refine bind (mapOption bindSetup) fun made₁ _ s? hs => ?_
    refine find_bind (Finds.mapOption Finds.bindCondition) fun c? hc => ?_
    refine find_bind (Finds.mapOption Finds.bindExpr) fun p? hp => ?_
    refine bind (inLoop (nested (bindStmt body))) fun made₂ hsub b hb => pure ?_
    simp only [Stmt.Over]
    exact ⟨fun s he => Setup.Over.imp (fun _ h => hsub h) (hs s he),
      fun e he => Expr.Over.imp (fun _ h => hsub h) e (hc e he),
      fun e he => Expr.Over.imp (fun _ h => hsub h) e (hp e he), hb⟩
  | .breakLoop span => by
    rw [Binder.bindStmt]
    exact Finds.mints (Finds.bindJump _ _ (by simp only [Stmt.Over]))
  | .continueLoop span => by
    rw [Binder.bindStmt]
    exact Finds.mints (Finds.bindJump _ _ (by simp only [Stmt.Over]))
  | .returnStmt span value => by
    rw [Binder.bindStmt]
    exact Finds.mints (Finds.bindReturn span value)

theorem bindStmts {made : List Symbol} : (ss : List Parsed.Stmt) →
    Mints functions made (Binder.bindStmts ss) fun made' bs => overStmts (· ∈ made') bs
  | [] => by
    rw [Binder.bindStmts]
    exact pure (by simp only [overStmts])
  | s :: rest => by
    rw [Binder.bindStmts]
    refine bind (bindStmt s) fun made₁ _ b hb => ?_
    refine bind (bindStmts rest) fun made₂ hsub bs hbs => pure ?_
    simp only [overStmts]
    exact ⟨Stmt.Over.imp (fun _ h => hsub h) b hb, hbs⟩

end

/-! Routines -/

theorem bindParams (index : Nat) (ps : List Parsed.Param) (ts : List TypeId) {made : List Symbol} :
    Mints functions made (Binder.bindParams index ps ts) fun made' syms =>
      ∀ x ∈ syms, x ∈ made' := by
  induction ps generalizing index ts made with
  | nil => exact pure (by simp)
  | cons p ps ih =>
    cases ts with
    | nil => exact pure (by simp)
    | cons t ts =>
      refine bind (newSymbol _ _ _ _) fun made₁ _ sym hsym => ?_
      refine find_bind (Finds.declare hsym) fun declared _ => ?_
      have hrest : Mints functions made₁ (do
          return sym :: (← Binder.bindParams (index + 1) ps ts)) fun made' syms =>
            ∀ x ∈ syms, x ∈ made' := by
        refine bind (ih (index + 1) ts) fun made₂ hsub syms hsyms => pure ?_
        exact List.forall_mem_cons.mpr ⟨hsub hsym, hsyms⟩
      split
      · exact find_bind (Finds.complain _ _) fun _ _ => hrest
      · exact hrest

end Mints

theorem Finds.complainUnused : Finds functions made Binder.complainUnused fun _ => True := by
  unfold Binder.complainUnused
  refine Finds.get_bind fun s _ => Finds.forM fun p => ?_
  dsimp only
  split
  · exact Finds.complain _ _
  · exact Finds.pure trivial

theorem Finds.complainUnreachable (body : List Stmt) :
    Finds functions made (Binder.complainUnreachable body) fun _ => True :=
  Finds.forM fun _ => Finds.complain _ _

namespace Mints

theorem inRoutine {body : Binder α} {Q : List Symbol → α → Prop} (result : TypeId)
    (h : Mints functions made body Q) : Mints functions made (Binder.inRoutine result body) Q := by
  unfold Binder.inRoutine
  refine find_bind Finds.get fun saved _ => ?_
  refine find_bind (Finds.adjust (fun _ => rfl) (fun _ => rfl) fun _ => rfl) fun _ _ => ?_
  refine bind (inScope .function h) fun made' _ a ha => ?_
  refine find_bind Finds.complainUnused fun _ _ => ?_
  exact find_bind (Finds.adjust (fun _ => rfl) (fun _ => rfl) fun _ => rfl) fun _ _ => pure ha

def IsOver (made : List Symbol) (f : Routine) : Prop :=
  (∀ x ∈ f.params, x ∈ made) ∧ overStmts (· ∈ made) f.body

theorem IsOver.mono {made made' : List Symbol} (hsub : made ⊆ made') {f : Routine}
    (h : IsOver made f) : IsOver made' f :=
  ⟨fun x hx => hsub (h.1 x hx), overStmts.imp (fun _ hs => hsub hs) f.body h.2⟩

theorem bindFunction (p : Pending) :
    Mints functions made (Binder.bindFunction p) fun made' f =>
      IsOver made' f ∧ f.callable = p.callable := by
  unfold Binder.bindFunction
  refine inRoutine p.result ?_
  dsimp only
  refine bind (bindParams _ _ _) fun made₁ _ syms hsyms => ?_
  refine bind (bindStmts _) fun made₂ hsub body hbody => ?_
  refine find_bind (Finds.complainUnreachable body) fun _ _ => ?_
  have hfinish : Mints functions made₂ (Pure.pure (⟨p.function.span, p.function.name, p.callable,
      syms, p.result, p.function.bodySpan, body⟩ : Routine)) fun made' f =>
        IsOver made' f ∧ f.callable = p.callable :=
    pure ⟨⟨fun x hx => hsub (hsyms x hx), hbody⟩, rfl⟩
  split
  · exact find_bind (Finds.complain _ _) fun _ _ => hfinish
  · exact hfinish

theorem bindFunctions (ps : List Pending) {made : List Symbol} :
    Mints functions made (ps.mapM Binder.bindFunction) fun made' fs =>
      (∀ f ∈ fs, IsOver made' f) ∧ fs.map Routine.callable = ps.map Pending.callable := by
  induction ps generalizing made with
  | nil =>
    rw [List.mapM_nil]
    exact pure (by simp)
  | cons p ps ih =>
    rw [List.mapM_cons]
    refine bind (bindFunction p) fun made₁ _ f hf => ?_
    refine bind ih fun made₂ hsub fs hfs => pure ⟨?_, ?_⟩
    · exact List.forall_mem_cons.mpr ⟨hf.1.mono hsub, hfs.1⟩
    · rw [List.map_cons, List.map_cons, hf.2, hfs.2]

def IsOwn (f : Routine) : Prop := f.callable = .absent ∧ f.params = []

theorem bindScript (f : Parsed.File) :
    Mints functions made (Binder.bindScript f) fun made' f => IsOver made' f ∧ IsOwn f := by
  unfold Binder.bindScript
  refine inRoutine _ (bind (bindStmts _) fun made₁ _ body hbody => ?_)
  exact find_bind (Finds.complainUnreachable body) fun _ _ => pure ⟨⟨by simp, hbody⟩, rfl, rfl⟩

theorem bindGlobals (ds : List Parsed.Declaration) {made : List Symbol} :
    Mints functions made (Binder.bindGlobals ds) fun made' p =>
      (∀ x ∈ p.1, x ∈ made') ∧ overStmts (· ∈ made') p.2 := by
  induction ds generalizing made with
  | nil => exact pure ⟨by simp, by simp only [overStmts]⟩
  | cons d ds ih =>
    unfold Binder.bindGlobals
    refine find_bind (Finds.bindDeclaration d) fun p hp => ?_
    refine bind (newSymbol _ _ _ _) fun made₁ hsub₁ sym hsym => ?_
    refine find_bind (Finds.declareGlobal hsym) fun declared _ => ?_
    split
    · refine bind ih fun made₂ hsub₂ rest hrest => pure ⟨?_, ?_⟩
      · exact List.forall_mem_cons.mpr ⟨hsub₂ hsym, hrest.1⟩
      · rw [overStmts_iff, List.forall_mem_append]
        refine ⟨?_, overStmts_iff.mp hrest.2⟩
        cases hv : p.2 with
        | none => simp
        | some v =>
          have hvalue := Expr.Over.imp (fun _ hs => hsub₂ (hsub₁ hs)) v (hp v hv)
          simp only [Option.map_some, Option.toList_some, List.mem_singleton, forall_eq, Stmt.Over,
            Expr.Over]
          exact ⟨hsub₂ hsym, hvalue⟩
    · exact find_bind (Finds.complain _ _) fun _ _ => ih

theorem bindInitializer (f : Parsed.File) :
    Mints functions made (Binder.bindInitializer f) fun made' p =>
      (∀ x ∈ p.1, x ∈ made') ∧ IsOver made' p.2 ∧ IsOwn p.2 := by
  unfold Binder.bindInitializer
  refine inRoutine _ (map (bindGlobals _) fun made' p hp => ?_)
  exact ⟨hp.1, ⟨by simp, hp.2⟩, rfl, rfl⟩

/-! Declarations outside of routines -/

theorem localGroup (name : String) (span : Span) :
    Mints functions made (Binder.localGroup name span) fun _ _ => True := by
  have hregister : Finds functions made
      (Binder.register fun r => .ok (r.newGroup name "")) fun _ => True := by
    refine Finds.register fun r a r' h => ?_
    cases h
    exact Finds.keeps_push (by simp) (by simp)
  unfold Binder.localGroup
  refine find_bind Finds.get fun s _ => ?_
  split
  · split
    · exact pure trivial
    · exact find_bind (Finds.complain _ _) fun _ _ => pure trivial
  · refine find_bind hregister fun group _ => bind (newSymbol _ _ _ _) fun made₁ _ sym hsym => ?_
    exact find_bind (Finds.declareGlobal hsym) fun _ _ => pure trivial

end Mints

theorem keeps_adopt {r r' : Registry} {group m : TypeId} (h : r.adopt group m = .ok r') :
    r.Keeps r' := by
  unfold Registry.adopt at h
  cases hc : r.callable m with
  | error d => simp [hc, Bind.bind, Except.bind] at h
  | ok c =>
    cases hg : r.group group with
    | error d => simp [hc, hg, Bind.bind, Except.bind] at h
    | ok g =>
      simp only [hc, hg, Bind.bind, Except.bind] at h
      split at h
      · cases h
        exact Registry.Keeps.refl r
      · cases h
        cases group with
        | derived i =>
          exact ⟨Registry.le_extendGroup r i m, fun hr => hr.extendGroup i m,
            fun _ _ hc => Registry.callable_of_extendGroup hc⟩
        | _ => exact Registry.Keeps.refl r

theorem Finds.adoptAll (group : TypeId) (ms : List TypeId) :
    Finds functions made (Binder.adoptAll group ms) fun _ => True := by
  induction ms with
  | nil => exact Finds.pure trivial
  | cons m ms ih =>
    refine Finds.bind (Finds.register fun r a r' h => ?_) fun _ _ => ih
    cases hadopt : r.adopt group m with
    | error d => simp [hadopt, Bind.bind, Except.bind] at h
    | ok r₁ =>
      simp only [hadopt, Bind.bind, Except.bind] at h
      cases h
      exact keeps_adopt hadopt

theorem Finds.mapM {f : α → Binder β} (h : ∀ a, Finds functions made (f a) fun _ => True)
    (as : List α) : Finds functions made (as.mapM f) fun _ => True := by
  induction as with
  | nil =>
    rw [List.mapM_nil]
    exact Finds.pure trivial
  | cons a as ih =>
    rw [List.mapM_cons]
    exact Finds.bind (h a) fun _ _ => Finds.bind ih fun _ _ => Finds.pure trivial

theorem Finds.matching (params : List TypeId) (result? : Option TypeId) (ms : List TypeId) :
    Finds functions made (Binder.matching params result? ms) fun _ => True := by
  induction ms with
  | nil => exact Finds.pure trivial
  | cons m ms ih =>
    refine Finds.bind (Finds.ask _) fun info _ => Finds.bind ih fun found _ => ?_
    split
    · exact Finds.pure trivial
    · exact Finds.pure trivial

theorem Finds.importedOverloads (i : Parsed.Import) (group : TypeId) :
    Finds functions made (Binder.importedOverloads i group) fun _ => True := by
  unfold Binder.importedOverloads
  refine Finds.bind (Finds.ask _) fun members _ => ?_
  split
  · exact Finds.pure trivial
  · refine Finds.bind (Finds.mapM Finds.resolveType _) fun params _ => ?_
    refine Finds.bind ((Finds.mapOption Finds.resolveType).imp fun _ _ => trivial) fun r? _ => ?_
    refine Finds.bind (Finds.matching _ _ _) fun found _ => Finds.bind (Finds.ask _) fun _ _ => ?_
    split
    · exact Finds.bind (Finds.complain _ _) fun _ _ => Finds.pure trivial
    · exact Finds.pure trivial
    · exact Finds.bind (Finds.complain _ _) fun _ _ => Finds.pure trivial

theorem Finds.hasOverload (params : List TypeId) (ms : List TypeId) :
    Finds functions made (Binder.hasOverload params ms) fun _ => True := by
  induction ms with
  | nil => exact Finds.pure trivial
  | cons m ms ih =>
    refine Finds.bind (Finds.ask _) fun info _ => ?_
    split
    · exact Finds.pure trivial
    · exact ih

theorem Mints.bindImport (i : Parsed.Import) :
    Mints functions made (Binder.bindImport i) fun _ _ => True := by
  unfold Binder.bindImport
  refine Mints.find_bind Finds.get fun s _ => ?_
  dsimp only
  split
  · split
    · exact (Finds.complain _ _).mints
    · refine Mints.bind (Mints.newSymbol _ _ _ _) fun made₁ _ sym hsym => ?_
      refine Mints.find_bind (Finds.declareGlobal hsym) fun declared _ => ?_
      split
      · exact (Finds.complain _ _).mints
      · exact Mints.pure trivial
  · refine Mints.find_bind (Finds.importedOverloads i _) fun members? _ => ?_
    split
    · refine Mints.bind (Mints.localGroup _ _) fun made₁ _ own? _ => ?_
      split
      · exact (Finds.adoptAll _ _).mints
      · exact Mints.pure trivial
    · exact Mints.pure trivial
  · exact (Finds.complain _ _).mints

theorem Mints.bindImports (is : List Parsed.Import) {made : List Symbol} :
    Mints functions made (is.forM Binder.bindImport) fun _ _ => True := by
  induction is generalizing made with
  | nil => exact Mints.pure trivial
  | cons i is ih => exact Mints.bind (Mints.bindImport i) fun _ _ _ _ => ih

/-! Functions -/

/-- A new overload is a new callable. -/
theorem addCallable_makes {r r' : Registry} {c : Callable} {t : TypeId}
    (h : r.addCallable c = .ok (t, r')) :
    t = .derived r.entries.size ∧ r ≤ r' ∧ (r.Nested → r'.Nested) ∧
      r.entries.size < r'.entries.size ∧ ∀ u d, r'.callable u = .ok d → r.callable u = .ok d ∨ u = t := by
  unfold Registry.addCallable at h
  cases hg : r.group c.group with
  | error d => simp [hg, Bind.bind, Except.bind] at h
  | ok g =>
    simp only [hg, Bind.bind, Except.bind] at h
    cases h
    have hpush : ∀ u d, (r.push (.callable c)).2.callable u = .ok d →
        r.callable u = .ok d ∨ u = .derived r.entries.size := by
      intro u d hd
      rw [Registry.callable_eq_ok] at hd ⊢
      cases u with
      | derived i =>
        rw [Registry.get?_derived, Registry.getElem?_push] at hd
        split at hd
        · next hi => exact .inr (by rw [hi])
        · exact .inl hd
      | _ => simp [Registry.get?] at hd
    have hle := Registry.le_push r (.callable c)
    have hsize : r.entries.size < (r.push (.callable c)).2.entries.size := by simp [Registry.push]
    cases hgroup : c.group with
    | derived i =>
      have hext := Registry.le_extendGroup (r.push (.callable c)).2 i (.derived r.entries.size)
      exact ⟨rfl, le_trans hle hext, fun hr => (hr.push (by simp)).extendGroup i _,
        Nat.lt_of_lt_of_le hsize (Registry.size_le hext),
        fun u d hd => hpush u d (Registry.callable_of_extendGroup hd)⟩
    | _ => exact ⟨rfl, hle, fun hr => hr.push (by simp), hsize, hpush⟩

def Enters (functions : List TypeId) (made : List Symbol) (m : Binder (Option Pending)) : Prop :=
  ∀ s p? s', Minted functions made s → m s = .ok (p?, s') →
    ∃ made', Minted (functions ++ p?.toList.map Pending.callable) made' s'

theorem Enters.none : Enters functions made (Pure.pure none) := by
  intro s p? s' hs hrun
  cases hrun
  exact ⟨made, by simpa using hs⟩

theorem Enters.bind {m : Binder α} {f : α → Binder (Option Pending)}
    {Q : List Symbol → α → Prop} (hm : Mints functions made m Q)
    (hf : ∀ made' a, Enters functions made' (f a)) : Enters functions made (m >>= f) := by
  intro s p? s' hs hrun
  obtain ⟨a, s₁, hrun₁, hrun₂⟩ := bind_eq_ok hrun
  obtain ⟨made₁, -, hs₁, -⟩ := hm s a s₁ hs hrun₁
  exact hf made₁ a s₁ p? s' hs₁ hrun₂

theorem Enters.find_bind {m : Binder α} {f : α → Binder (Option Pending)}
    (hm : Finds functions made m fun _ => True) (hf : ∀ a, Enters functions made (f a)) :
    Enters functions made (m >>= f) := by
  intro s p? s' hs hrun
  obtain ⟨a, s₁, hrun₁, hrun₂⟩ := bind_eq_ok hrun
  exact hf a s₁ p? s' (hm s a s₁ hs hrun₁).1 hrun₂

theorem Enters.addCallable (c : Callable) (k : TypeId → Pending) (hk : ∀ t, (k t).callable = t) :
    Enters functions made (do return some (k (← Binder.register (·.addCallable c)))) := by
  intro s p? s' hs hrun
  obtain ⟨t, s₁, hreg, hpure⟩ := bind_eq_ok hrun
  change (liftM (s.registry.addCallable c) >>= fun p => (do
    modify fun s => { s with registry := p.2 }
    return p.1 : Binder TypeId)) s = _ at hreg
  obtain ⟨q, s₂, hlift, hset⟩ := bind_eq_ok hreg
  obtain ⟨hq, rfl⟩ := lift_eq_ok hlift
  cases hset
  cases hpure
  obtain ⟨ht, hle, hnested, hsize, hold⟩ := addCallable_makes hq
  refine ⟨made, hs.numbers, hs.distinct, hs.scope, le_trans hs.registry hle, hnested hs.nested, ?_,
    ?_, ?_⟩
  · intro u d hd hop
    obtain hd | rfl := hold u d hd
    · exact (hs.callables u d hd hop).imp_right (List.mem_append_left _)
    · exact .inr (List.mem_append_right _ (by simp [hk]))
  · intro u hu
    obtain hu | hu := List.mem_append.mp hu
    · obtain ⟨i, hi, rfl⟩ := hs.placed u hu
      exact ⟨i, Nat.lt_trans hi hsize, rfl⟩
    · simp only [Option.toList_some, List.map_cons, List.map_nil, List.mem_singleton, hk] at hu
      exact ⟨_, hsize, hu.trans ht⟩
  · rw [List.nodup_append]
    refine ⟨hs.nodup, by simp, fun u hu v hv heq => ?_⟩
    simp only [Option.toList_some, List.map_cons, List.map_nil, List.mem_singleton, hk] at hv
    obtain ⟨i, hi, hu⟩ := hs.placed u hu
    rw [heq, hv, ht, TypeId.derived.injEq] at hu
    omega

theorem enters_declareFunction (f : Parsed.Function) :
    Enters functions made (Binder.declareFunction f) := by
  have hrest : ∀ params result, Enters functions made (declareTyped f params result) := by
    intro params result
    unfold declareTyped
    refine Enters.bind (Mints.localGroup _ _) fun made₁ group? => ?_
    split
    · refine Enters.find_bind (Finds.ask _) fun members => ?_
      refine Enters.find_bind (Finds.hasOverload _ _) fun found => ?_
      split
      · refine Enters.find_bind (Finds.ask _) fun _ => ?_
        exact Enters.find_bind (Finds.complain _ _) fun _ => Enters.none
      · exact Enters.addCallable _ (fun t => ⟨f, t, params, result⟩) fun _ => rfl
    · exact Enters.none
  unfold Binder.declareFunction
  refine Enters.find_bind (Finds.mapM (fun p : Parsed.Param => Finds.valueType p.type) _) ?_
  intro params
  cases f.result? with
  | none => exact hrest params _
  | some t => exact Enters.find_bind (Finds.resolveType t) fun result => hrest params result

theorem minted_declareFunctions {fs : List Parsed.Function} {s s' : State}
    {pending : List Pending} (hs : Minted functions made s)
    (hrun : fs.filterMapM Binder.declareFunction s = .ok (pending, s')) :
    ∃ made', Minted (functions ++ pending.map Pending.callable) made' s' := by
  induction fs generalizing functions made s pending with
  | nil =>
    cases hrun
    exact ⟨made, by simpa using hs⟩
  | cons f fs ih =>
    rw [List.filterMapM_cons] at hrun
    obtain ⟨p?, s₁, hrun₁, hrest⟩ := bind_eq_ok hrun
    obtain ⟨made₁, hs₁⟩ := enters_declareFunction f s p? s₁ hs hrun₁
    cases p? with
    | none => exact ih (by simpa using hs₁) hrest
    | some p =>
      obtain ⟨ps, s₂, hrun₂, hpure⟩ := bind_eq_ok hrest
      cases hpure
      obtain ⟨made₂, hs₂⟩ := ih hs₁ hrun₂
      exact ⟨made₂, by simpa using hs₂⟩

end

/-- The symbols of a program and its callables: symbols with the same number are the same, and what is
called is a routine of the library or a function of the program, each of which has a callable of its
own. -/
structure Identified (r : Registry) (p : Program) (made : List Symbol) : Prop where
  declared : ∀ a ∈ made, a.IsDeclared
  distinct : ∀ a ∈ made, ∀ b ∈ made, a.id = b.id → a = b
  globals : ∀ x ∈ p.globals, x ∈ made
  routines : ∀ f ∈ p.routines, (∀ x ∈ f.params, x ∈ made) ∧ overStmts (· ∈ made) f.body
  registry : initial.registry ≤ r
  nested : r.Nested
  callables : ∀ t c, r.callable t = .ok c → c.op? = none →
    initial.registry.callable t = .ok c ∨ t ∈ p.functions.map Routine.callable
  nodup : (p.functions.map Routine.callable).Nodup
  initializer : p.initializer.callable = .absent ∧ p.initializer.params = []
  script : ∀ f, p.script? = some f → f.callable = .absent ∧ f.params = []

def isArray : TypeEntry → Bool
  | .array _ => true
  | _ => false

/-- At first there are no arrays. -/
theorem nested_initial : initial.registry.Nested := by
  have hnone : (initial.registry.entries.toList.all fun e => !isArray e) = true := by decide +kernel
  intro i j hij
  have hmem : TypeEntry.array (.derived j) ∈ initial.registry.entries.toList :=
    Array.mem_toList_iff.mpr (Array.mem_of_getElem? hij)
  exact absurd (List.all_eq_true.mp hnone _ hmem) (by simp [isArray])

theorem minted_initial : Minted [] [] initial where
  numbers := by simp
  distinct := by simp
  scope := by
    rintro a (h | ⟨f, h, -⟩) <;> simp [initial, Scope.empty] at h
  registry := le_refl _
  nested := nested_initial
  callables := fun _ _ hc _ => .inl hc
  placed := by simp
  nodup := List.nodup_nil

/-- The symbols and callables of a bound program are identified. -/
theorem bindProgram_identified {file : Parsed.File} {p : Program} {s : State}
    (hrun : bindProgram file initial = .ok (p, s)) : ∃ made, Identified s.registry p made := by
  unfold bindProgram at hrun
  obtain ⟨_, s₁, himports, hrun⟩ := bind_eq_ok hrun
  obtain ⟨made₁, -, hs₁, -⟩ := Mints.bindImports file.imports initial _ s₁ minted_initial himports
  obtain ⟨pending, s₂, hdeclare, hrun⟩ := bind_eq_ok hrun
  obtain ⟨made₂, hs₂⟩ := minted_declareFunctions hs₁ hdeclare
  obtain ⟨q, s₃, hinit, hrun⟩ := bind_eq_ok hrun
  obtain ⟨made₃, -, hs₃, hglobals, hinitializer, hown⟩ :=
    Mints.bindInitializer file s₂ q s₃ hs₂ hinit
  obtain ⟨fs, s₄, hfunctions, hrun⟩ := bind_eq_ok hrun
  obtain ⟨made₄, hsub₄, hs₄, hfs, hcallables⟩ :=
    Mints.bindFunctions pending s₃ fs s₄ hs₃ hfunctions
  rw [List.nil_append, ← hcallables] at hs₄
  have hfinish : ∀ made₅ script? s₅, Minted (fs.map Routine.callable) made₅ s₅ → made₄ ⊆ made₅ →
      (∀ f, script? = some f → Mints.IsOver made₅ f ∧ Mints.IsOwn f) →
      Identified s₅.registry ⟨q.1, q.2, fs, script?⟩ made₅ := by
    intro made₅ script? s₅ hs₅ hsub₅ hscript
    have hsub₃ := List.Subset.trans hsub₄ hsub₅
    refine ⟨fun a ha => (hs₅.numbers a ha).imp fun _ h => h.2, hs₅.distinct,
      fun x hx => hsub₃ (hglobals x hx), fun f hf => ?_, hs₅.registry, hs₅.nested, hs₅.callables, hs₅.nodup,
      hown, fun f hf => (hscript f hf).2⟩
    simp only [Program.routines, List.cons_append, List.mem_cons, List.mem_append,
      Option.mem_toList] at hf
    obtain rfl | hf | hf := hf
    · exact hinitializer.mono hsub₃
    · exact (hfs f hf).mono hsub₅
    · exact (hscript f hf).1
  dsimp only at hrun
  split at hrun
  · cases hrun
    exact ⟨made₄, hfinish made₄ none _ hs₄ (List.Subset.refl _) (by simp)⟩
  · obtain ⟨script?, s₅, hmap, hpure⟩ := bind_eq_ok hrun
    change (bindScript file >>= fun f => pure (some f)) s₄ = _ at hmap
    obtain ⟨f, s₆, hscript, hsome⟩ := bind_eq_ok hmap
    obtain ⟨made₅, hsub₅, hs₅, hf⟩ := Mints.bindScript file s₄ f s₆ hs₄ hscript
    cases hsome
    cases hpure
    refine ⟨made₅, hfinish made₅ (some f) _ hs₅ hsub₅ ?_⟩
    rintro _ ⟨⟩
    exact hf

end Binder
end TypedScript
