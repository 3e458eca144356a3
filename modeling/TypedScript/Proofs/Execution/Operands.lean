import TypedScript.Proofs.Execution.Bound
import TypedScript.Proofs.Execution.Frame

/-!
# Operands in order

What runs before a flat expression takes part in its evaluation. The statements together with the
expression do what the bound expression does, although operands may be stored in temporaries on the
way: those that are not stored have the same value later on.
-/

namespace TypedScript
namespace Flat

open Execution

/-- Statements lead from one state to another, whatever comes after them. -/
structure Reaches (x : Environment) (ss : List Stmt) (τ τ' : State) : Prop where
  run : ∀ body n rest, exec x body n (ss ++ rest) τ = exec x body n rest τ'
  nil : ss = [] → τ' = τ

def Halts (x : Environment) (ss : List Stmt) (τ : State) (h : Halt) (w : Shared) : Prop :=
  ∀ body n rest, ∃ τ', exec x body n (ss ++ rest) τ = .error h τ' ∧ τ'.shared = w

section

variable {x : Environment} {a b : List Stmt} {τ τ₁ τ₂ : State}

theorem Reaches.refl (x : Environment) (τ : State) : Reaches x [] τ τ :=
  ⟨fun _ _ _ => rfl, fun _ => rfl⟩

theorem Reaches.append (h : Reaches x a τ τ₁) (k : Reaches x b τ₁ τ₂) :
    Reaches x (a ++ b) τ τ₂ := by
  refine ⟨fun body n rest => ?_, fun hnil => ?_⟩
  · rw [List.append_assoc, h.run, k.run]
  · obtain ⟨ha, hb⟩ := List.append_eq_nil_iff.mp hnil
    rw [k.nil hb, h.nil ha]

theorem Halts.append {h : Halt} {w : Shared} (hh : Halts x a τ h w) (b : List Stmt) :
    Halts x (a ++ b) τ h w := by
  intro body n rest
  rw [List.append_assoc]
  exact hh body n (b ++ rest)

theorem Reaches.halts {h : Halt} {w : Shared} (hr : Reaches x a τ τ₁) (hh : Halts x b τ₁ h w) :
    Halts x (a ++ b) τ h w := by
  intro body n rest
  rw [List.append_assoc, hr.run]
  exact hh body n rest

theorem not_halts_nil {h : Halt} {w : Shared} : ¬Halts x [] τ h w := by
  intro hh
  obtain ⟨τ', hrun, -⟩ := hh [] 0 [.returnStmt none]
  rw [List.nil_append, exec_cons] at hrun
  cases hrun

theorem reaches_eval {e : Expr} {v : Value} (h : eval x e τ = .ok v τ₁) :
    Reaches x [.eval e] τ τ₁ := by
  refine ⟨fun body n rest => ?_, by simp⟩
  have hflow : (Stmt.eval e).flow x τ = .ok .next τ₁ := bind_ok h
  rw [List.singleton_append, exec_cons, bind_ok hflow]

theorem halts_eval {e : Expr} {h : Halt} (he : eval x e τ = .error h τ₁) :
    Halts x [.eval e] τ h τ₁.shared := by
  intro body n rest
  have hflow : (Stmt.eval e).flow x τ = .error h τ₁ := bind_error he
  exact ⟨τ₁, by rw [List.singleton_append, exec_cons, bind_error hflow], rfl⟩

theorem reaches_declare (x : Environment) (s : Symbol) (τ : State) :
    Reaches x [.declare s] τ τ := by
  refine ⟨fun body n rest => ?_, by simp⟩
  rw [List.singleton_append, exec_cons]
  rfl

theorem reaches_label (x : Environment) (l : Label) (τ : State) : Reaches x [.label l] τ τ := by
  refine ⟨fun body n rest => ?_, by simp⟩
  rw [List.singleton_append, exec_cons]
  rfl

end

def setLocal (τ : State) (s : Symbol) (v : Value) : State :=
  { τ with locals := Function.update τ.locals s v }

theorem eval_assign_temporary {x : Environment} {n : Nat} {t : TypeId} {e : Expr} {v : Value}
    {τ τ₁ : State} (h : eval x e τ = .ok v τ₁) :
    eval x (.assign (temporary n t) e) τ = .ok v (setLocal τ₁ (temporary n t) v) := by
  simp only [eval]
  rw [bind_ok h]
  rfl

theorem eval_assign_error {x : Environment} {s : Symbol} {e : Expr} {h : Halt} {τ τ₁ : State}
    (he : eval x e τ = .error h τ₁) : eval x (.assign s e) τ = .error h τ₁ := by
  simp only [eval]
  exact bind_error he

theorem eval_temporary (x : Environment) (n : Nat) (t : TypeId) (τ : State) :
    eval x (.symbol (temporary n t)) τ = .ok (τ.locals (temporary n t)) τ := by
  simp only [eval]
  rfl

theorem setLocal_self (τ : State) (s : Symbol) (v : Value) : (setLocal τ s v).locals s = v := by
  simp [setLocal]

theorem alike_setLocal {P : Nat → Prop} {n : Nat} {t : TypeId} (τ : State) (v : Value)
    (hn : ¬P n) : Alike P τ (setLocal τ (temporary n t) v) := by
  refine ⟨rfl, fun s hs => ?_⟩
  have hne : s ≠ temporary n t := by
    rintro rfl
    exact hn (hs n rfl)
  simp [setLocal, hne]

theorem isTemporary_temporary {n m : Nat} {t : TypeId} : IsTemporary (temporary n t) m ↔ n = m := by
  simp [IsTemporary, temporary]

def Outside (lo hi n : Nat) : Prop := n ≤ lo ∨ hi < n

theorem kind_of_stable {s : Symbol} (h : Lowering.isStable (.symbol s))
    (ht : ∀ n, ¬IsTemporary s n) :
    (∃ i, s.kind = .parameter i) ∨ ∃ path, s.kind = .libraryField path := by
  obtain ⟨id, name, kind, type, readonly⟩ := s
  cases id with
  | temporary n => exact absurd rfl (ht n)
  | declared n =>
    cases kind with
    | parameter i => exact .inl ⟨i, rfl⟩
    | libraryField path => exact .inr ⟨path, rfl⟩
    | localVariable | globalVariable | overloads => cases h

/-- A stable expression has the same value as long as its temporary is kept. -/
theorem eval_stable {x : Environment} {e : Expr} {k : Nat} (hs : Lowering.isStable e)
    (hw : e.Within k) (τ : State) :
    ∃ v, ∀ τ', Keeps (· ≤ k) τ τ' → eval x e τ' = .ok v τ' := by
  cases e with
  | literal v t => exact ⟨_, fun τ' _ => by simp only [eval]; rfl⟩
  | symbol s =>
    by_cases htemp : ∃ n, IsTemporary s n
    · obtain ⟨n, hn⟩ := htemp
      obtain ⟨hle, hkind⟩ := hw n hn
      refine ⟨τ.locals s, fun τ' hkeep => ?_⟩
      rw [← hkeep s n hn hle]
      simp only [eval, Environment.read, hkind]
      rfl
    · obtain ⟨i, hkind⟩ | ⟨path, hkind⟩ := kind_of_stable hs fun n hn => htemp ⟨n, hn⟩
      · refine ⟨x.args.getD i .null, fun τ' _ => ?_⟩
        simp only [eval, Environment.read, hkind]
        rfl
      · refine ⟨fieldValue path, fun τ' _ => ?_⟩
        simp only [eval, Environment.read, hkind]
        rfl
  | _ => cases hs

section

variable {x : Environment} {es kept : List Expr} {s s' : Supply} {before : List Stmt}

theorem Hoists.temporaries_le (h : Hoists es s before kept s') :
    s.temporaries ≤ s'.temporaries := by
  induction h with
  | nil => exact Nat.le_refl _
  | stable _ _ ih => exact ih
  | store _ _ ih =>
    rw [Supply.temporaries_nextTemporary] at ih
    omega

theorem Hoists.within {k : Nat} (h : Hoists es s before kept s') (hk : k ≤ s.temporaries)
    (hw : withinAll k es) : withinAll s'.temporaries kept := by
  induction h with
  | nil => trivial
  | stable _ hrest ih =>
    simp only [withinAll] at hw ⊢
    have hle := hrest.temporaries_le
    exact ⟨hw.1.mono (by omega), ih hk hw.2⟩
  | store _ hrest ih =>
    simp only [withinAll] at hw ⊢
    have hle := hrest.temporaries_le
    rw [Supply.temporaries_nextTemporary] at hle
    refine ⟨fun n hn => ⟨?_, rfl⟩, ih (by simp; omega) hw.2⟩
    rw [← isTemporary_temporary.mp hn]
    exact hle

theorem reaches_store {e : Expr} {n : Nat} {t : TypeId} {v : Value} {τ τ₁ : State}
    (h : eval x e τ = .ok v τ₁) :
    Reaches x (Lowering.store (temporary n t) e) τ (setLocal τ₁ (temporary n t) v) :=
  (reaches_declare x _ τ).append (reaches_eval (eval_assign_temporary h))

theorem error_of_bind_pure {α β : Type} {m : Run α} {f : α → β} {τ τ' : State} {stop : Halt}
    (h : (do return f (← m)) τ = .error stop τ') : m τ = .error stop τ' := by
  cases hm : m τ with
  | ok a τ₁ =>
    rw [bind_ok hm] at h
    cases h
  | error k τ₁ =>
    rw [bind_error hm] at h
    cases h
    rfl

theorem evalAll_cons_ok {e : Expr} {vs : List Value} {τ τ' : State}
    (h : evalAll x (e :: es) τ = .ok vs τ') :
    ∃ v ws τ₁, eval x e τ = .ok v τ₁ ∧ evalAll x es τ₁ = .ok ws τ' ∧ vs = v :: ws := by
  simp only [evalAll] at h
  cases he : eval x e τ with
  | error k τ₁ =>
    rw [bind_error he] at h
    cases h
  | ok v τ₁ =>
    rw [bind_ok he] at h
    cases hes : evalAll x es τ₁ with
    | error k τ₂ =>
      rw [bind_error hes] at h
      cases h
    | ok ws τ₂ =>
      rw [bind_ok hes] at h
      cases h
      exact ⟨v, ws, τ₁, rfl, hes, rfl⟩

theorem evalAll_cons_eq {e : Expr} {v : Value} {ws : List Value} {τ τ₁ τ' : State}
    (he : eval x e τ = .ok v τ₁) (hes : evalAll x es τ₁ = .ok ws τ') :
    evalAll x (e :: es) τ = .ok (v :: ws) τ' := by
  simp only [evalAll]
  rw [bind_ok he, bind_ok hes]
  rfl

/-- A temporary that is set does not matter to expressions that do not mention it. -/
theorem evalAll_setLocal {k n : Nat} {t : TypeId} (hw : withinAll k es) (hn : k < n)
    {τ τ' : State} {vs : List Value} (v : Value) (h : evalAll x es τ = .ok vs τ') :
    ∃ τ₁, evalAll x es (setLocal τ (temporary n t) v) = .ok vs τ₁ ∧ Alike (· ≠ n) τ' τ₁ ∧
      τ₁.locals (temporary n t) = v := by
  have hspares : Spares (evalAll x es) :=
    spares_evalAll fun e he => spares_eval (withinAll_iff.mp hw e he)
  have hset : Alike (· ≤ k) τ (setLocal τ (temporary n t) v) := alike_setLocal τ v (by omega)
  cases matches_evalAll (fun e he {_ _} ha => matches_eval (withinAll_iff.mp hw e he) ha) hset with
  | error h' =>
    rw [h] at h'
    cases h'
  | @ok ws τ₀ τ₁ h' h₁ hsame =>
    rw [h] at h'
    cases h'
    have hkeep := hspares _ _ _ h
    have hkeep' := hspares _ _ _ h₁
    refine ⟨τ₁, h₁, Agree.alike (hsame.imp (by simp)) fun sym m hm hne => ?_, ?_⟩
    · rw [hkeep' sym m hm trivial, hkeep sym m hm trivial]
      exact (alike_setLocal τ v (by simp) : Alike (· ≠ n) _ _).keeps sym m hm hne
    · rw [hkeep' (temporary n t) n rfl trivial, setLocal_self]

/-- Storing expressions evaluates them. Those that are kept have their values from then on. -/
theorem Hoists.reaches (h : Hoists es s before kept s') {k : Nat} (hk : k ≤ s.temporaries)
    (hw : withinAll k es) {τ τ' : State} {vs : List Value} (hrun : evalAll x es τ = .ok vs τ') :
    ∃ τ₂, Reaches x before τ τ₂ ∧ Alike (Outside s.temporaries s'.temporaries) τ' τ₂ ∧
      ∀ τ₃, Keeps (fun n => n ≤ k ∨ s.temporaries < n ∧ n ≤ s'.temporaries) τ₂ τ₃ →
        evalAll x kept τ₃ = .ok vs τ₃ := by
  induction h generalizing τ τ' vs with
  | nil =>
    simp only [evalAll] at hrun ⊢
    cases hrun
    exact ⟨τ, .refl x τ, .refl _ τ, fun _ _ => rfl⟩
  | @stable e es s s' before kept hs hrest ih =>
    simp only [withinAll] at hw
    obtain ⟨v, ws, τ₁, he, hes, rfl⟩ := evalAll_cons_ok hrun
    obtain ⟨u, hu⟩ := eval_stable (x := x) hs hw.1 τ
    rw [hu τ (Keeps.refl _ τ)] at he
    cases he
    obtain ⟨τ₂, hreach, halike, hkept⟩ := ih hk hw.2 hes
    have hspares : Spares (evalAll x es) :=
      spares_evalAll fun e he => spares_eval (withinAll_iff.mp hw.2 e he)
    refine ⟨τ₂, hreach, halike, fun τ₃ hkeep => evalAll_cons_eq (hu τ₃ ?_) (hkept τ₃ hkeep)⟩
    have hfirst : Keeps (· ≤ k) τ τ' := (hspares _ _ _ hes).imp fun _ _ => trivial
    have hsecond : Keeps (· ≤ k) τ' τ₂ := halike.keeps.imp fun n hn => .inl (by omega)
    exact (hfirst.trans hsecond).trans (hkeep.imp fun n hn => .inl hn)
  | @store e es s s' before kept hs hrest ih =>
    simp only [withinAll] at hw
    have hle := hrest.temporaries_le
    rw [Supply.temporaries_nextTemporary] at hle
    obtain ⟨v, ws, τ₁, he, hes, rfl⟩ := evalAll_cons_ok hrun
    obtain ⟨τ₁', hes', hother, hvalue⟩ :=
      evalAll_setLocal (t := e.type) hw.2 (Nat.lt_succ_of_le hk) v hes
    obtain ⟨τ₂, hreach, halike, hkept⟩ := ih (by simp; omega) hw.2 hes'
    rw [Supply.temporaries_nextTemporary] at halike hkept
    refine ⟨τ₂, (reaches_store he).append hreach, ?_, fun τ₃ hkeep => ?_⟩
    · refine (hother.imp fun n hn => ?_).trans (halike.imp fun n hn => ?_)
      · unfold Outside at hn
        omega
      · unfold Outside at hn ⊢
        omega
    · refine evalAll_cons_eq ?_ (hkept τ₃ (hkeep.imp fun n hn => by omega))
      have htemp : IsTemporary (temporary (s.temporaries + 1) e.type) (s.temporaries + 1) := rfl
      rw [eval_temporary, hkeep _ _ htemp (by omega),
        halike.keeps _ _ htemp (.inl (Nat.le_refl _)), hvalue]

/-- Storing expressions halts where their evaluation does. -/
theorem Hoists.halts (h : Hoists es s before kept s') {k : Nat} (hk : k ≤ s.temporaries)
    (hw : withinAll k es) {τ τ' : State} {stop : Halt}
    (hrun : evalAll x es τ = .error stop τ') : Halts x before τ stop τ'.shared := by
  induction h generalizing τ τ' with
  | nil =>
    simp only [evalAll] at hrun
    cases hrun
  | @stable e es s s' before kept hs hrest ih =>
    simp only [withinAll] at hw
    obtain ⟨v, hv⟩ := eval_stable (x := x) hs hw.1 τ
    simp only [evalAll] at hrun
    rw [bind_ok (hv τ (Keeps.refl _ τ))] at hrun
    exact ih hk hw.2 (error_of_bind_pure hrun)
  | @store e es s s' before kept hs hrest ih =>
    simp only [withinAll] at hw
    simp only [evalAll] at hrun
    cases he : eval x e τ with
    | error k τ₁ =>
      rw [bind_error he] at hrun
      cases hrun
      exact ((reaches_declare x _ τ).halts (halts_eval (eval_assign_error he))).append before
    | ok v τ₁ =>
      rw [bind_ok he] at hrun
      have hset : Alike (· ≤ k) τ₁ (setLocal τ₁ (temporary (s.temporaries + 1) e.type) v) :=
        alike_setLocal τ₁ v (by omega)
      have hes := error_of_bind_pure hrun
      cases matches_evalAll (fun e he {_ _} ha => matches_eval (withinAll_iff.mp hw.2 e he) ha)
        hset with
      | ok h' =>
        rw [hes] at h'
        cases h'
      | @error stop' τ₀ τ₂ h' h₂ hshared =>
        rw [hes] at h'
        cases h'
        rw [← hshared]
        exact (reaches_store he).halts (ih (by simp; omega) hw.2 h₂)

end

/-- Statements followed by a computation do what another computation does. Either the statements run
through, with temporaries of their own, and the computations match from there, or they halt in the
same way. -/
def Simulates {α : Type} (x : Environment) (lo hi : Nat) (m : Run α) (before : List Stmt)
    (m' : Run α) : Prop :=
  ∀ σ τ, Agree σ τ →
    (∃ τ₁, Reaches x before τ τ₁ ∧ Keeps (Outside lo hi) τ τ₁ ∧ Matches Agree m m' σ τ₁) ∨
    ∃ stop σ', m σ = .error stop σ' ∧ Halts x before τ stop σ'.shared

section

variable {α β : Type} {x : Environment} {lo hi : Nat} {before : List Stmt}

theorem Simulates.of_matches {m m' : Run α} (h : ∀ σ τ, Agree σ τ → Matches Agree m m' σ τ) :
    Simulates x lo hi m [] m' :=
  fun σ τ ha => .inl ⟨τ, .refl x τ, .refl _ τ, h σ τ ha⟩

/-- What comes after the expression may be anything that does the same on both sides. -/
theorem Simulates.bind {m m' : Run α} {f f' : α → Run β} (h : Simulates x lo hi m before m')
    (hf : ∀ a σ τ, Agree σ τ → Matches Agree (f a) (f' a) σ τ) :
    Simulates x lo hi (m >>= f) before (m' >>= f') := by
  intro σ τ ha
  obtain ⟨τ₁, hreach, hkeep, hmatch⟩ | ⟨stop, σ', hrun, hhalts⟩ := h σ τ ha
  · exact .inl ⟨τ₁, hreach, hkeep, hmatch.bind hf⟩
  · exact .inr ⟨stop, σ', bind_error hrun, hhalts⟩

/-- Nothing is said of more temporaries. -/
theorem Simulates.mono {m m' : Run α} (h : Simulates x lo hi m before m') {hi' : Nat}
    (hle : hi ≤ hi') : Simulates x lo hi' m before m' := by
  intro σ τ ha
  obtain ⟨τ₁, hreach, hkeep, hmatch⟩ | hstop := h σ τ ha
  · refine .inl ⟨τ₁, hreach, hkeep.imp fun n hn => ?_, hmatch⟩
    unfold Outside at hn ⊢
    omega
  · exact .inr hstop

/-- With nothing before it, the computation matches. -/
theorem Simulates.matches {m m' : Run α} (h : Simulates x lo hi m [] m') {σ τ : State}
    (ha : Agree σ τ) : Matches Agree m m' σ τ := by
  obtain ⟨τ₁, hreach, -, hmatch⟩ | ⟨stop, σ', -, hhalts⟩ := h σ τ ha
  · rwa [hreach.nil rfl] at hmatch
  · exact absurd hhalts not_halts_nil

end

section

variable {x : Environment}

theorem evalAll_append (a b : List Expr) :
    evalAll x (a ++ b) = (do return (← evalAll x a) ++ (← evalAll x b)) := by
  induction a with
  | nil => simp [evalAll]
  | cons e a ih => simp [evalAll, ih]

theorem boundEvalAll_append (a b : List Bound.Expr) :
    Bound.evalAll x (a ++ b) = (do return (← Bound.evalAll x a) ++ (← Bound.evalAll x b)) := by
  induction a with
  | nil => simp [Bound.evalAll]
  | cons e a ih => simp [Bound.evalAll, ih]

/-- The next operand joins those that are done. -/
theorem Joins.simulates {es : List Bound.Expr} {e : Bound.Expr} {before before' : List Stmt}
    {done done' : List Expr} {next : Lowered} {lo : Nat} {s s₁ s₂ : Supply} (hlo : lo ≤ s.temporaries)
    (hle : s.temporaries ≤ s₁.temporaries)
    (hdone : Simulates x lo s.temporaries (Bound.evalAll x es) before (evalAll x done))
    (hw : withinAll s.temporaries done)
    (hnext : Simulates x s.temporaries s₁.temporaries (Bound.eval x e) next.before
      (eval x next.expr))
    (h : Joins before done next s₁ before' done' s₂) :
    Simulates x lo s₂.temporaries (Bound.evalAll x (es ++ [e])) before' (evalAll x done') := by
  intro σ τ ha
  have hlast : Bound.evalAll x (es ++ [e]) =
      (do return (← Bound.evalAll x es) ++ [← Bound.eval x e]) := by
    simp [boundEvalAll_append, Bound.evalAll]
  have hlast' : ∀ a : List Expr, evalAll x (a ++ [next.expr]) =
      (do return (← evalAll x a) ++ [← eval x next.expr]) := by
    simp [evalAll_append, evalAll]
  rw [hlast]
  obtain ⟨τ₁, hreach, hkeep, hmatch⟩ | ⟨stop, σ', hrun, hhalts⟩ := hdone σ τ ha
  · cases h with
    | plain hempty =>
      rw [hempty] at hnext
      refine .inl ⟨τ₁, hreach, hkeep.imp fun n hn => ?_, ?_⟩
      · unfold Outside at hn ⊢
        omega
      · rw [hlast']
        refine hmatch.bind fun vs σ₂ τ₂ ha₂ => (hnext.matches ha₂).bind fun v _ _ ha₃ => ?_
        exact Matches.pure _ ha₃
    | @keep hoisted kept s₂ hne hoists =>
      cases hmatch with
      | @error stop σ' τ' hrun hrun' hshared =>
        refine .inr ⟨stop, σ', bind_error hrun, ?_⟩
        rw [← hshared]
        exact (hreach.halts (hoists.halts hle hw hrun')).append next.before
      | @ok vs σ₂ τ' hrun hrun' ha₂ =>
        have hspares : Spares (evalAll x done) :=
          spares_evalAll fun e he => spares_eval (withinAll_iff.mp hw e he)
        have hle₂ := hoists.temporaries_le
        obtain ⟨τ₂, hreach₂, halike₂, hkept⟩ := hoists.reaches hle hw hrun'
        have ha₃ : Agree σ₂ τ₂ := ha₂.trans (halike₂.imp (by simp))
        obtain ⟨τ₃, hreach₃, hkeep₃, hmatch₃⟩ | ⟨stop, σ', hstop, hhalts⟩ := hnext σ₂ τ₂ ha₃
        · refine .inl ⟨τ₃, (hreach.append hreach₂).append hreach₃, ?_, ?_⟩
          · refine ((hkeep.imp fun n hn => ?_).trans ?_).trans (hkeep₃.imp fun n hn => ?_)
            · unfold Outside at hn ⊢
              omega
            · refine Keeps.trans ((hspares _ _ _ hrun').imp fun _ _ => trivial)
                (halike₂.keeps.imp fun n hn => ?_)
              unfold Outside at hn ⊢
              omega
            · unfold Outside at hn ⊢
              omega
          · have hkept₃ : evalAll x kept τ₃ = .ok vs τ₃ := by
              refine hkept τ₃ (hkeep₃.imp fun n hn => ?_)
              unfold Outside
              omega
            have hleft := Matches.bind hmatch₃ fun v _ _ ha₄ =>
              Matches.pure (vs ++ [v]) ha₄
            rw [hlast']
            cases hleft with
            | ok h h' hR => exact .ok ((bind_ok hrun).trans h) ((bind_ok hkept₃).trans h') hR
            | error h h' hs => exact .error ((bind_ok hrun).trans h) ((bind_ok hkept₃).trans h') hs
        · refine .inr ⟨stop, σ', (bind_ok hrun).trans (bind_error hstop), ?_⟩
          exact (hreach.append hreach₂).halts hhalts
  · refine .inr ⟨stop, σ', bind_error hrun, ?_⟩
    cases h with
    | plain => exact hhalts
    | keep => exact (hhalts.append _).append _

end

end Flat
end TypedScript
