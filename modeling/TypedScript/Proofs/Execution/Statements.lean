import TypedScript.Proofs.Execution.Compound

/-!
# Flattening statements

Flattening a statement keeps its meaning. Where the statement ends normally, the flat statements go on
with what comes after them; where it leaves a loop or asks for the next turn, they jump to the label
of the loop. Both use up the same number of turns.
-/

namespace TypedScript
namespace Bound

open Execution

def Declaration.NoCompound (d : Declaration) : Prop := ∀ e, d.init? = some e → e.NoCompound

/-- There is no compound assignment in the first part of the header of a loop. -/
def Setup.NoCompound : Setup → Prop
  | .declare d => d.NoCompound
  | .eval e => e.expr.NoCompound

mutual

def Stmt.NoCompound : Stmt → Prop
  | .block _ body => noCompoundStmts body
  | .declare d => d.NoCompound
  | .eval e => e.expr.NoCompound
  | .ifThen _ cond yes => cond.NoCompound ∧ yes.NoCompound
  | .ifElse _ cond yes no => cond.NoCompound ∧ yes.NoCompound ∧ no.NoCompound
  | .whileLoop _ cond body => cond.NoCompound ∧ body.NoCompound
  | .forLoop _ setup cond post body =>
    (∀ s, setup = some s → s.NoCompound) ∧ (∀ e, cond = some e → e.NoCompound) ∧
      (∀ e, post = some e → e.NoCompound) ∧ body.NoCompound
  | .returnStmt _ value => ∀ e, value = some e → e.NoCompound
  | .breakLoop _ | .continueLoop _ => True

/-- There is no compound assignment in the statements. -/
def noCompoundStmts : List Stmt → Prop
  | [] => True
  | s :: rest => s.NoCompound ∧ noCompoundStmts rest

end

theorem noCompoundStmts_iff {ss : List Stmt} : noCompoundStmts ss ↔ ∀ s ∈ ss, s.NoCompound := by
  induction ss with
  | nil => simp [noCompoundStmts]
  | cons s ss ih => simp [noCompoundStmts, ih]

def Spends (n : Nat) (m : Run (Exit × Nat)) : Prop :=
  ∀ σ e k σ', m σ = .ok (e, k) σ' → k ≤ n

theorem spends_pure {n k : Nat} (h : k ≤ n) (e : Exit) :
    Spends n (pure (e, k) : Run (Exit × Nat)) := by
  rintro σ _ _ _ ⟨⟩
  exact h

theorem spends_bind {α : Type} {n : Nat} {m : Run α} {f : α → Run (Exit × Nat)}
    (h : ∀ σ a σ', m σ = .ok a σ' → Spends n (f a)) : Spends n (m >>= f) := by
  intro σ e k σ' hrun
  cases hm : m σ with
  | ok a σ₁ =>
    rw [bind_ok hm] at hrun
    exact h σ a σ₁ hm σ₁ e k σ' hrun
  | error stop σ₁ =>
    rw [bind_error hm] at hrun
    cases hrun

theorem Spends.mono {n n' : Nat} (hn : n ≤ n') {m : Run (Exit × Nat)} (h : Spends n m) :
    Spends n' m :=
  fun σ e k σ' hrun => Nat.le_trans (h σ e k σ' hrun) hn

theorem spends_throw (n : Nat) (stop : Halt) : Spends n (throw stop : Run (Exit × Nat)) := by
  rintro σ e k σ' ⟨⟩

/-- Begins another turn of a loop, if there is one left. -/
def nextTurn (test : Run Bool) (turn : Nat → Run (Exit × Nat)) (post : Run Unit) (bound : Nat) :
    Nat → Run (Exit × Nat)
  | 0 => throw .unfinished
  | n + 1 => loop test turn post bound n

def behindTurn (test : Run Bool) (turn : Nat → Run (Exit × Nat)) (post : Run Unit) (bound : Nat) :
    Exit × Nat → Run (Exit × Nat)
  | (.breakLoop, n) => return (.next, n)
  | (.returned v, n) => return (.returned v, n)
  | (_, n) => do
    post
    nextTurn test turn post bound n

theorem spends_loop {test : Run Bool} {turn : Nat → Run (Exit × Nat)} {post : Run Unit}
    (hturn : ∀ n, Spends n (turn n)) (bound n : Nat) :
    Spends n (loop test turn post bound n) := by
  induction bound generalizing n with
  | zero => exact spends_throw n _
  | succ bound ih =>
    refine spends_bind fun σ b σ₁ _ => ?_
    cases b with
    | false => exact spends_pure (Nat.le_refl n) _
    | true =>
      refine spends_bind fun σ₂ out σ₃ hout => ?_
      obtain ⟨exit, k⟩ := out
      have hk := hturn n σ₂ exit k σ₃ hout
      have hnext : Spends n (do
          post
          nextTurn test turn post bound k) := by
        refine spends_bind fun _ _ _ _ => ?_
        cases k with
        | zero => exact spends_throw n _
        | succ k => exact (ih k).mono (by omega)
      cases exit with
      | next => exact hnext
      | continueLoop => exact hnext
      | breakLoop => exact spends_pure hk _
      | returned v => exact spends_pure hk _

theorem spends_execAll {x : Environment} {ss : List Stmt}
    (h : ∀ s ∈ ss, ∀ n, Spends n (exec x s n)) (n : Nat) : Spends n (execAll x ss n) := by
  induction ss generalizing n with
  | nil =>
    simp only [execAll]
    exact spends_pure (Nat.le_refl n) _
  | cons s rest ih =>
    rw [List.forall_mem_cons] at h
    simp only [execAll]
    refine spends_bind fun σ out σ' hout => ?_
    obtain ⟨exit, k⟩ := out
    have hk := h.1 n σ exit k σ' hout
    cases exit with
    | next => exact (ih h.2 k).mono hk
    | breakLoop | continueLoop | returned => exact spends_pure hk _

/-- A statement never adds to the turns. -/
theorem spends_exec (x : Environment) (s : Stmt) (n : Nat) : Spends n (exec x s n) := by
  induction s using Stmt.induction generalizing n with
  | block span body ih =>
    simp only [exec]
    exact spends_execAll ih n
  | declare d =>
    simp only [exec]
    exact spends_bind fun _ _ _ _ => spends_pure (Nat.le_refl n) _
  | eval e =>
    simp only [exec]
    exact spends_bind fun _ _ _ _ => spends_pure (Nat.le_refl n) _
  | ifThen span cond yes ih =>
    simp only [exec]
    refine spends_bind fun _ v _ _ => spends_bind fun _ b _ _ => ?_
    cases b with
    | true => exact ih n
    | false => exact spends_pure (Nat.le_refl n) _
  | ifElse span cond yes no ihyes ihno =>
    simp only [exec]
    refine spends_bind fun _ v _ _ => spends_bind fun _ b _ _ => ?_
    cases b with
    | true => exact ihyes n
    | false => exact ihno n
  | whileLoop span cond body ih =>
    simp only [exec]
    exact spends_loop ih (n + 1) n
  | forLoop span setup cond post body ih =>
    simp only [exec]
    exact spends_bind fun _ _ _ _ => spends_loop ih (n + 1) n
  | breakLoop span | continueLoop span =>
    simp only [exec]
    exact spends_pure (Nat.le_refl n) _
  | returnStmt span value =>
    cases value with
    | none =>
      simp only [exec]
      exact spends_pure (Nat.le_refl n) _
    | some e =>
      simp only [exec]
      exact spends_bind fun _ _ _ _ => spends_pure (Nat.le_refl n) _

end Bound
namespace Flat

open Execution

def Performs {α : Type} (x : Environment) (m : Run α) (ss : List Stmt) : Prop :=
  ∀ σ τ, Agree σ τ →
    (∃ a σ' τ', m σ = .ok a σ' ∧ Reaches x ss τ τ' ∧ Agree σ' τ') ∨
    ∃ stop σ', m σ = .error stop σ' ∧ Halts x ss τ stop σ'.shared

/-- Flat statements go on if a computation says so and jump to a label otherwise. -/
def Tests (x : Environment) (m : Run Bool) (ss : List Stmt) (l : Label) : Prop :=
  ∀ σ τ, Agree σ τ →
    (∃ σ' τ', m σ = .ok true σ' ∧ Reaches x ss τ τ' ∧ Agree σ' τ') ∨
    (∃ σ' τ', m σ = .ok false σ' ∧ Agree σ' τ' ∧
      ∀ body n rest, exec x body n (ss ++ rest) τ = jumpTo x body n l rest τ') ∨
    ∃ stop σ', m σ = .error stop σ' ∧ Halts x ss τ stop σ'.shared

section

variable {x : Environment} {lo hi : Nat}

theorem performs_nil : Performs x (return) [] :=
  fun σ τ ha => .inl ⟨(), σ, τ, rfl, .refl x τ, ha⟩

theorem Simulates.performs {α : Type} {m : Run Value} {v : Lowered} {f : Value → α}
    (h : Simulates x lo hi m v.before (eval x v.expr)) :
    Performs x (do return f (← m)) (v.before ++ [Stmt.eval v.expr]) := by
  intro σ τ ha
  obtain ⟨τ₁, hreach, -, hmatch⟩ | ⟨stop, σ', hrun, hhalts⟩ := h σ τ ha
  · cases hmatch with
    | @ok a σ' τ' hrun hrun' ha' =>
      exact .inl ⟨f a, σ', τ', bind_ok hrun, hreach.append (reaches_eval hrun'), ha'⟩
    | @error stop σ' τ' hrun hrun' hshared =>
      refine .inr ⟨stop, σ', bind_error hrun, ?_⟩
      rw [← hshared]
      exact hreach.halts (halts_eval hrun')
  · exact .inr ⟨stop, σ', bind_error hrun, hhalts.append _⟩

theorem Performs.of_eq {α : Type} {m m' : Run α} {ss : List Stmt} (h : Performs x m ss)
    (heq : m' = m) : Performs x m' ss := heq ▸ h

/-- A statement that changes nothing may stand before. -/
theorem Performs.behind {α : Type} {m : Run α} {ss : List Stmt} (h : Performs x m ss) {s : Stmt}
    (hs : ∀ τ, Reaches x [s] τ τ) : Performs x m (s :: ss) := by
  intro σ τ ha
  obtain ⟨a, σ', τ', hrun, hreach, ha'⟩ | ⟨stop, σ', hrun, hhalts⟩ := h σ τ ha
  · exact .inl ⟨a, σ', τ', hrun, (hs τ).append hreach, ha'⟩
  · exact .inr ⟨stop, σ', hrun, (hs τ).halts hhalts⟩

/-- A variable is declared and set. -/
theorem Simulates.assigns {m : Run Value} {v : Lowered}
    (h : Simulates x lo hi m v.before (eval x v.expr)) (s : Symbol) :
    Performs x (do write s (← m)) (.declare s :: (v.before ++ [Stmt.eval (.assign s v.expr)])) := by
  have hassign : Simulates x lo hi (do let w ← m; write s w; return w) v.before
      (eval x (.assign s v.expr)) := by
    simp only [eval]
    exact h.bind fun w σ τ ha => Matches.bind (Matches.write s w ha)
      fun _ _ _ ha => Matches.pure w ha
  have hperforms := hassign.performs (v := ⟨v.before, .assign s v.expr⟩) (f := fun _ => ())
  refine (hperforms.behind (reaches_declare x s)).of_eq ?_
  simp

/-- A flat condition is negated, and jumps where the bound one does not hold. -/
theorem Simulates.tests {m : Run Value} {v : Lowered}
    (h : Simulates x lo hi m v.before (eval x v.expr)) (l : Label) :
    Tests x (do x.condition (← m)) (v.before ++ [Stmt.jumpIf (Lowering.negate v.expr) l]) l := by
  intro σ τ ha
  obtain ⟨τ₁, hreach, -, hmatch⟩ | ⟨stop, σ', hrun, hhalts⟩ := h σ τ ha
  · have hholds : Matches Agree (do x.condition (← m)) (holds x v.expr) σ τ₁ :=
      Matches.bind hmatch fun v _ _ ha' => Matches.effect _ ha'
    have hnegate : holds x (Lowering.negate v.expr) τ₁ = (do return !(← holds x v.expr)) τ₁ := by
      rw [holds_negate]
    cases hholds with
    | @ok b σ' τ' hrun hrun' ha' =>
      rw [bind_ok hrun'] at hnegate
      cases b with
      | true => exact .inl ⟨σ', τ', hrun, hreach.append (reaches_jumpIf hnegate l), ha'⟩
      | false =>
        refine .inr (.inl ⟨σ', τ', hrun, ha', fun body n rest => ?_⟩)
        rw [List.append_assoc, hreach.run, List.singleton_append, exec_jumpIf hnegate]
        rfl
    | @error stop σ' τ' hrun hrun' hshared =>
      rw [bind_error hrun'] at hnegate
      refine .inr (.inr ⟨stop, σ', hrun, ?_⟩)
      rw [← hshared]
      exact hreach.halts (halts_jumpIf hnegate l)
  · exact .inr (.inr ⟨stop, σ', bind_error hrun, hhalts.append _⟩)

end

/-- How flat statements go on after a bound statement, with the statements after them and the labels
of the loop around them. -/
inductive Continues (x : Environment) (body rest : List Stmt) (loop? : Option LoopLabels)
    (m : Run (Bound.Exit × Nat)) (run : Run Value) (σ τ : State) : Prop
  | error {stop : Halt} {σ' τ' : State} : m σ = .error stop σ' → run τ = .error stop τ' →
    τ'.shared = σ'.shared → Continues x body rest loop? m run σ τ
  | next {k : Nat} {σ' τ' : State} : m σ = .ok (.next, k) σ' → run τ = exec x body k rest τ' →
    Agree σ' τ' → Continues x body rest loop? m run σ τ
  | breakLoop {l : LoopLabels} {k : Nat} {σ' τ' : State} : loop? = some l →
    m σ = .ok (.breakLoop, k) σ' → run τ = jumpTo x body k l.breakTo rest τ' → Agree σ' τ' →
    Continues x body rest loop? m run σ τ
  | continueLoop {l : LoopLabels} {k : Nat} {σ' τ' : State} : loop? = some l →
    m σ = .ok (.continueLoop, k) σ' → run τ = jumpTo x body k l.continueTo rest τ' →
    Agree σ' τ' → Continues x body rest loop? m run σ τ
  | returned {v : Value} {k : Nat} {σ' τ' : State} : m σ = .ok (.returned v, k) σ' →
    run τ = .ok v τ' → τ'.shared = σ'.shared → Continues x body rest loop? m run σ τ

section

variable {x : Environment} {body rest : List Stmt} {loop? : Option LoopLabels}

def AvoidsLoop (loop? : Option LoopLabels) (ss : List Stmt) : Prop :=
  ∀ l, loop? = some l → l.breakTo ∉ labelsOf ss ∧ l.continueTo ∉ labelsOf ss

/-- What goes on with statements goes on with those after them. -/
theorem Continues.passing {m : Run (Bound.Exit × Nat)} {run : Run Value} {σ τ : State}
    {mid : List Stmt} (h : Continues x body (mid ++ rest) loop? m run σ τ)
    (hloop : AvoidsLoop loop? mid)
    (hnext : ∀ k σ' τ', m σ = .ok (.next, k) σ' → Agree σ' τ' →
      exec x body k (mid ++ rest) τ' = exec x body k rest τ') :
    Continues x body rest loop? m run σ τ := by
  cases h with
  | error hm hr hs => exact .error hm hr hs
  | next hm hr ha => exact .next hm (hr.trans (hnext _ _ _ hm ha)) ha
  | breakLoop hl hm hr ha =>
    exact .breakLoop hl hm (by rw [hr, jumpTo_append x body _ (hloop _ hl).1]) ha
  | continueLoop hl hm hr ha =>
    exact .continueLoop hl hm (by rw [hr, jumpTo_append x body _ (hloop _ hl).2]) ha
  | returned hm hr hs => exact .returned hm hr hs

/-- One computation may stand for another with the same outcome. -/
theorem Continues.of_eq {m m' : Run (Bound.Exit × Nat)} {run run' : Run Value}
    {σ σ' τ τ' : State} (h : Continues x body rest loop? m run σ τ) (hm : m' σ' = m σ)
    (hr : run' τ' = run τ) : Continues x body rest loop? m' run' σ' τ' := by
  cases h with
  | error h₁ h₂ h₃ => exact .error (hm.trans h₁) (hr.trans h₂) h₃
  | next h₁ h₂ h₃ => exact .next (hm.trans h₁) (hr.trans h₂) h₃
  | breakLoop hl h₁ h₂ h₃ => exact .breakLoop hl (hm.trans h₁) (hr.trans h₂) h₃
  | continueLoop hl h₁ h₂ h₃ => exact .continueLoop hl (hm.trans h₁) (hr.trans h₂) h₃
  | returned h₁ h₂ h₃ => exact .returned (hm.trans h₁) (hr.trans h₂) h₃

/-- What comes after a computation comes after its flat form. -/
theorem Performs.bind {α : Type} {m : Run α} {ss out : List Stmt} (h : Performs x m ss) {n : Nat}
    {f : α → Run (Bound.Exit × Nat)}
    (hf : ∀ a σ τ, Agree σ τ → Continues x body rest loop? (f a) (exec x body n out) σ τ)
    {σ τ : State} (ha : Agree σ τ) :
    Continues x body rest loop? (m >>= f) (exec x body n (ss ++ out)) σ τ := by
  obtain ⟨a, σ', τ', hrun, hreach, ha'⟩ | ⟨stop, σ', hrun, hhalts⟩ := h σ τ ha
  · exact (hf a σ' τ' ha').of_eq (bind_ok hrun) (hreach.run body n out)
  · obtain ⟨τ', hrun', hshared⟩ := hhalts body n out
    exact .error (bind_error hrun) hrun' hshared

theorem Performs.continues {α : Type} {m : Run α} {ss : List Stmt} (h : Performs x m ss) (n : Nat)
    {σ τ : State} (ha : Agree σ τ) :
    Continues x body rest loop? (do let _ ← m; return (.next, n)) (exec x body n (ss ++ rest))
      σ τ :=
  h.bind (fun _ _ _ ha => .next rfl rfl ha) ha

/-- A loop in flat form: a test, the statements of a turn, and what comes before the jump back. -/
theorem continues_loop {test : Run Bool} {turn : Nat → Run (Bound.Exit × Nat)} {post : Run Unit}
    {top : Label} {l : LoopLabels} {first out mid : List Stmt}
    (hback : ∀ k, jumpTo x body k top (.label l.breakTo :: rest) =
      again x body (first ++ (out ++ (mid ++ (.jump top :: .label l.breakTo :: rest)))) k)
    (hnext : ∀ k, jumpTo x body k l.continueTo (mid ++ (.jump top :: .label l.breakTo :: rest)) =
      exec x body k (mid ++ (.jump top :: .label l.breakTo :: rest)))
    (hout : l.breakTo ∉ labelsOf out) (hmid : l.breakTo ∉ labelsOf mid)
    (htest : Tests x test first l.breakTo) (hpost : Performs x post mid)
    (hturn : ∀ n, Bound.Spends n (turn n))
    (hstep : ∀ n σ τ, Agree σ τ →
      Continues x body (mid ++ (.jump top :: .label l.breakTo :: rest)) (some l) (turn n)
        (exec x body n (out ++ (mid ++ (.jump top :: .label l.breakTo :: rest)))) σ τ)
    {bound n : Nat} (hn : n < bound) {σ τ : State} (ha : Agree σ τ) :
    Continues x body rest loop? (Bound.loop test turn post bound n)
      (exec x body n (first ++ (out ++ (mid ++ (.jump top :: .label l.breakTo :: rest))))) σ τ := by
  have hexit : ∀ k, jumpTo x body k l.breakTo (mid ++ (.jump top :: .label l.breakTo :: rest)) =
      exec x body k rest := by
    intro k
    rw [jumpTo_append x body k hmid]
    exact (jumpTo_append x body k (a := [.jump top]) (by simp) _).trans (jumpTo_label x body k _ _)
  induction bound generalizing n σ τ with
  | zero => omega
  | succ bound ih =>
    have hafter : ∀ k σ₂ τ₂, k ≤ n → Agree σ₂ τ₂ → Continues x body rest loop?
        (do
          post
          Bound.nextTurn test turn post bound k)
        (exec x body k (mid ++ (.jump top :: .label l.breakTo :: rest))) σ₂ τ₂ := by
      intro k σ₂ τ₂ hk ha₂
      obtain ⟨_, σ₃, τ₃, hrun, hreach, ha₃⟩ | ⟨stop, σ', hrun, hhalts⟩ := hpost σ₂ τ₂ ha₂
      · have hjump : exec x body k (mid ++ (.jump top :: .label l.breakTo :: rest)) τ₂ =
            again x body (first ++ (out ++ (mid ++ (.jump top :: .label l.breakTo :: rest)))) k
              τ₃ := by
          rw [hreach.run, exec_cons]
          exact congrFun (hback k) τ₃
        cases k with
        | zero => exact .error (bind_ok hrun) hjump ha₃.shared
        | succ k => exact (ih (by omega) ha₃).of_eq (bind_ok hrun) hjump
      · obtain ⟨τ', hrun', hshared⟩ := hhalts body k (.jump top :: .label l.breakTo :: rest)
        exact .error (bind_error hrun) hrun' hshared
    obtain ⟨σ₁, τ₁, hrun, hreach, ha₁⟩ | ⟨σ₁, τ₁, hrun, ha₁, hjump⟩ | ⟨stop, σ', hrun, hhalts⟩ :=
      htest σ τ ha
    · have hflat := hreach.run body n (out ++ (mid ++ (.jump top :: .label l.breakTo :: rest)))
      have hloop : ∀ {e k σ₂}, turn n σ₁ = .ok (e, k) σ₂ →
          Bound.loop test turn post (bound + 1) n σ =
            Bound.behindTurn test turn post bound (e, k) σ₂ := by
        intro e k σ₂ hturn'
        exact (bind_ok hrun).trans (bind_ok hturn')
      cases hstep n σ₁ τ₁ ha₁ with
      | error hm hr hs => exact .error ((bind_ok hrun).trans (bind_error hm)) (hflat.trans hr) hs
      | next hm hr ha₂ =>
        exact (hafter _ _ _ (hturn n _ _ _ _ hm) ha₂).of_eq (hloop hm) (hflat.trans hr)
      | breakLoop hl hm hr ha₂ =>
        cases hl
        exact .next (hloop hm) (hflat.trans (hr.trans (congrFun (hexit _) _))) ha₂
      | continueLoop hl hm hr ha₂ =>
        cases hl
        refine (hafter _ _ _ (hturn n _ _ _ _ hm) ha₂).of_eq (hloop hm) ?_
        exact hflat.trans (hr.trans (congrFun (hnext _) _))
      | returned hm hr hs => exact .returned (hloop hm) (hflat.trans hr) hs
    · refine .next (bind_ok hrun) ((hjump body n _).trans ?_) ha₁
      rw [jumpTo_append x body n hout, hexit]
    · obtain ⟨τ', hrun', hshared⟩ :=
        hhalts body n (out ++ (mid ++ (.jump top :: .label l.breakTo :: rest)))
      exact .error (bind_error hrun) hrun' hshared

/-- A jump back to a label that stands before all that is left. -/
theorem jumpTo_top {pre out after : List Stmt} {top : Label} (hnodup : (labelsOf body).Nodup)
    (hbody : body = pre ++ .label top :: out) (hafter : after <:+ out) (k : Nat) :
    jumpTo x body k top after = again x body out k := by
  subst hbody
  simp only [labelsOf_append, labelsOf_label, List.nodup_append, List.nodup_cons] at hnodup
  refine jumpTo_back x k (fun hmem => ?_) ?_
  · exact hnodup.2.1.1 ((hafter.sublist.filterMap _).subset hmem)
  · rw [after_append, after_label]
    exact fun hmem => hnodup.2.2 top hmem top List.mem_cons_self rfl

/-- A test decides between going on and jumping. -/
theorem Tests.continues {test : Run Bool} {first out : List Stmt} {l : Label}
    (h : Tests x test first l) {yes no : Run (Bound.Exit × Nat)} {n : Nat}
    (hyes : ∀ σ τ, Agree σ τ → Continues x body rest loop? yes (exec x body n out) σ τ)
    (hno : ∀ σ τ, Agree σ τ → Continues x body rest loop? no (jumpTo x body n l out) σ τ)
    {σ τ : State} (ha : Agree σ τ) :
    Continues x body rest loop? (do if ← test then yes else no) (exec x body n (first ++ out))
      σ τ := by
  obtain ⟨σ', τ', hrun, hreach, ha'⟩ | ⟨σ', τ', hrun, ha', hjump⟩ | ⟨stop, σ', hrun, hhalts⟩ :=
    h σ τ ha
  · exact (hyes σ' τ' ha').of_eq (bind_ok hrun) (hreach.run body n out)
  · exact (hno σ' τ' ha').of_eq (bind_ok hrun) (hjump body n out)
  · obtain ⟨τ', hrun', hshared⟩ := hhalts body n out
    exact .error (bind_error hrun) hrun' hshared

theorem exec_label (l : Label) (n : Nat) : exec x body n (.label l :: rest) = exec x body n rest :=
  funext fun τ => (reaches_label x l τ).run body n rest

theorem exec_jump (l : Label) (n : Nat) :
    exec x body n (.jump l :: rest) = jumpTo x body n l rest := by
  rw [exec_cons]
  rfl

/-- What goes on with a label goes on behind it. -/
theorem Continues.label {m : Run (Bound.Exit × Nat)} {run : Run Value} {σ τ : State} {l : Label}
    (h : Continues x body (.label l :: rest) loop? m run σ τ) (hloop : AvoidsLoop loop? [.label l]) :
    Continues x body rest loop? m run σ τ := by
  have h : Continues x body ([Stmt.label l] ++ rest) loop? m run σ τ := h
  refine h.passing hloop fun k _ τ' _ _ => ?_
  rw [List.singleton_append, exec_label]

end

section

variable {x : Environment} {body rest : List Stmt} {loop? : Option LoopLabels} {test : Run Bool}
  {first out : List Stmt} {n : Nat}

theorem continues_ifThen {done : Label} {yes : Run (Bound.Exit × Nat)}
    (htest : Tests x test first done)
    (hyes : ∀ σ τ, Agree σ τ → Continues x body (.label done :: rest) loop? yes
      (exec x body n (out ++ .label done :: rest)) σ τ)
    (hout : done ∉ labelsOf out) (hloop : AvoidsLoop loop? [.label done])
    {σ τ : State} (ha : Agree σ τ) :
    Continues x body rest loop? (do if ← test then yes else return (.next, n))
      (exec x body n (first ++ (out ++ .label done :: rest))) σ τ := by
  refine htest.continues (fun σ τ ha => (hyes σ τ ha).label hloop) (fun σ τ ha => ?_) ha
  rw [jumpTo_append x body n hout, jumpTo_label]
  exact .next rfl rfl ha

theorem continues_ifElse {done otherwise : Label} {yes no : Run (Bound.Exit × Nat)}
    {out' : List Stmt} (htest : Tests x test first otherwise)
    (hyes : ∀ σ τ, Agree σ τ →
      Continues x body ((Stmt.jump done :: .label otherwise :: out' ++ [Stmt.label done]) ++ rest) loop? yes
        (exec x body n
          (out ++ ((Stmt.jump done :: .label otherwise :: out' ++ [Stmt.label done]) ++ rest))) σ τ)
    (hno : ∀ σ τ, Agree σ τ → Continues x body (.label done :: rest) loop? no
      (exec x body n (out' ++ .label done :: rest)) σ τ)
    (hout : otherwise ∉ labelsOf out) (hout' : done ∉ labelsOf out') (hne : done ≠ otherwise)
    (hloop : AvoidsLoop loop? (Stmt.jump done :: .label otherwise :: out' ++ [Stmt.label done]))
    {σ τ : State} (ha : Agree σ τ) :
    Continues x body rest loop? (do if ← test then yes else no)
      (exec x body n
        (first ++ (out ++ ((Stmt.jump done :: .label otherwise :: out' ++ [Stmt.label done]) ++ rest))))
      σ τ := by
  refine htest.continues (fun σ τ ha => ?_) (fun σ τ ha => ?_) ha
  · refine (hyes σ τ ha).passing hloop fun k _ τ' _ _ => ?_
    have hmid : done ∉ labelsOf (.label otherwise :: out') := by simp [hne, hout']
    rw [List.append_assoc, List.cons_append, exec_jump, jumpTo_append x body k hmid,
      List.singleton_append, jumpTo_label]
  · have hjump : jumpTo x body n otherwise
        (out ++ ((Stmt.jump done :: .label otherwise :: out' ++ [Stmt.label done]) ++ rest)) =
        exec x body n (out' ++ .label done :: rest) := by
      rw [jumpTo_append x body n hout, List.append_assoc]
      exact (jumpTo_append x body n (a := [.jump done]) (by simp) _).trans
        (jumpTo_label x body n otherwise _)
    refine ((hno σ τ ha).label fun l hl => ?_).of_eq rfl (congrFun hjump τ)
    have := hloop l hl
    simp_all

end

theorem ofTypeName_array (s : String) : Tag.ofTypeName (s ++ "[]") = .reference := by
  have hlast : ∀ name : String, name = s ++ "[]" → name.toList.getLast? = some ']' := by
    rintro _ rfl
    simp
  have hnone : Tag.scalars.find? (fun t => t.name == s ++ "[]") = none := by
    refine List.find?_eq_none.mpr fun t ht heq => ?_
    have hscalar : ∀ t ∈ Tag.scalars, t.name.toList.getLast? ≠ some ']' := by decide
    exact hscalar t ht (hlast _ (beq_iff_eq.mp heq))
  have hvoid : s ++ "[]" ≠ "void" := fun h => absurd (hlast _ h.symm) (by decide)
  have hempty : s ++ "[]" ≠ "" := fun h => absurd (hlast _ h.symm) (by decide)
  simp [Tag.ofTypeName, hnone, hvoid, hempty]

/-- An array that was never set is null. -/
theorem zero_derived {r : Registry} {i : Nat} (h : r.IsType (.derived i)) :
    Value.zero (nameOf r (.derived i)) = .null := by
  obtain ⟨t, ht⟩ := h
  have hname : Emission.typeName r (.derived i) =
      (return (← r.nameWithin r.entries.size t) ++ "[]") := by
    simp [Emission.typeName, Registry.name, Registry.nameWithin, Registry.get?, ht]
  unfold nameOf
  rw [hname]
  cases r.nameWithin r.entries.size t with
  | ok s =>
    change Value.zero (s ++ "[]") = .null
    rw [Value.zero, ofTypeName_array]
  | error d =>
    change Value.zero "" = .null
    decide

/-- The literal for zero is the value that variables of the type start with. -/
theorem eval_zeroLiteral (x : Environment) {t : TypeId} (h : x.registry.IsType t) (he : t ≠ .error) :
    eval x (Lowering.zeroLiteral t) = return x.zero t := by
  cases t with
  | absent => exact h.elim
  | error => exact absurd rfl he
  | derived i =>
    rw [Environment.zero, zero_derived h]
    rfl
  | builtin b => cases b <;> rfl

section

variable {x : Environment} {c : Typing} (hr : c.registry.WellFormed) (hc : ¬c.lenient)
  (hx : x.registry = c.registry)

include hr hc hx

theorem LowersDeclaration.performs {d : Bound.Declaration} (hd : d.Typed c) (hn : d.NoCompound)
    {s s' : Supply} {out : List Stmt} (h : LowersDeclaration c.registry d s out s') :
    Performs x (Bound.declare x d) out := by
  unfold Bound.declare
  cases h with
  | init hinit hv =>
    rw [hinit]
    exact (hv.simulates hr hc hx (hd.init _ hinit).1 (hn _ hinit).orderly).assigns d.symbol
  | zero hinit hne =>
    have hzero := eval_zeroLiteral x (hx ▸ hd.symbol.isType) hne
    have hsim : Simulates x 0 0 (return x.zero d.symbol.type) []
        (eval x (Lowering.zeroLiteral d.symbol.type)) := by
      rw [hzero]
      exact Simulates.of_matches fun σ τ ha => Matches.pure _ ha
    rw [hinit]
    exact Simulates.assigns (v := ⟨[], _⟩) hsim d.symbol
  | unset hinit he => exact absurd (hd.symbol.error he) hc

theorem LowersSetup.performs {setup : Option Bound.Setup}
    (ht : ∀ s, setup = some s → s.Typed c) (hn : ∀ s, setup = some s → s.NoCompound)
    {s s' : Supply} {out : List Stmt} (h : LowersSetup c.registry setup s out s') :
    Performs x (Bound.setup x setup) out := by
  cases h with
  | none => exact performs_nil
  | declare hd => exact hd.performs hr hc hx (ht _ rfl) (hn _ rfl)
  | eval hv => exact (hv.simulates hr hc hx (ht _ rfl) (hn _ rfl).orderly).performs

theorem LowersTest.tests {cond : Option Bound.Expr} (ht : ∀ e, cond = .some e → e.IsCondition c)
    (hn : ∀ e, cond = .some e → e.NoCompound) {done : Label} {s s' : Supply} {out : List Stmt}
    (h : LowersTest c.registry done cond s out s') : Tests x (Bound.test x cond) out done := by
  cases h with
  | none => exact fun σ τ ha => .inl ⟨σ, τ, rfl, .refl x τ, ha⟩
  | some hv => exact (hv.simulates hr hc hx (ht _ rfl).1 (hn _ rfl).orderly).tests done

/-- A bare name after a turn breaks the rules on both sides. -/
theorem LowersPost.performs {post : Option Bound.Expr}
    (ht : ∀ e, post = .some e → e.Typed c ∨ e.isName) (hn : ∀ e, post = .some e → e.NoCompound)
    {s s' : Supply} {out : List Stmt} (h : LowersPost c.registry post s out s') :
    Performs x (Bound.post x post) out := by
  cases h with
  | none => exact performs_nil
  | @some e _ _ v hv =>
    obtain ht | hname := ht _ rfl
    · exact (hv.simulates hr hc hx ht (hn _ rfl).orderly).performs
    · have hcrash : Simulates x 0 0 (Bound.eval x e) v.before (eval x v.expr) := by
        cases e with
        | group | typeName =>
          cases hv
          simp only [Bound.eval, eval]
          exact Simulates.of_matches fun σ τ ha => Matches.effect _ ha
        | _ => cases hname
      exact hcrash.performs

omit hr hc hx in
/-- The labels of the loop around were taken before those of the statement. -/
theorem avoidsLoop {loop? : Option LoopLabels} {k : Nat} {ss : List Stmt}
    (hloop : ∀ l ∈ outerLabels loop?, l ≤ k) (hss : ∀ l ∈ labelsOf ss, k < l) :
    AvoidsLoop loop? ss := by
  rintro l rfl
  simp only [outerLabels, Option.elim, LoopLabels.toList, List.mem_cons, List.not_mem_nil,
    or_false, forall_eq_or_imp, forall_eq] at hloop
  exact ⟨fun hmem => Nat.not_lt_of_le hloop.2 (hss _ hmem),
    fun hmem => Nat.not_lt_of_le hloop.1 (hss _ hmem)⟩

omit hr hc hx in
theorem outerLabels_le {l : LoopLabels} {k : Nat} (hcontinue : l.continueTo ≤ k)
    (hbreak : l.breakTo ≤ k) : ∀ m ∈ outerLabels (some l), m ≤ k := by
  simp only [outerLabels, Option.elim, LoopLabels.toList, List.mem_cons, List.not_mem_nil, or_false]
  rintro m (rfl | rfl)
  · exact hcontinue
  · exact hbreak

omit hr hc hx in
theorem LowersStmts.continues {loop? : Option LoopLabels} {stmts : List Bound.Stmt}
    {body : List Stmt}
    (hstmts : ∀ stmt ∈ stmts, ∀ {s s' out pre rest}, LowersStmt c.registry loop? stmt s out s' →
      (∀ l ∈ outerLabels loop?, l ≤ s.labels) → body = pre ++ (out ++ rest) → ∀ n {σ τ},
      Agree σ τ →
      Continues x body rest loop? (Bound.exec x stmt n) (exec x body n (out ++ rest)) σ τ)
    {s s' : Supply} {out pre rest : List Stmt} (h : LowersStmts c.registry loop? stmts s out s')
    (hloop : ∀ l ∈ outerLabels loop?, l ≤ s.labels) (hbody : body = pre ++ (out ++ rest)) (n : Nat)
    {σ τ : State} (ha : Agree σ τ) :
    Continues x body rest loop? (Bound.execAll x stmts n) (exec x body n (out ++ rest)) σ τ := by
  induction stmts generalizing s out pre n σ τ with
  | nil =>
    cases h
    exact .next (by simp only [Bound.execAll]; rfl) rfl ha
  | cons stmt stmts ih =>
    cases h with
    | @cons _ _ _ _ s₁ _ out₁ out₂ hfirst hrest =>
      rw [List.forall_mem_cons] at hstmts
      have hloop' : ∀ l ∈ outerLabels loop?, l ≤ s₁.labels :=
        fun l hl => Nat.le_trans (hloop l hl) hfirst.labelled.le
      have havoid : AvoidsLoop loop? out₂ :=
        avoidsLoop hloop' fun l hl => ((hrest.labelled fun _ _ => LowersStmt.labelled).range l hl).1
      rw [List.append_assoc] at hbody ⊢
      simp only [Bound.execAll]
      cases hstmts.1 hfirst hloop hbody n ha with
      | error hm hr hs => exact .error (bind_error hm) hr hs
      | next hm hr ha' =>
        have hbody' : body = (pre ++ out₁) ++ (out₂ ++ rest) := by simpa using hbody
        exact (ih hstmts.2 hrest hloop' hbody' _ ha').of_eq (bind_ok hm) hr
      | breakLoop hl hm hr ha' =>
        exact .breakLoop hl (bind_ok hm) (by rw [hr, jumpTo_append x body _ (havoid _ hl).1]) ha'
      | continueLoop hl hm hr ha' =>
        exact .continueLoop hl (bind_ok hm) (by rw [hr, jumpTo_append x body _ (havoid _ hl).2]) ha'
      | returned hm hr hs => exact .returned (bind_ok hm) hr hs

/-- Flattening a statement keeps its meaning. -/
theorem LowersStmt.continues {result : TypeId} {stmt : Bound.Stmt} {looping : Bool}
    (ht : stmt.Typed c result looping) (hn : stmt.NoCompound) {body : List Stmt}
    (hnodup : (labelsOf body).Nodup) {loop? : Option LoopLabels} {s s' : Supply}
    {out pre rest : List Stmt} (h : LowersStmt c.registry loop? stmt s out s')
    (hloop : ∀ l ∈ outerLabels loop?, l ≤ s.labels) (hbody : body = pre ++ (out ++ rest)) (n : Nat)
    {σ τ : State} (ha : Agree σ τ) :
    Continues x body rest loop? (Bound.exec x stmt n) (exec x body n (out ++ rest)) σ τ := by
  induction stmt using Bound.Stmt.induction
    generalizing loop? looping s s' out pre rest n σ τ with
  | block span stmts ih =>
    simp only [Bound.Stmt.Typed, Bound.typedStmts_iff] at ht
    simp only [Bound.Stmt.NoCompound, Bound.noCompoundStmts_iff] at hn
    simp only [Bound.exec]
    cases h with
    | block hstmts =>
      refine hstmts.continues (fun stmt hmem {_ _ _ _ _} h hloop hbody n {_ _} ha => ?_) hloop hbody
        n ha
      exact ih stmt hmem (ht stmt hmem) (hn stmt hmem) h hloop hbody n ha
  | declare d =>
    simp only [Bound.exec]
    cases h with
    | declare hd => exact (hd.performs hr hc hx ht hn).continues n ha
  | eval e =>
    simp only [Bound.exec]
    cases h with
    | eval hv =>
      have hperforms := (hv.simulates hr hc hx ht hn.orderly).performs (f := id)
      simp only [id_eq, bind_pure] at hperforms
      exact hperforms.continues n ha
  | ifThen span cond yes ih =>
    cases h with
    | @ifThen _ _ _ _ _ s₁ _ v out hv hyes =>
      have hlist : v.before ++ [Stmt.jumpIf (Lowering.negate v.expr) (s₁.labels + 1)] ++ out ++
          [Stmt.label (s₁.labels + 1)] ++ rest = (v.before ++
            [Stmt.jumpIf (Lowering.negate v.expr) (s₁.labels + 1)]) ++
              (out ++ .label (s₁.labels + 1) :: rest) := by simp
      rw [hlist] at hbody ⊢
      have hle := hv.labelled.le
      have hloop' : ∀ l ∈ outerLabels loop?, l ≤ (s₁.nextLabels 1).labels := fun l hl =>
        Nat.le_trans (hloop l hl) (Nat.le_succ_of_le hle)
      have htests := (hv.simulates hr hc hx ht.1.1 hn.1.orderly).tests (s₁.labels + 1)
      simp only [Bound.exec, ← bind_assoc]
      refine continues_ifThen htests (fun σ τ ha => ?_) (fun hmem => ?_) ?_ ha
      · exact ih ht.2 hn.2 hyes hloop' (by rw [hbody, ← List.append_assoc]) n ha
      · exact Nat.lt_irrefl _ (hyes.labelled.range _ hmem).1
      · exact avoidsLoop hloop (by simp; omega)
  | ifElse span cond yes no ihyes ihno =>
    cases h with
    | @ifElse _ _ _ _ _ _ s₁ s₂ _ v out out' hv hyes hno =>
      have hlist : v.before ++ [Stmt.jumpIf (Lowering.negate v.expr) (s₁.labels + 2)] ++ out ++
          [Stmt.jump (s₁.labels + 1), .label (s₁.labels + 2)] ++ out' ++ [Stmt.label (s₁.labels + 1)] ++
            rest = (v.before ++ [Stmt.jumpIf (Lowering.negate v.expr) (s₁.labels + 2)]) ++
              (out ++ ((.jump (s₁.labels + 1) :: .label (s₁.labels + 2) :: out' ++
                [Stmt.label (s₁.labels + 1)]) ++ rest)) := by simp
      rw [hlist] at hbody ⊢
      obtain ⟨hle, hrange, -, -⟩ := hyes.labelled
      have hrange' := hno.labelled.range
      simp only [Supply.labels_nextLabels] at hle hrange
      have hloop' : ∀ l ∈ outerLabels loop?, l ≤ s₁.labels := fun l hl =>
        Nat.le_trans (hloop l hl) hv.labelled.le
      have htests := (hv.simulates hr hc hx ht.1.1 hn.1.orderly).tests (s₁.labels + 2)
      simp only [Bound.exec, ← bind_assoc]
      refine continues_ifElse htests (fun σ τ ha => ?_) (fun σ τ ha => ?_) (fun hmem => ?_)
        (fun hmem => ?_) (by simp) ?_ ha
      · refine ihyes ht.2.1 hn.2.1 hyes (fun l hl => ?_) (by rw [hbody, ← List.append_assoc]) n ha
        exact Nat.le_trans (hloop' l hl) (Nat.le_add_right _ 2)
      · have hbody' : body = (pre ++ (v.before ++
            [Stmt.jumpIf (Lowering.negate v.expr) (s₁.labels + 2)]) ++ out ++
              [Stmt.jump (s₁.labels + 1), .label (s₁.labels + 2)]) ++
                (out' ++ ([Stmt.label (s₁.labels + 1)] ++ rest)) := by simp [hbody]
        refine ihno ht.2.2 hn.2.2 hno (fun l hl => ?_) hbody' n ha
        exact Nat.le_trans (hloop' l hl) (by omega)
      · have := hrange _ hmem
        omega
      · have := hrange' _ hmem
        omega
      · refine avoidsLoop hloop' ?_
        simp
        grind
  | whileLoop span cond stmt ih =>
    cases h with
    | @whileLoop _ _ _ _ _ s₁ _ v out hv hstmt =>
      generalize htop : s.labels + 1 = top at *
      generalize hdone : s.labels + 2 = done at *
      have hlist : [Stmt.label top] ++ (v.before ++ [Stmt.jumpIf (Lowering.negate v.expr) done]) ++
          out ++ [Stmt.jump top, .label done] ++ rest = .label top ::
            ((v.before ++ [Stmt.jumpIf (Lowering.negate v.expr) done]) ++
              (out ++ ([] ++ (.jump top :: .label done :: rest)))) := by simp
      rw [hlist] at hbody ⊢
      have hsuffix : .label done :: rest <:+ (v.before ++
          [Stmt.jumpIf (Lowering.negate v.expr) done]) ++
            (out ++ ([] ++ (.jump top :: .label done :: rest))) :=
        ⟨(v.before ++ [Stmt.jumpIf (Lowering.negate v.expr) done]) ++ out ++ [Stmt.jump top], by simp⟩
      have hback := jumpTo_top (x := x) hnodup hbody hsuffix
      obtain ⟨hle, -, -, -⟩ := hv.labelled
      simp only [Supply.labels_nextLabels] at hle
      have hle : top ≤ s₁.labels ∧ done ≤ s₁.labels := by omega
      simp only [Bound.exec, exec_label]
      refine continues_loop (l := ⟨top, done⟩) hback (fun k => ?_) (fun hmem => ?_) (by simp)
        ((hv.simulates hr hc hx ht.1.1 hn.1.orderly).tests done) performs_nil (Bound.spends_exec x stmt)
        (fun n σ τ ha => ?_) (Nat.lt_succ_self n) ha
      · rw [List.nil_append, exec_jump]
        exact jumpTo_append x body k (a := [.jump top]) (by simp) _
      · have hlt : s₁.labels < done := (hstmt.labelled.range _ hmem).1
        omega
      · have hbody' : body = (pre ++ [Stmt.label top] ++
            (v.before ++ [Stmt.jumpIf (Lowering.negate v.expr) done])) ++
              (out ++ ([] ++ (.jump top :: .label done :: rest))) := by simp [hbody]
        exact ih ht.2 hn.2 hstmt (outerLabels_le hle.1 hle.2) hbody' n ha
  | forLoop span setup cond post stmt ih =>
    cases h with
    | @forLoop _ _ _ _ _ _ _ s₁ s₂ s₃ _ first test out last hsetup htest hstmt hpost =>
      have hrange := hstmt.labelled.range
      have hrange' := hpost.labelled.range
      have hle := htest.labelled.le
      have hle' := hstmt.labelled.le
      simp only [Supply.labels_nextLabels] at hle
      generalize htop : s₁.labels + 1 = top at *
      generalize hnext : s₁.labels + 2 = next at *
      generalize hdone : s₁.labels + 3 = done at *
      have hle : next ≤ s₂.labels ∧ done ≤ s₂.labels := by omega
      have hlist : first ++ [Stmt.label top] ++ test ++ out ++ [Stmt.label next] ++ last ++
          [Stmt.jump top, .label done] ++ rest = first ++ (.label top ::
            (test ++ (out ++ ((.label next :: last) ++ (.jump top :: .label done :: rest))))) := by
        simp
      rw [hlist] at hbody ⊢
      rw [← List.append_assoc] at hbody
      have hsuffix : .label done :: rest <:+
          test ++ (out ++ ((.label next :: last) ++ (.jump top :: .label done :: rest))) :=
        ⟨test ++ out ++ (.label next :: last) ++ [Stmt.jump top], by simp⟩
      have hback := jumpTo_top (x := x) hnodup hbody hsuffix
      simp only [Bound.exec]
      refine (hsetup.performs hr hc hx ht.1 hn.1).bind (fun _ σ τ ha => ?_) ha
      rw [exec_label]
      refine continues_loop (l := ⟨next, done⟩) hback (fun k => ?_) (fun hmem => ?_)
        (fun hmem => ?_) (htest.tests hr hc hx ht.2.1 hn.2.1)
        ((hpost.performs hr hc hx ht.2.2.1 hn.2.2.1).behind (reaches_label x next))
        (Bound.spends_exec x stmt) (fun n σ τ ha => ?_) (Nat.lt_succ_self n) ha
      · rw [List.cons_append, exec_label, jumpTo_label]
      · have hlt : s₂.labels < done := (hrange _ hmem).1
        omega
      · obtain heq | hmem := List.mem_cons.mp hmem
        · have heq : done = next := heq
          omega
        · have hlt : s₃.labels < done := (hrange' _ hmem).1
          omega
      · have hbody' : body = (pre ++ first ++ [Stmt.label top] ++ test) ++
            (out ++ ((.label next :: last) ++ (.jump top :: .label done :: rest))) := by simp [hbody]
        exact ih ht.2.2.2 hn.2.2.2 hstmt (outerLabels_le hle.1 hle.2) hbody' n ha
  | breakLoop span =>
    cases h
    simp only [Bound.exec]
    exact .breakLoop rfl rfl (by rw [List.singleton_append, exec_jump]) ha
  | continueLoop span =>
    cases h
    simp only [Bound.exec]
    exact .continueLoop rfl rfl (by rw [List.singleton_append, exec_jump]) ha
  | returnStmt span value =>
    cases h with
    | returnNone =>
      simp only [Bound.exec]
      refine .returned rfl ?_ ha.shared
      rw [List.singleton_append, exec_cons]
      rfl
    | @returnSome _ _ _ _ _ v hv =>
      simp only [Bound.exec]
      obtain ⟨τ₁, hreach, -, hmatch⟩ | ⟨stop, σ', hrun, hhalts⟩ :=
        hv.simulates hr hc hx ht.1 (hn _ rfl).orderly σ τ ha
      · rw [List.append_assoc, List.singleton_append]
        have hflow : exec x body n (v.before ++ .returnStmt (some v.expr) :: rest) τ =
            Flat.eval x v.expr τ₁ := by
          rw [hreach.run, exec_cons]
          simp [Stmt.flow]
        cases hmatch with
        | ok hrun hrun' ha' => exact .returned (bind_ok hrun) (hflow.trans hrun') ha'.shared
        | error hrun hrun' hshared => exact .error (bind_error hrun) (hflow.trans hrun') hshared
      · obtain ⟨τ', hrun', hshared⟩ := (hhalts.append [.returnStmt (some _)]) body n rest
        exact .error (bind_error hrun) hrun' hshared

end

end Flat
end TypedScript
