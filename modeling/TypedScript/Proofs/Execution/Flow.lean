import TypedScript.Binding.Program
import TypedScript.Proofs.Bound.Induction
import TypedScript.Proofs.Execution.Bound
import TypedScript.Proofs.Execution.Frame

/-!
# Where control does not go

Flow analysis judges a statement by its form alone. What it says cannot complete does not complete,
whatever the values of conditions and the results of calls are. So a statement that is reported as
unreachable plays no part in what its routine does: any other could stand in its place.
-/

namespace TypedScript
namespace Execution

/-- A computation in two parts has a result only if both parts have. -/
theorem exists_of_bind_ok {ε σ α β : Type} {m : EStateM ε σ α} {f : α → EStateM ε σ β} {s s' : σ}
    {b : β} (h : (m >>= f) s = .ok b s') : ∃ a s₁, m s = .ok a s₁ ∧ f a s₁ = .ok b s' := by
  cases hm : m s with
  | ok a s₁ =>
    rw [bind_ok hm] at h
    exact ⟨a, s₁, rfl, h⟩
  | error e s₁ =>
    rw [bind_error hm] at h
    cases h

end Execution

namespace Bound

open Execution

/-- Statements that end at all end in one of the ways that are said. -/
def Exits (m : Run (Exit × Nat)) (Q : Exit → Prop) : Prop :=
  ∀ σ e k σ', m σ = .ok (e, k) σ' → Q e

namespace Exits

variable {α : Type} {Q : Exit → Prop}

theorem pure {e : Exit} {n : Nat} (h : Q e) : Exits (Pure.pure (e, n)) Q := by
  rintro σ _ _ _ ⟨⟩
  exact h

/-- After a step whose results have a property. -/
theorem bindOf {m : Run α} {f : α → Run (Exit × Nat)} {P : α → Prop}
    (hm : ∀ σ a σ', m σ = .ok a σ' → P a) (hf : ∀ a, P a → Exits (f a) Q) : Exits (m >>= f) Q := by
  intro σ e k σ' hrun
  obtain ⟨a, σ₁, hfirst, hrest⟩ := exists_of_bind_ok hrun
  exact hf a (hm σ a σ₁ hfirst) σ₁ e k σ' hrest

theorem bind {m : Run α} {f : α → Run (Exit × Nat)} (hf : ∀ a, Exits (f a) Q) :
    Exits (m >>= f) Q :=
  bindOf (P := fun _ => True) (fun _ _ _ _ => trivial) fun a _ => hf a

/-- A loop ends normally only if its test can fail or one of its turns breaks out of it. -/
theorem loop {test : Run Bool} {turn : Nat → Run (Exit × Nat)} {post : Run Unit}
    (htest : Q .next ∨ ∀ σ σ', test σ ≠ .ok false σ')
    (hturn : ∀ n, Exits (turn n) fun e => e = .breakLoop → Q .next) (hreturn : ∀ v, Q (.returned v))
    (bound n : Nat) : Exits (Bound.loop test turn post bound n) Q := by
  induction bound generalizing n with
  | zero =>
    simp only [Bound.loop]
    rintro σ _ _ _ ⟨⟩
  | succ bound ih =>
    simp only [Bound.loop]
    have hfails : ∀ σ b σ', test σ = .ok b σ' → b = false → Q .next := by
      rintro σ _ σ' hrun rfl
      exact htest.resolve_right fun hne => hne σ σ' hrun
    refine bindOf hfails fun b hb => ?_
    by_cases hgo : b = true
    · rw [if_pos hgo]
      have hends : ∀ σ (a : Exit × Nat) σ', turn n σ = .ok a σ' → a.1 = .breakLoop → Q .next :=
        fun σ a σ' hrun => hturn n σ a.1 a.2 σ' hrun
      refine bindOf hends fun a ha => ?_
      obtain ⟨e, m⟩ := a
      cases e with
      | breakLoop => exact pure (ha rfl)
      | returned v => exact pure (hreturn v)
      | next | continueLoop =>
        refine bind fun _ => ?_
        cases m with
        | zero => rintro σ _ _ _ ⟨⟩
        | succ m => exact ih m
    · rw [if_neg hgo]
      exact pure (hb (by simpa using hgo))

end Exits

section

variable {x : Environment}

theorem exits_execAll {Q : Exit → Prop} (hnext : Q .next) {body : List Stmt}
    (h : ∀ s ∈ body, ∀ n, Exits (exec x s n) Q) (n : Nat) : Exits (execAll x body n) Q := by
  induction body generalizing n with
  | nil =>
    simp only [execAll]
    exact Exits.pure hnext
  | cons s rest ih =>
    rw [List.forall_mem_cons] at h
    simp only [execAll]
    refine Exits.bindOf (P := fun a => Q a.1) (fun σ a σ' => h.1 n σ a.1 a.2 σ') fun a ha => ?_
    obtain ⟨e, m⟩ := a
    cases e with
    | next => exact ih h.2 m
    | breakLoop | continueLoop | returned => exact Exits.pure ha

theorem anyBreaks_eq_false {body : List Stmt} : anyBreaks body = false ↔ ∀ s ∈ body, s.breaks = false := by
  induction body with
  | nil => simp [anyBreaks]
  | cons s rest ih => simp [anyBreaks, ih]

/-- A statement leaves the loop around it only by a break that is not in a loop inside it. -/
theorem exits_ne_break {s : Stmt} (h : s.breaks = false) (n : Nat) :
    Exits (exec x s n) fun e => e ≠ .breakLoop := by
  induction s using Stmt.induction generalizing n with
  | block span body ih =>
    simp only [Stmt.breaks, anyBreaks_eq_false] at h
    simp only [exec]
    exact exits_execAll (by simp) (fun s hs n => ih s hs (h s hs) n) n
  | declare d =>
    simp only [exec]
    exact Exits.bind fun _ => Exits.pure (by simp)
  | eval e =>
    simp only [exec]
    exact Exits.bind fun _ => Exits.pure (by simp)
  | ifThen span cond yes ih =>
    simp only [Stmt.breaks] at h
    simp only [exec]
    refine Exits.bind fun v => Exits.bind fun b => ?_
    split
    · exact ih h n
    · exact Exits.pure (by simp)
  | ifElse span cond yes no ihyes ihno =>
    simp only [Stmt.breaks, Bool.or_eq_false_iff] at h
    simp only [exec]
    refine Exits.bind fun v => Exits.bind fun b => ?_
    split
    · exact ihyes h.1 n
    · exact ihno h.2 n
  | whileLoop span cond body ih =>
    simp only [exec]
    exact Exits.loop (.inl (by simp)) (fun n σ e k σ' _ _ => by simp) (by simp) _ _
  | forLoop span setup cond post body ih =>
    simp only [exec]
    refine Exits.bind fun _ => ?_
    exact Exits.loop (.inl (by simp)) (fun n σ e k σ' _ _ => by simp) (by simp) _ _
  | breakLoop span => simp [Stmt.breaks] at h
  | continueLoop span =>
    simp only [exec]
    exact Exits.pure (by simp)
  | returnStmt span value =>
    cases value with
    | none =>
      simp only [exec]
      exact Exits.pure (by simp)
    | some e =>
      simp only [exec]
      exact Exits.bind fun _ => Exits.pure (by simp)

/-- The literal holds as a condition. -/
theorem condition_isTrue {e : Expr} (h : e.isTrue) (σ : State) :
    (do x.condition (← eval x e) : Run Bool) σ = .ok true σ := by
  unfold Expr.isTrue at h
  split at h
  · simp only [eval]
    rfl
  · cases h

/-- Statements do not complete if one of them does not. -/
theorem exits_execAll_ne_next {body : List Stmt}
    (hbody : ∀ s ∈ body, s.canComplete = false → ∀ n, Exits (exec x s n) (· ≠ .next))
    (h : allComplete body = false) (n : Nat) : Exits (execAll x body n) (· ≠ .next) := by
  induction body generalizing n with
  | nil => simp [allComplete] at h
  | cons s rest ih =>
    rw [List.forall_mem_cons] at hbody
    simp only [execAll]
    by_cases hs : s.canComplete = true
    · simp only [allComplete, hs, Bool.true_and] at h
      refine Exits.bind fun a => ?_
      obtain ⟨e, m⟩ := a
      cases e with
      | next => exact ih hbody.2 h m
      | breakLoop | continueLoop | returned => exact Exits.pure (by simp)
    · have hfirst := hbody.1 (by simpa using hs) n
      refine Exits.bindOf (P := fun a => a.1 ≠ .next) (fun σ a σ' => hfirst σ a.1 a.2 σ') ?_
      rintro ⟨e, m⟩ he
      cases e with
      | next => exact absurd rfl he
      | breakLoop | continueLoop | returned => exact Exits.pure (by simp)

/-- A statement that cannot complete by its form never completes: it returns, breaks, continues, halts
or has no end. -/
theorem exits_ne_next {s : Stmt} (h : s.canComplete = false) (n : Nat) :
    Exits (exec x s n) (· ≠ .next) := by
  induction s using Stmt.induction generalizing n with
  | block span body ih =>
    simp only [Stmt.canComplete] at h
    simp only [exec]
    exact exits_execAll_ne_next ih h n
  | declare | eval | ifThen => simp [Stmt.canComplete] at h
  | ifElse span cond yes no ihyes ihno =>
    simp only [Stmt.canComplete, Bool.or_eq_false_iff] at h
    simp only [exec]
    refine Exits.bind fun v => Exits.bind fun b => ?_
    split
    · exact ihyes h.1 n
    · exact ihno h.2 n
  | whileLoop span cond body ih =>
    simp only [Stmt.canComplete, Bool.or_eq_false_iff, Bool.not_eq_false'] at h
    simp only [exec]
    refine Exits.loop (.inr fun σ σ' hrun => ?_) (fun n σ e k σ' hrun he => ?_) (by simp) _ _
    · rw [condition_isTrue h.1] at hrun
      cases hrun
    · exact absurd he (exits_ne_break h.2 n σ e k σ' hrun)
  | forLoop span setup cond post body ih =>
    have hbody : body.breaks = false := by
      cases cond <;> simp_all [Stmt.canComplete]
    have htest : ∀ σ σ', test x cond σ ≠ .ok false σ' := by
      intro σ σ' hrun
      cases cond with
      | none => cases hrun
      | some e =>
        simp only [Stmt.canComplete, Bool.or_eq_false_iff, Bool.not_eq_false'] at h
        rw [test, condition_isTrue h.1] at hrun
        cases hrun
    simp only [exec]
    refine Exits.bind fun _ => Exits.loop (.inr htest) (fun n σ e k σ' hrun he => ?_) (by simp) _ _
    exact absurd he (exits_ne_break hbody n σ e k σ' hrun)
  | breakLoop | continueLoop =>
    simp only [exec]
    exact Exits.pure (by simp)
  | returnStmt span value =>
    cases value with
    | none =>
      simp only [exec]
      exact Exits.pure (by simp)
    | some e =>
      simp only [exec]
      exact Exits.bind fun _ => Exits.pure (by simp)

end

/-- A statement inside something, and what that is with another statement in its place. -/
structure Place (α : Type) where
  stmt : Stmt
  put : Stmt → α

def Place.inside {α β : Type} (f : α → β) (p : Place α) : Place β := ⟨p.stmt, fun t => f (p.put t)⟩

mutual

/-- The places of the statements that are reported as never executed inside a statement. -/
def Stmt.deadPlaces : Stmt → List (Place Stmt)
  | .block span body => (deadPlacesAfter false body).map (Place.inside (.block span))
  | .ifThen span cond yes => yes.deadPlaces.map (Place.inside (.ifThen span cond))
  | .ifElse span cond yes no =>
    yes.deadPlaces.map (Place.inside fun s => .ifElse span cond s no) ++
      no.deadPlaces.map (Place.inside (.ifElse span cond yes))
  | .whileLoop span cond body => body.deadPlaces.map (Place.inside (.whileLoop span cond))
  | .forLoop span setup cond post body =>
    body.deadPlaces.map (Place.inside (.forLoop span setup cond post))
  | _ => []

/-- The places of the statements that are reported as never executed in a list of statements; `dead`
says that control does not get to the list. -/
def deadPlacesAfter (dead : Bool) : List Stmt → List (Place (List Stmt))
  | [] => []
  | s :: rest =>
    if dead then
      if s.isEmptyBlock then (deadPlacesAfter true rest).map (Place.inside (s :: ·))
      else [⟨s, fun t => t :: rest⟩]
    else
      s.deadPlaces.map (Place.inside (· :: rest)) ++
        (deadPlacesAfter (!s.canComplete) rest).map (Place.inside (s :: ·))

end

theorem map_span_inside {α β : Type} (f : α → β) (ps : List (Place α)) :
    (ps.map (Place.inside f)).map (fun p => p.stmt.span) = ps.map fun p => p.stmt.span := by
  simp [Function.comp_def, Place.inside]

mutual

/-- The spans that are reported are those of the statements at these places. -/
theorem Stmt.spans_deadPlaces : (s : Stmt) →
    s.deadPlaces.map (fun p => p.stmt.span) = s.unreachable
  | .block _ body => by
    simp only [Stmt.deadPlaces, Stmt.unreachable, map_span_inside]
    exact spans_deadPlacesAfter false body
  | .ifThen _ _ yes => by
    simp only [Stmt.deadPlaces, Stmt.unreachable, map_span_inside]
    exact yes.spans_deadPlaces
  | .ifElse _ _ yes no => by
    simp only [Stmt.deadPlaces, Stmt.unreachable, List.map_append, map_span_inside]
    rw [yes.spans_deadPlaces, no.spans_deadPlaces]
  | .whileLoop _ _ body => by
    simp only [Stmt.deadPlaces, Stmt.unreachable, map_span_inside]
    exact body.spans_deadPlaces
  | .forLoop _ _ _ _ body => by
    simp only [Stmt.deadPlaces, Stmt.unreachable, map_span_inside]
    exact body.spans_deadPlaces
  | .declare _ | .eval _ | .breakLoop _ | .continueLoop _ | .returnStmt _ _ => rfl

theorem spans_deadPlacesAfter (dead : Bool) : (body : List Stmt) →
    (deadPlacesAfter dead body).map (fun p => p.stmt.span) = unreachableAfter dead body
  | [] => rfl
  | s :: rest => by
    unfold deadPlacesAfter unreachableAfter
    split
    · split
      · rw [map_span_inside]
        exact spans_deadPlacesAfter true rest
      · rfl
    · rw [List.map_append, map_span_inside, map_span_inside, s.spans_deadPlaces,
        spans_deadPlacesAfter _ rest]

end

mutual

theorem Stmt.put_deadPlaces : (s : Stmt) → ∀ p ∈ s.deadPlaces, p.put p.stmt = s
  | .block span body => by
    simp only [Stmt.deadPlaces, List.forall_mem_map, Place.inside]
    intro p hp
    rw [put_deadPlacesAfter false body p hp]
  | .ifThen span cond yes => by
    simp only [Stmt.deadPlaces, List.forall_mem_map, Place.inside]
    intro p hp
    rw [yes.put_deadPlaces p hp]
  | .ifElse span cond yes no => by
    simp only [Stmt.deadPlaces, List.forall_mem_append, List.forall_mem_map, Place.inside]
    constructor
    · intro p hp
      rw [yes.put_deadPlaces p hp]
    · intro p hp
      rw [no.put_deadPlaces p hp]
  | .whileLoop span cond body => by
    simp only [Stmt.deadPlaces, List.forall_mem_map, Place.inside]
    intro p hp
    rw [body.put_deadPlaces p hp]
  | .forLoop span setup cond post body => by
    simp only [Stmt.deadPlaces, List.forall_mem_map, Place.inside]
    intro p hp
    rw [body.put_deadPlaces p hp]
  | .declare _ | .eval _ | .breakLoop _ | .continueLoop _ | .returnStmt _ _ => by
    simp [Stmt.deadPlaces]

theorem put_deadPlacesAfter (dead : Bool) : (body : List Stmt) →
    ∀ p ∈ deadPlacesAfter dead body, p.put p.stmt = body
  | [] => by simp [deadPlacesAfter]
  | s :: rest => by
    unfold deadPlacesAfter
    split
    · split
      · simp only [List.forall_mem_map, Place.inside]
        intro p hp
        rw [put_deadPlacesAfter true rest p hp]
      · simp
    · simp only [List.forall_mem_append, List.forall_mem_map, Place.inside]
      constructor
      · intro p hp
        rw [s.put_deadPlaces p hp]
      · intro p hp
        rw [put_deadPlacesAfter _ rest p hp]

end

section

variable {x : Environment}

/-- What stands behind a statement that does not complete does not matter. -/
theorem execAll_cons_congr {s : Stmt} (h : s.canComplete = false) (rest rest' : List Stmt) (n : Nat) :
    execAll x (s :: rest) n = execAll x (s :: rest') n := by
  simp only [execAll]
  funext σ
  cases hrun : exec x s n σ with
  | error stop σ₁ => rw [bind_error hrun, bind_error hrun]
  | ok a σ₁ =>
    rw [bind_ok hrun, bind_ok hrun]
    obtain ⟨e, k⟩ := a
    have hne := exits_ne_next h n σ e k σ₁ hrun
    cases e with
    | next => exact absurd rfl hne
    | breakLoop | continueLoop | returned => rfl

mutual

/-- Whatever stands at one of these places, a statement does the same. -/
theorem Stmt.exec_deadPlaces : (s : Stmt) → ∀ p ∈ s.deadPlaces, ∀ t, exec x (p.put t) = exec x s
  | .block span body => by
    simp only [Stmt.deadPlaces, List.forall_mem_map, Place.inside]
    intro p hp t
    funext n
    simp only [exec]
    rw [execAll_deadPlaces body p hp t]
  | .ifThen span cond yes => by
    simp only [Stmt.deadPlaces, List.forall_mem_map, Place.inside]
    intro p hp t
    funext n
    simp only [exec, yes.exec_deadPlaces p hp t]
  | .ifElse span cond yes no => by
    simp only [Stmt.deadPlaces, List.forall_mem_append, List.forall_mem_map, Place.inside]
    constructor
    · intro p hp t
      funext n
      simp only [exec, yes.exec_deadPlaces p hp t]
    · intro p hp t
      funext n
      simp only [exec, no.exec_deadPlaces p hp t]
  | .whileLoop span cond body => by
    simp only [Stmt.deadPlaces, List.forall_mem_map, Place.inside]
    intro p hp t
    funext n
    simp only [exec, body.exec_deadPlaces p hp t]
  | .forLoop span setup cond post body => by
    simp only [Stmt.deadPlaces, List.forall_mem_map, Place.inside]
    intro p hp t
    funext n
    simp only [exec, body.exec_deadPlaces p hp t]
  | .declare _ | .eval _ | .breakLoop _ | .continueLoop _ | .returnStmt _ _ => by
    simp [Stmt.deadPlaces]

theorem execAll_deadPlaces : (body : List Stmt) →
    ∀ p ∈ deadPlacesAfter false body, ∀ t, execAll x (p.put t) = execAll x body
  | [] => by simp [deadPlacesAfter]
  | s :: rest => by
    simp only [deadPlacesAfter, Bool.false_eq_true, if_false, List.forall_mem_append,
      List.forall_mem_map, Place.inside]
    constructor
    · intro p hp t
      funext n
      simp only [execAll, s.exec_deadPlaces p hp t]
    · intro p hp t
      funext n
      by_cases hs : s.canComplete = true
      · simp only [hs, Bool.not_true] at hp
        simp only [execAll, execAll_deadPlaces rest p hp t]
      · exact execAll_cons_congr (by simpa using hs) _ _ n

end

end

end Bound
end TypedScript
