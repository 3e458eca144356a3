import TypedScript.Proofs.Execution.Basic
import TypedScript.Proofs.Flat.Program

/-!
# What flat programs do

The meaning of flat programs. A routine executes the statements before it one after the other; a jump
goes on behind its label. A routine is given a number of turns: so often it may jump back altogether.
-/

namespace TypedScript
namespace Flat

open Execution

mutual

def eval (x : Environment) : Expr → Run Value
  | .literal v t => return (Emission.constantOf v t).value
  | .symbol s => x.read s
  | .assign target value => do
    let v ← eval x value
    write target v
    return v
  | .assignElement array index _ value => do
    let a ← eval x array
    let i ← eval x index
    let v ← eval x value
    x.setElement a i v
    return v
  | .binary op? operand left right _ => do
    let a ← eval x left
    let b ← eval x right
    x.binary op? operand a b
  | .unary op? operand _ => do
    let v ← eval x operand
    x.unary op? operand.type v
  | .call callable args _ => do
    let vs ← evalAll x args
    x.invoke callable vs
  | .convert kind operand t => do
    let v ← eval x operand
    x.conversion kind operand.type t v
  | .index target index _ => do
    let a ← eval x target
    let i ← eval x index
    x.element a i
  | .length target => do
    let a ← eval x target
    x.length a
  | .newArray element size _ => do
    let n ← eval x size
    x.newArray element n
  | .invalid => crash (α := Value)

def evalAll (x : Environment) : List Expr → Run (List Value)
  | [] => return []
  | e :: rest => do
    let v ← eval x e
    let vs ← evalAll x rest
    return v :: vs

end

def after (l : Label) : List Stmt → Option (List Stmt)
  | [] => none
  | .label k :: rest => if k = l then some rest else after l rest
  | _ :: rest => after l rest

theorem length_after {l : Label} {ss rest : List Stmt} (h : after l ss = some rest) :
    rest.length < ss.length := by
  induction ss using after.induct l with
  | case1 => cases h
  | case2 ss =>
    simp only [after] at h
    cases h
    simp
  | case3 k ss hk ih =>
    simp only [after, if_neg hk] at h
    exact Nat.lt_succ_of_lt (ih h)
  | case4 s ss hs ih =>
    rw [after] at h
    · exact Nat.lt_succ_of_lt (ih h)
    · exact hs

/-- What comes after a statement: the next one, the one behind a label, or the end of the routine. -/
inductive Flow
  | next
  | jump (l : Label)
  | done (v : Value)

def Stmt.flow (x : Environment) : Stmt → Run Flow
  | .declare _ | .label _ => return .next
  | .eval e => do
    let _ ← Flat.eval x e
    return .next
  | .returnStmt none => return .done .null
  | .returnStmt (some e) => do return .done (← Flat.eval x e)
  | .jump l => return .jump l
  | .jumpIf e l => do
    if ← x.condition (← Flat.eval x e) then return .jump l else return .next

/-- Executes the statements that are left of a body. A label ahead can be jumped to for nothing; any
other jump uses up a turn. -/
def exec (x : Environment) (body : List Stmt) : Nat → List Stmt → Run Value
  | _, [] => throw (.fault x.routine (.fellOffEnd x.routine))
  | n, s :: rest => do
    match ← s.flow x with
    | .next => exec x body n rest
    | .done v => return v
    | .jump l =>
      match _h : after l rest with
      | some rest' => exec x body n rest'
      | none =>
        match after l body with
        | none => crash (α := Value)
        | some rest' =>
          match n with
          | 0 => throw .unfinished
          | n + 1 => exec x body n rest'
termination_by n ss => (n, ss.length)
decreasing_by
  · simp_wf
    omega
  · have hlt := length_after ‹_›
    simp_wf
    omega
  · simp_wf
    omega

def jumpTo (x : Environment) (body : List Stmt) (n : Nat) (l : Label) (rest : List Stmt) :
    Run Value :=
  match after l rest with
  | some rest' => exec x body n rest'
  | none =>
    match after l body with
    | none => crash (α := Value)
    | some rest' =>
      match n with
      | 0 => throw .unfinished
      | n + 1 => exec x body n rest'

def Routine.run (r : Registry) (turns : Nat) (f : Routine) (invoke : TypeId → List Value → Effect Value)
    (args : List Value) : Effect Value :=
  let x : Environment := ⟨r, f.name, args, invoke⟩
  x.activate (exec x f.body turns f.body)

def Program.function? (p : Program) (callable : TypeId) : Option Routine :=
  p.routines.find? fun f => f.callable = callable && callable ≠ .absent

def Program.call (p : Program) (r : Registry) (turns depth : Nat) (caller : String) :
    TypeId → List Value → Effect Value :=
  callAt r p.function? Routine.name (Routine.run r turns) depth caller

/-- Runs a routine of a program. -/
def Program.run (p : Program) (r : Registry) (turns depth : Nat) (f : Routine) :
    List Value → Effect Value :=
  f.run r turns (p.call r turns depth f.name)

section

variable (x : Environment) (body rest : List Stmt) (n : Nat)

theorem exec_cons (s : Stmt) : exec x body n (s :: rest) = (do
    match ← s.flow x with
    | .next => exec x body n rest
    | .done v => return v
    | .jump l => jumpTo x body n l rest) := by
  rw [exec.eq_def]
  refine congrArg (s.flow x >>= ·) (funext fun flow => ?_)
  cases flow with
  | next => rfl
  | done v => rfl
  | jump l =>
    change (match _h : after l rest with
      | some rest' => exec x body n rest'
      | none => _) = jumpTo x body n l rest
    unfold jumpTo
    split <;> rename_i h <;> rw [h]

end

theorem after_eq_none {l : Label} {ss : List Stmt} (h : l ∉ labelsOf ss) : after l ss = none := by
  induction ss using after.induct l with
  | case1 => rfl
  | case2 ss => simp at h
  | case3 k ss hk ih =>
    simp only [labelsOf_label, List.mem_cons, not_or] at h
    rw [after, if_neg hk, ih h.2]
  | case4 s ss hs ih =>
    rw [after]
    · refine ih fun hmem => h ?_
      rw [labelsOf, List.filterMap_cons]
      split
      · exact hmem
      · exact List.mem_cons_of_mem _ hmem
    · exact hs

theorem after_append {l : Label} {a : List Stmt} (h : l ∉ labelsOf a) (b : List Stmt) :
    after l (a ++ b) = after l b := by
  induction a with
  | nil => rfl
  | cons s a ih =>
    cases s with
    | label k =>
      simp only [labelsOf_label, List.mem_cons, not_or] at h
      rw [List.cons_append, after, if_neg (Ne.symm h.1), ih h.2]
    | declare | eval | returnStmt | jump | jumpIf => exact ih h

@[simp] theorem after_label (l : Label) (rest : List Stmt) :
    after l (.label l :: rest) = some rest := by
  simp [after]

/-- A jump passes over statements without the label. -/
theorem jumpTo_append (x : Environment) (body : List Stmt) (n : Nat) {l : Label} {a : List Stmt}
    (h : l ∉ labelsOf a) (b : List Stmt) : jumpTo x body n l (a ++ b) = jumpTo x body n l b := by
  unfold jumpTo
  rw [after_append h]

theorem jumpTo_label (x : Environment) (body : List Stmt) (n : Nat) (l : Label)
    (rest : List Stmt) : jumpTo x body n l (.label l :: rest) = exec x body n rest := by
  simp [jumpTo]

def again (x : Environment) (body rest : List Stmt) : Nat → Run Value
  | 0 => throw .unfinished
  | n + 1 => exec x body n rest

/-- A jump back uses up a turn. -/
theorem jumpTo_back (x : Environment) {body : List Stmt} (n : Nat) {l : Label}
    {rest rest' : List Stmt} (h : l ∉ labelsOf rest) (hb : after l body = some rest') :
    jumpTo x body n l rest = again x body rest' n := by
  simp only [jumpTo, after_eq_none h, hb]
  cases n <;> rfl

end Flat
end TypedScript
