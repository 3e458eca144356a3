import TypedScript.Proofs.Execution.Basic

/-!
# What bound programs do

The meaning of bound programs, by recursion on their trees. Operands are evaluated from left to right,
a compound assignment reads its target before it evaluates the other operand, and a variable without
an initial value is set to zero whenever its declaration is executed. A routine is given a number of
turns: so often its loops may begin anew altogether.
-/

namespace TypedScript
namespace Bound

open Execution

/-- How a statement ends: it goes on with the next, leaves the loop around it or goes on with its next
turn, or ends the routine with a value. -/
inductive Exit
  | next
  | breakLoop
  | continueLoop
  | returned (v : Value)

def adapt (x : Environment) (source target : TypeId) (v : Value) : Effect Value :=
  if source = target then return v
  else match x.registry.classify source target with
    | .ok .identity => return v
    | .ok kind => x.conversion kind source target v
    | .error _ => crash

/-- The old value of the target of a compound assignment, as the operator takes it. -/
def operand (x : Environment) (operator target : TypeId) (old : Value) : Effect Value :=
  match x.registry.callable operator with
  | .ok info => adapt x target (info.params.headD target) old
  | .error _ => crash

/-- The new value of the target of a compound assignment, from the two operands. -/
def combine (x : Environment) (operator target : TypeId) (old v : Value) : Effect Value :=
  match x.registry.callable operator with
  | .ok info => do
    let result ← if info.isIntrinsic then x.binary info.op? (info.params.headD target) old v
      else x.invoke operator [old, v]
    adapt x info.result target result
  | .error _ => crash

/-- An operator that evaluates its right operand only if the left one does not decide. -/
def shortCircuit (x : Environment) (decided : Bool) (left right : Run Value) : Run Value := do
  let b ← x.condition (← left)
  if b = decided then return .bool decided else right

mutual

def eval (x : Environment) : Expr → Run Value
  | .literal _ v t => return (Emission.constantOf (some v) t).value
  | .symbol _ s => x.read s
  | .assign _ (.symbol _ s) value => do
    let v ← eval x value
    write s v
    return v
  | .assign _ (.index _ array index _) value => do
    let a ← eval x array
    let i ← eval x index
    let v ← eval x value
    x.setElement a i v
    return v
  | .compound _ (.symbol _ s) operator value => do
    let old ← operand x operator s.type (← x.read s)
    let v ← eval x value
    let result ← combine x operator s.type old v
    write s result
    return result
  | .compound _ (.index _ array index t) operator value => do
    let a ← eval x array
    let i ← eval x index
    let old ← operand x operator t (← x.element a i)
    let v ← eval x value
    let result ← combine x operator t old v
    x.setElement a i result
    return result
  | .binary _ operator left right t =>
    match x.registry.callable operator with
    | .ok info =>
      match info.op? with
      | some (.binary .andAlso) => shortCircuit x false (eval x left) (eval x right)
      | some (.binary .orElse) => shortCircuit x true (eval x left) (eval x right)
      | op? => do
        let a ← eval x left
        let b ← eval x right
        x.binary op? (info.params.headD t) a b
    | .error _ => crash (α := Value)
  | .unary _ operator operand _ =>
    match x.registry.callable operator with
    | .ok info => do
      let v ← eval x operand
      x.unary info.op? operand.type v
    | .error _ => crash (α := Value)
  | .call _ callable args _ => do
    let vs ← evalAll x args
    x.invoke callable vs
  | .convert _ kind operand t _ => do
    let v ← eval x operand
    if kind = .identity then return v else x.conversion kind operand.type t v
  | .index _ target index _ => do
    let a ← eval x target
    let i ← eval x index
    x.element a i
  | .length _ target => do
    let a ← eval x target
    x.length a
  | .newArray _ element size _ => do
    let n ← eval x size
    x.newArray element n
  | .assign _ _ _ | .compound _ _ _ _ | .group _ _ _ | .typeName _ _ | .invalid _ _ =>
    crash (α := Value)

def evalAll (x : Environment) : List Expr → Run (List Value)
  | [] => return []
  | e :: rest => do
    let v ← eval x e
    let vs ← evalAll x rest
    return v :: vs

end

def declare (x : Environment) (d : Declaration) : Run Unit :=
  match d.init? with
  | some e => do write d.symbol (← eval x e)
  | none => write d.symbol (x.zero d.symbol.type)

/-- Executes the first part of the header of a counted loop. -/
def setup (x : Environment) : Option Setup → Run Unit
  | some (.declare d) => declare x d
  | some (.eval e) => do let _ ← eval x e.expr
  | none => return

def test (x : Environment) : Option Expr → Run Bool
  | some e => do x.condition (← eval x e)
  | none => return true

def post (x : Environment) : Option Expr → Run Unit
  | some e => do let _ ← eval x e
  | none => return

/-- Takes turns as long as the test holds. A turn that ends normally or wants the next one uses up one
of those that are left. The first number bounds the recursion; it is greater than the second. -/
def loop (test : Run Bool) (turn : Nat → Run (Exit × Nat)) (post : Run Unit) :
    Nat → Nat → Run (Exit × Nat)
  | 0, _ => throw .unfinished
  | bound + 1, n => do
    if ← test then
      match ← turn n with
      | (.breakLoop, n) => return (.next, n)
      | (.returned v, n) => return (.returned v, n)
      | (_, n) =>
        post
        match n with
        | 0 => throw .unfinished
        | n + 1 => loop test turn post bound n
    else return (.next, n)

mutual

/-- Executes a statement with a number of turns, and gives how many are left. -/
def exec (x : Environment) : Stmt → Nat → Run (Exit × Nat)
  | .block _ body, n => execAll x body n
  | .declare d, n => do
    declare x d
    return (.next, n)
  | .eval e, n => do
    let _ ← eval x e.expr
    return (.next, n)
  | .ifThen _ cond yes, n => do
    if ← x.condition (← eval x cond) then exec x yes n else return (.next, n)
  | .ifElse _ cond yes no, n => do
    if ← x.condition (← eval x cond) then exec x yes n else exec x no n
  | .whileLoop _ cond body, n =>
    loop (do x.condition (← eval x cond)) (exec x body) (return) (n + 1) n
  | .forLoop _ first cond last body, n => do
    setup x first
    loop (test x cond) (exec x body) (post x last) (n + 1) n
  | .breakLoop _, n => return (.breakLoop, n)
  | .continueLoop _, n => return (.continueLoop, n)
  | .returnStmt _ none, n => return (.returned .null, n)
  | .returnStmt _ (some e), n => do return (.returned (← eval x e), n)

def execAll (x : Environment) : List Stmt → Nat → Run (Exit × Nat)
  | [], n => return (.next, n)
  | s :: rest, n => do
    match ← exec x s n with
    | (.next, n) => execAll x rest n
    | other => return other

end

/-- The value of a routine whose body ends without a return. -/
def fallback (x : Environment) (result : TypeId) : Value :=
  if result = .builtin .void then .null else x.zero result

def finish (x : Environment) (result : TypeId) : Exit → Value
  | .returned v => v
  | _ => fallback x result

def Routine.run (r : Registry) (turns : Nat) (f : Routine) (invoke : TypeId → List Value → Effect Value)
    (args : List Value) : Effect Value :=
  let x : Environment := ⟨r, f.name, args, invoke⟩
  x.activate do
    let (exit, _) ← execAll x f.body turns
    return finish x f.result exit

def Program.function? (p : Program) (callable : TypeId) : Option Routine :=
  p.routines.find? fun f => f.callable = callable && callable ≠ .absent

def Program.call (p : Program) (r : Registry) (turns depth : Nat) (caller : String) :
    TypeId → List Value → Effect Value :=
  callAt r p.function? Routine.name (Routine.run r turns) depth caller

/-- Runs a routine of a program. -/
def Program.run (p : Program) (r : Registry) (turns depth : Nat) (f : Routine) :
    List Value → Effect Value :=
  f.run r turns (p.call r turns depth f.name)

end Bound
end TypedScript
