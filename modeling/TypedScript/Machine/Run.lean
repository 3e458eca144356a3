import TypedScript.Machine.Step

/-!
# Runs

A method is invoked from outside, or the whole module is run: its static fields are set to zero, then
the initializer and the entry point are invoked. A machine that stopped with a fault or at the wish of
the program is as empty as before and can be used again.
-/

namespace TypedScript

/-- What an invocation found: how many calls were in progress, and how high the stack was. -/
structure Invocation where
  depth : Nat
  floor : Int
  deriving DecidableEq, Repr

/-- Takes values off until the stack is as high as it was. -/
def Machine.lowerTo (floor : Int) (m : Machine) : Machine :=
  match Action.popMany (m.top - floor).toNat m with
  | .ok _ m => m
  | .error _ m => m

def Machine.unwind (v : Invocation) (m : Machine) : Machine :=
  { m with calls := m.calls.drop (m.calls.length - v.depth) }.lowerTo v.floor

/-- A fault and an exit end the invocation; whatever else stops the machine leaves it as it is. -/
def Machine.settle (v : Invocation) (s : Stop) (m : Machine) : Machine :=
  match s with
  | .fault _ | .exit _ => m.unwind v
  | .crash _ | .awaitInput | .paused => m

namespace Action

def settling {α : Type} (v : Invocation) (a : Action α) : Action α := fun m =>
  match a m with
  | .ok r m => .ok r m
  | .error s m => .error s (m.settle v s)

def begin (method : Int) (args : List Value) : Action Invocation := do
  modify fun m => if m.statics?.isNone then m.resetStatics else m
  let f ← methodAt method
  if args.length ≠ f.params.size then
    throw (.fault ⟨f.name, 0, .argumentCount f.params.size args.length⟩)
  let m ← get
  let v : Invocation := ⟨m.calls.length, m.top⟩
  settling v do
    args.forM push
    enter method
  return v

/-- Takes steps until the invocation ends or the fuel is used up. -/
def steps (v : Invocation) : Nat → Machine → EStateM.Result Stop Machine Value
  | 0, m => .error .paused m
  | fuel + 1, m =>
    match step v.depth m with
    | .ok none m => steps v fuel m
    | .ok (some r) m => .ok r m
    | .error s m => .error s m

def resume (v : Invocation) (fuel : Nat) : Action Value := settling v (steps v fuel)

def invoke (fuel : Nat) (method : Int) (args : List Value) : Action Value := do
  let v ← begin method args
  resume v fuel

end Action

/-- How a run ended, or why it has not ended: then it can go on with the invocation in progress and
the methods after it. -/
inductive RunResult
  | ended (code : Int) (fault? : Option RuntimeFault)
  | crashed (message? : Option String)
  | unfinished (awaitsInput : Bool) (current : Invocation) (rest : List Int)
  deriving Repr

namespace RunResult

def ofStop (current : Invocation) (rest : List Int) : Stop → RunResult
  | .fault f => ended 1 (some f)
  | .exit code => ended code none
  | .crash message? => crashed message?
  | .awaitInput => unfinished true current rest
  | .paused => unfinished false current rest

end RunResult

namespace Machine

/-- Goes on with a run: first the invocation in progress, then the methods that are left. -/
def proceed (fuel : Nat) (current : Invocation) : List Int → Machine → RunResult × Machine
  | [], m =>
    match Action.resume current fuel m with
    | .ok _ m => (.ended 0 none, m)
    | .error s m => (.ofStop current [] s, m)
  | next :: rest, m =>
    match Action.resume current fuel m with
    | .ok _ m =>
      match Action.begin next [] m with
      | .ok v m => proceed fuel v rest m
      | .error s m => (.ofStop current (next :: rest) s, m)
    | .error s m => (.ofStop current (next :: rest) s, m)

def run (fuel : Nat) (m : Machine) : RunResult × Machine :=
  if m.module.entry < 0 then (.ended 1 (some ⟨"", 0, .noEntryPoint⟩), m)
  else
    let m := m.resetStatics
    let (first, rest) :=
      if m.module.initializer < 0 then (m.module.entry, [])
      else (m.module.initializer, [m.module.entry])
    match Action.begin first [] m with
    | .ok v m => proceed fuel v rest m
    | .error s m => (.ofStop ⟨0, 0⟩ rest s, m)

def takeOutput (m : Machine) : String × Machine := (m.output, { m with output := "" })

end Machine
end TypedScript
