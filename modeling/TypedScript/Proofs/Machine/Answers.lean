import TypedScript.Machine.Step

/-!
# What routines answer

A routine of the machine either does what it is for or, called with arguments of a kind that it does
not take, crashes. Everything that is said of routines goes by these cases.
-/

namespace TypedScript
namespace Action

/-- What a call of a routine comes to. Arguments of a kind that it does not take are a crash. -/
inductive Answers (key : String) : Routine → List Value → Action Value → Prop
  | print (line : Bool) (v : Value) : Answers key (.print line) [v] (do
      let s ← text v
      modify fun m => m.write (if line then s ++ "\n" else s)
      return .null)
  | newline : Answers key .newline [] (do
      modify fun m => m.write "\n"
      return .null)
  | input : Answers key .input [] (do
      match (← get).input.line? with
      | none => await
      | some (line, input) =>
        modify fun m => { m with input }
        return .string line)
  | random : Answers key .random [] (do
      let bits ← randomBits
      return .float (Double.ofRatio .double false (bits.toNat / 0x800) 0x20000000000000))
  | randomBetween (low high : Int64) :
    Answers key .randomBetween [.int low, .int high] (randomBetween key low high)
  | abs (t : Tag) (v : Int64) : Answers key (.abs t) [.int v]
      (return .int (if v < 0 then Arithmetic.wrapSigned t (-v) else v))
  | absFloat (v : Double) : Answers key .absFloat [.float v] (return .float v.abs)
  | sqrt (v : Double) : Answers key .sqrt [.float v] (return .float v.sqrt)
  | exit (code : Int64) : Answers key .exit [.int code] (throw (.exit code.toInt))
  | clock : Answers key .clock [] (do
      let m ← get
      let now := m.clock.now + m.clock.tick
      modify fun m => { m with clock := { m.clock with now } }
      return .int (Int64.ofInt now))
  | concat (a b : Value) : Answers key .concat [a, b] (return .string ((← text a) ++ (← text b)))
  | equalTexts (a b : String) :
    Answers key .equalTexts [.string a, .string b] (return .bool (a == b))
  | equalObjects (a b : Value) : Answers key .equalObjects [a, b] (return .bool (a.objectEquals b))
  | toText (v : Value) : Answers key .toText [v] (return .string (← text v))
  | parse (t : Tag) (s : String) : Answers key (.parse t) [.string s] (do
      match Value.parse? t s with
      | some v => return v
      | none => fail (.unreadable key s t))
  | refused (r : Routine) (args : List Value) : Answers key r args crash

/-- These are all the cases. -/
theorem answers_callRoutine (key : String) (r : Routine) (args : List Value) :
    Answers key r args (callRoutine key r args) := by
  cases r with
  | print line =>
    obtain _ | ⟨v, _ | ⟨w, rest⟩⟩ := args
    · exact .refused _ _
    · exact .print line v
    · exact .refused _ _
  | toText =>
    obtain _ | ⟨v, _ | ⟨w, rest⟩⟩ := args
    · exact .refused _ _
    · exact .toText v
    · exact .refused _ _
  | newline =>
    obtain _ | ⟨v, rest⟩ := args
    · exact .newline
    · exact .refused _ _
  | input =>
    obtain _ | ⟨v, rest⟩ := args
    · exact .input
    · exact .refused _ _
  | random =>
    obtain _ | ⟨v, rest⟩ := args
    · exact .random
    · exact .refused _ _
  | clock =>
    obtain _ | ⟨v, rest⟩ := args
    · exact .clock
    · exact .refused _ _
  | randomBetween =>
    obtain _ | ⟨v, _ | ⟨w, _ | ⟨u, rest⟩⟩⟩ := args
    · exact .refused _ _
    · cases v <;> exact .refused _ _
    · cases v with
      | int low =>
        cases w with
        | int high => exact .randomBetween low high
        | _ => exact .refused _ _
      | _ => exact .refused _ _
    · cases v with
      | int low => cases w <;> exact .refused _ _
      | _ => exact .refused _ _
  | equalTexts =>
    obtain _ | ⟨v, _ | ⟨w, _ | ⟨u, rest⟩⟩⟩ := args
    · exact .refused _ _
    · cases v <;> exact .refused _ _
    · cases v with
      | string low =>
        cases w with
        | string high => exact .equalTexts low high
        | _ => exact .refused _ _
      | _ => exact .refused _ _
    · cases v with
      | string low => cases w <;> exact .refused _ _
      | _ => exact .refused _ _
  | concat =>
    obtain _ | ⟨v, _ | ⟨w, _ | ⟨u, rest⟩⟩⟩ := args
    · exact .refused _ _
    · exact .refused _ _
    · exact .concat v w
    · exact .refused _ _
  | equalObjects =>
    obtain _ | ⟨v, _ | ⟨w, _ | ⟨u, rest⟩⟩⟩ := args
    · exact .refused _ _
    · exact .refused _ _
    · exact .equalObjects v w
    · exact .refused _ _
  | abs t =>
    obtain _ | ⟨v, _ | ⟨w, rest⟩⟩ := args
    · exact .refused _ _
    · cases v with
      | int x => exact .abs t x
      | _ => exact .refused _ _
    · cases v <;> exact .refused _ _
  | absFloat =>
    obtain _ | ⟨v, _ | ⟨w, rest⟩⟩ := args
    · exact .refused _ _
    · cases v with
      | float x => exact .absFloat x
      | _ => exact .refused _ _
    · cases v <;> exact .refused _ _
  | sqrt =>
    obtain _ | ⟨v, _ | ⟨w, rest⟩⟩ := args
    · exact .refused _ _
    · cases v with
      | float x => exact .sqrt x
      | _ => exact .refused _ _
    · cases v <;> exact .refused _ _
  | exit =>
    obtain _ | ⟨v, _ | ⟨w, rest⟩⟩ := args
    · exact .refused _ _
    · cases v with
      | int x => exact .exit x
      | _ => exact .refused _ _
    · cases v <;> exact .refused _ _
  | parse t =>
    obtain _ | ⟨v, _ | ⟨w, rest⟩⟩ := args
    · exact .refused _ _
    · cases v with
      | string s => exact .parse t s
      | _ => exact .refused _ _
    · cases v <;> exact .refused _ _

end Action
end TypedScript
