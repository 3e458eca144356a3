import TypedScript.Number.Integer
import TypedScript.Number.Reading
import TypedScript.Text.Quoted

/-!
# Options on the command line

Options start with one or two dashes and stand before all other arguments. A value follows behind an
equals sign or as the next argument; a switch needs none.
-/

namespace TypedScript

/-- What an option takes. -/
inductive FlagKind
  | switch | text | int
  deriving DecidableEq, Repr

/-- An option: its name, what it takes, and what it is for. -/
structure Flag where
  name : String
  kind : FlagKind
  purpose : String
  deriving DecidableEq, Repr

inductive FlagValue
  | switch (b : Bool)
  | text (s : String)
  | int (v : Int)
  deriving DecidableEq, Repr

/-- Why arguments are refused. Asking for help is a reason too. -/
inductive FlagFault
  | help
  | badForm (argument : String)
  | unknown (name : String)
  | noValue (name : String)
  | badSwitch (value name : String)
  | badValue (value name : String) (fault : Number.Fault)
  deriving DecidableEq, Repr

/-- The wording of a fault; asking for help has none. -/
def FlagFault.message? : FlagFault → Option String
  | help => none
  | badForm argument => some ("bad flag syntax: " ++ argument)
  | unknown name => some ("flag provided but not defined: -" ++ name)
  | noValue name => some ("flag needs an argument: -" ++ name)
  | badSwitch value name =>
    some ("invalid boolean value " ++ Text.quote value ++ " for -" ++ name ++ ": parse error")
  | badValue value name fault =>
    some ("invalid value " ++ Text.quote value ++ " for flag -" ++ name ++ ": " ++
      match fault with
      | .malformed => "parse error"
      | .outOfRange => "value out of range")

namespace Flag

/-- The line on an option in the usage: what is for it stands on a line of its own unless the option
is as short as can be. -/
def usage (f : Flag) : String :=
  let value := match f.kind with
    | .switch => ""
    | .text => " string"
    | .int => " int"
  let start := "  -" ++ f.name ++ value
  start ++ (if start.length ≤ 4 then "\t" else "\n    \t") ++ f.purpose ++ "\n"

def switch? (s : String) : Option Bool :=
  if ["1", "t", "T", "true", "TRUE", "True"].contains s then some true
  else if ["0", "f", "F", "false", "FALSE", "False"].contains s then some false
  else none

/-- The magnitude of an integer, which names its base as a literal does and may have underscores
between its digits. -/
def magnitude (cs : List Char) : Except Number.Fault Nat := do
  let n ← Number.literalValue (cs.filter (· != '_'))
  if cs.contains '_' && !Number.underscoresSeparate cs then throw .malformed else return n

/-- The integer of 64 bits that a text stands for. -/
def integer (s : String) : Except Number.Fault Int :=
  let within (negative : Bool) (n : Nat) : Except Number.Fault Int :=
    if negative then if n ≤ 0x8000000000000000 then .ok (-(n : Int)) else .error .outOfRange
    else if n < 0x8000000000000000 then .ok n else .error .outOfRange
  match s.toList with
  | '-' :: cs => magnitude cs >>= within true
  | '+' :: cs => magnitude cs >>= within false
  | cs => magnitude cs >>= within false

def read (f : Flag) (s : String) : Except FlagFault FlagValue :=
  match f.kind with
  | .switch =>
    match switch? s with
    | some b => .ok (.switch b)
    | none => .error (.badSwitch s f.name)
  | .text => .ok (.text s)
  | .int =>
    match integer s with
    | .ok v => .ok (.int v)
    | .error e => .error (.badValue s f.name e)

end Flag

def commandUsage (command : String) (flags : List Flag) : String :=
  "Usage of " ++ command ++ ":\n" ++
    String.join ((flags.mergeSort fun a b => a.name ≤ b.name).map Flag.usage)

/-- An argument taken apart: no option, the end of the options, or an option with its name and
value. -/
inductive ArgumentForm
  | plain
  | ending
  | bad
  | option (name : String) (value? : Option String)
  deriving DecidableEq, Repr

namespace ArgumentForm

/-- The name of an option and the value behind an equals sign. -/
def ofOption (cs : List Char) : ArgumentForm :=
  match cs with
  | [] | '-' :: _ | '=' :: _ => bad
  | _ =>
    let name := cs.takeWhile (· != '=')
    match cs.drop name.length with
    | [] => option (String.ofList name) none
    | _ :: value => option (String.ofList name) (some (String.ofList value))

def ofArgument (s : String) : ArgumentForm :=
  match s.toList with
  | ['-', '-'] => ending
  | '-' :: '-' :: rest => ofOption rest
  | '-' :: c :: rest => ofOption (c :: rest)
  | _ => plain

end ArgumentForm

/-- The options that were given, the last first. -/
abbrev FlagValues := List (String × FlagValue)

def readFlags (flags : List Flag) (values : FlagValues) :
    List String → Except FlagFault (FlagValues × List String)
  | [] => .ok (values, [])
  | argument :: rest =>
    match ArgumentForm.ofArgument argument with
    | .plain => .ok (values, argument :: rest)
    | .ending => .ok (values, rest)
    | .bad => .error (.badForm argument)
    | .option name value? =>
      match flags.find? fun f => f.name == name with
      | none => .error (if name == "help" || name == "h" then .help else .unknown name)
      | some f =>
        match f.kind, value?, rest with
        | .switch, value?, rest => do
          readFlags flags ((name, ← f.read (value?.getD "true")) :: values) rest
        | _, some value, rest => do readFlags flags ((name, ← f.read value) :: values) rest
        | _, none, value :: rest => do readFlags flags ((name, ← f.read value) :: values) rest
        | _, none, [] => .error (.noValue name)

namespace FlagValues

def isOn (values : FlagValues) (name : String) : Bool :=
  (values.find? fun v => v.1 == name).any fun v => v.2 = .switch true

def text (values : FlagValues) (name : String) : String :=
  match values.find? fun v => v.1 == name with
  | some (_, .text s) => s
  | _ => ""

def int (values : FlagValues) (name : String) : Int :=
  match values.find? fun v => v.1 == name with
  | some (_, .int v) => v
  | _ => 0

end FlagValues
end TypedScript
