import TypedScript.Text.Split

/-!
# File paths

Paths with slashes, handled by their text alone.
-/

namespace TypedScript
namespace Path

def isAbsolute (path : String) : Bool := path.toList.head? = some '/'

/-- Removes the steps that lead nowhere: empty ones, single dots, and a name followed by two dots.
`done` holds the steps kept, the last first. -/
def normalize (rooted : Bool) (done : List String) : List String → List String
  | [] => done.reverse
  | step :: rest =>
    if step == "" || step == "." then normalize rooted done rest
    else if step == ".." then
      match done with
      | [] => if rooted then normalize rooted [] rest else normalize rooted [".."] rest
      | last :: before =>
        if last == ".." then normalize rooted (".." :: done) rest
        else normalize rooted before rest
    else normalize rooted (step :: done) rest

def clean (path : String) : String :=
  let rooted := isAbsolute path
  let steps := String.intercalate "/" (normalize rooted [] (Text.split '/' path))
  if rooted then "/" ++ steps else if steps.isEmpty then "." else steps

/-- The path that goes through the given ones in turn; empty ones are left out. -/
def join (paths : List String) : String :=
  match paths.filter (· != "") with
  | [] => ""
  | paths => clean (String.intercalate "/" paths)

def base (path : String) : String :=
  if path.isEmpty then "."
  else match (Text.split '/' path).reverse.find? (· != "") with
    | some step => step
    | none => "/"

def directory (path : String) : String :=
  clean (String.intercalate "/" ((Text.split '/' path).dropLast) ++
    (if (Text.split '/' path).length = 1 then "" else "/"))

/-- The ending of the last step from its last dot on. -/
def extension (path : String) : String :=
  let last := ((Text.split '/' path).getLast?.getD "").toList
  match (Text.splitChars '.' last).reverse with
  | ending :: _ :: _ => String.ofList ('.' :: ending)
  | _ => ""

def stem (path : String) : String := Text.dropEnding (base path) (extension (base path))

end Path
end TypedScript
