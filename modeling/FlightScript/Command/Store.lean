import FlightScript.Failure

/-!
# `Command.Store` — files by their paths

What the command line sees of a file system. A path is a list of steps from the working directory. What lies
above it, and at the root, is not known, except that these are directories.

## Contents

* `Path`, its steps and the path around it;
* `Store`, `Store.locate`;
* `Store.read`, `Store.write`: with the refusals of the operating system.
-/

namespace FlightScript.Command

/-! ## Paths -/

/-- A path by its steps. -/
structure Path where
  isAbsolute : Bool
  steps : List String
  /-- Whether a slash stands behind the last step. -/
  endsInSlash : Bool
deriving DecidableEq, Repr

namespace Path

/-- The texts between slashes. -/
def between : List Char → List Char → List String
  | held, [] => if held.isEmpty then [] else [String.ofList held.reverse]
  | held, c :: cs =>
    if c = '/' then
      if held.isEmpty then between [] cs else String.ofList held.reverse :: between [] cs
    else between (c :: held) cs

/-- The path that a text names. -/
def ofText (s : String) : Path :=
  ⟨s.toList.head? == some '/', between [] s.toList, s.toList.getLast? == some '/'⟩

/-- The steps that count in a path: a step to where one is counts only in front. -/
def plainSteps (p : Path) : List String :=
  match p.steps with
  | [] => []
  | s :: rest =>
    let more := rest.filter fun t => t != "."
    if s == "." && p.isAbsolute then more else s :: more

/-- The steps to the directory that a path lies in, last step first. -/
def parentReversed (p : Path) : List String := p.plainSteps.reverse.tail

end Path

/-! ## Stores -/

/-- Something with a path. -/
inductive Entry where
  /-- A file; one that is not text has no content here. -/
  | file (content : Option String)
  | directory
deriving DecidableEq, Repr

/-- What is known by its path. -/
structure Store where
  entries : List (List String × Entry)

namespace Store

/-- The place where a path starts. -/
def origin (isAbsolute : Bool) : List String := if isAbsolute then ["/"] else []

/-- Whether a place is the working directory, one above it, or the root. -/
def isGiven (here : List String) : Bool := here == ["/"] || here.all fun s => s == ".."

/-- What is at a place. -/
def get? (s : Store) (here : List String) : Option Entry :=
  if isGiven here then some .directory else (s.entries.find? fun e => e.1 == here).map Prod.snd

/-- The store with something at a place. -/
def insert (s : Store) (here : List String) (entry : Entry) : Store :=
  ⟨(here, entry) :: s.entries.filter fun e => e.1 != here⟩

/-- The place around a place. -/
def up (here : List String) : List String :=
  if here == ["/"] then here else if here.all fun s => s == ".." then ".." :: here else here.dropLast

/-- The place that a step leads to. -/
def place (here : List String) (step : String) : List String :=
  if step == "." then here else if step == ".." then up here else here ++ [step]

/-- A step into a directory. -/
def enter (s : Store) (here : List String) (step : String) : Except SystemError (List String) :=
  match s.get? (place here step) with
  | some .directory => .ok (place here step)
  | some (.file _) => .error .notADirectory
  | none => .error .noEntry

/-- The place that steps lead to. All but the last lead into directories. -/
def locate (s : Store) (here : List String) : List String → Except SystemError (List String)
  | [] => .ok here
  | [step] => .ok (place here step)
  | step :: rest => do s.locate (← s.enter here step) rest

/-- Whether steps lead to a directory. -/
def isDirectory (s : Store) (here steps : List String) : Bool :=
  match s.locate here steps with
  | .ok there => s.get? there == some .directory
  | .error _ => false

/-- A new directory. -/
def makeDirectory (s : Store) (here steps : List String) : Except SystemError Store := do
  let there ← s.locate here steps
  match s.get? there with
  | some _ => .error .fileExists
  | none => .ok (s.insert there .directory)

/-- The directories on the way, from steps with the last one first. One that is there already is kept. -/
def makeDirectories (s : Store) (here : List String) : List String → Except SystemError Store
  | [] => .ok s
  | step :: before =>
    let steps := (step :: before).reverse
    match s.makeDirectory here steps with
    | .ok t => .ok t
    | .error .noEntry => do
      let t ← s.makeDirectories here before
      match t.makeDirectory here steps with
      | .ok u => .ok u
      | .error e => if t.isDirectory here steps then .ok t else .error e
    | .error e => if s.isDirectory here steps then .ok s else .error e

/-- The text of a file. -/
def read (s : Store) (path : String) : Except Failure String :=
  let p := Path.ofText path
  if path == "" then .error (.inputMissing path)
  else
    match s.locate (origin p.isAbsolute) p.steps with
    | .error _ => .error (.inputMissing path)
    | .ok there =>
      match s.get? there with
      | none => .error (.inputMissing path)
      | some .directory => .error (.inputNotFile path)
      | some (.file content) =>
        if p.endsInSlash then .error (.inputMissing path)
        else
          match content with
          | some text => .ok text
          | none => .error .inputNotText

/-- Whether the last step of a path can only lead to a directory. -/
def namesDirectory (p : Path) : Bool :=
  p.endsInSlash || p.steps.getLast? == some "." || p.steps.getLast? == some ".."

/-- The store with a file written. -/
def put (s : Store) (p : Path) (content : String) : Except SystemError Store := do
  let there ← s.locate (origin p.isAbsolute) p.steps
  if namesDirectory p then .error .isADirectory
  else
    match s.get? there with
    | some .directory => .error .isADirectory
    | _ => .ok (s.insert there (.file (some content)))

/-- The store with a file written and the directories on the way to it; those stay even if the file is
refused. -/
def write (s : Store) (path content : String) : Store × Except SystemError Unit :=
  let p := Path.ofText path
  if path == "" then (s, .error .noEntry)
  else
    match s.makeDirectories (origin p.isAbsolute) p.parentReversed with
    | .error e => (s, .error e)
    | .ok t =>
      match t.put p content with
      | .ok u => (u, .ok ())
      | .error e => (t, .error e)

end Store

end FlightScript.Command
