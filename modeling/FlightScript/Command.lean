import FlightScript.Command.Arguments
import FlightScript.Command.Store
import FlightScript.Conversion
import FlightScript.Text.Json

/-!
# `Command` — the command line

A command reads one file and converts, checks or formats it. The result goes to a file or to the output, remarks
about a source go to the error output, and a failure is a few lines on the output. A source with errors is never
converted.

## Contents

* `Report`, what a run leaves behind;
* `FileAccess`, what a run needs of a file system, and `Store.access`;
* `Command.run`.
-/

namespace FlightScript.Command

/-! ## Reports -/

/-- What a run leaves behind besides files. -/
structure Report where
  code : Nat
  out : String
  err : String
deriving DecidableEq, Repr

/-- Each text on a line. -/
def lines (texts : List String) : String := String.join (texts.map fun t => t ++ "\n")

/-- The lines that tell of a failure. -/
def failureText (f : Failure) : String :=
  lines (["RESULT:ERROR", "ERROR_CODE:" ++ f.code, "ERROR_MSG_JSON:" ++ Text.Json.string f.message] ++
    (f.span?.toList.map fun s =>
      "ERROR_AT:" ++ toString s.start.line ++ ":" ++ toString s.start.column))

/-- The report of a failure. -/
def Report.failure (f : Failure) (err : String) : Report := ⟨1, failureText f, err⟩

/-- A place for programs to read. -/
def locationJson : Option Location → String
  | some l => "\x7b\"line\":" ++ toString l.line ++ ",\"column\":" ++ toString l.column ++ "\x7d"
  | none => "null"

/-- A problem for programs to read. -/
def problemJson (p : Problem) : String :=
  "\x7b\"level\":" ++ Text.Json.string p.level.name ++ ",\"message\":" ++ Text.Json.string p.message ++
    ",\"start\":" ++ locationJson p.start ++ ",\"end\":" ++ locationJson p.stop ++ "\x7d"

/-- The result of a check for programs to read. -/
def checkJson (input : String) (hasErrors : Bool) (problems : List Problem) : String :=
  "\x7b\"input\":" ++ Text.Json.string input ++ ",\"hasErrors\":" ++
    (if hasErrors then "true" else "false") ++ ",\"problems\":[" ++
    ",".intercalate (problems.map problemJson) ++ "]\x7d"

/-- The result of a check for people to read. -/
def checkText (hasErrors : Bool) (problems : List Problem) : String :=
  lines (problems.map Problem.display ++ [if hasErrors then "RESULT:ERROR" else "RESULT:OK"])

/-- The report of a check. -/
def checkReport (input source : String) (least : Level) (json : Bool) : Report :=
  let log : Log := ⟨(resolvedTreeOfText source).problems⟩
  let shown := log.filtered least
  ⟨if log.hasErrors then 1 else 0,
    if json then checkJson input log.hasErrors shown ++ "\n" else checkText log.hasErrors shown, ""⟩

/-! ## Running -/

/-- What a run needs of a file system. -/
structure FileAccess (m : Type → Type) where
  read : String → m (Except Failure String)
  write : String → String → m (Except SystemError Unit)

/-- A store as a file system. -/
def Store.access : FileAccess (StateM Store) where
  read path := do return (← get).read path
  write path content := fun s => ((s.write path content).2, (s.write path content).1)

variable {m : Type → Type} [Monad m]

/-- A result goes to its file, or to the output if there is none. -/
def deliver (files : FileAccess m) (output : Option String) (err content : String) : m Report :=
  match output with
  | none => pure ⟨0, content, err⟩
  | some path => do
    match ← files.write path content with
    | .ok _ => pure ⟨0, "", err⟩
    | .error e => pure (.failure (.outputRefused e) err)

/-- A result of a source goes on if the source has no errors. -/
def deliverChecked (files : FileAccess m) (input : String) (output : Option String) (least : Level)
    (problems : List Problem) (result : Except Failure String) : m Report :=
  let log : Log := ⟨problems⟩
  let err := lines ((log.filtered least).map Problem.display)
  if log.hasErrors then pure (.failure (.invalidSource (log.filtered .error).length input) err)
  else
    match result with
    | .ok content => deliver files output err content
    | .error f => pure (.failure f err)

/-- What a request does with the text it has read. -/
def Request.apply (files : FileAccess m) (source : String) : Request → m Report
  | .toXml input output least =>
    let r := documentOfText source
    deliverChecked files input output least r.problems r.result
  | .toText _ output =>
    match textOfDocument source with
    | .ok text => deliver files output "" text
    | .error f => pure (.failure f "")
  | .check input least json => pure (checkReport input source least json)
  | .format input output =>
    let r := formatText source
    deliverChecked files input output .warning r.problems (.ok r.result)
  | .help => pure ⟨0, "", ""⟩

/-- The file that a request reads. -/
def Request.input? : Request → Option String
  | .toXml input .. => some input
  | .toText input _ => some input
  | .check input .. => some input
  | .format input _ => some input
  | .help => none

/-- A run of the command line. -/
def run (files : FileAccess m) (words : List String) : m Report :=
  match Request.ofArguments words with
  | none => pure ⟨2, "", ""⟩
  | some request =>
    match request.input? with
    | none => request.apply files ""
    | some input => do
      match ← files.read input with
      | .ok source => request.apply files source
      | .error f => pure (.failure f "")

end FlightScript.Command
