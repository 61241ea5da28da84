import FlightScript.Location
import FlightScript.Text.Blank

/-!
# `Problem` — remarks about a source text

A problem is a remark for the author of a text. It has a level, a message and the places it is about, if
any. Remarks never stop the work: operations return them in the order in which they were found, and a `Log`
keeps them in that order.
-/

namespace FlightScript

/-- How grave a problem is. -/
inductive Level where
  | debug | info | hint | warning | error
deriving DecidableEq, Repr

namespace Level

/-- The rank of a level; a graver level has a greater rank. -/
def rank : Level → Nat
  | debug => 1
  | info => 2
  | hint => 3
  | warning => 4
  | error => 5

/-- The name of a level. -/
def name : Level → String
  | debug => "debug"
  | info => "info"
  | hint => "hint"
  | warning => "warning"
  | error => "error"

/-- The level with exactly this name. -/
def ofName? (s : String) : Option Level :=
  [debug, info, hint, warning, error].find? fun l => l.name == s

/-- The text by which a written level is looked up: trimmed and, as far as ASCII goes, in lower case. -/
def fold (s : String) : String := String.ofList ((Text.trim s.toList).map Char.toLower)

/-- The level that a text names, in any case and with any white space around it; `warn` is `warning`.
The error is the folded text. -/
def read (s : String) : Except String Level :=
  let word := fold s
  if word == "warn" then .ok warning
  else
    match ofName? word with
    | some l => .ok l
    | none => .error word

/-- What is said about a text that names no level. -/
def unknownMessage (word : String) : String := "unknown problem level \"" ++ word ++ "\""

end Level

/-- A remark with its level and the places it is about. -/
structure Problem where
  level : Level
  message : String
  start : Option Location
  stop : Option Location
deriving DecidableEq, Repr

namespace Problem

/-- An error about a span. -/
def errorAt (message : String) (span : Span) : Problem :=
  ⟨.error, message, some span.start, some span.stop⟩

/-- An error about a span that may be unknown. -/
def error (message : String) (span : Option Span) : Problem :=
  ⟨.error, message, span.map Span.start, span.map Span.stop⟩

/-- A problem on one line: level, place if known, message. -/
def display (p : Problem) : String :=
  match p.start with
  | some l =>
    p.level.name ++ " " ++ toString l.line ++ ":" ++ toString l.column ++ " " ++ p.message
  | none => p.level.name ++ " " ++ p.message

end Problem

/-- Problems in the order in which they were posted. -/
structure Log where
  problems : List Problem := []
deriving DecidableEq, Repr

namespace Log

/-- A log with nothing in it. -/
def empty : Log := ⟨[]⟩

/-- The log with more problems after those it has. -/
def append (log : Log) (problems : List Problem) : Log := ⟨log.problems ++ problems⟩

/-- The log with one more problem. -/
def post (log : Log) (problem : Problem) : Log := log.append [problem]

/-- The problems at or above a level. -/
def filtered (log : Log) (least : Level) : List Problem :=
  log.problems.filter fun p => decide (least.rank ≤ p.level.rank)

/-- Whether an error was posted. -/
def hasErrors (log : Log) : Bool := log.problems.any fun p => p.level == .error

end Log

end FlightScript
