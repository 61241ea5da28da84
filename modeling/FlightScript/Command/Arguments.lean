import FlightScript.Problem

/-!
# `Command.Arguments` — what the command line asks for

A command is followed by its options. An option is two words, or one with `=` between name and value; a word
that starts with a hyphen is never a value of its own. No option is given twice.

## Contents

* `Request`, what is asked for;
* `Options`, the options met so far;
* `Request.ofArguments`.
-/

namespace FlightScript.Command

/-- What is asked for. -/
inductive Request where
  | toXml (input : String) (output : Option String) (least : Level)
  | toText (input : String) (output : Option String)
  | check (input : String) (least : Level) (json : Bool)
  | format (input : String) (output : Option String)
  /-- Only to be told about the commands. -/
  | help
deriving DecidableEq, Repr

/-- The commands. -/
inductive Verb where
  | toXml | toText | check | format
deriving DecidableEq, Repr

namespace Verb

/-- The word for a command. -/
def word : Verb → String
  | toXml => "to-xml"
  | toText => "to-text"
  | check => "check"
  | format => "format"

/-- The command with a word. -/
def ofWord? (s : String) : Option Verb := [toXml, toText, check, format].find? fun v => v.word == s

/-- The options of a command that have a value. -/
def valued : Verb → List String
  | toXml => ["log-level", "input", "output", "min-level"]
  | toText => ["log-level", "input", "output"]
  | check => ["log-level", "input", "min-level"]
  | format => ["log-level", "input", "output"]

/-- The options of a command that have none. -/
def flags : Verb → List String
  | check => ["json"]
  | _ => []

end Verb

/-- The options met so far, with their values if they have some. -/
abbrev Options : Type := List (String × Option String)

/-- A word on the command line. -/
inductive Word where
  /-- A long option, with the value written to it. -/
  | long (name : String) (value : Option String)
  | short
  /-- A word for help. -/
  | help
  /-- The mark behind which nothing is an option. -/
  | rest
  | plain (text : String)
deriving DecidableEq, Repr

/-- The kind of a word. -/
def Word.ofText (s : String) : Word :=
  if s == "--help" || s == "-h" then .help
  else if s == "--" then .rest
  else
    match s.toList with
    | '-' :: '-' :: cs =>
      match cs.dropWhile fun c => c != '=' with
      | [] => .long (String.ofList cs) none
      | _ :: value => .long (String.ofList (cs.takeWhile fun c => c != '=')) (some (String.ofList value))
    | '-' :: _ :: _ => .short
    | _ => .plain s

/-- How reading options ends. -/
inductive Ending where
  | options (found : Options)
  | help
  | refused
deriving DecidableEq, Repr

/-- The options behind a command. An option that still waits for its value is held. -/
def readOptions (valued flags : List String) (found : Options) :
    Option String → List String → Ending
  | some _, [] => .refused
  | none, [] => .options found
  | some name, w :: ws =>
    match Word.ofText w with
    | .plain value => readOptions valued flags ((name, some value) :: found) none ws
    | _ => .refused
  | none, w :: ws =>
    match Word.ofText w with
    | .help => .help
    | .rest => if ws.isEmpty then .options found else .refused
    | .long name value =>
      if found.any fun o => o.1 == name then .refused
      else if valued.contains name then
        match value with
        | some v => readOptions valued flags ((name, some v) :: found) none ws
        | none => readOptions valued flags found (some name) ws
      else if flags.contains name && value.isNone then
        readOptions valued flags ((name, none) :: found) none ws
      else .refused
    | .short | .plain _ => .refused

namespace Options

/-- The value of an option. -/
def value? (o : Options) (name : String) : Option String := (o.find? fun p => p.1 == name).bind Prod.snd

/-- The level that an option names. -/
def level? (o : Options) (default : Level) : Option Level :=
  match o.value? "min-level" with
  | none => some default
  | some s =>
    match Level.read s with
    | .ok l => some l
    | .error _ => none

end Options

/-- The request of a command with its options. Every command needs an input. -/
def Verb.request? (v : Verb) (o : Options) : Option Request := do
  let input ← o.value? "input"
  match v with
  | .toXml => return .toXml input (o.value? "output") (← o.level? .warning)
  | .toText => return .toText input (o.value? "output")
  | .check => return .check input (← o.level? .hint) (o.any fun p => p.1 == "json")
  | .format => return .format input (o.value? "output")

/-- The request of a command and the words behind it. -/
def Verb.requestOf? (v : Verb) (words : List String) : Option Request :=
  match readOptions v.valued v.flags [] none words with
  | .options o => v.request? o
  | .help => some .help
  | .refused => none

/-- Whether a word can be a value. -/
def isValue (s : String) : Bool :=
  match Word.ofText s with
  | .plain _ => true
  | _ => false

/-- The words from the command on, unless something else stands in front of it. The level of the library's own
log may be given there, once. -/
def commandWords (seen : Bool) : List String → Option (List String)
  | [] => none
  | w :: ws =>
    match Word.ofText w with
    | .help | .plain _ => some (w :: ws)
    | .long "log-level" value =>
      if seen then none
      else
        match value with
        | some _ => commandWords true ws
        | none =>
          match ws with
          | v :: rest => if isValue v then commandWords true rest else none
          | [] => none
    | _ => none

/-- The request of the words on a command line, none if they are no request. -/
def Request.ofArguments (words : List String) : Option Request :=
  match commandWords false words with
  | none => none
  | some [] => none
  | some (w :: ws) =>
    if Word.ofText w = .help then some .help
    else if w == "help" then
      if ws.isEmpty || (ws.length == 1 && ws.all fun t => (Verb.ofWord? t).isSome || t == "help") then
        some .help
      else none
    else (Verb.ofWord? w).bind fun v => v.requestOf? ws

end FlightScript.Command
