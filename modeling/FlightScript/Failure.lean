import FlightScript.Location

/-!
# `Failure` — why an operation has no result

Mistakes of an author are problems and never stop the work. A failure means that the asked result does not
exist: a document that is not XML, a tree without XML form, a file that cannot be read or written. Each
cause has a code for programs and a message for people, and some know the place they are about.
-/

namespace FlightScript

/-- Why a file operation was refused by the operating system. -/
inductive SystemError where
  | noEntry
  | fileExists
  | notADirectory
  | isADirectory
  /-- Any other refusal, with the words of the system for it. -/
  | other (words : String)
deriving DecidableEq, Repr

/-- The system's own words for a refusal. -/
def SystemError.message : SystemError → String
  | noEntry => "No such file or directory (os error 2)"
  | fileExists => "File exists (os error 17)"
  | notADirectory => "Not a directory (os error 20)"
  | isADirectory => "Is a directory (os error 21)"
  | other words => words

/-- The cause of a missing result. -/
inductive Failure where
  /-- The document is not well-formed. Reading it gives no reason, so there are no words for it. -/
  | malformedDocument
  /-- The document is well-formed and has no root. -/
  | missingRoot
  /-- The document holds another kind of thing than a program. -/
  | wrongRoot (name : String) (span : Span)
  /-- An element lacks an attribute that gives it its meaning. -/
  | missingAttribute (attr element : String) (span : Span)
  /-- An instruction has no definition. -/
  | unresolvedInstruction (name : String) (span : Option Span)
  /-- An identifier has no definition. -/
  | unresolvedIdentifier (name : String) (span : Option Span)
  /-- An operator has no element. -/
  | unexpectedOperator (symbol : String) (span : Option Span)
  /-- An event is not in the catalog. -/
  | unexpectedEvent (event : String) (span : Option Span)
  /-- A node stands where its kind has no element. -/
  | unexpectedNode (kind : String) (span : Option Span)
  /-- A node became several elements where one is asked. -/
  | severalElements (kind : String) (span : Option Span)
  /-- The source has errors, this many. -/
  | invalidSource (errors : Nat) (input : String)
  /-- The input path names nothing. -/
  | inputMissing (path : String)
  /-- The input path names something that is no file. -/
  | inputNotFile (path : String)
  /-- The input file could not be read. -/
  | inputRefused (error : SystemError)
  /-- The input file is not text. -/
  | inputNotText
  /-- The output could not be written. -/
  | outputRefused (error : SystemError)
deriving DecidableEq, Repr

namespace Failure

/-- The code of a cause. -/
def code : Failure → String
  | malformedDocument => "XML_PARSE_ERROR"
  | missingRoot => "XML_PARSE_ERROR"
  | wrongRoot .. => "XML_ROOT_INVALID"
  | missingAttribute .. => "XML_IMPORT_MISSING_ATTR"
  | unresolvedInstruction .. => "XML_EXPORT_UNRESOLVED"
  | unresolvedIdentifier .. => "XML_EXPORT_UNRESOLVED"
  | unexpectedOperator .. => "XML_EXPORT_OPERATOR"
  | unexpectedEvent .. => "XML_EXPORT_EVENT"
  | unexpectedNode .. => "XML_EXPORT_NODE"
  | severalElements .. => "XML_EXPORT_NODE"
  | invalidSource .. => "CLI_SOURCE_INVALID"
  | inputMissing .. => "CLI_SOURCE_NOT_FOUND"
  | inputNotFile .. => "CLI_SOURCE_NOT_FILE"
  | inputRefused .. => "CLI_SOURCE_READ"
  | inputNotText => "CLI_SOURCE_READ"
  | outputRefused .. => "CLI_OUTPUT_WRITE"

/-- The words for a cause. -/
def message : Failure → String
  | malformedDocument => ""
  | missingRoot => "XML document must contain a root element."
  | wrongRoot name _ => "Expected <Program> root, got <" ++ name ++ ">."
  | missingAttribute attr element _ =>
    "Attribute \"" ++ attr ++ "\" is required on <" ++ element ++ ">."
  | unresolvedInstruction name _ => "Unresolved instruction '" ++ name ++ "'."
  | unresolvedIdentifier name _ => "Unresolved identifier '" ++ name ++ "'."
  | unexpectedOperator symbol _ => "Unexpected op '" ++ symbol ++ "'."
  | unexpectedEvent event _ => "Unexpected Event '" ++ event ++ "'."
  | unexpectedNode kind _ => "Unexpected AST node " ++ kind ++ "."
  | severalElements kind _ => kind ++ " does not export to a single element."
  | invalidSource errors input => toString errors ++ " error(s) in " ++ input
  | inputMissing path => "input does not exist: " ++ path
  | inputNotFile path => "input is not a file: " ++ path
  | inputRefused error => error.message
  | inputNotText => "stream did not contain valid UTF-8"
  | outputRefused error => error.message

/-- The place a cause is about, if it has one. -/
def span? : Failure → Option Span
  | wrongRoot _ span => some span
  | missingAttribute _ _ span => some span
  | unresolvedInstruction _ span => span
  | unresolvedIdentifier _ span => span
  | unexpectedOperator _ span => span
  | unexpectedEvent _ span => span
  | unexpectedNode _ span => span
  | severalElements _ span => span
  | _ => none

/-- Code and message on one line. -/
def display (f : Failure) : String := f.code ++ ": " ++ f.message

end Failure

end FlightScript
