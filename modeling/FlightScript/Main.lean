import FlightScript.Command

/-!
# `Main` — the command line on files

Connects the command line to the files and streams of the system.
-/

namespace FlightScript.Command

/-- The refusal with a number of the system, and the words that the system has for it. -/
def refusalOf (number : UInt32) (words : String) : SystemError :=
  match number with
  | 2 => .noEntry
  | 17 => .fileExists
  | 20 => .notADirectory
  | 21 => .isADirectory
  | n => .other (words ++ " (os error " ++ toString n ++ ")")

/-- The refusal that an error of the system stands for. -/
def refusal : IO.Error → SystemError
  | .noFileOrDirectory _ n words | .interrupted _ n words => refusalOf n words
  | .alreadyExists _ n words | .invalidArgument _ n words | .permissionDenied _ n words
  | .resourceExhausted _ n words | .inappropriateType _ n words | .noSuchThing _ n words => refusalOf n words
  | .otherError n words | .resourceBusy n words | .resourceVanished n words | .unsupportedOperation n words
  | .hardwareFault n words | .unsatisfiedConstraints n words | .illegalOperation n words | .protocolError n words
  | .timeExpired n words => refusalOf n words
  | e => .other (toString e)

/-- The text of a file of the system. What cannot be found is missing, whatever the reason. -/
def readFile (path : String) : IO (Except Failure String) := do
  try
    let metadata ← (← IO.FS.realPath path).metadata
    if metadata.type != .file then return .error (.inputNotFile path)
  catch _ => return .error (.inputMissing path)
  try
    let bytes ← IO.FS.readBinFile path
    match String.fromUTF8? bytes with
    | some text => return .ok text
    | none => return .error .inputNotText
  catch e => return .error (.inputRefused (refusal e))

/-- Writes a file of the system and makes the directories on the way to it. -/
def writeFile (path content : String) : IO (Except SystemError Unit) := do
  try
    let p := Path.ofText path
    let parent := "/".intercalate p.parentReversed.reverse
    if parent != "" then IO.FS.createDirAll ((if p.isAbsolute then "/" else "") ++ parent)
    IO.FS.writeFile path content
    return .ok ()
  catch e => return .error (refusal e)

/-- The files of the system. -/
def systemFiles : FileAccess IO := ⟨readFile, writeFile⟩

end FlightScript.Command

/-- Runs the command line. -/
def main (words : List String) : IO UInt32 := do
  let report ← FlightScript.Command.run FlightScript.Command.systemFiles words
  (← IO.getStdout).putStr report.out
  (← IO.getStderr).putStr report.err
  return report.code.toUInt32
