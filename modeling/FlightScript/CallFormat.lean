import FlightScript.Text.Blank
import FlightScript.Text.Digit
import FlightScript.Text.Parts

/-!
# `CallFormat` — how calls of a declared name read

A declared instruction or expression carries two texts: the call format, in which the numbers of parameters
stand in parentheses, and the format, in which the names of parameters stand between bars. The author may give
a template in which `_` stands for a parameter; otherwise the name is followed by the parameters in order.

## Contents

* `CallFormat.ofTemplate`, the two texts of a declaration;
* `CallFormat.parameters`, the names of parameters in a format;
* `CallFormat.template?`, the template in a call format.
-/

namespace FlightScript

/-- The texts that say how a declared name is called. -/
structure CallFormat where
  /-- With the numbers of parameters. -/
  numbered : String
  /-- With the names of parameters. -/
  named : String
deriving DecidableEq, Repr

namespace CallFormat

/-! ## Writing -/

/-- The placeholders that show numbers. -/
def numbers (count : Nat) : List String := (List.range count).map fun i => "(" ++ toString i ++ ")"

/-- The placeholders that show names. -/
def names (parameters : List String) : List String := parameters.map fun p => "|" ++ p ++ "|"

/-- The parts of a template with placeholders between them. -/
def fill : List (List Char) → List String → String
  | p :: q :: ps, f :: fs => String.ofList p ++ f ++ fill (q :: ps) fs
  | p :: _, _ => String.ofList p
  | [], _ => ""

/-- Placeholders in order, each after a space. -/
def spaced (placeholders : List String) : String := String.join (placeholders.map fun p => " " ++ p)

/-- The texts of a name with parameters and perhaps a template. A template counts if it has as many places as
there are parameters. -/
def ofTemplate (name : String) (parameters : List String) (template : Option String) : CallFormat :=
  let pieces := Text.parts '_' (template.getD "").toList
  if template.getD "" ≠ "" ∧ pieces.length = parameters.length + 1 then
    ⟨name ++ " " ++ fill pieces (numbers parameters.length), name ++ " " ++ fill pieces (names parameters)⟩
  else ⟨name ++ spaced (numbers parameters.length), name ++ spaced (names parameters)⟩

/-! ## Reading -/

/-- Every other part that another part follows. -/
def closedParts : List (List Char) → List String
  | _ :: p :: q :: ps => String.ofList p :: closedParts (q :: ps)
  | _ => []

/-- The names between bars in a format. -/
def parameters (format : String) : List String := closedParts (Text.parts '|' format.toList)

/-- A text without its first bytes, if a character ends there. -/
def dropBytes : Nat → List Char → Option (List Char)
  | 0, cs => some cs
  | _ + 1, [] => none
  | n + 1, c :: cs => if c.utf8Size ≤ n + 1 then dropBytes (n + 1 - c.utf8Size) cs else none

/-- How far a text of numbers in parentheses has been read. -/
inductive Progress where
  | boundary | opened | digits | closed | failed
deriving DecidableEq, Repr

/-- The progress after one more character. One space may follow a parenthesis. -/
def Progress.next : Progress → Char → Progress
  | boundary, c => if c = '(' then opened else failed
  | opened, c => if Text.isDigit c then digits else failed
  | digits, c => if Text.isDigit c then digits else if c = ')' then closed else failed
  | closed, c => if c = ' ' then boundary else if c = '(' then opened else failed
  | failed, _ => failed

/-- Whether a text is numbers in parentheses only. -/
def isNumbering (cs : List Char) : Bool :=
  match cs.foldl Progress.next .boundary with
  | .boundary | .closed => true
  | _ => false

/-- A text with `_` for every number in parentheses. What may become one is held back, last character
first. -/
def replaceNumbers (held : List Char) : List Char → List Char
  | [] => held.reverse
  | c :: cs =>
    if c = '(' then held.reverse ++ replaceNumbers [c] cs
    else if held.isEmpty then c :: replaceNumbers [] cs
    else if Text.isDigit c then replaceNumbers (c :: held) cs
    -- a pair of parentheses with nothing inside is no number
    else if c = ')' ∧ 1 < held.length then '_' :: replaceNumbers [] cs
    else held.reverse ++ c :: replaceNumbers [] cs

/-- The template in the call format of a name; none if the parameters only follow the name in order. -/
def template? (name callFormat : Option String) : Option String := do
  let name ← name
  let callFormat ← callFormat
  -- the name is cut off by its length, whether the text begins with it or not
  let rest := Text.trim ((dropBytes name.utf8ByteSize callFormat.toList).getD [])
  if isNumbering rest then none else some (String.ofList (replaceNumbers [] rest))

end CallFormat

end FlightScript
