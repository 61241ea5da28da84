import FlightScript.Surface.Statements
import FlightScript.Token.Scan

/-!
# `Surface.Programs` — reading whole texts

A text is a sequence of directives, declarations, event handlers and blocks, each ended by a line end, a
comment or the end of the text. A line that begins none of them is passed over.

## Contents

* the items: `directiveItem`, `varItem`, `eventItem`, `instructionItem`, `expressionItem`, `blockItem`;
* `items`, all of them, and `Surface.Program.ofText`, with every problem of a text.
-/

namespace FlightScript

namespace Parse

open Surface

/-- A directive, from its mark on. -/
def directiveItem : Parse Item := do
  let first ← start
  advance
  let name ← (do
    match ← token? with
    | some t =>
      if t.isWordLike then
        let l ← lexeme?
        pure (l.map Lexeme.text)
      else mismatch "directive name"
    | none => mismatch "directive name")
  let value ← eat .string
  let span ← spanFrom first
  pure (.directive name (value.map Lexeme.text) span)

/-- A declaration of a variable or a list. -/
def varItem (isList : Bool) : Parse Item := do
  let first ← start
  advance
  let name ← declName
  let span ← spanFrom first
  pure (.var isList name span)

/-- What an event handler names. -/
def eventName : Parse (Option EventName) := do
  match ← token? with
  | some .word =>
    let l ← lexeme?
    pure (l.map fun l => .word l.text)
  | some .string =>
    let l ← lexeme?
    pure (l.map fun l => .message l.text)
  | _ => mismatch "event name"

/-- An event handler. -/
def eventItem : Parse Item := do
  let first ← start
  advance
  let name ← eventName
  let params ← parameters
  let body ← blockAfterHeader block
  let span ← spanFrom first
  pure (.event name params body span)

/-- A declaration of an instruction. -/
def instructionItem : Parse Item := do
  let first ← start
  advance
  let name ← declName
  let params ← parameters
  let body ← blockAfterHeader block
  let span ← spanFrom first
  pure (.instruction name params body span)

/-- A declaration of an expression. -/
def expressionItem : Parse Item := do
  let first ← start
  advance
  advance
  let name ← declName
  let params ← parameters
  let value ← expressionAfter expression .colon "':'"
  let span ← spanFrom first
  pure (.expression name params value span)

/-- A block that belongs to nothing. -/
def blockItem : Parse Item := do
  let body ← block
  match body with
  | .braces statements span => pure (.block statements span)
  | .missing =>
    let first ← start
    let span ← spanFrom first
    pure (.block [] span)

/-- The item that two tokens begin, if any. -/
def item? (token : Token) (second : Option Token) : Option (Parse Item) :=
  match token with
  | .hash => some directiveItem
  | .keyword .var => some (varItem false)
  | .keyword .list => some (varItem true)
  | .keyword .on => some eventItem
  | .keyword .def_ =>
    if second == some (.keyword .expression) then some expressionItem else some instructionItem
  | .leftBrace => some blockItem
  | _ => none

/-- The items of a text in at most `n` steps. Every step reads a lexeme. -/
def items : Nat → Parse (List Item)
  | 0 => pure []
  | n + 1 => do
    let c ← cursor
    match c.token? with
    | none => pure []
    | some t =>
      if t == .newline || t == .comment then
        advance
        items n
      else
        match item? t c.second? with
        | some one =>
          let item ← one
          expectLineEnd false
          let more ← items n
          pure (item :: more)
        | none =>
          -- one problem for the whole line
          report .extraneousAtTopLevel
          advance
          recover false
          items n

/-- A whole text. -/
def program : Parse Program := do
  let budget ← remaining
  let all ← items budget
  pure ⟨all⟩

end Parse

namespace Surface.Program

/-- The program that lexemes spell, with the problems found in them. -/
def ofLexemes (lexemes : List Lexeme) : Reading Program := Parse.program (Cursor.ofLexemes lexemes)

/-- The program of a text and its problems: first those of its characters, then those of its lexemes. -/
def ofText (source : String) : Program × List Problem :=
  let lexing := Lexing.ofText source
  let reading := ofLexemes lexing.lexemes
  (reading.value, lexing.problems ++ reading.problems)

end Surface.Program

end FlightScript
