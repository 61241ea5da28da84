import FlightScript.LineIndex
import FlightScript.Problem
import FlightScript.Token

/-!
# `Token.Scan` — from characters to lexemes

A text is cut into pieces, each the longest that some class takes: blanks between tokens, tokens, and what
no class takes. The pieces put together give the text back. Lexemes are the pieces that are tokens, except
that line ends and comments inside parentheses are passed over, so that a list may run over several lines. A piece
is known by its range of bytes, and the index of the text turns the ends of the range into places.

## Contents

* `Piece.next`, the piece that a text begins with, and `Piece.ofText`, all of them;
* `Lexing.ofPieces`, lexemes and problems with their places;
* `Lexing.ofText`, the whole way from a text.
-/

namespace FlightScript

/-! ## Character classes -/

namespace Scan

/-- Blanks between tokens: space, tab, carriage return, form feed. -/
def isGap (c : Char) : Bool := c == ' ' || c == '\t' || c == '\r' || c == '\x0c'

/-- An ASCII digit. -/
def isDigit (c : Char) : Bool := decide ('0' ≤ c) && decide (c ≤ '9')

/-- A character that may begin a word. -/
def isWordStart (c : Char) : Bool :=
  (decide ('a' ≤ c) && decide (c ≤ 'z')) || (decide ('A' ≤ c) && decide (c ≤ 'Z')) || c == '_'

/-- A character that may stand in a word. -/
def isWordPart (c : Char) : Bool := isWordStart c || isDigit c

/-! ## Longest matches

Each function splits a text into what the class takes and the rest. -/

/-- A split at the first character that is not in the class. -/
def run (p : Char → Bool) (cs : List Char) : List Char × List Char := (cs.takeWhile p, cs.dropWhile p)

/-- The exponent of a number, taken only if it has a digit. -/
def exponent : List Char → List Char × List Char
  | [] => ([], [])
  | e :: cs =>
    if e == 'e' || e == 'E' then
      match cs with
      | [] => ([], [e])
      | s :: ds =>
        -- a sign or the letter alone is left to the next piece
        if s == '+' || s == '-' then
          if (ds.takeWhile isDigit).isEmpty then ([], e :: s :: ds)
          else (e :: s :: ds.takeWhile isDigit, ds.dropWhile isDigit)
        else if isDigit s then (e :: (s :: ds).takeWhile isDigit, (s :: ds).dropWhile isDigit)
        else ([], e :: s :: ds)
    else ([], e :: cs)

/-- The fraction of a number: a dot and any digits. -/
def fraction : List Char → List Char × List Char
  | [] => ([], [])
  | c :: cs =>
    if c == '.' then (c :: cs.takeWhile isDigit, cs.dropWhile isDigit) else ([], c :: cs)

/-- A number, from its first digit or from a dot before a digit. -/
def number (cs : List Char) : List Char × List Char :=
  let whole := run isDigit cs
  let part := fraction whole.2
  let power := exponent part.2
  (whole.1 ++ part.1 ++ power.1, power.2)

/-- The rest of a string literal after its opening quote: what is taken, whether it closes, and what is
left. A literal that does not close ends before a line feed, the end of the text, or a backslash that one of
them follows. -/
def literal (quote : Char) : List Char → List Char × Bool × List Char
  | [] => ([], false, [])
  | [c] =>
    if c == quote then ([c], true, [])
    -- a backslash takes a character with it, and here there is none
    else if c == '\\' || c == '\n' then ([], false, [c])
    else ([c], false, [])
  | c :: d :: cs =>
    if c == quote then ([c], true, d :: cs)
    else if c == '\n' then ([], false, c :: d :: cs)
    else if c == '\\' then
      if d == '\n' then ([], false, c :: d :: cs)
      else
        let r := literal quote cs
        (c :: d :: r.1, r.2)
    else
      let r := literal quote (d :: cs)
      (c :: r.1, r.2)

end Scan

/-! ## Pieces -/

/-- What a piece of text is. -/
inductive Piece.Kind where
  | gap
  | token (t : Token)
  | unknown
deriving DecidableEq, Repr

/-- A stretch of a text with its class. -/
structure Piece where
  kind : Piece.Kind
  text : List Char
deriving DecidableEq, Repr

namespace Piece

/-- A mark of one character, or of two if the second one follows. -/
def mark (c : Char) (one : Token) (second : Char) (two : Token) (cs : List Char) :
    Piece × List Char :=
  match cs with
  | [] => (⟨.token one, [c]⟩, [])
  | d :: ds => if d == second then (⟨.token two, [c, d]⟩, ds) else (⟨.token one, [c]⟩, d :: ds)

/-- The class of a mark that nothing extends. -/
def single? (c : Char) : Option Token :=
  if c == '\n' then some .newline
  else if c == '#' then some .hash
  else if c == '(' then some .leftParen
  else if c == ')' then some .rightParen
  else if c == '\x7b' then some .leftBrace
  else if c == '\x7d' then some .rightBrace
  else if c == ',' then some .comma
  else if c == ':' then some .colon
  else if c == '-' then some .minus
  else if c == '*' then some .star
  else if c == '%' then some .percent
  else if c == '^' then some .caret
  else none

/-- The class of a whole word. -/
def wordToken (cs : List Char) : Token :=
  match Keyword.ofText? (String.ofList cs) with
  | some k => .keyword k
  | none => .word

/-- The piece that the text `c :: cs` begins with, and the rest. -/
def next (c : Char) (cs : List Char) : Piece × List Char :=
  if Scan.isGap c then (⟨.gap, c :: cs.takeWhile Scan.isGap⟩, cs.dropWhile Scan.isGap)
  else if Scan.isWordStart c then
    let word := c :: cs.takeWhile Scan.isWordPart
    (⟨.token (wordToken word), word⟩, cs.dropWhile Scan.isWordPart)
  else if Scan.isDigit c then
    let r := Scan.number (c :: cs)
    (⟨.token .number, r.1⟩, r.2)
  -- a dot begins a number only in front of a digit
  else if c == '.' then
    match cs with
    | [] => (⟨.token .dot, [c]⟩, [])
    | d :: ds =>
      if Scan.isDigit d then
        let r := Scan.number (c :: d :: ds)
        (⟨.token .number, r.1⟩, r.2)
      else (⟨.token .dot, [c]⟩, d :: ds)
  else if c == '\x22' || c == '\x27' then
    let r := Scan.literal c cs
    (⟨if r.2.1 then .token .string else .unknown, c :: r.1⟩, r.2.2)
  -- a comment leaves its line end to the next piece
  else if c == '/' then
    match cs with
    | [] => (⟨.token .slash, [c]⟩, [])
    | d :: ds =>
      if d == '/' then
        (⟨.token .comment, c :: d :: ds.takeWhile (· != '\n')⟩, ds.dropWhile (· != '\n'))
      else (⟨.token .slash, [c]⟩, d :: ds)
  else if c == '=' then mark c .assign '=' .equal cs
  else if c == '+' then mark c .plus '=' .plusAssign cs
  else if c == '>' then mark c .greater '=' .greaterEqual cs
  else if c == '<' then mark c .less '=' .lessEqual cs
  else
    match single? c with
    | some t => (⟨.token t, [c]⟩, cs)
    | none => (⟨.unknown, [c]⟩, cs)

/-- The pieces of a text, at most `n` of them. -/
def take : Nat → List Char → List Piece
  | 0, _ => []
  | _ + 1, [] => []
  | n + 1, c :: cs => (next c cs).1 :: take n (next c cs).2

/-- The pieces of a text; there are at most as many as characters. -/
def ofText (cs : List Char) : List Piece := take cs.length cs

end Piece

/-! ## Lexemes -/

/-- What a text is made of: its lexemes, and a problem for each stretch that is none. -/
structure Lexing where
  lexemes : List Lexeme
  problems : List Problem
deriving DecidableEq, Repr

namespace Lexing

/-- The number of open parentheses after a token; a closing one too many counts for nothing. -/
def depthAfter (depth : Nat) : Token → Nat
  | .leftParen => depth + 1
  | .rightParen => depth - 1
  | _ => depth

/-- Whether a token is passed over inside parentheses. -/
def isLayout : Token → Bool
  | .newline => true
  | .comment => true
  | _ => false

/-- What is said about a stretch that no class takes. -/
def unknownMessage (text : List Char) : String :=
  "token recognition error at: '" ++ String.ofList text ++ "'"

/-- The lexemes and problems of the pieces that follow a byte offset, inside `depth` open parentheses. -/
def ofPieces (index : LineIndex) (start depth : Nat) : List Piece → Lexing
  | [] => ⟨[], []⟩
  | ⟨kind, text⟩ :: pieces =>
    let stop := start + Text.byteSize text
    let span : Span := ⟨index.location start, index.location stop⟩
    match kind with
    | .gap => ofPieces index stop depth pieces
    | .unknown =>
      let rest := ofPieces index stop depth pieces
      ⟨rest.lexemes, Problem.errorAt (unknownMessage text) span :: rest.problems⟩
    | .token t =>
      -- the layout that a parenthesis encloses goes, also if it is never closed
      let rest := ofPieces index stop (depthAfter depth t) pieces
      if isLayout t && decide (0 < depth) then rest
      else ⟨⟨t, String.ofList text, span⟩ :: rest.lexemes, rest.problems⟩

/-- The lexemes and problems of a text. -/
def ofText (source : String) : Lexing := ofPieces (.ofText source) 0 0 (Piece.ofText source.toList)

end Lexing

end FlightScript
