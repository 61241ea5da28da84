import FlightScript.Problem
import FlightScript.Surface

/-!
# `Surface.Cursor` — reading lexemes

A cursor stands in a sequence of lexemes. A `Parse` takes a cursor to a value, a later cursor and the
problems found on the way. It neither sees nor keeps earlier problems, so what it reads depends on the
lexemes alone, and an attempt that is given up leaves nothing behind.

## Contents

* `Cursor`: the lexemes still to read and the place where the last read one ended;
* `Parse` and its monad;
* the elementary readings `eat`, `expect`, `skipNewlines`, `recover`, `expectLineEnd`, `firstClean`.
-/

namespace FlightScript

/-- A place in a sequence of lexemes. -/
structure Cursor where
  /-- The lexemes still to read. -/
  rest : List Lexeme
  /-- Where the last read lexeme ended. -/
  lastEnd : Location
  /-- Where the whole sequence ends. -/
  finish : Location
deriving DecidableEq, Repr

namespace Cursor

/-- The cursor before the first lexeme. -/
def ofLexemes (lexemes : List Lexeme) : Cursor :=
  ⟨lexemes, .origin, (lexemes.getLast?.map fun l => l.span.stop).getD .origin⟩

/-- The token of the next lexeme. -/
def token? (c : Cursor) : Option Token := c.rest.head?.map Lexeme.token

/-- The token of the lexeme after the next. -/
def second? (c : Cursor) : Option Token := c.rest.tail.head?.map Lexeme.token

/-- Whether the next lexeme is of this class. -/
def isAt (c : Cursor) (t : Token) : Bool := c.token? == some t

/-- Where the next lexeme starts. -/
def start (c : Cursor) : Location :=
  match c.rest with
  | [] => c.finish
  | l :: _ => l.span.start

/-- The span of the next lexeme, or the end of the sequence. -/
def here (c : Cursor) : Span :=
  match c.rest with
  | [] => ⟨c.finish, c.finish⟩
  | l :: _ => l.span

/-- The span from a place to the end of the last read lexeme. -/
def spanFrom (c : Cursor) (start : Location) : Span := ⟨start, c.lastEnd.later start⟩

/-- The next lexeme as messages show it. -/
def found (c : Cursor) : String :=
  match c.rest with
  | [] => "<EOF>"
  | l :: _ => if l.token == .newline then "'\\n'" else "'" ++ l.text ++ "'"

/-- Whether a statement may end here: before a line end, a comment, a closing brace, or at the end. -/
def atStatementEnd (c : Cursor) : Bool :=
  match c.token? with
  | none => true
  | some .newline => true
  | some .rightBrace => true
  | some .comment => true
  | some _ => false

/-- The cursor after the next lexeme. -/
def next (c : Cursor) : Cursor :=
  match c.rest with
  | [] => c
  | l :: rest => { c with rest := rest, lastEnd := l.span.stop }

end Cursor

/-! ## What is wrong with a lexeme -/

/-- Why the next lexeme cannot be read on. -/
inductive Fault where
  | mismatched (expected : String)
  | extraneousAtTopLevel
  | extraneousAtLineEnd
  | notStatement
  | missingBrace
deriving DecidableEq, Repr

/-- The words for a fault, given how the lexeme is shown. -/
def Fault.message (found : String) : Fault → String
  | mismatched expected => "mismatched input " ++ found ++ " expecting " ++ expected
  | extraneousAtTopLevel => "extraneous input " ++ found ++ " at top level"
  | extraneousAtLineEnd => "extraneous input " ++ found ++ " expecting end of line"
  | notStatement => "extraneous input " ++ found ++ " expecting statement"
  | missingBrace => "missing '\x7d' at <EOF>"

/-! ## Readings -/

/-- What reading gives: a value, where it ended, and the problems found. -/
structure Reading (α : Type) where
  value : α
  cursor : Cursor
  problems : List Problem

/-- A way to read. -/
def Parse (α : Type) : Type := Cursor → Reading α

namespace Parse

variable {α β : Type}

/-- Reads nothing. -/
def ret (a : α) : Parse α := fun c => ⟨a, c, []⟩

/-- Reads one thing after another; the problems of the first come first. -/
def andThen (p : Parse α) (f : α → Parse β) : Parse β := fun c =>
  let r := p c
  let s := f r.value r.cursor
  ⟨s.value, s.cursor, r.problems ++ s.problems⟩

instance : Monad Parse where
  pure := ret
  bind := andThen

/-- The cursor itself. -/
def cursor : Parse Cursor := fun c => ⟨c, c, []⟩

/-- The token of the next lexeme. -/
def token? : Parse (Option Token) := fun c => ⟨c.token?, c, []⟩

/-- Whether the next lexeme is of this class. -/
def isAt (t : Token) : Parse Bool := fun c => ⟨c.isAt t, c, []⟩

/-- Where the next lexeme starts. -/
def start : Parse Location := fun c => ⟨c.start, c, []⟩

/-- The span from a place to here. -/
def spanFrom (start : Location) : Parse Span := fun c => ⟨c.spanFrom start, c, []⟩

/-- How many lexemes are left. -/
def remaining : Parse Nat := fun c => ⟨c.rest.length, c, []⟩

/-- Posts a problem about the next lexeme. -/
def report (f : Fault) : Parse Unit := fun c => ⟨(), c, [Problem.errorAt (f.message c.found) c.here]⟩

/-- Passes over the next lexeme. -/
def advance : Parse Unit := fun c => ⟨(), c.next, []⟩

/-- Reads the next lexeme, whatever it is. -/
def lexeme? : Parse (Option Lexeme) := fun c => ⟨c.rest.head?, c.next, []⟩

/-- Reads the next lexeme if it is of this class. -/
def eat (t : Token) : Parse (Option Lexeme) := fun c =>
  if c.isAt t then lexeme? c else ⟨none, c, []⟩

/-- Reads a lexeme of this class, or posts a problem. -/
def expect (t : Token) (expected : String) : Parse (Option Lexeme) := do
  match ← eat t with
  | some l => pure (some l)
  | none =>
    report (.mismatched expected)
    pure none

/-- Posts that something else was expected and gives nothing. -/
def mismatch (expected : String) : Parse (Option α) := do
  report (.mismatched expected)
  pure none

/-- Passes over line ends. -/
def skipNewlines : Parse Unit := fun c =>
  ⟨(), go c c.rest, []⟩
where
  /-- The cursor after the line ends that the rest begins with. -/
  go (c : Cursor) : List Lexeme → Cursor
    | [] => { c with rest := [] }
    | l :: ls =>
      if l.token == .newline then go { c with rest := ls, lastEnd := l.span.stop } ls
      else { c with rest := l :: ls }

/-- Passes over lexemes up to the end of the line; braces opened on the way are passed over with what they
hold. A closing brace that was not opened also stops it if `stopAtBrace` is set. -/
def recover (stopAtBrace : Bool) : Parse Unit := fun c =>
  ⟨(), go 0 c c.rest, []⟩
where
  /-- The cursor after what is passed over, inside `depth` open braces. -/
  go (depth : Nat) (c : Cursor) : List Lexeme → Cursor
    | [] => { c with rest := [] }
    | l :: ls =>
      if l.token == .newline && depth == 0 then { c with rest := l :: ls }
      else if l.token == .rightBrace && depth == 0 && stopAtBrace then { c with rest := l :: ls }
      else
        let depth :=
          if l.token == .leftBrace then depth + 1
          else if l.token == .rightBrace then depth - 1
          else depth
        go depth { c with rest := ls, lastEnd := l.span.stop } ls

/-- Asks for the end of a statement; anything else on the line is a problem and is passed over. -/
def expectLineEnd (inBlock : Bool) : Parse Unit := do
  if (← cursor).atStatementEnd then pure ()
  else
    report .extraneousAtLineEnd
    recover inBlock

/-- The first reading if it gives something without a problem and ends where a statement may end;
otherwise the second one, from the same cursor. -/
def firstClean (p : Parse (Option α)) (q : Parse α) : Parse α := fun c =>
  let r := p c
  match r.value with
  | some a => if r.problems.isEmpty && r.cursor.atStatementEnd then ⟨a, r.cursor, []⟩ else q c
  | none => q c

end Parse

end FlightScript
