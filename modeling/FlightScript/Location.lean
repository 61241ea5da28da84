/-!
# `Location` — places in a source text

A place is a line and a column, both counted from one. A column counts characters since the last line
feed, and only a line feed ends a line.

## Contents

* `Location`, its order, `Location.advance` over one character and `Location.after` over many;
* `Span`, a place where something starts and the place just after it.
-/

namespace FlightScript

/-- A line and a column, counted from one. -/
structure Location where
  line : Nat
  column : Nat
deriving DecidableEq, Repr

namespace Location

/-- The place of the first character. -/
def origin : Location := ⟨1, 1⟩

/-- Places are ordered by line, then by column. -/
def before (a b : Location) : Bool :=
  decide (a.line < b.line) || (decide (a.line = b.line) && decide (a.column < b.column))

/-- The earlier of two places. -/
def earlier (a b : Location) : Location := if b.before a then b else a

/-- The later of two places. -/
def later (a b : Location) : Location := if a.before b then b else a

/-- The place after reading one more character. -/
def advance (l : Location) (c : Char) : Location :=
  if c = '\n' then ⟨l.line + 1, 1⟩ else ⟨l.line, l.column + 1⟩

/-- The place after reading a run of characters. -/
def after (l : Location) (cs : List Char) : Location := cs.foldl advance l

@[simp] theorem after_nil (l : Location) : l.after [] = l := rfl

@[simp] theorem after_cons (l : Location) (c : Char) (cs : List Char) :
    l.after (c :: cs) = (l.advance c).after cs := rfl

theorem after_append (l : Location) (cs ds : List Char) :
    l.after (cs ++ ds) = (l.after cs).after ds := List.foldl_append

end Location

/-- A stretch of text: where it starts and the place just after it. -/
structure Span where
  start : Location
  stop : Location
deriving DecidableEq, Repr

namespace Span

/-- The span given to things that stand in no text. -/
def synthetic : Span := ⟨.origin, .origin⟩

/-- The smallest span that covers both. -/
def join (a b : Span) : Span := ⟨a.start.earlier b.start, a.stop.later b.stop⟩

end Span

end FlightScript
