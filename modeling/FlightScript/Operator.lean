/-!
# `Operator` — operators and how they bind

A binary operator has a symbol, by which trees and documents know it, and a spelling in the text language.
Trees may hold any symbol; the thirteen operators of the language are an enumeration.

## Contents

* `Operator`, its symbols and spellings;
* `precedence?`, `bindsRight`, `displaySymbol`, defined for any symbol;
* `AssignOperator`, the two ways to assign.
-/

namespace FlightScript

/-- A binary operator of the text language. -/
inductive Operator where
  | add | subtract | multiply | divide | remainder | power
  | equal | greater | greaterEqual | less | lessEqual
  | and | or
deriving DecidableEq, Repr

namespace Operator

/-- The symbol by which trees and documents know an operator. -/
def symbol : Operator → String
  | add => "+"
  | subtract => "-"
  | multiply => "*"
  | divide => "/"
  | remainder => "%"
  | power => "^"
  | equal => "="
  | greater => "g"
  | greaterEqual => "ge"
  | less => "l"
  | lessEqual => "le"
  | and => "and"
  | or => "or"

/-- Every operator. -/
def all : List Operator :=
  [add, subtract, multiply, divide, remainder, power, equal, greater, greaterEqual, less, lessEqual, and, or]

/-- The operator with a symbol. -/
def ofSymbol? (s : String) : Option Operator := all.find? fun o => o.symbol == s

/-- The spelling of an operator in the text language. -/
def spelling : Operator → String
  | equal => "=="
  | greater => ">"
  | greaterEqual => ">="
  | less => "<"
  | lessEqual => "<="
  | o => o.symbol

/-- How loosely an operator binds. -/
def precedence : Operator → Nat
  | power => 3
  | multiply | divide | remainder => 5
  | add | subtract => 6
  | equal | greater | greaterEqual | less | lessEqual => 7
  | and => 9
  | or => 10

end Operator

/-! ## Binding strength, for any symbol

A lower number binds tighter. -/

/-- How loosely a negation binds. -/
def notPrecedence : Nat := 8

/-- How loosely a conditional expression binds. -/
def conditionalPrecedence : Nat := 11

/-- How loosely an operator outside the language is taken to bind. -/
def unknownPrecedence : Nat := 19

/-- The ceiling that asks for no parentheses. -/
def looseCeiling : Nat := 20

/-- How loosely a symbol binds, negation and condition included. -/
def precedence? (symbol : String) : Option Nat :=
  if symbol == "not" then some notPrecedence
  else if symbol == "if" then some conditionalPrecedence
  else (Operator.ofSymbol? symbol).map Operator.precedence

/-- Whether a chain of this operator groups to the right. -/
def bindsRight (symbol : String) : Bool := symbol == Operator.power.symbol

/-- The spelling of a symbol; one outside the language is spelled as it is. -/
def displaySymbol (symbol : String) : String :=
  match Operator.ofSymbol? symbol with
  | some o => o.spelling
  | none => symbol

/-- How a value is assigned: put in place, or added. -/
inductive AssignOperator where
  | set | change
deriving DecidableEq, Repr

/-- The spelling of an assignment. -/
def AssignOperator.text : AssignOperator → String
  | set => "="
  | change => "+="

end FlightScript
