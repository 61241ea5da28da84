import FlightScript.Operator
import FlightScript.Token

/-!
# `Surface` — programs as they are written

The tree that reading a text gives. It keeps what was written: string literals with their quotes, the words
of a dotted name, parentheses, and the span of every part. A part that could not be read is left out or is
the constructor `missing`.

## Contents

* names: `Dotted`, `Name`, `DeclName`, `Reference`;
* `Expression`, `Statement` with `Block` and `Alternative`, `Item`;
* `Program`, the items of a text in order.
-/

namespace FlightScript.Surface

/-! ## Names -/

/-- Words joined by dots. -/
structure Dotted where
  first : String
  more : List String
deriving DecidableEq, Repr

/-- The words of a dotted name with the dots between them. -/
def Dotted.text (d : Dotted) : String := d.more.foldl (fun s w => s ++ "." ++ w) d.first

/-- A name as it stands: words, or a string literal with its quotes. -/
inductive Name where
  | words (d : Dotted)
  | quoted (literal : String)
deriving DecidableEq, Repr

/-- The name of something declared. -/
structure DeclName where
  name : Name
  span : Span
deriving DecidableEq, Repr

/-- The names between the parentheses of a declaration. -/
structure Parameters where
  names : List DeclName
  span : Span
deriving DecidableEq, Repr

/-- What an event handler names: a word, or a message as a string literal. -/
inductive EventName where
  | word (text : String)
  | message (literal : String)
deriving DecidableEq, Repr

/-- The word that says where a name is to be looked up. -/
inductive Qualifier where
  | this | var | local_
deriving DecidableEq, Repr

/-- A use of a name. -/
structure Reference where
  qualifier : Option Qualifier
  member : Option Name
  span : Span
deriving DecidableEq, Repr

/-! ## Expressions -/

/-- A written constant. -/
inductive Literal where
  | number (negative : Bool) (digits : String)
  | string (literal : String)
  | bool (value : Bool)
deriving DecidableEq, Repr

/-- A written expression. -/
inductive Expression where
  | missing
  | literal (value : Literal) (span : Span)
  | name (reference : Reference) (span : Span)
  | call (reference : Reference) (arguments : List Expression) (span : Span)
  | group (inner : Expression) (span : Span)
  | binary (operator : Operator) (lhs rhs : Expression) (span : Span)
  | not (operand : Expression) (span : Span)
  | conditional (condition consequent alternative : Expression) (span : Span)
deriving Repr

/-! ## Statements -/

/-- What follows the name of an instruction. -/
inductive Arguments where
  | none
  | list (items : List Expression)
  | single (item : Expression)
deriving Repr

/-- What is assigned to: a name, or any expression in parentheses. -/
inductive Target where
  | reference (r : Reference)
  | group (inner : Expression)
deriving Repr

mutual

/-- A written statement. -/
inductive Statement where
  | comment (text : String) (span : Span)
  | ifElse (condition : Expression) (consequent : Block) (alternative : Alternative) (span : Span)
  | whileLoop (condition : Expression) (body : Block) (span : Span)
  | repeatLoop (count : Expression) (body : Block) (span : Span)
  | forLoop (var : Option DeclName) (first last step : Expression) (body : Block) (span : Span)
  | breakLoop (span : Span)
  | wait (isUntil : Bool) (condition : Expression) (span : Span)
  | assign (target : Target) (operator : AssignOperator) (value : Expression) (span : Span)
  | instruction (reference : Reference) (arguments : Arguments) (span : Span)

/-- Statements between braces. -/
inductive Block where
  | missing
  | braces (statements : List Statement) (span : Span)

/-- What stands after `else`. -/
inductive Alternative where
  | none
  | elseIf (condition : Expression) (consequent : Block) (alternative : Alternative) (span : Span)
  | otherwise (body : Block)

end

/-! ## Programs -/

/-- A part of a text at top level. -/
inductive Item where
  | directive (name : Option String) (value : Option String) (span : Span)
  | var (isList : Bool) (name : Option DeclName) (span : Span)
  | event (name : Option EventName) (parameters : Option Parameters) (body : Block) (span : Span)
  | instruction (name : Option DeclName) (parameters : Option Parameters) (body : Block) (span : Span)
  | expression (name : Option DeclName) (parameters : Option Parameters) (value : Expression) (span : Span)
  | block (statements : List Statement) (span : Span)

/-- A whole text. -/
structure Program where
  items : List Item

end FlightScript.Surface
