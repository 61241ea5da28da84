import FlightScript.Location

/-!
# `Token` — the words and marks of the text language

## Contents

* `Keyword`, the words with a meaning of their own, and `Keyword.ofText?`;
* `Token`, the class of a lexeme, and its name;
* `Lexeme`, a token with its text and its place.
-/

namespace FlightScript

/-- A word with a meaning of its own. -/
inductive Keyword where
  | var | list | this | local_ | on | def_ | expression | wait | until_ | if_ | then_ | else_
  | while_ | for_ | to_ | step | break_ | repeat_ | and | or | not | true_ | false_
deriving DecidableEq, Repr

namespace Keyword

/-- Every keyword. -/
def all : List Keyword :=
  [var, list, this, local_, on, def_, expression, wait, until_, if_, then_, else_, while_, for_,
   to_, step, break_, repeat_, and, or, not, true_, false_]

/-- The spelling of a keyword. -/
def text : Keyword → String
  | var => "var"
  | list => "list"
  | this => "this"
  | local_ => "local"
  | on => "on"
  | def_ => "def"
  | expression => "expression"
  | wait => "wait"
  | until_ => "until"
  | if_ => "if"
  | then_ => "then"
  | else_ => "else"
  | while_ => "while"
  | for_ => "for"
  | to_ => "to"
  | step => "step"
  | break_ => "break"
  | repeat_ => "repeat"
  | and => "and"
  | or => "or"
  | not => "not"
  | true_ => "true"
  | false_ => "false"

/-- The name of the token class of a keyword. -/
def name : Keyword → String
  | var => "Var"
  | list => "List"
  | this => "This"
  | local_ => "Local"
  | on => "On"
  | def_ => "Def"
  | expression => "Expression"
  | wait => "Wait"
  | until_ => "Until"
  | if_ => "If"
  | then_ => "Then"
  | else_ => "Else"
  | while_ => "While"
  | for_ => "For"
  | to_ => "To"
  | step => "Step"
  | break_ => "Break"
  | repeat_ => "Repeat"
  | and => "And"
  | or => "Or"
  | not => "Not"
  | true_ => "True"
  | false_ => "False"

/-- The keyword spelled so. -/
def ofText? (s : String) : Option Keyword := all.find? fun k => k.text == s

end Keyword

/-- The class of a lexeme. -/
inductive Token where
  | keyword (k : Keyword)
  | word
  | number
  | string
  | comment
  | newline
  | hash
  | leftParen
  | rightParen
  | leftBrace
  | rightBrace
  | comma
  | dot
  | colon
  | assign
  | plusAssign
  | plus
  | minus
  | star
  | slash
  | percent
  | caret
  | equal
  | greater
  | greaterEqual
  | less
  | lessEqual
deriving DecidableEq, Repr

namespace Token

/-- The name of a class. -/
def name : Token → String
  | keyword k => k.name
  | word => "Word"
  | number => "Number"
  | string => "String"
  | comment => "Comment"
  | newline => "Newline"
  | hash => "Hash"
  | leftParen => "LParen"
  | rightParen => "RParen"
  | leftBrace => "LBrace"
  | rightBrace => "RBrace"
  | comma => "Comma"
  | dot => "Dot"
  | colon => "Colon"
  | assign => "Assign"
  | plusAssign => "PlusAssign"
  | plus => "Plus"
  | minus => "Minus"
  | star => "Star"
  | slash => "Slash"
  | percent => "Percent"
  | caret => "Caret"
  | equal => "EqEq"
  | greater => "Gt"
  | greaterEqual => "GtEq"
  | less => "Lt"
  | lessEqual => "LtEq"

/-- Whether a token is a keyword. -/
def isKeyword : Token → Bool
  | keyword _ => true
  | _ => false

/-- Whether a token may follow the dot of a name: words and keywords alike. -/
def isWordLike : Token → Bool
  | keyword _ => true
  | word => true
  | _ => false

end Token

/-- A token with its text and its place. -/
structure Lexeme where
  token : Token
  text : String
  span : Span
deriving DecidableEq, Repr

end FlightScript
