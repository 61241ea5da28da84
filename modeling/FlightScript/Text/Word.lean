import FlightScript.Text.Parts

/-!
# `Text.Word` — names that need no quotes

A name is dotted if it is words joined by dots. It can stand alone if, besides, its first word has no meaning of its
own.
-/

namespace FlightScript.Text

/-- The words that have a meaning of their own in a text. -/
def keywords : List String :=
  ["var", "list", "this", "local", "on", "def", "expression", "wait", "until", "if", "then", "else", "while",
   "for", "to", "step", "break", "repeat", "and", "or", "not", "true", "false"]

/-- A character that may begin a word of a name. -/
def isNameStart (c : Char) : Bool := c.isAlpha || c == '_'

/-- A character that may stand in a word of a name. -/
def isNamePart (c : Char) : Bool := c.isAlphanum || c == '_'

/-- Whether a text is one word. -/
def isWord : List Char → Bool
  | [] => false
  | c :: cs => isNameStart c && cs.all isNamePart

/-- Whether a name is words joined by dots. -/
def isDotted (name : String) : Bool := (parts '.' name.toList).all isWord

/-- The first word of a dotted name. -/
def firstWord (name : String) : String := String.ofList ((parts '.' name.toList).headD [])

/-- Whether a name reads back as itself without quotes. -/
def isBare (name : String) : Bool := isDotted name && !keywords.contains (firstWord name)

end FlightScript.Text
