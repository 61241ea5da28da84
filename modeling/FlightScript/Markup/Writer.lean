import FlightScript.Markup
import FlightScript.Text.Indent

/-!
# `Markup.Writer` — the text of a document

A document starts with a declaration. An element starts on a line of its own, two spaces deeper than the one
around it, and text stands directly between the tags of an element that holds nothing else.
-/

namespace FlightScript.Markup

open Text (indent)

/-- The declaration that a document starts with. -/
def header : String := "<?xml version=\"1.0\" encoding=\"utf-8\"?>"

/-- A character in text. -/
def escapeTextChar (c : Char) : List Char :=
  if c = '&' then "&amp;".toList
  else if c = '<' then "&lt;".toList
  else if c = '>' then "&gt;".toList
  else [c]

/-- A character in the value of an attribute, where quotes and line ends are escaped too. -/
def escapeValueChar (c : Char) : List Char :=
  if c = '\x22' then "&quot;".toList
  else if c = '\x27' then "&apos;".toList
  else if c = '\n' then "&#xA;".toList
  else if c = '\r' then "&#xD;".toList
  else if c = '\t' then "&#x9;".toList
  else escapeTextChar c

/-- Text between tags. -/
def escapeText (s : String) : String := String.ofList (s.toList.flatMap escapeTextChar)

/-- The value of an attribute between its quotes. -/
def escapeValue (s : String) : String := String.ofList (s.toList.flatMap escapeValueChar)

/-- Attributes, each after a space. -/
def attributes (a : Attributes) : String :=
  String.join (a.entries.map fun e => " " ++ e.1 ++ "=\"" ++ escapeValue e.2 ++ "\"")

/-- Whether a child is text. -/
def isText : Child Element → Bool
  | .text .. => true
  | .element _ => false

/-- Text that stands alone in its element. -/
def plainText (children : List (Child Element)) : String :=
  String.join (children.map fun
    | .text value _ => escapeText value
    | .element _ => "")

mutual

/-- The lines of an element. -/
def element (depth : Nat) : Element → String
  | ⟨name, attrs, children, _⟩ =>
    indent depth ++ "<" ++ name ++ attributes attrs ++
      (if children.isEmpty then " />\n"
        else if children.all isText then ">" ++ plainText children ++ "</" ++ name ++ ">\n"
        else ">\n" ++ lines (depth + 1) children ++ indent depth ++ "</" ++ name ++ ">\n")

/-- The lines of the children of an element. -/
def lines (depth : Nat) : List (Child Element) → String
  | [] => ""
  | .element e :: rest => element depth e ++ lines depth rest
  | .text value _ :: rest => indent depth ++ escapeText value ++ "\n" ++ lines depth rest

end

/-- The text of a document with this root. -/
def write (root : Element) : String := header ++ "\n" ++ element 0 root

end FlightScript.Markup
