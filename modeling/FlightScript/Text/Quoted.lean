/-!
# `Text.Quoted` — string literals

How a text is written between quotes and read back. A tab, a carriage return, a line feed, a backslash and
the delimiting quote are written as a backslash and a letter or the character itself; every other character
stands for itself. Reading resolves these sequences for both kinds of quote and keeps every other
backslash.

## Contents

* `Quoted.escape`, `Quoted.unescape`: the content of a literal;
* `Quoted.write`, `Quoted.value`: a whole literal with its delimiters.
-/

namespace FlightScript.Text.Quoted

/-- The delimiter used unless the text asks for the other one. -/
def double : Char := '\x22'

/-- The other delimiter. -/
def single : Char := '\x27'

/-- One character as it stands inside a literal delimited by `quote`. -/
def escapeChar (quote c : Char) : List Char :=
  if c = '\t' then ['\\', 't']
  else if c = '\r' then ['\\', 'r']
  else if c = '\n' then ['\\', 'n']
  else if c = '\\' then ['\\', '\\']
  else if c = quote then ['\\', c]
  else [c]

/-- A text as it stands inside a literal delimited by `quote`. -/
def escape (quote : Char) (cs : List Char) : List Char := cs.flatMap (escapeChar quote)

/-- What a backslash followed by this character stands for, if it is a known sequence. -/
def escaped? (c : Char) : Option Char :=
  if c = single then some single
  else if c = double then some double
  else if c = 't' then some '\t'
  else if c = 'r' then some '\r'
  else if c = 'n' then some '\n'
  else if c = '\\' then some '\\'
  else none

/-- The text that the content of a literal stands for. -/
def unescape : List Char → List Char
  | [] => []
  | [c] => [c]
  | c :: d :: cs =>
    if c = '\\' then
      match escaped? d with
      | some e => e :: unescape cs
      | none => c :: unescape (d :: cs)
    else c :: unescape (d :: cs)

/-- The delimiter for a text: the single quote only if it saves every escape of a double quote. -/
def delimiter (cs : List Char) : Char :=
  if cs.contains double && !cs.contains single then single else double

/-- A text written as a literal. -/
def write (s : String) : String :=
  let quote := delimiter s.toList
  String.ofList (quote :: escape quote s.toList ++ [quote])

/-- The text of a written literal: delimiters removed, sequences resolved. -/
def value (s : String) : String := String.ofList (unescape (s.toList.drop 1).dropLast)

end FlightScript.Text.Quoted
