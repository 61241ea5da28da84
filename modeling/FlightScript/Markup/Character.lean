/-!
# `Markup.Character` — classes of characters in documents

Which characters a document may hold, and of which its names are made.
-/

namespace FlightScript.Markup

/-- White space between parts of tags and around the root. -/
def isSpace (c : Char) : Bool := c == ' ' || c == '\t' || c == '\n' || c == '\r'

/-- A character that a document may hold. -/
def isAllowed (c : Char) : Bool :=
  if c.toNat < 0x20 then isSpace c else c.toNat != 0xFFFE && c.toNat != 0xFFFF

/-- The ranges, beyond ASCII, of characters that may begin a name. -/
def nameStartRanges : List (Nat × Nat) :=
  [(0xC0, 0xD6), (0xD8, 0xF6), (0xF8, 0x2FF), (0x370, 0x37D), (0x37F, 0x1FFF), (0x200C, 0x200D),
   (0x2070, 0x218F), (0x2C00, 0x2FEF), (0x3001, 0xD7FF), (0xF900, 0xFDCF), (0xFDF0, 0xFFFD),
   (0x10000, 0xEFFFF)]

/-- The further ranges, beyond ASCII, of characters that may stand in a name. -/
def namePartRanges : List (Nat × Nat) := [(0xB7, 0xB7), (0x300, 0x36F), (0x203F, 0x2040)]

/-- Whether a number lies in one of the ranges. -/
def inRanges (ranges : List (Nat × Nat)) (n : Nat) : Bool :=
  ranges.any fun r => decide (r.1 ≤ n) && decide (n ≤ r.2)

/-- An ASCII letter. -/
def isLetter (c : Char) : Bool :=
  (decide ('a' ≤ c) && decide (c ≤ 'z')) || (decide ('A' ≤ c) && decide (c ≤ 'Z'))

/-- A character that may begin a name. -/
def isNameStart (c : Char) : Bool :=
  isLetter c || c == ':' || c == '_' || inRanges nameStartRanges c.toNat

/-- A character that may stand in a name. -/
def isNamePart (c : Char) : Bool :=
  isNameStart c || (decide ('0' ≤ c) && decide (c ≤ '9')) || c == '-' || c == '.' ||
    inRanges namePartRanges c.toNat

end FlightScript.Markup
