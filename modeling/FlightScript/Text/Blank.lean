/-!
# `Text.Blank` — white space

The characters with the Unicode property White_Space, and trimming by them.
-/

namespace FlightScript.Text

/-- The ranges of characters with the property White_Space, ends included. -/
def blankRanges : List (Nat × Nat) :=
  [(0x09, 0x0D), (0x20, 0x20), (0x85, 0x85), (0xA0, 0xA0), (0x1680, 0x1680), (0x2000, 0x200A),
   (0x2028, 0x2029), (0x202F, 0x202F), (0x205F, 0x205F), (0x3000, 0x3000)]

/-- Whether a character is white space. -/
def isBlank (c : Char) : Bool :=
  blankRanges.any fun r => decide (r.1 ≤ c.toNat) && decide (c.toNat ≤ r.2)

/-- A text without its leading white space. -/
def trimStart (cs : List Char) : List Char := cs.dropWhile isBlank

/-- A text without its leading and trailing white space. -/
def trim (cs : List Char) : List Char := (trimStart (trimStart cs).reverse).reverse

/-- Whether a text is white space only. -/
def allBlank (cs : List Char) : Bool := cs.all isBlank

/-- A value that says something: an empty one counts as missing. -/
def filled (value : Option String) : Option String := value.filter fun v => v != ""

theorem filled_eq_some_iff {value : Option String} {v : String} : filled value = some v ↔ value = some v ∧ v ≠ "" := by
  simp [filled, Option.filter_eq_some_iff]

end FlightScript.Text
