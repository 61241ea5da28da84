/-!
# `Text.Indent` — the spaces before a line

Every level of nesting is two spaces deep.
-/

namespace FlightScript.Text

/-- The spaces before a line at a depth. -/
def indent : Nat → String
  | 0 => ""
  | depth + 1 => "  " ++ indent depth

end FlightScript.Text
