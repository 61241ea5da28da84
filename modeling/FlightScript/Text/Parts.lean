/-!
# `Text.Parts` — a text cut at a character

Cutting at a character gives one part more than the character occurs in the text.
-/

namespace FlightScript.Text

/-- The parts of a text between the occurrences of a character. -/
def parts (sep : Char) : List Char → List (List Char)
  | [] => [[]]
  | c :: cs =>
    if c = sep then [] :: parts sep cs
    else
      match parts sep cs with
      | [] => [[c]]
      | p :: ps => (c :: p) :: ps

/-- There is always a part. -/
theorem parts_ne_nil (sep : Char) (cs : List Char) : parts sep cs ≠ [] := by
  cases cs with
  | nil => simp [parts]
  | cons c cs =>
    unfold parts
    split
    · simp
    · split <;> simp

/-- A text without the character is its only part. -/
theorem parts_of_notMem {sep : Char} {cs : List Char} (h : sep ∉ cs) : parts sep cs = [cs] := by
  induction cs with
  | nil => rfl
  | cons c cs ih =>
    have hc : c ≠ sep := fun e => h (e ▸ List.mem_cons_self)
    simp [parts, hc, ih fun m => h (List.mem_cons_of_mem _ m)]

end FlightScript.Text
