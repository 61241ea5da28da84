import FlightScript.Location

/-!
# `LineIndex` — places of byte offsets

A scanner counts the bytes of a text, a reader its lines and columns. An index of a text holds the byte offsets at which
its lines start. The line of an offset is found among them by bisection, and its column by counting the characters
between the start of the line and the offset.

## Contents

* `Text.charIndices`, `Text.byteSize`, `Text.slice?`: a text by its bytes;
* `bisect`, a search among numbers in order;
* `LineIndex`, `LineIndex.ofText`;
* `LineIndex.location?`, the place of a byte offset.
-/

namespace FlightScript

/-! ## Bytes of a text -/

namespace Text

/-- How many bytes characters take. -/
def byteSize : List Char → Nat
  | [] => 0
  | c :: cs => c.utf8Size + byteSize cs

/-- Characters with the byte offsets at which they start, the first one at `offset`. -/
def charIndices (offset : Nat) : List Char → List (Nat × Char)
  | [] => []
  | c :: cs => (offset, c) :: charIndices (offset + c.utf8Size) cs

/-- The stretch of a text from one byte offset to another. There is none if the offsets are in the wrong order or one of
them lies outside the text or inside a character. -/
def slice? (s : String) (start stop : Nat) : Option String :=
  if start ≤ stop && String.Pos.Raw.isValid s ⟨start⟩ && String.Pos.Raw.isValid s ⟨stop⟩ then
    some (String.Pos.Raw.extract s ⟨start⟩ ⟨stop⟩)
  else none

theorem le_of_mem_charIndices {offset : Nat} {cs : List Char} {x : Nat × Char} (h : x ∈ charIndices offset cs) :
    offset ≤ x.1 := by
  induction cs generalizing offset with
  | nil => cases h
  | cons c cs ih =>
    rcases List.mem_cons.mp h with rfl | h
    · exact Nat.le_refl _
    · exact Nat.le_trans (Nat.le_add_right _ _) (ih h)

/-- Later characters start at larger offsets. -/
theorem pairwise_charIndices (offset : Nat) (cs : List Char) :
    (charIndices offset cs).Pairwise fun a b => a.1 < b.1 := by
  induction cs generalizing offset with
  | nil => exact .nil
  | cons c cs ih =>
    refine .cons (fun x hx => ?_) (ih _)
    exact Nat.lt_of_lt_of_le (Nat.lt_add_of_pos_right c.utf8Size_pos) (le_of_mem_charIndices hx)

end Text

/-! ## Bisection -/

/-- The index of a number among numbers in order, looked for from `low` up to `high`; an error is the index at which the
number would have to be put in. -/
def bisect (xs : Array Nat) (key low high : Nat) (hhigh : high ≤ xs.size) : Except Nat Nat :=
  if hlow : low < high then
    have hmid : low + (high - low) / 2 < xs.size := by omega
    if xs[low + (high - low) / 2] = key then .ok (low + (high - low) / 2)
    else if xs[low + (high - low) / 2] < key then bisect xs key (low + (high - low) / 2 + 1) high hhigh
    else bisect xs key low (low + (high - low) / 2) (Nat.le_of_lt hmid)
  else .error low
termination_by high - low

/-! ## The index -/

/-- A text with the byte offsets at which its lines start. -/
structure LineIndex where
  source : String
  lineStarts : Array Nat
  /-- The first line starts where the text does. -/
  first : lineStarts[0]? = some 0
  increasing : lineStarts.toList.Pairwise (· < ·)

namespace LineIndex

/-- The byte offsets behind line feeds. -/
def feeds (cs : List Char) : List Nat :=
  ((Text.charIndices 0 cs).filter fun x => x.2 == '\n').map fun x => x.1 + 1

/-- The index of a text: a line starts at its beginning and behind each line feed. -/
def ofText (source : String) : LineIndex where
  source := source
  lineStarts := (0 :: feeds source.toList).toArray
  first := rfl
  increasing := by
    refine .cons (fun x hx => ?_) ?_
    · obtain ⟨y, _, rfl⟩ := List.mem_map.mp hx
      exact Nat.succ_pos _
    · refine List.Pairwise.map _ (fun a b hab => ?_) ((Text.pairwise_charIndices 0 source.toList).filter _)
      exact Nat.succ_lt_succ hab

/-- The line of a byte offset, counted from zero: the last one that does not start behind it. -/
def line (index : LineIndex) (offset : Nat) : Nat :=
  match bisect index.lineStarts offset 0 index.lineStarts.size (Nat.le_refl _) with
  | .ok i => i
  | .error i => i - 1

/-- The place of a byte offset, if the offset stands between characters. -/
def location? (index : LineIndex) (offset : Nat) : Option Location := do
  let line := index.line offset
  let start ← index.lineStarts[line]?
  let text ← Text.slice? index.source start offset
  return ⟨line + 1, text.length + 1⟩

/-- The place of a byte offset at which a piece of the text starts or ends; such an offset has one. -/
def location (index : LineIndex) (offset : Nat) : Location := (index.location? offset).getD .origin

end LineIndex

end FlightScript
