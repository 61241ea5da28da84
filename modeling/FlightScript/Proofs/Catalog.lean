import FlightScript.Catalog.Expression
import FlightScript.Catalog.Instruction
import FlightScript.Proofs.Bytes
import FlightScript.Text.Word

/-!
# `Proofs.Catalog` — what holds of every builtin name

The catalog is a fixed list, so what holds of all of it is settled by going through it.

## Contents

* `Catalog.isBare_of_expression?`, `Catalog.isBare_of_instruction?`: builtin names need no quotes.
-/

namespace FlightScript

/-- What is looked up stands in the list under its name. -/
theorem Definition.of_lookup? {definitions : List Definition} {name : String} {d : Definition}
    (h : lookup? definitions name = some d) : d ∈ definitions ∧ d.name = name := by
  unfold lookup? at h
  have hmem := List.mem_of_find?_eq_some h
  have hname := List.find?_some h
  exact ⟨List.mem_reverse.mp hmem, by simpa using hname⟩

namespace Catalog

-- the names are read off their bytes, which is faster by far than to decode them
theorem isBare_expressions : (expressions.all fun d => Text.isBare d.name) = true := by
  simp only [Text.isBare, Text.isDotted, Text.firstWord, ← Text.chars_eq_toList]
  decide +kernel

theorem isBare_instructions : (instructions.all fun d => Text.isBare d.name) = true := by
  simp only [Text.isBare, Text.isDotted, Text.firstWord, ← Text.chars_eq_toList]
  decide +kernel

theorem isBare_of_expression? {name : String} (h : (expression? name).isSome) :
    Text.isBare name = true := by
  obtain ⟨d, hd⟩ := Option.isSome_iff_exists.mp h
  obtain ⟨hmem, rfl⟩ := Definition.of_lookup? hd
  exact List.all_eq_true.mp isBare_expressions d hmem

theorem isBare_of_instruction? {name : String} (h : (instruction? name).isSome) :
    Text.isBare name = true := by
  obtain ⟨d, hd⟩ := Option.isSome_iff_exists.mp h
  obtain ⟨hmem, rfl⟩ := Definition.of_lookup? hd
  exact List.all_eq_true.mp isBare_instructions d hmem

end Catalog

end FlightScript
