import FlightScript.Export
import FlightScript.Import
import FlightScript.Markup.Reader
import FlightScript.Node.Render
import FlightScript.Surface.Desugar
import FlightScript.Surface.Programs

/-!
# `Conversion` — between texts and documents

The whole ways through the library: from a text to its tree, to the document of its program, and to its
canonical form, and from a document to the text of its program. What starts from a text also gives the problems
of the text, in the order in which they are found.
-/

namespace FlightScript

/-- A result with the problems found on the way. -/
structure Outcome (α : Type) where
  result : α
  problems : List Problem

/-- The tree of a text whose names are not resolved yet. -/
def treeOfText (source : String) : Outcome Node :=
  let (program, problems) := Surface.Program.ofText source
  ⟨program.node, problems⟩

/-- The resolved tree of a text. -/
def resolvedTreeOfText (source : String) : Outcome Node :=
  let tree := treeOfText source
  ⟨tree.result.resolved, tree.problems ++ tree.result.problems⟩

/-- The document of the program in a text. -/
def documentOfText (source : String) : Outcome (Except Failure String) :=
  let tree := resolvedTreeOfText source
  ⟨tree.result.documentText, tree.problems⟩

/-- The canonical form of a text. -/
def formatText (source : String) : Outcome String :=
  let tree := resolvedTreeOfText source
  ⟨tree.result.text, tree.problems⟩

/-- The root of a document. -/
def rootOfDocument (document : String) : Except Failure Element :=
  match Markup.elements? document with
  | some (root :: _) => .ok root
  | some [] => .error .missingRoot
  | none => .error .malformedDocument

/-- A document without a root is malformed already. -/
theorem rootOfDocument_eq (document : String) :
    rootOfDocument document =
      match Markup.read document with
      | some root => .ok root
      | none => .error .malformedDocument := by
  rw [rootOfDocument, Markup.elements?]
  cases Markup.read document <;> rfl

/-- The tree of the program in a document, none if the document holds something else. -/
def treeOfDocument (document : String) : Except Failure (Option Node) := do
  (← rootOfDocument document).tree

/-- The text of the program in a document. -/
def textOfDocument (document : String) : Except Failure String := do
  let root ← rootOfDocument document
  match ← root.tree with
  | some tree => return tree.text
  | none => .error (.wrongRoot root.name root.span)

end FlightScript
