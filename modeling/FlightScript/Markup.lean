import FlightScript.Catalog.Definition
import FlightScript.Location

/-!
# `Markup` — documents as elements

An element has a name, attributes in the order of their names, and children in the order of the document. A
child is an element or a run of text.
-/

namespace FlightScript

/-- What can stand inside an element. -/
inductive Child (α : Type) where
  | element (e : α)
  | text (value : String) (span : Span)

/-- An element of a document. -/
structure Element where
  name : String
  attributes : Attributes
  children : List (Child Element)
  span : Span

namespace Element

/-- An element that stands in no document, with elements in it. -/
def make (name : String) (attributes : List (String × String)) (children : List Element) : Element :=
  ⟨name, .ofList attributes, children.map Child.element, .synthetic⟩

/-- The value of an attribute. -/
def attr? (e : Element) (name : String) : Option String := e.attributes.get? name

/-- The element with one more attribute, or another value for one it has. -/
def withAttr (e : Element) (name value : String) : Element :=
  { e with attributes := e.attributes.insert name value }

/-- The elements in a list of children. -/
def elementsOf (children : List (Child Element)) : List Element :=
  children.filterMap fun
    | .element e => some e
    | .text .. => none

/-- The elements in an element. -/
def elements (e : Element) : List Element := elementsOf e.children

/-- The first element in an element. -/
def first? (e : Element) : Option Element := e.elements.head?

/-- The first element with a name in an element. -/
def named? (e : Element) (name : String) : Option Element := e.elements.find? fun c => c.name == name

end Element

end FlightScript
