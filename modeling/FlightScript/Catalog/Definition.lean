import FlightScript.NameMap
import FlightScript.Node

/-!
# `Catalog.Definition` — what a name becomes in a document

A definition gives the element that a use of a name becomes, the attributes that the element always has, the
arguments that are added to those of the author, and how many arguments the author has to give.
-/

namespace FlightScript

/-- The number of arguments a definition takes. -/
inductive Arity where
  | exactly (n : Nat)
  | any
deriving DecidableEq, Repr

namespace Arity

/-- Whether a number of arguments fits. -/
def accepts : Arity → Nat → Bool
  | exactly n, count => n == count
  | any, _ => true

/-- An arity as messages show it. -/
def display : Arity → String
  | exactly n => toString n
  | any => "-1"

end Arity

/-- Names of attributes with their values. -/
abbrev Attributes : Type := NameMap String

/-- What a name becomes in a document. -/
structure Definition where
  name : String
  element : String
  attributes : Attributes
  /-- Constants that follow the arguments of the author. -/
  trailing : List Constant
  arity : Arity

namespace Definition

/-- A definition without added arguments. -/
def plain (name element : String) (arity : Nat) (attributes : List (String × String)) : Definition :=
  ⟨name, element, .ofList attributes, [], .exactly arity⟩

/-- The definition with this name in a list; of several the last counts. -/
def lookup? (definitions : List Definition) (name : String) : Option Definition :=
  definitions.reverse.find? fun d => d.name == name

end Definition

end FlightScript
