/-!
# `Catalog.Event` — the events of a flight

The events that a handler can answer, with the parameters that each one binds.
-/

namespace FlightScript

/-- An event of a flight. -/
structure EventDefinition where
  event : String
  style : String
  /-- The parameters that are bound when the event occurs. -/
  parameters : List String
  /-- Whether a handler names the message it answers. -/
  hasFilter : Bool
deriving DecidableEq, Repr

namespace Catalog

/-- The event that carries messages. -/
def messageEvent : String := "ReceiveMessage"

/-- Every event. -/
def events : List EventDefinition :=
  [⟨"FlightStart", "flight-start", [], false⟩,
   ⟨"Docked", "craft-docked", ["craftA", "craftB"], false⟩,
   ⟨"ChangeSoi", "change-soi", ["planet"], false⟩,
   ⟨messageEvent, "receive-msg", ["data"], true⟩,
   ⟨"PartExplode", "part-explode", ["part"], false⟩,
   ⟨"PartCollision", "part-collision", ["part", "other", "velocity", "impulse"], false⟩]

/-- The event with a name. -/
def event? (name : String) : Option EventDefinition := events.find? fun e => e.event == name

end Catalog

end FlightScript
