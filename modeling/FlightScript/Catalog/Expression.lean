import FlightScript.Catalog.Definition
import FlightScript.Catalog.Tables

/-!
# `Catalog.Expression` — builtin names in expressions

The definitions of every builtin name that stands in an expression, family by family.

## Contents

* one list of definitions for each family;
* `Catalog.expressions`, all of them, and `Catalog.expression?`.
-/

namespace FlightScript.Catalog

open Definition

/-- A property of the craft, named by its own attribute. -/
def craftProperty (style : String) (arity : Nat) (name : String) : Definition :=
  plain name "CraftProperty" arity [("property", name), ("style", style)]

/-- Functions of numbers. -/
def mathExpressions : List Definition :=
  (unaryFunctions.map fun f =>
    plain ("Math." ++ f) "MathFunction" 1 [("function", f), ("style", "op-math")]) ++
  (binaryFunctions.map fun f =>
    plain ("Math." ++ f.1) "BinaryOp" 2 [("op", f.1), ("style", f.2)])

/-- Vectors and operations on them. -/
def vectorExpressions : List Definition :=
  plain "Vec" "Vector" 3 [("style", "vec")] ::
  (vectorUnary.map fun op =>
    plain ("Vec." ++ op) "VectorOp" 1 [("op", op), ("style", "vec-op-1")]) ++
  (vectorBinary.map fun op =>
    plain ("Vec." ++ op) "VectorOp" 2 [("op", op), ("style", "vec-op-2")]) ++
  [plain "Vec.hex" "VectorOp" 1 [("op", "hex"), ("style", "vec-op-color")]]

/-- An operation on texts that takes a fixed number of arguments. -/
def stringOperation (op : String) (arity : Nat) : Definition :=
  plain ("String." ++ op) "StringOp" arity [("op", op), ("style", op)]

/-- An operation on any number of texts; in a document an empty text ends them. -/
def variadicString (op : String) : Definition :=
  ⟨"String." ++ op, "StringOp", .ofList [("op", op), ("style", op)], [.string ""], .any⟩

/-- Operations on texts. -/
def stringExpressions : List Definition :=
  [variadicString "join", stringOperation "length" 1, stringOperation "letter" 2,
   stringOperation "substring" 3, stringOperation "contains" 2, variadicString "format"] ++
  (friendlyFormats.map fun f =>
    plain ("String.friendly." ++ f) "StringOp" 1
      [("op", "friendly"), ("subOp", f), ("style", "friendly")])

/-- Questions about planets. -/
def planetExpressions : List Definition :=
  (planetFacts.map fun op =>
    plain ("Planet." ++ op) "Planet" 1 [("op", op), ("style", "planet")]) ++
  (planetPositions.map fun op =>
    plain ("Planet." ++ op.1) "Planet" 1 [("op", op.1), ("style", op.2)])

/-- Questions about lists. -/
def listExpressions : List Definition :=
  listQueries.map fun op =>
    plain ("List." ++ op.1) "ListOp" op.2 [("op", op.1), ("style", "list-op")]

/-- Builtin names outside the large families. -/
def otherExpressions : List Definition :=
  [plain "AG.Get" "ActivationGroup" 1 [("style", "activation-group")],
   craftProperty "note-frequency" 2 "Sound.Frequency",
   plain "funk" "EvaluateExpression" 1 [("style", "evaluate-expression")]]

/-- Properties of the craft and its parts. -/
def propertyExpressions : List Definition :=
  altitudeProperties.map (craftProperty "prop-altitude" 0) ++
  orbitProperties.map (craftProperty "prop-orbit" 0) ++
  atmosphereProperties.map (craftProperty "prop-atmosphere" 0) ++
  performanceProperties.map (craftProperty "prop-performance" 0) ++
  fuelProperties.map (craftProperty "prop-fuel" 0) ++
  navigationProperties.map (craftProperty "prop-nav" 0) ++
  velocityProperties.map (craftProperty "prop-velocity" 0) ++
  miscProperties.map (craftProperty "prop-misc" 0) ++
  timeProperties.map (craftProperty "prop-time" 0) ++
  nameProperties.map (craftProperty "prop-name" 0) ++
  terrainProperties.map (craftProperty "terrain-query" 1) ++
  partProperties.map (craftProperty "part" 1) ++
  craftProperties.map (craftProperty "craft" 1) ++
  (inputs.map fun input => craftProperty "prop-input" 0 ("Input." ++ input)) ++
  [craftProperty "part-id" 1 "Part.NameToID",
   craftProperty "craft-id" 1 "Craft.NameToID",
   craftProperty "part-transform" 2 "Part.LocalToPci",
   craftProperty "part-transform" 2 "Part.PciToLocal",
   craftProperty "raycast-query" 2 "Raycast"]

/-- Properties of displays. The property of `Mfd.LocalToDisplay` has an older spelling in documents. -/
def displayExpressions : List Definition :=
  (widgetProperties.map fun p => craftProperty "prop-mfd-widget" 1 ("Mfd." ++ p)) ++
  [craftProperty "prop-mfd-widget" 1 "Mfd.Exists"] ++
  (["Text", "FontSize", "AutoSize", "Alignment"].map fun p =>
    craftProperty "prop-mfd-label" 1 ("Mfd.Label." ++ p)) ++
  (spriteProperties.map fun p => craftProperty "prop-mfd-sprite" 1 ("Mfd.Sprite." ++ p)) ++
  (gaugeProperties.map fun p => craftProperty "prop-mfd-gauge" 1 ("Mfd.Gauge." ++ p)) ++
  [craftProperty "prop-mfd-texture-getpixel" 3 "Mfd.Texture.GetPixel",
   plain "Mfd.LocalToDisplay" "CraftProperty" 2
     [("property", "Mfd.LocaltoDisplay"), ("style", "prop-mfd-pos")],
   craftProperty "prop-mfd-pos" 2 "Mfd.DisplayToLocal"] ++
  (widgetEvents.map fun e => craftProperty "prop-mfd-event" 1 ("Mfd.Event." ++ e))

/-- Every builtin name in expressions. -/
def expressions : List Definition :=
  mathExpressions ++ vectorExpressions ++ stringExpressions ++ planetExpressions ++ listExpressions ++
    otherExpressions ++ propertyExpressions ++ displayExpressions

/-- The definition of a builtin name in an expression. -/
def expression? (name : String) : Option Definition := lookup? expressions name

/-- The present name of a property that older documents spell otherwise. -/
def presentName (property : String) : String :=
  if property == "Mfd.LocaltoDisplay" then "Mfd.LocalToDisplay" else property

end FlightScript.Catalog
