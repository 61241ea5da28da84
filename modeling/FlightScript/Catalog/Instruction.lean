import FlightScript.Catalog.Definition
import FlightScript.Catalog.Tables
import FlightScript.Text.LetterCase

/-!
# `Catalog.Instruction` — builtin instructions

The definitions of every builtin instruction, family by family.

## Contents

* one list of definitions for each family;
* `Catalog.instructions`, all of them, and `Catalog.instruction?`.
-/

namespace FlightScript.Catalog

open Definition

/-- An instruction that sets a property, named by its own attribute. -/
def propertySetter (style : String) (arity : Nat) (name : String) : Definition :=
  plain name "SetCraftProperty" arity [("property", name), ("style", style)]

/-- Stages, targets, groups and inputs. -/
def basicInstructions : List Definition :=
  [plain "ActivateStage" "ActivateStage" 0 [("style", "activate-stage")],
   plain "SetTarget" "SetTarget" 1 [("style", "set-target")],
   plain "AG.Set" "SetActivationGroup" 2 [("style", "set-ag")],
   plain "Craft.Switch" "SwitchCraft" 1 [("style", "switch-craft")],
   propertySetter "play-beep" 3 "Sound.Beep",
   plain "UserInput" "UserInput" 2 [("style", "user-input")]] ++
  (inputs.map fun input =>
    plain ("Input.Set" ++ input) "SetInput" 1 [("input", Text.lowerFirst input), ("style", "set-input")])

/-- Headings and the speed of time. -/
def navigationInstructions : List Definition :=
  (indicators.map fun indicator =>
    plain ("Nav.Lock" ++ indicator) "LockNavSphere" 0
      [("indicatorType", indicator), ("style", "lock-nav-sphere")]) ++
  [plain "Nav.LockVector" "LockNavSphere" 1
    [("indicatorType", "Vector"), ("style", "lock-nav-sphere-vector")]] ++
  (headingSetters.map fun s =>
    plain s.1 "SetTargetHeading" 1 [("property", s.2), ("style", "set-heading")]) ++
  (timeModes.map fun mode =>
    plain ("SetTimeMode." ++ mode) "SetTimeMode" 0 [("mode", mode), ("style", "set-time-mode")])

/-- What is shown and logged, and the camera. A shown message stays for seven seconds. -/
def outputInstructions : List Definition :=
  [⟨"Display", "DisplayMessage", .ofList [("style", "display")], [.number "7"], .exactly 1⟩,
   plain "Log.Message" "LogMessage" 1 [("style", "log")],
   plain "Log.Flight" "LogFlight" 2 [("style", "flightlog")]] ++
  (cameraProperties.map fun property =>
    plain ("Camera." ++ property) "SetCameraProperty" 1
      [("property", Text.lowerFirst property), ("style", "set-camera")])

/-- Parts and lists. -/
def partInstructions : List Definition :=
  partSetters.map (propertySetter "set-part" 2) ++
  (listChanges.map fun op =>
    plain ("List." ++ op.1) "SetList" op.2 [("op", op.1), ("style", "list-op")])

/-- A message to some receivers. -/
def broadcast (name isGlobal isLocal style : String) : Definition :=
  plain name "BroadcastMessage" 2 [("global", isGlobal), ("local", isLocal), ("style", style)]

/-- Messages. -/
def broadcastInstructions : List Definition :=
  [broadcast "Broadcast.This" "false" "true" "broadcast-msg",
   broadcast "Broadcast.Craft" "false" "false" "broadcast-msg-craft",
   broadcast "Broadcast.Nearby" "true" "true" "broadcast-msg-all-crafts"]

/-- Displays. -/
def displayInstructions : List Definition :=
  (widgetTypes.map fun t => propertySetter "create-mfd-widget" 1 ("Mfd.Create." ++ t)) ++
  (widgetProperties.map fun p => propertySetter "set-mfd-widget" 2 ("Mfd.Set" ++ p)) ++
  (anchorPositions.flatMap fun a =>
    [propertySetter "set-mfd-anchor" 1 ("Mfd.Widget.SetAnchor." ++ a),
     propertySetter "set-mfd-alignment" 1 ("Mfd.Label.SetAlignment." ++ a)]) ++
  [propertySetter "set-mfd-texture-initialize" 3 "Mfd.Texture.Initialize",
   propertySetter "set-mfd-texture-setpixel" 4 "Mfd.Texture.SetPixel"] ++
  (labelProperties.map fun p => propertySetter "set-mfd-label" 2 ("Mfd.Label.Set" ++ p)) ++
  (spriteProperties.map fun p => propertySetter "set-mfd-sprite" 2 ("Mfd.Sprite.Set" ++ p)) ++
  (gaugeProperties.map fun p => propertySetter "set-mfd-gauge" 2 ("Mfd.Gauge.Set" ++ p)) ++
  (lineInstructions.map fun i => propertySetter "set-mfd-line" 2 ("Mfd.Line." ++ i)) ++
  [propertySetter "set-mfd-line-points" 3 "Mfd.Line.SetLinePoints"] ++
  (navballInstructions.map fun i => propertySetter "set-mfd-navball" 2 ("Mfd.Navball." ++ i)) ++
  (mapInstructions.map fun i => propertySetter "set-mfd-map" 2 ("Mfd.Map." ++ i)) ++
  [propertySetter "set-mfd-order-front" 2 "Mfd.Order.SendToFront",
   propertySetter "set-mfd-order-back" 2 "Mfd.Order.SendToBack"] ++
  (widgetEvents.map fun e => propertySetter "set-mfd-event" 3 ("Mfd.Event.Set" ++ e)) ++
  [propertySetter "destroy-mfd-widget" 1 "Mfd.Destroy",
   propertySetter "destroy-all-mfd-widgets" 0 "Mfd.Destroy.All"]

/-- Every builtin instruction. -/
def instructions : List Definition :=
  basicInstructions ++ navigationInstructions ++ outputInstructions ++ partInstructions ++
    broadcastInstructions ++ displayInstructions

/-- The definition of a builtin instruction. -/
def instruction? (name : String) : Option Definition := lookup? instructions name

end FlightScript.Catalog
