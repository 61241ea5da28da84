/-!
# `Catalog.Tables` — the words that builtin names are made of

Most builtin names come in families: a common beginning and one word of a table. A word that stands twice in
a table names the same thing twice.
-/

namespace FlightScript.Catalog

/-- Functions of one number. -/
def unaryFunctions : List String :=
  ["abs", "floor", "ceiling", "round", "sqrt", "sin", "cos", "tan", "asin", "acos", "atan", "ln",
   "log", "deg2rad", "rad2deg"]

/-- Functions of two numbers, with their styles. -/
def binaryFunctions : List (String × String) :=
  [("rand", "op-rand"), ("min", "op-min"), ("max", "op-max"), ("atan2", "op-atan-2")]

/-- Operations on one vector. -/
def vectorUnary : List String :=
  ["x", "y", "z", "length", "norm"]

/-- Operations on two vectors. -/
def vectorBinary : List String :=
  ["angle", "clamp", "cross", "dot", "dist", "min", "max", "project", "scale"]

/-- Quantities that can be written with their unit. -/
def friendlyFormats : List String :=
  ["distance", "pressure", "temperature", "velocity", "force", "mass", "density", "time"]

/-- Facts about a planet. -/
def planetFacts : List String :=
  ["mass", "radius", "hasTerrain", "atmosphereDensity", "atmosphereHeight", "soiradius",
   "solarPosition", "childPlanets", "crafts", "crafts", "craftids", "parent", "structures", "day",
   "year", "velocity", "apoapsis", "periapsis", "period", "apoapsistime", "periapsistime",
   "inclination", "eccentricity", "meananomaly", "meanmotion", "periapsisargument", "rightascension",
   "trueanomaly", "semimajoraxis", "semiminoraxis"]

/-- Conversions of a position on a planet, with their styles. -/
def planetPositions : List (String × String) :=
  [("toLatLongAgl", "planet-to-lat-long-agl"), ("toLatLongAsl", "planet-to-lat-long-asl"),
   ("toPosition", "planet-to-position"), ("toPositionOverSea", "planet-to-position-asl")]

/-- Questions about a list, with their numbers of arguments. -/
def listQueries : List (String × Nat) :=
  [("create", 1), ("get", 2), ("length", 1), ("index", 2)]

/-- Changes of a list, with their numbers of arguments. -/
def listChanges : List (String × Nat) :=
  [("add", 2), ("insert", 3), ("remove", 2), ("set", 3), ("clear", 1), ("sort", 1), ("reverse", 1)]

/-- The inputs of a craft. -/
def inputs : List String :=
  ["Roll", "Pitch", "Yaw", "Throttle", "Brake", "Slider1", "Slider2", "Slider3", "Slider4",
   "TranslateForward", "TranslateRight", "TranslateUp", "TranslationMode"]

/-- What can be set on the camera. -/
def cameraProperties : List String :=
  ["Zoom", "ModeIndex", "CameraIndex", "TiltX", "TiltY"]

/-- The speeds of time. -/
def timeModes : List String :=
  ["Paused", "SlowMotion", "Normal", "FastForward", "TimeWarp1", "TimeWarp2", "TimeWarp3", "TimeWarp4",
   "TimeWarp5", "TimeWarp6", "TimeWarp7", "TimeWarp8", "TimeWarp9", "TimeWarp10"]

/-- What the heading can be locked on without an argument. -/
def indicators : List String :=
  ["None", "Prograde", "Retrograde", "Target", "BurnNode", "Current"]

/-- Instructions that set a heading, with the property each one sets. -/
def headingSetters : List (String × String) :=
  [("Nav.SetAutopilotHeading", "heading"), ("Nav.SetAutopilotPitch", "pitch"),
   ("Misc.SetPidPitch", "pid-pitch"), ("Misc.SetPidRoll", "pid-roll")]

/-- Altitudes. -/
def altitudeProperties : List String :=
  ["Altitude.AGL", "Altitude.ASL", "Altitude.ASF"]

/-- Properties of the orbit. -/
def orbitProperties : List String :=
  ["Orbit.Apoapsis", "Orbit.Periapsis", "Orbit.TimeToApoapsis", "Orbit.TimeToPeriapsis",
   "Orbit.Eccentricity", "Orbit.Inclination", "Orbit.Period"]

/-- Properties of the air. -/
def atmosphereProperties : List String :=
  ["Atmosphere.AirDensity", "Atmosphere.AirPressure", "Atmosphere.SpeedOfSound",
   "Atmosphere.Temperature"]

/-- Masses and thrusts. -/
def performanceProperties : List String :=
  ["Performance.CurrentEngineThrust", "Performance.Mass", "Performance.DryMass",
   "Performance.FuelMass", "Performance.MaxActiveEngineThrust", "Performance.TWR",
   "Performance.CurrentIsp", "Performance.StageDeltaV", "Performance.BurnTime"]

/-- What is left in the tanks. -/
def fuelProperties : List String :=
  ["Fuel.Battery", "Fuel.FuelInStage", "Fuel.Mono", "Fuel.AllStages"]

/-- Positions and directions. -/
def navigationProperties : List String :=
  ["Nav.Position", "Target.Position", "Nav.CraftHeading", "Nav.Pitch", "Nav.AutopilotHeading",
   "Nav.AutopilotPitch", "Nav.BankAngle", "Nav.AngleOfAttack", "Nav.SideSlip", "Nav.North", "Nav.East",
   "Nav.CraftDirection", "Nav.CraftRight", "Nav.CraftUp"]

/-- Velocities and accelerations. -/
def velocityProperties : List String :=
  ["Vel.SurfaceVelocity", "Vel.OrbitVelocity", "Target.Velocity", "Vel.Gravity", "Vel.Drag",
   "Vel.Acceleration", "Vel.AngularVelocity", "Vel.LateralSurfaceVelocity",
   "Vel.VerticalSurfaceVelocity", "Vel.MachNumber"]

/-- Other properties of the craft. -/
def miscProperties : List String :=
  ["Misc.Stage", "Misc.NumStages", "Misc.Grounded", "Misc.SolarRadiation", "Misc.CameraPosition",
   "Misc.CameraPointing", "Misc.CameraUp", "Misc.PidPitch", "Misc.PidRoll"]

/-- Times. -/
def timeProperties : List String :=
  ["Time.FrameDeltaTime", "Time.TimeSinceLaunch", "Time.TotalTime", "Time.WarpAmount", "Time.RealTime"]

/-- Names. -/
def nameProperties : List String :=
  ["Name.Craft", "Orbit.Planet", "Target.Name", "Target.Planet"]

/-- Questions about the ground. -/
def terrainProperties : List String :=
  ["Terrain.Color", "Terrain.Height"]

/-- Questions about a part. -/
def partProperties : List String :=
  ["Part.IDToName", "Part.Mass", "Part.DryMass", "Part.WetMass", "Part.Activated", "Part.PartType",
   "Part.Position", "Part.Temperature", "Part.Drag", "Part.ThisID", "Part.MinID", "Part.MaxID",
   "Part.UnderWater"]

/-- Questions about another craft. -/
def craftProperties : List String :=
  ["Craft.Altitude", "Craft.Destroyed", "Craft.Grounded", "Craft.Mass", "Craft.IDToName",
   "Craft.PartCount", "Craft.Planet", "Craft.Position", "Craft.Velocity", "Craft.IsPlayer",
   "Craft.BoundMin", "Craft.BoundMax", "Craft.Apoapsis", "Craft.Periapsis", "Craft.Period",
   "Craft.ApoapsisTime", "Craft.PeriapsisTime", "Craft.Inclination", "Craft.Eccentricity",
   "Craft.MeanAnomaly", "Craft.MeanMotion", "Craft.PeriapsisArgument", "Craft.RightAscension",
   "Craft.TrueAnomaly", "Craft.SemiMajorAxis", "Craft.SemiMinorAxis"]

/-- What can be set on a part. -/
def partSetters : List String :=
  ["Part.SetActivated", "Part.SetFocused", "Part.SetName", "Part.SetExplode", "Part.FuelTransfer"]

/-- Kinds of widgets of a display. -/
def widgetTypes : List String :=
  ["Ellipse", "Label", "Line", "RadialGauge", "Rectangle", "Texture", "Navball", "Map"]

/-- Properties of every widget. -/
def widgetProperties : List String :=
  ["AnchoredPosition", "AnchorMin", "AnchorMax", "Color", "Opacity", "Parent", "Pivot", "Position",
   "Rotation", "Scale", "Size", "Visible"]

/-- Places to anchor a widget at. -/
def anchorPositions : List String :=
  ["Left", "Center", "Right", "TopLeft", "TopCenter", "TopRight", "BottomLeft", "BottomCenter",
   "BottomRight"]

/-- Properties of a label that can be set. -/
def labelProperties : List String :=
  ["Text", "FontSize", "AutoSize"]

/-- Properties of a picture. -/
def spriteProperties : List String :=
  ["FillMethod", "Icon", "FillAmount"]

/-- Properties of a gauge. -/
def gaugeProperties : List String :=
  ["BackgroundColor", "FillColor", "Text", "TextColor", "Value"]

/-- Instructions on a line. -/
def lineInstructions : List String :=
  ["SetThickness", "SetLength"]

/-- Instructions on a navigation ball. -/
def navballInstructions : List String :=
  ["TopColor", "BottomColor"]

/-- Instructions on a map. -/
def mapInstructions : List String :=
  ["NorthUp", "Zoom", "ManualMode", "PlanetName", "Coordinates", "Heading"]

/-- Events of a widget. -/
def widgetEvents : List String :=
  ["Drag", "PointerDown", "PointerUp", "PointerClick"]

/-- The instruction that sets a heading property. -/
def headingSetter? (property : String) : Option String :=
  (headingSetters.find? fun s => s.2 == property).map Prod.fst

end FlightScript.Catalog
