import FlightScript.CallFormat
import FlightScript.Catalog.Event
import FlightScript.Catalog.Expression
import FlightScript.Catalog.Instruction
import FlightScript.Failure
import FlightScript.Markup

/-!
# `Import` — the tree of a document

An element that is not known becomes a placeholder with its name, and so does one that is missing, without a
name. Only an element that needs an attribute for its meaning and lacks it leaves the document without a tree.
What an element does not need is not looked at.

## Contents

* `Import.expression`, `Import.statements`;
* `Import.block`, one handler, declaration or run of statements;
* `Element.tree`, the tree of a document.
-/

namespace FlightScript.Import

/-! ## Small parts -/

/-- What a part of an element becomes, with the name of the part. -/
structure Part where
  name : String
  node : Except Failure Node

namespace Part

/-- The first part, or a placeholder. -/
def first (parts : List Part) : Except Failure Node :=
  match parts with
  | p :: _ => p.node
  | [] => .ok .missing

/-- The part with a number, or a placeholder. -/
def at? (parts : List Part) (i : Nat) : Except Failure Node := first (parts.drop i)

/-- All parts in order. -/
def all : List Part → Except Failure (List Node)
  | [] => .ok []
  | p :: ps => do
    let n ← p.node
    let ns ← all ps
    return n :: ns

/-- All parts but blocks, in order. -/
def arguments (parts : List Part) : Except Failure (List Node) :=
  all (parts.filter fun p => p.name != "Instructions")

end Part

/-- A builtin name in an expression. -/
def builtin (name : String) (arguments : List Node) : Node :=
  .identifier ⟨name, none, .builtin, none⟩ arguments

/-- A builtin instruction. -/
def instruction (name : String) (arguments : List Node) : Node :=
  .instruction ⟨name, none, .builtin, none⟩ arguments

/-- The place of an element that is not known. -/
def unknownElement (name : String) : Node := .error (some name) none

/-- The text of an attribute, empty if it is missing. -/
def textOf (attributes : Attributes) (name : String) : String := (attributes.get? name).getD ""

/-- The constant of an element; a number counts before a truth value, a vector and a text. -/
def constant (attributes : Attributes) : Constant :=
  match attributes.get? "number", attributes.get? "bool", attributes.get? "vector" with
  | some v, _, _ => ⟨.number, v⟩
  | none, some v, _ => ⟨.bool, v⟩
  | none, none, some v => ⟨.vector, v⟩
  | none, none, none => ⟨.string, textOf attributes "text"⟩

/-! ## Expressions -/

/-- The name of an operation on texts. -/
def stringOperation (attributes : Attributes) : String :=
  match attributes.get? "subOp" with
  | some sub => "String." ++ textOf attributes "op" ++ "." ++ sub
  | none => "String." ++ textOf attributes "op"

/-- The functions of two numbers, which share an element with operators. -/
def binaryFunctions : List String := ["rand", "min", "max", "atan2"]

/-- Whether an operation takes any number of texts, which an empty text ends in a document. -/
def isVariadic (op : String) : Bool := op == "join" || op == "format"

/-- A required attribute. -/
def required (name element : String) (attributes : Attributes) (span : Span) : Except Failure String :=
  match attributes.get? name with
  | some v => .ok v
  | none => .error (.missingAttribute name element span)

/-- An operator between the first two parts. -/
def binary (op : String) (parts : List Part) : Except Failure Node := do
  let l ← Part.at? parts 0
  let r ← Part.at? parts 1
  return .binary op l r none

/-- The tree of an expression, from the name of its element, its attributes and its parts. -/
def expressionOf (name : String) (attributes : Attributes) (span : Span) (parts : List Part) :
    Except Failure Node :=
  match name with
  | "Constant" => .ok (.constant (constant attributes) none)
  | "MathFunction" => do
    return builtin ("Math." ++ textOf attributes "function") [← Part.first parts]
  | "Vector" => do return builtin "Vec" (← Part.all parts)
  | "Variable" =>
    .ok (.identifier ⟨textOf attributes "variableName", none,
      if attributes.get? "local" == some "true" then .local_ else .global, none⟩ [])
  | "BinaryOp" =>
    let op := (attributes.get? "op").getD "+"
    -- some of the operations are written as functions
    if binaryFunctions.contains op then do
      let l ← Part.at? parts 0
      let r ← Part.at? parts 1
      return builtin ("Math." ++ op) [l, r]
    else binary op parts
  | "BoolOp" => binary ((attributes.get? "op").getD "+") parts
  | "Comparison" => binary ((attributes.get? "op").getD "+") parts
  | "StringOp" => do
    let arguments ← Part.all parts
    return builtin (stringOperation attributes)
      (if isVariadic (textOf attributes "op") then arguments.dropLast else arguments)
  | "VectorOp" => do return builtin ("Vec." ++ textOf attributes "op") (← Part.all parts)
  | "ListOp" => do return builtin ("List." ++ textOf attributes "op") (← Part.all parts)
  | "Planet" => do return builtin ("Planet." ++ textOf attributes "op") (← Part.all parts)
  | "ActivationGroup" => do return builtin "AG.Get" (← Part.all parts)
  | "EvaluateExpression" => do return builtin "funk" [← Part.first parts]
  | "Not" => do return .unary "not" (← Part.first parts) none
  | "Conditional" => do
    let c ← Part.at? parts 0
    let t ← Part.at? parts 1
    let e ← Part.at? parts 2
    return .conditional c t e none
  | "CraftProperty" => do
    let property ← required "property" name attributes span
    return builtin (Catalog.presentName property) (← Part.all parts)
  | "CallCustomExpression" => do
    let call ← required "call" name attributes span
    return .identifier ⟨call, none, .expression, none⟩ (← Part.all parts)
  | _ => .ok (unknownElement name)

mutual

/-- The tree of an expression. -/
def expression : Element → Except Failure Node
  | ⟨name, attributes, children, span⟩ => expressionOf name attributes span (parts children)

/-- The elements in a list of children as expressions. -/
def parts : List (Child Element) → List Part
  | [] => []
  | .element e :: rest => ⟨e.name, expression e⟩ :: parts rest
  | .text .. :: rest => parts rest

end

/-! ## Statements -/

/-- The name of a builtin instruction whose arguments are all of its parts. -/
def instructionName? (name : String) (attributes : Attributes) : Option String :=
  let attr (key default : String) : String := (attributes.get? key).getD default
  match name with
  | "SetInput" => some ("Input.Set" ++ Text.upperFirst (attr "input" "slider1"))
  | "LockNavSphere" => some ("Nav.Lock" ++ attr "indicatorType" "None")
  | "SetCameraProperty" => some ("Camera." ++ Text.upperFirst (attr "property" "zoom"))
  | "SetCraftProperty" => some (attr "property" "Part.SetActivated")
  | "SetTargetHeading" =>
    some (((attributes.get? "property").bind Catalog.headingSetter?).getD "Nav.SetAutopilotHeading")
  | "SetList" => some ("List." ++ attr "op" "add")
  | "BroadcastMessage" =>
    some
      (match attributes.get? "style" with
        | some "broadcast-msg-craft" => "Broadcast.Craft"
        | some "broadcast-msg-all-crafts" => "Broadcast.Nearby"
        | _ => "Broadcast.This")
  | "SetTarget" => some "SetTarget"
  | "SetActivationGroup" => some "AG.Set"
  | "SwitchCraft" => some "Craft.Switch"
  | "LogMessage" => some "Log.Message"
  | "LogFlight" => some "Log.Flight"
  | "UserInput" => some "UserInput"
  | _ => none

/-- The text of a comment. -/
def commentText (children : List (Child Element)) : String :=
  (((Element.elementsOf children).find? fun e => e.name == "Constant").bind fun e => e.attr? "text").getD ""

/-- The tree of a statement without a block in it, from the name of its element, its attributes, its children
and its parts. -/
def simpleStatement (name : String) (attributes : Attributes) (children : List (Child Element))
    (parts : List Part) : Except Failure Node :=
  match name with
  | "SetVariable" => do
    let t ← Part.at? parts 0
    let v ← Part.at? parts 1
    return .assignment .set t v none
  | "ChangeVariable" => do
    let t ← Part.at? parts 0
    let v ← Part.at? parts 1
    return .assignment .change t v none
  | "WaitSeconds" => do return .wait .seconds (← Part.first parts) none
  | "WaitUntil" => do return .wait .condition (← Part.first parts) none
  | "Break" => .ok (.breakLoop none)
  | "Comment" => .ok (.comment (commentText children) none)
  | "CallCustomInstruction" => do
    return .instruction ⟨textOf attributes "call", none, .global, none⟩ (← Part.arguments parts)
  | "SetTimeMode" =>
    .ok (instruction ("SetTimeMode." ++ (attributes.get? "mode").getD "Normal") [])
  | "ActivateStage" => .ok (instruction "ActivateStage" [])
  | "DisplayMessage" => do return instruction "Display" [← Part.first parts]
  | _ =>
    match instructionName? name attributes with
    | some i => do return instruction i (← Part.arguments parts)
    | none => .ok (unknownElement name)

mutual

/-- The trees of the elements in a list of children. A condition takes what follows it as its alternative. -/
def statements : List (Child Element) → Except Failure (List Node)
  | [] => .ok []
  | .text .. :: rest => statements rest
  | .element ⟨name, attributes, children, _⟩ :: rest =>
    match name with
    | "If" => do
      let a ← alternative rest
      let c ← Part.first (parts children)
      let b ← body children
      let ns ← statements rest
      return .ifElse c b a none :: ns
    -- a condition in front of it has taken it; without one it is dropped
    | "ElseIf" => statements rest
    | "While" => do
      let c ← Part.first (parts children)
      let b ← body children
      let ns ← statements rest
      return .whileLoop c b none :: ns
    | "Repeat" => do
      let c ← Part.first (parts children)
      let b ← body children
      let ns ← statements rest
      return .repeatLoop c b none :: ns
    | "For" => do
      let f ← Part.at? (parts children) 0
      let l ← Part.at? (parts children) 1
      let t ← Part.at? (parts children) 2
      let b ← body children
      let ns ← statements rest
      return .forLoop ⟨(attributes.get? "var").getD "i", none, none⟩ f l t b :: ns
    | _ => do
      let n ← simpleStatement name attributes children (parts children)
      let ns ← statements rest
      return n :: ns

/-- The trees in the first block among the children of a construct. -/
def body : List (Child Element) → Except Failure (List Node)
  | [] => .ok []
  | .text .. :: rest => body rest
  | .element ⟨name, _, children, _⟩ :: rest =>
    if name = "Instructions" then statements children else body rest

/-- The alternative of a condition, from the children behind it. -/
def alternative : List (Child Element) → Except Failure (List Node)
  | [] => .ok []
  | .text .. :: rest => alternative rest
  | .element ⟨name, attributes, children, _⟩ :: rest =>
    if name = "ElseIf" then
      -- a block after `else` ends the chain, whatever follows it
      if attributes.get? "style" = some "else" then body children
      else do
        let a ← alternative rest
        let c ← Part.first (parts children)
        let b ← body children
        return [.ifElse c b a none]
    else .ok []

end

/-! ## Programs -/

/-- The head of a declaration. -/
def declarationHead (e : Element) : DeclarationHead :=
  ⟨Text.filled (e.attr? "pos"), (e.attr? "name").getD "", none,
    CallFormat.template? (e.attr? "name") (e.attr? "callFormat"),
    CallFormat.parameters ((e.attr? "format").getD ""), none, none⟩

/-- The head of a handler; it binds every parameter of its event. -/
def eventHead (e : Element) : EventHead :=
  let event := (e.attr? "event").getD ""
  ⟨Text.filled (e.attr? "pos"), event,
    if event = Catalog.messageEvent then Text.filled (e.first?.bind fun c => c.attr? "text") else none,
    ((Catalog.event? event).map EventDefinition.parameters).getD [], none, none, none⟩

/-- The first element in a list of children and the children behind it. -/
def split? : List (Child Element) → Option (Element × List (Child Element))
  | [] => none
  | .text .. :: rest => split? rest
  | .element e :: rest => some (e, rest)

/-- The tree of a block. Its first element says whether it is a handler, a declaration or neither; an empty
block has no tree. -/
def block (e : Element) : Except Failure (Option Node) :=
  match split? e.children with
  | none => .ok none
  | some (head, rest) =>
    match head.name with
    | "CustomInstruction" => do
      return some (.instructionDeclaration (declarationHead head) (← statements rest))
    | "Event" => do return some (.event (eventHead head) (← statements rest))
    | _ => do return some (.detached (Text.filled (head.attr? "pos")) (← statements e.children) none)

/-- The trees of blocks. -/
def blocks : List Element → Except Failure (List Node)
  | [] => .ok []
  | e :: es => do
    let b ← block e
    let bs ← blocks es
    return b.toList ++ bs

/-- The trees of declared expressions. -/
def expressionDeclarations : List Element → Except Failure (List Node)
  | [] => .ok []
  | e :: es => do
    let v ← Part.first (parts e.children)
    let ds ← expressionDeclarations es
    return .expressionDeclaration (declarationHead e) v :: ds

/-- A declared variable; one without a number is a list. -/
def variableDeclaration (e : Element) : VariableDeclaration :=
  ⟨(e.attr? "name").getD "", none, if (e.attr? "number").isSome then .value else .list, none⟩

/-- The elements with a name in an element that may be missing. -/
def elementsNamed (name : String) (e : Option Element) : List Element :=
  ((e.map Element.elements).getD []).filter fun c => c.name == name

/-- The tree of a program. -/
def program (root : Element) : Except Failure Node := do
  let bs ← blocks (elementsNamed "Instructions" (some root))
  let ds ← expressionDeclarations (elementsNamed "CustomExpression" (root.named? "Expressions"))
  return .program ((root.attr? "name").getD "")
    ((elementsNamed "Variable" (root.named? "Variables")).map variableDeclaration) (bs ++ ds) none

end FlightScript.Import

namespace FlightScript

/-- The tree of a document; a document of another kind has none. -/
def Element.tree (root : Element) : Except Failure (Option Node) :=
  if root.name = "Program" then do return some (← Import.program root) else .ok none

end FlightScript
