import FlightScript.Location
import FlightScript.Operator

/-!
# `Node` — programs as trees

A program as it is meant, whether it came from a text or from a document. One type holds every kind of node,
so that a tree may be incomplete or odd and still be printed, resolved and looked at. What a node knows about
the text it came from, and the local names that resolution writes down, is metadata: `Node.clearMetadata`
forgets it.

## Contents

* the kinds of identifiers, instructions, waits, variables and constants;
* the heads: the parts of a node that are no nodes themselves;
* `Node`, `Node.kindName`, `Node.loc`;
* `Node.walk`, `Node.containsError`, `Node.clearMetadata`.
-/

namespace FlightScript

/-! ## Kinds -/

/-- Whether a variable holds one value or a list. -/
inductive VariableKind where
  | value | list
deriving DecidableEq, Repr

/-- What an identifier in an expression refers to, once that is known. -/
inductive IdentifierKind where
  | unknown | invalid | builtin | expression | global | local_
deriving DecidableEq, Repr

/-- What an instruction refers to, once that is known. -/
inductive InstructionKind where
  | unknown | invalid | builtin | global
deriving DecidableEq, Repr

/-- Whether a wait is for a time or for a condition. -/
inductive WaitKind where
  | seconds | condition
deriving DecidableEq, Repr

/-- The type of a constant. -/
inductive ConstantKind where
  | number | string | bool | vector
deriving DecidableEq, Repr

/-- A constant: its type and its text. -/
structure Constant where
  kind : ConstantKind
  value : String
deriving DecidableEq, Repr

namespace Constant

/-- A number, by its text. -/
def number (value : String) : Constant := ⟨.number, value⟩

/-- A text. -/
def string (value : String) : Constant := ⟨.string, value⟩

end Constant

/-! ## Heads -/

/-- A declared variable. -/
structure VariableDeclaration where
  name : String
  nameLoc : Option Span
  kind : VariableKind
  loc : Option Span
deriving DecidableEq, Repr

/-- What a declared instruction or expression has besides its body. -/
structure DeclarationHead where
  pos : Option String
  name : String
  nameLoc : Option Span
  /-- The author's template for calls, in which `_` stands for a parameter. -/
  callFormat : Option String
  parameters : List String
  locals : Option (List String)
  loc : Option Span
deriving DecidableEq, Repr

/-- What an event handler has besides its body. -/
structure EventHead where
  pos : Option String
  event : String
  /-- The message that a handler of messages waits for. -/
  filter : Option String
  parameters : List String
  parametersLoc : Option Span
  locals : Option (List String)
  loc : Option Span
deriving DecidableEq, Repr

/-- What a counting loop has besides its bounds and its body. -/
structure ForHead where
  var : String
  locals : Option (List String)
  loc : Option Span
deriving DecidableEq, Repr

/-- A use of a name. -/
structure Use (Kind : Type) where
  name : String
  nameLoc : Option Span
  kind : Kind
  loc : Option Span
deriving DecidableEq, Repr

/-! ## Nodes -/

/-- A node of a program tree. -/
inductive Node where
  | error (message : Option String) (loc : Option Span)
  | program (name : String) (globals : List VariableDeclaration) (body : List Node) (loc : Option Span)
  | variableDeclaration (declaration : VariableDeclaration)
  | instructionDeclaration (head : DeclarationHead) (body : List Node)
  | expressionDeclaration (head : DeclarationHead) (value : Node)
  | event (head : EventHead) (body : List Node)
  | detached (pos : Option String) (body : List Node) (loc : Option Span)
  | instruction (use : Use InstructionKind) (arguments : List Node)
  | assignment (operator : AssignOperator) (target value : Node) (loc : Option Span)
  | comment (text : String) (loc : Option Span)
  | wait (kind : WaitKind) (condition : Node) (loc : Option Span)
  | ifElse (condition : Node) (consequent alternative : List Node) (loc : Option Span)
  | whileLoop (condition : Node) (body : List Node) (loc : Option Span)
  | forLoop (head : ForHead) (first last step : Node) (body : List Node)
  | breakLoop (loc : Option Span)
  | repeatLoop (count : Node) (body : List Node) (loc : Option Span)
  | identifier (use : Use IdentifierKind) (arguments : List Node)
  | constant (value : Constant) (loc : Option Span)
  | binary (op : String) (lhs rhs : Node) (loc : Option Span)
  | unary (op : String) (operand : Node) (loc : Option Span)
  | conditional (condition consequent alternative : Node) (loc : Option Span)

namespace Node

/-- The place of something that could not be read. -/
def missing : Node := .error none none

/-- A number that stands in no text. -/
def number (value : String) : Node := .constant (.number value) none

/-- The name of the kind of a node. -/
def kindName : Node → String
  | error .. => "Error"
  | program .. => "Program"
  | variableDeclaration .. => "VariableDeclaration"
  | instructionDeclaration .. => "InstructionDeclaration"
  | expressionDeclaration .. => "ExpressionDeclaration"
  | event .. => "Event"
  | detached .. => "Detached"
  | instruction .. => "Instruction"
  | assignment .. => "Assignment"
  | comment .. => "Comment"
  | wait .. => "Wait"
  | ifElse .. => "If"
  | whileLoop .. => "While"
  | forLoop .. => "For"
  | breakLoop .. => "Break"
  | repeatLoop .. => "Repeat"
  | identifier .. => "Identifier"
  | constant .. => "Literal"
  | binary .. => "BinaryOp"
  | unary .. => "UnaryOp"
  | conditional .. => "Conditional"

/-- The place of a node in its text, if it has one. -/
def loc : Node → Option Span
  | error _ loc => loc
  | program _ _ _ loc => loc
  | variableDeclaration d => d.loc
  | instructionDeclaration head _ => head.loc
  | expressionDeclaration head _ => head.loc
  | event head _ => head.loc
  | detached _ _ loc => loc
  | instruction use _ => use.loc
  | assignment _ _ _ loc => loc
  | comment _ loc => loc
  | wait _ _ loc => loc
  | ifElse _ _ _ loc => loc
  | whileLoop _ _ loc => loc
  | forLoop head _ _ _ _ => head.loc
  | breakLoop loc => loc
  | repeatLoop _ _ loc => loc
  | identifier use _ => use.loc
  | constant _ loc => loc
  | binary _ _ _ loc => loc
  | unary _ _ loc => loc
  | conditional _ _ _ loc => loc

/-- Whether a node is a chain of conditions. -/
def isIfElse : Node → Bool
  | ifElse .. => true
  | _ => false

/-- Whether a node is an identifier. -/
def isIdentifier : Node → Bool
  | identifier .. => true
  | _ => false

/-- Whether a node is the constant with this text, of whatever type. -/
def isConstant (value : String) : Node → Bool
  | constant c _ => c.value == value
  | _ => false

/-- Whether a node is a placeholder. -/
def isError : Node → Bool
  | error .. => true
  | _ => false

/-! ## Traversal -/

mutual

/-- A node and all nodes below it, each before those below it. -/
def walk : Node → List Node
  | n@(error ..) => [n]
  | n@(variableDeclaration _) => [n]
  | n@(comment ..) => [n]
  | n@(breakLoop _) => [n]
  | n@(constant ..) => [n]
  | n@(program _ _ body _) => n :: walkAll body
  | n@(instructionDeclaration _ body) => n :: walkAll body
  | n@(expressionDeclaration _ value) => n :: walk value
  | n@(event _ body) => n :: walkAll body
  | n@(detached _ body _) => n :: walkAll body
  | n@(instruction _ arguments) => n :: walkAll arguments
  | n@(assignment _ target value _) => n :: (walk target ++ walk value)
  | n@(wait _ condition _) => n :: walk condition
  | n@(ifElse condition consequent alternative _) =>
    n :: (walk condition ++ walkAll consequent ++ walkAll alternative)
  | n@(whileLoop condition body _) => n :: (walk condition ++ walkAll body)
  | n@(forLoop _ first last step body) => n :: (walk first ++ walk last ++ walk step ++ walkAll body)
  | n@(repeatLoop count body _) => n :: (walk count ++ walkAll body)
  | n@(identifier _ arguments) => n :: walkAll arguments
  | n@(binary _ lhs rhs _) => n :: (walk lhs ++ walk rhs)
  | n@(unary _ operand _) => n :: walk operand
  | n@(conditional condition consequent alternative _) =>
    n :: (walk condition ++ walk consequent ++ walk alternative)

/-- The nodes of several trees, one tree after another. -/
def walkAll : List Node → List Node
  | [] => []
  | n :: ns => walk n ++ walkAll ns

end

/-- Whether a placeholder stands anywhere in a tree. -/
def containsError (n : Node) : Bool := n.walk.any isError

end Node

/-! ## Metadata -/

/-- A declared variable without its places. -/
def VariableDeclaration.clearMetadata (d : VariableDeclaration) : VariableDeclaration :=
  { d with nameLoc := none, loc := none }

/-- A declaration without its places and local names. -/
def DeclarationHead.clearMetadata (h : DeclarationHead) : DeclarationHead :=
  { h with nameLoc := none, locals := none, loc := none }

/-- An event handler without its places and local names. -/
def EventHead.clearMetadata (h : EventHead) : EventHead :=
  { h with parametersLoc := none, locals := none, loc := none }

/-- A counting loop without its place and local names. -/
def ForHead.clearMetadata (h : ForHead) : ForHead := { h with locals := none, loc := none }

/-- A use of a name without its places. -/
def Use.clearMetadata {Kind : Type} (u : Use Kind) : Use Kind := { u with nameLoc := none, loc := none }

namespace Node

mutual

/-- A tree without the places it came from and the local names written down in it. -/
def clearMetadata : Node → Node
  | error message _ => .error message none
  | program name globals body _ =>
    .program name (globals.map VariableDeclaration.clearMetadata) (clearMetadataAll body) none
  | variableDeclaration d => .variableDeclaration d.clearMetadata
  | instructionDeclaration head body => .instructionDeclaration head.clearMetadata (clearMetadataAll body)
  | expressionDeclaration head value => .expressionDeclaration head.clearMetadata (clearMetadata value)
  | event head body => .event head.clearMetadata (clearMetadataAll body)
  | detached pos body _ => .detached pos (clearMetadataAll body) none
  | instruction use arguments => .instruction use.clearMetadata (clearMetadataAll arguments)
  | assignment operator target value _ =>
    .assignment operator (clearMetadata target) (clearMetadata value) none
  | comment text _ => .comment text none
  | wait kind condition _ => .wait kind (clearMetadata condition) none
  | ifElse condition consequent alternative _ =>
    .ifElse (clearMetadata condition) (clearMetadataAll consequent) (clearMetadataAll alternative) none
  | whileLoop condition body _ => .whileLoop (clearMetadata condition) (clearMetadataAll body) none
  | forLoop head first last step body =>
    .forLoop head.clearMetadata (clearMetadata first) (clearMetadata last) (clearMetadata step)
      (clearMetadataAll body)
  | breakLoop _ => .breakLoop none
  | repeatLoop count body _ => .repeatLoop (clearMetadata count) (clearMetadataAll body) none
  | identifier use arguments => .identifier use.clearMetadata (clearMetadataAll arguments)
  | constant value _ => .constant value none
  | binary op lhs rhs _ => .binary op (clearMetadata lhs) (clearMetadata rhs) none
  | unary op operand _ => .unary op (clearMetadata operand) none
  | conditional condition consequent alternative _ =>
    .conditional (clearMetadata condition) (clearMetadata consequent) (clearMetadata alternative) none

/-- Several trees without metadata. -/
def clearMetadataAll : List Node → List Node
  | [] => []
  | n :: ns => clearMetadata n :: clearMetadataAll ns

end

/-- Trees are cleared one by one. -/
@[simp] theorem clearMetadataAll_eq_map (ns : List Node) : clearMetadataAll ns = ns.map clearMetadata := by
  induction ns with
  | nil => rfl
  | cons n ns ih => rw [clearMetadataAll, ih, List.map_cons]

/-- The nodes of several trees are those of each in turn. -/
@[simp] theorem walkAll_eq_flatMap (ns : List Node) : walkAll ns = ns.flatMap walk := by
  induction ns with
  | nil => rfl
  | cons n ns ih => rw [walkAll, ih, List.flatMap_cons]

end Node

end FlightScript
