import FlightScript.Catalog.Event
import FlightScript.Problem
import FlightScript.Scope

/-!
# `Resolution` — what the names of a tree refer to

Resolving gives every use of a name whose kind is unknown its kind, and writes down the local names of every
construct that binds some. Kinds that are known already stay. Independently of that, each use is checked
against its definition; what is wrong with it is a complaint.

A program declares its names for all of its body, and for everything that comes after it in a tree.

## Contents

* `Scope.after`, the scope behind a tree;
* `Node.resolve`;
* `Complaint` and `Node.complaints`;
* `Node.resolved`, `Node.problems`: both for a whole tree.
-/

namespace FlightScript

/-! ## Scopes behind trees -/

/-- What is declared once a node has been met. -/
def Globals.meet (g : Globals) : Node → Globals
  | .program _ vars body _ => .ofProgram vars body
  | _ => g

namespace Scope

/-- The scope behind a tree: the last program in it has declared its names. -/
def after (s : Scope) (n : Node) : Scope := { s with globals := n.walk.foldl Globals.meet s.globals }

/-- The scope behind several trees. -/
def afterAll (s : Scope) (ns : List Node) : Scope := ns.foldl after s

/-- The scope in the body of a program. -/
def within (s : Scope) (vars : List VariableDeclaration) (body : List Node) : Scope :=
  { s with globals := .ofProgram vars body }

/-- A use of a name in an expression with its kind. -/
def resolveIdentifier (s : Scope) (u : Use IdentifierKind) (arguments : Nat) : Use IdentifierKind :=
  if u.kind = .unknown then { u with kind := s.identifierKind u.name arguments } else u

/-- A use of an instruction with its kind. -/
def resolveInstruction (s : Scope) (u : Use InstructionKind) : Use InstructionKind :=
  if u.kind = .unknown then { u with kind := s.instructionKind u.name } else u

end Scope

/-! ## Resolving -/

namespace Node

mutual

/-- A tree with the kinds of its names and the local names of its constructs. The bounds of a counting loop
do not see its variable. -/
def resolve (s : Scope) : Node → Node
  | n@(error ..) => n
  | n@(variableDeclaration _) => n
  | n@(comment ..) => n
  | n@(breakLoop _) => n
  | n@(constant ..) => n
  | program name vars body loc =>
    .program name vars (resolveAll (s.within vars body) body) loc
  | instructionDeclaration head body =>
    .instructionDeclaration { head with locals := some (Scope.frame head.parameters) }
      (resolveAll (s.push head.parameters) body)
  | expressionDeclaration head value =>
    .expressionDeclaration { head with locals := some (Scope.frame head.parameters) }
      (resolve (s.push head.parameters) value)
  | event head body =>
    .event { head with locals := some (Scope.frame head.parameters) }
      (resolveAll (s.push head.parameters) body)
  | detached pos body loc => .detached pos (resolveAll s body) loc
  | instruction use arguments => .instruction (s.resolveInstruction use) (resolveAll s arguments)
  -- a program inside the first part would declare its names for the second one
  | assignment operator target value loc =>
    .assignment operator (resolve s target) (resolve (s.after target) value) loc
  | wait kind condition loc => .wait kind (resolve s condition) loc
  | ifElse condition consequent alternative loc =>
    let s₁ := s.after condition
    .ifElse (resolve s condition) (resolveAll s₁ consequent)
      (resolveAll (s₁.afterAll consequent) alternative) loc
  | whileLoop condition body loc => .whileLoop (resolve s condition) (resolveAll (s.after condition) body) loc
  | forLoop head first last step body =>
    let s₁ := s.after first
    let s₂ := s₁.after last
    .forLoop { head with locals := some (Scope.frame [head.var]) } (resolve s first) (resolve s₁ last)
      (resolve s₂ step) (resolveAll ((s₂.after step).push [head.var]) body)
  | repeatLoop count body loc => .repeatLoop (resolve s count) (resolveAll (s.after count) body) loc
  | identifier use arguments =>
    .identifier (s.resolveIdentifier use arguments.length) (resolveAll s arguments)
  | binary op lhs rhs loc => .binary op (resolve s lhs) (resolve (s.after lhs) rhs) loc
  | unary op operand loc => .unary op (resolve s operand) loc
  | conditional condition consequent alternative loc =>
    let s₁ := s.after condition
    .conditional (resolve s condition) (resolve s₁ consequent)
      (resolve (s₁.after consequent) alternative) loc

/-- Several trees, one after another. -/
def resolveAll (s : Scope) : List Node → List Node
  | [] => []
  | n :: ns => resolve s n :: resolveAll (s.after n) ns

end

end Node

/-! ## Complaints -/

/-- What is wrong with a use of a name. -/
inductive Complaint where
  /-- A handler names a parameter that its event does not bind. -/
  | unknownParameter (parameter event : String) (options : List String)
  /-- There is no such event. -/
  | unknownEvent (event : String)
  /-- A name is used with another number of arguments than it takes. -/
  | argumentCount (name : String) (given : Nat) (arity : Arity)
  /-- A name has no definition. -/
  | unknownName (name : String)
  /-- A local variable is used with arguments. -/
  | notCallable (name : String)
deriving DecidableEq, Repr

namespace Complaint

/-- The words for a complaint. -/
def message : Complaint → String
  | unknownParameter parameter event options =>
    parameter ++ " is not a valid parameter for event " ++ event ++ ". Valid options are [" ++
      ", ".intercalate options ++ "]"
  | unknownEvent event => "Unknown event '" ++ event ++ "'"
  | argumentCount name given arity =>
    "'" ++ name ++ "' has " ++ toString given ++ " out of " ++ arity.display ++ " expected arguments"
  | unknownName name => "Unknown identifier '" ++ name ++ "'"
  | notCallable name => "Variable '" ++ name ++ "' is not callable"

/-- A complaint about a place. -/
def post (c : Complaint) (loc : Option Span) : Problem := .error c.message loc

/-- Complaints about a use of a name with this definition. -/
def ofUse {Kind : Type} (u : Use Kind) (arguments : Nat) : Option Definition → List Problem
  | some d => if d.arity.accepts arguments then [] else [post (.argumentCount u.name arguments d.arity) u.loc]
  | none => [post (.unknownName u.name) (u.nameLoc <|> u.loc)]

/-- Complaints about the head of a handler. -/
def ofEvent (h : EventHead) : List Problem :=
  match Catalog.event? h.event with
  | some d =>
    (h.parameters.filter fun p => !d.parameters.contains p).map fun p =>
      post (.unknownParameter p h.event d.parameters) (h.parametersLoc <|> h.loc)
  | none => [post (.unknownEvent h.event) h.loc]

end Complaint

namespace Scope

/-- Complaints about a resolved name in an expression. A name that is marked as local is not looked up, but
one that is bound here takes no arguments. -/
def identifierComplaints (s : Scope) (u : Use IdentifierKind) (arguments : Nat) : List Problem :=
  if u.kind = .local_ then
    if arguments != 0 && s.isLocal u.name then [Complaint.post (.notCallable u.name) u.loc] else []
  else Complaint.ofUse u arguments (s.identifier? u.name u.kind)

/-- Complaints about a resolved instruction. -/
def instructionComplaints (s : Scope) (u : Use InstructionKind) (arguments : Nat) : List Problem :=
  Complaint.ofUse u arguments (s.instruction? u.name u.kind)

end Scope

namespace Node

mutual

/-- Complaints about a tree, each node before those below it. -/
def complaints (s : Scope) : Node → List Problem
  | error .. => []
  | variableDeclaration _ => []
  | comment .. => []
  | breakLoop _ => []
  | constant .. => []
  | program _ vars body _ => complaintsAll (s.within vars body) body
  | instructionDeclaration head body => complaintsAll (s.push head.parameters) body
  | expressionDeclaration head value => complaints (s.push head.parameters) value
  | event head body => Complaint.ofEvent head ++ complaintsAll (s.push head.parameters) body
  | detached _ body _ => complaintsAll s body
  | instruction use arguments =>
    s.instructionComplaints (s.resolveInstruction use) arguments.length ++ complaintsAll s arguments
  | assignment _ target value _ => complaints s target ++ complaints (s.after target) value
  | wait _ condition _ => complaints s condition
  | ifElse condition consequent alternative _ =>
    let s₁ := s.after condition
    complaints s condition ++ complaintsAll s₁ consequent ++
      complaintsAll (s₁.afterAll consequent) alternative
  | whileLoop condition body _ => complaints s condition ++ complaintsAll (s.after condition) body
  | forLoop head first last step body =>
    let s₁ := s.after first
    let s₂ := s₁.after last
    complaints s first ++ complaints s₁ last ++ complaints s₂ step ++
      complaintsAll ((s₂.after step).push [head.var]) body
  | repeatLoop count body _ => complaints s count ++ complaintsAll (s.after count) body
  | identifier use arguments =>
    s.identifierComplaints (s.resolveIdentifier use arguments.length) arguments.length ++
      complaintsAll s arguments
  | binary _ lhs rhs _ => complaints s lhs ++ complaints (s.after lhs) rhs
  | unary _ operand _ => complaints s operand
  | conditional condition consequent alternative _ =>
    let s₁ := s.after condition
    complaints s condition ++ complaints s₁ consequent ++ complaints (s₁.after consequent) alternative

/-- Complaints about several trees, one after another. -/
def complaintsAll (s : Scope) : List Node → List Problem
  | [] => []
  | n :: ns => complaints s n ++ complaintsAll (s.after n) ns

end

/-! ## Whole trees -/

/-- A tree with nothing around it, resolved. -/
def resolved (n : Node) : Node := n.resolve {}

/-- The complaints about a tree with nothing around it. -/
def problems (n : Node) : List Problem := n.complaints {}

end Node

end FlightScript
