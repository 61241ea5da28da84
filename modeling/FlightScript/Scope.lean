import FlightScript.Catalog.Expression
import FlightScript.Catalog.Instruction

/-!
# `Scope` — which names are known at a place

A name is known because the catalog has it, because the program declares it, or because a construct around
the place binds it. Binding constructs nest, and each adds a frame of names.

## Contents

* `Globals`, what a program declares, and `Globals.ofProgram`;
* `Scope`, with `Scope.push` and `Scope.isLocal`;
* `Scope.identifier?`, `Scope.instruction?`: the definition of a name of a known kind;
* `Scope.identifierKind`, `Scope.instructionKind`: the kind of a name by where it is known.
-/

namespace FlightScript

/-! ## What a program declares -/

/-- The definitions of what a program declares. -/
structure Globals where
  vars : NameMap Definition := .empty
  instructions : NameMap Definition := .empty
  expressions : NameMap Definition := .empty

namespace Globals

/-- The definition of a declared variable. -/
def ofVariable (d : VariableDeclaration) : Definition :=
  .plain d.name "Variable" 0
    [("list", match d.kind with | .list => "true" | .value => "false"), ("local", "false"),
     ("variableName", d.name)]

/-- The definition of a declared instruction. -/
def ofInstruction (h : DeclarationHead) : Definition :=
  .plain h.name "CallCustomInstruction" h.parameters.length
    [("call", h.name), ("style", "call-custom-instruction")]

/-- The definition of a declared expression. -/
def ofExpression (h : DeclarationHead) : Definition :=
  .plain h.name "CallCustomExpression" h.parameters.length
    [("call", h.name), ("style", "call-custom-expression")]

/-- The definitions with that of one more tree. -/
def add (g : Globals) : Node → Globals
  | .instructionDeclaration h _ => { g with instructions := g.instructions.insert h.name (ofInstruction h) }
  | .expressionDeclaration h _ => { g with expressions := g.expressions.insert h.name (ofExpression h) }
  | _ => g

/-- What a program with these variables and this body declares. -/
def ofProgram (vars : List VariableDeclaration) (body : List Node) : Globals :=
  body.foldl add { vars := .ofList (vars.map fun d => (d.name, ofVariable d)) }

/-- What a tree declares; only a program declares anything. -/
def ofNode : Node → Globals
  | .program _ vars body _ => ofProgram vars body
  | _ => {}

end Globals

/-! ## Scopes -/

/-- The names known at a place. The innermost frame comes first. -/
structure Scope where
  globals : Globals := {}
  frames : List (List String) := []

namespace Scope

/-- The names of a frame, each once, in the order of their first mention. -/
def frame (names : List String) : List String :=
  names.foldl (fun seen name => if seen.contains name then seen else seen ++ [name]) []

/-- The scope inside a construct that binds names. -/
def push (s : Scope) (names : List String) : Scope := { s with frames := frame names :: s.frames }

/-- The scope around the innermost construct. -/
def pop (s : Scope) : Scope := { s with frames := s.frames.tail }

/-- How many constructs that bind names are around the place. -/
def depth (s : Scope) : Nat := s.frames.length

/-- Whether a construct around the place binds a name. -/
def isLocal (s : Scope) (name : String) : Bool := s.frames.any fun f => f.contains name

/-- The names that the innermost construct binds. -/
def innermost (s : Scope) : List String := s.frames.head?.getD []

/-- Leaving a construct undoes entering it. -/
@[simp] theorem pop_push (s : Scope) (names : List String) : (s.push names).pop = s := rfl

/-! ## Definitions -/

/-- The definition of a local variable. -/
def localVariable (name : String) : Definition :=
  .plain name "Variable" 0 [("list", "false"), ("local", "true"), ("variableName", name)]

/-- The definition of a name in an expression, by its kind. -/
def identifier? (s : Scope) (name : String) : IdentifierKind → Option Definition
  | .local_ => some (localVariable name)
  | .global => s.globals.vars.get? name
  | .expression => s.globals.expressions.get? name
  | .builtin => Catalog.expression? name
  | .unknown | .invalid => none

/-- The definition of an instruction, by its kind. -/
def instruction? (s : Scope) (name : String) : InstructionKind → Option Definition
  | .global => s.globals.instructions.get? name
  | .builtin => Catalog.instruction? name
  | .unknown | .invalid => none

/-! ## Kinds -/

/-- The kind of a name in an expression with this many arguments. A builtin name hides a local one, which
hides a declared variable, which hides a declared expression. A variable takes no arguments. -/
def identifierKind (s : Scope) (name : String) (arguments : Nat) : IdentifierKind :=
  if (Catalog.expression? name).isSome then .builtin
  else if s.isLocal name then .local_
  else if arguments == 0 && s.globals.vars.contains name then .global
  else if s.globals.expressions.contains name then .expression
  else .invalid

/-- The kind of an instruction. A builtin one hides a declared one. -/
def instructionKind (s : Scope) (name : String) : InstructionKind :=
  if (Catalog.instruction? name).isSome then .builtin
  else if s.globals.instructions.contains name then .global
  else .invalid

end Scope

end FlightScript
