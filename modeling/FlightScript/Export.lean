import FlightScript.CallFormat
import FlightScript.Catalog.Operator
import FlightScript.Failure
import FlightScript.Markup.Writer
import FlightScript.Resolution

/-!
# `Export` — the document of a tree

Every construct has an element. Statements and heads of blocks carry an id, and ids count from zero in the
order of the document. A tree with a name that has no definition, or with a node where its kind has no element,
has no document; the first such place in the order of the tree is the reason.

## Contents

* `Export.expression`, `Export.statement`: elements whose ids are not given yet;
* `Export.program`, `Export.root`;
* `Export.number`: ids in the order of the document;
* `Node.document`, `Node.documentText`.
-/

namespace FlightScript.Export

/-! ## Small parts -/

/-- The place of an id that is given at the end. -/
def idSlot : String × String := ("id", "")

/-- An element for a constant. -/
def constant (c : Constant) : Element :=
  match c.kind with
  | .number => .make "Constant" [("number", c.value)] []
  | .string => .make "Constant" [("text", c.value)] []
  | .bool => .make "Constant" [("bool", c.value), ("style", c.value)] []
  | .vector => .make "Constant" [("vector", c.value)] []

/-- An element for a use of something defined. The constants of the definition follow the arguments. -/
def defined (d : Definition) (hasId : Bool) (arguments : List Element) : Element :=
  .make d.element ((if hasId then [idSlot] else []) ++ d.attributes.entries)
    (arguments ++ d.trailing.map constant)

/-- An element for a declared variable. -/
def variableElement (v : VariableDeclaration) : Element :=
  match v.kind with
  | .value => .make "Variable" [("name", v.name), ("number", "0")] []
  | .list => .make "Variable" [("name", v.name)] [.make "Items" [] []]

/-- Why a node has no element at its place. -/
def unexpected (n : Node) : Failure := .unexpectedNode n.kindName n.loc

/-- The element with a position, if there is one. -/
def positioned (pos : Option String) (e : Element) : Element :=
  match Text.filled pos with
  | some p => e.withAttr "pos" p
  | none => e

/-- A block of elements; the first one carries the position. -/
def block (pos : Option String) : List Element → Element
  | [] => .make "Instructions" [] []
  | e :: es => .make "Instructions" [] (positioned pos e :: es)

/-- The block of a construct that stands inside a block, nothing for an empty one. -/
def innerBlock (es : List Element) : List Element := if es.isEmpty then [] else [block none es]

/-- A construct with an id, arguments and perhaps a block. -/
def construct (tag style : String) (attributes : List (String × String)) (arguments body : List Element) :
    Element :=
  .make tag (attributes ++ [idSlot, ("style", style)]) (arguments ++ innerBlock body)

/-! ## Expressions and statements -/

mutual

/-- The element of an expression. -/
def expression (s : Scope) : Node → Except Failure Element
  | .identifier use arguments =>
    match s.identifier? use.name use.kind with
    | some d => do return defined d false (← expressions s arguments)
    | none => .error (.unresolvedIdentifier use.name (use.nameLoc <|> use.loc))
  | .constant value _ => .ok (constant value)
  | .binary op lhs rhs loc =>
    match Catalog.operator? op with
    | some d => do
      let l ← expression s lhs
      let r ← expression s rhs
      return .make d.element (("op", op) :: d.attributes.entries) [l, r]
    | none => .error (.unexpectedOperator op loc)
  | .unary op operand loc =>
    if op = "not" then do return .make "Not" [("style", "op-not")] [← expression s operand]
    else .error (.unexpectedOperator op loc)
  | .conditional condition consequent alternative _ => do
    let c ← expression s condition
    let t ← expression s consequent
    let e ← expression s alternative
    return .make "Conditional" [("style", "conditional")] [c, t, e]
  | n => .error (unexpected n)

/-- The elements of several expressions. -/
def expressions (s : Scope) : List Node → Except Failure (List Element)
  | [] => .ok []
  | n :: ns => do
    let e ← expression s n
    let es ← expressions s ns
    return e :: es

end

mutual

/-- The elements of a statement; a chain of conditions has one for each. -/
def statement (s : Scope) : Node → Except Failure (List Element)
  | .instruction use arguments =>
    match s.instruction? use.name use.kind with
    | some d => do return [defined d true (← expressions s arguments)]
    | none => .error (.unresolvedInstruction use.name use.loc)
  | .wait kind condition _ => do
    let c ← expression s condition
    match kind with
    | .seconds => return [construct "WaitSeconds" "wait-seconds" [] [c] []]
    | .condition => return [construct "WaitUntil" "wait-until" [] [c] []]
  | .ifElse condition consequent alternative _ => do
    let c ← expression s condition
    let b ← statements s consequent
    let rest ← rungs s alternative
    return construct "If" "if" [] [c] b :: rest
  | .whileLoop condition body _ => do
    let c ← expression s condition
    let b ← statements s body
    return [construct "While" "while" [] [c] b]
  | .repeatLoop count body _ => do
    let c ← expression s count
    let b ← statements s body
    return [construct "Repeat" "repeat" [] [c] b]
  | .forLoop head first last step body => do
    let f ← expression s first
    let l ← expression s last
    let t ← expression s step
    let b ← statements s body
    return [construct "For" "for" [("var", head.var)] [f, l, t] b]
  | .breakLoop _ => .ok [.make "Break" [("style", "break")] []]
  | .assignment operator target value _ => do
    let t ← expression s target
    let v ← expression s value
    match operator with
    | .change => return [construct "ChangeVariable" "change-variable" [] [t, v] []]
    | .set => return [construct "SetVariable" "set-variable" [] [t, v] []]
  | .comment text _ =>
    .ok [construct "Comment" "comment" []
      [.make "Constant" [("canReplace", "false"), ("style", "comment-text"), ("text", text)] []] []]
  | n => .error (unexpected n)

/-- The elements of several statements. -/
def statements (s : Scope) : List Node → Except Failure (List Element)
  | [] => .ok []
  | n :: ns => do
    let es ← statement s n
    let rest ← statements s ns
    return es ++ rest

/-- The elements of what stands after `else`. Anything but a single further condition is guarded by a constant
that is always true. -/
def rungs (s : Scope) : List Node → Except Failure (List Element)
  | [] => .ok []
  | [.ifElse condition consequent alternative _] => do
    let c ← expression s condition
    let b ← statements s consequent
    let rest ← rungs s alternative
    return construct "ElseIf" "else-if" [] [c] b :: rest
  | n :: ns => do
    let es ← statement s n
    let rest ← statements s ns
    return [construct "ElseIf" "else" [] [.make "Constant" [("bool", "true")] []] (es ++ rest)]

end

/-! ## Programs -/

/-- The head of a handler. -/
def eventHead (h : EventHead) (d : EventDefinition) : Element :=
  .make "Event" [("event", h.event), idSlot, ("style", d.style)]
    (if d.hasFilter then
      [.make "Constant" [("canReplace", "false"), ("text", h.filter.getD "")] []] else [])

/-- The head of a declared instruction. -/
def instructionHead (h : DeclarationHead) : Element :=
  let format := CallFormat.ofTemplate h.name h.parameters h.callFormat
  .make "CustomInstruction"
    [("callFormat", format.numbered), ("format", format.named), ("name", h.name), idSlot,
     ("style", "custom-instruction")] []

/-- The element of a declared expression. -/
def expressionDeclaration (h : DeclarationHead) (value : Element) : Element :=
  let format := CallFormat.ofTemplate h.name h.parameters h.callFormat
  positioned h.pos
    (.make "CustomExpression"
      [("name", h.name), ("callFormat", format.numbered), ("format", format.named ++ " return (0)"),
       ("style", "custom-expression")] [value])

/-- The block of a handler, a declared instruction or statements of their own; an empty block of statements
has none. -/
def topLevel (s : Scope) : Node → Except Failure (Option Element)
  | .event head body =>
    match Catalog.event? head.event with
    | some d => do return some (block head.pos (eventHead head d :: (← statements s body)))
    | none => .error (.unexpectedEvent head.event head.loc)
  | .instructionDeclaration head body => do
    return some (block head.pos (instructionHead head :: (← statements s body)))
  | .detached pos body _ => do
    let es ← statements s body
    return if body.isEmpty then none else some (block pos es)
  | n => .error (unexpected n)

/-- The blocks and the declared expressions of a program. -/
def topLevels (s : Scope) : List Node → Except Failure (List Element × List Element)
  | [] => .ok ([], [])
  | .expressionDeclaration head value :: ns => do
    let e := expressionDeclaration head (← expression s value)
    let (blocks, declared) ← topLevels s ns
    return (blocks, e :: declared)
  | n :: ns => do
    let b ← topLevel s n
    let (blocks, declared) ← topLevels s ns
    return (b.toList ++ blocks, declared)

/-- The element of a program. -/
def program (s : Scope) (name : String) (globals : List VariableDeclaration) (body : List Node) :
    Except Failure Element := do
  let (blocks, declared) ← topLevels s body
  return .make "Program" [("name", name)]
    (.make "Variables" [] (globals.map variableElement) :: blocks ++ [.make "Expressions" [] declared])

/-- The single element of a tree that is not a whole program. -/
def single (n : Node) : List Element → Except Failure Element
  | [e] => .ok e
  | _ => .error (.severalElements n.kindName n.loc)

/-- The element of any tree. -/
def root (s : Scope) (n : Node) : Except Failure Element :=
  match n with
  | .program name globals body _ => program s name globals body
  | .variableDeclaration d => .ok (variableElement d)
  | .expressionDeclaration head value => do return expressionDeclaration head (← expression s value)
  | .event .. | .instructionDeclaration .. | .detached .. => do
    match ← topLevel s n with
    | some e => return e
    | none => .error (unexpected n)
  | .identifier .. | .constant .. | .binary .. | .unary .. | .conditional .. => expression s n
  | _ => do single n (← statement s n)

/-! ## Ids -/

mutual

/-- The element with ids from a number on, and the number after them. -/
def number (next : Nat) : Element → Element × Nat
  | ⟨name, attributes, children, span⟩ =>
    if attributes.contains "id" then
      let r := numberAll (next + 1) children
      (⟨name, attributes.insert "id" (toString next), r.1, span⟩, r.2)
    else
      let r := numberAll next children
      (⟨name, attributes, r.1, span⟩, r.2)

/-- The children of an element with ids from a number on, and the number after them. -/
def numberAll (next : Nat) : List (Child Element) → List (Child Element) × Nat
  | [] => ([], next)
  | .element e :: rest =>
    let r := number next e
    let rs := numberAll r.2 rest
    (.element r.1 :: rs.1, rs.2)
  | .text value span :: rest =>
    let rs := numberAll next rest
    (.text value span :: rs.1, rs.2)

end

end FlightScript.Export

namespace FlightScript.Node

/-- The document of a tree. -/
def document (n : Node) : Except Failure Element := do
  let e ← Export.root { globals := .ofNode n } n.resolved
  return (Export.number 0 e).1

/-- The text of the document of a tree. -/
def documentText (n : Node) : Except Failure String := do
  return Markup.write (← n.document)

end FlightScript.Node
