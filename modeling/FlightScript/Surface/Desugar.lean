import FlightScript.Catalog.Event
import FlightScript.NameMap
import FlightScript.Node
import FlightScript.Surface
import FlightScript.Text.Blank
import FlightScript.Text.Quoted

/-!
# `Surface.Desugar` — what a written program means

The tree of a written program. String literals become their values, parentheses go away, operators get their
symbols, and parts that could not be read become placeholders, so that a faulty text still has a whole tree.

Directives are noted by their names until something takes them. A value for `pos` goes to the next handler,
declaration or block, a value for `fmt` to the next declaration, and a directive without a value or with an
empty one takes back what is noted under its name. Nothing takes a value that is noted under another name.

## Contents

* `Name.value`, `Expression.node`, `Statement.node`;
* `Draft`, `Draft.direct`, `Draft.add`: a program item by item;
* `Program.node`.
-/

namespace FlightScript.Surface

/-! ## Names -/

/-- The name that is meant. -/
def Name.value : Name → String
  | .words d => d.text
  | .quoted literal => Text.Quoted.value literal

/-- The name of something declared, empty if it could not be read. -/
def declaredName : Option DeclName → String
  | some d => d.name.value
  | none => ""

/-- The names of parameters. -/
def parameterNames : Option Parameters → List String
  | some p => p.names.map fun d => d.name.value
  | none => []

namespace Reference

/-- The name that is used, empty if it could not be read. -/
def value (r : Reference) : String := (r.member.map Name.value).getD ""

/-- What a qualifier says about a name in an expression. -/
def identifierKind (r : Reference) : IdentifierKind :=
  match r.qualifier with
  | some .this => .expression
  | some .var => .global
  | some .local_ => .local_
  | none => .unknown

/-- What a qualifier says about an instruction. -/
def instructionKind (r : Reference) : InstructionKind :=
  match r.qualifier with
  | some .this => .global
  | _ => .unknown

/-- The use of a name in an expression. -/
def identifierUse (r : Reference) (span : Span) : Use IdentifierKind :=
  ⟨r.value, some r.span, r.identifierKind, some span⟩

/-- The use of an instruction. -/
def instructionUse (r : Reference) (span : Span) : Use InstructionKind :=
  ⟨r.value, some r.span, r.instructionKind, some span⟩

end Reference

/-! ## Expressions -/

/-- The constant that a literal stands for. -/
def Literal.constant : Literal → Constant
  | .number negative digits => .number (if negative then "-" ++ digits else digits)
  | .string literal => .string (Text.Quoted.value literal)
  | .bool value => ⟨.bool, if value then "true" else "false"⟩

namespace Expression

mutual

/-- The tree of an expression. -/
def node : Expression → Node
  | missing => .missing
  | literal value span => .constant value.constant (some span)
  | name reference span => .identifier (reference.identifierUse span) []
  | call reference arguments span => .identifier (reference.identifierUse span) (nodes arguments)
  | group inner _ => inner.node
  | binary operator lhs rhs span => .binary operator.symbol lhs.node rhs.node (some span)
  | not operand span => .unary "not" operand.node (some span)
  | conditional condition consequent alternative span =>
    .conditional condition.node consequent.node alternative.node (some span)

/-- The trees of several expressions. -/
def nodes : List Expression → List Node
  | [] => []
  | e :: es => e.node :: nodes es

end

/-- Expressions are taken one by one. -/
@[simp] theorem nodes_eq_map (es : List Expression) : nodes es = es.map node := by
  induction es with
  | nil => rfl
  | cons e es ih => rw [nodes, ih, List.map_cons]

/-- The tree of an expression that may be left out, with the number that then counts. -/
def nodeOr (default : String) : Expression → Node
  | missing => .number default
  | e => e.node

end Expression

/-! ## Statements -/

/-- The arguments of an instruction. -/
def Arguments.nodes : Arguments → List Node
  | .none => []
  | .list items => Expression.nodes items
  | .single item => [item.node]

/-- What is assigned to. -/
def Target.node : Target → Node
  | .reference r => .identifier (r.identifierUse r.span) []
  | .group inner => inner.node

/-- The words of a comment: its marks and the white space after them go away. -/
def commentText (text : String) : String := String.ofList (Text.trimStart (text.toList.drop 2))

mutual

/-- The tree of a statement. -/
def Statement.node : Statement → Node
  | .comment text span => .comment (commentText text) (some span)
  | .ifElse condition consequent alternative span =>
    .ifElse condition.node consequent.nodes alternative.nodes (some span)
  | .whileLoop condition body span => .whileLoop condition.node body.nodes (some span)
  | .repeatLoop count body span => .repeatLoop count.node body.nodes (some span)
  | .forLoop var first last step body span =>
    .forLoop ⟨declaredName var, none, some span⟩ first.node last.node (step.nodeOr "1") body.nodes
  | .breakLoop span => .breakLoop (some span)
  | .wait isUntil condition span =>
    .wait (if isUntil then .condition else .seconds) (condition.nodeOr "0") (some span)
  | .assign target operator value span => .assignment operator target.node value.node (some span)
  | .instruction reference arguments span =>
    .instruction (reference.instructionUse span) arguments.nodes

/-- The trees of the statements in a block. -/
def Block.nodes : Block → List Node
  | .missing => []
  | .braces statements _ => statementNodes statements

/-- The trees of what stands after `else`; a further condition is a single tree. -/
def Alternative.nodes : Alternative → List Node
  | .none => []
  | .elseIf condition consequent alternative span =>
    [.ifElse condition.node consequent.nodes alternative.nodes (some span)]
  | .otherwise body => body.nodes

/-- The trees of several statements. -/
def statementNodes : List Statement → List Node
  | [] => []
  | s :: ss => s.node :: statementNodes ss

end

/-- Statements are taken one by one. -/
@[simp] theorem statementNodes_eq_map (ss : List Statement) : statementNodes ss = ss.map Statement.node := by
  induction ss with
  | nil => rfl
  | cons s ss ih => rw [statementNodes, ih, List.map_cons]

/-! ## Programs -/

/-- A program of which some items have been read. -/
structure Draft where
  name : String := "program"
  /-- The values of directives that nothing has taken yet. -/
  directives : NameMap String := .empty
  globals : List VariableDeclaration := []
  body : List Node := []

namespace Draft

/-- A directive names the program, or is noted under its name. One that says nothing takes back what is noted. -/
def direct (d : Draft) (name : String) (value : Option String) : Draft :=
  if name == "program" then { d with name := value.getD name }
  else
    match Text.filled value with
    | some v => { d with directives := d.directives.insert name v }
    | none => { d with directives := d.directives.erase name }

/-- The position that is noted. -/
def pos (d : Draft) : Option String := d.directives.get? "pos"

/-- The call format that is noted. -/
def callFormat (d : Draft) : Option String := d.directives.get? "fmt"

/-- A tree that takes the noted position. -/
def place (d : Draft) (n : Node) : Draft :=
  { d with directives := d.directives.erase "pos", body := d.body ++ [n] }

/-- A tree that takes the noted position and call format. -/
def declare (d : Draft) (n : Node) : Draft :=
  { d with directives := (d.directives.erase "pos").erase "fmt", body := d.body ++ [n] }

/-- The head of a declaration. -/
def head (d : Draft) (name : Option DeclName) (parameters : Option Parameters) (span : Span) :
    DeclarationHead :=
  ⟨d.pos, declaredName name, name.map DeclName.span, d.callFormat, parameterNames parameters, none, some span⟩

/-- The head of a handler. A word that names no event is a message to wait for. -/
def eventHead (d : Draft) (name : Option EventName) (parameters : Option Parameters) (span : Span) :
    EventHead :=
  let message (filter : String) : EventHead :=
    ⟨d.pos, Catalog.messageEvent, some filter, parameterNames parameters, none, none, some span⟩
  match name with
  | some (.word word) =>
    if (Catalog.event? word).isSome then
      ⟨d.pos, word, none, parameterNames parameters, parameters.map Parameters.span, none, some span⟩
    else message word
  | some (.message literal) => message (Text.Quoted.value literal)
  | none => message ""

/-- One more item. -/
def add (d : Draft) : Item → Draft
  | .directive (some name) value _ => d.direct name (value.map Text.Quoted.value)
  | .directive none _ _ => d
  | .var isList name span =>
    { d with
      globals := d.globals ++
        [⟨declaredName name, name.map DeclName.span, if isList then .list else .value, some span⟩] }
  | .event name parameters body span => d.place (.event (d.eventHead name parameters span) body.nodes)
  | .instruction name parameters body span =>
    d.declare (.instructionDeclaration (d.head name parameters span) body.nodes)
  | .expression name parameters value span =>
    d.declare (.expressionDeclaration (d.head name parameters span) value.node)
  | .block statements span =>
    d.place (.detached d.pos (statementNodes statements) (some span))

end Draft

/-- The tree of a program. -/
def Program.node (p : Program) : Node :=
  let d := p.items.foldl Draft.add {}
  .program d.name d.globals d.body none

end FlightScript.Surface
