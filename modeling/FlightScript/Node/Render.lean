import FlightScript.Resolution
import FlightScript.Text.Indent
import FlightScript.Text.Quoted
import FlightScript.Text.Word

/-!
# `Node.Render` — the canonical text of a tree

The text has two spaces of indentation for each level, one statement a line, and the fewest parentheses and
qualifiers with which it reads back as the same tree. A name gets a qualifier if it would otherwise refer to
something else, and quotes if it is no word.

## Contents

* `Render.name`, `Render.member`, `Render.parameters`, `Render.directive`: small parts;
* `Scope.needsQualifier`;
* `Node.render`, the text of a resolved tree at a place; `Node.text`, the text of a whole tree.
-/

namespace FlightScript

/-! ## Small parts -/

namespace Render

/-- A name where keywords are not allowed. -/
def name (s : String) : String := if Text.isBare s then s else Text.Quoted.write s

/-- A name after a qualifier, where keywords are allowed. -/
def member (s : String) : String := if Text.isDotted s then s else Text.Quoted.write s

/-- Items in parentheses, nothing for none. -/
def parenthesized (items : List String) : String :=
  if items.isEmpty then "" else "(" ++ ", ".intercalate items ++ ")"

/-- The parameters of a declaration. -/
def parameters (names : List String) : String := parenthesized (names.map name)

/-- The line of a directive, nothing without a value. -/
def directive (key : String) : Option String → String
  | some value => if value == "" then "" else "#" ++ key ++ " " ++ Text.Quoted.write value ++ "\n"
  | none => ""

/-- A declared variable. -/
def variableDeclaration (d : VariableDeclaration) : String :=
  (match d.kind with | .value => "var " | .list => "list ") ++ name d.name

/-- A text in parentheses if they are needed. -/
def grouped (needed : Bool) (inner : String) : String := if needed then "(" ++ inner ++ ")" else inner

/-- A comment on one line. -/
def commentLine (text : String) : String :=
  String.ofList (text.toList.flatMap fun c => if c = '\n' then ['\\', 'n'] else [c])

/-- A constant; only numbers and truth values stand without quotes. -/
def constant (c : Constant) : String :=
  match c.kind with
  | .string | .vector => Text.Quoted.write c.value
  | .number | .bool => c.value

/-- What a handler names: its message if it has one, otherwise its event. -/
def eventName (h : EventHead) : String :=
  match h.filter with
  | some filter => if filter == "" then h.event else Text.Quoted.write filter
  | none => h.event

/-- The instruction that is used, with what follows it. -/
def instruction (u : Use InstructionKind) (call : String) : String :=
  if u.kind = .global && ((Catalog.instruction? u.name).isSome || !Text.isBare u.name) then
    "this." ++ name u.name ++ call
  else u.name ++ call

/-- The qualifier for a kind of name. -/
def qualifier? : IdentifierKind → Option String
  | .expression => some "this."
  | .global => some "var."
  | .local_ => some "local."
  | _ => none

end Render

namespace Scope

/-- Whether a bare name would refer to something else than is meant, or be no name at all. -/
def needsQualifier (s : Scope) (u : Use IdentifierKind) (arguments : Nat) : Bool :=
  (Catalog.expression? u.name).isSome || (u.kind != .local_ && s.isLocal u.name) ||
    (u.kind == .local_ && !s.isLocal u.name) || !Text.isBare u.name ||
    (u.kind == .expression && arguments == 0 && s.globals.vars.contains u.name)

/-- The text of a name in an expression. -/
def identifierText (s : Scope) (u : Use IdentifierKind) (arguments : Nat) : String :=
  if s.needsQualifier u arguments then
    match Render.qualifier? u.kind with
    | some q => q ++ Render.member u.name
    | none => u.name
  else u.name

end Scope

/-! ## Trees -/

namespace Node

open Render
open Text (indent)

/-- The ceilings for the operands of a binary operator with this precedence. -/
def operandCeilings (op : String) (precedence : Nat) : Nat × Nat :=
  if bindsRight op then (precedence - 1, precedence) else (precedence, precedence - 1)

mutual

/-- The text of a resolved tree at a depth of indentation. A ceiling is the weakest binding that can stand
there without parentheses. -/
def render (s : Scope) (depth ceiling : Nat) : Node → String
  | error .. => "<? Error>"
  | program name globals body _ =>
    "#program " ++ Text.Quoted.write name ++ "\n" ++
      String.join (globals.map fun d => "\n" ++ Render.variableDeclaration d) ++ "\n" ++
      statements s 0 body
  | variableDeclaration d => Render.variableDeclaration d
  | instructionDeclaration head body =>
    directive "pos" head.pos ++ directive "fmt" head.callFormat ++ "def " ++ Render.name head.name ++
      parameters head.parameters ++ " \x7b" ++ statements (s.push head.parameters) (depth + 1) body ++
      "\n" ++ indent depth ++ "\x7d\n"
  | expressionDeclaration head value =>
    directive "pos" head.pos ++ directive "fmt" head.callFormat ++ "def expression " ++
      Render.name head.name ++ parameters head.parameters ++ ": " ++
      render (s.push head.parameters) 0 looseCeiling value ++ "\n"
  | event head body =>
    directive "pos" head.pos ++ "on " ++ eventName head ++ parameters head.parameters ++ " \x7b" ++
      statements (s.push head.parameters) (depth + 1) body ++ "\n" ++ indent depth ++ "\x7d\n"
  | detached pos body _ =>
    directive "pos" pos ++ "\x7b" ++ statements s (depth + 1) body ++ "\n" ++ indent depth ++ "\x7d\n"
  | instruction use arguments =>
    Render.instruction use
      (match items s arguments with
        | [] => ""
        | [item] => " " ++ item
        | several => parenthesized several)
  | assignment operator target value _ =>
    grouped (!target.isIdentifier) (render s 0 looseCeiling target) ++ " " ++ operator.text ++
      " " ++ render s 0 looseCeiling value
  | comment text _ => "// " ++ commentLine text
  | wait kind condition _ =>
    match kind with
    | .seconds =>
      if condition.isConstant "0" then "wait" else "wait " ++ render s 0 looseCeiling condition
    | .condition => "wait until " ++ render s 0 looseCeiling condition
  | ifElse condition consequent alternative _ =>
    "if " ++ render s 0 looseCeiling condition ++ " \x7b" ++ statements s (depth + 1) consequent ++
      "\n" ++ indent depth ++ "\x7d" ++ otherwise s depth alternative
  | whileLoop condition body _ =>
    "while " ++ render s 0 looseCeiling condition ++ " \x7b" ++ statements s (depth + 1) body ++
      "\n" ++ indent depth ++ "\x7d"
  | forLoop head first last step body =>
    "for " ++ Render.name head.var ++ " = " ++ render s 0 looseCeiling first ++ " to " ++
      render s 0 looseCeiling last ++
      (if step.isConstant "1" then "" else " step " ++ render s 0 looseCeiling step) ++ " \x7b" ++
      statements (s.push [head.var]) (depth + 1) body ++ "\n" ++ indent depth ++ "\x7d"
  | breakLoop _ => "break"
  | repeatLoop count body _ =>
    "repeat " ++ render s 0 looseCeiling count ++ " \x7b" ++ statements s (depth + 1) body ++
      "\n" ++ indent depth ++ "\x7d"
  | identifier use arguments =>
    s.identifierText use arguments.length ++ parenthesized (items s arguments)
  | constant value _ => Render.constant value
  | binary op lhs rhs _ =>
    let precedence := (precedence? op).getD unknownPrecedence
    let ceilings := operandCeilings op precedence
    grouped (decide (ceiling < precedence))
      (render s 0 ceilings.1 lhs ++ " " ++ displaySymbol op ++ " " ++ render s 0 ceilings.2 rhs)
  | unary op operand _ =>
    grouped (decide (ceiling < notPrecedence))
      (op ++ " " ++ render s 0 notPrecedence operand)
  | conditional condition consequent alternative _ =>
    grouped (decide (ceiling < conditionalPrecedence))
      ("if " ++ render s 0 conditionalPrecedence condition ++ " then " ++
        render s 0 (conditionalPrecedence - 1) consequent ++ " else " ++
        render s 0 conditionalPrecedence alternative)

/-- Statements, each on a line of its own. -/
def statements (s : Scope) (depth : Nat) : List Node → String
  | [] => ""
  | n :: ns => "\n" ++ indent depth ++ render s depth looseCeiling n ++ statements s depth ns

/-- What stands after the block of a condition; a single further condition needs no braces. -/
def otherwise (s : Scope) (depth : Nat) : List Node → String
  | [] => ""
  | n :: ns =>
    if n.isIfElse && ns.isEmpty then " else " ++ render s depth looseCeiling n
    else
      " else \x7b" ++ ("\n" ++ indent (depth + 1) ++ render s (depth + 1) looseCeiling n) ++
        statements s (depth + 1) ns ++ "\n" ++ indent depth ++ "\x7d"

/-- The texts of arguments. -/
def items (s : Scope) : List Node → List String
  | [] => []
  | n :: ns => render s 0 looseCeiling n :: items s ns

end

/-- The canonical text of a tree. -/
def text (n : Node) : String :=
  n.resolved.render { globals := .ofNode n } 0 looseCeiling

end Node

end FlightScript
