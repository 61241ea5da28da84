import FlightScript.Proofs.Idempotence
import FlightScript.Proofs.Metadata
import FlightScript.Proofs.Survival

/-!
# `Proofs.Forgetting` — trees that differ in metadata are the same program

Metadata may be anything: a tree that was edited has stale places, and local names written down in it that its
constructs no longer bind. Before a tree is printed it is resolved, and resolving looks at no metadata and writes every
note anew. So a tree and the same tree without metadata have the same text and the same document, also if the text is
made from the notes.

## Contents

* `Node.resolve_clearMetadata`, `Node.complaints_clearMetadata`: resolving and checking look at no metadata;
* `Node.text_clearMetadata`, `Node.document_clearMetadata`: nor do the text and the document;
* `Node.renderNoted`: the text of a tree from the local names written down in it;
* `SameResult`, and the main theorem `Node.metadata_never_leaks`.
-/

namespace FlightScript

/-! ## Scopes

What is known at a place comes from names and definitions, neither of which is metadata. -/

theorem Globals.meet_clearMetadata (g : Globals) (n : Node) : g.meet n.clearMetadata = g.meet n := by
  cases n with
  | program _ vars body _ =>
      rw [Node.clearMetadata, Node.clearMetadataAll_eq_map]
      exact ofProgram_clearMetadata vars body
  | _ => rfl

theorem Globals.ofNode_clearMetadata (n : Node) : ofNode n.clearMetadata = ofNode n := by
  cases n with
  | program _ vars body _ =>
      rw [Node.clearMetadata, Node.clearMetadataAll_eq_map]
      exact ofProgram_clearMetadata vars body
  | _ => rfl

namespace Scope

@[simp] theorem after_clearMetadata (s : Scope) (n : Node) : s.after n.clearMetadata = s.after n := by
  simp only [after, Node.walk_clearMetadata, List.foldl_map, Globals.meet_clearMetadata]

@[simp] theorem afterAll_clearMetadata (s : Scope) (ns : List Node) :
    s.afterAll (ns.map Node.clearMetadata) = s.afterAll ns := by
  simp only [afterAll, List.foldl_map, after_clearMetadata]

@[simp] theorem within_clearMetadata (s : Scope) (vars : List VariableDeclaration) (body : List Node) :
    s.within (vars.map VariableDeclaration.clearMetadata) (body.map Node.clearMetadata) = s.within vars body := by
  rw [within, Globals.ofProgram_clearMetadata, within]

/-- A name gets the same kind without its metadata, and keeps its name. -/
theorem resolveIdentifier_clearMetadata (s : Scope) (u : Use IdentifierKind) (arguments : Nat) :
    s.resolveIdentifier u.clearMetadata arguments = (s.resolveIdentifier u arguments).clearMetadata := by
  by_cases h : u.kind = .unknown
  · have hclear : u.clearMetadata.kind = .unknown := h
    rw [resolveIdentifier, resolveIdentifier, if_pos h, if_pos hclear]
    rfl
  · have hclear : ¬ u.clearMetadata.kind = .unknown := h
    rw [resolveIdentifier, resolveIdentifier, if_neg h, if_neg hclear]

theorem resolveInstruction_clearMetadata (s : Scope) (u : Use InstructionKind) :
    s.resolveInstruction u.clearMetadata = (s.resolveInstruction u).clearMetadata := by
  by_cases h : u.kind = .unknown
  · have hclear : u.clearMetadata.kind = .unknown := h
    rw [resolveInstruction, resolveInstruction, if_pos h, if_pos hclear]
    rfl
  · have hclear : ¬ u.clearMetadata.kind = .unknown := h
    rw [resolveInstruction, resolveInstruction, if_neg h, if_neg hclear]

end Scope

/-! ## Resolving

Resolving writes metadata: it notes the local names of a frame. So the trees agree after it is forgotten again,
and not before. -/

namespace Node

section Resolve

/-- Forgetting twice is forgetting once. -/
theorem map_clearMetadata_clearMetadata (vars : List VariableDeclaration) :
    (vars.map VariableDeclaration.clearMetadata).map VariableDeclaration.clearMetadata =
      vars.map VariableDeclaration.clearMetadata := by
  rw [List.map_map]
  rfl

theorem use_clearMetadata_clearMetadata {Kind : Type} (u : Use Kind) :
    u.clearMetadata.clearMetadata = u.clearMetadata := rfl

attribute [local simp] resolve clearMetadata Scope.resolveIdentifier_clearMetadata
  Scope.resolveInstruction_clearMetadata map_clearMetadata_clearMetadata DeclarationHead.clearMetadata
  EventHead.clearMetadata ForHead.clearMetadata use_clearMetadata_clearMetadata

mutual

/-- Resolving looks at no metadata. -/
theorem resolve_clearMetadata (s : Scope) : (n : Node) →
    (n.clearMetadata.resolve s).clearMetadata = (n.resolve s).clearMetadata
  | error .. => rfl
  | variableDeclaration _ => rfl
  | comment .. => rfl
  | breakLoop _ => rfl
  | constant .. => rfl
  | program _ _ body _ => by simp [resolveAll_clearMetadata _ body, -List.map_map]
  | instructionDeclaration _ body => by simp [resolveAll_clearMetadata _ body, -List.map_map]
  | expressionDeclaration _ value => by simp [resolve_clearMetadata _ value]
  | event _ body => by simp [resolveAll_clearMetadata _ body, -List.map_map]
  | detached _ body _ => by simp [resolveAll_clearMetadata _ body, -List.map_map]
  | instruction _ arguments => by simp [resolveAll_clearMetadata _ arguments, -List.map_map]
  | assignment _ target value _ => by simp [resolve_clearMetadata _ target, resolve_clearMetadata _ value]
  | wait _ condition _ => by simp [resolve_clearMetadata _ condition]
  | ifElse condition consequent alternative _ => by
      simp [resolve_clearMetadata _ condition, resolveAll_clearMetadata _ consequent,
        resolveAll_clearMetadata _ alternative, -List.map_map]
  | whileLoop condition body _ => by
      simp [resolve_clearMetadata _ condition, resolveAll_clearMetadata _ body, -List.map_map]
  | forLoop _ first last step body => by
      simp [resolve_clearMetadata _ first, resolve_clearMetadata _ last, resolve_clearMetadata _ step,
        resolveAll_clearMetadata _ body, -List.map_map]
  | repeatLoop count body _ => by
      simp [resolve_clearMetadata _ count, resolveAll_clearMetadata _ body, -List.map_map]
  | identifier _ arguments => by simp [resolveAll_clearMetadata _ arguments, -List.map_map]
  | binary _ lhs rhs _ => by simp [resolve_clearMetadata _ lhs, resolve_clearMetadata _ rhs]
  | unary _ operand _ => by simp [resolve_clearMetadata _ operand]
  | conditional condition consequent alternative _ => by
      simp [resolve_clearMetadata _ condition, resolve_clearMetadata _ consequent,
        resolve_clearMetadata _ alternative]

/-- Several trees, each in the scope behind the one before it, which does not depend on metadata. -/
theorem resolveAll_clearMetadata (s : Scope) : (ns : List Node) →
    (resolveAll s (ns.map clearMetadata)).map clearMetadata = (resolveAll s ns).map clearMetadata
  | [] => rfl
  | n :: ns => by
      rw [List.map_cons, resolveAll, resolveAll, List.map_cons, List.map_cons, Scope.after_clearMetadata,
        resolve_clearMetadata s n, resolveAll_clearMetadata (s.after n) ns]

end

theorem resolved_clearMetadata (n : Node) : n.clearMetadata.resolved.clearMetadata = n.resolved.clearMetadata :=
  resolve_clearMetadata {} n

end Resolve

end Node

/-! ## Complaints

A complaint is shown at the place of the name that it is about. Its level and its words are all that can be
compared. -/

/-- A problem without its places. -/
def Problem.bare (p : Problem) : Level × String := (p.level, p.message)

namespace Complaint

/-- What is said about a use depends on its name, its arguments and its definition. -/
theorem bare_ofUse_clearMetadata {Kind : Type} (u : Use Kind) (arguments : Nat) (d : Option Definition) :
    (ofUse u.clearMetadata arguments d).map Problem.bare = (ofUse u arguments d).map Problem.bare := by
  cases d with
  | none => rfl
  | some d =>
      rw [ofUse, ofUse]
      split <;> rfl

theorem bare_ofEvent_clearMetadata (h : EventHead) :
    (ofEvent h.clearMetadata).map Problem.bare = (ofEvent h).map Problem.bare := by
  simp only [ofEvent, EventHead.clearMetadata]
  cases Catalog.event? h.event with
  | none => rfl
  | some d => simp only [List.map_map, Function.comp_def, Problem.bare, post, Problem.error]

end Complaint

namespace Scope

/-- The complaints about a name are the same but for their places. A local name is asked for its arguments and
its scope, any other one for its definition, and none of these is metadata. -/
theorem bare_identifierComplaints (s : Scope) (u : Use IdentifierKind) (arguments : Nat) :
    (s.identifierComplaints (s.resolveIdentifier u.clearMetadata arguments) arguments).map Problem.bare =
      (s.identifierComplaints (s.resolveIdentifier u arguments) arguments).map Problem.bare := by
  rw [resolveIdentifier_clearMetadata]
  generalize s.resolveIdentifier u arguments = v
  by_cases h : v.kind = .local_
  · have hclear : v.clearMetadata.kind = .local_ := h
    rw [identifierComplaints, identifierComplaints, if_pos h, if_pos hclear]
    by_cases hcalled : (arguments != 0 && s.isLocal v.name) = true
    · have hcleared : (arguments != 0 && s.isLocal v.clearMetadata.name) = true := hcalled
      rw [if_pos hcalled, if_pos hcleared]
      rfl
    · have hcleared : ¬ (arguments != 0 && s.isLocal v.clearMetadata.name) = true := hcalled
      rw [if_neg hcalled, if_neg hcleared]
  · have hclear : ¬ v.clearMetadata.kind = .local_ := h
    rw [identifierComplaints, identifierComplaints, if_neg h, if_neg hclear]
    exact Complaint.bare_ofUse_clearMetadata v arguments _

theorem bare_instructionComplaints (s : Scope) (u : Use InstructionKind) (arguments : Nat) :
    (s.instructionComplaints (s.resolveInstruction u.clearMetadata) arguments).map Problem.bare =
      (s.instructionComplaints (s.resolveInstruction u) arguments).map Problem.bare := by
  rw [resolveInstruction_clearMetadata]
  exact Complaint.bare_ofUse_clearMetadata _ arguments _

end Scope

namespace Node

section Complaints

attribute [local simp] complaints clearMetadata Scope.bare_identifierComplaints Scope.bare_instructionComplaints
  Complaint.bare_ofEvent_clearMetadata DeclarationHead.clearMetadata ForHead.clearMetadata

theorem parameters_clearMetadata (head : EventHead) : head.clearMetadata.parameters = head.parameters := rfl

mutual

/-- Checking looks at no metadata, but for the places of its complaints. -/
theorem complaints_clearMetadata (s : Scope) : (n : Node) →
    (n.clearMetadata.complaints s).map Problem.bare = (n.complaints s).map Problem.bare
  | error .. => rfl
  | variableDeclaration _ => rfl
  | comment .. => rfl
  | breakLoop _ => rfl
  | constant .. => rfl
  | program _ _ body _ => by simp [complaintsAll_clearMetadata _ body]
  | instructionDeclaration _ body => by simp [complaintsAll_clearMetadata _ body]
  | expressionDeclaration _ value => by simp [complaints_clearMetadata _ value]
  | event head body => by simp [complaintsAll_clearMetadata _ body, parameters_clearMetadata]
  | detached _ body _ => by simp [complaintsAll_clearMetadata _ body]
  | instruction _ arguments => by simp [complaintsAll_clearMetadata _ arguments]
  | assignment _ target value _ => by simp [complaints_clearMetadata _ target, complaints_clearMetadata _ value]
  | wait _ condition _ => by simp [complaints_clearMetadata _ condition]
  | ifElse condition consequent alternative _ => by
      simp [complaints_clearMetadata _ condition, complaintsAll_clearMetadata _ consequent,
        complaintsAll_clearMetadata _ alternative]
  | whileLoop condition body _ => by simp [complaints_clearMetadata _ condition, complaintsAll_clearMetadata _ body]
  | forLoop _ first last step body => by
      simp [complaints_clearMetadata _ first, complaints_clearMetadata _ last, complaints_clearMetadata _ step,
        complaintsAll_clearMetadata _ body]
  | repeatLoop count body _ => by simp [complaints_clearMetadata _ count, complaintsAll_clearMetadata _ body]
  | identifier _ arguments => by simp [complaintsAll_clearMetadata _ arguments]
  | binary _ lhs rhs _ => by simp [complaints_clearMetadata _ lhs, complaints_clearMetadata _ rhs]
  | unary _ operand _ => by simp [complaints_clearMetadata _ operand]
  | conditional condition consequent alternative _ => by
      simp [complaints_clearMetadata _ condition, complaints_clearMetadata _ consequent,
        complaints_clearMetadata _ alternative]

/-- The complaints about several trees are the same but for their places. -/
theorem complaintsAll_clearMetadata (s : Scope) : (ns : List Node) →
    (complaintsAll s (ns.map clearMetadata)).map Problem.bare = (complaintsAll s ns).map Problem.bare
  | [] => rfl
  | n :: ns => by
      rw [List.map_cons, complaintsAll, complaintsAll, List.map_append, List.map_append, Scope.after_clearMetadata,
        complaints_clearMetadata s n, complaintsAll_clearMetadata (s.after n) ns]

end

theorem problems_clearMetadata (n : Node) :
    n.clearMetadata.problems.map Problem.bare = n.problems.map Problem.bare :=
  complaints_clearMetadata {} n

end Complaints

/-! ## Texts and documents

The text and the document are made from the resolved tree, whose metadata was just written anew. -/

/-- The text of a tree depends on no metadata. -/
theorem text_clearMetadata (n : Node) : n.clearMetadata.text = n.text := by
  rw [text, text, Globals.ofNode_clearMetadata, ← render_clearMetadata _ _ _ n.clearMetadata.resolved,
    resolved_clearMetadata, render_clearMetadata]

/-- The document of a tree depends on no metadata, nor does the failure if there is none, up to its place. -/
theorem document_clearMetadata (n : Node) :
    n.clearMetadata.document.mapError Failure.placeless = n.document.mapError Failure.placeless := by
  have hroot : (Export.root { globals := .ofNode n } n.clearMetadata.resolved).mapError Failure.placeless =
      (Export.root { globals := .ofNode n } n.resolved).mapError Failure.placeless := by
    rw [← Export.root_clearMetadata _ n.clearMetadata.resolved, resolved_clearMetadata, Export.root_clearMetadata]
  simp only [document, mapError_bind, Globals.ofNode_clearMetadata, hroot]

/-! ## Texts from notes

A printer could take the names that a construct binds from the note in the tree instead of working them out from
the construct. On resolved trees the two are the same, so the choice does not show. -/

open Render
open Text (indent)

/-- The range of a loop. -/
def rangeNoted (var first last : String) : String := "for " ++ Render.name var ++ " = " ++ first ++ " to " ++ last

mutual

/-- The text of a tree, from the local names that are written down in it; a construct without a note binds the names
that it mentions. -/
def renderNoted (s : Scope) (depth ceiling : Nat) : Node → String
  | error .. => "<? Error>"
  | program name globals body _ =>
    "#program " ++ Text.Quoted.write name ++ "\n" ++
      String.join (globals.map fun d => "\n" ++ Render.variableDeclaration d) ++ "\n" ++
      statementsNoted s 0 body
  | variableDeclaration d => Render.variableDeclaration d
  | instructionDeclaration head body =>
    directive "pos" head.pos ++ directive "fmt" head.callFormat ++ "def " ++ Render.name head.name ++
      parameters head.parameters ++ " \x7b" ++
      statementsNoted (s.push (head.locals.getD head.parameters)) (depth + 1) body ++
      "\n" ++ indent depth ++ "\x7d\n"
  | expressionDeclaration head value =>
    directive "pos" head.pos ++ directive "fmt" head.callFormat ++ "def expression " ++
      Render.name head.name ++ parameters head.parameters ++ ": " ++
      renderNoted (s.push (head.locals.getD head.parameters)) 0 looseCeiling value ++ "\n"
  | event head body =>
    directive "pos" head.pos ++ "on " ++ eventName head ++ parameters head.parameters ++ " \x7b" ++
      statementsNoted (s.push (head.locals.getD head.parameters)) (depth + 1) body ++ "\n" ++
      indent depth ++ "\x7d\n"
  | detached pos body _ =>
    directive "pos" pos ++ "\x7b" ++ statementsNoted s (depth + 1) body ++ "\n" ++ indent depth ++ "\x7d\n"
  | instruction use arguments =>
    Render.instruction use
      (match itemsNoted s arguments with
        | [] => ""
        | [item] => " " ++ item
        | several => parenthesized several)
  | assignment operator target value _ =>
    grouped (!target.isIdentifier) (renderNoted s 0 looseCeiling target) ++ " " ++ operator.text ++
      " " ++ renderNoted s 0 looseCeiling value
  | comment text _ => "// " ++ commentLine text
  | wait kind condition _ =>
    match kind with
    | .seconds =>
      if condition.isConstant "0" then "wait" else "wait " ++ renderNoted s 0 looseCeiling condition
    | .condition => "wait until " ++ renderNoted s 0 looseCeiling condition
  | ifElse condition consequent alternative _ =>
    "if " ++ renderNoted s 0 looseCeiling condition ++ " \x7b" ++ statementsNoted s (depth + 1) consequent ++
      "\n" ++ indent depth ++ "\x7d" ++ otherwiseNoted s depth alternative
  | whileLoop condition body _ =>
    "while " ++ renderNoted s 0 looseCeiling condition ++ " \x7b" ++ statementsNoted s (depth + 1) body ++
      "\n" ++ indent depth ++ "\x7d"
  | forLoop head first last step body =>
    rangeNoted head.var (renderNoted s 0 looseCeiling first) (renderNoted s 0 looseCeiling last) ++
      (if step.isConstant "1" then "" else " step " ++ renderNoted s 0 looseCeiling step) ++ " \x7b" ++
      statementsNoted (s.push (head.locals.getD [head.var])) (depth + 1) body ++ "\n" ++ indent depth ++ "\x7d"
  | breakLoop _ => "break"
  | repeatLoop count body _ =>
    "repeat " ++ renderNoted s 0 looseCeiling count ++ " \x7b" ++ statementsNoted s (depth + 1) body ++
      "\n" ++ indent depth ++ "\x7d"
  | identifier use arguments =>
    s.identifierText use arguments.length ++ parenthesized (itemsNoted s arguments)
  | constant value _ => Render.constant value
  | binary op lhs rhs _ =>
    let precedence := (precedence? op).getD unknownPrecedence
    let ceilings := operandCeilings op precedence
    grouped (decide (ceiling < precedence))
      (renderNoted s 0 ceilings.1 lhs ++ " " ++ displaySymbol op ++ " " ++ renderNoted s 0 ceilings.2 rhs)
  | unary op operand _ =>
    grouped (decide (ceiling < notPrecedence))
      (op ++ " " ++ renderNoted s 0 notPrecedence operand)
  | conditional condition consequent alternative _ =>
    grouped (decide (ceiling < conditionalPrecedence))
      ("if " ++ renderNoted s 0 conditionalPrecedence condition ++ " then " ++
        renderNoted s 0 (conditionalPrecedence - 1) consequent ++ " else " ++
        renderNoted s 0 conditionalPrecedence alternative)

/-- Statements, each on a line of its own. -/
def statementsNoted (s : Scope) (depth : Nat) : List Node → String
  | [] => ""
  | n :: ns => "\n" ++ indent depth ++ renderNoted s depth looseCeiling n ++ statementsNoted s depth ns

/-- What stands after the block of a condition. -/
def otherwiseNoted (s : Scope) (depth : Nat) : List Node → String
  | [] => ""
  | n :: ns =>
    if n.isIfElse && ns.isEmpty then " else " ++ renderNoted s depth looseCeiling n
    else
      " else \x7b" ++ ("\n" ++ indent (depth + 1) ++ renderNoted s (depth + 1) looseCeiling n) ++
        statementsNoted s (depth + 1) ns ++ "\n" ++ indent depth ++ "\x7d"

/-- The texts of arguments. -/
def itemsNoted (s : Scope) : List Node → List String
  | [] => []
  | n :: ns => renderNoted s 0 looseCeiling n :: itemsNoted s ns

end

/-- The canonical text of a tree, from the notes of its resolution. -/
def textNoted (n : Node) : String :=
  n.resolved.renderNoted { globals := .ofNode n } 0 looseCeiling

end Node

namespace Scope

/-- A frame mentions each of its names once, however often the construct does. -/
theorem nodup_frame (names : List String) : (frame names).Nodup := by
  -- the names seen so far never repeat
  have hfold : ∀ names seen : List String, seen.Nodup →
      (names.foldl (fun seen name => if seen.contains name then seen else seen ++ [name]) seen).Nodup := by
    intro names
    induction names with
    | nil =>
        intro seen hseen
        exact hseen
    | cons name names ih =>
        intro seen hseen
        apply ih
        by_cases hname : name ∈ seen
        · simpa [hname] using hseen
        · have hother : ∀ other ∈ seen, other ≠ name := by
            rintro other hother rfl
            exact hname hother
          simpa [hname, List.nodup_append] using ⟨hseen, hother⟩
  exact hfold names [] List.nodup_nil

/-- Names that are all different are their own frame. -/
theorem frame_of_nodup {names : List String} (h : names.Nodup) : frame names = names := by
  have hfold : ∀ names seen : List String, (seen ++ names).Nodup →
      names.foldl (fun seen name => if seen.contains name then seen else seen ++ [name]) seen = seen ++ names := by
    intro names
    induction names with
    | nil => simp
    | cons name names ih =>
        intro seen hseen
        have hname : name ∉ seen := by
          intro hmem
          exact (List.nodup_append.mp hseen).2.2 name hmem name List.mem_cons_self rfl
        rw [List.foldl_cons, if_neg (by simpa using hname), ih _ (by simpa using hseen), List.append_assoc,
          List.singleton_append]
  exact hfold names [] h

/-- A frame mentions each of its names once, so that it is its own frame. -/
theorem push_frame (s : Scope) (names : List String) : s.push (frame names) = s.push names := by
  rw [push, frame_of_nodup (nodup_frame names), push]

end Scope

namespace Node

section Noted

attribute [local simp] resolve render renderNoted rangeNoted Scope.push_frame

mutual

/-- In a resolved tree the notes are the names that the constructs mention. -/
theorem renderNoted_resolve (s t : Scope) (depth ceiling : Nat) : (n : Node) →
    (n.resolve s).renderNoted t depth ceiling = (n.resolve s).render t depth ceiling
  | error .. => rfl
  | variableDeclaration _ => rfl
  | comment .. => rfl
  | breakLoop _ => rfl
  | constant .. => rfl
  | program _ _ body _ => by simp [statementsNoted_resolve _ _ _ body]
  | instructionDeclaration _ body => by simp [statementsNoted_resolve _ _ _ body]
  | expressionDeclaration _ value => by simp [renderNoted_resolve _ _ _ _ value]
  | event _ body => by simp [statementsNoted_resolve _ _ _ body]
  | detached _ body _ => by simp [statementsNoted_resolve _ _ _ body]
  | instruction _ arguments => by
      simp only [resolve, renderNoted, itemsNoted_resolve _ _ arguments]
      rfl
  | assignment _ target value _ => by simp [renderNoted_resolve _ _ _ _ target, renderNoted_resolve _ _ _ _ value]
  | wait _ condition _ => by
      simp only [resolve, renderNoted, renderNoted_resolve _ _ _ _ condition]
      rfl
  | ifElse condition consequent alternative _ => by
      simp [renderNoted_resolve _ _ _ _ condition, statementsNoted_resolve _ _ _ consequent,
        otherwiseNoted_resolve _ _ _ alternative]
  | whileLoop condition body _ => by
      simp [renderNoted_resolve _ _ _ _ condition, statementsNoted_resolve _ _ _ body]
  | forLoop _ first last step body => by
      simp [renderNoted_resolve _ _ _ _ first, renderNoted_resolve _ _ _ _ last, renderNoted_resolve _ _ _ _ step,
        statementsNoted_resolve _ _ _ body]
  | repeatLoop count body _ => by
      simp [renderNoted_resolve _ _ _ _ count, statementsNoted_resolve _ _ _ body]
  | identifier _ arguments => by simp [itemsNoted_resolve _ _ arguments]
  | binary _ lhs rhs _ => by simp [renderNoted_resolve _ _ _ _ lhs, renderNoted_resolve _ _ _ _ rhs]
  | unary _ operand _ => by simp [renderNoted_resolve _ _ _ _ operand]
  | conditional condition consequent alternative _ => by
      simp [renderNoted_resolve _ _ _ _ condition, renderNoted_resolve _ _ _ _ consequent,
        renderNoted_resolve _ _ _ _ alternative]

theorem statementsNoted_resolve (s t : Scope) (depth : Nat) : (ns : List Node) →
    statementsNoted t depth (resolveAll s ns) = statements t depth (resolveAll s ns)
  | [] => rfl
  | n :: ns => by
      rw [resolveAll, statementsNoted, statements, renderNoted_resolve _ _ _ _ n, statementsNoted_resolve _ _ _ ns]

theorem otherwiseNoted_resolve (s t : Scope) (depth : Nat) : (ns : List Node) →
    otherwiseNoted t depth (resolveAll s ns) = otherwise t depth (resolveAll s ns)
  | [] => rfl
  | n :: ns => by
      rw [resolveAll, otherwiseNoted, otherwise, renderNoted_resolve _ _ _ _ n, renderNoted_resolve _ _ _ _ n,
        statementsNoted_resolve _ _ _ ns]

theorem itemsNoted_resolve (s t : Scope) : (ns : List Node) →
    itemsNoted t (resolveAll s ns) = items t (resolveAll s ns)
  | [] => rfl
  | n :: ns => by
      rw [resolveAll, itemsNoted, items, renderNoted_resolve _ _ _ _ n, itemsNoted_resolve _ _ ns]

end

end Noted

/-- In another tree a note that no longer fits would show. -/
example :
    let use : Use IdentifierKind := ⟨"x", none, .local_, none⟩
    let n : Node := .expressionDeclaration ⟨none, "f", none, none, [], some ["x"], none⟩ (.identifier use [])
    n.renderNoted {} 0 looseCeiling = "def expression f: x\n" ∧
      n.render {} 0 looseCeiling = "def expression f: local.x\n" := by
  decide +kernel

theorem textNoted_eq_text (n : Node) : n.textNoted = n.text :=
  renderNoted_resolve {} _ 0 looseCeiling n

end Node

/-! ## Results

Two conversions agree if they give the same, or fail in the same way. -/

/-- The same result, or failures with the same code and the same message. -/
inductive SameResult {α : Type} : Except Failure α → Except Failure α → Prop
  | ok (a : α) : SameResult (.ok a) (.ok a)
  | error {f g : Failure} (hcode : f.code = g.code) (hmessage : f.message = g.message) :
      SameResult (.error f) (.error g)

/-- What is the same up to the places of failures is the same result. -/
theorem SameResult.of_mapError {α : Type} {x y : Except Failure α}
    (h : x.mapError Failure.placeless = y.mapError Failure.placeless) : SameResult x y := by
  cases x with
  | ok a =>
      cases y with
      | ok b =>
          cases h
          exact .ok a
      | error g => cases h
  | error f =>
      cases y with
      | ok b => cases h
      | error g =>
          have hplaceless : f.placeless = g.placeless := Except.error.inj h
          constructor
          · rw [← Failure.code_placeless f, hplaceless, Failure.code_placeless]
          · rw [← Failure.message_placeless f, hplaceless, Failure.message_placeless]

/-- **Metadata never leaks.** Whatever places and local names are written down in a tree, its text is that of the tree
without them, also if it is made from notes, and so is its document. -/
theorem Node.metadata_never_leaks (n : Node) :
    n.text = n.clearMetadata.text ∧ n.textNoted = n.clearMetadata.textNoted ∧ n.textNoted = n.text ∧
      SameResult n.document n.clearMetadata.document := by
  refine ⟨(text_clearMetadata n).symm, ?_, textNoted_eq_text n, .of_mapError (document_clearMetadata n).symm⟩
  rw [textNoted_eq_text, textNoted_eq_text, text_clearMetadata]

end FlightScript
