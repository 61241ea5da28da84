import FlightScript.Proofs.Levels

/-!
# `Proofs.Metadata` — what metadata does not change

The places of nodes in their text, and the local names written down in them, have no influence on the canonical
text of a tree nor on its document.

## Contents

* `Node.render_clearMetadata`: the text;
* `Failure.placeless`: a failure without the place it is about;
* `Export.root_clearMetadata`: the element, or the failure up to its place.
-/

namespace FlightScript

namespace Node

@[simp] theorem isIdentifier_clearMetadata (n : Node) : n.clearMetadata.isIdentifier = n.isIdentifier := by
  cases n <;> rfl

@[simp] theorem isIfElse_clearMetadata (n : Node) : n.clearMetadata.isIfElse = n.isIfElse := by
  cases n <;> rfl

@[simp] theorem isConstant_clearMetadata (value : String) (n : Node) :
    n.clearMetadata.isConstant value = n.isConstant value := by
  cases n <;> rfl

section Render

attribute [local simp] render clearMetadata

mutual

/-- The text of a tree does not depend on metadata. -/
theorem render_clearMetadata (s : Scope) (depth ceiling : Nat) :
    (n : Node) → n.clearMetadata.render s depth ceiling = n.render s depth ceiling
  | error .. => rfl
  | program name vars body loc => by
      simp only [render, clearMetadata, statements_clearMetadata s 0 body, List.map_map]
      rfl
  | variableDeclaration d => rfl
  | instructionDeclaration head body => by
      simp only [render, clearMetadata, DeclarationHead.clearMetadata, statements_clearMetadata _ _ body]
  | expressionDeclaration head value => by
      simp only [render, clearMetadata, DeclarationHead.clearMetadata, render_clearMetadata _ _ _ value]
  | event head body => by
      simp only [render, clearMetadata, EventHead.clearMetadata, statements_clearMetadata _ _ body]
      rfl
  | detached pos body loc => by
      simp only [render, clearMetadata, statements_clearMetadata _ _ body]
  | instruction use arguments => by
      simp only [render, clearMetadata, items_clearMetadata s arguments]
      rfl
  | assignment operator target value loc => by
      simp only [render, clearMetadata, isIdentifier_clearMetadata, render_clearMetadata _ _ _ target,
        render_clearMetadata _ _ _ value]
  | comment text loc => rfl
  | wait kind condition loc => by
      simp only [render, clearMetadata, isConstant_clearMetadata, render_clearMetadata _ _ _ condition]
  | ifElse condition consequent alternative loc => by
      simp only [render, clearMetadata, render_clearMetadata _ _ _ condition,
        statements_clearMetadata _ _ consequent, otherwise_clearMetadata _ _ alternative]
  | whileLoop condition body loc => by
      simp only [render, clearMetadata, render_clearMetadata _ _ _ condition, statements_clearMetadata _ _ body]
  | forLoop head first last step body => by
      simp only [render, clearMetadata, ForHead.clearMetadata, isConstant_clearMetadata,
        render_clearMetadata _ _ _ first, render_clearMetadata _ _ _ last, render_clearMetadata _ _ _ step,
        statements_clearMetadata _ _ body]
  | breakLoop loc => rfl
  | repeatLoop count body loc => by
      simp only [render, clearMetadata, render_clearMetadata _ _ _ count, statements_clearMetadata _ _ body]
  | identifier use arguments => by
      have hlength : (clearMetadataAll arguments).length = arguments.length := by simp
      simp only [render, clearMetadata, items_clearMetadata s arguments, hlength]
      rfl
  | constant value loc => rfl
  | binary op lhs rhs loc => by
      simp only [render, clearMetadata, render_clearMetadata _ _ _ lhs, render_clearMetadata _ _ _ rhs]
  | unary op operand loc => by
      simp only [render, clearMetadata, render_clearMetadata _ _ _ operand]
  | conditional condition consequent alternative loc => by
      simp only [render, clearMetadata, render_clearMetadata _ _ _ condition, render_clearMetadata _ _ _ consequent,
        render_clearMetadata _ _ _ alternative]

/-- The texts of statements, one by one. They are rendered in a scope, which does not change with metadata. -/
theorem statements_clearMetadata (s : Scope) (depth : Nat) :
    (ns : List Node) → statements s depth (clearMetadataAll ns) = statements s depth ns
  | [] => rfl
  | n :: ns => by
      simp only [clearMetadataAll, statements, render_clearMetadata _ _ _ n, statements_clearMetadata _ _ ns]

/-- What is printed behind `else` depends on whether it is a single further condition, which metadata does not
change. -/
theorem otherwise_clearMetadata (s : Scope) (depth : Nat) :
    (ns : List Node) → otherwise s depth (clearMetadataAll ns) = otherwise s depth ns
  | [] => rfl
  | n :: ns => by
      have hempty : (clearMetadataAll ns).isEmpty = ns.isEmpty := by cases ns <;> rfl
      simp only [clearMetadataAll, otherwise, isIfElse_clearMetadata, hempty, render_clearMetadata _ _ _ n,
        statements_clearMetadata _ _ ns]

theorem items_clearMetadata (s : Scope) : (ns : List Node) → items s (clearMetadataAll ns) = items s ns
  | [] => rfl
  | n :: ns => by
      simp only [clearMetadataAll, items, render_clearMetadata _ _ _ n, items_clearMetadata s ns]

end

end Render

end Node

/-! ## Documents

An export can fail, and a failure carries the place of the node that it is about. So the documents are compared
up to that place: `mapError` with a function that drops it. -/

theorem toOption_bind {ε α β : Type} (x : Except ε α) (f : α → Except ε β) :
    (x >>= f).toOption = x.toOption.bind fun a => (f a).toOption := by
  cases x <;> rfl

namespace Failure

/-- A failure without the place it is about. -/
def placeless : Failure → Failure
  | wrongRoot name _ => .wrongRoot name .synthetic
  | missingAttribute attr element _ => .missingAttribute attr element .synthetic
  | unresolvedInstruction name _ => .unresolvedInstruction name none
  | unresolvedIdentifier name _ => .unresolvedIdentifier name none
  | unexpectedOperator symbol _ => .unexpectedOperator symbol none
  | unexpectedEvent event _ => .unexpectedEvent event none
  | unexpectedNode kind _ => .unexpectedNode kind none
  | severalElements kind _ => .severalElements kind none
  | f => f

@[simp] theorem code_placeless (f : Failure) : f.placeless.code = f.code := by
  cases f <;> rfl

@[simp] theorem message_placeless (f : Failure) : f.placeless.message = f.message := by
  cases f <;> rfl

end Failure

theorem mapError_bind {ε ε' α β : Type} (g : ε → ε') (x : Except ε α) (f : α → Except ε β) :
    (x >>= f).mapError g = x.mapError g >>= fun a => (f a).mapError g := by
  cases x <;> rfl

theorem toOption_mapError {ε ε' α : Type} (g : ε → ε') (x : Except ε α) : (x.mapError g).toOption = x.toOption := by
  cases x <;> rfl

/-- What is the same up to failures has the same result, if any. -/
theorem toOption_of_mapError {ε ε' α : Type} {g : ε → ε'} {x y : Except ε α}
    (h : x.mapError g = y.mapError g) : x.toOption = y.toOption := by
  rw [← toOption_mapError g x, h, toOption_mapError]

namespace Export

open Failure (placeless)
open Node (clearMetadata clearMetadataAll)

section Clear

attribute [local simp] expression expressions statement statements rungs topLevels Node.clearMetadata
  Node.clearMetadataAll mapError_bind

/-- What stands after `else`, unless it is a single further condition. -/
theorem rungs_cons (s : Scope) {n : Node} {ns : List Node} (h : (n.isIfElse && ns.isEmpty) = false) :
    rungs s (n :: ns) = (do
      let es ← statement s n
      let rest ← statements s ns
      return [construct "ElseIf" "else" [] [.make "Constant" [("bool", "true")] []] (es ++ rest)]) := by
  cases ns with
  | cons m ms => simp only [rungs]
  | nil => cases n <;> first | rfl | cases h

mutual

/-- The element of an expression, or the failure up to its place, by induction over the tree. Every case exports
its parts in order, so the induction is applied to each of them under the sequence. -/
theorem expression_clearMetadata (s : Scope) :
    (n : Node) → (expression s n.clearMetadata).mapError placeless = (expression s n).mapError placeless
  | .identifier use arguments => by
      have hargs := expressions_clearMetadata s arguments
      have huse : s.identifier? use.clearMetadata.name use.clearMetadata.kind = s.identifier? use.name use.kind := rfl
      simp only [expression, clearMetadata, huse]
      cases s.identifier? use.name use.kind with
      | none => rfl
      | some d => simp only [mapError_bind, hargs]
  | .constant value loc => rfl
  | .binary op lhs rhs loc => by
      simp only [expression, clearMetadata]
      cases Catalog.operator? op with
      | none => rfl
      | some d => simp only [mapError_bind, expression_clearMetadata s lhs, expression_clearMetadata s rhs]
  | .unary op operand loc => by
      simp only [expression, clearMetadata]
      split
      · simp only [mapError_bind, expression_clearMetadata s operand]
      · rfl
  | .conditional condition consequent alternative loc => by
      simp only [expression, clearMetadata, mapError_bind, expression_clearMetadata s condition,
        expression_clearMetadata s consequent, expression_clearMetadata s alternative]
  | .error .. => rfl
  | .program .. => rfl
  | .variableDeclaration .. => rfl
  | .instructionDeclaration .. => rfl
  | .expressionDeclaration .. => rfl
  | .event .. => rfl
  | .detached .. => rfl
  | .instruction .. => rfl
  | .assignment .. => rfl
  | .comment .. => rfl
  | .wait .. => rfl
  | .ifElse .. => rfl
  | .whileLoop .. => rfl
  | .forLoop .. => rfl
  | .breakLoop .. => rfl
  | .repeatLoop .. => rfl

/-- The elements of several expressions, up to the first one that fails. -/
theorem expressions_clearMetadata (s : Scope) :
    (ns : List Node) → (expressions s (clearMetadataAll ns)).mapError placeless = (expressions s ns).mapError placeless
  | [] => rfl
  | n :: ns => by
      simp only [clearMetadataAll, expressions, mapError_bind, expression_clearMetadata s n,
        expressions_clearMetadata s ns]

end

mutual

/-- The element of a statement, or the failure up to its place. The scope that a counting loop exports its body
in is made from its variable, which is not metadata. -/
theorem statement_clearMetadata (s : Scope) :
    (n : Node) → (statement s n.clearMetadata).mapError placeless = (statement s n).mapError placeless
  | .instruction use arguments => by
      have hargs := expressions_clearMetadata s arguments
      have huse : s.instruction? use.clearMetadata.name use.clearMetadata.kind = s.instruction? use.name use.kind := rfl
      simp only [statement, clearMetadata, huse]
      cases s.instruction? use.name use.kind with
      | none => rfl
      | some d => simp only [mapError_bind, hargs]
  | .wait kind condition loc => by
      simp only [statement, clearMetadata, mapError_bind, expression_clearMetadata s condition]
  | .ifElse condition consequent alternative loc => by
      simp only [statement, clearMetadata, mapError_bind, expression_clearMetadata s condition,
        statements_clearMetadata s consequent, rungs_clearMetadata s alternative]
  | .whileLoop condition body loc => by
      simp only [statement, clearMetadata, mapError_bind, expression_clearMetadata s condition,
        statements_clearMetadata s body]
  | .repeatLoop count body loc => by
      simp only [statement, clearMetadata, mapError_bind, expression_clearMetadata s count,
        statements_clearMetadata s body]
  | .forLoop head first last step body => by
      simp only [statement, clearMetadata, mapError_bind, expression_clearMetadata s first,
        expression_clearMetadata s last, expression_clearMetadata s step, statements_clearMetadata s body]
      rfl
  | .assignment operator target value loc => by
      simp only [statement, clearMetadata, mapError_bind, expression_clearMetadata s target,
        expression_clearMetadata s value]
  | .breakLoop .. => rfl
  | .comment .. => rfl
  | .error .. => rfl
  | .program .. => rfl
  | .variableDeclaration .. => rfl
  | .instructionDeclaration .. => rfl
  | .expressionDeclaration .. => rfl
  | .event .. => rfl
  | .detached .. => rfl
  | .identifier .. => rfl
  | .constant .. => rfl
  | .binary .. => rfl
  | .unary .. => rfl
  | .conditional .. => rfl

theorem statements_clearMetadata (s : Scope) :
    (ns : List Node) → (statements s (clearMetadataAll ns)).mapError placeless = (statements s ns).mapError placeless
  | [] => rfl
  | n :: ns => by
      simp only [clearMetadataAll, statements, mapError_bind, statement_clearMetadata s n,
        statements_clearMetadata s ns]

/-- What stands behind `else`: a single further condition becomes a rung of its own, anything else a last one.
Which of the two it is does not depend on metadata. -/
theorem rungs_clearMetadata (s : Scope) :
    (ns : List Node) → (rungs s (clearMetadataAll ns)).mapError placeless = (rungs s ns).mapError placeless
  | [] => rfl
  | n :: m :: ns => by
      have h : (n.isIfElse && (m :: ns).isEmpty) = false := by simp
      have hclear : (n.clearMetadata.isIfElse && (clearMetadataAll (m :: ns)).isEmpty) = false := by
        simp [clearMetadataAll]
      rw [rungs_cons s h, clearMetadataAll, rungs_cons s hclear]
      simp only [mapError_bind, statement_clearMetadata s n, statements_clearMetadata s (m :: ns)]
  | [n] => by
      have hother : n.isIfElse = false →
          (rungs s (clearMetadataAll [n])).mapError placeless = (rungs s [n]).mapError placeless := by
        intro h
        have hclear : (n.clearMetadata.isIfElse && (clearMetadataAll []).isEmpty) = false := by simpa using h
        rw [rungs_cons s (by simpa using h), clearMetadataAll, rungs_cons s hclear]
        simp only [mapError_bind, statement_clearMetadata s n, statements_clearMetadata s []]
      cases n with
      | ifElse condition consequent alternative loc =>
          simp only [clearMetadataAll, clearMetadata, rungs, mapError_bind, expression_clearMetadata s condition,
            statements_clearMetadata s consequent, rungs_clearMetadata s alternative]
      | _ => exact hother rfl

end

/-- The element of an item, or the failure up to its place. -/
theorem topLevel_clearMetadata (s : Scope) (n : Node) :
    (topLevel s n.clearMetadata).mapError placeless = (topLevel s n).mapError placeless := by
  cases n with
  | event head body =>
      simp only [topLevel, clearMetadata, EventHead.clearMetadata]
      cases Catalog.event? head.event with
      | none => rfl
      | some d => simp only [mapError_bind, statements_clearMetadata s body]; rfl
  | instructionDeclaration head body =>
      simp only [topLevel, clearMetadata, mapError_bind, statements_clearMetadata s body]
      rfl
  | detached pos body loc =>
      have hempty : (clearMetadataAll body).isEmpty = body.isEmpty := by cases body <;> rfl
      simp only [topLevel, clearMetadata, mapError_bind, statements_clearMetadata s body, hempty]
  | _ => rfl

/-- An item that is no declared expression has a block of its own. -/
theorem topLevels_cons (s : Scope) {n : Node} (ns : List Node)
    (h : ∀ head value, n ≠ .expressionDeclaration head value) : topLevels s (n :: ns) = (do
      let b ← topLevel s n
      let (blocks, declared) ← topLevels s ns
      return (b.toList ++ blocks, declared)) := by
  cases n <;> first | rfl | exact absurd rfl (h _ _)

/-- The elements of all items. Declared expressions are exported elsewhere, and metadata does not make an item
one. -/
theorem topLevels_clearMetadata (s : Scope) (ns : List Node) :
    (topLevels s (clearMetadataAll ns)).mapError placeless = (topLevels s ns).mapError placeless := by
  induction ns using topLevels.induct with
  | case1 => rfl
  | case2 head value ns ih =>
      simp only [clearMetadataAll, clearMetadata, topLevels, mapError_bind, expression_clearMetadata s value, ih]
      rfl
  | case3 n ns h ih =>
      have hclear : ∀ head value, n.clearMetadata ≠ .expressionDeclaration head value := by
        intro head value heq
        cases n <;> first | exact h _ _ rfl | cases heq
      rw [clearMetadataAll, topLevels_cons s ns h, topLevels_cons s _ hclear]
      simp only [mapError_bind, topLevel_clearMetadata s n, ih]

/-- Metadata has no influence on the document of a program. -/
theorem program_clearMetadata (s : Scope) (name : String) (vars : List VariableDeclaration) (body : List Node) :
    (program s name (vars.map VariableDeclaration.clearMetadata) (clearMetadataAll body)).mapError placeless =
      (program s name vars body).mapError placeless := by
  have hvars : (vars.map VariableDeclaration.clearMetadata).map variableElement = vars.map variableElement := by
    rw [List.map_map]
    rfl
  simp only [program, mapError_bind, topLevels_clearMetadata s body, hvars]

/-- Metadata has no influence on the element of a tree, and only places tell failures apart. -/
theorem root_clearMetadata (s : Scope) (n : Node) :
    (root s n.clearMetadata).mapError placeless = (root s n).mapError placeless := by
  have hsingle : ∀ es, (single n.clearMetadata es).mapError placeless = (single n es).mapError placeless := by
    intro es
    have hkind : n.clearMetadata.kindName = n.kindName := by cases n <;> rfl
    simp only [single, hkind]
    split <;> rfl
  have htop := topLevel_clearMetadata s n
  have hstatement := statement_clearMetadata s n
  cases n with
  | program name vars body loc => exact program_clearMetadata s name vars body
  | variableDeclaration d => rfl
  | expressionDeclaration head value =>
      simp only [root, clearMetadata, mapError_bind, expression_clearMetadata s value]
      rfl
  | event | instructionDeclaration | detached =>
      simp only [root, clearMetadata, mapError_bind] at htop ⊢
      rw [htop]
      congr 1
      funext e
      cases e <;> rfl
  | identifier | constant | binary | unary | conditional => exact expression_clearMetadata s _
  | _ =>
      simp only [root, clearMetadata, mapError_bind] at hstatement hsingle ⊢
      rw [hstatement]
      congr 1
      funext es
      exact hsingle es

end Clear

end Export

end FlightScript
