import FlightScript.Resolution

/-!
# `Proofs.Idempotence` — resolving again changes nothing

Any tree at all can be resolved: programs may be nested in it, names may have kinds already, and local names may be
written down that are not bound. A second run takes other branches than the first one, since no kind is unknown any
more. It comes to the same because it goes through the same scopes: resolving changes nothing in a tree that is
declared, so that what is known behind a tree, or in the body of a program, is known there again.

## Contents

* `Globals.ofProgram_resolveAll`, `Scope.after_resolve`: scopes stay in step;
* `Scope.resolveIdentifier_resolveIdentifier`, `Scope.resolveInstruction_resolveInstruction`: single names;
* `Node.resolve_resolve`, `Node.complaints_resolve`: trees, in any scope;
* `Node.resolution_idempotent`: whole trees.
-/

namespace FlightScript

/-! ## Scopes stay in step

What a tree declares is in its heads and in its programs, and resolving touches neither. -/

theorem Globals.add_resolve (s : Scope) (g : Globals) (n : Node) : g.add (n.resolve s) = g.add n := by
  cases n <;> rfl

/-- A program declares the same names when its body is resolved. -/
theorem Globals.ofProgram_resolveAll (vars : List VariableDeclaration) (s : Scope) (body : List Node) :
    ofProgram vars (Node.resolveAll s body) = ofProgram vars body := by
  -- each tree of the body has a scope of its own, so the induction is over any scope
  have hfold : ∀ (ns : List Node) (g : Globals) (s : Scope), (Node.resolveAll s ns).foldl add g = ns.foldl add g := by
    intro ns
    induction ns with
    | nil =>
        intro g s
        rfl
    | cons n ns ih =>
        intro g s
        rw [Node.resolveAll, List.foldl_cons, List.foldl_cons, add_resolve, ih]
  exact hfold body _ s

theorem Globals.ofNode_resolved (n : Node) : ofNode n.resolved = ofNode n := by
  cases n with
  | program _ vars body _ => exact ofProgram_resolveAll vars _ body
  | _ => rfl

namespace Node

section Declared

attribute [local simp] resolve walk Globals.meet Globals.ofProgram_resolveAll

mutual

/-- The programs met in a tree declare the same names when the tree is resolved. -/
theorem foldl_meet_resolve (g : Globals) (s : Scope) : (n : Node) →
    (n.resolve s).walk.foldl Globals.meet g = n.walk.foldl Globals.meet g
  | error .. => rfl
  | variableDeclaration _ => rfl
  | comment .. => rfl
  | breakLoop _ => rfl
  | constant .. => rfl
  | program _ _ body _ => by simp [foldl_meet_resolveAll _ _ body]
  | instructionDeclaration _ body => by simp [foldl_meet_resolveAll _ _ body]
  | expressionDeclaration _ value => by simp [foldl_meet_resolve _ _ value]
  | event _ body => by simp [foldl_meet_resolveAll _ _ body]
  | detached _ body _ => by simp [foldl_meet_resolveAll _ _ body]
  | instruction _ arguments => by simp [foldl_meet_resolveAll _ _ arguments]
  | assignment _ target value _ => by simp [foldl_meet_resolve _ _ target, foldl_meet_resolve _ _ value]
  | wait _ condition _ => by simp [foldl_meet_resolve _ _ condition]
  | ifElse condition consequent alternative _ => by
      simp [foldl_meet_resolve _ _ condition, foldl_meet_resolveAll _ _ consequent, foldl_meet_resolveAll _ _ alternative]
  | whileLoop condition body _ => by simp [foldl_meet_resolve _ _ condition, foldl_meet_resolveAll _ _ body]
  | forLoop _ first last step body => by
      simp [foldl_meet_resolve _ _ first, foldl_meet_resolve _ _ last, foldl_meet_resolve _ _ step,
        foldl_meet_resolveAll _ _ body]
  | repeatLoop count body _ => by simp [foldl_meet_resolve _ _ count, foldl_meet_resolveAll _ _ body]
  | identifier _ arguments => by simp [foldl_meet_resolveAll _ _ arguments]
  | binary _ lhs rhs _ => by simp [foldl_meet_resolve _ _ lhs, foldl_meet_resolve _ _ rhs]
  | unary _ operand _ => by simp [foldl_meet_resolve _ _ operand]
  | conditional condition consequent alternative _ => by
      simp [foldl_meet_resolve _ _ condition, foldl_meet_resolve _ _ consequent, foldl_meet_resolve _ _ alternative]

/-- The programs met in several trees declare the same names when the trees are resolved. -/
theorem foldl_meet_resolveAll (g : Globals) (s : Scope) : (ns : List Node) →
    ((resolveAll s ns).flatMap walk).foldl Globals.meet g = (ns.flatMap walk).foldl Globals.meet g
  | [] => rfl
  | n :: ns => by
      rw [resolveAll, List.flatMap_cons, List.flatMap_cons, List.foldl_append, List.foldl_append,
        foldl_meet_resolve g s n, foldl_meet_resolveAll _ _ ns]

end

end Declared

/-- Resolving neither adds nor removes trees. -/
theorem length_resolveAll (s : Scope) (ns : List Node) : (resolveAll s ns).length = ns.length := by
  induction ns generalizing s with
  | nil => rfl
  | cons n ns ih => rw [resolveAll, List.length_cons, List.length_cons, ih]

end Node

namespace Scope

variable (s o : Scope)

/-- **What is known behind a tree** is known behind the resolved tree. -/
theorem after_resolve (n : Node) : o.after (n.resolve s) = o.after n := by
  rw [after, after, Node.foldl_meet_resolve]

theorem afterAll_resolveAll (ns : List Node) : o.afterAll (Node.resolveAll s ns) = o.afterAll ns := by
  induction ns generalizing o s with
  | nil => rfl
  | cons n ns ih =>
      show (o.after (n.resolve s)).afterAll (Node.resolveAll (s.after n) ns) = (o.after n).afterAll ns
      rw [after_resolve, ih]

/-- **What is known in the body of a program** is known in the resolved body. -/
theorem within_resolveAll (vars : List VariableDeclaration) (body : List Node) :
    o.within vars (Node.resolveAll s body) = o.within vars body := by
  rw [within, within, Globals.ofProgram_resolveAll]

/-! ## Single names

A name that is resolved has a known kind, and a known kind is left as it is. -/

theorem identifierKind_ne_unknown (name : String) (k : Nat) : s.identifierKind name k ≠ .unknown := by
  unfold identifierKind
  repeat' split
  all_goals simp

theorem instructionKind_ne_unknown (name : String) : s.instructionKind name ≠ .unknown := by
  unfold instructionKind
  repeat' split
  all_goals simp

variable {s} in
theorem resolveIdentifier_of_known {u : Use IdentifierKind} {k : Nat} (h : u.kind ≠ .unknown) :
    s.resolveIdentifier u k = u := if_neg h

variable {s} in
theorem resolveInstruction_of_known {u : Use InstructionKind} (h : u.kind ≠ .unknown) :
    s.resolveInstruction u = u := if_neg h

theorem resolveIdentifier_known (u : Use IdentifierKind) (k : Nat) : (s.resolveIdentifier u k).kind ≠ .unknown := by
  unfold resolveIdentifier
  split
  · exact s.identifierKind_ne_unknown _ _
  · assumption

theorem resolveInstruction_known (u : Use InstructionKind) : (s.resolveInstruction u).kind ≠ .unknown := by
  unfold resolveInstruction
  split
  · exact s.instructionKind_ne_unknown _
  · assumption

theorem resolveIdentifier_resolveIdentifier (u : Use IdentifierKind) (k : Nat) :
    s.resolveIdentifier (s.resolveIdentifier u k) k = s.resolveIdentifier u k :=
  resolveIdentifier_of_known (s.resolveIdentifier_known u k)

theorem resolveInstruction_resolveInstruction (u : Use InstructionKind) :
    s.resolveInstruction (s.resolveInstruction u) = s.resolveInstruction u :=
  resolveInstruction_of_known (s.resolveInstruction_known u)

end Scope

/-! ## Trees

The recursion is that of resolving, with the scope generalised, since programs inside a tree change it. -/

namespace Node

section Trees

attribute [local simp] resolve resolveAll complaints complaintsAll length_resolveAll Scope.after_resolve
  Scope.afterAll_resolveAll Scope.within_resolveAll Scope.resolveIdentifier_resolveIdentifier
  Scope.resolveInstruction_resolveInstruction

mutual

/-- **Resolving a resolved tree changes nothing**, whatever the scope. -/
theorem resolve_resolve (s : Scope) : (n : Node) → (n.resolve s).resolve s = n.resolve s
  | error .. => rfl
  | variableDeclaration _ => rfl
  | comment .. => rfl
  | breakLoop _ => rfl
  | constant .. => rfl
  -- the second run takes the scope of the body from the resolved body
  | program _ _ body _ => by simp [resolveAll_resolveAll _ body]
  | instructionDeclaration _ body => by simp [resolveAll_resolveAll _ body]
  | expressionDeclaration _ value => by simp [resolve_resolve _ value]
  | event _ body => by simp [resolveAll_resolveAll _ body]
  | detached _ body _ => by simp [resolveAll_resolveAll _ body]
  | instruction _ arguments => by simp [resolveAll_resolveAll _ arguments]
  | assignment _ target value _ => by simp [resolve_resolve _ target, resolve_resolve _ value]
  | wait _ condition _ => by simp [resolve_resolve _ condition]
  | ifElse condition consequent alternative _ => by
      simp [resolve_resolve _ condition, resolveAll_resolveAll _ consequent, resolveAll_resolveAll _ alternative]
  | whileLoop condition body _ => by simp [resolve_resolve _ condition, resolveAll_resolveAll _ body]
  | forLoop _ first last step body => by
      simp [resolve_resolve _ first, resolve_resolve _ last, resolve_resolve _ step, resolveAll_resolveAll _ body]
  | repeatLoop count body _ => by simp [resolve_resolve _ count, resolveAll_resolveAll _ body]
  | identifier _ arguments => by simp [resolveAll_resolveAll _ arguments]
  | binary _ lhs rhs _ => by simp [resolve_resolve _ lhs, resolve_resolve _ rhs]
  | unary _ operand _ => by simp [resolve_resolve _ operand]
  | conditional condition consequent alternative _ => by
      simp [resolve_resolve _ condition, resolve_resolve _ consequent, resolve_resolve _ alternative]

/-- Resolving several resolved trees changes nothing: behind each of them the same is known as before. -/
theorem resolveAll_resolveAll (s : Scope) : (ns : List Node) → resolveAll s (resolveAll s ns) = resolveAll s ns
  | [] => rfl
  | n :: ns => by simp [resolve_resolve s n, resolveAll_resolveAll _ ns]

end

mutual

/-- **A resolved tree draws the same complaints** in the same order. -/
theorem complaints_resolve (s : Scope) : (n : Node) → (n.resolve s).complaints s = n.complaints s
  | error .. => rfl
  | variableDeclaration _ => rfl
  | comment .. => rfl
  | breakLoop _ => rfl
  | constant .. => rfl
  | program _ _ body _ => by simp [complaintsAll_resolveAll _ body]
  | instructionDeclaration _ body => by simp [complaintsAll_resolveAll _ body]
  | expressionDeclaration _ value => by simp [complaints_resolve _ value]
  | event _ body => by
      -- what is said about the head does not depend on the names written down in it
      simp only [resolve, complaints, complaintsAll_resolveAll _ body]
      rfl
  | detached _ body _ => by simp [complaintsAll_resolveAll _ body]
  | instruction _ arguments => by simp [complaintsAll_resolveAll _ arguments]
  | assignment _ target value _ => by simp [complaints_resolve _ target, complaints_resolve _ value]
  | wait _ condition _ => by simp [complaints_resolve _ condition]
  | ifElse condition consequent alternative _ => by
      simp [complaints_resolve _ condition, complaintsAll_resolveAll _ consequent, complaintsAll_resolveAll _ alternative]
  | whileLoop condition body _ => by simp [complaints_resolve _ condition, complaintsAll_resolveAll _ body]
  | forLoop _ first last step body => by
      simp [complaints_resolve _ first, complaints_resolve _ last, complaints_resolve _ step,
        complaintsAll_resolveAll _ body]
  | repeatLoop count body _ => by simp [complaints_resolve _ count, complaintsAll_resolveAll _ body]
  -- complaints are about the kind that the first run wrote down, also in the first run
  | identifier _ arguments => by simp [complaintsAll_resolveAll _ arguments]
  | binary _ lhs rhs _ => by simp [complaints_resolve _ lhs, complaints_resolve _ rhs]
  | unary _ operand _ => by simp [complaints_resolve _ operand]
  | conditional condition consequent alternative _ => by
      simp [complaints_resolve _ condition, complaints_resolve _ consequent, complaints_resolve _ alternative]

theorem complaintsAll_resolveAll (s : Scope) : (ns : List Node) →
    complaintsAll s (resolveAll s ns) = complaintsAll s ns
  | [] => rfl
  | n :: ns => by simp [complaints_resolve s n, complaintsAll_resolveAll _ ns]

end

end Trees

/-- **Resolution is idempotent.** A second run leaves every tree as the first one made it, and posts the same problems
in the same order. -/
theorem resolution_idempotent (n : Node) : n.resolved.resolved = n.resolved ∧ n.resolved.problems = n.problems :=
  ⟨resolve_resolve {} n, complaints_resolve {} n⟩

end Node

end FlightScript
