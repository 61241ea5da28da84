import FlightScript.Proofs.Grammar

/-!
# `Proofs.Paths` — places in a tree

A node has parts, and every part plays a role: the condition of a loop, its body, an argument. A place in a tree
is a path of such steps from the root. A tree is known once it is known what stands at each of its places, without
the parts of what stands there.

## Contents

* `Role`, `Node.part`, `Node.refill`: the parts of a node, and the node with other parts;
* `Node.Step`, `Node.at?`: what stands at the end of a path;
* `Node.own`: a node without its parts;
* `Node.eq_of_own_at`: trees that agree at each place are equal.
-/

namespace FlightScript

/-! ## Parts -/

/-- The role of a node in the node that it is part of. -/
inductive Role where
  | body | value | argument | target | condition | consequent | alternative
  | first | last | step | count | left | right | operand
deriving DecidableEq, Repr

namespace Node

/-- The parts of a node that play a role, in order. -/
def part : Node → Role → List Node
  | program _ _ body _, .body => body
  | instructionDeclaration _ body, .body => body
  | expressionDeclaration _ value, .value => [value]
  | event _ body, .body => body
  | detached _ body _, .body => body
  | instruction _ arguments, .argument => arguments
  | assignment _ target _ _, .target => [target]
  | assignment _ _ value _, .value => [value]
  | wait _ condition _, .condition => [condition]
  | ifElse condition _ _ _, .condition => [condition]
  | ifElse _ consequent _ _, .consequent => consequent
  | ifElse _ _ alternative _, .alternative => alternative
  | whileLoop condition _ _, .condition => [condition]
  | whileLoop _ body _, .body => body
  | forLoop _ first _ _ _, .first => [first]
  | forLoop _ _ last _ _, .last => [last]
  | forLoop _ _ _ step _, .step => [step]
  | forLoop _ _ _ _ body, .body => body
  | repeatLoop count _ _, .count => [count]
  | repeatLoop _ body _, .body => body
  | identifier _ arguments, .argument => arguments
  | binary _ lhs _ _, .left => [lhs]
  | binary _ _ rhs _, .right => [rhs]
  | unary _ operand _, .operand => [operand]
  | conditional condition _ _ _, .condition => [condition]
  | conditional _ consequent _ _, .consequent => [consequent]
  | conditional _ _ alternative _, .alternative => [alternative]
  | _, _ => []

/-- The node with other parts. A part that is left out is missing. -/
def refill (n : Node) (parts : Role → List Node) : Node :=
  let only (role : Role) : Node := (parts role).headD .missing
  match n with
  | program name vars _ loc => .program name vars (parts .body) loc
  | instructionDeclaration head _ => .instructionDeclaration head (parts .body)
  | expressionDeclaration head _ => .expressionDeclaration head (only .value)
  | event head _ => .event head (parts .body)
  | detached pos _ loc => .detached pos (parts .body) loc
  | instruction use _ => .instruction use (parts .argument)
  | assignment operator _ _ loc => .assignment operator (only .target) (only .value) loc
  | wait kind _ loc => .wait kind (only .condition) loc
  | ifElse _ _ _ loc => .ifElse (only .condition) (parts .consequent) (parts .alternative) loc
  | whileLoop _ _ loc => .whileLoop (only .condition) (parts .body) loc
  | forLoop head _ _ _ _ => .forLoop head (only .first) (only .last) (only .step) (parts .body)
  | repeatLoop _ _ loc => .repeatLoop (only .count) (parts .body) loc
  | identifier use _ => .identifier use (parts .argument)
  | binary op _ _ loc => .binary op (only .left) (only .right) loc
  | unary op _ loc => .unary op (only .operand) loc
  | conditional _ _ _ loc => .conditional (only .condition) (only .consequent) (only .alternative) loc
  | n => n

/-- The node alone, without its parts. -/
def own (n : Node) : Node := n.refill fun _ => []

variable {n m : Node} {role : Role}

theorem refill_part (n : Node) : n.refill n.part = n := by
  cases n <;> rfl

theorem refill_own (n : Node) (parts : Role → List Node) : n.own.refill parts = n.refill parts := by
  cases n <;> rfl

/-- A node is known by itself and its parts. -/
theorem eq_of_own_part (hown : n.own = m.own) (hpart : n.part = m.part) : n = m := by
  rw [← refill_part n, ← refill_part m, ← refill_own n, ← refill_own m, hown, hpart]

/-- What stands in a part stands below the node. -/
theorem walk_subset_of_mem_part (hm : m ∈ n.part role) : m.walk ⊆ n.walk.tail := by
  intro x hx
  revert hm
  fun_cases part n role
  all_goals
    simp only [walk, List.tail_cons, walkAll_eq_flatMap, List.mem_append, List.mem_flatMap, List.not_mem_nil,
      false_imp_iff] <;> grind

/-- A part is smaller than the node. -/
theorem sizeOf_lt_of_mem_part (hm : m ∈ n.part role) : sizeOf m < sizeOf n := by
  have hlist : ∀ ns : List Node, m ∈ ns → sizeOf m < sizeOf ns := fun _ => List.sizeOf_lt_of_mem
  revert hm
  fun_cases part n role
  all_goals
    simp <;> grind

/-! ## Places -/

/-- A step from a node to one of its parts: the role of the part, and how many parts with that role stand
before it. -/
structure Step where
  role : Role
  index : Nat
deriving DecidableEq, Repr

/-- The part that a step leads to. -/
def child? (n : Node) (step : Step) : Option Node := (n.part step.role)[step.index]?

/-- What stands at the end of a path from the root of a tree. -/
def at? : Node → List Step → Option Node
  | n, [] => some n
  | n, step :: path =>
    match n.child? step with
    | some m => m.at? path
    | none => none

theorem at?_cons (n : Node) (step : Step) (path : List Step) :
    n.at? (step :: path) = (n.child? step).bind (·.at? path) := by
  rw [at?]
  cases n.child? step <;> rfl

theorem mem_part_of_child? {step : Step} (h : n.child? step = some m) : m ∈ n.part step.role :=
  List.mem_of_getElem? h

/-- What stands at a place stands in the tree. -/
theorem mem_walk_of_at? {path : List Step} (h : n.at? path = some m) : m ∈ n.walk := by
  induction path generalizing n with
  | nil =>
      cases h
      cases m <;> simp [walk]
  | cons step path ih =>
      rw [at?_cons, Option.bind_eq_some_iff] at h
      obtain ⟨child, hchild, hm⟩ := h
      exact List.mem_of_mem_tail (walk_subset_of_mem_part (mem_part_of_child? hchild) (ih hm))

/-- **Trees that agree at each place are equal.** -/
theorem eq_of_own_at (n m : Node) (h : ∀ path, (n.at? path).map own = (m.at? path).map own) : n = m := by
  refine eq_of_own_part (Option.some.inj (h [])) ?_
  funext role
  refine List.ext_getElem? fun i => ?_
  show n.child? ⟨role, i⟩ = m.child? ⟨role, i⟩
  -- the trees agree behind the step as well, and behind it they are smaller
  have hbehind : ∀ path, ((n.child? ⟨role, i⟩).bind (·.at? path)).map own =
      ((m.child? ⟨role, i⟩).bind (·.at? path)).map own := by
    intro path
    rw [← at?_cons, ← at?_cons, h]
  cases hn : n.child? ⟨role, i⟩ with
  | none =>
      cases hm : m.child? ⟨role, i⟩ with
      | none => rfl
      | some m' => simpa [hn, hm, at?] using hbehind []
  | some n' =>
      cases hm : m.child? ⟨role, i⟩ with
      | none => simpa [hn, hm, at?] using hbehind []
      | some m' =>
          have hsmaller : sizeOf n' < sizeOf n := sizeOf_lt_of_mem_part (mem_part_of_child? hn)
          rw [hn, hm] at hbehind
          rw [eq_of_own_at n' m' hbehind]
termination_by sizeOf n

end Node

end FlightScript
