import FlightScript.Resolution

/-!
# `Proofs.Grammar` — which trees stand where

One type holds every kind of node, so a tree may be odd. The trees that come from a text without problems are
not: an expression stands where an expression is asked, a statement where a statement is asked. A `Grammar` says
which constants, comments, names and heads may stand in a tree, and from it come the expressions, the statements,
the items of a program, and the programs. Most statements about trees are about the trees of some grammar, and
are proved by induction over their derivation.

## Contents

* `Grammar`, with `Grammar.Expression`, `Grammar.Statement`, `Grammar.Item` and `Grammar.Program`;
* `Node.Everywhere`: what holds of every node of a tree;
* `Node.ProgramFree`: trees in which no program is nested, so that the scope behind them is the one before them;
* the equations of `Node.resolve` and `Node.complaints` on such trees.
-/

namespace FlightScript

/-! ## Trees of a grammar

The parameters of a grammar are the choices in which the readers and the writers of trees differ: what a text can
spell, what a document can hold and what the printer leaves as it is are three grammars over the same four
inductive relations. A scope goes along, because a name may be allowed at one place and not at another. -/

/-- Which constants, comments, names and heads may stand in a tree. -/
structure Grammar where
  constant : Constant → Prop
  comment : String → Prop
  /-- A name in an expression, by its scope and the number of its arguments. -/
  identifier : Scope → Use IdentifierKind → Nat → Prop
  /-- An instruction, by its scope and the number of its arguments. -/
  instruction : Scope → Use InstructionKind → Nat → Prop
  position : Option String → Prop
  declaration : DeclarationHead → Prop
  event : EventHead → Prop

namespace Grammar

/-- The trees that stand where an expression is asked. -/
inductive Expression (g : Grammar) (s : Scope) : Node → Prop where
  | identifier {use : Use IdentifierKind} {arguments : List Node} :
      g.identifier s use arguments.length → (∀ a ∈ arguments, g.Expression s a) →
      g.Expression s (.identifier use arguments)
  | constant {value : Constant} {loc : Option Span} :
      g.constant value → g.Expression s (.constant value loc)
  | binary (op : Operator) {lhs rhs : Node} {loc : Option Span} :
      g.Expression s lhs → g.Expression s rhs → g.Expression s (.binary op.symbol lhs rhs loc)
  | negation {operand : Node} {loc : Option Span} :
      g.Expression s operand → g.Expression s (.unary "not" operand loc)
  | conditional {condition consequent alternative : Node} {loc : Option Span} :
      g.Expression s condition → g.Expression s consequent → g.Expression s alternative →
      g.Expression s (.conditional condition consequent alternative loc)

/-- The trees that stand where a statement is asked. A counting loop binds its variable in its body only. -/
inductive Statement (g : Grammar) : Scope → Node → Prop where
  | instruction {s : Scope} {use : Use InstructionKind} {arguments : List Node} :
      g.instruction s use arguments.length → (∀ a ∈ arguments, g.Expression s a) →
      g.Statement s (.instruction use arguments)
  | assignment {s : Scope} {operator : AssignOperator} {target value : Node} {loc : Option Span} :
      g.Expression s target → g.Expression s value →
      g.Statement s (.assignment operator target value loc)
  | comment {s : Scope} {text : String} {loc : Option Span} :
      g.comment text → g.Statement s (.comment text loc)
  | wait {s : Scope} {kind : WaitKind} {condition : Node} {loc : Option Span} :
      g.Expression s condition → g.Statement s (.wait kind condition loc)
  | ifElse {s : Scope} {condition : Node} {consequent alternative : List Node} {loc : Option Span} :
      g.Expression s condition → (∀ n ∈ consequent, g.Statement s n) →
      (∀ n ∈ alternative, g.Statement s n) →
      g.Statement s (.ifElse condition consequent alternative loc)
  | whileLoop {s : Scope} {condition : Node} {body : List Node} {loc : Option Span} :
      g.Expression s condition → (∀ n ∈ body, g.Statement s n) →
      g.Statement s (.whileLoop condition body loc)
  | forLoop {s : Scope} {head : ForHead} {first last step : Node} {body : List Node} :
      g.Expression s first → g.Expression s last → g.Expression s step →
      (∀ n ∈ body, g.Statement (s.push [head.var]) n) →
      g.Statement s (.forLoop head first last step body)
  | breakLoop {s : Scope} {loc : Option Span} : g.Statement s (.breakLoop loc)
  | repeatLoop {s : Scope} {count : Node} {body : List Node} {loc : Option Span} :
      g.Expression s count → (∀ n ∈ body, g.Statement s n) →
      g.Statement s (.repeatLoop count body loc)

/-- The trees that stand at the top of a program. -/
inductive Item (g : Grammar) (s : Scope) : Node → Prop where
  | event {head : EventHead} {body : List Node} :
      g.event head → (∀ n ∈ body, g.Statement (s.push head.parameters) n) →
      g.Item s (.event head body)
  | instructionDeclaration {head : DeclarationHead} {body : List Node} :
      g.declaration head → (∀ n ∈ body, g.Statement (s.push head.parameters) n) →
      g.Item s (.instructionDeclaration head body)
  | expressionDeclaration {head : DeclarationHead} {value : Node} :
      g.declaration head → g.Expression (s.push head.parameters) value →
      g.Item s (.expressionDeclaration head value)
  | detached {pos : Option String} {body : List Node} {loc : Option Span} :
      g.position pos → (∀ n ∈ body, g.Statement s n) → g.Item s (.detached pos body loc)

/-- The scope in the body of a program that nothing is around. -/
def scopeOf (vars : List VariableDeclaration) (body : List Node) : Scope :=
  { globals := .ofProgram vars body }

/-- The trees of whole programs. -/
inductive Program (g : Grammar) : Node → Prop where
  | program {name : String} {vars : List VariableDeclaration} {body : List Node} {loc : Option Span} :
      (∀ n ∈ body, g.Item (scopeOf vars body) n) → g.Program (.program name vars body loc)

end Grammar

/-! ## What holds everywhere in a tree

A tree is a root and the trees right below it. So is a walk through it, and so is what holds everywhere in it: one
equation for each kind of node reduces a statement about all the nodes of a tree to the root and the parts. They are
tagged for `simp`, which so takes such a statement apart along a tree that is given. -/

namespace Node

/-- The trees right below a node, in order. -/
def children : Node → List Node
  | error .. | variableDeclaration _ | comment .. | breakLoop _ | constant .. => []
  | program _ _ body _ => body
  | instructionDeclaration _ body => body
  | expressionDeclaration _ value => [value]
  | event _ body => body
  | detached _ body _ => body
  | instruction _ arguments => arguments
  | assignment _ target value _ => [target, value]
  | wait _ condition _ => [condition]
  | ifElse condition consequent alternative _ => condition :: (consequent ++ alternative)
  | whileLoop condition body _ => condition :: body
  | forLoop _ first last step body => first :: last :: step :: body
  | repeatLoop count body _ => count :: body
  | identifier _ arguments => arguments
  | binary _ lhs rhs _ => [lhs, rhs]
  | unary _ operand _ => [operand]
  | conditional condition consequent alternative _ => [condition, consequent, alternative]

theorem walk_eq (n : Node) : n.walk = n :: n.children.flatMap walk := by
  cases n <;> simp [walk, children]

theorem sizeOf_lt_of_mem_children {n m : Node} (h : m ∈ n.children) : sizeOf m < sizeOf n := by
  have hlist : ∀ {ns : List Node}, m ∈ ns → sizeOf m < sizeOf ns := List.sizeOf_lt_of_mem
  cases n <;> simp [children] at h <;> grind

/-- Induction over a tree, from the trees right below a node to the node. -/
@[elab_as_elim]
theorem childInduction {P : Node → Prop} (h : ∀ n : Node, (∀ m ∈ n.children, P m) → P n) (n : Node) : P n :=
  h n fun m _ => childInduction h m
termination_by sizeOf n
decreasing_by exact sizeOf_lt_of_mem_children ‹_›

/-- What goes through the trees right below every node goes through the whole walk. -/
theorem walk_map {f : Node → Node} (hf : ∀ n : Node, (f n).children = n.children.map f) (n : Node) :
    (f n).walk = n.walk.map f := by
  induction n using childInduction with
  | h n ih =>
      rw [walk_eq, walk_eq n, hf, List.map_cons, List.flatMap_map, List.map_flatMap, List.flatMap_def,
        List.flatMap_def, List.map_congr_left ih]

/-- Something holds of every node of a tree. -/
def Everywhere (P : Node → Prop) (n : Node) : Prop := ∀ m ∈ n.walk, P m

instance (P : Node → Prop) [DecidablePred P] (n : Node) : Decidable (n.Everywhere P) :=
  inferInstanceAs (Decidable (∀ m ∈ n.walk, P m))

section Everywhere

attribute [local simp] children

variable {P : Node → Prop} {l r c t e : Node} {ns ms : List Node} {loc : Option Span}

/-- Something holds everywhere in a tree exactly if it holds of its root and everywhere in the trees right below it.
-/
theorem everywhere_iff {n : Node} : n.Everywhere P ↔ P n ∧ ∀ m ∈ n.children, m.Everywhere P := by
  rw [Everywhere, walk_eq, List.forall_mem_cons, List.forall_mem_flatMap]
  rfl

@[simp] theorem everywhere_constant {v : Constant} :
    (constant v loc).Everywhere P ↔ P (constant v loc) :=
  everywhere_iff.trans (by simp)

@[simp] theorem everywhere_comment {text : String} :
    (comment text loc).Everywhere P ↔ P (comment text loc) :=
  everywhere_iff.trans (by simp)

@[simp] theorem everywhere_breakLoop : (breakLoop loc).Everywhere P ↔ P (breakLoop loc) :=
  everywhere_iff.trans (by simp)

@[simp] theorem everywhere_error {m : Option String} : (error m loc).Everywhere P ↔ P (error m loc) :=
  everywhere_iff.trans (by simp)

@[simp] theorem everywhere_identifier {u : Use IdentifierKind} :
    (identifier u ns).Everywhere P ↔ P (identifier u ns) ∧ ∀ n ∈ ns, n.Everywhere P :=
  everywhere_iff.trans (by simp)

@[simp] theorem everywhere_instruction {u : Use InstructionKind} :
    (instruction u ns).Everywhere P ↔ P (instruction u ns) ∧ ∀ n ∈ ns, n.Everywhere P :=
  everywhere_iff.trans (by simp)

@[simp] theorem everywhere_binary {op : String} :
    (binary op l r loc).Everywhere P ↔ P (binary op l r loc) ∧ l.Everywhere P ∧ r.Everywhere P :=
  everywhere_iff.trans (by simp)

@[simp] theorem everywhere_unary {op : String} :
    (unary op l loc).Everywhere P ↔ P (unary op l loc) ∧ l.Everywhere P :=
  everywhere_iff.trans (by simp)

@[simp] theorem everywhere_conditional :
    (conditional c t e loc).Everywhere P ↔
      P (conditional c t e loc) ∧ c.Everywhere P ∧ t.Everywhere P ∧ e.Everywhere P :=
  everywhere_iff.trans (by simp)

@[simp] theorem everywhere_assignment {op : AssignOperator} :
    (assignment op l r loc).Everywhere P ↔ P (assignment op l r loc) ∧ l.Everywhere P ∧ r.Everywhere P :=
  everywhere_iff.trans (by simp)

@[simp] theorem everywhere_wait {kind : WaitKind} :
    (wait kind c loc).Everywhere P ↔ P (wait kind c loc) ∧ c.Everywhere P :=
  everywhere_iff.trans (by simp)

@[simp] theorem everywhere_ifElse :
    (ifElse c ns ms loc).Everywhere P ↔
      P (ifElse c ns ms loc) ∧ c.Everywhere P ∧ (∀ n ∈ ns, n.Everywhere P) ∧ ∀ m ∈ ms, m.Everywhere P :=
  everywhere_iff.trans (by simp [or_imp, forall_and])

@[simp] theorem everywhere_whileLoop :
    (whileLoop c ns loc).Everywhere P ↔
      P (whileLoop c ns loc) ∧ c.Everywhere P ∧ ∀ n ∈ ns, n.Everywhere P :=
  everywhere_iff.trans (by simp)

@[simp] theorem everywhere_repeatLoop :
    (repeatLoop c ns loc).Everywhere P ↔
      P (repeatLoop c ns loc) ∧ c.Everywhere P ∧ ∀ n ∈ ns, n.Everywhere P :=
  everywhere_iff.trans (by simp)

/-- Of a counting loop the three bounds are asked and then the body. Its variable is not a node, so nothing is
asked of it. -/
@[simp] theorem everywhere_forLoop {head : ForHead} :
    (forLoop head c t e ns).Everywhere P ↔
      P (forLoop head c t e ns) ∧ c.Everywhere P ∧ t.Everywhere P ∧ e.Everywhere P ∧
        ∀ n ∈ ns, n.Everywhere P :=
  everywhere_iff.trans (by simp)

@[simp] theorem everywhere_event {head : EventHead} :
    (event head ns).Everywhere P ↔ P (event head ns) ∧ ∀ n ∈ ns, n.Everywhere P :=
  everywhere_iff.trans (by simp)

/-- The parameters and the format of a custom instruction are in its head and are not nodes, so only the body is
asked. -/
@[simp] theorem everywhere_instructionDeclaration {head : DeclarationHead} :
    (instructionDeclaration head ns).Everywhere P ↔
      P (instructionDeclaration head ns) ∧ ∀ n ∈ ns, n.Everywhere P :=
  everywhere_iff.trans (by simp)

@[simp] theorem everywhere_expressionDeclaration {head : DeclarationHead} :
    (expressionDeclaration head l).Everywhere P ↔
      P (expressionDeclaration head l) ∧ l.Everywhere P :=
  everywhere_iff.trans (by simp)

@[simp] theorem everywhere_detached {pos : Option String} :
    (detached pos ns loc).Everywhere P ↔ P (detached pos ns loc) ∧ ∀ n ∈ ns, n.Everywhere P :=
  everywhere_iff.trans (by simp)

@[simp] theorem everywhere_program {name : String} {vars : List VariableDeclaration} :
    (program name vars ns loc).Everywhere P ↔ P (program name vars ns loc) ∧ ∀ n ∈ ns, n.Everywhere P :=
  everywhere_iff.trans (by simp)

end Everywhere

end Node

/-! ## Trees without nested programs

A program in a tree would change the scope of everything behind it. Where there is none, `Scope.after` does
nothing, and resolving and complaining go through a tree part by part. -/

namespace Node

/-- No program stands in the tree, at its root or below. -/
def ProgramFree (n : Node) : Prop := n.Everywhere fun m => ∀ g : Globals, g.meet m = g

/-- Behind a tree without programs the scope is the one before it. Meeting is a fold over the nodes in the order
of the walk, and no node of this walk moves it. -/
theorem ProgramFree.after {n : Node} (h : n.ProgramFree) (s : Scope) : s.after n = s := by
  have hfold : ∀ (ms : List Node) (g : Globals), (∀ m ∈ ms, ∀ g : Globals, g.meet m = g) →
      ms.foldl Globals.meet g = g := by
    intro ms
    induction ms with
    | nil => intro g _; rfl
    | cons m ms ih =>
        intro g hm
        rw [List.foldl_cons, hm m List.mem_cons_self]
        exact ih g fun m' hm' => hm m' (List.mem_cons_of_mem _ hm')
  unfold Scope.after
  rw [hfold n.walk s.globals h]

section Equations

attribute [local simp] resolve resolveAll complaints complaintsAll

variable {l r c t e : Node} {ns ms : List Node} {s : Scope}

theorem afterAll_of_programFree (h : ∀ n ∈ ns, n.ProgramFree) : s.afterAll ns = s := by
  induction ns with
  | nil => rfl
  | cons n ns ih =>
      show (s.after n).afterAll ns = s
      rw [(h n List.mem_cons_self).after]
      exact ih fun m hm => h m (List.mem_cons_of_mem _ hm)

/-- Trees without programs are resolved each in the same scope, so the order in which they stand does not matter.
-/
theorem resolveAll_of_programFree (h : ∀ n ∈ ns, n.ProgramFree) :
    resolveAll s ns = ns.map (resolve s) := by
  induction ns with
  | nil => rfl
  | cons n ns ih =>
      rw [resolveAll, (h n List.mem_cons_self).after, List.map_cons,
        ih fun m hm => h m (List.mem_cons_of_mem _ hm)]

/-- The complaints about trees without programs are those about each of them in the same scope, one after the
other. -/
theorem complaintsAll_of_programFree (h : ∀ n ∈ ns, n.ProgramFree) :
    complaintsAll s ns = ns.flatMap (complaints s) := by
  induction ns with
  | nil => rfl
  | cons n ns ih =>
      rw [complaintsAll, (h n List.mem_cons_self).after, List.flatMap_cons,
        ih fun m hm => h m (List.mem_cons_of_mem _ hm)]

/-- The right side of an assignment is resolved in the scope behind the left one, which is the same scope if the
left side holds no program. -/
theorem resolve_assignment (op : AssignOperator) (loc : Option Span) (hl : l.ProgramFree) :
    resolve s (.assignment op l r loc) = .assignment op (resolve s l) (resolve s r) loc := by
  rw [resolve, hl.after]

theorem resolve_binary (op : String) (loc : Option Span) (hl : l.ProgramFree) :
    resolve s (.binary op l r loc) = .binary op (resolve s l) (resolve s r) loc := by
  rw [resolve, hl.after]

theorem resolve_conditional (loc : Option Span) (hc : c.ProgramFree) (ht : t.ProgramFree) :
    resolve s (.conditional c t e loc) =
      .conditional (resolve s c) (resolve s t) (resolve s e) loc := by
  simp only [resolve, hc.after, ht.after]

/-- The bodies of a branching are resolved statement by statement, in the scope of its condition. -/
theorem resolve_ifElse (loc : Option Span) (hc : c.ProgramFree) (hns : ∀ n ∈ ns, n.ProgramFree)
    (hms : ∀ m ∈ ms, m.ProgramFree) :
    resolve s (.ifElse c ns ms loc) =
      .ifElse (resolve s c) (ns.map (resolve s)) (ms.map (resolve s)) loc := by
  simp only [resolve, hc.after, afterAll_of_programFree hns, resolveAll_of_programFree hns,
    resolveAll_of_programFree hms]

theorem resolve_whileLoop (loc : Option Span) (hc : c.ProgramFree) (hns : ∀ n ∈ ns, n.ProgramFree) :
    resolve s (.whileLoop c ns loc) = .whileLoop (resolve s c) (ns.map (resolve s)) loc := by
  simp only [resolve, hc.after, resolveAll_of_programFree hns]

theorem resolve_repeatLoop (loc : Option Span) (hc : c.ProgramFree) (hns : ∀ n ∈ ns, n.ProgramFree) :
    resolve s (.repeatLoop c ns loc) = .repeatLoop (resolve s c) (ns.map (resolve s)) loc := by
  simp only [resolve, hc.after, resolveAll_of_programFree hns]

/-- The bounds of a counting loop are resolved outside of it. Its body is resolved with the variable in an
innermost frame, and the head records that frame. -/
theorem resolve_forLoop (head : ForHead) (hc : c.ProgramFree) (ht : t.ProgramFree) (he : e.ProgramFree)
    (hns : ∀ n ∈ ns, n.ProgramFree) :
    resolve s (.forLoop head c t e ns) =
      .forLoop { head with locals := some (Scope.frame [head.var]) } (resolve s c) (resolve s t)
        (resolve s e) (ns.map (resolve (s.push [head.var]))) := by
  simp only [resolve, hc.after, ht.after, he.after, resolveAll_of_programFree hns]

theorem complaints_assignment (op : AssignOperator) (loc : Option Span) (hl : l.ProgramFree) :
    complaints s (.assignment op l r loc) = complaints s l ++ complaints s r := by
  rw [complaints, hl.after]

theorem complaints_binary (op : String) (loc : Option Span) (hl : l.ProgramFree) :
    complaints s (.binary op l r loc) = complaints s l ++ complaints s r := by
  rw [complaints, hl.after]

theorem complaints_conditional (loc : Option Span) (hc : c.ProgramFree) (ht : t.ProgramFree) :
    complaints s (.conditional c t e loc) = complaints s c ++ complaints s t ++ complaints s e := by
  simp only [complaints, hc.after, ht.after]

/-- The complaints about a branching come in the order condition, first body, second body, all in one scope. -/
theorem complaints_ifElse (loc : Option Span) (hc : c.ProgramFree) (hns : ∀ n ∈ ns, n.ProgramFree)
    (hms : ∀ m ∈ ms, m.ProgramFree) :
    complaints s (.ifElse c ns ms loc) =
      complaints s c ++ ns.flatMap (complaints s) ++ ms.flatMap (complaints s) := by
  simp only [complaints, hc.after, afterAll_of_programFree hns, complaintsAll_of_programFree hns,
    complaintsAll_of_programFree hms]

theorem complaints_whileLoop (loc : Option Span) (hc : c.ProgramFree) (hns : ∀ n ∈ ns, n.ProgramFree) :
    complaints s (.whileLoop c ns loc) = complaints s c ++ ns.flatMap (complaints s) := by
  simp only [complaints, hc.after, complaintsAll_of_programFree hns]

/-- The complaints about a loop with a count are those about the count and then those about its body, in one
scope. -/
theorem complaints_repeatLoop (loc : Option Span) (hc : c.ProgramFree)
    (hns : ∀ n ∈ ns, n.ProgramFree) :
    complaints s (.repeatLoop c ns loc) = complaints s c ++ ns.flatMap (complaints s) := by
  simp only [complaints, hc.after, complaintsAll_of_programFree hns]

/-- In the body of a counting loop, and only there, its variable is a name that may be used. -/
theorem complaints_forLoop (head : ForHead) (hc : c.ProgramFree) (ht : t.ProgramFree)
    (he : e.ProgramFree) (hns : ∀ n ∈ ns, n.ProgramFree) :
    complaints s (.forLoop head c t e ns) =
      complaints s c ++ complaints s t ++ complaints s e ++
        ns.flatMap (complaints (s.push [head.var])) := by
  simp only [complaints, hc.after, ht.after, he.after, complaintsAll_of_programFree hns]

end Equations

end Node

namespace Grammar

variable {g : Grammar} {s : Scope} {n : Node}

/-- What holds of every expression holds everywhere in one. -/
theorem Expression.everywhere {P : Node → Prop} (h : g.Expression s n)
    (hP : ∀ m, g.Expression s m → P m) : n.Everywhere P := by
  induction h with
  | identifier hn ha ih => exact Node.everywhere_identifier.mpr ⟨hP _ (.identifier hn ha), ih⟩
  | constant hc => exact Node.everywhere_constant.mpr (hP _ (.constant hc))
  | binary op hl hr ihl ihr => exact Node.everywhere_binary.mpr ⟨hP _ (.binary op hl hr), ihl, ihr⟩
  | negation he ih => exact Node.everywhere_unary.mpr ⟨hP _ (.negation he), ih⟩
  | conditional hc ht he ihc iht ihe =>
      exact Node.everywhere_conditional.mpr ⟨hP _ (.conditional hc ht he), ihc, iht, ihe⟩

/-- What holds of every expression and of every statement holds everywhere in a statement. -/
theorem Statement.everywhere {P : Node → Prop} (h : g.Statement s n)
    (he : ∀ s n, g.Expression s n → P n) (hs : ∀ s n, g.Statement s n → P n) : n.Everywhere P := by
  have hexpression : ∀ {s : Scope} {n : Node}, g.Expression s n → n.Everywhere P := fun h => h.everywhere (he _)
  induction h with
  | instruction hu ha =>
      exact Node.everywhere_instruction.mpr ⟨hs _ _ (.instruction hu ha), fun a hm => hexpression (ha a hm)⟩
  | assignment ht hv =>
      exact Node.everywhere_assignment.mpr ⟨hs _ _ (.assignment ht hv), hexpression ht, hexpression hv⟩
  | comment ht => exact Node.everywhere_comment.mpr (hs s _ (.comment ht))
  | wait hc => exact Node.everywhere_wait.mpr ⟨hs _ _ (.wait hc), hexpression hc⟩
  | ifElse hc ht he iht ihe =>
      exact Node.everywhere_ifElse.mpr ⟨hs _ _ (.ifElse hc ht he), hexpression hc, iht, ihe⟩
  | whileLoop hc hb ih => exact Node.everywhere_whileLoop.mpr ⟨hs _ _ (.whileLoop hc hb), hexpression hc, ih⟩
  | forLoop hf hl ht hb ih =>
      exact Node.everywhere_forLoop.mpr ⟨hs _ _ (.forLoop hf hl ht hb), hexpression hf, hexpression hl, hexpression ht, ih⟩
  | breakLoop => exact Node.everywhere_breakLoop.mpr (hs s _ .breakLoop)
  | repeatLoop hc hb ih => exact Node.everywhere_repeatLoop.mpr ⟨hs _ _ (.repeatLoop hc hb), hexpression hc, ih⟩

theorem Expression.programFree (h : g.Expression s n) : n.ProgramFree :=
  h.everywhere fun m hm _ => by cases hm <;> rfl

theorem Statement.programFree (h : g.Statement s n) : n.ProgramFree :=
  h.everywhere (fun _ m hm _ => by cases hm <;> rfl) fun _ m hm _ => by cases hm <;> rfl

theorem Expression.programFree_all {ns : List Node} (h : ∀ n ∈ ns, g.Expression s n) :
    ∀ n ∈ ns, n.ProgramFree := fun n m => (h n m).programFree

theorem Statement.programFree_all {ns : List Node} (h : ∀ n ∈ ns, g.Statement s n) :
    ∀ n ∈ ns, n.ProgramFree := fun n m => (h n m).programFree

/-- What stands at the top of a program holds no other program: a program has items, and it is not one. -/
theorem Item.programFree (h : g.Item s n) : n.ProgramFree := by
  cases h with
  | event _ hb => exact Node.everywhere_event.mpr ⟨fun _ => rfl, Statement.programFree_all hb⟩
  | instructionDeclaration _ hb =>
      exact Node.everywhere_instructionDeclaration.mpr ⟨fun _ => rfl, Statement.programFree_all hb⟩
  | expressionDeclaration _ hv => exact Node.everywhere_expressionDeclaration.mpr ⟨fun _ => rfl, hv.programFree⟩
  | detached _ hb => exact Node.everywhere_detached.mpr ⟨fun _ => rfl, Statement.programFree_all hb⟩

end Grammar

end FlightScript
