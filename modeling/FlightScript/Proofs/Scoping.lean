import FlightScript.Proofs.Legible
import FlightScript.Proofs.Paths

/-!
# `Proofs.Scoping` — resolution is lexical scoping

What a name refers to depends on the place where it stands. `Node.annotated` says so by looking at the place alone:
whether the catalog has the name, whether a construct on the path to the place binds it, whether the program
declares it. Resolving does the same with a stack of frames, and the frames at a place are the names of the
constructs on the path to it.

## Contents

* `Node.Binds`: a construct on the path to a place binds a name;
* `Node.lexicalKind`, `Node.lexicalInstructionKind`, `Node.annotated`: what a tree says at a place;
* `Scope.inside`, `Scope.along`: the scope in a part of a node, and at the end of a path;
* `Node.at?_resolve`: resolving a tree resolves every node in the scope of its place;
* `resolved_eq_iff_annotated`: the resolved tree is the one with `Node.annotated` at each place.
-/

namespace FlightScript

namespace Node

/-! ## What a tree says at a place

A path is followed from the root, and the constructs on it are asked which names they bind in the part that the
path goes through. -/

/-- The names that a node binds in its parts of a role. The bounds of a counting loop do not see its variable. -/
def boundIn (n : Node) (role : Role) : List String :=
  match n with
  | event head _ => head.parameters
  | instructionDeclaration head _ => head.parameters
  | expressionDeclaration head _ => head.parameters
  | forLoop head .. => if role = .body then [head.var] else []
  | _ => []

/-- A construct on the path binds a name in the part through which the path goes on. -/
def Binds (root : Node) (path : List Step) (name : String) : Prop :=
  ∃ before step after n, path = before ++ step :: after ∧ root.at? before = some n ∧ name ∈ n.boundIn step.role

/-- The names that the constructs on a path bind. -/
def namesOn : Node → List Step → List String
  | _, [] => []
  | n, step :: path =>
    n.boundIn step.role ++
      match n.child? step with
      | some m => m.namesOn path
      | none => []

theorem mem_namesOn_cons {n : Node} {step : Step} {path : List Step} {name : String} :
    name ∈ n.namesOn (step :: path) ↔
      name ∈ n.boundIn step.role ∨ ∃ m, n.child? step = some m ∧ name ∈ m.namesOn path := by
  rw [namesOn, List.mem_append]
  cases n.child? step <;> simp

/-- That a construct on the path binds a name, stated by where the path can be divided, is that the name is
collected along the path. -/
theorem binds_iff {root : Node} {path : List Step} {name : String} :
    root.Binds path name ↔ name ∈ root.namesOn path := by
  induction path generalizing root with
  | nil => simp [Binds, namesOn]
  | cons step path ih =>
      rw [mem_namesOn_cons]
      constructor
      · rintro ⟨before, step', after, n, hpath, hn, hname⟩
        cases before with
        | nil =>
            cases hpath
            cases hn
            exact .inl hname
        | cons _ before =>
            cases hpath
            rw [at?_cons, Option.bind_eq_some_iff] at hn
            obtain ⟨m, hm, hn⟩ := hn
            exact .inr ⟨m, hm, ih.mp ⟨before, step', after, n, rfl, hn, hname⟩⟩
      · rintro (hname | ⟨m, hm, hname⟩)
        · exact ⟨[], step, path, root, rfl, rfl, hname⟩
        · obtain ⟨before, step', after, n, rfl, hn, hname⟩ := ih.mpr hname
          exact ⟨step :: before, step', after, n, rfl, by rw [at?_cons, hm]; exact hn, hname⟩

instance (root : Node) (path : List Step) (name : String) : Decidable (root.Binds path name) :=
  decidable_of_iff _ binds_iff.symm

/-- The names of the variables that a program declares. -/
def variableNames : Node → List String
  | program _ vars _ _ => vars.map (·.name)
  | _ => []

/-- The names of the instructions that a program declares. -/
def instructionNames : Node → List String
  | program _ _ body _ => body.filterMap fun
    | instructionDeclaration head _ => some head.name
    | _ => none
  | _ => []

/-- The names of the expressions that a program declares. -/
def expressionNames : Node → List String
  | program _ _ body _ => body.filterMap fun
    | expressionDeclaration head _ => some head.name
    | _ => none
  | _ => []

/-- The kind of a name with this many arguments at a place: of what the catalog, the constructs around the place
and the program know under the name, the first counts. A variable takes no arguments. -/
def lexicalKind (root : Node) (path : List Step) (name : String) (arguments : Nat) : IdentifierKind :=
  if (Catalog.expression? name).isSome then .builtin
  else if root.Binds path name then .local_
  else if arguments = 0 ∧ name ∈ root.variableNames then .global
  else if name ∈ root.expressionNames then .expression
  else .invalid

/-- The kind of an instruction. -/
def lexicalInstructionKind (root : Node) (name : String) : InstructionKind :=
  if (Catalog.instruction? name).isSome then .builtin
  else if name ∈ root.instructionNames then .global
  else .invalid

/-- A node at a place of a tree, with the kind of an unknown name and with the names that it binds, each once. -/
def annotated (root : Node) (path : List Step) : Node → Node
  | identifier use arguments =>
    .identifier (if use.kind = .unknown then
      { use with kind := root.lexicalKind path use.name arguments.length } else use) arguments
  | instruction use arguments =>
    .instruction (if use.kind = .unknown then
      { use with kind := root.lexicalInstructionKind use.name } else use) arguments
  | event head body => .event { head with locals := some head.parameters.eraseDups } body
  | instructionDeclaration head body =>
    .instructionDeclaration { head with locals := some head.parameters.eraseDups } body
  | expressionDeclaration head value =>
    .expressionDeclaration { head with locals := some head.parameters.eraseDups } value
  | forLoop head first last step body => .forLoop { head with locals := some [head.var] } first last step body
  | n => n

/-- Whether a node is a program. -/
def isProgram : Node → Bool
  | program .. => true
  | _ => false

end Node

/-! ## Frames

A frame is a list of names, each mentioned once. -/

/-- The names of a frame are those given, each at its first mention. -/
theorem Scope.frame_eq (names : List String) : Scope.frame names = names.eraseDups := by
  -- what comes after the names seen so far is what is new in the rest
  have hfold : ∀ (names seen : List String),
      names.foldl (fun seen name => if seen.contains name then seen else seen ++ [name]) seen =
        seen ++ (names.filter fun name => !seen.contains name).eraseDups := by
    intro names
    induction names with
    | nil => simp
    | cons name names ih =>
        intro seen
        rw [List.foldl_cons, ih]
        by_cases hseen : seen.contains name = true
        · rw [if_pos hseen, List.filter_cons_of_neg (by simpa using hseen)]
        · rw [if_neg hseen, List.filter_cons_of_pos (by simpa using hseen), List.eraseDups_cons,
            List.append_assoc, List.filter_filter, List.singleton_append]
          congr 3
          refine List.filter_congr fun other _ => ?_
          grind
  rw [Scope.frame, hfold]
  simp

theorem Scope.isLocal_push {s : Scope} {names : List String} {name : String} :
    (s.push names).isLocal name = true ↔ name ∈ names ∨ s.isLocal name = true := by
  simp [Scope.isLocal, Scope.push, Scope.frame_eq]

/-! ## Declared names

What a program declares is found by looking through its items. -/

namespace NameMap

variable {α : Type}

@[simp] theorem contains_empty {name : String} : (empty : NameMap α).contains name = false := rfl

@[simp] theorem contains_insert {m : NameMap α} {name other : String} {value : α} :
    (m.insert name value).contains other = true ↔ name = other ∨ m.contains other = true := by
  by_cases h : name = other
  · subst h
    simp [contains, get?_insert_self]
  · simp [contains, get?_insert_of_ne _ _ (Ne.symm h), h]

/-- The names of a map made of a list are those in the list. -/
theorem contains_ofList {es : List (String × α)} {name : String} :
    (ofList es).contains name = true ↔ name ∈ es.map Prod.fst := by
  have hfold : ∀ (es : List (String × α)) (m : NameMap α),
      (es.foldl (fun m e => m.insert e.1 e.2) m).contains name = true ↔
        name ∈ es.map Prod.fst ∨ m.contains name = true := by
    intro es
    induction es with
    | nil => simp
    | cons e es ih =>
        intro m
        rw [List.foldl_cons, ih, contains_insert, List.map_cons, List.mem_cons, eq_comm, or_left_comm, or_assoc]
  rw [ofList, hfold]
  simp

end NameMap

namespace Globals

variable {program : Node} {name : String}

theorem contains_vars_ofNode : (ofNode program).vars.contains name = true ↔ name ∈ program.variableNames := by
  cases program with
  | program _ vars body _ =>
      rw [ofNode, vars_ofProgram, NameMap.contains_ofList, List.map_map]
      rfl
  | _ => simp [ofNode, Node.variableNames]

/-- A map of definitions to which every node adds its own name, if it has one, ends up with all those names. -/
theorem contains_foldl_add {map : Globals → NameMap Definition} {nameOf : Node → Option String}
    (hadd : ∀ (g : Globals) (n : Node),
      (map (g.add n)).contains name = true ↔ nameOf n = some name ∨ (map g).contains name = true)
    (body : List Node) (g : Globals) :
    (map (body.foldl add g)).contains name = true ↔
      name ∈ body.filterMap nameOf ∨ (map g).contains name = true := by
  induction body generalizing g with
  | nil => simp
  | cons n body ih =>
      rw [List.foldl_cons, ih, hadd, List.mem_filterMap, List.mem_filterMap]
      simp only [List.mem_cons, exists_eq_or_imp]
      rw [or_assoc, or_left_comm]

/-- The instructions of a program are those whose declarations stand in its body. -/
theorem contains_instructions_ofNode :
    (ofNode program).instructions.contains name = true ↔ name ∈ program.instructionNames := by
  cases program with
  | program _ vars body _ =>
      have hadd : ∀ (g : Globals) (n : Node), (g.add n).instructions.contains name = true ↔
          (match n with | .instructionDeclaration head _ => some head.name | _ => none) = some name ∨
            g.instructions.contains name = true := by
        intro g n
        cases n <;> simp [add]
      exact (contains_foldl_add hadd body _).trans (or_iff_left (by simp))
  | _ => simp [ofNode, Node.instructionNames]

/-- The expressions of a program are those whose declarations stand in its body. -/
theorem contains_expressions_ofNode :
    (ofNode program).expressions.contains name = true ↔ name ∈ program.expressionNames := by
  cases program with
  | program _ vars body _ =>
      have hadd : ∀ (g : Globals) (n : Node), (g.add n).expressions.contains name = true ↔
          (match n with | .expressionDeclaration head _ => some head.name | _ => none) = some name ∨
            g.expressions.contains name = true := by
        intro g n
        cases n <;> simp [add]
      exact (contains_foldl_add hadd body _).trans (or_iff_left (by simp))
  | _ => simp [ofNode, Node.expressionNames]

end Globals

/-! ## The scope at a place

The scope is pushed along the path, so its frames are those of the constructs on it. -/

namespace Scope

/-- The scope in the parts of a node that play a role. -/
def inside (s : Scope) (n : Node) (role : Role) : Scope :=
  match n with
  | .program _ vars body _ => s.within vars body
  | .event head _ => s.push head.parameters
  | .instructionDeclaration head _ => s.push head.parameters
  | .expressionDeclaration head _ => s.push head.parameters
  | .forLoop head .. => if role = .body then s.push [head.var] else s
  | _ => s

/-- The scope at the end of a path. -/
def along (s : Scope) (n : Node) : List Node.Step → Scope
  | [] => s
  | step :: path =>
    match n.child? step with
    | some m => (s.inside n step.role).along m path
    | none => s

/-- A node with its kind in a scope, and with the names that it binds. -/
def annotate (s : Scope) : Node → Node
  | .identifier use arguments => .identifier (s.resolveIdentifier use arguments.length) arguments
  | .instruction use arguments => .instruction (s.resolveInstruction use) arguments
  | .event head body => .event { head with locals := some (frame head.parameters) } body
  | .instructionDeclaration head body =>
    .instructionDeclaration { head with locals := some (frame head.parameters) } body
  | .expressionDeclaration head value =>
    .expressionDeclaration { head with locals := some (frame head.parameters) } value
  | .forLoop head first last step body =>
    .forLoop { head with locals := some (frame [head.var]) } first last step body
  | n => n

variable {s : Scope} {n m : Node} {role : Role}

/-- In a part of a node those names are local that the node binds there, and those that were local before. -/
theorem isLocal_inside {name : String} :
    (s.inside n role).isLocal name = true ↔ name ∈ n.boundIn role ∨ s.isLocal name = true := by
  cases n with
  | event | instructionDeclaration | expressionDeclaration => exact isLocal_push
  | forLoop head =>
      rw [inside, Node.boundIn]
      split
      · exact isLocal_push
      · simp
  | _ => simp [inside, Node.boundIn, within, isLocal]

/-- **The frames at a place hold the names that the constructs on the path to it bind.** -/
theorem isLocal_along {path : List Node.Step} {name : String} (h : (n.at? path).isSome) :
    (s.along n path).isLocal name = true ↔ name ∈ n.namesOn path ∨ s.isLocal name = true := by
  induction path generalizing s n with
  | nil => simp [along, Node.namesOn]
  | cons step path ih =>
      rw [Node.at?_cons] at h
      cases hm : n.child? step with
      | none => simp [hm] at h
      | some m =>
          have hpath : (m.at? path).isSome := by simpa [hm] using h
          have halong : s.along n (step :: path) = (s.inside n step.role).along m path := by
            rw [along, hm]
          rw [halong, ih hpath, isLocal_inside, Node.mem_namesOn_cons, hm]
          simp only [Option.some.injEq, exists_eq_left']
          tauto

end Scope

/-! ## Resolving part by part

A node and each of its parts are resolved separately, and the parts in the scope that the node makes for them. -/

namespace Node

variable {s : Scope} {n m : Node} {role : Role}

/-- No program stands below the root of a tree. -/
def ProgramAtRoot (n : Node) : Prop := ∀ m ∈ n.walk.tail, m.isProgram = false

theorem ProgramAtRoot.part (h : n.ProgramAtRoot) (hm : m ∈ n.part role) : m.ProgramFree := by
  intro x hx g
  have hx' : x.isProgram = false := h x (walk_subset_of_mem_part hm hx)
  cases x <;> first | rfl | cases hx'

/-- Resolving a node changes its kind and its local names only. -/
theorem own_resolve (s : Scope) (n : Node) : (n.resolve s).own = (s.annotate n).own := by
  cases n <;> rfl

/-- Resolving a node resolves each of its parts in the scope of the part. -/
theorem part_resolve (h : ∀ role, ∀ m ∈ n.part role, m.ProgramFree) :
    (n.resolve s).part role = (n.part role).map (resolve (s.inside n role)) := by
  cases n with
  | program | instructionDeclaration | event | detached =>
      rw [resolve, resolveAll_of_programFree]
      · cases role <;> rfl
      · exact h .body
  | instruction | identifier =>
      rw [resolve, resolveAll_of_programFree]
      · cases role <;> rfl
      · exact h .argument
  | assignment op target value loc =>
      rw [resolve_assignment op loc (h .target target (.head _))]
      cases role <;> rfl
  | ifElse condition consequent alternative loc =>
      rw [resolve_ifElse loc (h .condition condition (.head _))]
      · cases role <;> rfl
      · exact h .consequent
      · exact h .alternative
  | whileLoop condition body loc =>
      rw [resolve_whileLoop loc (h .condition condition (.head _))]
      · cases role <;> rfl
      · exact h .body
  | forLoop head first last step body =>
      rw [resolve_forLoop head (h .first first (.head _)) (h .last last (.head _)) (h .step step (.head _))]
      · cases role <;> rfl
      · exact h .body
  | repeatLoop count body loc =>
      rw [resolve_repeatLoop loc (h .count count (.head _))]
      · cases role <;> rfl
      · exact h .body
  | binary op lhs rhs loc =>
      rw [resolve_binary op loc (h .left lhs (.head _))]
      cases role <;> rfl
  | conditional condition consequent alternative loc =>
      rw [resolve_conditional loc (h .condition condition (.head _)) (h .consequent consequent (.head _))]
      cases role <;> rfl
  | expressionDeclaration | wait | unary | error | variableDeclaration | comment | breakLoop | constant =>
      cases role <;> rfl

theorem child?_resolve (h : ∀ role, ∀ m ∈ n.part role, m.ProgramFree) (step : Step) :
    (n.resolve s).child? step = (n.child? step).map (resolve (s.inside n step.role)) := by
  rw [child?, part_resolve h, List.getElem?_map]
  rfl

/-- The parts of a tree without programs have none. -/
theorem ProgramFree.part (h : n.ProgramFree) (hm : m ∈ n.part role) : m.ProgramFree :=
  fun x hx => h x (List.mem_of_mem_tail (walk_subset_of_mem_part hm hx))

/-- **Resolving a tree resolves what stands at each place in the scope of the place.** The induction is over the path.
Without programs below the root no part changes the scope of the parts behind it, so the scope depends on the path
alone. -/
theorem at?_resolve (h : ∀ role, ∀ m ∈ n.part role, m.ProgramFree) (path : List Step) :
    (n.resolve s).at? path = (n.at? path).map (resolve (s.along n path)) := by
  induction path generalizing s n with
  | nil => rfl
  | cons step path ih =>
      rw [at?_cons, at?_cons, child?_resolve h, Scope.along]
      cases hm : n.child? step with
      | none => rfl
      | some m => exact ih fun _ _ hm' => (h _ m (mem_part_of_child? hm)).part hm'

end Node

/-! ## The scope of a place is what the tree says

The two descriptions of a place are brought together, for variables, instructions and local names. -/

namespace Scope

variable {s : Scope} {n m : Node} {role : Role} {path : List Node.Step}

/-- Only a program changes what is declared. -/
theorem globals_inside : (s.inside n role).globals = s.globals.meet n := by
  cases n with
  | forLoop head =>
      rw [inside]
      split <;> rfl
  | _ => rfl

/-- Without programs below, the same is declared along every path. -/
theorem globals_along_of_programFree (h : n.ProgramFree) : (s.along n path).globals = s.globals := by
  induction path generalizing s n with
  | nil => rfl
  | cons step path ih =>
      rw [along]
      cases hm : n.child? step with
      | none => rfl
      | some m =>
          have hn : ∀ g : Globals, g.meet n = g := h n (by cases n <;> simp [Node.walk])
          show ((s.inside n step.role).along m path).globals = s.globals
          rw [ih (h.part (Node.mem_part_of_child? hm)), globals_inside, hn]

/-- At each place of a tree, what its root declares is declared. -/
theorem globals_along (h : ∀ role, ∀ m ∈ n.part role, m.ProgramFree) (hm : n.at? path = some m)
    (hp : m.isProgram = false) : (({} : Scope).along n path).globals = .ofNode n := by
  cases path with
  | nil =>
      cases hm
      cases n <;> first | rfl | cases hp
  | cons step path =>
      rw [Node.at?_cons, Option.bind_eq_some_iff] at hm
      obtain ⟨child, hchild, _⟩ := hm
      rw [along, hchild]
      show ((({} : Scope).inside n step.role).along child path).globals = .ofNode n
      rw [globals_along_of_programFree (h _ child (Node.mem_part_of_child? hchild)), globals_inside]
      cases n <;> rfl

theorem isLocal_along_iff_binds (hm : n.at? path = some m) {name : String} :
    (({} : Scope).along n path).isLocal name = true ↔ n.Binds path name := by
  rw [isLocal_along (by rw [hm]; rfl), Node.binds_iff]
  simp [isLocal]

theorem identifierKind_along (h : n.ProgramAtRoot) (hm : n.at? path = some m) (hp : m.isProgram = false)
    (name : String) (k : Nat) :
    (({} : Scope).along n path).identifierKind name k = n.lexicalKind path name k := by
  simp only [identifierKind, Node.lexicalKind, isLocal_along_iff_binds hm,
    globals_along (fun _ _ => h.part) hm hp, Bool.and_eq_true, beq_iff_eq,
    Globals.contains_vars_ofNode, Globals.contains_expressions_ofNode]

theorem instructionKind_along (h : n.ProgramAtRoot) (hm : n.at? path = some m) (hp : m.isProgram = false)
    (name : String) : (({} : Scope).along n path).instructionKind name = n.lexicalInstructionKind name := by
  simp only [instructionKind, Node.lexicalInstructionKind, globals_along (fun _ _ => h.part) hm hp,
    Globals.contains_instructions_ofNode]

/-- What resolution writes down at a place is what the tree says there. -/
theorem annotate_along (h : n.ProgramAtRoot) (hm : n.at? path = some m) :
    (({} : Scope).along n path).annotate m = n.annotated path m := by
  cases m with
  | identifier use arguments =>
      rw [annotate, Node.annotated, resolveIdentifier, identifierKind_along h hm rfl]
  | instruction use arguments =>
      rw [annotate, Node.annotated, resolveInstruction, instructionKind_along h hm rfl]
  | event | instructionDeclaration | expressionDeclaration => rw [annotate, Node.annotated, frame_eq]
  | forLoop => rfl
  | _ => rfl

end Scope

/-- **Resolution is lexical scoping.** If no program stands below the root of a tree, its resolved tree is the one
tree that has the same places, and at each of them the same node with the kind that the place gives to an unknown
name and with the names that the node binds, and nothing else changed. -/
theorem resolved_eq_iff_annotated (n r : Node) (h : n.ProgramAtRoot) :
    n.resolved = r ↔
      ∀ path, (r.at? path).map Node.own = (n.at? path).map fun m => (n.annotated path m).own := by
  have hplaces : ∀ path, (n.resolved.at? path).map Node.own =
      (n.at? path).map fun m => (n.annotated path m).own := by
    intro path
    rw [Node.resolved, Node.at?_resolve (fun _ _ hm => h.part hm), Option.map_map]
    refine Option.map_congr fun m hm => ?_
    show (m.resolve (({} : Scope).along n path)).own = _
    rw [Node.own_resolve, Scope.annotate_along h hm]
  constructor
  · rintro rfl
    exact hplaces
  · intro hr
    exact Node.eq_of_own_at _ _ fun path => (hplaces path).trans (hr path).symm

/-- In `for x = x to 2 { wait x }` under a variable `x`, the start of the loop means the variable and its body
the loop's own `x`. -/
theorem resolved_eq_iff_annotated_loop :
    let x : Node := .identifier ⟨"x", none, .unknown, none⟩ []
    let n : Node := .program "p" [⟨"x", none, .value, none⟩] [.detached none
      [.forLoop ⟨"x", none, none⟩ x (.number "2") (.number "1") [.wait .seconds x none]] none] none
    n.ProgramAtRoot ∧
      (n.resolved.at? [⟨.body, 0⟩, ⟨.body, 0⟩, ⟨.first, 0⟩]).map Node.own =
        some (.identifier ⟨"x", none, .global, none⟩ []) ∧
      (n.resolved.at? [⟨.body, 0⟩, ⟨.body, 0⟩, ⟨.body, 0⟩, ⟨.condition, 0⟩]).map Node.own =
        some (.identifier ⟨"x", none, .local_, none⟩ []) := by
  intro x n
  have hroot : n.ProgramAtRoot := by unfold Node.ProgramAtRoot; decide
  have hplaces := (resolved_eq_iff_annotated n n.resolved hroot).mp rfl
  exact ⟨hroot, (hplaces _).trans rfl, (hplaces _).trans rfl⟩

end FlightScript
