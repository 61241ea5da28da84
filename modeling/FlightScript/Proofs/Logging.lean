import FlightScript.Conversion
import FlightScript.Proofs.Threading

/-!
# `Proofs.Logging` — the whole ways through the library with a log at hand

Each way from a text can be handed a log that has problems in it already. Characters that make no lexeme are posted
while the text is cut, faults while lexemes are read, and complaints while one walk through the tree resolves its names.
None of this depends on what the log holds: the result is the one that the library gives without a log, and the problems
of the text come after those of the log. Without a log for the walk, the tree is the same too.

## Contents

* `Lexing.scan`: cutting a text into lexemes;
* `Resolver`, `Node.visit`: resolving in one walk, and `Node.visit_eq`;
* `Logged.program`, `Logged.tree`, `Logged.format`, `Logged.document`: the ways;
* `logs_only_grow`.
-/

namespace FlightScript

/-- A step on a state, and another one. -/
theorem stateM_bind {σ α β : Type} (x : StateM σ α) (f : α → StateM σ β) (s : σ) : (x >>= f) s = f (x s).1 (x s).2 := rfl

theorem stateM_map {σ α β : Type} (f : α → β) (x : StateM σ α) (s : σ) : (f <$> x) s = (f (x s).1, (x s).2) := rfl

theorem stateM_pure {σ α : Type} (a : α) (s : σ) : (pure a : StateM σ α) s = (a, s) := rfl

/-! ## Lexemes

Cutting a text into pieces finds what is no lexeme. With a log at hand this is posted where it is found. -/

namespace Lexing

/-- The lexemes of pieces; what is none is posted. -/
def scan (index : LineIndex) (start depth : Nat) : List Piece → StateM Log (List Lexeme)
  | [] => pure []
  | ⟨kind, text⟩ :: pieces => do
    let stop := start + Text.byteSize text
    let span : Span := ⟨index.location start, index.location stop⟩
    match kind with
    | .gap => scan index stop depth pieces
    | .unknown =>
      modify (·.post (.errorAt (unknownMessage text) span))
      scan index stop depth pieces
    | .token t =>
      let rest ← scan index stop (depthAfter depth t) pieces
      pure (if isLayout t && decide (0 < depth) then rest else ⟨t, String.ofList text, span⟩ :: rest)

/-- Cutting with a log gives the lexemes that cutting without one gives, and appends its problems to the log. The
induction is over the pieces, with the offset and the depth of braces as they are at each of them. -/
theorem scan_eq (index : LineIndex) (start depth : Nat) (pieces : List Piece) (log : Log) :
    scan index start depth pieces log =
      ((ofPieces index start depth pieces).lexemes, log.append (ofPieces index start depth pieces).problems) := by
  induction pieces generalizing start depth log with
  | nil =>
      rw [scan, ofPieces, stateM_pure, Log.append_nil]
  | cons piece pieces ih =>
      obtain ⟨kind, text⟩ := piece
      cases kind with
      | gap =>
          rw [scan, ofPieces]
          exact ih _ _ _
      | unknown =>
          rw [scan, ofPieces]
          -- the post comes before those of the pieces behind it
          show scan _ _ _ pieces (log.post _) = _
          rw [ih, Log.post, Log.append_append]
          rfl
      | token t =>
          -- a line end in parentheses is left out; the problems are the same
          rw [scan, ofPieces, stateM_bind, ih, stateM_pure]
          split <;> rfl

end Lexing

/-! ## Resolving in one walk

Without a log resolving and complaining are two functions of a scope and a tree. Here one walk does both: it
carries the scope as a state, enters and leaves the constructs that bind names, and posts on its way. -/

/-- The log, if there is one, with more problems. -/
def Log.append? (log : Option Log) (ps : List Problem) : Option Log := log.map (·.append ps)

/-- What is known at a place of the walk, and the log, if there is one. -/
structure Resolver where
  scope : Scope
  log : Option Log

namespace Resolver

/-- Posts problems, if there is a log. -/
def post (ps : List Problem) : StateM Resolver Unit := modify fun r => { r with log := Log.append? r.log ps }

/-- Enters a construct that binds names. -/
def enter (names : List String) : StateM Resolver Unit := modify fun r => { r with scope := r.scope.push names }

/-- Leaves the innermost construct and gives the names that it binds. -/
def leave : StateM Resolver (List String) := fun r => (r.scope.innermost, { r with scope := r.scope.pop })

/-- Declares the names of a program. -/
def declare (vars : List VariableDeclaration) (body : List Node) : StateM Resolver Unit :=
  modify fun r => { r with scope := r.scope.within vars body }

end Resolver

namespace Node

open Resolver

mutual

/-- Resolves a tree and posts what is wrong with it, each node before those below it. -/
def visit : Node → StateM Resolver Node
  | n@(error ..) => pure n
  | n@(variableDeclaration _) => pure n
  | n@(comment ..) => pure n
  | n@(breakLoop _) => pure n
  | n@(constant ..) => pure n
  | program name vars body loc => do
    declare vars body
    return .program name vars (← visitAll body) loc
  | instructionDeclaration head body => do
    enter head.parameters
    let body ← visitAll body
    return .instructionDeclaration { head with locals := some (← leave) } body
  | expressionDeclaration head value => do
    enter head.parameters
    let value ← visit value
    return .expressionDeclaration { head with locals := some (← leave) } value
  | event head body => do
    post (Complaint.ofEvent head)
    enter head.parameters
    let body ← visitAll body
    return .event { head with locals := some (← leave) } body
  | detached pos body loc => return .detached pos (← visitAll body) loc
  | instruction use arguments => do
    let s := (← get).scope
    let use := s.resolveInstruction use
    post (s.instructionComplaints use arguments.length)
    return .instruction use (← visitAll arguments)
  | assignment operator target value loc => do
    let target ← visit target
    return .assignment operator target (← visit value) loc
  | wait kind condition loc => return .wait kind (← visit condition) loc
  | ifElse condition consequent alternative loc => do
    let condition ← visit condition
    let consequent ← visitAll consequent
    return .ifElse condition consequent (← visitAll alternative) loc
  | whileLoop condition body loc => do
    let condition ← visit condition
    return .whileLoop condition (← visitAll body) loc
  | forLoop head first last step body => do
    let first ← visit first
    let last ← visit last
    let step ← visit step
    enter [head.var]
    let body ← visitAll body
    return .forLoop { head with locals := some (← leave) } first last step body
  | repeatLoop count body loc => do
    let count ← visit count
    return .repeatLoop count (← visitAll body) loc
  | identifier use arguments => do
    let s := (← get).scope
    let use := s.resolveIdentifier use arguments.length
    post (s.identifierComplaints use arguments.length)
    return .identifier use (← visitAll arguments)
  | binary op lhs rhs loc => do
    let lhs ← visit lhs
    return .binary op lhs (← visit rhs) loc
  | unary op operand loc => return .unary op (← visit operand) loc
  | conditional condition consequent alternative loc => do
    let condition ← visit condition
    let consequent ← visit consequent
    return .conditional condition consequent (← visit alternative) loc

/-- Resolves several trees, one after another. -/
def visitAll : List Node → StateM Resolver (List Node)
  | [] => pure []
  | n :: ns => do
    let n ← visit n
    return n :: (← visitAll ns)

end

end Node

/-! The scope behind a tree is the scope behind the trees right below it, one after another. -/

namespace Scope

variable (s : Scope)

theorem afterAll_nil : s.afterAll [] = s := rfl

theorem afterAll_cons (n : Node) (ns : List Node) : s.afterAll (n :: ns) = (s.after n).afterAll ns := rfl

theorem afterAll_append (ns ms : List Node) : s.afterAll (ns ++ ms) = (s.afterAll ns).afterAll ms := List.foldl_append

/-- The scope behind several trees is got by meeting all of their nodes in the order of the walk. The induction
is over the list of trees. -/
theorem afterAll_eq (ns : List Node) :
    s.afterAll ns = { s with globals := (Node.walkAll ns).foldl Globals.meet s.globals } := by
  induction ns generalizing s with
  | nil => rfl
  | cons n ns ih =>
      rw [afterAll_cons, ih, Node.walkAll, List.foldl_append]
      rfl

/-- **The scope behind a tree.** -/
theorem after_eq (n : Node) : s.after n = { s with globals := s.globals.meet n }.afterAll n.children := by
  rw [after, afterAll_eq, n.walk_eq, List.foldl_cons, Node.walkAll_eq_flatMap]

theorem after_push (names : List String) (n : Node) : (s.push names).after n = (s.after n).push names := rfl

theorem afterAll_push (names : List String) (ns : List Node) :
    (s.push names).afterAll ns = (s.afterAll ns).push names := by
  rw [afterAll_eq, afterAll_eq]
  rfl

theorem innermost_push (names : List String) : (s.push names).innermost = frame names := rfl

end Scope

namespace Log

variable (log : Option Log)

theorem append?_nil : append? log [] = log := by
  cases log with
  | none => rfl
  | some log => exact congrArg some log.append_nil

theorem append?_append? (ps qs : List Problem) : append? (append? log ps) qs = append? log (ps ++ qs) := by
  cases log with
  | none => rfl
  | some log => exact congrArg some (log.append_append ps qs)

end Log

namespace Node

open Resolver

section Steps

variable (s : Scope) (log : Option Log)

theorem post_apply (ps : List Problem) : post ps ⟨s, log⟩ = ((), ⟨s, Log.append? log ps⟩) := rfl

theorem enter_apply (names : List String) : enter names ⟨s, log⟩ = ((), ⟨s.push names, log⟩) := rfl

theorem leave_apply : leave ⟨s, log⟩ = (s.innermost, ⟨s.pop, log⟩) := rfl

theorem declare_apply (vars : List VariableDeclaration) (body : List Node) :
    declare vars body ⟨s, log⟩ = ((), ⟨s.within vars body, log⟩) := rfl

theorem get_apply (r : Resolver) : (get : StateM Resolver Resolver) r = (r, r) := rfl

end Steps

section Walk

attribute [local simp] visit visitAll resolve resolveAll complaints complaintsAll children Globals.meet
  stateM_bind stateM_map stateM_pure post_apply enter_apply leave_apply declare_apply get_apply
  Log.append?_nil Log.append?_append? Scope.afterAll_nil Scope.afterAll_cons Scope.afterAll_append
  Scope.after_push Scope.afterAll_push Scope.innermost_push

mutual

/-- **One walk resolves a tree and posts the complaints about it.** The walk goes from part to part with the scope
that the part before left, so behind a tree its state is the scope behind the tree and the log with the complaints put
after what it held. -/
theorem visit_eq (s : Scope) (log : Option Log) : (n : Node) →
    visit n ⟨s, log⟩ = (n.resolve s, ⟨s.after n, Log.append? log (n.complaints s)⟩)
  | error message loc => by simp [s.after_eq (error message loc)]
  | variableDeclaration d => by simp [s.after_eq (variableDeclaration d)]
  | comment text loc => by simp [s.after_eq (comment text loc)]
  | breakLoop loc => by simp [s.after_eq (breakLoop loc)]
  | constant value loc => by simp [s.after_eq (constant value loc)]
  | program name vars body loc => by
      -- what the program declares stays declared behind it, in the walk and in `Scope.after`
      simp [s.after_eq (program name vars body loc), visitAll_eq _ _ body]
      rfl
  | instructionDeclaration head body => by
      simp [s.after_eq (instructionDeclaration head body), visitAll_eq _ _ body]
  | expressionDeclaration head value => by
      simp [s.after_eq (expressionDeclaration head value), visit_eq _ _ value]
  | event head body => by simp [s.after_eq (event head body), visitAll_eq _ _ body]
  | detached pos body loc => by simp [s.after_eq (detached pos body loc), visitAll_eq _ _ body]
  | instruction use arguments => by simp [s.after_eq (instruction use arguments), visitAll_eq _ _ arguments]
  | assignment operator target value loc => by
      simp [s.after_eq (assignment operator target value loc), visit_eq _ _ target, visit_eq _ _ value]
  | wait kind condition loc => by simp [s.after_eq (wait kind condition loc), visit_eq _ _ condition]
  | ifElse condition consequent alternative loc => by
      simp [s.after_eq (ifElse condition consequent alternative loc), visit_eq _ _ condition, visitAll_eq _ _ consequent,
        visitAll_eq _ _ alternative]
  | whileLoop condition body loc => by
      simp [s.after_eq (whileLoop condition body loc), visit_eq _ _ condition, visitAll_eq _ _ body]
  | forLoop head first last step body => by
      simp [s.after_eq (forLoop head first last step body), visit_eq _ _ first, visit_eq _ _ last, visit_eq _ _ step,
        visitAll_eq _ _ body]
  | repeatLoop count body loc => by
      simp [s.after_eq (repeatLoop count body loc), visit_eq _ _ count, visitAll_eq _ _ body]
  | identifier use arguments => by simp [s.after_eq (identifier use arguments), visitAll_eq _ _ arguments]
  | binary op lhs rhs loc => by simp [s.after_eq (binary op lhs rhs loc), visit_eq _ _ lhs, visit_eq _ _ rhs]
  | unary op operand loc => by simp [s.after_eq (unary op operand loc), visit_eq _ _ operand]
  | conditional condition consequent alternative loc => by
      simp [s.after_eq (conditional condition consequent alternative loc), visit_eq _ _ condition, visit_eq _ _ consequent,
        visit_eq _ _ alternative]

/-- The walk through several trees: each begins in the scope behind the one before it, and their complaints are
posted in order. -/
theorem visitAll_eq (s : Scope) (log : Option Log) : (ns : List Node) →
    visitAll ns ⟨s, log⟩ = (resolveAll s ns, ⟨s.afterAll ns, Log.append? log (complaintsAll s ns)⟩)
  | [] => by simp
  | n :: ns => by simp [visit_eq _ _ n, visitAll_eq _ _ ns]

end

end Walk

end Node

/-! ## The whole ways

Each way is a composition of the steps above, and the log goes through all of them. -/

namespace Logged

variable (read : LogParse Surface.Program)

/-- The program of a text. -/
def program (source : String) (log : Log) : Surface.Program × Log :=
  let scanned := Lexing.scan (.ofText source) 0 0 (Piece.ofText source.toList) log
  let parsed := read ⟨.ofLexemes scanned.1, scanned.2⟩
  (parsed.1, parsed.2.log)

/-- The resolved tree of a text, and the log afterwards, if there was one. Without a log the problems are posted to one
that is thrown away. -/
def tree (source : String) (log : Option Log) : Node × Option Log :=
  let parsed := program read source (log.getD .empty)
  let visited := parsed.1.node.visit ⟨{}, some parsed.2⟩
  (visited.1, if log.isSome then visited.2.log else none)

/-- The canonical form of a text. -/
def format (source : String) (log : Log) : String × Option Log :=
  let resolved := tree read source (some log)
  (resolved.1.text, resolved.2)

/-- The document of the program in a text. -/
def document (source : String) (log : Log) : Except Failure String × Option Log :=
  let resolved := tree read source (some log)
  (resolved.1.documentText, resolved.2)

variable {read}

/-- Reading a text with a log gives its program, and posts the problems of its characters and then those of its
lexemes. -/
theorem program_eq (h : Threads Parse.program read) (source : String) (log : Log) :
    program read source log =
      ((Surface.Program.ofText source).1, log.append (Surface.Program.ofText source).2) := by
  unfold program
  simp only [Lexing.scan_eq, h.run_eq, Log.append_append]
  rfl

/-- With a log everything is posted to it; without one the tree is the same, and the problems of the reading are
thrown away with the log that was made for them. -/
theorem tree_eq (h : Threads Parse.program read) (source : String) (log : Option Log) :
    tree read source log =
      ((resolvedTreeOfText source).result, Log.append? log (resolvedTreeOfText source).problems) := by
  unfold tree
  -- with or without a log there is one to post to; only what becomes of it differs
  simp only [program_eq h, Node.visit_eq]
  cases log with
  | none => rfl
  | some log => exact Prod.ext rfl (congrArg some (log.append_append _ _))

end Logged

/-- **A log never decides anything, and only grows.** There is a way to read programs with a log at hand, and in every
such way the program, the resolved tree, the canonical form and the document of a text are what they are without a log,
whatever the log holds; the problems of the text come after those of the log. An attempt that is given up leaves no
trace: the reading made in its place starts with the log as it was. -/
theorem logs_only_grow :
    (∃ read, Threads Parse.program read) ∧
    (∀ read, Threads Parse.program read → ∀ (source : String) (log : Log),
      Logged.program read source log =
        ((Surface.Program.ofText source).1, log.append (Surface.Program.ofText source).2) ∧
      Logged.tree read source (some log) =
        ((resolvedTreeOfText source).result, some (log.append (resolvedTreeOfText source).problems)) ∧
      Logged.tree read source none = ((resolvedTreeOfText source).result, none) ∧
      Logged.format read source log =
        ((formatText source).result, some (log.append (formatText source).problems)) ∧
      Logged.document read source log =
        ((documentOfText source).result, some (log.append (documentOfText source).problems))) ∧
    ∀ {α : Type} {p : Parse (Option α)} {f : LogParse (Option α)} (g : LogParse α) (state : ParserState),
      Threads p f → ¬ f.Succeeds state → LogParse.attempt f g state = g state := by
  refine ⟨Threadable.program, fun read hread source log => ?_, fun g state hf h => hf.attempt_of_not_succeeds g h⟩
  have hsome := Logged.tree_eq hread source (some log)
  refine ⟨Logged.program_eq hread source log, hsome, Logged.tree_eq hread source none, ?_, ?_⟩
  · rw [Logged.format, hsome]
    rfl
  · rw [Logged.document, hsome]
    rfl

end FlightScript
