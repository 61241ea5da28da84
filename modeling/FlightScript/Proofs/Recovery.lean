import FlightScript.Proofs.ExpressionText
import FlightScript.Proofs.Forgetting

/-!
# `Proofs.Recovery` — what comes back from its text

Whether an expression comes back from its own text is a question about that text alone: it is written, read and
resolved at its place, and compared with what it was. Everything that stands around expressions then comes back as well:
the arguments of an instruction with or without parentheses, the chain of a condition, the lines and braces of a block
at every depth, and the heads of declarations with their directives.

## Contents

* `ReadsText`: a text is read whole and without a problem;
* `Node.Recoverable`, and `Node.recoverable_iff`: the expressions that come back from their texts;
* `Grammar.Statement.readsText_block`: a block of settled statements comes back;
* `instruction_reads_back`, `block_reads_back`, `declarations_read_back`.
-/

namespace FlightScript

/-! ## Texts that are read whole

A text is cut and then read, from its first lexeme to its last. What is known of lexemes is brought over to texts
here. -/

/-- A text is read to its end and without a problem, and what is read is as wanted. -/
structure ReadsText {α : Type} (p : Parse α) (text : String) (Q : α → Prop) : Prop where
  lexing : (Lexing.ofText text).problems = []
  reading : (p (.ofLexemes (Lexing.ofText text).lexemes)).problems = []
  whole : (p (.ofLexemes (Lexing.ofText text).lexemes)).cursor.rest = []
  value : Q (p (.ofLexemes (Lexing.ofText text).lexemes)).value

namespace ReadsText

variable {α : Type} {p : Parse α} {text : String} {ts : List Symbol} {Q R : α → Prop}

/-- A text that is cut into lexemes is read as these lexemes are. -/
theorem of_spelled (hspelled : Spelled 0 text ts) (hreads : Reads p ts [] Q) : ReadsText p text Q := by
  have hspells : Spells 0 text.toList ts := by
    simpa using hspelled [] [] Stops.nil Spells.nil
  obtain ⟨hlexemes, hproblems⟩ := hspells.lexing
  obtain ⟨hnone, hview, hvalue⟩ := hreads (.ofLexemes (Lexing.ofText text).lexemes) hlexemes
  exact ⟨hproblems, hnone, List.map_eq_nil_iff.mp hview, hvalue⟩

theorem mono (h : ReadsText p text Q) (hQ : ∀ a, Q a → R a) : ReadsText p text R :=
  ⟨h.lexing, h.reading, h.whole, hQ _ h.value⟩

/-- What is read whole was made from all lexemes. -/
theorem consumes {P : α → List Symbol → Prop} (h : ReadsText p text Q) (hp : Consumes p P) :
    P (p (.ofLexemes (Lexing.ofText text).lexemes)).value ((Lexing.ofText text).lexemes.map Lexeme.bare) := by
  have hcanonical : ∀ u ∈ (Cursor.ofLexemes (Lexing.ofText text).lexemes).view, Canonical u := by
    intro u hu
    obtain ⟨l, hl, rfl⟩ := List.mem_map.mp hu
    exact Lexing.canonical_ofText text l hl
  obtain ⟨ts, hts, hP⟩ := hp _ hcanonical h.reading
  have hview : (p (.ofLexemes (Lexing.ofText text).lexemes)).cursor.view = [] :=
    List.map_eq_nil_iff.mpr h.whole
  rw [hview, List.append_nil] at hts
  rwa [← hts] at hP

end ReadsText

/-! ## Expressions that come back

A condition on the text of an expression is turned into one on its tree: that its constants can be spelt and its
names are settled where it stands. -/

/-- An expression comes back from its text at this place: the text is read, nothing is wrong with what is read, and
resolved here it is the expression, up to metadata. -/
def Node.Recoverable (s : Scope) (e : Node) : Prop :=
  ReadsText Parse.expression (e.render s 0 looseCeiling)
    (SomeTree fun n => n.complaints s = [] ∧ (n.resolve s).clearMetadata = e.clearMetadata)

namespace Node

/-- Trees that differ in metadata only draw the same complaints, places apart. -/
theorem bare_complaints_congr (s : Scope) {n m : Node} (h : n.clearMetadata = m.clearMetadata) :
    (n.complaints s).map Problem.bare = (m.complaints s).map Problem.bare := by
  rw [← complaints_clearMetadata s n, h, complaints_clearMetadata]

/-- A tree draws the complaints of the tree that it resolves to. -/
theorem bare_complaints_of_resolve {s : Scope} {n m : Node} (h : (n.resolve s).clearMetadata = m.clearMetadata) :
    (n.complaints s).map Problem.bare = (m.complaints s).map Problem.bare := by
  rw [← complaints_resolve, bare_complaints_congr s h]

theorem bare_complaintsAll_of_resolve {s : Scope} {ns ms : List Node}
    (h : (resolveAll s ns).map clearMetadata = ms.map clearMetadata) :
    (complaintsAll s ns).map Problem.bare = (complaintsAll s ms).map Problem.bare := by
  rw [← complaintsAll_resolveAll, ← complaintsAll_clearMetadata s (resolveAll s ns), h, complaintsAll_clearMetadata]

end Node

namespace Grammar

variable {s : Scope}

/-- What holds of trees and does not depend on metadata holds of all trees that agree with them. -/
theorem forall_mem_of_map_clearMetadata {P : Node → Prop} {ns ms : List Node}
    (h : ∀ n ∈ ns, ∀ m, n.clearMetadata = m.clearMetadata → P m)
    (heq : ns.map Node.clearMetadata = ms.map Node.clearMetadata) : ∀ m ∈ ms, P m := by
  intro m hm
  have hmem : m.clearMetadata ∈ ns.map Node.clearMetadata := heq ▸ List.mem_map_of_mem hm
  obtain ⟨n, hn, hnm⟩ := List.mem_map.mp hmem
  exact h n hn m hnm

/-- Whether an expression is settled does not depend on metadata. -/
theorem Expression.settled_congr {n m : Node} (h : Grammar.settled.Expression s n)
    (heq : n.clearMetadata = m.clearMetadata) : Grammar.settled.Expression s m := by
  induction h generalizing m with
  | @identifier use arguments hu _ ih =>
      cases m <;> simp only [Node.clearMetadata, Node.clearMetadataAll_eq_map, reduceCtorEq,
        Node.identifier.injEq] at heq
      rename_i use' arguments'
      obtain ⟨huse, harguments⟩ := heq
      obtain ⟨hname, hkind⟩ := Use.clearMetadata_eq_iff.mp huse
      have hlength : arguments.length = arguments'.length := by simpa using congrArg List.length harguments
      refine .identifier ?_ (forall_mem_of_map_clearMetadata (fun a ha m hm => ih a ha hm) harguments)
      have hu : s.SettlesIdentifier use arguments.length := hu
      unfold Scope.SettlesIdentifier at hu
      rw [hname, hkind, hlength] at hu
      exact hu
  | constant hc =>
      cases m <;> simp only [Node.clearMetadata, reduceCtorEq, Node.constant.injEq, and_true] at heq
      exact .constant (heq ▸ hc)
  | binary op _ _ ihl ihr =>
      cases m <;> simp only [Node.clearMetadata, reduceCtorEq, Node.binary.injEq, and_true] at heq
      obtain ⟨rfl, hl, hr⟩ := heq
      exact .binary op (ihl hl) (ihr hr)
  | negation _ ih =>
      cases m <;> simp only [Node.clearMetadata, reduceCtorEq, Node.unary.injEq, and_true] at heq
      obtain ⟨rfl, hn⟩ := heq
      exact .negation (ih hn)
  | conditional _ _ _ ihc iht ihe =>
      cases m <;> simp only [Node.clearMetadata, reduceCtorEq, Node.conditional.injEq, and_true] at heq
      obtain ⟨hc, ht, he⟩ := heq
      exact .conditional (ihc hc) (iht ht) (ihe he)

/-- The text of a settled expression stands for the expression. -/
theorem Expression.readsText {e : Node} (h : Grammar.settled.Expression s e) :
    ReadsText Parse.expression (e.render s 0 looseCeiling) (SomeTree (Node.Same s · e)) := by
  obtain ⟨ts, hts⟩ := h.expressed looseCeiling (by decide)
  have hends : Ends 10 [] := fun _ _ ht => by cases ht
  have hreads : Reads Parse.expression ts [] (SomeTree (Node.Same s · e)) := by
    simpa using hts.whole.expression hends
  exact .of_spelled (hts.spelled 0) hreads

end Grammar

namespace Node

/-- **An expression comes back from its text exactly if it is settled and draws no complaint.** -/
theorem recoverable_iff {s : Scope} (hs : s.VariablesBare) (e : Node) :
    e.Recoverable s ↔ Grammar.settled.Expression s e ∧ e.complaints s = [] := by
  constructor
  · intro h
    -- what is read without a problem is a written expression, and resolving settles it
    obtain ⟨x, hx, hcomplaints, hresolve⟩ := h.value
    obtain ⟨y, hy, hderives⟩ := h.consumes consumes_expression
    have hwritten := hderives.written fun _ hu => Lexing.matches_ofText hu
    obtain rfl : x = y := Option.some.inj (hx.symm.trans hy)
    have hsettled := (hwritten s).settled hs hcomplaints
    refine ⟨hsettled.settled_congr hresolve, ?_⟩
    have hbare := bare_complaints_of_resolve hresolve
    rw [hcomplaints] at hbare
    exact List.map_eq_nil_iff.mp hbare.symm
  · rintro ⟨hsettled, hcomplaints⟩
    refine hsettled.readsText.mono ?_
    rintro _ ⟨x, rfl, hsame⟩
    exact ⟨x, rfl, hsame.complaints.mpr hcomplaints, hsame.resolve⟩

theorem Recoverable.settled {s : Scope} {e : Node} (h : e.Recoverable s) (hs : s.VariablesBare) :
    Grammar.settled.Expression s e := ((recoverable_iff hs e).mp h).1

theorem Recoverable.complaints {s : Scope} {e : Node} (h : e.Recoverable s) (hs : s.VariablesBare) :
    e.complaints s = [] := ((recoverable_iff hs e).mp h).2

/-- An expression whose constants can be spelled and whose names are used as they are defined comes back. -/
theorem Recoverable.of_sayable {s : Scope} {e : Node} (hs : s.VariablesBare) (h : Grammar.sayable.Expression s e) :
    e.Recoverable s :=
  (recoverable_iff hs e).mpr ⟨h.settled_of_sayable hs, h.complaints_of_sayable⟩

end Node

/-! ## Blocks that come back

From here on nothing is assumed but that the expressions come back. -/

/-- **A block of settled statements comes back from its text**, if nothing in it is misprinted. -/
theorem Grammar.Statement.readsText_block {s : Scope} {ns : List Node}
    (h : ∀ n ∈ ns, Grammar.settled.Statement s n) (hp : ∀ n ∈ ns, n.Printable) (depth : Nat) :
    ReadsText Parse.block (blockText depth (Node.statements s (depth + 1) ns)) fun block =>
      (Node.resolveAll s block.nodes).map Node.clearMetadata = ns.map Node.clearMetadata := by
  obtain ⟨ts, hts⟩ := Grammar.Statement.blocked h (depth + 1)
  have hreadable : ∀ n ∈ ns, n.Readable := fun n hn => ((h n hn).printable_iff.mp (hp n hn)).1
  have hback : (ns.map Node.readBack).map Node.clearMetadata = ns.map Node.clearMetadata := by
    rw [List.map_map, List.map_inj_left]
    exact fun n hn => ((h n hn).printable_iff.mp (hp n hn)).2
  have hreads : Reads Parse.block (blockLexemes ts) [] fun block =>
      List.Forall₂ (Node.Same s) block.nodes (ns.map Node.readBack) := by
    simpa using (@Blocked.readsIf s (depth + 1) ns ts [] hts).reads hreadable
  refine (ReadsText.of_spelled (.block hts.lines depth) hreads).mono fun block hblock => ?_
  rw [Node.resolveAll_of_programFree (Node.Same.left_all hblock), Node.Same.resolve_all hblock, hback]

/-! ## Instructions

What is left open is the number of arguments: an instruction may come back and still be complained about. -/

namespace Scope

variable {s : Scope} {use : Use InstructionKind} {d : Definition}

/-- What can be wrong with a defined instruction is the number of its arguments. -/
theorem bare_instructionComplaints_of_definition (hd : s.instruction? use.name use.kind = some d) (k : Nat) :
    (s.instructionComplaints (s.resolveInstruction use) k).map Problem.bare =
      if d.arity.accepts k then [] else [(.error, (Complaint.argumentCount use.name k d.arity).message)] := by
  rw [resolveInstruction_of_known (settlesInstruction_of_definition hd).known, instructionComplaints, hd,
    Complaint.ofUse]
  by_cases hk : d.arity.accepts k = true
  · rw [if_pos hk, if_pos hk, List.map_nil]
  · rw [if_neg hk, if_neg hk]
    rfl

end Scope

/-- **An instruction comes back from its line in a block**, at every place of every program and at every depth: the
block is read without a problem and to its end, and resolved it holds the same instruction with the same arguments.
Nothing is wrong with it if its definition takes that many arguments, and otherwise their number is all that is
wrong. -/
theorem instruction_reads_back (program : Node) (frames : List (List String)) (depth : Nat)
    (use : Use InstructionKind) (arguments : List Node) (d : Definition)
    (hd : ({ globals := .ofNode program, frames := frames } : Scope).instruction? use.name use.kind = some d)
    (ha : ∀ a ∈ arguments, a.Recoverable { globals := .ofNode program, frames := frames }) :
    let s : Scope := { globals := .ofNode program, frames := frames }
    ReadsText Parse.block (blockText depth (Node.statements s (depth + 1) [.instruction use arguments])) fun block =>
      (Node.resolveAll s block.nodes).map Node.clearMetadata = [(Node.instruction use arguments).clearMetadata] ∧
      (Node.complaintsAll s block.nodes).map Problem.bare =
        if d.arity.accepts arguments.length then []
        else [(.error, (Complaint.argumentCount use.name arguments.length d.arity).message)] := by
  intro s
  have hs : s.VariablesBare := Scope.variablesBare_ofNode program frames
  have hsettled : ∀ a ∈ arguments, Grammar.settled.Expression s a := fun a hm => (ha a hm).settled hs
  have hstatement : ∀ n ∈ [Node.instruction use arguments], Grammar.settled.Statement s n :=
    List.forall_mem_singleton.mpr (.instruction (Scope.settlesInstruction_of_definition hd) hsettled)
  have hprintable : ∀ n ∈ [Node.instruction use arguments], n.Printable :=
    List.forall_mem_singleton.mpr
      (Node.everywhere_instruction.mpr ⟨rfl, fun a hm => (hsettled a hm).printable⟩)
  refine (Grammar.Statement.readsText_block hstatement hprintable depth).mono fun block hblock => ⟨hblock, ?_⟩
  -- the arguments draw no complaint, so the only ones are about the instruction itself
  have harguments : Node.complaintsAll s arguments = [] := by
    rw [Node.complaintsAll_of_programFree (Grammar.Expression.programFree_all hsettled)]
    exact List.flatMap_eq_nil_iff.mpr fun a hm => (ha a hm).complaints hs
  rw [Node.bare_complaintsAll_of_resolve hblock, Node.complaintsAll, Node.complaintsAll, Node.complaints, harguments,
    List.append_nil, List.append_nil]
  exact Scope.bare_instructionComplaints_of_definition hd arguments.length

/-- A declared instruction with the name of a builtin one, whose only argument begins with a parenthesis. -/
theorem instruction_reads_back_grouped :
    let program : Node :=
      .program "p" [] [.instructionDeclaration ⟨none, "Display", none, none, ["x"], none, none⟩ []] none
    let s : Scope := { globals := .ofNode program, frames := [["x"]] }
    let argument : Node := .binary "*" (.binary "+" (.identifier ⟨"x", none, .local_, none⟩ [])
      (.constant ⟨.number, "-1"⟩ none) none) (.constant ⟨.number, "2"⟩ none) none
    let n : Node := .instruction ⟨"Display", none, .global, none⟩ [argument]
    argument.Recoverable s ∧ blockText 0 (Node.statements s 1 [n]) = "\x7b\n  this.Display (x + -1) * 2\n\x7d" ∧
      ReadsText Parse.block (blockText 0 (Node.statements s 1 [n])) fun block =>
        (Node.resolveAll s block.nodes).map Node.clearMetadata = [n.clearMetadata] ∧
        (Node.complaintsAll s block.nodes).map Problem.bare = [] := by
  intro program s argument n
  have hx : Grammar.sayable.Expression s (.identifier ⟨"x", none, .local_, none⟩ []) :=
    .identifier ⟨Scope.localVariable "x", rfl, rfl⟩ (by simp)
  have hone : Grammar.sayable.Expression s (.constant ⟨.number, "-1"⟩ none) :=
    .constant (.inr ⟨['1'], rfl, ⟨'1', [], rfl, .inl (by decide)⟩, by decide⟩)
  have htwo : Grammar.sayable.Expression s (.constant ⟨.number, "2"⟩ none) :=
    .constant (.inl ⟨⟨'2', [], rfl, .inl (by decide)⟩, by decide⟩)
  have hargument : argument.Recoverable s :=
    Node.Recoverable.of_sayable (Scope.variablesBare_ofNode program [["x"]])
      (.binary .multiply (.binary .add hx hone) htwo)
  refine ⟨hargument, by decide +kernel, ?_⟩
  exact instruction_reads_back program [["x"]] 0 ⟨"Display", none, .global, none⟩ [argument] _ rfl
    (by simpa using hargument)

/-- The builtin instruction `Display` is defined, but without an argument it draws a complaint. -/
theorem instruction_draws_argumentCount :
    let s : Scope := { globals := .ofNode (.program "p" [] [] none), frames := [] }
    let text := blockText 0 (Node.statements s 1 [.instruction ⟨"Display", none, .builtin, none⟩ []])
    (s.instruction? "Display" .builtin).isSome ∧
      Node.complaintsAll s (Parse.block (.ofLexemes (Lexing.ofText text).lexemes)).value.nodes ≠ [] := by
  intro s text
  simp only [Lexing.ofText_eq_chars]
  decide +kernel

/-! ## Chains and loops

Conditions, loops and comments in any order and at any depth, around expressions that come back. -/

/-- Statements that are built of conditions, loops and comments around expressions that come back. -/
inductive Node.Structured (s : Scope) : Node → Prop where
  | ifElse {condition : Node} {consequent alternative : List Node} {loc : Option Span} :
      condition.Recoverable s → (∀ n ∈ consequent, Structured s n) → (∀ n ∈ alternative, Structured s n) →
      Structured s (.ifElse condition consequent alternative loc)
  | whileLoop {condition : Node} {body : List Node} {loc : Option Span} :
      condition.Recoverable s → (∀ n ∈ body, Structured s n) → Structured s (.whileLoop condition body loc)
  | repeatLoop {count : Node} {body : List Node} {loc : Option Span} :
      count.Recoverable s → (∀ n ∈ body, Structured s n) → Structured s (.repeatLoop count body loc)
  | breakLoop {loc : Option Span} : Structured s (.breakLoop loc)
  | comment {text : String} {loc : Option Span} : LegibleComment text → Structured s (.comment text loc)

namespace Node.Structured

variable {s : Scope} {n : Node}

/-- A structured statement is settled, by induction over the way in which it is built. -/
theorem settled (h : n.Structured s) (hs : s.VariablesBare) : Grammar.settled.Statement s n := by
  induction h with
  | ifElse hc _ _ iht ihe => exact .ifElse (hc.settled hs) iht ihe
  | whileLoop hc _ ih => exact .whileLoop (hc.settled hs) ih
  | repeatLoop hc _ ih => exact .repeatLoop (hc.settled hs) ih
  | breakLoop => exact .breakLoop
  | comment ht => exact .comment ht

/-- Nothing in a structured statement is misprinted: only waits, counting loops and assignments can be, and it
holds none of them. -/
theorem printable (h : n.Structured s) (hs : s.VariablesBare) : n.Printable := by
  induction h with
  | ifElse hc _ _ iht ihe => exact everywhere_ifElse.mpr ⟨rfl, (hc.settled hs).printable, iht, ihe⟩
  | whileLoop hc _ ih => exact everywhere_whileLoop.mpr ⟨rfl, (hc.settled hs).printable, ih⟩
  | repeatLoop hc _ ih => exact everywhere_repeatLoop.mpr ⟨rfl, (hc.settled hs).printable, ih⟩
  | breakLoop => exact everywhere_breakLoop.mpr rfl
  | comment _ => exact everywhere_comment.mpr rfl

/-- Nothing is wrong with a structured statement, since nothing is wrong with its expressions. -/
theorem complaints (h : n.Structured s) (hs : s.VariablesBare) : n.complaints s = [] := by
  have hfree : ∀ {ns : List Node}, (∀ n ∈ ns, n.Structured s) → ∀ n ∈ ns, n.ProgramFree :=
    fun hns n hn => ((hns n hn).settled hs).programFree
  induction h with
  | ifElse hc ht he iht ihe =>
      rw [complaints_ifElse _ (hc.settled hs).programFree (hfree ht) (hfree he), hc.complaints hs,
        List.flatMap_eq_nil_iff.mpr iht, List.flatMap_eq_nil_iff.mpr ihe]
      rfl
  | whileLoop hc hb ih =>
      rw [complaints_whileLoop _ (hc.settled hs).programFree (hfree hb), hc.complaints hs,
        List.flatMap_eq_nil_iff.mpr ih]
      rfl
  | repeatLoop hc hb ih =>
      rw [complaints_repeatLoop _ (hc.settled hs).programFree (hfree hb), hc.complaints hs,
        List.flatMap_eq_nil_iff.mpr ih]
      rfl
  | breakLoop => rfl
  | comment _ => rfl

end Node.Structured

/-- **A block of conditions, loops and comments comes back from its text**, at every place of every program and at
every depth: it is read without a problem and to its end, resolved it is the same list, up to metadata, and nothing
is wrong with it. -/
theorem block_reads_back (program : Node) (frames : List (List String)) (depth : Nat) (ns : List Node)
    (h : ∀ n ∈ ns, n.Structured { globals := .ofNode program, frames := frames }) :
    let s : Scope := { globals := .ofNode program, frames := frames }
    ReadsText Parse.block (blockText depth (Node.statements s (depth + 1) ns)) fun block =>
      (Node.resolveAll s block.nodes).map Node.clearMetadata = ns.map Node.clearMetadata ∧
        Node.complaintsAll s block.nodes = [] := by
  intro s
  have hs : s.VariablesBare := Scope.variablesBare_ofNode program frames
  have hsettled : ∀ n ∈ ns, Grammar.settled.Statement s n := fun n hn => (h n hn).settled hs
  refine (Grammar.Statement.readsText_block hsettled (fun n hn => (h n hn).printable hs) depth).mono
    fun block hblock => ⟨hblock, ?_⟩
  have hnone : Node.complaintsAll s ns = [] := by
    rw [Node.complaintsAll_of_programFree (Grammar.Statement.programFree_all hsettled)]
    exact List.flatMap_eq_nil_iff.mpr fun n hn => (h n hn).complaints hs
  have hbare := Node.bare_complaintsAll_of_resolve hblock
  rw [hnone] at hbare
  exact List.map_eq_nil_iff.mp hbare

/-- A chain of conditions whose first one is itself a conditional expression, with a comment that looks like the next
rung and a last block that begins with a further condition. -/
theorem block_reads_back_chain :
    let program : Node := .program "p" [] [] none
    let s : Scope := { globals := .ofNode program, frames := [] }
    let yes : Node := .constant ⟨.bool, "true"⟩ none
    let last : List Node := [.ifElse yes [] [] none, .repeatLoop yes [.breakLoop none] none]
    let chain : Node :=
      .ifElse (.conditional yes yes yes none) [.comment "else \x7b" none] [.ifElse yes [] last none] none
    chain.Structured s ∧
      Node.statements s 1 [chain] =
        "\n  if if true then true else true \x7b\n    // else \x7b\n  \x7d else if true \x7b\n  \x7d else \x7b" ++
        "\n    if true \x7b\n    \x7d\n    repeat true \x7b\n      break\n    \x7d\n  \x7d" ∧
      ReadsText Parse.block (blockText 0 (Node.statements s 1 [chain])) fun block =>
        (Node.resolveAll s block.nodes).map Node.clearMetadata = [chain.clearMetadata] := by
  intro program s yes last chain
  have hs : s.VariablesBare := Scope.variablesBare_ofNode program []
  have hsayable : Grammar.sayable.Expression s yes := .constant (.inl rfl)
  have hyes : yes.Recoverable s := .of_sayable hs hsayable
  have hcondition : (Node.conditional yes yes yes none).Recoverable s :=
    .of_sayable hs (.conditional hsayable hsayable hsayable)
  have hlast : ∀ n ∈ last, n.Structured s := by
    have hif : (Node.ifElse yes [] [] none).Structured s := .ifElse hyes (by simp) (by simp)
    have hloop : (Node.repeatLoop yes [.breakLoop none] none).Structured s :=
      .repeatLoop hyes (by simpa using Node.Structured.breakLoop)
    simpa [last] using ⟨hif, hloop⟩
  have hcomment : (Node.comment "else \x7b" none).Structured s := .comment ⟨by decide +kernel, by decide +kernel⟩
  have hnext : (Node.ifElse yes [] last none).Structured s := .ifElse hyes (by simp) hlast
  have hchain : chain.Structured s := .ifElse hcondition (by simpa using hcomment) (by simpa using hnext)
  refine ⟨hchain, by decide +kernel, ?_⟩
  exact (block_reads_back program [] 0 [chain] (by simpa using hchain)).mono fun block hblock => hblock.1

/-! ## Declarations

Heads are spelt by directives, names and parameters. A program of declarations has no statements that could fail.
-/

instance (value : Option String) : Decidable (LegibleValue value) := inferInstanceAs (Decidable (value ≠ some ""))

/-- Handlers, declarations and blocks that hold no statements: a text can spell their heads, and the values of declared
expressions come back, once they are resolved where the parameters are bound. -/
inductive Node.Declared (s : Scope) : Node → Prop where
  | event {head : EventHead} : LegibleValue head.pos → (Catalog.event? head.event).isSome → head.filter = none →
      Declared s (.event head [])
  | message {head : EventHead} {message : String} : LegibleValue head.pos → head.event = Catalog.messageEvent →
      head.filter = some message → message ≠ "" → Declared s (.event head [])
  | instructionDeclaration {head : DeclarationHead} : head.Legible → Declared s (.instructionDeclaration head [])
  | expressionDeclaration {head : DeclarationHead} {value : Node} : head.Legible →
      (value.resolve (s.push head.parameters)).Recoverable (s.push head.parameters) →
      Declared s (.expressionDeclaration head value)
  | detached {pos : Option String} {loc : Option Span} : LegibleValue pos → Declared s (.detached pos [] loc)

namespace Node

/-- Trees are resolved one by one if what they resolve to holds no program. -/
theorem resolveAll_eq_map {s : Scope} {ns : List Node} (h : ∀ n ∈ ns, (n.resolve s).ProgramFree) :
    resolveAll s ns = ns.map (resolve s) := by
  induction ns with
  | nil => rfl
  | cons n ns ih =>
      have hafter : s.after n = s := by rw [← Scope.after_resolve s s n, (h n List.mem_cons_self).after]
      rw [resolveAll, hafter, List.map_cons, ih fun m hm => h m (List.mem_cons_of_mem _ hm)]

/-- The text of a tree is that of the resolved tree. -/
theorem text_resolved (n : Node) : n.resolved.text = n.text := by
  have htwice : n.resolved.resolved = n.resolved := resolve_resolve {} n
  rw [text, text, Globals.ofNode_resolved, htwice]

namespace Declared

variable {s : Scope} {n : Node}

theorem settled (h : n.Declared s) (hs : s.VariablesBare) : Grammar.settled.Item s (n.resolve s) := by
  cases h with
  | event hp he hf => exact .event ⟨hp, he, fun hne => absurd hf hne⟩ (by simp [resolveAll])
  | message hp he hf _ => exact .event ⟨hp, by simp only [he]; rfl, fun _ => he⟩ (by simp [resolveAll])
  | instructionDeclaration hh => exact .instructionDeclaration ⟨hh.pos, hh.callFormat⟩ (by simp [resolveAll])
  | expressionDeclaration hh hv => exact .expressionDeclaration ⟨hh.pos, hh.callFormat⟩ (hv.settled hs)
  | detached hp => exact .detached hp (by simp [resolveAll])

/-- No name with arguments is assigned to in a declaration, since nothing is. -/
theorem readable (h : n.Declared s) (hs : s.VariablesBare) : (n.resolve s).Readable := by
  cases h with
  | event => exact everywhere_event.mpr ⟨rfl, by simp [resolveAll]⟩
  | message => exact everywhere_event.mpr ⟨rfl, by simp [resolveAll]⟩
  | instructionDeclaration => exact everywhere_instructionDeclaration.mpr ⟨rfl, by simp [resolveAll]⟩
  | @expressionDeclaration head value _ hv =>
      have hvalue : (value.resolve (s.push head.parameters)).Readable := (hv.settled hs).readable
      exact everywhere_expressionDeclaration.mpr ⟨rfl, hvalue⟩
  | detached => exact everywhere_detached.mpr ⟨rfl, by simp [resolveAll]⟩

/-- The text of a declaration stands for the declaration: a filter is left out only if it is empty. -/
theorem readBack_resolve (h : n.Declared s) : (n.resolve s).readBack = n.resolve s := by
  cases h with
  | event _ _ hf => simp [resolve, readBack, resolveAll, hf, Text.filled]
  | message _ _ hf hm => simp [resolve, readBack, resolveAll, hf, Text.filled, hm]
  | instructionDeclaration => rfl
  | expressionDeclaration => rfl
  | detached => rfl

end Declared

end Node

/-- **A program of declarations comes back from its text**: whatever its name, its variables and the names and heads of
its declarations, the text is read without a problem, and resolved it is the resolved program, up to metadata. -/
theorem declarations_read_back (name : String) (vars : List VariableDeclaration) (body : List Node) (loc : Option Span)
    (h : ∀ n ∈ body, n.Declared (Grammar.scopeOf vars body)) :
    let n : Node := .program name vars body loc
    (treeOfText n.text).problems = [] ∧
      (treeOfText n.text).result.resolved.clearMetadata = n.resolved.clearMetadata := by
  intro n
  have hs := Grammar.variablesBare_scopeOf vars body
  have hresolved : n.resolved = .program name vars (body.map (Node.resolve (Grammar.scopeOf vars body))) loc := by
    show Node.program name vars (Node.resolveAll (Grammar.scopeOf vars body) body) loc = _
    rw [Node.resolveAll_eq_map fun m hm => ((h m hm).settled hs).programFree]
  have hsettled : Grammar.settled.Program n.resolved := by
    rw [hresolved]
    refine .program ?_
    rw [Grammar.scopeOf_map (Globals.add_resolve _)]
    exact Grammar.forall_mem_map_resolve fun m hm => (h m hm).settled hs
  have hreadable : n.resolved.Readable := by
    rw [hresolved]
    exact Node.everywhere_program.mpr ⟨rfl, Grammar.forall_mem_map_resolve fun m hm => (h m hm).readable hs⟩
  have hback : n.resolved.readBack = n.resolved := by
    rw [hresolved, Node.readBack, Node.readBackAll_eq_map, List.map_map]
    congr 1
    exact List.map_congr_left fun m hm => (h m hm).readBack_resolve
  obtain ⟨hnone, _, htree⟩ := hsettled.reread.1 hreadable
  rw [Node.text_resolved] at hnone htree
  exact ⟨hnone, htree.trans (by rw [hback])⟩

/-- A variable without a name, a message with the name of an event, a keyword as the name of an instruction with a call
format and a repeated parameter, and a declared expression whose name has a point and whose value uses its
parameter. -/
theorem declarations_read_back_keyword :
    let vars : List VariableDeclaration := [⟨"", none, .value, none⟩, ⟨"if", none, .list, none⟩]
    let value : Node := .binary "+" (.identifier ⟨"a b", none, .local_, none⟩ []) (.constant ⟨.string, "\n"⟩ none) none
    let body : List Node :=
      [.event ⟨some "1,2", "Docked", none, ["craftA"], none, none, none⟩ [],
       .event ⟨none, "ReceiveMessage", some "Docked", [], none, none, none⟩ [],
       .instructionDeclaration ⟨some "#pos", "def", none, some "_ \"_", ["x", "x"], none, none⟩ [],
       .detached (some "3,4") [] none,
       .expressionDeclaration ⟨none, "f.g", none, some "_", ["a b"], none, none⟩ value]
    let n : Node := .program "a\\\n" vars body none
    (∀ m ∈ body, m.Declared (Grammar.scopeOf vars body)) ∧ (treeOfText n.text).problems = [] ∧
      (treeOfText n.text).result.resolved.clearMetadata = n.resolved.clearMetadata := by
  intro vars value body n
  let s := Grammar.scopeOf vars body
  have hs : (s.push ["a b"]).VariablesBare := Grammar.variablesBare_scopeOf vars body
  have hvalue : value.Recoverable (s.push ["a b"]) :=
    .of_sayable hs (.binary .add (.identifier ⟨Scope.localVariable "a b", rfl, rfl⟩ (by simp)) (.constant trivial))
  have hdocked : (Node.event ⟨some "1,2", "Docked", none, ["craftA"], none, none, none⟩ []).Declared s :=
    .event (by decide) (by decide) rfl
  have hmessage : (Node.event ⟨none, "ReceiveMessage", some "Docked", [], none, none, none⟩ []).Declared s :=
    .message (by decide) rfl rfl (by decide)
  have hdef :
      (Node.instructionDeclaration ⟨some "#pos", "def", none, some "_ \"_", ["x", "x"], none, none⟩ []).Declared s :=
    .instructionDeclaration ⟨by decide, by decide⟩
  have hexpression : (Node.expressionDeclaration ⟨none, "f.g", none, some "_", ["a b"], none, none⟩ value).Declared s :=
    .expressionDeclaration ⟨by decide, by decide⟩ hvalue
  have hbody : ∀ m ∈ body, m.Declared s := by
    simpa [body] using ⟨hdocked, hmessage, hdef, .detached (by decide), hexpression⟩
  exact ⟨hbody, declarations_read_back "a\\\n" vars body none hbody⟩

end FlightScript
