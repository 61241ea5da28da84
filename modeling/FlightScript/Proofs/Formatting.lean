import FlightScript.Proofs.Programs
import FlightScript.Proofs.Validation

/-!
# `Proofs.Formatting` — what formatting preserves

Formatting a text gives the canonical text of its tree. Reading that text gives the same tree back, up to metadata,
unless something in the tree is misprinted: a wait of no seconds or a step of one that is no number is left out and
read back as a number, and a name with arguments that is assigned to is not put in parentheses and then read as an
instruction.

## Contents

* `Node.misprints`, and that exactly the misprints change what a text stands for;
* `Node.fillFilters`: trees up to empty message filters;
* `Grammar.Program.reread`: the tree of the canonical text of a program;
* `formatText_preserves_iff`: formatting preserves a program exactly if nothing in it is misprinted.
-/

namespace FlightScript

/-! ## Misprints

A misprint is a node whose text stands for something else. All other nodes are read back as they are. -/

namespace Node

/-- A constant with this text that is no number. -/
def isOtherConstant (value : String) : Node → Bool
  | constant c _ => c.value == value && c.kind != .number
  | _ => false

/-- The canonical text of a node stands for something else: a constant that is left out is no number, or a name with
arguments is assigned to. -/
def misprints : Node → Bool
  | wait .seconds condition _ => condition.isOtherConstant "0"
  | forLoop _ _ _ step _ => step.isOtherConstant "1"
  | assignment _ (identifier _ (_ :: _)) _ _ => true
  | _ => false

/-- Nothing in a tree is misprinted. -/
def Printable (n : Node) : Prop := n.Everywhere fun m => m.misprints = false

instance (n : Node) : Decidable n.Printable := inferInstanceAs (Decidable (n.Everywhere _))

/-- Putting a number in the place of a constant changes the tree exactly if the constant was no number. -/
theorem orNumber_clearMetadata_iff (value : String) (n : Node) :
    (n.orNumber value).clearMetadata = n.clearMetadata ↔ n.isOtherConstant value = false := by
  cases n with
  | constant c loc =>
      obtain ⟨kind, text⟩ := c
      by_cases hv : text = value
      · subst hv
        cases kind <;> simp [orNumber, isConstant, isOtherConstant, number, clearMetadata, Constant.number]
      · simp [orNumber, isConstant, isOtherConstant, hv]
  | _ => exact ⟨fun _ => rfl, fun _ => rfl⟩

theorem map_readBack_clearMetadata_iff {ns : List Node} :
    clearMetadataAll (readBackAll ns) = clearMetadataAll ns ↔
      ∀ n ∈ ns, n.readBack.clearMetadata = n.clearMetadata := by
  simp only [clearMetadataAll_eq_map, readBackAll_eq_map, List.map_map]
  exact List.map_inj_left

end Node

namespace Grammar

variable {g : Grammar} {s : Scope} {n : Node} {ns : List Node}

theorem Expression.printable (h : g.Expression s n) : n.Printable :=
  h.everywhere fun n hn => by cases hn <;> rfl

/-- The parts of a list of trees, taken together. -/
theorem forall_printable_iff {P Q : Node → Prop} (h : ∀ n ∈ ns, n.Printable ↔ P n ∧ Q n) :
    (∀ n ∈ ns, n.Printable) ↔ (∀ n ∈ ns, P n) ∧ ∀ n ∈ ns, Q n :=
  ⟨fun hp => ⟨fun n hn => ((h n hn).mp (hp n hn)).1, fun n hn => ((h n hn).mp (hp n hn)).2⟩,
    fun hp n hn => (h n hn).mpr ⟨hp.1 n hn, hp.2 n hn⟩⟩

/-- **Exactly the misprints change what the text of a statement stands for.** An assignment to a name with arguments
is not read back at all. The time of a wait and the step of a loop come back as numbers where they are left out,
whatever constants they were. -/
theorem Statement.printable_iff (h : g.Statement s n) :
    n.Printable ↔ n.Readable ∧ n.readBack.clearMetadata = n.clearMetadata := by
  induction h with
  | @instruction s use args _ ha =>
      have hp : (Node.instruction use args).Printable :=
        Node.everywhere_instruction.mpr ⟨rfl, fun a hm => (ha a hm).printable⟩
      have hr : (Node.instruction use args).Readable :=
        Node.everywhere_instruction.mpr ⟨rfl, fun a hm => (ha a hm).readable⟩
      exact iff_of_true hp ⟨hr, rfl⟩
  -- the target cannot be read back exactly if it is a name with arguments
  | @assignment s operator target value loc ht hv =>
      rw [Node.Printable, Node.Readable, Node.everywhere_assignment, Node.everywhere_assignment]
      have hsame : (Node.assignment operator target value loc).misprints =
          (Node.assignment operator target value loc).assignsCall := by
        cases ht with
        | @identifier u args _ _ => cases args <;> rfl
        | _ => rfl
      rw [hsame]
      exact ⟨fun h => ⟨⟨h.1, ht.readable, hv.readable⟩, rfl⟩, fun h => ⟨h.1.1, ht.printable, hv.printable⟩⟩
  | comment _ => exact iff_of_true (Node.everywhere_comment.mpr rfl) ⟨Node.everywhere_comment.mpr rfl, rfl⟩
  | @wait s kind condition loc hc =>
      have hp : (Node.wait kind condition loc).Printable ↔ (Node.wait kind condition loc).misprints = false :=
        Node.everywhere_wait.trans (and_iff_left hc.printable)
      have hr : (Node.wait kind condition loc).Readable := Node.everywhere_wait.mpr ⟨rfl, hc.readable⟩
      rw [hp, and_iff_right hr]
      cases kind with
      | condition => exact iff_of_true rfl rfl
      | seconds =>
          simp only [Node.misprints, Node.readBack, Node.clearMetadata, Node.wait.injEq, true_and, and_true]
          exact (Node.orNumber_clearMetadata_iff "0" condition).symm
  | @ifElse s condition consequent alternative loc hc _ _ iht ihe =>
      have hp : (Node.ifElse condition consequent alternative loc).Printable ↔
          (∀ n ∈ consequent, n.Printable) ∧ ∀ n ∈ alternative, n.Printable :=
        Node.everywhere_ifElse.trans ((and_iff_right rfl).trans (and_iff_right hc.printable))
      rw [hp, Node.readable_ifElse, and_iff_right hc.readable, forall_printable_iff iht, forall_printable_iff ihe,
        and_and_and_comm]
      simp only [Node.readBack, Node.clearMetadata, Node.ifElse.injEq, Node.map_readBack_clearMetadata_iff, true_and,
        and_true]
  | @whileLoop s condition body loc hc _ ih =>
      have hp : (Node.whileLoop condition body loc).Printable ↔ ∀ n ∈ body, n.Printable :=
        Node.everywhere_whileLoop.trans ((and_iff_right rfl).trans (and_iff_right hc.printable))
      rw [hp, Node.readable_whileLoop, and_iff_right hc.readable, forall_printable_iff ih]
      simp only [Node.readBack, Node.clearMetadata, Node.whileLoop.injEq, Node.map_readBack_clearMetadata_iff,
        true_and, and_true]
  -- a step of one is left out, so a step that is another constant with this text is lost
  | @forLoop s head first last step body hf hl ht _ ih =>
      have hp : (Node.forLoop head first last step body).Printable ↔
          step.isOtherConstant "1" = false ∧ ∀ n ∈ body, n.Printable :=
        Node.everywhere_forLoop.trans (and_congr_right fun _ =>
          (and_iff_right hf.printable).trans ((and_iff_right hl.printable).trans (and_iff_right ht.printable)))
      rw [hp, Node.readable_forLoop, and_iff_right hf.readable, and_iff_right hl.readable, and_iff_right ht.readable,
        forall_printable_iff ih, and_left_comm]
      simp only [Node.readBack, Node.clearMetadata, Node.forLoop.injEq, Node.map_readBack_clearMetadata_iff, true_and,
        Node.orNumber_clearMetadata_iff]
  | breakLoop => exact iff_of_true (Node.everywhere_breakLoop.mpr rfl) ⟨Node.everywhere_breakLoop.mpr rfl, rfl⟩
  | @repeatLoop s count body loc hc _ ih =>
      have hp : (Node.repeatLoop count body loc).Printable ↔ ∀ n ∈ body, n.Printable :=
        Node.everywhere_repeatLoop.trans ((and_iff_right rfl).trans (and_iff_right hc.printable))
      rw [hp, Node.readable_repeatLoop, and_iff_right hc.readable, forall_printable_iff ih]
      simp only [Node.readBack, Node.clearMetadata, Node.repeatLoop.injEq, Node.map_readBack_clearMetadata_iff,
        true_and, and_true]

end Grammar

/-! ## Empty message filters

An empty filter is the one difference between trees that neither a text nor a document shows. -/

namespace Node

/-- A handler without an empty message filter. -/
def fillFilter : Node → Node
  | event head body => .event { head with filter := Text.filled head.filter } body
  | n => n

/-- A program without empty message filters. -/
def fillFilters : Node → Node
  | program name vars body loc => .program name vars (body.map fillFilter) loc
  | n => n

theorem filled_filled (value : Option String) : Text.filled (Text.filled value) = Text.filled value := by
  simp [Text.filled, Option.filter_filter]

theorem fillFilter_readBack_clearMetadata (n : Node) :
    n.readBack.clearMetadata.fillFilter = n.readBack.clearMetadata := by
  cases n with
  | event head body =>
      simp only [readBack, clearMetadata, EventHead.clearMetadata, fillFilter, filled_filled]
  | wait kind condition loc => cases kind <;> rfl
  | _ => rfl

/-- An empty message filter is written as none. -/
theorem render_fillFilter (s : Scope) (depth ceiling : Nat) (n : Node) :
    n.fillFilter.render s depth ceiling = n.render s depth ceiling := by
  cases n with
  | event head body =>
      have hname : Render.eventName { head with filter := Text.filled head.filter } = Render.eventName head := by
        simp only [Render.eventName_eq, filled_filled]
      simp only [fillFilter, render, hname]
  | _ => rfl

theorem statements_map_fillFilter (s : Scope) (depth : Nat) (ns : List Node) :
    statements s depth (ns.map fillFilter) = statements s depth ns := by
  induction ns with
  | nil => rfl
  | cons n ns ih => rw [List.map_cons, statements, statements, render_fillFilter, ih]

theorem render_fillFilters (s : Scope) (depth ceiling : Nat) (n : Node) :
    n.fillFilters.render s depth ceiling = n.render s depth ceiling := by
  cases n with
  | program name vars body loc => simp only [fillFilters, render, statements_map_fillFilter]
  | _ => rfl

end Node

namespace Export

open Node (fillFilter)

theorem topLevel_fillFilter (s : Scope) (n : Node) : topLevel s n.fillFilter = topLevel s n := by
  cases n with
  | event head body =>
      have hfilter : (Text.filled head.filter).getD "" = head.filter.getD "" := by
        cases head.filter with
        | none => rfl
        | some f => by_cases hf : f = "" <;> simp [Text.filled, Option.filter, hf]
      simp only [fillFilter, topLevel, eventHead, hfilter]
  | _ => rfl

/-- An empty message filter stands in a document as none does. -/
theorem topLevels_map_fillFilter (s : Scope) (ns : List Node) : topLevels s (ns.map fillFilter) = topLevels s ns := by
  induction ns using topLevels.induct with
  | case1 => rfl
  | case2 head value ns ih => simp only [List.map_cons, fillFilter, topLevels, ih]
  | case3 n ns h ih =>
      have hfill : ∀ head value, n.fillFilter ≠ .expressionDeclaration head value := by
        intro head value heq
        cases n <;> first | exact h _ _ rfl | cases heq
      rw [List.map_cons, topLevels_cons s _ hfill, topLevels_cons s ns h, topLevel_fillFilter, ih]

theorem program_map_fillFilter (s : Scope) (name : String) (vars : List VariableDeclaration) (body : List Node) :
    program s name vars (body.map fillFilter) = program s name vars body := by
  rw [program, program, topLevels_map_fillFilter]

/-- Metadata and empty message filters have no element. -/
theorem root_fillFilters (s : Scope) {name : String} {vars : List VariableDeclaration} {body : List Node}
    {loc : Option Span} : (root s (Node.program name vars body loc).clearMetadata.fillFilters).toOption =
      (root s (.program name vars body loc)).toOption := by
  simp only [Node.clearMetadata, Node.fillFilters, root, program_map_fillFilter]
  exact toOption_of_mapError (program_clearMetadata s name vars body)

end Export

namespace Grammar

variable {g : Grammar} {s : Scope} {n : Node}

/-- **Exactly the misprints change what the text of an item stands for.** -/
theorem Item.printable_iff (h : g.Item s n) :
    n.Printable ↔ n.Readable ∧ n.readBack.clearMetadata = n.clearMetadata.fillFilter := by
  cases h with
  | @event head body _ hb =>
      have hp : (Node.event head body).Printable ↔ ∀ n ∈ body, n.Printable :=
        Node.everywhere_event.trans (and_iff_right rfl)
      have hr : (Node.event head body).Readable ↔ ∀ n ∈ body, n.Readable :=
        Node.everywhere_event.trans (and_iff_right rfl)
      rw [hp, hr, forall_printable_iff fun n hn => (hb n hn).printable_iff]
      simp only [Node.readBack, Node.clearMetadata, EventHead.clearMetadata, Node.fillFilter, Node.event.injEq,
        Node.map_readBack_clearMetadata_iff, true_and]
  | @instructionDeclaration head body _ hb =>
      have hp : (Node.instructionDeclaration head body).Printable ↔ ∀ n ∈ body, n.Printable :=
        Node.everywhere_instructionDeclaration.trans (and_iff_right rfl)
      have hr : (Node.instructionDeclaration head body).Readable ↔ ∀ n ∈ body, n.Readable :=
        Node.everywhere_instructionDeclaration.trans (and_iff_right rfl)
      rw [hp, hr, forall_printable_iff fun n hn => (hb n hn).printable_iff]
      simp only [Node.readBack, Node.clearMetadata, Node.fillFilter, Node.instructionDeclaration.injEq,
        Node.map_readBack_clearMetadata_iff, true_and]
  | @expressionDeclaration head value _ hv =>
      have hp : (Node.expressionDeclaration head value).Printable :=
        Node.everywhere_expressionDeclaration.mpr ⟨rfl, hv.printable⟩
      have hr : (Node.expressionDeclaration head value).Readable :=
        Node.everywhere_expressionDeclaration.mpr ⟨rfl, hv.readable⟩
      exact iff_of_true hp ⟨hr, rfl⟩
  | @detached pos body loc _ hb =>
      have hp : (Node.detached pos body loc).Printable ↔ ∀ n ∈ body, n.Printable :=
        Node.everywhere_detached.trans (and_iff_right rfl)
      have hr : (Node.detached pos body loc).Readable ↔ ∀ n ∈ body, n.Readable :=
        Node.everywhere_detached.trans (and_iff_right rfl)
      rw [hp, hr, forall_printable_iff fun n hn => (hb n hn).printable_iff]
      simp only [Node.readBack, Node.clearMetadata, Node.fillFilter, Node.detached.injEq,
        Node.map_readBack_clearMetadata_iff, true_and, and_true]

/-- **Exactly the misprints change what the text of a program stands for**, empty message filters apart. -/
theorem Program.printable_iff (h : g.Program n) :
    n.Printable ↔ n.Readable ∧ n.readBack.clearMetadata.fillFilters = n.clearMetadata.fillFilters := by
  cases h with
  | @program name vars body loc hb =>
      have hp : (Node.program name vars body loc).Printable ↔ ∀ n ∈ body, n.Printable :=
        Node.everywhere_program.trans (and_iff_right rfl)
      have hr : (Node.program name vars body loc).Readable ↔ ∀ n ∈ body, n.Readable :=
        Node.everywhere_program.trans (and_iff_right rfl)
      have hfill : ((body.map Node.readBack).map Node.clearMetadata).map Node.fillFilter =
            (body.map Node.clearMetadata).map Node.fillFilter ↔
          ∀ n ∈ body, n.readBack.clearMetadata = n.clearMetadata.fillFilter := by
        rw [List.map_map, List.map_map, List.map_map, List.map_inj_left]
        exact forall₂_congr fun n _ => by rw [Function.comp, Function.comp, Function.comp,
          Node.fillFilter_readBack_clearMetadata]
      rw [hp, hr, forall_printable_iff fun n hn => (hb n hn).printable_iff]
      simp only [Node.readBack, Node.readBackAll_eq_map, Node.clearMetadata, Node.clearMetadataAll_eq_map,
        Node.fillFilters, Node.program.injEq, hfill, true_and, and_true]

end Grammar

/-! ## The tree of a canonical text

The canonical text of a settled program is read as a tree that comes to the same, and resolving it gives the tree
itself. -/

theorem Globals.add_readBack (d : Globals) (n : Node) : d.add n.readBack = d.add n := by
  cases n with
  | wait kind condition loc => cases kind <;> rfl
  | _ => rfl

namespace Grammar

/-- Programs whose items come to the same declare the same. -/
theorem scopeOf_eq_of_same {s : Scope} {vars vars' : List VariableDeclaration} {ns ms : List Node}
    (hvars : vars.map VariableDeclaration.clearMetadata = vars'.map VariableDeclaration.clearMetadata)
    (h : List.Forall₂ (Node.Same s) ns ms) : scopeOf vars ns = scopeOf vars' ms := by
  have hglobals : Globals.ofProgram vars ns = Globals.ofProgram vars' ms := by
    calc Globals.ofProgram vars ns
        = Globals.ofProgram vars (ns.map (Node.resolve s)) := (Globals.ofProgram_map (Globals.add_resolve s) _ _).symm
      _ = Globals.ofProgram (vars.map VariableDeclaration.clearMetadata)
            ((ns.map (Node.resolve s)).map Node.clearMetadata) := (Globals.ofProgram_clearMetadata _ _).symm
      _ = Globals.ofProgram (vars'.map VariableDeclaration.clearMetadata) (ms.map Node.clearMetadata) := by
            rw [hvars, Node.Same.resolve_all h]
      _ = Globals.ofProgram vars' ms := Globals.ofProgram_clearMetadata _ _
  rw [scopeOf, hglobals, ← scopeOf]

variable {n : Node}

/-- The text of a settled program is written in the scope of its own declarations. -/
theorem Program.text_eq {name : String} {vars : List VariableDeclaration} {body : List Node} {loc : Option Span}
    (h : Grammar.settled.Program (.program name vars body loc)) :
    (Node.program name vars body loc).text =
      (Node.program name vars body loc).render (scopeOf vars body) 0 looseCeiling := by
  rw [Node.text, ← Node.render_clearMetadata, h.resolved_clearMetadata, Node.render_clearMetadata]
  rfl

/-- **The tree of the canonical text of a settled program** is the one its text stands for, and draws complaints
only if the program does. A text that cannot be read back has problems. -/
theorem Program.reread (h : Grammar.settled.Program n) :
    (n.Readable → (treeOfText n.text).problems = [] ∧
      ((treeOfText n.text).result.problems = [] ↔ n.problems = []) ∧
      (treeOfText n.text).result.resolved.clearMetadata = n.readBack.clearMetadata) ∧
    (¬ n.Readable → (treeOfText n.text).problems ≠ []) := by
  have htext := @Program.text_eq
  cases h with
  | @program name vars body loc hb =>
      have hr : (Node.program name vars body loc).Readable ↔ ∀ n ∈ body, n.Readable :=
        Node.everywhere_program.trans (and_iff_right rfl)
      obtain ⟨hyes, hno⟩ := @treeOfText_render name vars body loc hb
      rw [htext (.program hb), hr]
      refine ⟨fun hread => ?_, hno⟩
      obtain ⟨hnone, vars', body', htree, hvars, hbody⟩ := hyes hread
      -- both programs declare the same, so their names mean the same
      have hscope : scopeOf vars' body' = scopeOf vars body := by
        rw [scopeOf_eq_of_same hvars hbody, scopeOf_map Globals.add_readBack]
      have hfree := Node.Same.left_all hbody
      refine ⟨hnone, ?_, ?_⟩
      · rw [htree, Program.problems_eq hb, ← flatMap_complaints_readBack fun n hn => (hb n hn).complaints_readBack,
          ← Node.Same.complaints_all hbody, ← Node.complaintsAll_of_programFree hfree, ← hscope]
        rfl
      · have hresolved : (Node.program name vars' body' none).resolved =
            .program name vars' (body'.map (Node.resolve (scopeOf vars body))) none := by
          rw [← Node.resolveAll_of_programFree hfree, ← hscope]
          rfl
        rw [htree, hresolved]
        simp only [Node.readBack, Node.readBackAll_eq_map, Node.clearMetadata, Node.clearMetadataAll_eq_map, hvars,
          Node.Same.resolve_all hbody]

/-- A resolved program without problems has none when it is resolved again. -/
theorem Program.problems_resolved {g : Grammar} (h : g.Program n) (hn : n.problems = []) :
    n.resolved.problems = [] := by
  cases h with
  | @program name vars body loc hb =>
      have hsame := forall₂_map_right fun m hm => (hb m hm).same_resolve
      rw [Program.problems_eq hb, Node.Same.complaints_all hsame,
        ← Node.complaintsAll_of_programFree (Node.Same.right_all hsame)] at hn
      rw [Program.resolved_eq hb]
      show Node.complaintsAll (scopeOf vars (body.map (Node.resolve (scopeOf vars body)))) _ = []
      rw [scopeOf_map (Globals.add_resolve _)]
      exact hn

/-! ## Programs that differ in metadata and empty filters

Such programs have the same text and the same document, so it does not matter which of them is looked at. -/

/-- A program declares the same without metadata and empty filters. -/
theorem Program.ofNode_clearMetadata {g : Grammar} (h : g.Program n) :
    Globals.ofNode n.clearMetadata.fillFilters = Globals.ofNode n := by
  have hfill : ∀ (d : Globals) (n : Node), d.add n.fillFilter = d.add n := by
    intro d n
    cases n <;> rfl
  cases h with
  | @program name vars body loc _ =>
      simp only [Node.clearMetadata, Node.clearMetadataAll_eq_map, Node.fillFilters, Globals.ofNode,
        Globals.ofProgram_map hfill, Globals.ofProgram_clearMetadata]

/-- The document of a settled program has its element in the scope of its own declarations. -/
theorem Program.document_eq (h : Grammar.settled.Program n) : n.document.toOption =
    (Export.root { globals := .ofNode n } n).toOption.map fun e => (Export.number 0 e).1 := by
  have hroot : ∀ s : Scope, (Export.root s n.resolved).toOption = (Export.root s n).toOption := by
    intro s
    have hclear := h.resolved_clearMetadata
    cases h with
    | @program name vars body loc hb =>
        rw [Program.resolved_eq hb] at hclear ⊢
        rw [← Export.root_fillFilters s, hclear, Export.root_fillFilters]
  rw [← hroot, Node.document]
  cases Export.root { globals := .ofNode n } n.resolved <;> rfl

theorem Program.documentText_eq (h : Grammar.settled.Program n) : n.documentText.toOption =
    (Export.root { globals := .ofNode n } n).toOption.map fun e => Markup.write (Export.number 0 e).1 := by
  have hwrite : n.documentText.toOption = n.document.toOption.map Markup.write := by
    rw [Node.documentText]
    cases n.document <;> rfl
  rw [hwrite, h.document_eq, Option.map_map]
  rfl

/-- Metadata and empty message filters have no influence on the text of a settled program. -/
theorem Program.text_congr {m : Node} (hn : Grammar.settled.Program n) (hm : Grammar.settled.Program m)
    (heq : m.clearMetadata.fillFilters = n.clearMetadata.fillFilters) : m.text = n.text := by
  have htext : ∀ {n : Node}, Grammar.settled.Program n → n.text =
      n.clearMetadata.fillFilters.render { globals := .ofNode n.clearMetadata.fillFilters } 0 looseCeiling := by
    intro n hn
    rw [Node.text, hn.ofNode_clearMetadata, Node.render_fillFilters, ← hn.resolved_clearMetadata,
      Node.render_clearMetadata]
  rw [htext hn, htext hm, heq]

/-- Nor on its element. -/
theorem Program.root_congr {m : Node} (hn : Grammar.settled.Program n) (hm : Grammar.settled.Program m)
    (heq : m.clearMetadata.fillFilters = n.clearMetadata.fillFilters) (s : Scope) :
    (Export.root s m).toOption = (Export.root s n).toOption := by
  cases hn with
  | program =>
      cases hm with
      | program => rw [← Export.root_fillFilters s, heq, Export.root_fillFilters]

/-- Nor on the text of its document. -/
theorem Program.documentText_congr {m : Node} (hn : Grammar.settled.Program n) (hm : Grammar.settled.Program m)
    (heq : m.clearMetadata.fillFilters = n.clearMetadata.fillFilters) :
    m.documentText.toOption = n.documentText.toOption := by
  rw [hn.documentText_eq, hm.documentText_eq, hn.root_congr hm heq, ← hn.ofNode_clearMetadata,
    ← hm.ofNode_clearMetadata, heq]

end Grammar

/-! ## Formatting

A valid text has a settled tree, so what is known of settled trees is known of valid texts. -/

section Formatting

variable {source : String}

theorem Valid.settled (h : Valid source) : Grammar.settled.Program (resolvedTreeOfText source).result := by
  obtain ⟨htree, hcomplaints⟩ := (valid_iff source).mp h
  exact (Grammar.written_treeOfText htree).settled hcomplaints

theorem Valid.problems_resolved (h : Valid source) : (resolvedTreeOfText source).result.problems = [] := by
  obtain ⟨htree, hcomplaints⟩ := (valid_iff source).mp h
  exact (Grammar.written_treeOfText htree).problems_resolved hcomplaints

/-- The text of a settled program without complaints is valid exactly if it can be read back. -/
theorem Grammar.Program.valid_text_iff {n : Node} (h : Grammar.settled.Program n) (hn : n.problems = []) :
    Valid n.text ↔ n.Readable := by
  obtain ⟨hyes, hno⟩ := h.reread
  rw [valid_iff]
  constructor
  · intro hvalid
    by_contra hread
    exact hno hread hvalid.1
  · intro hread
    obtain ⟨hnone, hcomplaints, _⟩ := hyes hread
    exact ⟨hnone, hcomplaints.mpr hn⟩

/-- **The text of a settled program stands for the program exactly if nothing in it is misprinted.** -/
theorem Grammar.Program.printable_iff_text {n : Node} (h : Grammar.settled.Program n) (hn : n.problems = []) :
    n.Printable ↔ Valid n.text ∧
      (resolvedTreeOfText n.text).result.clearMetadata.fillFilters = n.clearMetadata.fillFilters := by
  rw [h.printable_iff, h.valid_text_iff hn]
  refine and_congr_right fun hread => ?_
  obtain ⟨_, _, htree⟩ := h.reread.1 hread
  rw [← htree]
  rfl

/-- Valid texts of the same program have the same document. -/
theorem documentOfText_congr {other : String} (h : Valid source) (ho : Valid other)
    (heq : (resolvedTreeOfText other).result.clearMetadata.fillFilters =
      (resolvedTreeOfText source).result.clearMetadata.fillFilters) :
    (documentOfText other).result = (documentOfText source).result := by
  obtain ⟨document, hdocument⟩ := h.exists_document
  obtain ⟨document', hdocument'⟩ := ho.exists_document
  have hsame : (documentOfText other).result.toOption = (documentOfText source).result.toOption :=
    h.settled.documentText_congr ho.settled heq
  rw [hdocument, hdocument'] at hsame
  rw [hdocument, hdocument', Option.some.inj hsame]

/-- **Formatting preserves a valid program exactly if nothing in it is misprinted**: the canonical text is valid,
has the same tree, is its own canonical text and has the same document. -/
theorem formatText_preserves_iff (source : String) (h : Valid source) :
    (Valid (formatText source).result ∧
      (resolvedTreeOfText (formatText source).result).result.clearMetadata.fillFilters =
        (resolvedTreeOfText source).result.clearMetadata.fillFilters ∧
      (formatText (formatText source).result).result = (formatText source).result ∧
      (documentOfText (formatText source).result).result = (documentOfText source).result) ↔
    (resolvedTreeOfText source).result.Printable := by
  have hprint := h.settled.printable_iff_text h.problems_resolved
  constructor
  · rintro ⟨hvalid, htree, _, _⟩
    exact hprint.mpr ⟨hvalid, htree⟩
  · intro hp
    obtain ⟨hvalid, htree⟩ := hprint.mp hp
    exact ⟨hvalid, htree, h.settled.text_congr hvalid.settled htree, documentOfText_congr h hvalid htree⟩

/-- A program with a call format, defaults that are written out, a condition as an operand and a chain of
conditions. -/
theorem formatText_preserves_countdown :
    let source := "#program \"count\"\nvar n\n#pos \"3,4\"\n#fmt \"_ down\"\ndef Count(m) \x7b\n" ++
      "for i = m to 1 step 1 \x7b\nwait 0\nn = (if i > 1 then i else 1) * 2\n\x7d\n\x7d\n" ++
      "on Start(data) \x7b\nif n == 1 \x7b\nCount(n)\n\x7d else if n == 2 \x7b\nwait until n > 3\n\x7d\n\x7d\n"
    Valid source ∧ (formatText (formatText source).result).result = (formatText source).result ∧
      (documentOfText (formatText source).result).result = (documentOfText source).result := by
  intro source
  have hvalid : Valid source := by decide +kernel
  have hprintable : (resolvedTreeOfText source).result.Printable := by decide +kernel
  obtain ⟨_, _, htext, hdocument⟩ := (formatText_preserves_iff source hvalid).mpr hprintable
  exact ⟨hvalid, htext, hdocument⟩

/-- A wait of no seconds that is a text becomes a number, and an assignment to a name with arguments cannot be read
back. -/
theorem formatText_misprints_wait :
    let wait := "#program \"program\"\n\n\n\x7b\n  wait \"0\"\n\x7d\n"
    let assignment := "#program \"program\"\n\n\ndef expression f(a): a\n\n\x7b\n  (f(1)) = 2\n\x7d\n"
    (Valid wait ∧ (documentOfText (formatText wait).result).result.toOption ≠ (documentOfText wait).result.toOption) ∧
      Valid assignment ∧ ¬ Valid (formatText assignment).result := by
  dsimp only
  decide +kernel

end Formatting

end FlightScript
