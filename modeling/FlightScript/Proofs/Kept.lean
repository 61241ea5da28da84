import FlightScript.Proofs.CleanUses
import FlightScript.Proofs.ImportExport
import FlightScript.Proofs.Templates

/-!
# `Proofs.Kept` — what a document keeps of a program

A document has no metadata, no arguments of local names and no empty blocks of statements. It puts declared
expressions behind everything else, and binds all parameters of an event. What it says about a declared name is in the
texts that show how the name is called. So the document of a program stands for the tree of `Node.kept`.

## Contents

* `DeclarationHead.kept`, `EventHead.kept`, `Node.kept`;
* `Grammar.Statement.kept_eq_clearMetadata`: without arguments of local names, only metadata is lost in a statement;
* `Grammar.Statement.defined_kept`: what is kept of statements without complaints has definitions everywhere;
* `DeclarationHead.format_kept`, `Node.KeepsFormats`: the texts of declared names can be read back;
* `Grammar.Program.settled_kept`, `Grammar.Program.problems_kept`: what is kept of a program is a program.
-/

namespace FlightScript

/-! ## Heads

A document has no place for a template: it holds two texts that show a call, one with numbers and one with names.
Template and parameters are read off these texts again. -/

namespace DeclarationHead

/-- The texts that show how a declared name is called. -/
def format (h : DeclarationHead) : CallFormat := .ofTemplate h.name h.parameters h.callFormat

/-- What a document keeps of the head of a declaration: template and parameters are read off the texts. -/
def kept (h : DeclarationHead) : DeclarationHead :=
  ⟨Text.filled h.pos, h.name, none, CallFormat.template? (some h.name) (some h.format.numbered),
    CallFormat.parameters h.format.named, none, none⟩

end DeclarationHead

/-- What a document keeps of the head of a handler, which then binds all parameters of its event. -/
def EventHead.kept (h : EventHead) : EventHead :=
  ⟨Text.filled h.pos, h.event, Text.filled h.filter,
    ((Catalog.event? h.event).map EventDefinition.parameters).getD [], none, none, none⟩

namespace Node

/-- Whether a node is the declaration of an expression. -/
def isExpressionDeclaration : Node → Bool
  | expressionDeclaration .. => true
  | _ => false

/-- Whether an item of a program has a block of its own in a document. -/
def hasBlock : Node → Bool
  | expressionDeclaration .. => false
  | detached _ body _ => !body.isEmpty
  | _ => true

/-- The items of a program in the order of its document. -/
def inOrder (items : List Node) : List Node := items.filter hasBlock ++ items.filter isExpressionDeclaration

mutual

/-- The tree that the document of a tree stands for. -/
def kept : Node → Node
  | identifier use arguments =>
    .identifier use.clearMetadata (if use.kind = .local_ then [] else keptAll arguments)
  | constant value _ => .constant value none
  | binary op lhs rhs _ => .binary op (kept lhs) (kept rhs) none
  | unary op operand _ => .unary op (kept operand) none
  | conditional condition consequent alternative _ =>
    .conditional (kept condition) (kept consequent) (kept alternative) none
  | instruction use arguments => .instruction use.clearMetadata (keptAll arguments)
  | assignment operator target value _ => .assignment operator (kept target) (kept value) none
  | comment text _ => .comment text none
  | wait kind condition _ => .wait kind (kept condition) none
  | ifElse condition consequent alternative _ =>
    .ifElse (kept condition) (keptAll consequent) (keptAll alternative) none
  | whileLoop condition body _ => .whileLoop (kept condition) (keptAll body) none
  | forLoop head first last step body =>
    .forLoop head.clearMetadata (kept first) (kept last) (kept step) (keptAll body)
  | breakLoop _ => .breakLoop none
  | repeatLoop count body _ => .repeatLoop (kept count) (keptAll body) none
  | event head body => .event head.kept (keptAll body)
  | instructionDeclaration head body => .instructionDeclaration head.kept (keptAll body)
  | expressionDeclaration head value => .expressionDeclaration head.kept (kept value)
  | detached pos body _ => .detached (Text.filled pos) (keptAll body) none
  | program name vars body _ =>
    .program name (vars.map VariableDeclaration.clearMetadata) (inOrder (keptAll body)) none
  | variableDeclaration d => .variableDeclaration d.clearMetadata
  | error message _ => .error message none

/-- Several trees, each as its document stands for it. -/
def keptAll : List Node → List Node
  | [] => []
  | n :: ns => kept n :: keptAll ns

end

@[simp] theorem keptAll_eq_map (ns : List Node) : keptAll ns = ns.map kept := by
  induction ns with
  | nil => rfl
  | cons n ns ih => rw [keptAll, ih, List.map_cons]

mutual

/-- Metadata is not kept. -/
theorem kept_clearMetadata : (n : Node) → n.clearMetadata.kept = n.kept
  | identifier use arguments => by
      rw [clearMetadata, kept, kept, keptAll_clearMetadata arguments]
      rfl
  | constant .. => rfl
  | binary op lhs rhs _ => by simp only [clearMetadata, kept, kept_clearMetadata lhs, kept_clearMetadata rhs]
  | unary op operand _ => by simp only [clearMetadata, kept, kept_clearMetadata operand]
  | conditional condition consequent alternative _ => by
      simp only [clearMetadata, kept, kept_clearMetadata condition, kept_clearMetadata consequent,
        kept_clearMetadata alternative]
  | instruction use arguments => by
      rw [clearMetadata, kept, kept, keptAll_clearMetadata arguments]
      rfl
  | assignment operator target value _ => by
      simp only [clearMetadata, kept, kept_clearMetadata target, kept_clearMetadata value]
  | comment .. => rfl
  | wait kind condition _ => by simp only [clearMetadata, kept, kept_clearMetadata condition]
  | ifElse condition consequent alternative _ => by
      rw [clearMetadata, kept, kept, kept_clearMetadata condition, keptAll_clearMetadata consequent,
        keptAll_clearMetadata alternative]
  | whileLoop condition body _ => by
      rw [clearMetadata, kept, kept, kept_clearMetadata condition, keptAll_clearMetadata body]
  | forLoop head first last step body => by
      rw [clearMetadata, kept, kept, kept_clearMetadata first, kept_clearMetadata last, kept_clearMetadata step,
        keptAll_clearMetadata body]
      rfl
  | breakLoop _ => rfl
  | repeatLoop count body _ => by
      rw [clearMetadata, kept, kept, kept_clearMetadata count, keptAll_clearMetadata body]
  | event head body => by
      rw [clearMetadata, kept, kept, keptAll_clearMetadata body]
      rfl
  | instructionDeclaration head body => by
      rw [clearMetadata, kept, kept, keptAll_clearMetadata body]
      rfl
  | expressionDeclaration head value => by
      rw [clearMetadata, kept, kept, kept_clearMetadata value]
      rfl
  | detached pos body _ => by rw [clearMetadata, kept, kept, keptAll_clearMetadata body]
  | program name vars body _ => by
      rw [clearMetadata, kept, kept, keptAll_clearMetadata body, List.map_map]
      rfl
  | variableDeclaration d => rfl
  | error .. => rfl

theorem keptAll_clearMetadata : (ns : List Node) → keptAll (clearMetadataAll ns) = keptAll ns
  | [] => rfl
  | n :: ns => by rw [clearMetadataAll, keptAll, keptAll, kept_clearMetadata n, keptAll_clearMetadata ns]

end

mutual

/-- What is kept has no metadata. -/
theorem clearMetadata_kept : (n : Node) → n.kept.clearMetadata = n.kept
  | identifier use arguments => by
      rw [kept, clearMetadata]
      split
      · rfl
      · rw [clearMetadataAll_keptAll arguments]
        rfl
  | constant .. => rfl
  | binary op lhs rhs _ => by simp only [clearMetadata, kept, clearMetadata_kept lhs, clearMetadata_kept rhs]
  | unary op operand _ => by simp only [clearMetadata, kept, clearMetadata_kept operand]
  | conditional condition consequent alternative _ => by
      simp only [clearMetadata, kept, clearMetadata_kept condition, clearMetadata_kept consequent,
        clearMetadata_kept alternative]
  | instruction use arguments => by
      rw [kept, clearMetadata, clearMetadataAll_keptAll arguments]
      rfl
  | assignment operator target value _ => by
      simp only [clearMetadata, kept, clearMetadata_kept target, clearMetadata_kept value]
  | comment .. => rfl
  | wait kind condition _ => by simp only [clearMetadata, kept, clearMetadata_kept condition]
  | ifElse condition consequent alternative _ => by
      rw [kept, clearMetadata, clearMetadata_kept condition, clearMetadataAll_keptAll consequent,
        clearMetadataAll_keptAll alternative]
  | whileLoop condition body _ => by
      rw [kept, clearMetadata, clearMetadata_kept condition, clearMetadataAll_keptAll body]
  | forLoop head first last step body => by
      rw [kept, clearMetadata, clearMetadata_kept first, clearMetadata_kept last, clearMetadata_kept step,
        clearMetadataAll_keptAll body]
      rfl
  | breakLoop _ => rfl
  | repeatLoop count body _ => by
      rw [kept, clearMetadata, clearMetadata_kept count, clearMetadataAll_keptAll body]
  | event head body => by
      rw [kept, clearMetadata, clearMetadataAll_keptAll body]
      rfl
  | instructionDeclaration head body => by
      rw [kept, clearMetadata, clearMetadataAll_keptAll body]
      rfl
  | expressionDeclaration head value => by
      rw [kept, clearMetadata, clearMetadata_kept value]
      rfl
  | detached pos body _ => by rw [kept, clearMetadata, clearMetadataAll_keptAll body]
  | program name vars body _ => by
      have hbody := clearMetadataAll_keptAll body
      rw [keptAll_eq_map, clearMetadataAll_eq_map] at hbody
      have hkept : ∀ m ∈ body.map kept, m.clearMetadata = id m :=
        List.map_inj_left.mp (hbody.trans (List.map_id _).symm)
      -- the items are put in order, which does not touch them
      have hitems : (inOrder (body.map kept)).map clearMetadata = inOrder (body.map kept) := by
        rw [← List.map_id (inOrder (body.map kept)), List.map_map]
        refine List.map_congr_left fun m hm => ?_
        rcases List.mem_append.mp hm with hm | hm <;> exact hkept m (List.mem_of_mem_filter hm)
      rw [kept, clearMetadata, clearMetadataAll_eq_map, keptAll_eq_map, hitems, List.map_map]
      rfl
  | variableDeclaration d => rfl
  | error .. => rfl

theorem clearMetadataAll_keptAll : (ns : List Node) → clearMetadataAll (keptAll ns) = keptAll ns
  | [] => rfl
  | n :: ns => by rw [keptAll, clearMetadataAll, clearMetadata_kept n, clearMetadataAll_keptAll ns]

end

/-- No local name has arguments. -/
def NoLocalCalls (n : Node) : Prop := n.Everywhere fun m => m.callsLocal = false

theorem noLocalCalls_identifier {u : Use IdentifierKind} {ns : List Node} :
    (identifier u ns).NoLocalCalls ↔ (u.kind = .local_ → ns = []) ∧ ∀ n ∈ ns, n.NoLocalCalls := by
  cases ns <;> simp [NoLocalCalls, callsLocal]

end Node

/-! ## Expressions and statements

In statements almost all is kept. What is lost is metadata, and the arguments of local names, for which an
element of a variable has no room that is looked at. -/

namespace Grammar

variable {g : Grammar} {s o : Scope} {n : Node} {ns : List Node}

theorem forall_mem_map_kept {P : Node → Prop} (h : ∀ n ∈ ns, P n.kept) : ∀ m ∈ ns.map Node.kept, P m := by
  intro m hm
  obtain ⟨n, hn, rfl⟩ := List.mem_map.mp hm
  exact h n hn

theorem map_kept_congr {f : Node → Node} (h : ∀ n ∈ ns, f n.kept = n.kept) : (ns.map Node.kept).map f = ns.map Node.kept := by
  rw [List.map_map]
  exact List.map_congr_left h

/-- What is kept of an expression stays. -/
theorem Expression.kept_kept (h : g.Expression s n) : n.kept.kept = n.kept := by
  induction h with
  | @identifier u args _ _ ih =>
      have hkind : u.clearMetadata.kind = u.kind := rfl
      rw [Node.kept, Node.kept, hkind, Node.keptAll_eq_map, Node.keptAll_eq_map]
      by_cases hlocal : u.kind = .local_
      · rw [if_pos hlocal, if_pos hlocal]
        rfl
      · rw [if_neg hlocal, if_neg hlocal, map_kept_congr ih]
        rfl
  | constant _ => rfl
  | binary op _ _ ihl ihr => rw [Node.kept, Node.kept, ihl, ihr]
  | negation _ ih => rw [Node.kept, Node.kept, ih]
  | conditional _ _ _ ihc iht ihe => rw [Node.kept, Node.kept, ihc, iht, ihe]

theorem Expression.kept_orNumber (h : g.Expression s n) (value : String) :
    (n.kept.orNumber value).kept = n.kept.orNumber value := by
  unfold Node.orNumber
  split
  · rfl
  · exact h.kept_kept

theorem map_kept_readBack (h : ∀ n ∈ ns, n.kept.readBack.kept = n.kept.readBack) :
    ((ns.map Node.kept).map Node.readBack).map Node.kept = (ns.map Node.kept).map Node.readBack := by
  simp only [List.map_map]
  exact List.map_congr_left h

/-- What the text of what is kept of a statement stands for is kept as well. -/
theorem Statement.kept_readBack (h : g.Statement s n) : n.kept.readBack.kept = n.kept.readBack := by
  induction h with
  | @instruction s u args _ ha =>
      show (Node.instruction u args).kept.kept = (Node.instruction u args).kept
      rw [Node.kept, Node.kept, Node.keptAll_eq_map, Node.keptAll_eq_map,
        map_kept_congr fun a hm => (ha a hm).kept_kept]
      rfl
  | @assignment s op target value loc ht hv =>
      show (Node.assignment op target value loc).kept.kept = (Node.assignment op target value loc).kept
      rw [Node.kept, Node.kept, ht.kept_kept, hv.kept_kept]
  | comment _ => rfl
  -- only here and in the step of a loop does reading back change a constant
  | @wait s kind condition loc hc =>
      rw [Node.kept]
      cases kind with
      | seconds => rw [Node.readBack, Node.kept, hc.kept_orNumber]
      | condition =>
          show (Node.wait .condition condition.kept none).kept = .wait .condition condition.kept none
          rw [Node.kept, hc.kept_kept]
  | ifElse hc _ _ iht ihe =>
      simp only [Node.kept, Node.readBack, Node.keptAll_eq_map, Node.readBackAll_eq_map, hc.kept_kept,
        map_kept_readBack iht, map_kept_readBack ihe]
  | whileLoop hc _ ih =>
      simp only [Node.kept, Node.readBack, Node.keptAll_eq_map, Node.readBackAll_eq_map, hc.kept_kept,
        map_kept_readBack ih]
  | forLoop hf hl ht _ ih =>
      simp only [Node.kept, Node.readBack, Node.keptAll_eq_map, Node.readBackAll_eq_map, hf.kept_kept, hl.kept_kept,
        ht.kept_orNumber, map_kept_readBack ih]
      rfl
  | breakLoop => rfl
  | repeatLoop hc _ ih =>
      simp only [Node.kept, Node.readBack, Node.keptAll_eq_map, Node.readBackAll_eq_map, hc.kept_kept,
        map_kept_readBack ih]

/-- Without arguments of local names, only metadata is lost in an expression. -/
theorem Expression.kept_eq_clearMetadata (h : g.Expression s n) (hn : n.NoLocalCalls) : n.kept = n.clearMetadata := by
  induction h with
  | @identifier u args _ _ ih =>
      obtain ⟨hcalls, hargs⟩ := Node.noLocalCalls_identifier.mp hn
      have hall : args.map Node.kept = args.map Node.clearMetadata :=
        List.map_congr_left fun a hm => ih a hm (hargs a hm)
      rw [Node.kept, Node.clearMetadata, Node.keptAll_eq_map, Node.clearMetadataAll_eq_map, hall]
      split
      · rename_i hlocal
        rw [hcalls hlocal]
        rfl
      · rfl
  | constant _ => rfl
  | binary op _ _ ihl ihr =>
      obtain ⟨hl, hr⟩ := (Node.everywhere_binary.mp hn).2
      rw [Node.kept, Node.clearMetadata, ihl hl, ihr hr]
  | negation _ ih => rw [Node.kept, Node.clearMetadata, ih (Node.everywhere_unary.mp hn).2]
  | conditional _ _ _ ihc iht ihe =>
      obtain ⟨hc, ht, he⟩ := (Node.everywhere_conditional.mp hn).2
      rw [Node.kept, Node.clearMetadata, ihc hc, iht ht, ihe he]

/-- **Without arguments of local names, only metadata is lost in a statement.** -/
theorem Statement.kept_eq_clearMetadata (h : g.Statement s n) (hn : n.NoLocalCalls) : n.kept = n.clearMetadata := by
  induction h with
  | @instruction s u args _ ha =>
      have hall : args.map Node.kept = args.map Node.clearMetadata :=
        List.map_congr_left fun a hm => (ha a hm).kept_eq_clearMetadata ((Node.everywhere_instruction.mp hn).2 a hm)
      rw [Node.kept, Node.clearMetadata, Node.keptAll_eq_map, Node.clearMetadataAll_eq_map, hall]
  | assignment ht hv =>
      obtain ⟨hnt, hnv⟩ := (Node.everywhere_assignment.mp hn).2
      rw [Node.kept, Node.clearMetadata, ht.kept_eq_clearMetadata hnt, hv.kept_eq_clearMetadata hnv]
  | comment _ => rfl
  | wait hc => rw [Node.kept, Node.clearMetadata, hc.kept_eq_clearMetadata (Node.everywhere_wait.mp hn).2]
  | ifElse hc _ _ iht ihe =>
      obtain ⟨hnc, hnt, hne⟩ := (Node.everywhere_ifElse.mp hn).2
      rw [Node.kept, Node.clearMetadata, hc.kept_eq_clearMetadata hnc, Node.keptAll_eq_map, Node.keptAll_eq_map,
        Node.clearMetadataAll_eq_map, Node.clearMetadataAll_eq_map, List.map_congr_left fun m hm => iht m hm (hnt m hm),
        List.map_congr_left fun m hm => ihe m hm (hne m hm)]
  | whileLoop hc _ ih =>
      obtain ⟨hnc, hnb⟩ := (Node.everywhere_whileLoop.mp hn).2
      rw [Node.kept, Node.clearMetadata, hc.kept_eq_clearMetadata hnc, Node.keptAll_eq_map,
        Node.clearMetadataAll_eq_map, List.map_congr_left fun m hm => ih m hm (hnb m hm)]
  | forLoop hf hl ht _ ih =>
      obtain ⟨hnf, hnl, hnt, hnb⟩ := (Node.everywhere_forLoop.mp hn).2
      rw [Node.kept, Node.clearMetadata, hf.kept_eq_clearMetadata hnf, hl.kept_eq_clearMetadata hnl,
        ht.kept_eq_clearMetadata hnt, Node.keptAll_eq_map, Node.clearMetadataAll_eq_map,
        List.map_congr_left fun m hm => ih m hm (hnb m hm)]
  | breakLoop => rfl
  | repeatLoop hc _ ih =>
      obtain ⟨hnc, hnb⟩ := (Node.everywhere_repeatLoop.mp hn).2
      rw [Node.kept, Node.clearMetadata, hc.kept_eq_clearMetadata hnc, Node.keptAll_eq_map,
        Node.clearMetadataAll_eq_map, List.map_congr_left fun m hm => ih m hm (hnb m hm)]

/-! ## Definitions

Where nothing is complained about, what is kept has definitions that take its arguments. -/

/-- Where nothing is wrong with a settled expression, every name that is kept in it has a definition that takes
its arguments. The arguments of local names are not kept, so nothing has to be shown of those. -/
theorem Expression.defined_kept (h : Grammar.settled.Expression s n) (hn : n.complaints s = [])
    (ho : s.globals = o.globals) : Grammar.defined.Expression o n.kept := by
  induction h with
  | @identifier u args hu ha ih =>
      simp only [Node.complaints, Node.complaintsAll_of_programFree (Expression.programFree_all ha),
        List.append_eq_nil_iff, List.flatMap_eq_nil_iff] at hn
      rw [Scope.resolveIdentifier_of_known hu.known, Scope.identifierComplaints_eq_nil_iff] at hn
      rw [Node.kept, Node.keptAll_eq_map]
      by_cases hlocal : u.kind = .local_
      · rw [if_pos hlocal]
        have hnone : o.DefinesIdentifier u.clearMetadata 0 := (Scope.definesIdentifier_local hlocal).mpr rfl
        exact .identifier hnone (by simp)
      · rw [if_neg hlocal]
        have hdefines := (hn.1.resolve_right fun h => hlocal h.1).of_globals ho
        rw [← List.length_map Node.kept] at hdefines
        exact .identifier hdefines (forall_mem_map_kept fun a hm => ih a hm (hn.2 a hm))
  | constant _ => exact .constant trivial
  | binary op hl _ ihl ihr =>
      rw [Node.complaints_binary _ _ hl.programFree, List.append_eq_nil_iff] at hn
      exact .binary op (ihl hn.1) (ihr hn.2)
  | negation _ ih => exact .negation (ih hn)
  | conditional hc ht _ ihc iht ihe =>
      simp only [Node.complaints_conditional _ hc.programFree ht.programFree, List.append_eq_nil_iff] at hn
      exact .conditional (ihc hn.1.1) (iht hn.1.2) (ihe hn.2)

/-- The same for statements. In the body of a counting loop the variable is one more local name, which needs no
definition among the globals. -/
theorem Statement.defined_kept (h : Grammar.settled.Statement s n) (hn : n.complaints s = [])
    (ho : s.globals = o.globals) : Grammar.defined.Statement o n.kept := by
  induction h generalizing o with
  | @instruction s u args hu ha =>
      simp only [Node.complaints, Node.complaintsAll_of_programFree (Expression.programFree_all ha),
        List.append_eq_nil_iff, List.flatMap_eq_nil_iff] at hn
      rw [Scope.resolveInstruction_of_known hu.known, Scope.instructionComplaints_eq_nil_iff] at hn
      have hdefines := hn.1.of_globals ho
      rw [← List.length_map Node.kept] at hdefines
      rw [Node.kept, Node.keptAll_eq_map]
      exact .instruction hdefines (forall_mem_map_kept fun a hm => (ha a hm).defined_kept (hn.2 a hm) ho)
  | assignment ht hv =>
      rw [Node.complaints_assignment _ _ ht.programFree, List.append_eq_nil_iff] at hn
      exact .assignment (ht.defined_kept hn.1 ho) (hv.defined_kept hn.2 ho)
  | comment _ => exact .comment trivial
  | wait hc => exact .wait (hc.defined_kept hn ho)
  | ifElse hc ht he iht ihe =>
      simp only [Node.complaints_ifElse _ hc.programFree (programFree_all ht) (programFree_all he),
        List.append_eq_nil_iff, List.flatMap_eq_nil_iff] at hn
      rw [Node.kept, Node.keptAll_eq_map, Node.keptAll_eq_map]
      exact .ifElse (hc.defined_kept hn.1.1 ho) (forall_mem_map_kept fun m hm => iht m hm (hn.1.2 m hm) ho)
        (forall_mem_map_kept fun m hm => ihe m hm (hn.2 m hm) ho)
  | whileLoop hc hb ih =>
      simp only [Node.complaints_whileLoop _ hc.programFree (programFree_all hb), List.append_eq_nil_iff,
        List.flatMap_eq_nil_iff] at hn
      rw [Node.kept, Node.keptAll_eq_map]
      exact .whileLoop (hc.defined_kept hn.1 ho) (forall_mem_map_kept fun m hm => ih m hm (hn.2 m hm) ho)
  | forLoop hf hl ht hb ih =>
      simp only [Node.complaints_forLoop _ hf.programFree hl.programFree ht.programFree (programFree_all hb),
        List.append_eq_nil_iff, List.flatMap_eq_nil_iff] at hn
      rw [Node.kept, Node.keptAll_eq_map]
      exact .forLoop (hf.defined_kept hn.1.1.1 ho) (hl.defined_kept hn.1.1.2 ho) (ht.defined_kept hn.1.2 ho)
        (forall_mem_map_kept fun m hm => ih m hm (hn.2 m hm) ho)
  | breakLoop => exact .breakLoop
  | repeatLoop hc hb ih =>
      simp only [Node.complaints_repeatLoop _ hc.programFree (programFree_all hb), List.append_eq_nil_iff,
        List.flatMap_eq_nil_iff] at hn
      rw [Node.kept, Node.keptAll_eq_map]
      exact .repeatLoop (hc.defined_kept hn.1 ho) (forall_mem_map_kept fun m hm => ih m hm (hn.2 m hm) ho)

/-! And nothing is complained about where every name has such a definition. -/

/-- Names with definitions that take their arguments draw no complaints, in all parts of an expression. -/
theorem Expression.complaints_eq_nil (h : Grammar.defined.Expression s n) : n.complaints s = [] := by
  induction h with
  | @identifier u args hu ha ih =>
      have hdefines : s.DefinesIdentifier u args.length := hu
      rw [Node.complaints, Node.complaintsAll_of_programFree (Expression.programFree_all ha),
        Scope.resolveIdentifier_of_known hdefines.known,
        Scope.identifierComplaints_eq_nil_iff.mpr (.inl hdefines), List.flatMap_eq_nil_iff.mpr ih]
      rfl
  | constant _ => rfl
  | binary op hl _ ihl ihr => rw [Node.complaints_binary _ _ hl.programFree, ihl, ihr, List.append_nil]
  | negation _ ih => exact ih
  | conditional hc ht _ ihc iht ihe =>
      rw [Node.complaints_conditional _ hc.programFree ht.programFree, ihc, iht, ihe]
      rfl

/-- The same for statements, by induction over the derivation. -/
theorem Statement.complaints_eq_nil (h : Grammar.defined.Statement s n) : n.complaints s = [] := by
  induction h with
  | @instruction s u args hu ha =>
      have hdefines : s.DefinesInstruction u args.length := hu
      rw [Node.complaints, Node.complaintsAll_of_programFree (Expression.programFree_all ha),
        Scope.resolveInstruction_of_known hdefines.known, Scope.instructionComplaints_eq_nil_iff.mpr hdefines,
        List.flatMap_eq_nil_iff.mpr fun a hm => (ha a hm).complaints_eq_nil]
      rfl
  | assignment ht hv =>
      rw [Node.complaints_assignment _ _ ht.programFree, ht.complaints_eq_nil, hv.complaints_eq_nil, List.append_nil]
  | comment _ => rfl
  | wait hc => exact hc.complaints_eq_nil
  | ifElse hc ht he iht ihe =>
      rw [Node.complaints_ifElse _ hc.programFree (programFree_all ht) (programFree_all he), hc.complaints_eq_nil,
        List.flatMap_eq_nil_iff.mpr iht, List.flatMap_eq_nil_iff.mpr ihe]
      rfl
  | whileLoop hc hb ih =>
      rw [Node.complaints_whileLoop _ hc.programFree (programFree_all hb), hc.complaints_eq_nil,
        List.flatMap_eq_nil_iff.mpr ih, List.append_nil]
  | forLoop hf hl ht hb ih =>
      rw [Node.complaints_forLoop _ hf.programFree hl.programFree ht.programFree (programFree_all hb),
        hf.complaints_eq_nil, hl.complaints_eq_nil, ht.complaints_eq_nil, List.flatMap_eq_nil_iff.mpr ih]
      rfl
  | breakLoop => rfl
  | repeatLoop hc hb ih =>
      rw [Node.complaints_repeatLoop _ hc.programFree (programFree_all hb), hc.complaints_eq_nil,
        List.flatMap_eq_nil_iff.mpr ih, List.append_nil]

/-! ## Settled names

Whether a name is settled depends on the names that are declared and not on their definitions, so it survives a
document even where a format does not. -/

end Grammar

/-- The same names are declared, whatever their definitions. -/
structure Globals.SameNames (d e : Globals) : Prop where
  vars : ∀ name, d.vars.contains name = e.vars.contains name
  instructions : ∀ name, d.instructions.contains name = e.instructions.contains name
  expressions : ∀ name, d.expressions.contains name = e.expressions.contains name

namespace Grammar

variable {s o : Scope} {n : Node}

/-- What is kept of a settled expression is settled wherever the same names are declared. -/
theorem Expression.settled_kept (h : Grammar.settled.Expression s n) (ho : s.globals.SameNames o.globals) :
    Grammar.settled.Expression o n.kept := by
  induction h with
  | @identifier u args hu _ ih =>
      have hkind : u.clearMetadata.kind = u.kind := rfl
      have hname : u.clearMetadata.name = u.name := rfl
      rw [Node.kept, Node.keptAll_eq_map]
      by_cases hlocal : u.kind = .local_
      · rw [if_pos hlocal]
        refine .identifier ?_ (by simp)
        show o.SettlesIdentifier u.clearMetadata 0
        simp [Scope.SettlesIdentifier, hkind, hlocal]
      · rw [if_neg hlocal]
        refine .identifier ?_ (forall_mem_map_kept ih)
        rw [List.length_map]
        have hsettles : s.SettlesIdentifier u args.length := hu
        show o.SettlesIdentifier u.clearMetadata args.length
        unfold Scope.SettlesIdentifier at hsettles ⊢
        rw [hkind, hname, ← ho.vars, ← ho.expressions]
        exact hsettles
  | constant hc => exact .constant hc
  | binary op _ _ ihl ihr => exact .binary op ihl ihr
  | negation _ ih => exact .negation ih
  | conditional _ _ _ ihc iht ihe => exact .conditional ihc iht ihe

/-- The same for statements. Kinds are kept, so a name of the program has to be declared at the new place and any
other one is settled by its kind. -/
theorem Statement.settled_kept (h : Grammar.settled.Statement s n) (ho : s.globals.SameNames o.globals) :
    Grammar.settled.Statement o n.kept := by
  induction h generalizing o with
  | @instruction s u args hu ha =>
      have hkind : u.clearMetadata.kind = u.kind := rfl
      have hname : u.clearMetadata.name = u.name := rfl
      rw [Node.kept, Node.keptAll_eq_map]
      refine .instruction ?_ (forall_mem_map_kept fun a hm => (ha a hm).settled_kept ho)
      have hsettles : s.SettlesInstruction u := hu
      show o.SettlesInstruction u.clearMetadata
      unfold Scope.SettlesInstruction at hsettles ⊢
      rw [hkind, hname, ← ho.instructions]
      exact hsettles
  | assignment ht hv => exact .assignment (ht.settled_kept ho) (hv.settled_kept ho)
  | comment ht => exact .comment ht
  | wait hc => exact .wait (hc.settled_kept ho)
  | ifElse hc _ _ iht ihe =>
      rw [Node.kept, Node.keptAll_eq_map, Node.keptAll_eq_map]
      exact .ifElse (hc.settled_kept ho) (forall_mem_map_kept fun m hm => iht m hm ho)
        (forall_mem_map_kept fun m hm => ihe m hm ho)
  | whileLoop hc _ ih =>
      rw [Node.kept, Node.keptAll_eq_map]
      exact .whileLoop (hc.settled_kept ho) (forall_mem_map_kept fun m hm => ih m hm ho)
  | forLoop hf hl ht _ ih =>
      rw [Node.kept, Node.keptAll_eq_map]
      exact .forLoop (hf.settled_kept ho) (hl.settled_kept ho) (ht.settled_kept ho)
        (forall_mem_map_kept fun m hm => ih m hm ho)
  | breakLoop => exact .breakLoop
  | repeatLoop hc _ ih =>
      rw [Node.kept, Node.keptAll_eq_map]
      exact .repeatLoop (hc.settled_kept ho) (forall_mem_map_kept fun m hm => ih m hm ho)

end Grammar

/-! ## Heads that are kept can be spelled

A head that was read from a document can be written in a text again. -/

/-- Whatever the head of a declaration was, what is kept of it can be spelt: the position and the template are
not empty. -/
theorem DeclarationHead.legible_kept (head : DeclarationHead) : head.kept.Legible where
  pos := legibleValue_filled head.pos
  callFormat := CallFormat.template?_ne_empty _ _

/-- What is kept of the head of a handler can be spelt if the head can: it names the same event, and it has a
filter only where there was one. -/
theorem EventHead.Legible.kept {head : EventHead} (h : head.Legible) : head.kept.Legible where
  pos := legibleValue_filled head.pos
  event := h.event
  filter hfilter := by
    refine h.filter fun hnone => hfilter ?_
    show Text.filled head.filter = none
    rw [hnone]
    rfl

/-- A handler that binds all parameters of its event draws no complaints. -/
theorem EventHead.Legible.complaints_kept {head : EventHead} (h : head.Legible) :
    Complaint.ofEvent head.kept = [] := by
  obtain ⟨d, hd⟩ := Option.isSome_iff_exists.mp h.event
  have hevent : Catalog.event? head.kept.event = some d := hd
  have hparameters : head.kept.parameters = d.parameters := by
    show ((Catalog.event? head.event).map EventDefinition.parameters).getD [] = _
    rw [hd]
    rfl
  simp [Complaint.ofEvent, hevent, hparameters]

/-! ## Items

What stands at the top of a program, with the parameters that its body knows. -/

namespace Grammar

variable {s o : Scope} {n : Node}

/-- What is kept of a settled item is settled. A local name is settled by its kind alone, so it does not matter
that a handler may bind other parameters afterwards. -/
theorem Item.settled_kept (h : Grammar.settled.Item s n) (ho : s.globals.SameNames o.globals) :
    Grammar.settled.Item o n.kept := by
  cases h with
  | event hh hb =>
      rw [Node.kept, Node.keptAll_eq_map]
      exact .event (EventHead.Legible.kept hh) (forall_mem_map_kept fun m hm => (hb m hm).settled_kept ho)
  | instructionDeclaration _ hb =>
      rw [Node.kept, Node.keptAll_eq_map]
      exact .instructionDeclaration (DeclarationHead.legible_kept _)
        (forall_mem_map_kept fun m hm => (hb m hm).settled_kept ho)
  | expressionDeclaration _ hv =>
      exact .expressionDeclaration (DeclarationHead.legible_kept _) (hv.settled_kept ho)
  | @detached pos body loc _ hb =>
      rw [Node.kept, Node.keptAll_eq_map]
      exact .detached (legibleValue_filled pos) (forall_mem_map_kept fun m hm => (hb m hm).settled_kept ho)

/-- Nothing is wrong with what is kept of an item that draws no complaints. -/
theorem Item.complaints_kept (h : Grammar.settled.Item s n) (hn : n.complaints s = [])
    (ho : s.globals = o.globals) : n.kept.complaints o = [] := by
  -- the scopes of bodies declare what the scopes around them declare
  have hbody : ∀ {s o : Scope} {ns : List Node}, (∀ n ∈ ns, Grammar.settled.Statement s n) →
      Node.complaintsAll s ns = [] → s.globals = o.globals → Node.complaintsAll o (Node.keptAll ns) = [] := by
    intro s o ns hns hn ho
    rw [Node.complaintsAll_of_programFree (Statement.programFree_all hns), List.flatMap_eq_nil_iff] at hn
    have hdefined := forall_mem_map_kept fun m hm => (hns m hm).defined_kept (hn m hm) ho
    rw [Node.keptAll_eq_map, Node.complaintsAll_of_programFree (Statement.programFree_all hdefined)]
    exact List.flatMap_eq_nil_iff.mpr fun m hm => (hdefined m hm).complaints_eq_nil
  cases h with
  | @event head body hh hb =>
      rw [Node.complaints, List.append_eq_nil_iff] at hn
      rw [Node.kept, Node.complaints, EventHead.Legible.complaints_kept hh]
      exact hbody hb hn.2 ho
  | instructionDeclaration _ hb => exact hbody hb hn ho
  | @expressionDeclaration head value _ hv =>
      have hdefined : Grammar.defined.Expression (o.push head.kept.parameters) value.kept := hv.defined_kept hn ho
      exact hdefined.complaints_eq_nil
  | detached _ hb => exact hbody hb hn ho

end Grammar

/-! ## What a program declares

The declarations of a program are its variables and the heads in its body. A document puts the heads in another
order, but those of one kind stay in theirs, and so does what they declare. -/

namespace Node

/-- The head of a declared instruction. -/
def instructionHead? : Node → Option DeclarationHead
  | instructionDeclaration head _ => some head
  | _ => none

/-- The head of a declared expression. -/
def expressionHead? : Node → Option DeclarationHead
  | expressionDeclaration head _ => some head
  | _ => none

/-- A document keeps the declared instructions of a program in their order. -/
theorem filterMap_instructionHead?_inOrder (body : List Node) :
    (inOrder (body.map kept)).filterMap instructionHead? =
      (body.filterMap instructionHead?).map DeclarationHead.kept := by
  have hblock : ∀ n : Node, (if n.kept.hasBlock = true then n.kept.instructionHead? else none) =
      n.instructionHead?.map DeclarationHead.kept := by
    intro n
    cases n <;> simp [kept, hasBlock, instructionHead?]
  have hother : ∀ n : Node, (if n.kept.isExpressionDeclaration = true then n.kept.instructionHead? else none) = none := by
    intro n
    cases n <;> simp [kept, isExpressionDeclaration, instructionHead?]
  rw [inOrder, List.filterMap_append, List.filterMap_filter, List.filterMap_filter, List.filterMap_map,
    List.filterMap_map, List.map_filterMap]
  simp only [Function.comp_def, hblock, hother, List.filterMap_none, List.append_nil]

/-- A document keeps the declared expressions of a program in their order. -/
theorem filterMap_expressionHead?_inOrder (body : List Node) :
    (inOrder (body.map kept)).filterMap expressionHead? =
      (body.filterMap expressionHead?).map DeclarationHead.kept := by
  have hblock : ∀ n : Node, (if n.kept.hasBlock = true then n.kept.expressionHead? else none) = none := by
    intro n
    cases n <;> simp [kept, hasBlock, expressionHead?]
  have hother : ∀ n : Node, (if n.kept.isExpressionDeclaration = true then n.kept.expressionHead? else none) =
      n.expressionHead?.map DeclarationHead.kept := by
    intro n
    cases n <;> simp [kept, isExpressionDeclaration, expressionHead?]
  rw [inOrder, List.filterMap_append, List.filterMap_filter, List.filterMap_filter, List.filterMap_map,
    List.filterMap_map, List.map_filterMap]
  simp only [Function.comp_def, hblock, hother, List.filterMap_none, List.nil_append]

end Node

namespace Globals

open Node (instructionHead? expressionHead? inOrder)

/-- A program declares the instructions with the heads in its body. -/
theorem instructions_ofProgram (vars : List VariableDeclaration) (body : List Node) : (ofProgram vars body).instructions =
    .ofList ((body.filterMap instructionHead?).map fun h => (h.name, ofInstruction h)) := by
  have hfold : ∀ (body : List Node) (g : Globals), (body.foldl add g).instructions =
      ((body.filterMap instructionHead?).map fun h => (h.name, ofInstruction h)).foldl
        (fun m e => m.insert e.1 e.2) g.instructions := by
    intro body
    induction body with
    | nil => intro g; rfl
    | cons n ns ih =>
        intro g
        rw [List.foldl_cons, ih]
        cases n <;> rfl
  exact hfold body _

/-- A program declares the expressions with the heads in its body. -/
theorem expressions_ofProgram (vars : List VariableDeclaration) (body : List Node) : (ofProgram vars body).expressions =
    .ofList ((body.filterMap expressionHead?).map fun h => (h.name, ofExpression h)) := by
  have hfold : ∀ (body : List Node) (g : Globals), (body.foldl add g).expressions =
      ((body.filterMap expressionHead?).map fun h => (h.name, ofExpression h)).foldl
        (fun m e => m.insert e.1 e.2) g.expressions := by
    intro body
    induction body with
    | nil => intro g; rfl
    | cons n ns ih =>
        intro g
        rw [List.foldl_cons, ih]
        cases n <;> rfl
  exact hfold body _

variable (vars : List VariableDeclaration) (body : List Node)

/-- What is declared in a program and in what its document keeps of it. -/
theorem vars_ofProgram_kept :
    (ofProgram (vars.map VariableDeclaration.clearMetadata) (inOrder (body.map Node.kept))).vars =
      (ofProgram vars body).vars := by
  rw [vars_ofProgram, vars_ofProgram, List.map_map]
  rfl

/-- The instructions that the kept program declares have the names of the program's own, and the definitions of
the kept heads. -/
theorem instructions_ofProgram_kept :
    (ofProgram (vars.map VariableDeclaration.clearMetadata) (inOrder (body.map Node.kept))).instructions =
      .ofList ((body.filterMap instructionHead?).map fun h => (h.name, ofInstruction h.kept)) := by
  rw [instructions_ofProgram, Node.filterMap_instructionHead?_inOrder, List.map_map]
  rfl

theorem expressions_ofProgram_kept :
    (ofProgram (vars.map VariableDeclaration.clearMetadata) (inOrder (body.map Node.kept))).expressions =
      .ofList ((body.filterMap expressionHead?).map fun h => (h.name, ofExpression h.kept)) := by
  rw [expressions_ofProgram, Node.filterMap_expressionHead?_inOrder, List.map_map]
  rfl

/-- A document keeps the names that a program declares. -/
theorem sameNames_kept : SameNames (ofProgram vars body)
    (ofProgram (vars.map VariableDeclaration.clearMetadata) (inOrder (body.map Node.kept))) where
  vars name := by rw [vars_ofProgram_kept]
  instructions name := by
    rw [instructions_ofProgram_kept, instructions_ofProgram, Bool.eq_iff_iff, NameMap.contains_ofList,
      NameMap.contains_ofList, List.map_map, List.map_map]
    rfl
  expressions name := by
    rw [expressions_ofProgram_kept, expressions_ofProgram, Bool.eq_iff_iff, NameMap.contains_ofList,
      NameMap.contains_ofList, List.map_map, List.map_map]
    rfl

end Globals

/-- Texts that are the same after they have been read keep the number of parameters. -/
theorem DeclarationHead.length_kept {h : DeclarationHead} (hformat : h.kept.format = h.format) :
    h.kept.parameters.length = h.parameters.length :=
  CallFormat.length_eq_of_ofTemplate_eq hformat

/-- **The texts of a declaration stay the same** if its names can be told in them and its template comes back. -/
theorem DeclarationHead.format_kept {h : DeclarationHead}
    (hmarked : CallFormat.Marked (CallFormat.gaps h.name h.parameters.length h.callFormat) h.parameters)
    (hstable : CallFormat.Counts h.parameters.length h.callFormat →
      CallFormat.Stable (h.callFormat.getD "").toList) : h.kept.format = h.format := by
  have hparameters : h.kept.parameters = h.parameters := (CallFormat.parameters_named_iff _ _ _).mpr hmarked
  have htemplate := (CallFormat.ofTemplate_template?_iff h.name _ _).mpr hstable
  rw [format, hparameters]
  exact htemplate

/-- The texts of a declared name are others after they have been read. -/
def Node.losesFormat : Node → Bool
  | instructionDeclaration head _ => head.kept.format != head.format
  | expressionDeclaration head _ => head.kept.format != head.format
  | _ => false

/-- The texts of all declared names stay the same. -/
def Node.KeepsFormats (n : Node) : Prop := n.Everywhere fun m => m.losesFormat = false

/-- A declared name whose texts are not lost has the same texts in what is kept. -/
theorem Node.format_kept {n : Node} (h : n.losesFormat = false) {head : DeclarationHead}
    (hhead : n.instructionHead? = some head ∨ n.expressionHead? = some head) : head.kept.format = head.format := by
  cases n with
  | instructionDeclaration =>
      obtain rfl : _ = head := by simpa [instructionHead?, expressionHead?] using hhead
      simpa [losesFormat] using h
  | expressionDeclaration =>
      obtain rfl : _ = head := by simpa [instructionHead?, expressionHead?] using hhead
      simpa [losesFormat] using h
  | _ => simp [instructionHead?, expressionHead?] at hhead

/-- Where the texts of declared names stay the same, a document keeps what they are declared as. -/
theorem Globals.ofProgram_kept (vars : List VariableDeclaration) {body : List Node} (h : ∀ n ∈ body, n.losesFormat = false) :
    ofProgram (vars.map VariableDeclaration.clearMetadata) (Node.inOrder (body.map Node.kept)) = ofProgram vars body := by
  have hext : ∀ {d e : Globals}, d.vars = e.vars → d.instructions = e.instructions → d.expressions = e.expressions →
      d = e := by
    rintro ⟨_, _, _⟩ ⟨_, _, _⟩ ⟨⟩ ⟨⟩ ⟨⟩
    rfl
  have hinstruction : ∀ head ∈ body.filterMap Node.instructionHead?, ofInstruction head.kept = ofInstruction head := by
    intro head hhead
    obtain ⟨n, hn, hhead⟩ := List.mem_filterMap.mp hhead
    rw [ofInstruction, DeclarationHead.length_kept (Node.format_kept (h n hn) (.inl hhead))]
    rfl
  have hexpression : ∀ head ∈ body.filterMap Node.expressionHead?, ofExpression head.kept = ofExpression head := by
    intro head hhead
    obtain ⟨n, hn, hhead⟩ := List.mem_filterMap.mp hhead
    rw [ofExpression, DeclarationHead.length_kept (Node.format_kept (h n hn) (.inr hhead))]
    rfl
  refine hext (vars_ofProgram_kept vars body) ?_ ?_
  · rw [instructions_ofProgram_kept, instructions_ofProgram]
    exact congrArg _ (List.map_congr_left fun head hhead => by rw [hinstruction head hhead])
  · rw [expressions_ofProgram_kept, expressions_ofProgram]
    exact congrArg _ (List.map_congr_left fun head hhead => by rw [hexpression head hhead])

/-! ## Programs

All of it put together: the items are kept one by one, in the scope of the program that is kept. -/

namespace Grammar

variable {name : String} {vars : List VariableDeclaration} {body : List Node} {loc : Option Span}

theorem mem_inOrder_kept {m : Node} (h : m ∈ Node.inOrder (body.map Node.kept)) : ∃ n ∈ body, n.kept = m := by
  rcases List.mem_append.mp h with h | h
  · exact List.mem_map.mp (List.mem_of_mem_filter h)
  · exact List.mem_map.mp (List.mem_of_mem_filter h)

/-- Only items of a program have texts to lose. -/
theorem Item.keepsFormats_iff {g : Grammar} {s : Scope} {n : Node} (h : g.Item s n) :
    n.KeepsFormats ↔ n.losesFormat = false := by
  have hexpression : ∀ {s : Scope} {n : Node}, g.Expression s n → n.losesFormat = false := by
    intro s n h
    cases h <;> rfl
  have hstatement : ∀ {s : Scope} {ns : List Node}, (∀ n ∈ ns, g.Statement s n) →
      ∀ n ∈ ns, n.Everywhere fun m => m.losesFormat = false := by
    intro s ns h n hn
    refine (h n hn).everywhere (fun _ _ => hexpression) fun _ _ h => ?_
    cases h <;> rfl
  cases h with
  | event _ hb => exact Node.everywhere_event.trans (and_iff_left (hstatement hb))
  | instructionDeclaration _ hb => exact Node.everywhere_instructionDeclaration.trans (and_iff_left (hstatement hb))
  | expressionDeclaration _ hv =>
      exact Node.everywhere_expressionDeclaration.trans (and_iff_left (hv.everywhere fun _ => hexpression))
  | detached _ hb => exact Node.everywhere_detached.trans (and_iff_left (hstatement hb))

theorem Program.keepsFormats_iff {g : Grammar} {s : Scope} (hb : ∀ n ∈ body, g.Item s n) :
    (Node.program name vars body loc).KeepsFormats ↔ ∀ n ∈ body, n.losesFormat = false :=
  Node.everywhere_program.trans ((and_iff_right rfl).trans (forall₂_congr fun n hn => (hb n hn).keepsFormats_iff))

/-- **What a document keeps of a settled program is a settled program.** The items are put in the order of the
document, but the same names are declared in them, so every name that is used keeps its kind. -/
theorem Program.settled_kept {n : Node} (h : Grammar.settled.Program n) : Grammar.settled.Program n.kept := by
  cases h with
  | program hb =>
      rw [Node.kept, Node.keptAll_eq_map]
      refine .program fun m hm => ?_
      obtain ⟨n, hn, rfl⟩ := mem_inOrder_kept hm
      exact (hb n hn).settled_kept (Globals.sameNames_kept _ _)

/-- It draws no complaints if the program draws none, as long as the texts of declared names stay the same. -/
theorem Program.problems_kept (hb : ∀ n ∈ body, Grammar.settled.Item (scopeOf vars body) n)
    (hn : (Node.program name vars body loc).problems = []) (hformat : ∀ n ∈ body, n.losesFormat = false) :
    (Node.program name vars body loc).kept.problems = [] := by
  have hkept : Grammar.settled.Program (Node.program name vars body loc).kept := Program.settled_kept (.program hb)
  rw [Node.kept, Node.keptAll_eq_map] at hkept ⊢
  cases hkept with
  | program hitems =>
      rw [Program.problems_eq hitems, List.flatMap_eq_nil_iff]
      rw [Program.problems_eq hb, List.flatMap_eq_nil_iff] at hn
      intro m hm
      obtain ⟨n, hmem, rfl⟩ := mem_inOrder_kept hm
      exact (hb n hmem).complaints_kept (hn n hmem) (Globals.ofProgram_kept vars hformat).symm

end Grammar

end FlightScript
