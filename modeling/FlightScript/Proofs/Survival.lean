import FlightScript.Proofs.Documents

/-!
# `Proofs.Survival` — from a text to a document and back

A document made from a text can become a text again, and that text has a document of its own. The two documents are the
same exactly if nothing is lost on the way: nothing in the program is misprinted, no local name has arguments, and the
texts of declared names can be read back.

## Contents

* `Node.Survives`: nothing is lost;
* `Node.everywhere_clearMetadata`: what does not depend on metadata;
* `Grammar.Item.readBack_kept`: items that a text and a document agree on;
* `document_survives_text_iff`: the way of a document through a text.
-/

namespace FlightScript

namespace Node

instance (n : Node) : Decidable n.NoLocalCalls := inferInstanceAs (Decidable (n.Everywhere _))

instance (n : Node) : Decidable n.KeepsFormats := inferInstanceAs (Decidable (n.Everywhere _))

/-- Nothing of a program is lost on the way from its document through a text. -/
structure Survives (n : Node) : Prop where
  printable : n.Printable
  noLocalCalls : n.NoLocalCalls
  keepsFormats : n.KeepsFormats

instance (n : Node) : Decidable n.Survives :=
  decidable_of_iff (n.Printable ∧ n.NoLocalCalls ∧ n.KeepsFormats)
    ⟨fun h => ⟨h.1, h.2.1, h.2.2⟩, fun h => ⟨h.printable, h.noLocalCalls, h.keepsFormats⟩⟩

/-! ## What does not depend on metadata

A tree that comes back differs from the one before in metadata, so what is asked of its nodes must not depend on
it. -/

theorem walk_clearMetadata (n : Node) : n.clearMetadata.walk = n.walk.map clearMetadata := by
  refine walk_map (fun n => ?_) n
  cases n <;> simp [clearMetadata, children]

theorem everywhere_clearMetadata {P : Node → Prop} (hP : ∀ n : Node, P n.clearMetadata ↔ P n) (n : Node) :
    n.clearMetadata.Everywhere P ↔ n.Everywhere P := by
  rw [Everywhere, walk_clearMetadata, List.forall_mem_map]
  exact forall₂_congr fun m _ => hP m

/-- Whether a node is misprinted is told by its constants and by what it assigns to, neither of which is
metadata. -/
theorem misprints_clearMetadata (n : Node) : n.clearMetadata.misprints = n.misprints := by
  have hconstant : ∀ (value : String) (n : Node), n.clearMetadata.isOtherConstant value = n.isOtherConstant value := by
    intro value n
    cases n <;> rfl
  cases n with
  | wait kind condition loc =>
      cases kind with
      | seconds => exact hconstant "0" condition
      | condition => rfl
  | forLoop head first last step body => exact hconstant "1" step
  | assignment operator target value loc =>
      cases target with
      | identifier use arguments => cases arguments <;> rfl
      | _ => rfl
  | _ => rfl

theorem printable_clearMetadata (n : Node) : n.clearMetadata.Printable ↔ n.Printable :=
  everywhere_clearMetadata (fun m => by rw [misprints_clearMetadata]) n

end Node

/-! ## Items

An item survives if its statements do and its head is kept. -/

namespace Grammar

variable {g : Grammar} {s : Scope} {n : Node} {ns : List Node}

/-- Without arguments of local names, what is kept of statements is misprinted where they are. -/
theorem Statement.printable_kept (h : ∀ n ∈ ns, g.Statement s n) (hcalls : ∀ n ∈ ns, n.NoLocalCalls) :
    (∀ m ∈ ns.map Node.kept, m.Printable) ↔ ∀ n ∈ ns, n.Printable := by
  rw [List.forall_mem_map]
  refine forall₂_congr fun n hn => ?_
  rw [(h n hn).kept_eq_clearMetadata (hcalls n hn), Node.printable_clearMetadata]

/-- Without arguments of local names, what is kept of an item is misprinted where the item is. -/
theorem Item.printable_kept (h : g.Item s n) (hcalls : n.NoLocalCalls) : n.kept.Printable ↔ n.Printable := by
  cases h with
  | event _ hb =>
      rw [Node.kept, Node.keptAll_eq_map, Node.Printable, Node.Printable, Node.everywhere_event, Node.everywhere_event]
      exact and_congr Iff.rfl (Statement.printable_kept hb (Node.everywhere_event.mp hcalls).2)
  | instructionDeclaration _ hb =>
      rw [Node.kept, Node.keptAll_eq_map, Node.Printable, Node.Printable, Node.everywhere_instructionDeclaration,
        Node.everywhere_instructionDeclaration]
      exact and_congr Iff.rfl (Statement.printable_kept hb (Node.everywhere_instructionDeclaration.mp hcalls).2)
  | expressionDeclaration _ hv =>
      have hcalls := (Node.everywhere_expressionDeclaration.mp hcalls).2
      rw [Node.kept, hv.kept_eq_clearMetadata hcalls, Node.Printable, Node.Printable,
        Node.everywhere_expressionDeclaration, Node.everywhere_expressionDeclaration]
      exact and_congr Iff.rfl (Node.printable_clearMetadata _)
  | detached _ hb =>
      rw [Node.kept, Node.keptAll_eq_map, Node.Printable, Node.Printable, Node.everywhere_detached,
        Node.everywhere_detached]
      exact and_congr Iff.rfl (Statement.printable_kept hb (Node.everywhere_detached.mp hcalls).2)

/-- Statements that a document and a text leave as they are. -/
theorem Statement.readBack_kept (h : ∀ n ∈ ns, g.Statement s n)
    (heq : ((ns.map Node.kept).map Node.readBack).map Node.kept = ns.map Node.kept) :
    (ns.map Node.kept).map Node.readBack = ns.map Node.kept := by
  have hkept : ((ns.map Node.kept).map Node.readBack).map Node.kept = (ns.map Node.kept).map Node.readBack := by
    rw [List.map_map, List.map_map, List.map_map]
    exact List.map_congr_left fun n hn => (h n hn).kept_readBack
  exact hkept.symm.trans heq

/-- An item that a document and a text leave as it is is not misprinted. -/
theorem Item.readBack_kept (h : g.Item s n) (heq : n.kept.readBack.kept = n.kept) :
    n.kept.readBack.clearMetadata = n.kept.clearMetadata.fillFilter := by
  cases h with
  | event _ hb =>
      simp only [Node.kept, Node.keptAll_eq_map, Node.readBack, Node.readBackAll_eq_map, Node.event.injEq] at heq ⊢
      rw [Statement.readBack_kept hb heq.2]
      rfl
  | instructionDeclaration _ hb =>
      simp only [Node.kept, Node.keptAll_eq_map, Node.readBack, Node.readBackAll_eq_map,
        Node.instructionDeclaration.injEq] at heq ⊢
      rw [Statement.readBack_kept hb heq.2]
      rfl
  | expressionDeclaration _ _ => rfl
  | detached _ hb =>
      simp only [Node.kept, Node.keptAll_eq_map, Node.readBack, Node.readBackAll_eq_map, Node.detached.injEq] at heq ⊢
      rw [Statement.readBack_kept hb heq.2.1]
      rfl

end Grammar

/-! ## Programs

The items of a program move, but each of them is looked at in the same scope. -/

namespace Node

theorem hasBlock_readBack (n : Node) : n.readBack.hasBlock = n.hasBlock := by
  cases n with
  | detached => simp [readBack, hasBlock]
  | wait kind => cases kind <;> rfl
  | _ => rfl

theorem isExpressionDeclaration_readBack (n : Node) :
    n.readBack.isExpressionDeclaration = n.isExpressionDeclaration := by
  cases n with
  | wait kind => cases kind <;> rfl
  | _ => rfl

/-- Items in the order of a document stay in that order. -/
theorem inOrder_map_inOrder {φ : Node → Node} (hblock : ∀ n, (φ n).hasBlock = n.hasBlock)
    (hexpression : ∀ n, (φ n).isExpressionDeclaration = n.isExpressionDeclaration) (ns : List Node) :
    inOrder ((inOrder ns).map φ) = (inOrder ns).map φ := by
  have hapart : ∀ n : Node, ¬ (n.hasBlock = true ∧ n.isExpressionDeclaration = true) := by
    intro n
    cases n <;> simp [hasBlock, isExpressionDeclaration]
  have hblocks : (inOrder ns).filter hasBlock = ns.filter hasBlock := by
    have hnone : (ns.filter isExpressionDeclaration).filter hasBlock = [] := by
      simpa [List.filter_filter] using fun n _ hb he => hapart n ⟨hb, he⟩
    rw [inOrder, List.filter_append, hnone, List.filter_filter, List.append_nil]
    simp
  have hexpressions : (inOrder ns).filter isExpressionDeclaration = ns.filter isExpressionDeclaration := by
    have hnone : (ns.filter hasBlock).filter isExpressionDeclaration = [] := by
      simpa [List.filter_filter] using fun n _ he hb => hapart n ⟨hb, he⟩
    rw [inOrder, List.filter_append, hnone, List.filter_filter, List.nil_append]
    simp
  calc inOrder ((inOrder ns).map φ)
      = ((inOrder ns).filter hasBlock).map φ ++ ((inOrder ns).filter isExpressionDeclaration).map φ := by
        rw [inOrder, List.filter_map, List.filter_map, show hasBlock ∘ φ = hasBlock from funext hblock,
          show isExpressionDeclaration ∘ φ = isExpressionDeclaration from funext hexpression]
    _ = (inOrder ns).map φ := by rw [hblocks, hexpressions, ← List.map_append, ← inOrder]

/-- The texts of declared names in the tree of a text are those in the tree that the text is written from. -/
theorem map_format_of_reread {head? : Node → Option DeclarationHead} {ns ms : List Node}
    (hclear : ∀ n : Node, (head? n.clearMetadata).map DeclarationHead.format = (head? n).map DeclarationHead.format)
    (hread : ∀ n : Node, head? n.readBack = head? n)
    (h : ms.map clearMetadata = (ns.map readBack).map clearMetadata) :
    (ms.filterMap head?).map DeclarationHead.format = (ns.filterMap head?).map DeclarationHead.format := by
  have hcleared : ∀ ns : List Node, ((ns.map clearMetadata).filterMap head?).map DeclarationHead.format =
      (ns.filterMap head?).map DeclarationHead.format := by
    intro ns
    rw [List.filterMap_map, List.map_filterMap, List.map_filterMap]
    exact List.filterMap_congr fun n _ => hclear n
  rw [← hcleared, h, hcleared, List.filterMap_map, show head? ∘ readBack = head? from funext hread]

theorem instructionHead?_readBack (n : Node) : n.readBack.instructionHead? = n.instructionHead? := by
  cases n with
  | wait kind => cases kind <;> rfl
  | _ => rfl

theorem expressionHead?_readBack (n : Node) : n.readBack.expressionHead? = n.expressionHead? := by
  cases n with
  | wait kind => cases kind <;> rfl
  | _ => rfl

end Node

namespace Grammar

variable {name : String} {vars : List VariableDeclaration} {body : List Node} {loc : Option Span}

/-- **The texts of declared names stay the same** if the document of a program and the document of the text that it
becomes show the same texts. -/
theorem Program.losesFormat_of_reads {g : Element} {name' : String} {vars' : List VariableDeclaration}
    {body' : List Node} {loc' : Option Span}
    (hreread : (Node.program name' vars' body' loc').clearMetadata =
      (Node.program name vars body loc).kept.readBack.clearMetadata)
    (hn : Import.ReadsProgram (.program name vars body loc) g)
    (hm : Import.ReadsProgram (.program name' vars' body' loc') g) : ∀ n ∈ body, n.losesFormat = false := by
  simp only [Node.kept, Node.keptAll_eq_map, Node.readBack, Node.readBackAll_eq_map, Node.clearMetadata,
    Node.clearMetadataAll_eq_map, Node.program.injEq] at hreread
  have hinstructions : (body.filterMap Node.instructionHead?).map DeclarationHead.format =
      (body.filterMap Node.instructionHead?).map fun h => h.kept.format := by
    calc (body.filterMap Node.instructionHead?).map DeclarationHead.format
        = (body'.filterMap Node.instructionHead?).map DeclarationHead.format := hn.instructions.symm.trans hm.instructions
      _ = ((Node.inOrder (body.map Node.kept)).filterMap Node.instructionHead?).map DeclarationHead.format :=
          Node.map_format_of_reread (fun n => by cases n <;> rfl) Node.instructionHead?_readBack hreread.2.2.1
      _ = _ := by
          rw [Node.filterMap_instructionHead?_inOrder, List.map_map]
          rfl
  have hexpressions : (body.filterMap Node.expressionHead?).map DeclarationHead.format =
      (body.filterMap Node.expressionHead?).map fun h => h.kept.format := by
    -- a declared expression shows its format with the mark of a result, which can be taken off again
    have hreturning : Function.Injective CallFormat.returning := by
      rintro ⟨a, b⟩ ⟨c, d⟩ heq
      simpa [CallFormat.returning] using heq
    have hshown := hn.expressions.symm.trans hm.expressions
    rw [← Function.comp_def, ← List.map_map, ← List.map_map] at hshown
    calc (body.filterMap Node.expressionHead?).map DeclarationHead.format
        = (body'.filterMap Node.expressionHead?).map DeclarationHead.format :=
          List.map_injective_iff.mpr hreturning hshown
      _ = ((Node.inOrder (body.map Node.kept)).filterMap Node.expressionHead?).map DeclarationHead.format :=
          Node.map_format_of_reread (fun n => by cases n <;> rfl) Node.expressionHead?_readBack hreread.2.2.1
      _ = _ := by
          rw [Node.filterMap_expressionHead?_inOrder, List.map_map]
          rfl
  rw [List.map_inj_left] at hinstructions hexpressions
  intro n hn
  cases n with
  | instructionDeclaration head b =>
      have hformat := hinstructions head (List.mem_filterMap.mpr ⟨_, hn, rfl⟩)
      simp [Node.losesFormat, hformat]
  | expressionDeclaration head value =>
      have hformat := hexpressions head (List.mem_filterMap.mpr ⟨_, hn, rfl⟩)
      simp [Node.losesFormat, hformat]
  | _ => rfl

/-- What a document keeps of a program, and a text leaves as it is, is not misprinted. -/
theorem Program.printable_of_readBack (hb : ∀ n ∈ body, Grammar.settled.Item (scopeOf vars body) n)
    (hread : (Node.program name vars body loc).kept.Readable)
    (heq : (Node.program name vars body loc).kept.readBack.kept = (Node.program name vars body loc).kept) :
    (Node.program name vars body loc).kept.Printable := by
  have hkept : Grammar.settled.Program (Node.program name vars body loc).kept := Program.settled_kept (.program hb)
  simp only [Node.kept, Node.keptAll_eq_map, Node.readBack, Node.readBackAll_eq_map, Node.program.injEq] at heq hread hkept ⊢
  -- the items are in order, so each of them is left as it is
  have hitems : ∀ m ∈ Node.inOrder (body.map Node.kept), m.readBack.kept = m := by
    have hmap := heq.2.2.1
    rw [List.map_map, @Node.inOrder_map_inOrder (Node.kept ∘ Node.readBack)
      (fun n => (Node.hasBlock_kept _).trans (Node.hasBlock_readBack n))
      fun n => (Node.isExpressionDeclaration_kept _).trans (Node.isExpressionDeclaration_readBack n)] at hmap
    exact List.map_inj_left.mp (hmap.trans (List.map_id _).symm)
  cases hkept with
  | program hsettled =>
      refine Node.everywhere_program.mpr ⟨rfl, fun m hm => ?_⟩
      refine (hsettled m hm).printable_iff.mpr ⟨(Node.everywhere_program.mp hread).2 m hm, ?_⟩
      obtain ⟨n, hn, rfl⟩ := mem_inOrder_kept hm
      exact (hb n hn).readBack_kept (hitems _ hm)

/-- Without arguments of local names, what is kept of a program is misprinted where the program is. -/
theorem Program.printable_kept {g : Grammar} {s : Scope} (hb : ∀ n ∈ body, g.Item s n)
    (hcalls : (Node.program name vars body loc).NoLocalCalls) :
    (Node.program name vars body loc).kept.Printable ↔ (Node.program name vars body loc).Printable := by
  have hitems := (Node.everywhere_program.mp hcalls).2
  rw [Node.kept, Node.keptAll_eq_map, Node.Printable, Node.Printable, Node.everywhere_program, Node.everywhere_program]
  refine and_congr Iff.rfl ⟨fun h n hn => ?_, fun h m hm => ?_⟩
  · -- only statements of their own can be missing, and only if there are none
    by_cases hmem : n.kept ∈ Node.inOrder (body.map Node.kept)
    · exact ((hb n hn).printable_kept (hitems n hn)).mp (h _ hmem)
    · have hnone : n.hasBlock = false ∧ n.isExpressionDeclaration = false := by
        rw [Node.inOrder, List.mem_append, List.mem_filter, List.mem_filter, Node.hasBlock_kept,
          Node.isExpressionDeclaration_kept] at hmem
        simpa [List.mem_map_of_mem hn] using hmem
      cases hb n hn with
      | event => cases hnone.1
      | instructionDeclaration => cases hnone.1
      | expressionDeclaration => cases hnone.2
      | @detached pos body loc =>
          obtain rfl : body = [] := by simpa [Node.hasBlock] using hnone.1
          exact Node.everywhere_detached.mpr ⟨rfl, by simp⟩
  · obtain ⟨n, hn, rfl⟩ := mem_inOrder_kept hm
    exact ((hb n hn).printable_kept (hitems n hn)).mpr (h n hn)

end Grammar

/-! ## Documents and texts

Both directions: what is not lost comes back, and what comes back was not lost. For the second one sizes are
compared, since the elements that come back can only be fewer. -/

section Survival

variable {n : Node} {source document text : String}

/-- A document keeps what a program declares, if it keeps its texts. -/
theorem Grammar.Program.ofNode_kept (hn : Grammar.settled.Program n) (h : n.KeepsFormats) :
    Globals.ofNode n.kept = Globals.ofNode n := by
  cases hn with
  | program hb =>
      rw [Node.kept, Node.keptAll_eq_map]
      exact Globals.ofProgram_kept _ ((Program.keepsFormats_iff hb).mp h)

/-- **What survives comes back**: the text is valid and has the document that it was made from. The document stands
for what it keeps of the program; that is read back from its text, and has the same element as the program since
nothing of it was left out. -/
theorem Node.Survives.comes_back (h : n.Survives) (hn : Grammar.settled.Program n) (hproblems : n.problems = [])
    (hdocument : n.documentText = .ok document) (htext : textOfDocument document = .ok text) :
    Valid text ∧ (documentOfText text).result = .ok document := by
  obtain ⟨g, hg, hkept⟩ := exists_of_textOfDocument htext
  obtain ⟨e, f, he, hf, _, _, hsame, hreads⟩ := hn.exists_of_document hproblems hdocument hg
  obtain rfl := hsame h.noLocalCalls h.keepsFormats
  have hsettled := hn.settled_kept
  have hquiet : n.kept.problems = [] ∧ n.kept.Printable := by
    cases hn with
    | program hb =>
        exact ⟨Grammar.Program.problems_kept hb hproblems ((Grammar.Program.keepsFormats_iff hb).mp h.keepsFormats),
          (Grammar.Program.printable_kept hb h.noLocalCalls).mpr h.printable⟩
  obtain ⟨hvalid, htree⟩ := (hsettled.printable_iff_text hquiet.1).mp hquiet.2
  rw [hkept n hreads]
  refine ⟨hvalid, eq_ok_of_toOption ?_⟩
  calc (documentOfText n.kept.text).result.toOption
      = n.kept.documentText.toOption := hsettled.documentText_congr hvalid.settled htree
    _ = n.documentText.toOption := by
        rw [hsettled.documentText_eq, hn.documentText_eq, hn.ofNode_kept h.keepsFormats, he, hf]
    _ = some document := by rw [hdocument]; rfl

/-- **What comes back has survived.** Both documents are read as what they keep, so the two keep the same, which is
only so if nothing is misprinted and the texts of declared names stay. Then the second document is that of what the
first one keeps; it is as large as the first one only if no arguments of local names were left out. -/
theorem Node.survives_of_comes_back (hn : Grammar.settled.Program n) (hproblems : n.problems = [])
    (hdocument : n.documentText = .ok document) (htext : textOfDocument document = .ok text) (hvalid : Valid text)
    (hback : (documentOfText text).result = .ok document) : n.Survives := by
  obtain ⟨g, hg, hkept⟩ := exists_of_textOfDocument htext
  obtain ⟨e, f, he, hf, hsize, hcalls, _, hreads⟩ := hn.exists_of_document hproblems hdocument hg
  obtain ⟨e', _, he', _, hsize', _, _, hreads'⟩ :=
    hvalid.settled.exists_of_document hvalid.problems_resolved hback hg
  have hsettled := hn.settled_kept
  obtain rfl := hkept n hreads
  -- the tree of the text is what the text is read back as, and its document keeps what the first one keeps
  have hread : n.kept.Readable := by
    by_contra hnot
    exact hsettled.reread.2 hnot ((valid_iff _).mp hvalid).1
  have htree : (resolvedTreeOfText n.kept.text).result.clearMetadata = n.kept.readBack.clearMetadata :=
    (hsettled.reread.1 hread).2.2
  have hagain : n.kept.readBack.kept = n.kept := by
    rw [← Node.kept_clearMetadata, ← htree, Node.kept_clearMetadata]
    exact Except.ok.inj (hreads'.tree.symm.trans hreads.tree)
  have hkept : n.KeepsFormats ∧ n.kept.Printable := by
    cases hn with
    | program hb =>
        refine ⟨(Grammar.Program.keepsFormats_iff hb).mpr ?_, Grammar.Program.printable_of_readBack hb hread hagain⟩
        have hprogram := hvalid.settled
        generalize (resolvedTreeOfText _).result = m at htree hreads' hprogram
        cases hprogram with
        | program => exact Grammar.Program.losesFormat_of_reads htree hreads hreads'
  -- so the second document is made from what the first one keeps, and as large as the first one
  have hfilled : (resolvedTreeOfText n.kept.text).result.clearMetadata.fillFilters = n.kept.clearMetadata.fillFilters := by
    rw [htree]
    exact (hsettled.printable_iff.mp hkept.2).2
  have hglobals : Globals.ofNode (resolvedTreeOfText n.kept.text).result = Globals.ofNode n := by
    rw [← hvalid.settled.ofNode_clearMetadata, hfilled, hsettled.ofNode_clearMetadata, hn.ofNode_kept hkept.1]
  have helement : e' = f := by
    have hroot := hsettled.root_congr hvalid.settled hfilled { globals := .ofNode n }
    rw [hglobals] at he'
    rw [he', hf] at hroot
    exact Option.some.inj hroot
  have hnone : n.NoLocalCalls := hcalls (by rw [← hsize, hsize', helement])
  refine ⟨?_, hnone, hkept.1⟩
  cases hn with
  | program hb => exact (Grammar.Program.printable_kept hb hnone).mp hkept.2

/-- A valid text has a document, and the document becomes a text if it has no characters that documents may not hold. -/
theorem Valid.exists_text (h : Valid source)
    (hallowed : ∀ d ∈ (resolvedTreeOfText source).result.document.toOption, ∀ q ∈ Markup.tags d, q.Allowed) :
    ∃ document text, (documentOfText source).result = .ok document ∧ textOfDocument document = .ok text := by
  obtain ⟨document, hdocument⟩ := h.exists_document
  obtain ⟨d, hd, rfl⟩ := Node.exists_document hdocument
  exact ⟨_, _, hdocument, h.settled.textOfDocument_write h.problems_resolved hd (hallowed d (by rw [hd]; rfl))⟩

/-- **The way of a document through a text.** The text that the document of a valid text becomes is valid and has the
same document exactly if nothing of the program is lost. -/
theorem document_survives_text_iff (source document text : String) (hvalid : Valid source)
    (hdocument : (documentOfText source).result = .ok document) (htext : textOfDocument document = .ok text) :
    (Valid text ∧ (documentOfText text).result = .ok document) ↔ (resolvedTreeOfText source).result.Survives :=
  ⟨fun h => Node.survives_of_comes_back hvalid.settled hvalid.problems_resolved hdocument htext h.1 h.2,
    fun h => h.comes_back hvalid.settled hvalid.problems_resolved hdocument htext⟩

/-- A program whose expression moves behind its handler, with a position, a template, a handler that does not name the
parameter of its event and a default that is written out. -/
theorem document_survives_text_countdown :
    let source := "#program \"c\"\nvar n\n#pos \"1,2\"\ndef expression T(x): x * n\n#fmt \"_ down\"\n" ++
      "def Go(m) \x7b\nwait 0\n\x7d\non \"go\" \x7b\nGo(T(2))\n\x7d\n"
    ∃ document text, (Valid source ∧ (documentOfText source).result = .ok document ∧
      textOfDocument document = .ok text) ∧ Valid text ∧ (documentOfText text).result = .ok document := by
  intro source
  have hvalid : Valid source := by decide +kernel
  have hsurvives : (resolvedTreeOfText source).result.Survives := by decide +kernel
  obtain ⟨document, text, hdocument, htext⟩ := hvalid.exists_text (by decide +kernel)
  exact ⟨document, text, ⟨hvalid, hdocument, htext⟩,
    (document_survives_text_iff source document text hvalid hdocument htext).mpr hsurvives⟩

/-- Four ways to get lost: a constant that is left out, a template without anything between two places, a name with a
bar in it, and arguments of a local name. -/
theorem document_lost_in_text :
    let wait := "#program \"program\"\n\n\n\x7b\n  wait \"0\"\n\x7d\n"
    let template := "#program \"program\"\n\n\n#fmt \"__\"\ndef Go(a, b) \x7b\n\x7d\n"
    let bar := "#program \"program\"\n\n\ndef \"a|b\"(x) \x7b\n\x7d\n"
    let call := "#program \"program\"\n\n\n\x7b\n  Display local.ghost(1)\n\x7d\n"
    ∀ source ∈ [wait, template, bar, call], ∃ document text, (Valid source ∧
      (documentOfText source).result = .ok document ∧ textOfDocument document = .ok text) ∧
      ¬ (Valid text ∧ (documentOfText text).result = .ok document) := by
  intro wait template bar call
  have hlost : ∀ source ∈ [wait, template, bar, call], Valid source ∧
      (∀ d ∈ (resolvedTreeOfText source).result.document.toOption, ∀ q ∈ Markup.tags d, q.Allowed) ∧
      ¬ (resolvedTreeOfText source).result.Survives := by
    decide +kernel
  intro source hsource
  obtain ⟨hvalid, hallowed, hnot⟩ := hlost source hsource
  obtain ⟨document, text, hdocument, htext⟩ := hvalid.exists_text hallowed
  refine ⟨document, text, ⟨hvalid, hdocument, htext⟩, fun hback => hnot ?_⟩
  exact Node.survives_of_comes_back hvalid.settled hvalid.problems_resolved hdocument htext hback.1 hback.2

end Survival

end FlightScript
