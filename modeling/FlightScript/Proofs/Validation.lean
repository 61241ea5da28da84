import FlightScript.Proofs.Metadata

/-!
# `Proofs.Validation` — complaints and documents agree

Complaints about a tree and the making of its document go through the tree in the same order and look names up in
the same tables. So a tree of a text that was read without problems has a document unless there is a complaint about
an unknown name, and then the first of these names is the reason that is given.

## Contents

* `NoneUnknown`, `FirstUnknown`: which complaints are about unknown names;
* `Agrees` and its rule for sequences;
* `Grammar.Expression.agrees`, `Grammar.Statement.agrees`, `Grammar.Item.agrees`;
* `documentOfText_fails_iff_unknown`: the whole way from a text.
-/

namespace FlightScript

/-! ## Complaints about unknown names

Of the complaints about a tree only those about unknown names keep it from having a document. They are told from
the others by their messages. -/

/-- No problem says that a name is unknown. -/
def NoneUnknown (ps : List Problem) : Prop :=
  ∀ p ∈ ps, ∀ name, p.message ≠ (Complaint.unknownName name).message

/-- The first problem that says that a name is unknown is about this name. -/
def FirstUnknown (ps : List Problem) (name : String) : Prop :=
  ∃ before p after, ps = before ++ p :: after ∧ NoneUnknown before ∧
    p.message = (Complaint.unknownName name).message

/-- The reason is that a name has no definition, be it of an instruction or in an expression. -/
def Failure.Names (f : Failure) (name : String) : Prop :=
  (∃ span, f = .unresolvedInstruction name span) ∨ ∃ span, f = .unresolvedIdentifier name span

/-- A result is missing exactly if a name is unknown, and the first such name is the reason. -/
def Agrees {α : Type} (ps : List Problem) : Except Failure α → Prop
  | .ok _ => NoneUnknown ps
  | .error f => ∃ name, FirstUnknown ps name ∧ f.Names name

theorem noneUnknown_nil : NoneUnknown [] := by simp [NoneUnknown]

theorem noneUnknown_append {ps qs : List Problem} : NoneUnknown (ps ++ qs) ↔ NoneUnknown ps ∧ NoneUnknown qs := by
  simp only [NoneUnknown, List.mem_append, or_imp, forall_and]

namespace Agrees

variable {α β : Type} {ps qs : List Problem} {x : Except Failure α} {f : α → Except Failure β}

/-- Other complaints may come first. -/
theorem after (hps : NoneUnknown ps) (h : Agrees qs x) : Agrees (ps ++ qs) x := by
  cases x with
  | ok a => exact noneUnknown_append.mpr ⟨hps, h⟩
  | error e =>
      obtain ⟨name, ⟨before, p, after, rfl, hbefore, hp⟩, he⟩ := h
      exact ⟨name, ⟨ps ++ before, p, after, by simp, noneUnknown_append.mpr ⟨hps, hbefore⟩, hp⟩, he⟩

/-- **The rule for sequences.** If the first step fails, its first unknown name is the first of both; if it does
not, there is none among its complaints, and the second step decides. -/
theorem bind (h : Agrees ps x) (hf : ∀ a, Agrees qs (f a)) : Agrees (ps ++ qs) (x >>= f) := by
  cases x with
  | error e =>
      obtain ⟨name, ⟨before, p, after, rfl, hbefore, hp⟩, he⟩ := h
      exact ⟨name, ⟨before, p, after ++ qs, by simp, hbefore, hp⟩, he⟩
  | ok a => exact after h (hf a)

/-- Steps that neither fail nor are complained about. -/
theorem ok {a : α} : Agrees [] (.ok a : Except Failure α) := noneUnknown_nil

theorem bind_ok (h : Agrees ps x) (hf : ∀ a, Agrees [] (f a)) : Agrees ps (x >>= f) := by
  simpa using h.bind hf

/-- Whether a result is missing, and why, is all that counts. -/
theorem congr {y : Except Failure β} (h : Agrees ps x)
    (hxy : x.map (fun _ => ()) = y.map (fun _ => ())) : Agrees ps y := by
  cases x with
  | ok a =>
      cases y with
      | ok b => exact h
      | error e => cases hxy
  | error e =>
      cases y with
      | ok b => cases hxy
      | error e' => cases hxy; exact h

end Agrees

/-! ## Uses of names

A name is looked up by the same function when it is checked and when it is exported, so that one lookup decides
both. -/

/-- The complaint about a number of arguments is never taken for one about an unknown name, whatever the names
are: the two messages begin with different letters. -/
theorem Complaint.argumentCount_ne (name : String) (given : Nat) (arity : Arity) (other : String) :
    (argumentCount name given arity).message ≠ (unknownName other).message := by
  unfold message
  intro h
  simp only [← String.toList_inj, String.toList_append] at h
  have hhead := congrArg List.head? h
  simp at hhead

theorem Complaint.notCallable_ne (name other : String) :
    (notCallable name).message ≠ (unknownName other).message := by
  unfold message
  intro h
  simp only [← String.toList_inj, String.toList_append] at h
  have hhead := congrArg List.head? h
  simp at hhead

/-- One ends with a bracket, the other with a quote. -/
theorem Complaint.unknownParameter_ne (parameter event : String) (options : List String) (other : String) :
    (unknownParameter parameter event options).message ≠ (unknownName other).message := by
  unfold message
  intro h
  simp only [← String.toList_inj, String.toList_append] at h
  have hlast : "]".toList = "'".toList := (List.append_inj' h (by simp)).2
  exact absurd hlast (by simp)

/-- A use of a name with this definition, and what is made of it. -/
theorem agrees_ofUse {Kind α : Type} {u : Use Kind} {k : Nat} {d : Option Definition} {f : Failure}
    (hf : f.Names u.name) {make : Definition → Except Failure α} {qs : List Problem}
    (hmake : ∀ d, Agrees qs (make d)) :
    Agrees (Complaint.ofUse u k d ++ qs) (match d with | some d => make d | none => .error f) := by
  cases d with
  | none => exact ⟨u.name, ⟨[], _, qs, rfl, noneUnknown_nil, rfl⟩, hf⟩
  | some d =>
      have hnone : NoneUnknown (Complaint.ofUse u k (some d)) := by
        unfold Complaint.ofUse
        dsimp only
        split
        · exact noneUnknown_nil
        · intro p hp name
          rw [List.mem_singleton.mp hp]
          exact Complaint.argumentCount_ne _ _ _ _
      exact .after hnone (hmake d)

/-! ## Trees

The complaints come in the order of the tree, and so do the steps of the exporter. The rule for sequences takes
both apart at the same places. -/

theorem Scope.identifier?_congr {s e : Scope} (h : e.globals = s.globals) (name : String) (kind : IdentifierKind) :
    e.identifier? name kind = s.identifier? name kind := by
  cases kind <;> simp only [Scope.identifier?, h]

theorem Scope.instruction?_congr {s e : Scope} (h : e.globals = s.globals) (name : String) (kind : InstructionKind) :
    e.instruction? name kind = s.instruction? name kind := by
  cases kind <;> simp only [Scope.instruction?, h]

theorem Catalog.operator?_symbol (op : Operator) : operator? op.symbol = some op.definition := by
  cases op <;> rfl

namespace Grammar

variable {g : Grammar} {s e : Scope} {n : Node} {ns : List Node}

open Export (expression expressions statement statements rungs)

theorem agrees_expressions (h : ∀ n ∈ ns, Agrees (n.complaints s) (expression e (n.resolve s))) :
    Agrees (ns.flatMap (Node.complaints s)) (expressions e (ns.map (Node.resolve s))) := by
  induction ns with
  | nil => exact .ok
  | cons n ns ih =>
      refine Agrees.bind (h n List.mem_cons_self) fun e => ?_
      exact (ih fun m hm => h m (List.mem_cons_of_mem _ hm)).bind_ok fun es => .ok

/-- A name with arguments. If it has no definition then the exporter stops before its arguments, and the
complaint about the name comes before those about them. -/
theorem agrees_identifier {u : Use IdentifierKind} {args : List Node} (he : e.globals = s.globals)
    (ha : ∀ a ∈ args, Agrees (a.complaints s) (expression e (a.resolve s))) :
    Agrees (s.identifierComplaints u args.length ++ args.flatMap (Node.complaints s))
      (expression e (.identifier u (args.map (Node.resolve s)))) := by
  have hargs : ∀ d, Agrees (args.flatMap (Node.complaints s)) (do
      return Export.defined d false (← expressions e (args.map (Node.resolve s)))) :=
    fun d => (agrees_expressions ha).bind_ok fun es => .ok
  unfold expression
  rw [Scope.identifier?_congr he]
  by_cases hlocal : u.kind = .local_
  · -- a local name is not looked up, and has a definition
    have hnone : NoneUnknown (s.identifierComplaints u args.length) := by
      unfold Scope.identifierComplaints
      rw [if_pos hlocal]
      split
      · intro p hp name
        rw [List.mem_singleton.mp hp]
        exact Complaint.notCallable_ne _ _
      · exact noneUnknown_nil
    rw [hlocal, Scope.identifier?]
    exact .after hnone (hargs _)
  · rw [Scope.identifierComplaints, if_neg hlocal]
    exact agrees_ofUse (.inr ⟨_, rfl⟩) hargs

/-- Complaints about an expression and its element agree. -/
theorem Expression.agrees (h : g.Expression s n) (he : e.globals = s.globals) :
    Agrees (n.complaints s) (expression e (n.resolve s)) := by
  induction h with
  | identifier _ ha ih =>
      have hfree := Expression.programFree_all ha
      rw [Node.complaints, Node.complaintsAll_of_programFree hfree, Node.resolve,
        Node.resolveAll_of_programFree hfree]
      exact agrees_identifier he ih
  | constant _ => exact .ok
  | binary op hl _ ihl ihr =>
      rw [Node.complaints_binary _ _ hl.programFree, Node.resolve_binary _ _ hl.programFree, expression,
        Catalog.operator?_symbol]
      exact ihl.bind fun l => ihr.bind_ok fun r => .ok
  | negation _ ih => exact ih.bind_ok fun x => .ok
  | conditional hc ht _ ihc iht ihe =>
      rw [Node.complaints_conditional _ hc.programFree ht.programFree, List.append_assoc,
        Node.resolve_conditional _ hc.programFree ht.programFree]
      exact ihc.bind fun c => iht.bind fun t => ihe.bind_ok fun x => .ok

theorem agrees_statements (h : ∀ n ∈ ns, Agrees (n.complaints s) (statement e (n.resolve s))) :
    Agrees (ns.flatMap (Node.complaints s)) (statements e (ns.map (Node.resolve s))) := by
  induction ns with
  | nil => exact .ok
  | cons n ns ih =>
      refine Agrees.bind (h n List.mem_cons_self) fun es => ?_
      exact (ih fun m hm => h m (List.mem_cons_of_mem _ hm)).bind_ok fun rest => .ok

/-- A further condition fails as a first one does. -/
theorem map_rungs_single (h : n.isIfElse = true) :
    (statement e n).map (fun _ => ()) = (rungs e [n]).map (fun _ => ()) := by
  cases n with
  | ifElse condition consequent alternative loc =>
      simp only [statement, rungs]
      cases expression e condition with
      | error f => rfl
      | ok c =>
          cases statements e consequent with
          | error f => rfl
          | ok b => cases rungs e alternative <;> rfl
  | _ => cases h

/-- What stands behind `else` agrees, whether it is a single further condition or anything else. -/
theorem agrees_rungs (h : ∀ n ∈ ns, Agrees (n.complaints s) (statement e (n.resolve s))) :
    Agrees (ns.flatMap (Node.complaints s)) (rungs e (ns.map (Node.resolve s))) := by
  cases ns with
  | nil => exact .ok
  | cons n ns =>
      by_cases hsingle : ((n.resolve s).isIfElse && (ns.map (Node.resolve s)).isEmpty) = true
      · simp only [Bool.and_eq_true, List.isEmpty_iff, List.map_eq_nil_iff] at hsingle
        obtain ⟨hif, rfl⟩ := hsingle
        have hn := (h n List.mem_cons_self).congr (map_rungs_single hif)
        simpa using hn
      · rw [List.map_cons, Export.rungs_cons e (by simpa using hsingle), List.flatMap_cons]
        refine Agrees.bind (h n List.mem_cons_self) fun es => ?_
        exact (agrees_statements fun m hm => h m (List.mem_cons_of_mem _ hm)).bind_ok fun rest => .ok

/-- Complaints about a statement and its elements agree. The induction is over the derivation, and in each case
the parts are complained about and exported in the same order. -/
theorem Statement.agrees (h : g.Statement s n) (he : e.globals = s.globals) :
    Agrees (n.complaints s) (statement e (n.resolve s)) := by
  induction h with
  | instruction _ ha =>
      have hfree := Expression.programFree_all ha
      rw [Node.complaints, Node.complaintsAll_of_programFree hfree, Node.resolve,
        Node.resolveAll_of_programFree hfree, statement, Scope.instruction?_congr he]
      exact agrees_ofUse (.inl ⟨_, rfl⟩) fun d =>
        (agrees_expressions fun a hm => (ha a hm).agrees he).bind_ok fun es => .ok
  | @assignment s operator target value loc ht hv =>
      rw [Node.complaints_assignment _ _ ht.programFree, Node.resolve_assignment _ _ ht.programFree]
      refine (ht.agrees he).bind fun t => (hv.agrees he).bind_ok fun v => ?_
      cases operator <;> exact .ok
  | comment _ => exact .ok
  | @wait s kind condition loc hc =>
      refine (hc.agrees he).bind_ok fun c => ?_
      cases kind <;> exact .ok
  | ifElse hc ht hl iht ihe =>
      rw [Node.complaints_ifElse _ hc.programFree (programFree_all ht) (programFree_all hl), List.append_assoc,
        Node.resolve_ifElse _ hc.programFree (programFree_all ht) (programFree_all hl)]
      refine (hc.agrees he).bind fun c => (agrees_statements fun m hm => iht m hm he).bind fun b => ?_
      exact (agrees_rungs fun m hm => ihe m hm he).bind_ok fun rest => .ok
  | whileLoop hc hb ih =>
      rw [Node.complaints_whileLoop _ hc.programFree (programFree_all hb),
        Node.resolve_whileLoop _ hc.programFree (programFree_all hb)]
      exact (hc.agrees he).bind fun c => (agrees_statements fun m hm => ih m hm he).bind_ok fun b => .ok
  | forLoop hf hl ht hb ih =>
      rw [Node.complaints_forLoop _ hf.programFree hl.programFree ht.programFree (programFree_all hb),
        Node.resolve_forLoop _ hf.programFree hl.programFree ht.programFree (programFree_all hb), List.append_assoc,
        List.append_assoc]
      refine (hf.agrees he).bind fun f => (hl.agrees he).bind fun l => (ht.agrees he).bind fun t => ?_
      exact (agrees_statements fun m hm => ih m hm he).bind_ok fun b => .ok
  | breakLoop => exact .ok
  | repeatLoop hc hb ih =>
      rw [Node.complaints_repeatLoop _ hc.programFree (programFree_all hb),
        Node.resolve_repeatLoop _ hc.programFree (programFree_all hb)]
      exact (hc.agrees he).bind fun c => (agrees_statements fun m hm => ih m hm he).bind_ok fun b => .ok

/-! ## Items and programs

A declared expression has an element of its own kind, which is put behind the blocks. It is still made where the
declaration stands, so complaints and steps of the exporter come in the same order. -/

/-- No complaint about the head of a handler that a text can spell says that a name is unknown: its event is one
of the catalog. -/
theorem noneUnknown_ofEvent {head : EventHead} (h : head.Legible) : NoneUnknown (Complaint.ofEvent head) := by
  obtain ⟨d, hd⟩ := Option.isSome_iff_exists.mp h.event
  intro p hp name
  simp only [Complaint.ofEvent, hd, List.mem_map] at hp
  obtain ⟨parameter, _, rfl⟩ := hp
  exact Complaint.unknownParameter_ne _ _ _ _

/-- Complaints about an item and its elements agree, if the item has a block of its own. -/
theorem Item.agrees (h : Grammar.written.Item s n) (he : e.globals = s.globals)
    (hn : ∀ head value, n ≠ .expressionDeclaration head value) :
    Agrees (n.complaints s) (Export.topLevel e (n.resolve s)) := by
  have hbody : ∀ {names : List String} {body : List Node}, (∀ n ∈ body, Grammar.written.Statement (s.push names) n) →
      Agrees (body.flatMap (Node.complaints (s.push names)))
        (statements e (body.map (Node.resolve (s.push names)))) :=
    fun hb => agrees_statements fun m hm => (hb m hm).agrees he
  cases h with
  | @event head body hh hb =>
      have hfree := Statement.programFree_all hb
      obtain ⟨d, hd⟩ := Option.isSome_iff_exists.mp hh.event
      rw [Node.complaints, Node.complaintsAll_of_programFree hfree, Node.resolve,
        Node.resolveAll_of_programFree hfree, Export.topLevel]
      simp only [hd]
      exact .after (noneUnknown_ofEvent hh) ((hbody hb).bind_ok fun es => .ok)
  | instructionDeclaration hh hb =>
      have hfree := Statement.programFree_all hb
      rw [Node.complaints, Node.complaintsAll_of_programFree hfree, Node.resolve,
        Node.resolveAll_of_programFree hfree]
      exact (hbody hb).bind_ok fun es => .ok
  | expressionDeclaration hh hv => exact absurd rfl (hn _ _)
  | detached hp hb =>
      have hfree := Statement.programFree_all hb
      rw [Node.complaints, Node.complaintsAll_of_programFree hfree, Node.resolve,
        Node.resolveAll_of_programFree hfree]
      exact (agrees_statements fun m hm => (hb m hm).agrees he).bind_ok fun es => .ok

/-- The items of a program in a row, by the recursion of the exporter. The value of a declared expression is
exported where the declaration stands, so the order is that of the complaints. -/
theorem agrees_topLevels (h : ∀ n ∈ ns, Grammar.written.Item s n) (he : e.globals = s.globals) :
    Agrees (ns.flatMap (Node.complaints s)) (Export.topLevels e (ns.map (Node.resolve s))) := by
  induction ns using Export.topLevels.induct with
  | case1 => exact .ok
  | case2 head value ns ih =>
      have hns := ih fun m hm => h m (List.mem_cons_of_mem _ hm)
      rw [List.flatMap_cons, List.map_cons]
      cases h _ List.mem_cons_self with
      | expressionDeclaration hh hv => exact (hv.agrees he).bind fun x => hns.bind_ok fun y => .ok
  | case3 n ns hne ih =>
      have hns := ih fun m hm => h m (List.mem_cons_of_mem _ hm)
      have hresolve : ∀ head value, n.resolve s ≠ .expressionDeclaration head value := by
        intro head value heq
        cases n <;> first | exact hne _ _ rfl | cases heq
      rw [List.flatMap_cons, List.map_cons, Export.topLevels_cons e _ hresolve]
      exact ((h n List.mem_cons_self).agrees he hne).bind fun x => hns.bind_ok fun y => .ok

/-- **The complaints about a written program and its document agree.** Items are checked and exported in the same
order, so the step of the export that fails first is the one at the first unknown name. -/
theorem Program.agrees {result : Except Failure String} (h : Grammar.written.Program n)
    (hresult : n.resolved.documentText = result) : Agrees n.problems result := by
  have hresolved : n.resolved.resolved = n.resolved := n.resolve_resolve {}
  have hglobals := Globals.ofNode_resolved n
  cases h with
  | @program name vars body loc hb =>
      have htop := agrees_topLevels (e := { globals := .ofProgram vars body }) hb rfl
      subst hresult
      unfold Node.documentText Node.document
      rw [hresolved, hglobals, Program.problems_eq hb, Program.resolved_eq hb]
      exact ((htop.bind_ok fun x => .ok).bind_ok fun x => .ok).bind_ok fun x => .ok

end Grammar

/-! ## Texts

What was read without problems is a written tree, so all of the above applies to it. -/

/-- The complaints about a text that was read without problems agree with its document. -/
theorem agrees_of_documentOfText {source : String} {result : Except Failure String}
    (h : (treeOfText source).problems = []) (hresult : (documentOfText source).result = result) :
    Agrees (resolvedTreeOfText source).problems result := by
  have hproblems : (resolvedTreeOfText source).problems = (treeOfText source).result.problems := by
    show (treeOfText source).problems ++ _ = _
    rw [h, List.nil_append]
  rw [hproblems]
  exact (Grammar.written_treeOfText h).agrees hresult

theorem agrees_documentOfText {source : String} (h : (treeOfText source).problems = []) :
    Agrees (resolvedTreeOfText source).problems (documentOfText source).result := by
  generalize hresult : (documentOfText source).result = result
  exact agrees_of_documentOfText h hresult

/-- A text without errors has a document. -/
theorem Valid.exists_document {source : String} (h : Valid source) :
    ∃ document, (documentOfText source).result = .ok document := by
  obtain ⟨htree, hcomplaints⟩ := (valid_iff source).mp h
  have hnone : (resolvedTreeOfText source).problems = [] := List.append_eq_nil_iff.mpr ⟨htree, hcomplaints⟩
  cases hdocument : (documentOfText source).result with
  | ok document => exact ⟨document, rfl⟩
  | error f =>
      have hagrees := agrees_of_documentOfText htree hdocument
      rw [hnone] at hagrees
      obtain ⟨name, ⟨before, p, after, hsplit, _⟩, _⟩ := hagrees
      exact absurd hsplit (by simp)

/-- **Validation and documents agree.** A text without errors has a document. A text that is read without problems has
no document exactly if some name is unknown, and then the reason names the first of the unknown names. -/
theorem documentOfText_fails_iff_unknown (source : String) :
    (Valid source → ∃ document, (documentOfText source).result = .ok document) ∧
    ((treeOfText source).problems = [] →
      ((∃ f, (documentOfText source).result = .error f) ↔
        ∃ p ∈ (resolvedTreeOfText source).problems, ∃ name, p.message = "Unknown identifier '" ++ name ++ "'") ∧
      ∀ f, (documentOfText source).result = .error f → f.code = "XML_EXPORT_UNRESOLVED" ∧
        ∃ before p after name, (resolvedTreeOfText source).problems = before ++ p :: after ∧
          (∀ q ∈ before, ∀ other, q.message ≠ "Unknown identifier '" ++ other ++ "'") ∧
          p.message = "Unknown identifier '" ++ name ++ "'" ∧
          (f.message = "Unresolved instruction '" ++ name ++ "'." ∨
            f.message = "Unresolved identifier '" ++ name ++ "'.")) := by
  refine ⟨Valid.exists_document, fun hnone => ?_⟩
  have hagrees := agrees_documentOfText hnone
  cases hdocument : (documentOfText source).result with
  | ok document =>
      rw [hdocument] at hagrees
      refine ⟨⟨nofun, ?_⟩, nofun⟩
      rintro ⟨p, hp, name, hname⟩
      exact absurd hname (hagrees p hp name)
  | error f =>
      rw [hdocument] at hagrees
      obtain ⟨name, ⟨before, p, after, hsplit, hbefore, hp⟩, hf⟩ := hagrees
      refine ⟨⟨fun _ => ⟨p, by rw [hsplit]; simp, name, hp⟩, fun _ => ⟨f, rfl⟩⟩, ?_⟩
      rintro _ ⟨⟩
      refine ⟨?_, before, p, after, name, hsplit, hbefore, hp, ?_⟩
      · rcases hf with ⟨span, rfl⟩ | ⟨span, rfl⟩ <;> rfl
      · rcases hf with ⟨span, rfl⟩ | ⟨span, rfl⟩
        · exact .inl rfl
        · exact .inr rfl

end FlightScript
