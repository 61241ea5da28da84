import FlightScript.Proofs.Grammar
import FlightScript.Proofs.Idempotence
import Mathlib.Data.List.Forall2

/-!
# `Proofs.Resolution` — trees that come to the same once they are resolved

A tree that is read from a text has names whose kinds are not known yet, and places; the tree it was written from
has known kinds and perhaps other places. `Node.Same` says that the first becomes the second once its names are
resolved and metadata is forgotten, and that both draw complaints or neither does. It goes through every
construct, so that it is proved part by part along a reading.

## Contents

* `Node.Same` and its congruences, one for each construct;
* `Grammar.Expression.same_resolve` and its kin: a tree comes to the same as what resolving it gives;
* `Scope.SettlesIdentifier`, `Scope.SettlesInstruction`: a name has a known kind and a definition of that kind.
-/

namespace FlightScript

/-! ## Uses of names

What resolving and complaining see of a use is its name and its kind. -/

/-- Metadata aside, a use is its name and its kind. -/
theorem Use.clearMetadata_eq_iff {Kind : Type} {u v : Use Kind} :
    u.clearMetadata = v.clearMetadata ↔ u.name = v.name ∧ u.kind = v.kind := by
  simp [Use.clearMetadata]

/-- Whether anything is wrong with a name depends on the name and its kind. -/
theorem Scope.identifierComplaints_eq_nil_congr {s : Scope} {u v : Use IdentifierKind} {k : Nat}
    (h : u.clearMetadata = v.clearMetadata) :
    s.identifierComplaints u k = [] ↔ s.identifierComplaints v k = [] := by
  obtain ⟨hname, hkind⟩ := Use.clearMetadata_eq_iff.mp h
  unfold Scope.identifierComplaints
  rw [hname, hkind]
  split
  · split <;> simp
  · cases s.identifier? v.name v.kind with
    | none => simp [Complaint.ofUse]
    | some d => simp only [Complaint.ofUse]; split <;> simp

/-- Whether anything is wrong with an instruction depends on its name and its kind. -/
theorem Scope.instructionComplaints_eq_nil_congr {s : Scope} {u v : Use InstructionKind} {k : Nat}
    (h : u.clearMetadata = v.clearMetadata) :
    s.instructionComplaints u k = [] ↔ s.instructionComplaints v k = [] := by
  obtain ⟨hname, hkind⟩ := Use.clearMetadata_eq_iff.mp h
  unfold Scope.instructionComplaints
  rw [hname, hkind]
  cases s.instruction? v.name v.kind with
  | none => simp [Complaint.ofUse]
  | some d => simp only [Complaint.ofUse]; split <;> simp

/-! ## Trees that come to the same

The congruences have no hypotheses beside those on the parts: a construct that binds names compares its body in
the scope with these names. `left` and `right` say that no program is nested, which makes the scope the same
throughout. -/

namespace Node

/-- Resolved in a scope and without metadata the first tree is the second, and there are complaints about
both or about neither. -/
structure Same (s : Scope) (n m : Node) : Prop where
  left : n.ProgramFree
  right : m.ProgramFree
  resolve : (n.resolve s).clearMetadata = m.clearMetadata
  complaints : n.complaints s = [] ↔ m.complaints s = []

section Congruences

attribute [local simp] Node.resolve Node.complaints clearMetadata ProgramFree Globals.meet

variable {s : Scope} {c t e c' t' e' : Node} {ns ms ns' ms' : List Node} {loc loc' : Option Span}

theorem Same.left_all (h : List.Forall₂ (Same s) ns ms) : ∀ n ∈ ns, n.ProgramFree := by
  induction h with
  | nil => simp
  | cons h _ ih => simpa using ⟨h.left, ih⟩

theorem Same.right_all (h : List.Forall₂ (Same s) ns ms) : ∀ m ∈ ms, m.ProgramFree := by
  induction h with
  | nil => simp
  | cons h _ ih => simpa using ⟨h.right, ih⟩

theorem Same.resolve_all (h : List.Forall₂ (Same s) ns ms) :
    (ns.map (Node.resolve s)).map clearMetadata = ms.map clearMetadata := by
  induction h with
  | nil => rfl
  | cons h _ ih => simp only [List.map_cons, h.resolve, ih]

/-- There are complaints about trees in a row exactly if there are complaints about those that they come to. -/
theorem Same.complaints_all (h : List.Forall₂ (Same s) ns ms) :
    ns.flatMap (Node.complaints s) = [] ↔ ms.flatMap (Node.complaints s) = [] := by
  induction h with
  | nil => rfl
  | cons h _ ih => simp only [List.flatMap_cons, List.append_eq_nil_iff, h.complaints, ih]

theorem Same.constant {v : Constant} : Same s (.constant v loc) (.constant v loc') :=
  ⟨by simp, by simp, by simp [Node.resolve, clearMetadata], by simp [Node.complaints]⟩

/-- An operation comes to the same if its operands do. -/
theorem Same.binary {op : String} (hc : Same s c c') (ht : Same s t t') :
    Same s (.binary op c t loc) (.binary op c' t' loc') where
  left := by simpa using ⟨hc.left, ht.left⟩
  right := by simpa using ⟨hc.right, ht.right⟩
  resolve := by
    rw [resolve_binary op loc hc.left]
    simp only [clearMetadata, hc.resolve, ht.resolve]
  complaints := by
    rw [complaints_binary op loc hc.left, complaints_binary op loc' hc.right]
    simp only [List.append_eq_nil_iff, hc.complaints, ht.complaints]

theorem Same.unary {op : String} (hc : Same s c c') : Same s (.unary op c loc) (.unary op c' loc') where
  left := by simpa using hc.left
  right := by simpa using hc.right
  resolve := by simp only [Node.resolve, clearMetadata, hc.resolve]
  complaints := by simp only [Node.complaints, hc.complaints]

/-- A conditional expression comes to the same if its three parts do. -/
theorem Same.conditional (hc : Same s c c') (ht : Same s t t') (he : Same s e e') :
    Same s (.conditional c t e loc) (.conditional c' t' e' loc') where
  left := by simpa using ⟨hc.left, ht.left, he.left⟩
  right := by simpa using ⟨hc.right, ht.right, he.right⟩
  resolve := by
    rw [resolve_conditional loc hc.left ht.left]
    simp only [clearMetadata, hc.resolve, ht.resolve, he.resolve]
  complaints := by
    rw [complaints_conditional loc hc.left ht.left, complaints_conditional loc' hc.right ht.right]
    simp only [List.append_eq_nil_iff, hc.complaints, ht.complaints, he.complaints]

/-- A name comes to the same if it gets the kind that the other one has. -/
theorem Same.identifier {u v : Use IdentifierKind} (hv : v.kind ≠ .unknown)
    (hu : (s.resolveIdentifier u ns.length).clearMetadata = v.clearMetadata)
    (hns : List.Forall₂ (Same s) ns ms) : Same s (.identifier u ns) (.identifier v ms) where
  left := by simpa using left_all hns
  right := by simpa using right_all hns
  resolve := by
    simp only [Node.resolve, resolveAll_of_programFree (left_all hns), clearMetadata, hu,
      clearMetadataAll_eq_map, resolve_all hns]
  complaints := by
    have hlen : ns.length = ms.length := hns.length_eq
    simp only [Node.complaints, complaintsAll_of_programFree (left_all hns),
      complaintsAll_of_programFree (right_all hns), List.append_eq_nil_iff, complaints_all hns,
      ← hlen, Scope.resolveIdentifier_of_known hv, Scope.identifierComplaints_eq_nil_congr hu]

/-- An instruction comes to the same if it gets the kind that the other one has. -/
theorem Same.instruction {u v : Use InstructionKind} (hv : v.kind ≠ .unknown)
    (hu : (s.resolveInstruction u).clearMetadata = v.clearMetadata)
    (hns : List.Forall₂ (Same s) ns ms) : Same s (.instruction u ns) (.instruction v ms) where
  left := by simpa using left_all hns
  right := by simpa using right_all hns
  resolve := by
    simp only [Node.resolve, resolveAll_of_programFree (left_all hns), clearMetadata, hu,
      clearMetadataAll_eq_map, resolve_all hns]
  complaints := by
    have hlen : ns.length = ms.length := hns.length_eq
    simp only [Node.complaints, complaintsAll_of_programFree (left_all hns),
      complaintsAll_of_programFree (right_all hns), List.append_eq_nil_iff, complaints_all hns,
      ← hlen, Scope.resolveInstruction_of_known hv, Scope.instructionComplaints_eq_nil_congr hu]

/-- An assignment comes to the same if both sides do. -/
theorem Same.assignment {op : AssignOperator} (hc : Same s c c') (ht : Same s t t') :
    Same s (.assignment op c t loc) (.assignment op c' t' loc') where
  left := by simpa using ⟨hc.left, ht.left⟩
  right := by simpa using ⟨hc.right, ht.right⟩
  resolve := by
    rw [resolve_assignment op loc hc.left]
    simp only [clearMetadata, hc.resolve, ht.resolve]
  complaints := by
    rw [complaints_assignment op loc hc.left, complaints_assignment op loc' hc.right]
    simp only [List.append_eq_nil_iff, hc.complaints, ht.complaints]

theorem Same.comment {text : String} : Same s (.comment text loc) (.comment text loc') :=
  ⟨by simp, by simp, by simp [Node.resolve, clearMetadata], by simp [Node.complaints]⟩

theorem Same.breakLoop : Same s (.breakLoop loc) (.breakLoop loc') :=
  ⟨by simp, by simp, by simp [Node.resolve, clearMetadata], by simp [Node.complaints]⟩

theorem Same.wait {kind : WaitKind} (hc : Same s c c') :
    Same s (.wait kind c loc) (.wait kind c' loc') where
  left := by simpa using hc.left
  right := by simpa using hc.right
  resolve := by simp only [Node.resolve, clearMetadata, hc.resolve]
  complaints := by simp only [Node.complaints, hc.complaints]

/-- A branching comes to the same if its condition and its bodies do. -/
theorem Same.ifElse (hc : Same s c c') (hns : List.Forall₂ (Same s) ns ns')
    (hms : List.Forall₂ (Same s) ms ms') : Same s (.ifElse c ns ms loc) (.ifElse c' ns' ms' loc') where
  left := by simpa using ⟨hc.left, left_all hns, left_all hms⟩
  right := by simpa using ⟨hc.right, right_all hns, right_all hms⟩
  resolve := by
    rw [resolve_ifElse loc hc.left (left_all hns) (left_all hms)]
    simp only [clearMetadata, clearMetadataAll_eq_map, hc.resolve, resolve_all hns, resolve_all hms]
  complaints := by
    rw [complaints_ifElse loc hc.left (left_all hns) (left_all hms),
      complaints_ifElse loc' hc.right (right_all hns) (right_all hms)]
    simp only [List.append_eq_nil_iff, hc.complaints, complaints_all hns, complaints_all hms]

/-- A loop with a condition comes to the same if the condition and the body do. -/
theorem Same.whileLoop (hc : Same s c c') (hns : List.Forall₂ (Same s) ns ns') :
    Same s (.whileLoop c ns loc) (.whileLoop c' ns' loc') where
  left := by simpa using ⟨hc.left, left_all hns⟩
  right := by simpa using ⟨hc.right, right_all hns⟩
  resolve := by
    rw [resolve_whileLoop loc hc.left (left_all hns)]
    simp only [clearMetadata, clearMetadataAll_eq_map, hc.resolve, resolve_all hns]
  complaints := by
    rw [complaints_whileLoop loc hc.left (left_all hns), complaints_whileLoop loc' hc.right (right_all hns)]
    simp only [List.append_eq_nil_iff, hc.complaints, complaints_all hns]

/-- A loop with a count comes to the same if the count and the body do. -/
theorem Same.repeatLoop (hc : Same s c c') (hns : List.Forall₂ (Same s) ns ns') :
    Same s (.repeatLoop c ns loc) (.repeatLoop c' ns' loc') where
  left := by simpa using ⟨hc.left, left_all hns⟩
  right := by simpa using ⟨hc.right, right_all hns⟩
  resolve := by
    rw [resolve_repeatLoop loc hc.left (left_all hns)]
    simp only [clearMetadata, clearMetadataAll_eq_map, hc.resolve, resolve_all hns]
  complaints := by
    rw [complaints_repeatLoop loc hc.left (left_all hns),
      complaints_repeatLoop loc' hc.right (right_all hns)]
    simp only [List.append_eq_nil_iff, hc.complaints, complaints_all hns]

/-- A counting loop comes to the same if it has the same variable, its bounds do, and its body does where the
variable is known. -/
theorem Same.forLoop {h h' : ForHead} (hv : h.var = h'.var) (hc : Same s c c') (ht : Same s t t')
    (he : Same s e e') (hns : List.Forall₂ (Same (s.push [h'.var])) ns ns') :
    Same s (.forLoop h c t e ns) (.forLoop h' c' t' e' ns') where
  left := by simpa using ⟨hc.left, ht.left, he.left, left_all hns⟩
  right := by simpa using ⟨hc.right, ht.right, he.right, right_all hns⟩
  resolve := by
    rw [resolve_forLoop h hc.left ht.left he.left (left_all hns), hv]
    simp only [clearMetadata, clearMetadataAll_eq_map, hc.resolve, ht.resolve, he.resolve,
      resolve_all hns, ForHead.clearMetadata]
  complaints := by
    rw [complaints_forLoop h hc.left ht.left he.left (left_all hns),
      complaints_forLoop h' hc.right ht.right he.right (right_all hns), hv]
    simp only [List.append_eq_nil_iff, hc.complaints, ht.complaints, he.complaints, complaints_all hns]

/-- A handler comes to the same if the heads agree up to metadata and the bodies do where the parameters are
known. What is wrong with a head does not depend on its metadata. -/
theorem Same.event {h h' : EventHead} (hh : h.clearMetadata = h'.clearMetadata)
    (hns : List.Forall₂ (Same (s.push h'.parameters)) ns ns') : Same s (.event h ns) (.event h' ns') where
  left := by simpa using left_all hns
  right := by simpa using right_all hns
  resolve := by
    have hp : h.parameters = h'.parameters := congrArg (·.parameters) hh
    rw [← hp] at hns
    simp only [Node.resolve, resolveAll_of_programFree (left_all hns), clearMetadata,
      clearMetadataAll_eq_map, resolve_all hns]
    exact congrArg (Node.event · _) hh
  complaints := by
    have hp : h.parameters = h'.parameters := congrArg (·.parameters) hh
    have he : h.event = h'.event := congrArg (·.event) hh
    have hof : Complaint.ofEvent h = [] ↔ Complaint.ofEvent h' = [] := by
      unfold Complaint.ofEvent
      rw [he, hp]
      cases Catalog.event? h'.event <;> simp
    simp only [Node.complaints, hp, complaintsAll_of_programFree (left_all hns),
      complaintsAll_of_programFree (right_all hns), List.append_eq_nil_iff, hof, complaints_all hns]

/-- A declared instruction comes to the same if the heads agree up to metadata and the bodies do where the
parameters are known. -/
theorem Same.instructionDeclaration {h h' : DeclarationHead} (hh : h.clearMetadata = h'.clearMetadata)
    (hns : List.Forall₂ (Same (s.push h'.parameters)) ns ns') :
    Same s (.instructionDeclaration h ns) (.instructionDeclaration h' ns') where
  left := by simpa using left_all hns
  right := by simpa using right_all hns
  resolve := by
    have hp : h.parameters = h'.parameters := congrArg (·.parameters) hh
    rw [← hp] at hns
    simp only [Node.resolve, resolveAll_of_programFree (left_all hns), clearMetadata,
      clearMetadataAll_eq_map, resolve_all hns]
    exact congrArg (Node.instructionDeclaration · _) hh
  complaints := by
    have hp : h.parameters = h'.parameters := congrArg (·.parameters) hh
    simp only [Node.complaints, hp, complaintsAll_of_programFree (left_all hns),
      complaintsAll_of_programFree (right_all hns), complaints_all hns]

/-- A declared expression comes to the same if the heads agree up to metadata and the values do where the
parameters are known. -/
theorem Same.expressionDeclaration {h h' : DeclarationHead} (hh : h.clearMetadata = h'.clearMetadata)
    (hc : Same (s.push h'.parameters) c c') :
    Same s (.expressionDeclaration h c) (.expressionDeclaration h' c') where
  left := by simpa using hc.left
  right := by simpa using hc.right
  resolve := by
    have hp : h.parameters = h'.parameters := congrArg (·.parameters) hh
    rw [← hp] at hc
    simp only [Node.resolve, clearMetadata, hc.resolve]
    exact congrArg (Node.expressionDeclaration · _) hh
  complaints := by
    have hp : h.parameters = h'.parameters := congrArg (·.parameters) hh
    simp only [Node.complaints, hp, hc.complaints]

/-- Statements of their own come to the same if they do one by one. The position is part of the tree. -/
theorem Same.detached {pos : Option String} (hns : List.Forall₂ (Same s) ns ns') :
    Same s (.detached pos ns loc) (.detached pos ns' loc') where
  left := by simpa using left_all hns
  right := by simpa using right_all hns
  resolve := by
    simp only [Node.resolve, resolveAll_of_programFree (left_all hns), clearMetadata,
      clearMetadataAll_eq_map, resolve_all hns]
  complaints := by
    simp only [Node.complaints, complaintsAll_of_programFree (left_all hns),
      complaintsAll_of_programFree (right_all hns), complaints_all hns]

end Congruences

end Node

/-! ## Resolving comes to the same

Resolving twice is resolving once, so a tree and its resolved form are compared by the congruences alone. -/

namespace Grammar

open Node (Same)

variable {g : Grammar} {s : Scope} {n : Node} {ns : List Node}

theorem forall₂_map_right {f : Node → Node} (h : ∀ n ∈ ns, Same s n (f n)) :
    List.Forall₂ (Same s) ns (ns.map f) := by
  induction ns with
  | nil => exact .nil
  | cons n ns ih =>
      exact .cons (h n List.mem_cons_self) (ih fun m hm => h m (List.mem_cons_of_mem _ hm))

/-- A tree comes to the same as the tree that resolving it gives. -/
theorem Expression.same_resolve (h : g.Expression s n) : Same s n (n.resolve s) := by
  induction h with
  | identifier _ ha ih =>
      rw [Node.resolve, Node.resolveAll_of_programFree (Expression.programFree_all ha)]
      exact .identifier (s.resolveIdentifier_known _ _) rfl (forall₂_map_right ih)
  | constant _ => exact .constant
  | binary op hl _ ihl ihr =>
      rw [Node.resolve_binary _ _ hl.programFree]
      exact ihl.binary ihr
  | negation _ ih => exact ih.unary
  | conditional hc ht _ ihc iht ihe =>
      rw [Node.resolve_conditional _ hc.programFree ht.programFree]
      exact ihc.conditional iht ihe

/-- A statement comes to the same as what resolving it gives, by induction over the derivation with one
congruence for each case. -/
theorem Statement.same_resolve (h : g.Statement s n) : Same s n (n.resolve s) := by
  induction h with
  | instruction _ ha =>
      rw [Node.resolve, Node.resolveAll_of_programFree (Expression.programFree_all ha)]
      exact .instruction (Scope.resolveInstruction_known _ _) rfl
        (forall₂_map_right fun a m => (ha a m).same_resolve)
  | assignment ht hv =>
      rw [Node.resolve_assignment _ _ ht.programFree]
      exact ht.same_resolve.assignment hv.same_resolve
  | comment _ => exact .comment
  | wait hc => exact hc.same_resolve.wait
  | ifElse hc ht he iht ihe =>
      rw [Node.resolve_ifElse _ hc.programFree (programFree_all ht) (programFree_all he)]
      exact hc.same_resolve.ifElse (forall₂_map_right iht) (forall₂_map_right ihe)
  | whileLoop hc hb ih =>
      rw [Node.resolve_whileLoop _ hc.programFree (programFree_all hb)]
      exact hc.same_resolve.whileLoop (forall₂_map_right ih)
  | forLoop hf hl ht hb ih =>
      rw [Node.resolve_forLoop _ hf.programFree hl.programFree ht.programFree
        (programFree_all hb)]
      exact .forLoop rfl hf.same_resolve hl.same_resolve ht.same_resolve (forall₂_map_right ih)
  | breakLoop => exact .breakLoop
  | repeatLoop hc hb ih =>
      rw [Node.resolve_repeatLoop _ hc.programFree (programFree_all hb)]
      exact hc.same_resolve.repeatLoop (forall₂_map_right ih)

/-- The same for what stands at the top of a program. -/
theorem Item.same_resolve (h : g.Item s n) : Same s n (n.resolve s) := by
  cases h with
  | event _ hb =>
      rw [Node.resolve, Node.resolveAll_of_programFree (Statement.programFree_all hb)]
      exact .event rfl (forall₂_map_right fun m hm => (hb m hm).same_resolve)
  | instructionDeclaration _ hb =>
      rw [Node.resolve, Node.resolveAll_of_programFree (Statement.programFree_all hb)]
      exact .instructionDeclaration rfl (forall₂_map_right fun m hm => (hb m hm).same_resolve)
  | expressionDeclaration _ hv => exact .expressionDeclaration rfl hv.same_resolve
  | detached _ hb =>
      rw [Node.resolve, Node.resolveAll_of_programFree (Statement.programFree_all hb)]
      exact .detached (forall₂_map_right fun m hm => (hb m hm).same_resolve)

end Grammar

/-! ## Settled names

A settled name is one that can be written and found again: its kind says which table it is in. -/

namespace Scope

/-- The name has a known kind and a definition of that kind, and a variable has no arguments. -/
def SettlesIdentifier (s : Scope) (u : Use IdentifierKind) (arguments : Nat) : Prop :=
  match u.kind with
  | .builtin => (Catalog.expression? u.name).isSome
  | .local_ => True
  | .global => s.globals.vars.contains u.name ∧ arguments = 0
  | .expression => s.globals.expressions.contains u.name
  | .unknown | .invalid => False

/-- The instruction has a known kind and a definition of that kind. -/
def SettlesInstruction (s : Scope) (u : Use InstructionKind) : Prop :=
  match u.kind with
  | .builtin => (Catalog.instruction? u.name).isSome
  | .global => s.globals.instructions.contains u.name
  | .unknown | .invalid => False

theorem SettlesIdentifier.known {s : Scope} {u : Use IdentifierKind} {k : Nat}
    (h : s.SettlesIdentifier u k) : u.kind ≠ .unknown := by
  intro hu
  simp [SettlesIdentifier, hu] at h

theorem SettlesInstruction.known {s : Scope} {u : Use InstructionKind}
    (h : s.SettlesInstruction u) : u.kind ≠ .unknown := by
  intro hu
  simp [SettlesInstruction, hu] at h

/-- Every variable in scope is defined without arguments. -/
def VariablesBare (s : Scope) : Prop :=
  ∀ name d, s.globals.vars.get? name = some d → d.arity = .exactly 0

/-- A name about which nothing is wrong is settled. -/
theorem settlesIdentifier_of_complaints {s : Scope} (hs : s.VariablesBare) {u : Use IdentifierKind}
    {k : Nat} (hk : u.kind ≠ .unknown) (h : s.identifierComplaints u k = []) :
    s.SettlesIdentifier u k := by
  unfold identifierComplaints at h
  unfold SettlesIdentifier
  split at h
  · simp [*]
  · rename_i hl
    -- a kind that is not local is looked up, and a failed look-up is a complaint
    cases hd : s.identifier? u.name u.kind with
    | none => simp [hd, Complaint.ofUse] at h
    | some d =>
        have ha : d.arity.accepts k = true := by
          by_contra hna
          simp [hd, Complaint.ofUse, hna] at h
        cases hkind : u.kind with
        | unknown => exact absurd hkind hk
        | invalid => simp [identifier?, hkind] at hd
        | builtin => simpa [identifier?, hkind] using Option.isSome_of_eq_some hd
        | expression =>
            have : s.globals.expressions.get? u.name = some d := by simpa [identifier?, hkind] using hd
            simp [NameMap.contains, this]
        | global =>
            have hget : s.globals.vars.get? u.name = some d := by simpa [identifier?, hkind] using hd
            rw [hs _ _ hget] at ha
            have : 0 = k := by simpa [Arity.accepts] using ha
            simp [NameMap.contains, hget, this]
        | local_ => exact absurd hkind hl

/-- An instruction with a definition of its kind is settled. -/
theorem settlesInstruction_of_definition {s : Scope} {u : Use InstructionKind} {d : Definition}
    (hd : s.instruction? u.name u.kind = some d) : s.SettlesInstruction u := by
  unfold SettlesInstruction
  cases hkind : u.kind with
  | unknown => simp [instruction?, hkind] at hd
  | invalid => simp [instruction?, hkind] at hd
  | builtin => simpa [instruction?, hkind] using Option.isSome_of_eq_some hd
  | global =>
      have hget : s.globals.instructions.get? u.name = some d := by simpa [instruction?, hkind] using hd
      simp [NameMap.contains, hget]

/-- An instruction about which nothing is wrong is settled. -/
theorem settlesInstruction_of_complaints {s : Scope} {u : Use InstructionKind} {k : Nat}
    (h : s.instructionComplaints u k = []) : s.SettlesInstruction u := by
  unfold instructionComplaints at h
  cases hd : s.instruction? u.name u.kind with
  | none => simp [hd, Complaint.ofUse] at h
  | some d => exact settlesInstruction_of_definition hd

end Scope

end FlightScript
