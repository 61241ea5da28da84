import FlightScript.Proofs.Legible

/-!
# `Proofs.ReadBack` — what a canonical text stands for

A wait of no seconds and a step of one are not written, whatever the type of the constant, and are read back as
numbers. An empty message filter is not written either. So the text of a tree stands for the tree of
`Node.readBack`, which is the tree itself unless one of those constants is no number or a filter is empty. And
where a name with arguments is assigned to, the text cannot be read back at all.

## Contents

* `Node.orNumber`, `Node.readBack`;
* `Node.assignsCall`: an assignment whose text cannot be read back;
* `Grammar.Statement.readBack`, `Grammar.Statement.complaints_readBack`: what is read back is settled as well and
  draws the same complaints.
-/

namespace FlightScript

namespace Node

/-- The number instead of a constant with the same text. -/
def orNumber (value : String) (n : Node) : Node := if n.isConstant value then .number value else n

mutual

/-- The tree that the text of a tree stands for. -/
def readBack : Node → Node
  | wait .seconds condition loc => .wait .seconds (condition.orNumber "0") loc
  | ifElse condition consequent alternative loc =>
    .ifElse condition (readBackAll consequent) (readBackAll alternative) loc
  | whileLoop condition body loc => .whileLoop condition (readBackAll body) loc
  | forLoop head first last step body => .forLoop head first last (step.orNumber "1") (readBackAll body)
  | repeatLoop count body loc => .repeatLoop count (readBackAll body) loc
  | event head body => .event { head with filter := Text.filled head.filter } (readBackAll body)
  | instructionDeclaration head body => .instructionDeclaration head (readBackAll body)
  | detached pos body loc => .detached pos (readBackAll body) loc
  | program name vars body loc => .program name vars (readBackAll body) loc
  | n => n

/-- Several trees, each as its text stands for it. -/
def readBackAll : List Node → List Node
  | [] => []
  | n :: ns => readBack n :: readBackAll ns

end

@[simp] theorem readBackAll_eq_map (ns : List Node) : readBackAll ns = ns.map readBack := by
  induction ns with
  | nil => rfl
  | cons n ns ih => rw [readBackAll, ih, List.map_cons]

/-- A name with arguments is assigned to: the writer puts no parentheses around it, and without them it is read
as an instruction. -/
def assignsCall : Node → Bool
  | assignment _ (identifier _ (_ :: _)) _ _ => true
  | _ => false

/-- No name with arguments is assigned to. -/
def Readable (n : Node) : Prop := n.Everywhere fun m => m.assignsCall = false

section Readable

variable {c t e : Node} {ns ms : List Node} {loc : Option Span}

theorem readable_ifElse : (ifElse c ns ms loc).Readable ↔
    c.Readable ∧ (∀ n ∈ ns, n.Readable) ∧ ∀ m ∈ ms, m.Readable :=
  everywhere_ifElse.trans (and_iff_right rfl)

theorem readable_whileLoop : (whileLoop c ns loc).Readable ↔ c.Readable ∧ ∀ n ∈ ns, n.Readable :=
  everywhere_whileLoop.trans (and_iff_right rfl)

theorem readable_repeatLoop : (repeatLoop c ns loc).Readable ↔ c.Readable ∧ ∀ n ∈ ns, n.Readable :=
  everywhere_repeatLoop.trans (and_iff_right rfl)

theorem readable_forLoop {head : ForHead} : (forLoop head c t e ns).Readable ↔
    c.Readable ∧ t.Readable ∧ e.Readable ∧ ∀ n ∈ ns, n.Readable :=
  everywhere_forLoop.trans (and_iff_right rfl)

end Readable

end Node

namespace Grammar

variable {g : Grammar} {s : Scope} {e : Node}

theorem Expression.readable (h : g.Expression s e) : e.Readable :=
  h.everywhere fun n hn => by cases hn <;> rfl

/-- If the number is allowed then an expression stays one when the number takes the place of a constant. -/
theorem Expression.orNumber {value : String} (h : g.Expression s e)
    (hv : g.constant (.number value)) : g.Expression s (e.orNumber value) := by
  unfold Node.orNumber
  split
  · exact .constant hv
  · exact h

/-! ## Reading back keeps the grammar and the complaints

The differences between a tree and the tree that its text stands for are constants, and constants are allowed
everywhere and draw no complaints. -/

theorem forall_mem_map_readBack {P : Node → Prop} {ns : List Node} (h : ∀ n ∈ ns, P n.readBack) :
    ∀ m ∈ ns.map Node.readBack, P m := by
  intro m hm
  obtain ⟨n, hn, rfl⟩ := List.mem_map.mp hm
  exact h n hn

theorem settled_zero : settled.constant (.number "0") := .inl ⟨⟨'0', [], rfl, .inl (by decide)⟩, by decide⟩

theorem settled_one : settled.constant (.number "1") := .inl ⟨⟨'1', [], rfl, .inl (by decide)⟩, by decide⟩

/-- What the text of a settled statement stands for is settled too, in the same scope. The induction is over the
derivation; only waits, steps and bodies change at all. -/
theorem Statement.readBack {n : Node} (h : Grammar.settled.Statement s n) :
    Grammar.settled.Statement s n.readBack := by
  induction h with
  | instruction hn ha => exact .instruction hn ha
  | assignment ht hv => exact .assignment ht hv
  | comment ht => exact .comment ht
  | @wait s kind condition loc hc =>
      cases kind with
      | seconds => exact .wait (hc.orNumber settled_zero)
      | condition => exact .wait hc
  | ifElse hc _ _ iht ihe =>
      rw [Node.readBack, Node.readBackAll_eq_map, Node.readBackAll_eq_map]
      exact .ifElse hc (forall_mem_map_readBack iht) (forall_mem_map_readBack ihe)
  | whileLoop hc _ ih =>
      rw [Node.readBack, Node.readBackAll_eq_map]
      exact .whileLoop hc (forall_mem_map_readBack ih)
  | forLoop hf hl ht _ ih =>
      rw [Node.readBack, Node.readBackAll_eq_map]
      exact .forLoop hf hl (ht.orNumber settled_one) (forall_mem_map_readBack ih)
  | breakLoop => exact .breakLoop
  | repeatLoop hc _ ih =>
      rw [Node.readBack, Node.readBackAll_eq_map]
      exact .repeatLoop hc (forall_mem_map_readBack ih)

/-- Constants draw no complaints. -/
theorem complaints_orNumber (value : String) : (e.orNumber value).complaints s = e.complaints s := by
  unfold Node.orNumber
  split
  · rename_i h
    cases e <;> first | rfl | cases h
  · rfl

theorem flatMap_complaints_readBack {ns : List Node}
    (h : ∀ n ∈ ns, n.readBack.complaints s = n.complaints s) :
    (ns.map Node.readBack).flatMap (Node.complaints s) = ns.flatMap (Node.complaints s) := by
  rw [List.flatMap_map]
  exact List.flatMap_congr h

/-- What the text of a settled statement stands for draws the same complaints. The induction is over the
derivation, by the equations for trees without programs in them. -/
theorem Statement.complaints_readBack {n : Node} (h : Grammar.settled.Statement s n) :
    n.readBack.complaints s = n.complaints s := by
  induction h with
  | instruction _ _ => rfl
  | assignment _ _ => rfl
  | comment _ => rfl
  | @wait s kind condition loc hc =>
      cases kind with
      | seconds => exact complaints_orNumber "0"
      | condition => rfl
  | ifElse hc ht he iht ihe =>
      rw [Node.readBack, Node.readBackAll_eq_map, Node.readBackAll_eq_map,
        Node.complaints_ifElse _ hc.programFree
          (forall_mem_map_readBack fun n hn => (ht n hn).readBack.programFree)
          (forall_mem_map_readBack fun n hn => (he n hn).readBack.programFree),
        Node.complaints_ifElse _ hc.programFree (programFree_all ht) (programFree_all he),
        flatMap_complaints_readBack iht, flatMap_complaints_readBack ihe]
  | whileLoop hc hb ih =>
      rw [Node.readBack, Node.readBackAll_eq_map,
        Node.complaints_whileLoop _ hc.programFree
          (forall_mem_map_readBack fun n hn => (hb n hn).readBack.programFree),
        Node.complaints_whileLoop _ hc.programFree (programFree_all hb), flatMap_complaints_readBack ih]
  | forLoop hf hl ht hb ih =>
      have hstep := (ht.orNumber settled_one).programFree
      rw [Node.readBack, Node.readBackAll_eq_map,
        Node.complaints_forLoop _ hf.programFree hl.programFree hstep
          (forall_mem_map_readBack fun n hn => (hb n hn).readBack.programFree),
        Node.complaints_forLoop _ hf.programFree hl.programFree ht.programFree (programFree_all hb),
        flatMap_complaints_readBack ih, complaints_orNumber]
  | breakLoop => rfl
  | repeatLoop hc hb ih =>
      rw [Node.readBack, Node.readBackAll_eq_map,
        Node.complaints_repeatLoop _ hc.programFree
          (forall_mem_map_readBack fun n hn => (hb n hn).readBack.programFree),
        Node.complaints_repeatLoop _ hc.programFree (programFree_all hb), flatMap_complaints_readBack ih]

/-- The same for what stands at the top of a program, in whose body the parameters are known. -/
theorem Item.complaints_readBack {n : Node} (h : Grammar.settled.Item s n) :
    n.readBack.complaints s = n.complaints s := by
  cases h with
  | event hh hb =>
      have hback := forall_mem_map_readBack fun n hn => (hb n hn).readBack.programFree
      rw [Node.readBack, Node.readBackAll_eq_map, Node.complaints, Node.complaints,
        Node.complaintsAll_of_programFree hback, Node.complaintsAll_of_programFree (Statement.programFree_all hb),
        flatMap_complaints_readBack fun n hn => (hb n hn).complaints_readBack]
      rfl
  | instructionDeclaration hh hb =>
      have hback := forall_mem_map_readBack fun n hn => (hb n hn).readBack.programFree
      rw [Node.readBack, Node.readBackAll_eq_map, Node.complaints, Node.complaints,
        Node.complaintsAll_of_programFree hback, Node.complaintsAll_of_programFree (Statement.programFree_all hb),
        flatMap_complaints_readBack fun n hn => (hb n hn).complaints_readBack]
  | expressionDeclaration _ _ => rfl
  | detached hp hb =>
      have hback := forall_mem_map_readBack fun n hn => (hb n hn).readBack.programFree
      rw [Node.readBack, Node.readBackAll_eq_map, Node.complaints, Node.complaints,
        Node.complaintsAll_of_programFree hback, Node.complaintsAll_of_programFree (Statement.programFree_all hb),
        flatMap_complaints_readBack fun n hn => (hb n hn).complaints_readBack]

end Grammar

end FlightScript
