import FlightScript.Proofs.Kept
import FlightScript.Proofs.Likeness

/-!
# `Proofs.Trimming` — the elements of a tree and of what is kept of it

The elements of a tree and the elements of what its document keeps of it differ in one way: a local name with arguments
has its arguments inside its element, and without them the element is empty. The importer does not look there, so both
are read alike. But the elements are fewer, so both are the same size only if no local name has arguments.

## Contents

* `Element.size`;
* `Export.Trims`: what connects the elements of trees with the elements of what is kept of them;
* `Grammar.Expression.trims`, `Grammar.Statement.trimmed`: every tree has such elements.
-/

namespace FlightScript

/-! ## Sizes

Counting elements is enough to tell whether something was lost: elements are never renamed or moved. -/

namespace Element

mutual

/-- The number of elements in an element, the element itself included. -/
def size : Element → Nat
  | ⟨_, _, children, _⟩ => 1 + sizeAll children

/-- The number of elements in a list of children. -/
def sizeAll : List (Child Element) → Nat
  | [] => 0
  | .element e :: rest => size e + sizeAll rest
  | .text .. :: rest => sizeAll rest

end

/-- The number of elements in several elements. -/
def sizes : List Element → Nat
  | [] => 0
  | e :: es => e.size + sizes es

@[simp] theorem sizes_nil : sizes [] = 0 := rfl

@[simp] theorem sizes_cons (e : Element) (es : List Element) : sizes (e :: es) = e.size + sizes es := rfl

@[simp] theorem sizes_append (es fs : List Element) : sizes (es ++ fs) = sizes es + sizes fs := by
  induction es with
  | nil => simp
  | cons e es ih => rw [List.cons_append, sizes_cons, sizes_cons, ih, Nat.add_assoc]

theorem sizeAll_map_element (es : List Element) : sizeAll (es.map Child.element) = sizes es := by
  induction es with
  | nil => rfl
  | cons e es ih => rw [List.map_cons, sizeAll, ih, sizes_cons]

@[simp] theorem size_make (name : String) (attributes : List (String × String)) (es : List Element) :
    (make name attributes es).size = 1 + sizes es := by
  rw [make, size, sizeAll_map_element]

end Element

/-! ## The elements of a tree and of what is kept of it

`Trims` is closed under putting lists together and under putting them into an element. So it is proved along the
way in which the exporter puts elements together. -/

theorem Element.Likewise.of_forall₂ {name : String} {a : Attributes} {es fs : List Element} {s t : Span}
    (h : List.Forall₂ Element.Likewise es fs) :
    Element.Likewise ⟨name, a, es.map Child.element, s⟩ ⟨name, a, fs.map Child.element, t⟩ :=
  .intro (fun _ _ _ => rfl) (fun _ => h.length_eq) fun _ _ hp => (List.forall₂_iff_zip.mp h).2 hp

namespace Export

/-- The elements of trees, and the elements of what is kept of the trees: the importer sees no difference, and the
second ones are fewer unless no local name has arguments. -/
structure Trims (ns : List Node) (es fs : List Element) : Prop where
  likewise : List.Forall₂ Element.Likewise es fs
  size_le : Element.sizes fs ≤ Element.sizes es
  noLocalCalls : Element.sizes es ≤ Element.sizes fs → ∀ n ∈ ns, n.NoLocalCalls

namespace Trims

variable {ns ms ls : List Node} {es fs es' fs' : List Element} {name : String} {attributes : List (String × String)}

theorem nil : Trims [] [] [] := ⟨.nil, Nat.le_refl _, by simp⟩

/-- What connects two lists of trees with their elements connects the lists together. -/
theorem append (h : Trims ns es fs) (h' : Trims ms es' fs') : Trims (ns ++ ms) (es ++ es') (fs ++ fs') where
  likewise := List.rel_append h.likewise h'.likewise
  size_le := by
    have hle := h.size_le
    have hle' := h'.size_le
    simp only [Element.sizes_append]
    omega
  noLocalCalls hsize := by
    have hle := h.size_le
    have hle' := h'.size_le
    simp only [Element.sizes_append] at hsize
    exact List.forall_mem_append.mpr ⟨h.noLocalCalls (by omega), h'.noLocalCalls (by omega)⟩

theorem mono (h : Trims ns es fs) (hms : (∀ n ∈ ns, n.NoLocalCalls) → ∀ m ∈ ms, m.NoLocalCalls) : Trims ms es fs :=
  ⟨h.likewise, h.size_le, fun hsize => hms (h.noLocalCalls hsize)⟩

/-- The parts of some trees stand in one element. -/
theorem make (h : Trims ns es fs) (hms : (∀ n ∈ ns, n.NoLocalCalls) → ∀ m ∈ ms, m.NoLocalCalls) :
    Trims ms [.make name attributes es] [.make name attributes fs] where
  likewise := .cons (.of_forall₂ h.likewise) .nil
  size_le := by simpa using h.size_le
  noLocalCalls hsize := hms (h.noLocalCalls (by simpa using hsize))

/-- What stands inside a variable may differ. -/
theorem variableElement (hms : es = [] → ∀ m ∈ ms, m.NoLocalCalls) :
    Trims ms [.make "Variable" attributes es] [.make "Variable" attributes []] where
  likewise := .cons (.intro (fun _ _ _ => rfl) (absurd rfl) (absurd rfl)) .nil
  size_le := by simp
  noLocalCalls hsize := by
    refine hms ?_
    cases es with
    | nil => rfl
    | cons e es =>
        have hpos : 0 < e.size := by
          obtain ⟨_, _, _, _⟩ := e
          rw [Element.size]
          omega
        simp only [Element.sizes_cons, Element.sizes_nil, Element.size_make] at hsize
        omega

theorem constant (c : Constant) (hms : ∀ m ∈ ms, m.NoLocalCalls) : Trims ms [constant c] [constant c] := by
  unfold Export.constant
  cases c.kind <;> exact nil.make fun _ => hms

theorem constants (cs : List Constant) : Trims [] (cs.map Export.constant) (cs.map Export.constant) := by
  induction cs with
  | nil => exact .nil
  | cons c cs ih => exact (@constant [] c (by simp)).append ih

/-- The block inside a construct; where there are no statements it is left out on both sides. -/
theorem innerBlock (h : Trims ns es fs) : Trims ns (innerBlock es) (innerBlock fs) := by
  have hlength := h.likewise.length_eq
  cases es with
  | nil =>
      obtain rfl := List.length_eq_zero_iff.mp hlength.symm
      exact h
  | cons e es =>
      obtain ⟨f, fs, rfl⟩ := List.exists_cons_of_length_eq_add_one hlength.symm
      exact h.make id

theorem construct {tag : String} (style : String) (h : Trims ns es fs) (hbody : Trims ms es' fs')
    (hls : (∀ n ∈ ns ++ ms, n.NoLocalCalls) → ∀ l ∈ ls, l.NoLocalCalls) :
    Trims ls [construct tag style attributes es es'] [construct tag style attributes fs fs'] :=
  (h.append hbody.innerBlock).make hls

end Trims

end Export

/-! ## Every tree has such elements

The exporter can fail only where a name has no definition. In settled trees none lacks one, so the elements
exist. -/

theorem Scope.SettlesIdentifier.exists_definition {s : Scope} {u : Use IdentifierKind} {k : Nat}
    (h : s.SettlesIdentifier u k) : ∃ d, s.identifier? u.name u.kind = some d := by
  unfold SettlesIdentifier at h
  cases hkind : u.kind <;> rw [hkind] at h
  · exact h.elim
  · exact h.elim
  · exact Option.isSome_iff_exists.mp h
  · exact Option.isSome_iff_exists.mp h
  · exact Option.isSome_iff_exists.mp h.1
  · exact ⟨_, rfl⟩

theorem Scope.SettlesInstruction.exists_definition {s : Scope} {u : Use InstructionKind}
    (h : s.SettlesInstruction u) : ∃ d, s.instruction? u.name u.kind = some d := by
  unfold SettlesInstruction at h
  cases hkind : u.kind <;> rw [hkind] at h
  · exact h.elim
  · exact h.elim
  · exact Option.isSome_iff_exists.mp h
  · exact Option.isSome_iff_exists.mp h

open Export (Trims)

attribute [local simp] Node.NoLocalCalls Node.callsLocal

variable {s o : Scope} {n : Node} {ns : List Node}

/-- If each expression has its elements then all of them in a row do. -/
theorem exists_trims_expressions (h : ∀ n ∈ ns, ∃ e f, Export.expression o n = .ok e ∧
      Export.expression o n.kept = .ok f ∧ Trims [n] [e] [f]) :
    ∃ es fs, Export.expressions o ns = .ok es ∧ Export.expressions o (ns.map Node.kept) = .ok fs ∧ Trims ns es fs := by
  induction ns with
  | nil => exact ⟨[], [], rfl, rfl, .nil⟩
  | cons n ns ih =>
      obtain ⟨e, f, he, hf, hn⟩ := h n List.mem_cons_self
      obtain ⟨es, fs, hes, hfs, hns⟩ := ih fun m hm => h m (List.mem_cons_of_mem _ hm)
      refine ⟨e :: es, f :: fs, ?_, ?_, hn.append hns⟩
      · rw [Export.expressions, he, hes]
        rfl
      · rw [List.map_cons, Export.expressions, hf, hfs]
        rfl

/-- Each expression has one element. -/
theorem length_expressions {es : List Element} (h : Export.expressions o ns = .ok es) : es.length = ns.length := by
  induction ns generalizing es with
  | nil =>
      cases h
      rfl
  | cons n ns ih =>
      rw [Export.expressions] at h
      cases hn : Export.expression o n with
      | error => rw [hn] at h; cases h
      | ok e =>
          cases hns : Export.expressions o ns with
          | error => rw [hn, hns] at h; cases h
          | ok es =>
              rw [hn, hns] at h
              cases h
              simp [ih hns]

namespace Grammar

/-- The element of a name. Only a local one loses its arguments. -/
theorem trims_identifier {u : Use IdentifierKind} {args : List Node} (hu : Grammar.settled.identifier s u args.length)
    (ih : ∀ a ∈ args, ∃ e f, Export.expression o a = .ok e ∧ Export.expression o a.kept = .ok f ∧ Trims [a] [e] [f])
    (ho : o.globals = s.globals) :
    ∃ e f, Export.expression o (.identifier u args) = .ok e ∧ Export.expression o (Node.identifier u args).kept = .ok f ∧
      Trims [.identifier u args] [e] [f] := by
  obtain ⟨d, hd⟩ := Scope.SettlesIdentifier.exists_definition hu
  rw [← Scope.identifier?_congr ho] at hd
  obtain ⟨es, fs, hes, hfs, htrims⟩ := exists_trims_expressions ih
  have hexport : Export.expression o (.identifier u args) = .ok (Export.defined d false es) := by
    rw [Export.expression, hd, hes]
    rfl
  rw [Node.kept, Node.keptAll_eq_map]
  by_cases hlocal : u.kind = .local_
  · have hvariable : d = Scope.localVariable u.name := by
      rw [hlocal] at hd
      cases hd
      rfl
    subst hvariable
    refine ⟨_, Export.defined (Scope.localVariable u.name) false [], hexport, ?_, ?_⟩
    · rw [if_pos hlocal, Export.expression]
      rw [show o.identifier? u.clearMetadata.name u.clearMetadata.kind = _ from hd]
      rfl
    · show Trims _ [.make "Variable" _ (es ++ [])] [.make "Variable" _ []]
      rw [List.append_nil]
      refine .variableElement ?_
      -- an empty element had no arguments to lose
      rintro rfl
      obtain rfl : args = [] := List.length_eq_zero_iff.mp (length_expressions hes).symm
      simp
  · refine ⟨_, Export.defined d false fs, hexport, ?_, ?_⟩
    · rw [if_neg hlocal, Export.expression]
      rw [show o.identifier? u.clearMetadata.name u.clearMetadata.kind = _ from hd, hfs]
      rfl
    · refine (htrims.append (.constants d.trailing)).make fun hargs => ?_
      rw [List.append_nil] at hargs
      exact List.forall_mem_singleton.mpr (Node.noLocalCalls_identifier.mpr ⟨fun h => absurd h hlocal, hargs⟩)

/-- **The element of an expression and of what is kept of it.** -/
theorem Expression.trims (h : Grammar.settled.Expression s n) (ho : o.globals = s.globals) :
    ∃ e f, Export.expression o n = .ok e ∧ Export.expression o n.kept = .ok f ∧ Trims [n] [e] [f] := by
  induction h with
  | identifier hu _ ih => exact trims_identifier hu ih ho
  | @constant c loc _ =>
      exact ⟨_, _, rfl, rfl, .constant c (by simp)⟩
  -- an operation loses nothing itself: both elements have the same attributes
  | @binary op lhs rhs loc _ _ ihl ihr =>
      obtain ⟨el, fl, hel, hfl, htl⟩ := ihl
      obtain ⟨er, fr, her, hfr, htr⟩ := ihr
      refine ⟨.make op.element (("op", op.symbol) :: op.definition.attributes.entries) [el, er],
        .make op.element (("op", op.symbol) :: op.definition.attributes.entries) [fl, fr], ?_, ?_, ?_⟩
      · rw [Export.expression, Catalog.operator?_symbol, hel, her]
        rfl
      · rw [Node.kept, Export.expression, Catalog.operator?_symbol, hfl, hfr]
        rfl
      · exact (htl.append htr).make (by simp)
  | @negation operand loc _ ih =>
      obtain ⟨e, f, he, hf, ht⟩ := ih
      refine ⟨.make "Not" [("style", "op-not")] [e], .make "Not" [("style", "op-not")] [f], ?_, ?_, ?_⟩
      · rw [Export.expression, if_pos rfl, he]
        rfl
      · rw [Node.kept, Export.expression, if_pos rfl, hf]
        rfl
      · exact ht.make (by simp)
  | @conditional condition consequent alternative loc _ _ _ ihc iht ihe =>
      obtain ⟨ec, fc, hec, hfc, htc⟩ := ihc
      obtain ⟨et, ft, het, hft, htt⟩ := iht
      obtain ⟨ee, fe, hee, hfe, hte⟩ := ihe
      refine ⟨.make "Conditional" [("style", "conditional")] [ec, et, ee],
        .make "Conditional" [("style", "conditional")] [fc, ft, fe], ?_, ?_, ?_⟩
      · rw [Export.expression, hec, het, hee]
        rfl
      · rw [Node.kept, Export.expression, hfc, hft, hfe]
        rfl
      · exact (htc.append (htt.append hte)).make (by simp)

end Grammar

/-- A statement can stand in a block and alone after `else`. -/
structure Export.Trimmed (o : Scope) (n : Node) : Prop where
  statement : ∃ es fs, Export.statement o n = .ok es ∧ Export.statement o n.kept = .ok fs ∧ Trims [n] es fs
  rung : ∃ es fs, Export.rungs o [n] = .ok es ∧ Export.rungs o [n.kept] = .ok fs ∧ Trims [n] es fs

open Export (Trimmed)

/-- If each statement has its elements then all of them in a row do. -/
theorem exists_trims_statements (h : ∀ n ∈ ns, ∃ es fs, Export.statement o n = .ok es ∧
      Export.statement o n.kept = .ok fs ∧ Trims [n] es fs) :
    ∃ es fs, Export.statements o ns = .ok es ∧ Export.statements o (ns.map Node.kept) = .ok fs ∧ Trims ns es fs := by
  induction ns with
  | nil => exact ⟨[], [], rfl, rfl, .nil⟩
  | cons n ns ih =>
      obtain ⟨es, fs, hes, hfs, hn⟩ := h n List.mem_cons_self
      obtain ⟨es', fs', hes', hfs', hns⟩ := ih fun m hm => h m (List.mem_cons_of_mem _ hm)
      refine ⟨es ++ es', fs ++ fs', ?_, ?_, hn.append hns⟩
      · rw [Export.statements, hes, hes']
        rfl
      · rw [List.map_cons, Export.statements, hfs, hfs']
        rfl

theorem Node.isIfElse_kept (n : Node) : n.kept.isIfElse = n.isIfElse := by
  cases n <;> rfl

/-- What stands behind `else` and is no single further condition becomes one last rung on both sides. -/
theorem exists_trims_else (hne : (n.isIfElse && ns.isEmpty) = false)
    (h : ∀ m ∈ n :: ns, ∃ es fs, Export.statement o m = .ok es ∧ Export.statement o m.kept = .ok fs ∧ Trims [m] es fs) :
    ∃ es fs, Export.rungs o (n :: ns) = .ok es ∧ Export.rungs o ((n :: ns).map Node.kept) = .ok fs ∧
      Trims (n :: ns) es fs := by
  obtain ⟨es, fs, hes, hfs, ht⟩ := exists_trims_statements h
  have hkept : (n.kept.isIfElse && (ns.map Node.kept).isEmpty) = false := by
    rw [Node.isIfElse_kept, List.isEmpty_map]
    exact hne
  have hguard : Trims [] [.make "Constant" [("bool", "true")] []] [.make "Constant" [("bool", "true")] []] :=
    Trims.nil.make (by simp)
  have htrims : Trims (n :: ns)
      [Export.construct "ElseIf" "else" [] [.make "Constant" [("bool", "true")] []] es]
      [Export.construct "ElseIf" "else" [] [.make "Constant" [("bool", "true")] []] fs] :=
    .construct _ hguard ht id
  refine ⟨_, _, ?_, ?_, htrims⟩
  · rw [Export.rungs_eq_statements hne, hes]
    rfl
  · rw [List.map_cons] at hfs ⊢
    rw [Export.rungs_eq_statements hkept, hfs]
    rfl

/-- Any statement but a condition stands after `else` as it stands in a block. -/
theorem Export.Trimmed.of_statement {es fs : List Element} (hn : n.isIfElse = false) (hes : Export.statement o n = .ok es)
    (hfs : Export.statement o n.kept = .ok fs) (h : Trims [n] es fs) : Trimmed o n where
  statement := ⟨es, fs, hes, hfs, h⟩
  rung := exists_trims_else (by simp [hn]) (by simpa using ⟨es, hes, fs, hfs, h⟩)

theorem exists_trims_rungs (h : ∀ n ∈ ns, Trimmed o n) :
    ∃ es fs, Export.rungs o ns = .ok es ∧ Export.rungs o (ns.map Node.kept) = .ok fs ∧ Trims ns es fs := by
  match ns with
  | [] => exact ⟨[], [], rfl, rfl, .nil⟩
  | [n] => exact (h n List.mem_cons_self).rung
  | n :: m :: ns => exact exists_trims_else (by simp) fun l hl => (h l hl).statement

namespace Grammar

/-- An instruction has its element with those of its arguments inside. -/
theorem trimmed_instruction {u : Use InstructionKind} {args : List Node} (hu : s.SettlesInstruction u)
    (ha : ∀ a ∈ args, Grammar.settled.Expression s a) (ho : o.globals = s.globals) :
    Trimmed o (.instruction u args) := by
  obtain ⟨d, hd⟩ := Scope.SettlesInstruction.exists_definition hu
  rw [← Scope.instruction?_congr ho] at hd
  obtain ⟨es, fs, hes, hfs, ht⟩ := exists_trims_expressions fun a hm => (ha a hm).trims ho
  have hexport : Export.statement o (.instruction u args) = .ok [Export.defined d true es] := by
    rw [Export.statement, hd, hes]
    rfl
  have hkept : Export.statement o (Node.instruction u args).kept = .ok [Export.defined d true fs] := by
    rw [Node.kept, Node.keptAll_eq_map, Export.statement]
    rw [show o.instruction? u.clearMetadata.name u.clearMetadata.kind = _ from hd, hfs]
    rfl
  refine .of_statement rfl hexport hkept ?_
  exact (ht.append (.constants d.trailing)).make (by simp)

/-- An assignment has one element for its target and one for its value. -/
theorem trimmed_assignment {operator : AssignOperator} {target value : Node} {loc : Option Span}
    (ht : Grammar.settled.Expression s target) (hv : Grammar.settled.Expression s value) (ho : o.globals = s.globals) :
    Trimmed o (.assignment operator target value loc) := by
  obtain ⟨e, f, he, hf, hte⟩ := ht.trims ho
  obtain ⟨e', f', he', hf', hte'⟩ := hv.trims ho
  have htrims : ∀ tag style, Trims [.assignment operator target value loc]
      [Export.construct tag style [] [e, e'] []] [Export.construct tag style [] [f, f'] []] :=
    fun tag style => .construct style (hte.append hte') .nil (by simp)
  cases operator with
  | set =>
      refine .of_statement rfl ?_ ?_ (htrims "SetVariable" "set-variable")
      · rw [Export.statement, he, he']
        rfl
      · rw [Node.kept, Export.statement, hf, hf']
        rfl
  | change =>
      refine .of_statement rfl ?_ ?_ (htrims "ChangeVariable" "change-variable")
      · rw [Export.statement, he, he']
        rfl
      · rw [Node.kept, Export.statement, hf, hf']
        rfl

/-- A wait has the element of its kind. -/
theorem trimmed_wait {kind : WaitKind} {condition : Node} {loc : Option Span}
    (hc : Grammar.settled.Expression s condition) (ho : o.globals = s.globals) :
    Trimmed o (.wait kind condition loc) := by
  obtain ⟨e, f, he, hf, ht⟩ := hc.trims ho
  have htrims : ∀ tag style, Trims [.wait kind condition loc]
      [Export.construct tag style [] [e] []] [Export.construct tag style [] [f] []] :=
    fun tag style => .construct style ht .nil (by simp)
  cases kind with
  | seconds =>
      refine .of_statement rfl ?_ ?_ (htrims "WaitSeconds" "wait-seconds")
      · rw [Export.statement, he]
        rfl
      · rw [Node.kept, Export.statement, hf]
        rfl
  | condition =>
      refine .of_statement rfl ?_ ?_ (htrims "WaitUntil" "wait-until")
      · rw [Export.statement, he]
        rfl
      · rw [Node.kept, Export.statement, hf]
        rfl

/-- A condition has other words after `else`, and what stands behind it is the same in both places. -/
theorem trimmed_ifElse {condition : Node} {consequent alternative : List Node} {loc : Option Span}
    (hc : Grammar.settled.Expression s condition) (ht : ∀ m ∈ consequent, Trimmed o m)
    (he : ∀ m ∈ alternative, Trimmed o m) (ho : o.globals = s.globals) :
    Trimmed o (.ifElse condition consequent alternative loc) := by
  obtain ⟨e, f, he', hf', htc⟩ := hc.trims ho
  obtain ⟨b, b', hb, hb', htb⟩ := exists_trims_statements fun m hm => (ht m hm).statement
  obtain ⟨r, r', hr, hr', htr⟩ := exists_trims_rungs he
  have htrims : ∀ tag style, Trims [.ifElse condition consequent alternative loc]
      (Export.construct tag style [] [e] b :: r) (Export.construct tag style [] [f] b' :: r') := by
    intro tag style
    have hhead : Trims (condition :: consequent) [Export.construct tag style [] [e] b]
        [Export.construct tag style [] [f] b'] := .construct style htc htb id
    refine (hhead.append htr).mono fun hparts => List.forall_mem_singleton.mpr ?_
    rw [List.forall_mem_append, List.forall_mem_cons] at hparts
    exact Node.everywhere_ifElse.mpr ⟨rfl, hparts.1.1, hparts.1.2, hparts.2⟩
  constructor
  · refine ⟨_, _, ?_, ?_, htrims "If" "if"⟩
    · rw [Export.statement, he', hb, hr]
      rfl
    · rw [Node.kept, Node.keptAll_eq_map, Node.keptAll_eq_map, Export.statement, hf', hb', hr']
      rfl
  · refine ⟨_, _, ?_, ?_, htrims "ElseIf" "else-if"⟩
    · rw [Export.rungs, he', hb, hr]
      rfl
    · rw [Node.kept, Node.keptAll_eq_map, Node.keptAll_eq_map, Export.rungs, hf', hb', hr']
      rfl

/-- **The elements of a statement and of what is kept of it**, in a block and alone after `else`. -/
theorem Statement.trimmed (h : Grammar.settled.Statement s n) (ho : o.globals = s.globals) : Trimmed o n := by
  induction h with
  | instruction hu ha => exact trimmed_instruction hu ha ho
  | assignment ht hv => exact trimmed_assignment ht hv ho
  | @comment s text loc _ =>
      have htext : Trims [] [.make "Constant" [("canReplace", "false"), ("style", "comment-text"), ("text", text)] []]
          [.make "Constant" [("canReplace", "false"), ("style", "comment-text"), ("text", text)] []] :=
        Trims.nil.make (by simp)
      have htrims : Trims [.comment text loc] [Export.construct "Comment" "comment" [] _ []]
          [Export.construct "Comment" "comment" [] _ []] :=
        .construct _ htext .nil (by simp)
      exact .of_statement rfl rfl rfl htrims
  | wait hc => exact trimmed_wait hc ho
  | ifElse hc _ _ iht ihe => exact trimmed_ifElse hc (fun m hm => iht m hm ho) (fun m hm => ihe m hm ho) ho
  | @whileLoop s condition body loc hc _ ih =>
      obtain ⟨e, f, he, hf, htc⟩ := hc.trims ho
      obtain ⟨b, b', hb, hb', htb⟩ := exists_trims_statements fun m hm => (ih m hm ho).statement
      have htrims : Trims [.whileLoop condition body loc] [Export.construct "While" "while" [] [e] b]
          [Export.construct "While" "while" [] [f] b'] :=
        .construct _ htc htb (by simp)
      exact .of_statement rfl (by rw [Export.statement, he, hb]; rfl)
        (by rw [Node.kept, Node.keptAll_eq_map, Export.statement, hf, hb']; rfl) htrims
  | @forLoop s head first last step body hf hl ht _ ih =>
      obtain ⟨e₁, f₁, he₁, hf₁, ht₁⟩ := hf.trims ho
      obtain ⟨e₂, f₂, he₂, hf₂, ht₂⟩ := hl.trims ho
      obtain ⟨e₃, f₃, he₃, hf₃, ht₃⟩ := ht.trims ho
      obtain ⟨b, b', hb, hb', htb⟩ := exists_trims_statements fun m hm => (ih m hm ho).statement
      have htrims : Trims [.forLoop head first last step body]
          [Export.construct "For" "for" [("var", head.var)] [e₁, e₂, e₃] b]
          [Export.construct "For" "for" [("var", head.var)] [f₁, f₂, f₃] b'] :=
        .construct _ (ht₁.append (ht₂.append ht₃)) htb (by simp)
      exact .of_statement rfl (by rw [Export.statement, he₁, he₂, he₃, hb]; rfl)
        (by rw [Node.kept, Node.keptAll_eq_map, Export.statement, hf₁, hf₂, hf₃, hb']; rfl) htrims
  | @breakLoop s loc =>
      have htrims : Trims [.breakLoop loc] [.make "Break" [("style", "break")] []] [.make "Break" [("style", "break")] []] :=
        Trims.nil.make (by simp)
      exact .of_statement rfl rfl rfl htrims
  | @repeatLoop s count body loc hc _ ih =>
      obtain ⟨e, f, he, hf, htc⟩ := hc.trims ho
      obtain ⟨b, b', hb, hb', htb⟩ := exists_trims_statements fun m hm => (ih m hm ho).statement
      have htrims : Trims [.repeatLoop count body loc] [Export.construct "Repeat" "repeat" [] [e] b]
          [Export.construct "Repeat" "repeat" [] [f] b'] :=
        .construct _ htc htb (by simp)
      exact .of_statement rfl (by rw [Export.statement, he, hb]; rfl)
        (by rw [Node.kept, Node.keptAll_eq_map, Export.statement, hf, hb']; rfl) htrims

/-- **The elements of statements and of what is kept of them.** -/
theorem Statement.exists_trims (h : ∀ n ∈ ns, Grammar.settled.Statement s n) (ho : o.globals = s.globals) :
    ∃ es fs, Export.statements o ns = .ok es ∧ Export.statements o (ns.map Node.kept) = .ok fs ∧ Trims ns es fs :=
  exists_trims_statements fun n hn => ((h n hn).trimmed ho).statement

end Grammar

end FlightScript
