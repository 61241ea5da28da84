import FlightScript.Proofs.CatalogImport
import FlightScript.Proofs.Formatting

/-!
# `Proofs.ImportExport` — importing undoes exporting

The elements of a tree are read as the tree itself, without its metadata, as long as every name in it has a
definition that takes its arguments. For expressions this goes part by part. A chain of conditions is laid out as
elements side by side, and the importer puts it together again from the elements behind the first one; so what is
shown of statements is shown in front of any further elements that do not continue such a chain.

## Contents

* `Grammar.defined`: trees whose names have definitions that take their arguments;
* `Grammar.Expression.recovered`: an expression is found again in its element;
* `RecoversStatements`, `RecoversRungs`: what the elements of statements, and of what stands after `else`, are
  read as;
* `Grammar.Statement.exists_recovers`: the elements of statements are read as the statements.
-/

namespace FlightScript

open Import (Part)

/-- The trees whose names have definitions that take their arguments. -/
def Grammar.defined : Grammar where
  constant _ := True
  comment _ := True
  identifier s u k := ∃ d, s.identifier? u.name u.kind = some d ∧ d.arity.accepts k
  instruction s u k := ∃ d, s.instruction? u.name u.kind = some d ∧ d.arity.accepts k
  position _ := True
  declaration _ := True
  event _ := True

/-! ## Expressions

An element is read as the expression that it was made from, by induction over the expression. -/

/-- The element of an expression is read as the expression. -/
structure RecoversTree (n : Node) (e : Element) : Prop where
  name : e.name ≠ "Instructions"
  tree : Import.expression e = .ok n.clearMetadata

variable {s o : Scope} {n : Node} {ns : List Node} {e : Element} {es : List Element}

/-- Elements of expressions are parts that were read, and none of them is a block. -/
theorem RecoversTree.parts (h : List.Forall₂ RecoversTree ns es) :
    Part.Are (Import.parts (es.map Child.element)) (ns.map Node.clearMetadata) ∧
      ∀ p ∈ Import.parts (es.map Child.element), p.name ≠ "Instructions" := by
  induction h with
  | nil => simp [Import.parts, Part.Are]
  | cons he _ ih =>
      simp only [List.map_cons, Import.parts, List.forall_mem_cons]
      exact ⟨.cons he.tree ih.1, he.name, ih.2⟩

theorem Import.expression_make (name : String) (attributes : List (String × String)) (children : List Element) :
    Import.expression (.make name attributes children) =
      Import.expressionOf name (.ofList attributes) .synthetic (Import.parts (children.map Child.element)) := by
  rw [Element.make, Import.expression]

theorem recoversTree_constant (c : Constant) (loc : Option Span) :
    RecoversTree (.constant c loc) (Export.constant c) := by
  obtain ⟨kind, value⟩ := c
  cases kind <;> refine ⟨by simp [Export.constant, Element.make], ?_⟩ <;>
    simp [Export.constant, Import.expression_make, Import.expressionOf, Import.constant, Import.textOf,
      NameMap.ofList, NameMap.get?_empty, NameMap.get?_insert_self, NameMap.get?_insert_of_ne, Node.clearMetadata]

/-- A use of a definition: its attributes are those of the definition, and its constants follow the arguments. -/
theorem parts_defined {d : Definition} {hasId : Bool} (h : List.Forall₂ RecoversTree ns es) :
    Attributes.Alike (Export.defined d hasId es).attributes d.attributes ∧
    Part.Are (Import.parts (Export.defined d hasId es).children)
      (ns.map Node.clearMetadata ++ d.trailing.map (Node.constant · none)) ∧
    ∀ p ∈ Import.parts (Export.defined d hasId es).children, p.name ≠ "Instructions" := by
  have halike : Attributes.Alike (Export.defined d hasId es).attributes d.attributes := by
    cases hasId with
    | true => exact Attributes.alike_id "" d.attributes
    | false =>
        intro name _
        exact (NameMap.get?_ofList_append [] d.attributes name).trans (Option.or_none)
  have htrailing : List.Forall₂ RecoversTree (d.trailing.map (Node.constant · none)) (d.trailing.map Export.constant) := by
    rw [List.forall₂_map_left_iff, List.forall₂_map_right_iff, List.forall₂_same]
    exact fun c _ => recoversTree_constant c none
  obtain ⟨hparts, hnames⟩ := @RecoversTree.parts (ns ++ _) (es ++ _) (List.rel_append h htrailing)
  have hclear : (ns ++ d.trailing.map (Node.constant · none)).map Node.clearMetadata =
      ns.map Node.clearMetadata ++ d.trailing.map (Node.constant · none) := by
    rw [List.map_append, List.map_map]
    rfl
  rw [hclear] at hparts
  exact ⟨halike, hparts, hnames⟩

/-- The elements of several trees, if each has one. -/
theorem exists_expressions (h : ∀ n ∈ ns, ∃ e, Export.expression s n = .ok e ∧ RecoversTree n e) :
    ∃ es, Export.expressions s ns = .ok es ∧ List.Forall₂ RecoversTree ns es := by
  induction ns with
  | nil => exact ⟨[], rfl, .nil⟩
  | cons n ns ih =>
      obtain ⟨e, he, hr⟩ := h n List.mem_cons_self
      obtain ⟨es, hes, hrs⟩ := ih fun m hm => h m (List.mem_cons_of_mem _ hm)
      refine ⟨e :: es, ?_, .cons hr hrs⟩
      rw [Export.expressions, he, hes]
      rfl

/-- An operator is found again by its symbol. -/
theorem Import.expressionOf_operator (op : Operator) {a : Attributes} (ha : a.get? "op" = some op.symbol) (span : Span)
    (parts : List Part) : Import.expressionOf op.element a span parts = Import.binary op.symbol parts := by
  have helement : op.element = "BinaryOp" ∧ binaryFunctions.contains op.symbol = false ∨
      op.element = "BoolOp" ∨ op.element = "Comparison" := by
    cases op <;> decide
  have hop : (a.get? "op").getD "+" = op.symbol := by rw [ha, Option.getD_some]
  rcases helement with ⟨helement, hfunction⟩ | helement | helement
  · rw [helement]
    show (if binaryFunctions.contains ((a.get? "op").getD "+") then _ else
      Import.binary ((a.get? "op").getD "+") parts) = _
    rw [hop, hfunction]
    rfl
  · rw [helement, ← hop]
    rfl
  · rw [helement, ← hop]
    rfl

/-- The attributes of an operation name its operator. -/
theorem Operator.get?_op (op : Operator) :
    (NameMap.ofList (("op", op.symbol) :: op.definition.attributes.entries)).get? "op" = some op.symbol := by
  have h := NameMap.get?_ofList_append [("op", op.symbol)] op.definition.attributes "op"
  rw [List.singleton_append] at h
  rw [h]
  cases op <;> rfl

/-- **The element of an expression is read as the expression.** Local names have no influence on the element, so the
exporter may be anywhere in the program. -/
theorem Grammar.Expression.recovered (h : Grammar.defined.Expression s n) (ho : o.globals = s.globals)
    (hs : o.globals.Declared) : ∃ e, Export.expression o n = .ok e ∧ RecoversTree n e := by
  induction h with
  | @identifier u args hd _ ih =>
      obtain ⟨d, hd, hk⟩ := hd
      rw [← Scope.identifier?_congr ho] at hd
      obtain ⟨es, hes, hr⟩ := exists_expressions ih
      obtain ⟨hname, hrecovers⟩ := Scope.recovers_identifier hs hd
      obtain ⟨halike, hparts, _⟩ := @parts_defined args es d false hr
      refine ⟨Export.defined d false es, ?_, hrecovers.element, ?_⟩
      · rw [Export.expression, hd, hes]
        rfl
      · have htree := hrecovers.tree _ .synthetic _ _ halike (by simpa using hk) hparts
        rw [hname] at htree
        rw [Node.clearMetadata, Node.clearMetadataAll_eq_map]
        exact (Import.expression_make _ _ _).trans htree
  | @constant c loc _ => exact ⟨Export.constant c, rfl, recoversTree_constant c loc⟩
  | @binary op lhs rhs loc _ _ ihl ihr =>
      obtain ⟨l, hl, hrl⟩ := ihl
      obtain ⟨r, hr, hrr⟩ := ihr
      refine ⟨.make op.element (("op", op.symbol) :: op.definition.attributes.entries) [l, r], ?_, ?_, ?_⟩
      · rw [Export.expression, Catalog.operator?_symbol, hl, hr]
        rfl
      · cases op <;> simp [Element.make, Operator.element]
      · obtain ⟨hparts, _⟩ := RecoversTree.parts (.cons hrl (.cons hrr .nil))
        rw [Import.expression_make, Import.expressionOf_operator op op.get?_op, Import.binary,
          Part.Are.at?_zero hparts, Part.Are.at?_one hparts]
        rfl
  | @negation operand loc _ ih =>
      obtain ⟨e, he, hr⟩ := ih
      obtain ⟨hparts, _⟩ := RecoversTree.parts (.cons hr .nil)
      refine ⟨.make "Not" [("style", "op-not")] [e], ?_, by simp [Element.make], ?_⟩
      · rw [Export.expression, if_pos rfl, he]
        rfl
      · rw [Import.expression_make]
        show (do return Node.unary "not" (← Part.first _) none) = _
        rw [Part.Are.first hparts]
        rfl
  | @conditional condition consequent alternative loc _ _ _ ihc iht ihe =>
      obtain ⟨c, hc, hrc⟩ := ihc
      obtain ⟨t, ht, hrt⟩ := iht
      obtain ⟨e, he, hre⟩ := ihe
      obtain ⟨hparts, _⟩ := RecoversTree.parts (.cons hrc (.cons hrt (.cons hre .nil)))
      refine ⟨.make "Conditional" [("style", "conditional")] [c, t, e], ?_, by simp [Element.make], ?_⟩
      · rw [Export.expression, hc, ht, he]
        rfl
      · rw [Import.expression_make]
        show (do
          let c ← Part.at? _ 0
          let t ← Part.at? _ 1
          let e ← Part.at? _ 2
          return Node.conditional c t e none) = _
        rw [Part.Are.at?_zero hparts, Part.Are.at?_one hparts, Part.Are.at?_two hparts]
        rfl

/-! ## Statements

Chains of conditions make this more than a map over statements: the elements of one chain stand side by side with
the statements behind it. -/

/-- In front of elements that do not continue a chain of conditions, the elements of statements are read as the
statements, and do not continue a chain either. -/
def RecoversStatements (ns : List Node) (es : List Element) : Prop :=
  ∀ (rest : List (Child Element)) (ms : List Node), Import.alternative rest = .ok [] → Import.statements rest = .ok ms →
    Import.alternative (es.map Child.element ++ rest) = .ok [] ∧
      Import.statements (es.map Child.element ++ rest) = .ok (ns.map Node.clearMetadata ++ ms)

/-- In front of such elements, the elements of what stands after `else` are read as the alternative of a condition,
and are no statements. -/
def RecoversRungs (ns : List Node) (es : List Element) : Prop :=
  ∀ rest : List (Child Element), Import.alternative rest = .ok [] →
    Import.alternative (es.map Child.element ++ rest) = .ok (ns.map Node.clearMetadata) ∧
      Import.statements (es.map Child.element ++ rest) = Import.statements rest

theorem RecoversStatements.nil : RecoversStatements [] [] := fun _ _ halt hrest => ⟨halt, hrest⟩

/-- Statements in front of others. The chain of the first ones ends where the others begin. -/
theorem RecoversStatements.append {ms : List Node} {fs : List Element} (h : RecoversStatements ns es)
    (h' : RecoversStatements ms fs) : RecoversStatements (ns ++ ms) (es ++ fs) := by
  intro rest ls halt hrest
  obtain ⟨halt', hrest'⟩ := h' rest ls halt hrest
  rw [List.map_append, List.append_assoc, List.map_append, List.append_assoc]
  exact h _ _ halt' hrest'

theorem RecoversStatements.statements (h : RecoversStatements ns es) :
    Import.statements (es.map Child.element) = .ok (ns.map Node.clearMetadata) := by
  have hall := (h [] [] (by rw [Import.alternative]) (by rw [Import.statements])).2
  rwa [List.append_nil, List.append_nil] at hall

/-- The block of a construct is found behind its arguments. -/
theorem RecoversStatements.body (h : RecoversStatements ns es) (args : List Element)
    (hargs : ∀ a ∈ args, a.name ≠ "Instructions") :
    Import.body ((args ++ Export.innerBlock es).map Child.element) = .ok (ns.map Node.clearMetadata) := by
  have hall := h.statements
  induction args with
  | cons a args ih =>
      obtain ⟨hname, hargs'⟩ := List.forall_mem_cons.mp hargs
      obtain ⟨name, attributes, children, span⟩ := a
      rw [List.cons_append, List.map_cons, Import.body, if_neg hname]
      exact ih hargs'
  | nil =>
      cases es with
      | nil =>
          rw [List.map_nil, Import.statements] at hall
          rw [← hall, List.nil_append]
          exact Import.body.eq_1
      | cons e es =>
          show Import.body [.element (.make "Instructions" [] (e :: es))] = _
          rw [Element.make, Import.body, if_pos rfl, hall]

/-- An element that is no construct is one statement. -/
theorem RecoversStatements.of_simple (hname : e.name ∉ Definition.constructs)
    (htree : Import.simpleStatement e.name e.attributes e.children (Import.parts e.children) =
      .ok n.clearMetadata) : RecoversStatements [n] [e] := by
  intro rest ms _ hrest
  obtain ⟨name, attributes, children, span⟩ := e
  simp only [Definition.constructs, List.mem_cons, not_or] at hname
  constructor
  · rw [List.map_singleton, List.singleton_append, Import.alternative, if_neg hname.2.1]
  · rw [List.map_singleton, List.singleton_append, Import.statements, htree, hrest]
    · rfl
    all_goals simp [hname]

/-- The elements of several statements, if each has some. -/
theorem exists_statements (h : ∀ n ∈ ns, ∃ es, Export.statement s n = .ok es ∧ RecoversStatements [n] es) :
    ∃ es, Export.statements s ns = .ok es ∧ RecoversStatements ns es := by
  induction ns with
  | nil => exact ⟨[], rfl, .nil⟩
  | cons n ns ih =>
      obtain ⟨es, hes, hr⟩ := h n List.mem_cons_self
      obtain ⟨fs, hfs, hrs⟩ := ih fun m hm => h m (List.mem_cons_of_mem _ hm)
      refine ⟨es ++ fs, ?_, hr.append hrs⟩
      rw [Export.statements, hes, hfs]
      rfl

theorem RecoversTree.first (h : RecoversTree n e) (args : List Element) :
    Part.first (Import.parts (([e] ++ args).map Child.element)) = .ok n.clearMetadata := by
  rw [List.singleton_append, List.map_cons, Import.parts]
  exact h.tree

/-- Anything after `else` but a single condition is guarded by a constant. -/
theorem RecoversRungs.of_else (h : RecoversStatements ns es) : RecoversRungs ns
    [Export.construct "ElseIf" "else" [] [.make "Constant" [("bool", "true")] []] es] := by
  intro rest _
  have hbody := h.body [.make "Constant" [("bool", "true")] []] (by simp [Element.make])
  have hstyle : (NameMap.ofList [Export.idSlot, ("style", "else")]).get? "style" = some "else" := by
    simp [NameMap.ofList, Export.idSlot, NameMap.get?_insert_self]
  rw [List.map_singleton, List.singleton_append, Export.construct, Element.make]
  constructor
  · rw [Import.alternative, if_pos rfl, List.nil_append, if_pos hstyle]
    exact hbody
  · rw [Import.statements]

/-- A single condition after `else` goes on with the chain. -/
theorem RecoversRungs.of_condition {condition : Node} {consequent alternative : List Node} {loc : Option Span}
    {c : Element} {b rungs : List Element} (hc : RecoversTree condition c) (hb : RecoversStatements consequent b)
    (ha : RecoversRungs alternative rungs) :
    RecoversRungs [.ifElse condition consequent alternative loc]
      (Export.construct "ElseIf" "else-if" [] [c] b :: rungs) := by
  intro rest hrest
  obtain ⟨halt, hstatements⟩ := ha rest hrest
  have hbody := hb.body [c] (by simpa using hc.name)
  have hstyle : (NameMap.ofList [Export.idSlot, ("style", "else-if")]).get? "style" ≠ some "else" := by
    simp [NameMap.ofList, Export.idSlot, NameMap.get?_insert_self]
  rw [List.map_cons, List.cons_append, Export.construct, Element.make]
  constructor
  · rw [Import.alternative, if_pos rfl, List.nil_append, if_neg hstyle, halt, hc.first, hbody, List.map_singleton,
      Node.clearMetadata, Node.clearMetadataAll_eq_map, Node.clearMetadataAll_eq_map]
    rfl
  · rw [Import.statements]
    exact hstatements

/-- What stands behind `else` and is no single condition becomes one last rung with a condition that always
holds. -/
theorem Export.rungs_eq_statements (h : (n.isIfElse && ns.isEmpty) = false) :
    Export.rungs s (n :: ns) = (do
      let es ← Export.statements s (n :: ns)
      return [construct "ElseIf" "else" [] [.make "Constant" [("bool", "true")] []] es]) := by
  rw [Export.rungs_cons s h, Export.statements]
  cases Export.statement s n with
  | error _ => rfl
  | ok es => cases Export.statements s ns <;> rfl

/-- A statement can stand in a block and alone after `else`. -/
structure Recovers (s : Scope) (n : Node) : Prop where
  statement : ∃ es, Export.statement s n = .ok es ∧ RecoversStatements [n] es
  rung : ∃ es, Export.rungs s [n] = .ok es ∧ RecoversRungs [n] es

theorem exists_else (hne : (n.isIfElse && ns.isEmpty) = false)
    (h : ∀ m ∈ n :: ns, ∃ es, Export.statement s m = .ok es ∧ RecoversStatements [m] es) :
    ∃ es, Export.rungs s (n :: ns) = .ok es ∧ RecoversRungs (n :: ns) es := by
  obtain ⟨es, hes, hr⟩ := exists_statements h
  refine ⟨_, ?_, .of_else hr⟩
  rw [Export.rungs_eq_statements hne, hes]
  rfl

/-- Any statement but a condition stands after `else` as it stands in a block. -/
theorem Recovers.of_statement (hn : n.isIfElse = false) (he : Export.statement s n = .ok es)
    (h : RecoversStatements [n] es) : Recovers s n where
  statement := ⟨es, he, h⟩
  rung := exists_else (by simpa using hn) (by simpa using ⟨es, he, h⟩)

/-- The elements of what stands after `else`. -/
theorem exists_rungs (h : ∀ n ∈ ns, Recovers s n) : ∃ es, Export.rungs s ns = .ok es ∧ RecoversRungs ns es := by
  match ns with
  | [] => exact ⟨[], rfl, fun rest hrest => ⟨hrest, rfl⟩⟩
  | [n] => exact (h n List.mem_cons_self).rung
  | n :: m :: ns => exact exists_else (by simp) fun l hl => (h l hl).statement

/-! One lemma for each construct with a block. -/

section Constructs

variable {condition first last step : Node} {body consequent alternative : List Node} {loc : Option Span}
  {c f l t : Element} {b rungs : List Element}

/-- A branching is found again in the elements of its chain, the first of which holds its condition and its first
body. -/
theorem RecoversStatements.ifElse (hc : RecoversTree condition c) (hb : RecoversStatements consequent b)
    (ha : RecoversRungs alternative rungs) :
    RecoversStatements [.ifElse condition consequent alternative loc] (Export.construct "If" "if" [] [c] b :: rungs) := by
  intro rest ms hrest hms
  obtain ⟨halt, hstatements⟩ := ha rest hrest
  rw [List.map_cons, List.cons_append, Export.construct, Element.make]
  constructor
  · rw [Import.alternative, if_neg (by decide)]
  · rw [Import.statements, halt, hc.first, hb.body [c] (by simpa using hc.name), hstatements, hms,
      List.map_singleton, Node.clearMetadata, Node.clearMetadataAll_eq_map, Node.clearMetadataAll_eq_map]
    rfl

theorem RecoversStatements.whileLoop (hc : RecoversTree condition c) (hb : RecoversStatements body b) :
    RecoversStatements [.whileLoop condition body loc] [Export.construct "While" "while" [] [c] b] := by
  intro rest ms hrest hms
  rw [List.map_singleton, List.singleton_append, Export.construct, Element.make]
  constructor
  · rw [Import.alternative, if_neg (by decide)]
  · rw [Import.statements, hc.first, hb.body [c] (by simpa using hc.name), hms, List.map_singleton,
      Node.clearMetadata, Node.clearMetadataAll_eq_map]
    rfl

theorem RecoversStatements.repeatLoop (hc : RecoversTree condition c) (hb : RecoversStatements body b) :
    RecoversStatements [.repeatLoop condition body loc] [Export.construct "Repeat" "repeat" [] [c] b] := by
  intro rest ms hrest hms
  rw [List.map_singleton, List.singleton_append, Export.construct, Element.make]
  constructor
  · rw [Import.alternative, if_neg (by decide)]
  · rw [Import.statements, hc.first, hb.body [c] (by simpa using hc.name), hms, List.map_singleton,
      Node.clearMetadata, Node.clearMetadataAll_eq_map]
    rfl

/-- A counting loop is found again; its variable is an attribute of its element, and the three bounds stand
before its block. -/
theorem RecoversStatements.forLoop {head : ForHead} (hf : RecoversTree first f) (hl : RecoversTree last l)
    (ht : RecoversTree step t) (hb : RecoversStatements body b) :
    RecoversStatements [.forLoop head first last step body]
      [Export.construct "For" "for" [("var", head.var)] [f, l, t] b] := by
  intro rest ms hrest hms
  have hvar : (NameMap.ofList [("var", head.var), Export.idSlot, ("style", "for")]).get? "var" = some head.var := by
    simp [NameMap.ofList, Export.idSlot, NameMap.get?_insert_self, NameMap.get?_insert_of_ne]
  have hparts : Import.parts (([f, l, t] ++ Export.innerBlock b).map Child.element) =
      ⟨f.name, Import.expression f⟩ :: ⟨l.name, Import.expression l⟩ :: ⟨t.name, Import.expression t⟩ ::
        Import.parts ((Export.innerBlock b).map Child.element) := by
    simp [Import.parts]
  rw [List.map_singleton, List.singleton_append, Export.construct, Element.make]
  constructor
  · rw [Import.alternative, if_neg (by decide)]
  · rw [Import.statements, hparts, hb.body [f, l, t] (by simp [hf.name, hl.name, ht.name]), hms]
    show (do
      let f ← Import.expression f
      let l ← Import.expression l
      let t ← Import.expression t
      return Node.forLoop _ f l t _ :: ms) = _
    rw [hf.tree, hl.tree, ht.tree, List.singleton_append, hvar, List.map_singleton, Node.clearMetadata,
      Node.clearMetadataAll_eq_map]
    rfl

end Constructs

/-- A statement without a block: its arguments are all there is in its element. -/
theorem RecoversStatements.of_construct {tag style : String} (htag : tag ∉ Definition.constructs)
    (h : List.Forall₂ RecoversTree ns es)
    (htree : ∀ (a : Attributes) (children : List (Child Element)) (parts : List Part),
      Part.Are parts (ns.map Node.clearMetadata) →
      Import.simpleStatement tag a children parts = .ok n.clearMetadata) :
    RecoversStatements [n] [Export.construct tag style [] es []] := by
  refine .of_simple htag (htree _ _ _ ?_)
  show Part.Are (Import.parts ((es ++ []).map Child.element)) _
  rw [List.append_nil]
  exact (RecoversTree.parts h).1

theorem recoversStatements_comment (text : String) (loc : Option Span) : RecoversStatements [.comment text loc]
    [Export.construct "Comment" "comment" []
      [.make "Constant" [("canReplace", "false"), ("style", "comment-text"), ("text", text)] []] []] := by
  refine .of_simple (show "Comment" ∉ Definition.constructs by decide) ?_
  show Except.ok (Node.comment (Import.commentText _) none) = _
  simp [Export.construct, Export.innerBlock, Element.make, Import.commentText, Element.elementsOf, Element.attr?,
    NameMap.ofList, NameMap.get?_insert_self, Node.clearMetadata]

namespace Grammar

/-- An instruction is found again by its definition, with all of its arguments. -/
theorem recovers_instruction {u : Use InstructionKind} {args : List Node} (hu : defined.instruction s u args.length)
    (ha : ∀ a ∈ args, Grammar.defined.Expression s a) (ho : o.globals = s.globals) (hs : o.globals.Declared) :
    Recovers o (.instruction u args) := by
  obtain ⟨d, hd, hk⟩ := hu
  rw [← Scope.instruction?_congr ho] at hd
  obtain ⟨es, hes, hr⟩ := exists_expressions fun a hm => (ha a hm).recovered ho hs
  obtain ⟨hname, hrecovers⟩ := Scope.recovers_instruction hs hd
  obtain ⟨halike, hparts, hnames⟩ := @parts_defined args es d true hr
  have htree := hrecovers.tree _ (Export.defined d true es).children _ _ halike (by simpa using hk) hnames hparts
  have hexport : Export.statement o (.instruction u args) = .ok [Export.defined d true es] := by
    rw [Export.statement, hd, hes]
    rfl
  refine .of_statement rfl hexport (.of_simple hrecovers.element ?_)
  rw [hname] at htree
  rw [Node.clearMetadata, Node.clearMetadataAll_eq_map]
  exact htree

/-- An assignment is found again, with the target and the value as its two parts. -/
theorem recovers_assignment {operator : AssignOperator} {target value : Node} {loc : Option Span}
    (ht : Grammar.defined.Expression s target) (hv : Grammar.defined.Expression s value) (ho : o.globals = s.globals)
    (hs : o.globals.Declared) : Recovers o (.assignment operator target value loc) := by
  obtain ⟨t, het, hrt⟩ := ht.recovered ho hs
  obtain ⟨v, hev, hrv⟩ := hv.recovered ho hs
  have hargs : List.Forall₂ RecoversTree [target, value] [t, v] := .cons hrt (.cons hrv .nil)
  have htree : ∀ parts, Part.Are parts ([target, value].map Node.clearMetadata) →
      (do
        let t ← Part.at? parts 0
        let v ← Part.at? parts 1
        return Node.assignment operator t v none) =
      .ok (Node.assignment operator target value loc).clearMetadata := by
    intro parts hparts
    rw [Part.Are.at?_zero hparts, Part.Are.at?_one hparts]
    rfl
  cases operator with
  | set =>
      have hset : RecoversStatements [.assignment .set target value loc]
          [Export.construct "SetVariable" "set-variable" [] [t, v] []] :=
        .of_construct (by decide) hargs fun _ _ parts => htree parts
      exact .of_statement rfl (by rw [Export.statement, het, hev]; rfl) hset
  | change =>
      have hchange : RecoversStatements [.assignment .change target value loc]
          [Export.construct "ChangeVariable" "change-variable" [] [t, v] []] :=
        .of_construct (by decide) hargs fun _ _ parts => htree parts
      exact .of_statement rfl (by rw [Export.statement, het, hev]; rfl) hchange

/-- A wait is found again by the name of its element, which tells its kind. -/
theorem recovers_wait {kind : WaitKind} {condition : Node} {loc : Option Span}
    (hc : Grammar.defined.Expression s condition) (ho : o.globals = s.globals) (hs : o.globals.Declared) :
    Recovers o (.wait kind condition loc) := by
  obtain ⟨c, hec, hrc⟩ := hc.recovered ho hs
  have htree : ∀ parts, Part.Are parts ([condition].map Node.clearMetadata) →
      (do return Node.wait kind (← Part.first parts) none) =
      .ok (Node.wait kind condition loc).clearMetadata := by
    intro parts hparts
    rw [Part.Are.first hparts]
    rfl
  cases kind with
  | seconds =>
      have hseconds : RecoversStatements [.wait .seconds condition loc]
          [Export.construct "WaitSeconds" "wait-seconds" [] [c] []] :=
        .of_construct (by decide) (.cons hrc .nil) fun _ _ parts => htree parts
      exact .of_statement rfl (by rw [Export.statement, hec]; rfl) hseconds
  | condition =>
      have hcondition : RecoversStatements [.wait .condition condition loc]
          [Export.construct "WaitUntil" "wait-until" [] [c] []] :=
        .of_construct (by decide) (.cons hrc .nil) fun _ _ parts => htree parts
      exact .of_statement rfl (by rw [Export.statement, hec]; rfl) hcondition

/-- **A statement is found again in its elements**, in a block and alone after `else`. -/
theorem Statement.recovers (h : Grammar.defined.Statement s n) (ho : o.globals = s.globals)
    (hs : o.globals.Declared) : Recovers o n := by
  induction h with
  | instruction hd ha => exact recovers_instruction hd ha ho hs
  | assignment ht hv => exact recovers_assignment ht hv ho hs
  | @comment s text loc _ => exact .of_statement rfl rfl (recoversStatements_comment text loc)
  | wait hc => exact recovers_wait hc ho hs
  | ifElse hc _ _ iht ihe =>
      obtain ⟨c, hec, hrc⟩ := hc.recovered ho hs
      obtain ⟨b, heb, hrb⟩ := exists_statements fun m hm => (iht m hm ho).statement
      obtain ⟨rungs, hea, hra⟩ := exists_rungs fun m hm => ihe m hm ho
      -- a chain of conditions is written with `If` in a block and with `ElseIf` after another condition
      constructor
      · exact ⟨_, by rw [Export.statement, hec, heb, hea]; rfl, .ifElse hrc hrb hra⟩
      · exact ⟨_, by rw [Export.rungs, hec, heb, hea]; rfl, .of_condition hrc hrb hra⟩
  | whileLoop hc _ ih =>
      obtain ⟨c, hec, hrc⟩ := hc.recovered ho hs
      obtain ⟨b, heb, hrb⟩ := exists_statements fun m hm => (ih m hm ho).statement
      exact .of_statement rfl (by rw [Export.statement, hec, heb]; rfl) (.whileLoop hrc hrb)
  | forLoop hf hl ht _ ih =>
      obtain ⟨f, hef, hrf⟩ := hf.recovered ho hs
      obtain ⟨l, hel, hrl⟩ := hl.recovered ho hs
      obtain ⟨t, het, hrt⟩ := ht.recovered ho hs
      obtain ⟨b, heb, hrb⟩ := exists_statements fun m hm => (ih m hm ho).statement
      exact .of_statement rfl (by rw [Export.statement, hef, hel, het, heb]; rfl) (.forLoop hrf hrl hrt hrb)
  | breakLoop => exact .of_statement rfl rfl (.of_simple (show "Break" ∉ Definition.constructs by decide) rfl)
  | repeatLoop hc _ ih =>
      obtain ⟨c, hec, hrc⟩ := hc.recovered ho hs
      obtain ⟨b, heb, hrb⟩ := exists_statements fun m hm => (ih m hm ho).statement
      exact .of_statement rfl (by rw [Export.statement, hec, heb]; rfl) (.repeatLoop hrc hrb)

/-- **The elements of statements are read as the statements**, in the scope of any program whose names they use. -/
theorem Statement.exists_recovers (h : ∀ n ∈ ns, Grammar.defined.Statement s n) (ho : o.globals = s.globals)
    (hs : o.globals.Declared) : ∃ es, Export.statements o ns = .ok es ∧ RecoversStatements ns es :=
  exists_statements fun n hn => ((h n hn).recovers ho hs).statement

end Grammar

end FlightScript
