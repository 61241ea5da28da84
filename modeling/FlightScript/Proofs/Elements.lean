import FlightScript.Proofs.Markup
import FlightScript.Proofs.Metadata

/-!
# `Proofs.Elements` — what the elements of a document are made of

The names of elements and attributes are a fixed list of words; the names and texts of a program stand in values only.
So whatever tree a document is made from, its elements have names that can be written and read back. A position is given
to the first element of a block and to declared expressions, and to nothing else.

## Contents

* `Export.tagWords`, `Export.keyWords`: the words;
* `Definition.Worded`: definitions whose elements are made of them;
* `Element.Unplaced`: elements made of these words, without a position;
* `Export.Gives`: what the results of exporting have in common;
* `Export.Inherited`, `Export.gives_expression`: what elements have if those in them do;
* `Export.unplaced_statement`, `Export.plain_root`: the elements of statements and of all trees.
-/

namespace FlightScript

open Markup (Plain)

/-! ## Words

The names of elements fall into groups, and an element of a group can only stand at certain places. -/

namespace Export

/-- The elements that begin a handler or a declared instruction. -/
def headNames : List String := ["Event", "CustomInstruction"]

/-- The elements of statements, but for the one that leaves a loop. -/
def statementNames : List String :=
  ["If", "ElseIf", "While", "Repeat", "For", "WaitSeconds", "WaitUntil", "SetVariable", "ChangeVariable", "Comment",
   "CallCustomInstruction", "ActivateStage", "SetTarget", "SetActivationGroup", "SwitchCraft", "SetCraftProperty",
   "UserInput", "SetInput", "LockNavSphere", "SetTargetHeading", "SetTimeMode", "DisplayMessage", "LogMessage",
   "LogFlight", "SetCameraProperty", "SetList", "BroadcastMessage"]

/-- The elements of expressions. -/
def expressionNames : List String :=
  ["Constant", "Variable", "BinaryOp", "Comparison", "BoolOp", "Not", "Conditional", "MathFunction", "Vector",
   "VectorOp", "StringOp", "Planet", "ListOp", "ActivationGroup", "CraftProperty", "EvaluateExpression",
   "CallCustomExpression"]

/-- The elements that stand neither in a block nor for an expression. -/
def frameNames : List String := ["Program", "Variables", "Items", "Expressions", "CustomExpression"]

/-- The names of all elements. -/
def tagWords : List String :=
  headNames ++ statementNames ++ expressionNames ++ frameNames ++ ["Instructions", "Break"]

/-- The names of attributes, ids and positions apart. -/
def keyWords : List String :=
  ["style", "number", "text", "bool", "vector", "name", "op", "subOp", "function", "property", "input", "indicatorType",
   "mode", "global", "local", "list", "variableName", "call", "callFormat", "format", "event", "var", "canReplace"]

theorem plain_tagWords : ∀ w ∈ tagWords, Markup.isPlainName w = true := by decide +kernel

theorem plain_keyWords : ∀ w ∈ "id" :: keyWords, Markup.isPlainName w = true ∧ w ≠ "xmlns" ∧ w ≠ "pos" := by
  decide +kernel

theorem mem_tagWords_of_expression {w : String} (h : w ∈ expressionNames) : w ∈ tagWords := by
  simp only [tagWords, List.mem_append]
  exact .inl (.inl (.inr h))

theorem mem_tagWords_of_statement {w : String} (h : w ∈ statementNames) : w ∈ tagWords := by
  simp only [tagWords, List.mem_append]
  exact .inl (.inl (.inl (.inr h)))

theorem keyWords_ne_id : ∀ w ∈ keyWords, w ≠ "id" := by decide +kernel

end Export

open Export (headNames statementNames expressionNames frameNames tagWords keyWords)

section Words

attribute [local simp] headNames statementNames expressionNames frameNames tagWords keyWords Export.idSlot

/-- Every entry of a map comes from the list that it was made from. -/
theorem NameMap.mem_ofList {α : Type} {es : List (String × α)} {e : String × α} (h : e ∈ (ofList es).entries) : e ∈ es := by
  have hfold : ∀ (es : List (String × α)) (m : NameMap α),
      e ∈ (es.foldl (fun m e => m.insert e.1 e.2) m).entries → e ∈ es ∨ e ∈ m.entries := by
    intro es
    induction es with
    | nil => intro m hm; exact .inr hm
    | cons d es ih =>
        intro m hm
        rcases ih _ hm with hin | hin
        · exact .inl (List.mem_cons_of_mem _ hin)
        · rcases NameMap.mem_insertEntry hin with rfl | hin
          · exact .inl List.mem_cons_self
          · exact .inr hin
  simpa [empty] using hfold es empty h

/-- A definition whose elements have certain names, and known attributes other than an id. -/
structure Definition.Worded (names : List String) (d : Definition) : Prop where
  element : d.element ∈ names
  keys : ∀ e ∈ d.attributes.entries, e.1 ∈ keyWords

/-- A definition with fixed attributes is made of words if these are. -/
theorem Definition.Worded.of_words {names : List String} {name element : String} {arity : Arity}
    {attributes : List (String × String)} {trailing : List Constant}
    (h : element ∈ names ∧ ∀ e ∈ attributes, e.1 ∈ keyWords) :
    Definition.Worded names ⟨name, element, .ofList attributes, trailing, arity⟩ :=
  ⟨h.1, fun e he => h.2 e (NameMap.mem_ofList he)⟩

namespace Catalog

/-- Every builtin name in an expression has such a definition, which is found by going through the catalog. -/
theorem worded_expressions : ∀ d ∈ expressions, d.Worded expressionNames := by
  have hproperty : ∀ style arity name, (craftProperty style arity name).Worded expressionNames :=
    fun _ _ _ => .of_words (by simp)
  simp only [expressions, mathExpressions, vectorExpressions, stringExpressions, planetExpressions, listExpressions,
    otherExpressions, propertyExpressions, displayExpressions, List.cons_append, List.forall_mem_append,
    List.forall_mem_map, List.forall_mem_cons, List.not_mem_nil, hproperty, false_imp_iff, implies_true, true_and,
    and_true]
  and_intros
  all_goals intros; exact .of_words (by simp)

/-- And so has every builtin instruction. -/
theorem worded_instructions : ∀ d ∈ instructions, d.Worded statementNames := by
  have hproperty : ∀ style arity name, (propertySetter style arity name).Worded statementNames :=
    fun _ _ _ => .of_words (by simp)
  simp only [instructions, basicInstructions, navigationInstructions, outputInstructions, partInstructions,
    broadcastInstructions, displayInstructions, List.cons_append, List.forall_mem_append, List.forall_mem_map,
    List.forall_mem_cons, List.forall_mem_flatMap, List.not_mem_nil, hproperty, false_imp_iff, implies_true, true_and,
    and_true]
  and_intros
  all_goals intros; exact .of_words (by simp)

end Catalog

/-- Every operator has such a definition. -/
theorem Operator.worded_definition (op : Operator) : op.definition.Worded expressionNames :=
  .of_words ⟨by cases op <;> simp [element], by simp⟩

/-- Every name in an expression has such a definition: a local one, a declared one or a builtin one. -/
theorem Scope.worded_identifier {s : Scope} (hs : s.globals.Declared) {name : String} {kind : IdentifierKind}
    {d : Definition} (h : s.identifier? name kind = some d) : d.Worded expressionNames := by
  have hvariable : ∀ name list isLocal, (Definition.plain name "Variable" 0
      [("list", list), ("local", isLocal), ("variableName", name)]).Worded expressionNames :=
    fun _ _ _ => .of_words (by simp)
  cases kind with
  | local_ =>
      cases h
      exact hvariable _ _ _
  | global =>
      obtain ⟨v, rfl, _⟩ := hs.vars name d h
      exact hvariable _ _ _
  | expression =>
      obtain ⟨head, rfl, _⟩ := hs.expressions name d h
      exact .of_words (by simp)
  | builtin => exact Catalog.worded_expressions d (Definition.of_lookup? h).1
  | unknown => cases h
  | invalid => cases h

/-- Every instruction has such a definition, declared or builtin. -/
theorem Scope.worded_instruction {s : Scope} (hs : s.globals.Declared) {name : String} {kind : InstructionKind}
    {d : Definition} (h : s.instruction? name kind = some d) : d.Worded statementNames := by
  cases kind with
  | global =>
      obtain ⟨head, rfl, _⟩ := hs.instructions name d h
      exact .of_words (by simp)
  | builtin => exact Catalog.worded_instructions d (Definition.of_lookup? h).1
  | unknown => cases h
  | invalid => cases h

/-! ## Elements of these words -/

/-- An element that can be written and read, without a position. -/
structure Element.Unplaced (e : Element) : Prop where
  plain : Markup.Plain e
  pos : e.attr? "pos" = none

theorem Element.plain_make {name : String} {attributes : List (String × String)} {es : List Element}
    (hname : name ∈ tagWords) (hkeys : ∀ e ∈ attributes, e.1 ∈ "id" :: keyWords) (hes : ∀ e ∈ es, Plain e) :
    Plain (Element.make name attributes es) := by
  refine .intro (Export.plain_tagWords name hname) (fun e he => ?_) hes
  have hword := Export.plain_keyWords e.1 (hkeys e (NameMap.mem_ofList he))
  exact ⟨hword.1, hword.2.1⟩

/-- An element made of fixed words has no position: that is none of the words. -/
theorem Element.unplaced_make {name : String} {attributes : List (String × String)} {es : List Element}
    (hname : name ∈ tagWords) (hkeys : ∀ e ∈ attributes, e.1 ∈ "id" :: keyWords) (hes : ∀ e ∈ es, e.Unplaced) :
    (Element.make name attributes es).Unplaced where
  plain := plain_make hname hkeys fun e he => (hes e he).plain
  pos := by
    rw [Option.eq_none_iff_forall_ne_some]
    intro value hvalue
    have hmem := hkeys _ (NameMap.mem_of_get?_ofList hvalue)
    exact (Export.plain_keyWords "pos" hmem).2.2 rfl

/-! ## The elements of expressions

Exporting may fail, so what is shown of its results is shown by a rule for sequences that lets failures pass. -/

namespace Export

section Gives

variable {α β : Type} {P : α → Prop} {Q : β → Prop}

/-- A result, if there is one, has a property. -/
structure Gives (P : α → Prop) (x : Except Failure α) : Prop where
  of_ok : ∀ {a : α}, x = .ok a → P a

theorem Gives.ok {a : α} (h : P a) : Gives P (.ok a) := ⟨fun ha => Except.ok.inj ha ▸ h⟩

theorem Gives.error {f : Failure} : Gives P (.error f) := ⟨fun ha => by cases ha⟩

/-- **The rule for sequences.** If there is a result then the first step had one, and it has the property that
the second step needs. -/
theorem Gives.bind {x : Except Failure α} {f : α → Except Failure β} (hx : Gives P x)
    (hf : ∀ a, P a → Gives Q (f a)) : Gives Q (x >>= f) := by
  cases x with
  | error e => exact .error
  | ok a => exact hf a (hx.of_ok rfl)

end Gives

variable {P : Element → Prop} {s : Scope} {es fs : List Element}

/-- What the element of an expression has if the elements in it have it. -/
structure Inherited (P : Element → Prop) : Prop where
  make : ∀ {name : String} {attributes : List (String × String)} {es : List Element}, name ∈ expressionNames →
    (∀ e ∈ attributes, e.1 ∈ keyWords) → (∀ e ∈ es, P e) → P (.make name attributes es)

theorem Inherited.constant (h : Inherited P) (c : Constant) : P (constant c) := by
  unfold Export.constant
  cases c.kind <;> exact h.make (by simp) (by simp) (by simp)

/-- The constants of a definition follow the arguments. -/
theorem Inherited.parts (h : Inherited P) (d : Definition) (hes : ∀ e ∈ es, P e) :
    ∀ e ∈ es ++ d.trailing.map Export.constant, P e := by
  rw [List.forall_mem_append, List.forall_mem_map]
  exact ⟨hes, fun c _ => h.constant c⟩

mutual

/-- **The element of an expression has whatever is inherited**, by recursion on the expression. -/
theorem gives_expression (h : Inherited P) (hs : s.globals.Declared) : (n : Node) → Gives P (expression s n)
  | .identifier use arguments => by
      rw [expression]
      cases hd : s.identifier? use.name use.kind with
      | none => exact .error
      | some d =>
          have hworded := Scope.worded_identifier hs hd
          apply (gives_expressions h hs arguments).bind
          intro es hes
          exact .ok (h.make hworded.element hworded.keys (h.parts d hes))
  | .constant value _ => .ok (h.constant value)
  | .binary op lhs rhs _ => by
      rw [expression, Catalog.operator?]
      cases Operator.ofSymbol? op with
      | none => exact .error
      | some o =>
          have hworded := o.worded_definition
          apply (gives_expression h hs lhs).bind
          intro l hl
          apply (gives_expression h hs rhs).bind
          intro r hr
          refine .ok (h.make hworded.element ?_ (by simpa using ⟨hl, hr⟩))
          exact List.forall_mem_cons.mpr ⟨by simp, hworded.keys⟩
  | .unary op operand _ => by
      rw [expression]
      by_cases hop : op = "not"
      · rw [if_pos hop]
        apply (gives_expression h hs operand).bind
        intro e he
        exact .ok (h.make (by simp) (by simp) (by simpa using he))
      · rw [if_neg hop]
        exact .error
  | .conditional condition consequent alternative _ => by
      rw [expression]
      apply (gives_expression h hs condition).bind
      intro c hc
      apply (gives_expression h hs consequent).bind
      intro t ht
      apply (gives_expression h hs alternative).bind
      intro e he
      exact .ok (h.make (by simp) (by simp) (by simpa using ⟨hc, ht, he⟩))
  | .error .. | .program .. | .variableDeclaration .. | .instructionDeclaration .. | .expressionDeclaration ..
  | .event .. | .detached .. | .instruction .. | .assignment .. | .comment .. | .wait .. | .ifElse .. | .whileLoop ..
  | .forLoop .. | .breakLoop .. | .repeatLoop .. => .error

/-- The elements of several expressions, by the same recursion. -/
theorem gives_expressions (h : Inherited P) (hs : s.globals.Declared) : (ns : List Node) →
    Gives (∀ e ∈ ·, P e) (expressions s ns)
  | [] => .ok fun e he => absurd he List.not_mem_nil
  | n :: ns => by
      rw [expressions]
      apply (gives_expression h hs n).bind
      intro e he
      apply (gives_expressions h hs ns).bind
      intro es hes
      exact .ok (List.forall_mem_cons.mpr ⟨he, hes⟩)

end

theorem inherited_unplaced : Inherited Element.Unplaced where
  make hname hkeys hes :=
    Element.unplaced_make (mem_tagWords_of_expression hname) (fun e he => List.mem_cons_of_mem _ (hkeys e he)) hes

theorem unplaced_expression (hs : s.globals.Declared) (n : Node) : Gives Element.Unplaced (expression s n) :=
  gives_expression inherited_unplaced hs n

/-! ## The elements of statements -/

/-- A construct is made of fixed words around the elements in it. -/
theorem unplaced_construct {tag style : String} {attributes : List (String × String)} (htag : tag ∈ tagWords)
    (hkeys : ∀ e ∈ attributes, e.1 ∈ keyWords) (hes : ∀ e ∈ es, e.Unplaced) (hfs : ∀ e ∈ fs, e.Unplaced) :
    (construct tag style attributes es fs).Unplaced := by
  have hinner : ∀ e ∈ innerBlock fs, e.Unplaced := by
    cases fs with
    | nil => exact fun e he => absurd he List.not_mem_nil
    | cons f fs => exact List.forall_mem_singleton.mpr (Element.unplaced_make (by simp) (by simp) hfs)
  apply Element.unplaced_make htag
  · rw [List.forall_mem_append]
    exact ⟨fun e he => List.mem_cons_of_mem _ (hkeys e he), by simp⟩
  · exact List.forall_mem_append.mpr ⟨hes, hinner⟩

/-- The results of statements: elements with names without a qualifier. -/
abbrev GivesAll (x : Except Failure (List Element)) : Prop := Gives (∀ e ∈ ·, e.Unplaced) x

/-- A construct alone. -/
theorem givesAll_construct {tag style : String} {attributes : List (String × String)} (htag : tag ∈ tagWords)
    (hkeys : ∀ e ∈ attributes, e.1 ∈ keyWords) (hes : ∀ e ∈ es, e.Unplaced) (hfs : ∀ e ∈ fs, e.Unplaced) :
    GivesAll (.ok [construct tag style attributes es fs]) :=
  .ok (List.forall_mem_singleton.mpr (unplaced_construct htag hkeys hes hfs))

/-- What stands after `else` and is no single further condition. -/
theorem unplaced_else {n : Node} {ns : List Node} (hne : (n.isIfElse && ns.isEmpty) = false)
    (hn : GivesAll (statement s n)) (hns : GivesAll (statements s ns)) : GivesAll (rungs s (n :: ns)) := by
  have hconstant := @Element.unplaced_make "Constant" [("bool", "true")] [] (by simp) (by simp)
    (by simp)
  rw [rungs_cons s hne]
  apply hn.bind
  intro es hes
  apply hns.bind
  intro rest hrest
  exact givesAll_construct (by simp) (by simp) (by simpa using hconstant)
    (List.forall_mem_append.mpr ⟨hes, hrest⟩)

mutual

/-- **The elements of a statement** have names without a qualifier. -/
theorem unplaced_statement (hs : s.globals.Declared) : (n : Node) → GivesAll (statement s n)
  | .instruction use arguments => by
      rw [statement]
      cases hd : s.instruction? use.name use.kind with
      | none => exact .error
      | some d =>
          have hworded := Scope.worded_instruction hs hd
          apply (gives_expressions inherited_unplaced hs arguments).bind
          intro es hes
          refine .ok (List.forall_mem_singleton.mpr (Element.unplaced_make
            (mem_tagWords_of_statement hworded.element) ?_ (inherited_unplaced.parts d hes)))
          exact List.forall_mem_cons.mpr ⟨by simp, fun e he => List.mem_cons_of_mem _ (hworded.keys e he)⟩
  | .wait kind condition _ => by
      rw [statement]
      apply (unplaced_expression hs condition).bind
      intro c hc
      cases kind <;> exact givesAll_construct (by simp) (by simp) (by simpa using hc) (by simp)
  | .ifElse condition consequent alternative _ => by
      rw [statement]
      apply (unplaced_expression hs condition).bind
      intro c hc
      apply (unplaced_statements hs consequent).bind
      intro b hb
      apply (unplaced_rungs hs alternative).bind
      intro rest hrest
      exact .ok (List.forall_mem_cons.mpr
        ⟨unplaced_construct (by simp) (by simp) (by simpa using hc) hb, hrest⟩)
  | .whileLoop condition body _ => by
      rw [statement]
      apply (unplaced_expression hs condition).bind
      intro c hc
      apply (unplaced_statements hs body).bind
      intro b hb
      exact givesAll_construct (by simp) (by simp) (by simpa using hc) hb
  | .repeatLoop count body _ => by
      rw [statement]
      apply (unplaced_expression hs count).bind
      intro c hc
      apply (unplaced_statements hs body).bind
      intro b hb
      exact givesAll_construct (by simp) (by simp) (by simpa using hc) hb
  | .forLoop head first last step body => by
      rw [statement]
      apply (unplaced_expression hs first).bind
      intro f hf
      apply (unplaced_expression hs last).bind
      intro l hl
      apply (unplaced_expression hs step).bind
      intro t ht
      apply (unplaced_statements hs body).bind
      intro b hb
      exact givesAll_construct (by simp) (by simp) (by simpa using ⟨hf, hl, ht⟩) hb
  | .breakLoop _ => .ok (List.forall_mem_singleton.mpr
      (Element.unplaced_make (by simp) (by simp) (by simp)))
  | .assignment operator target value _ => by
      rw [statement]
      apply (unplaced_expression hs target).bind
      intro t ht
      apply (unplaced_expression hs value).bind
      intro v hv
      cases operator <;> exact givesAll_construct (by simp) (by simp) (by simpa using ⟨ht, hv⟩) (by simp)
  | .comment text _ => by
      have hconstant := @Element.unplaced_make "Constant" [("canReplace", "false"), ("style", "comment-text"), ("text", text)]
        [] (by simp) (by simp) (by simp)
      exact givesAll_construct (by simp) (by simp) (by simpa using hconstant) (by simp)
  | .error .. | .program .. | .variableDeclaration .. | .instructionDeclaration .. | .expressionDeclaration ..
  | .event .. | .detached .. | .identifier .. | .constant .. | .binary .. | .unary .. | .conditional .. => .error

/-- The elements of several statements, by the same recursion. -/
theorem unplaced_statements (hs : s.globals.Declared) : (ns : List Node) → GivesAll (statements s ns)
  | [] => .ok fun e he => absurd he List.not_mem_nil
  | n :: ns => by
      rw [statements]
      apply (unplaced_statement hs n).bind
      intro es hes
      apply (unplaced_statements hs ns).bind
      intro rest hrest
      exact .ok (List.forall_mem_append.mpr ⟨hes, hrest⟩)

/-- The elements of what stands behind `else`, by the same recursion. -/
theorem unplaced_rungs (hs : s.globals.Declared) : (ns : List Node) → GivesAll (rungs s ns)
  | [] => .ok fun e he => absurd he List.not_mem_nil
  | n :: m :: ns => unplaced_else (by simp) (unplaced_statement hs n) (unplaced_statements hs (m :: ns))
  | [n] => by
      cases n with
      | ifElse condition consequent alternative loc =>
          -- a condition alone after `else` is one more rung, not a block
          rw [rungs]
          apply (unplaced_expression hs condition).bind
          intro c hc
          apply (unplaced_statements hs consequent).bind
          intro b hb
          apply (unplaced_rungs hs alternative).bind
          intro rest hrest
          exact .ok (List.forall_mem_cons.mpr
            ⟨unplaced_construct (by simp) (by simp) (by simpa using hc) hb, hrest⟩)
      | _ => exact unplaced_else rfl (unplaced_statement hs _) (unplaced_statements hs [])

end

/-! ## The elements of all trees

Programs have blocks and declared expressions, which can have positions. -/

/-- A position is an attribute with a plain name. -/
theorem plain_positioned {pos : Option String} {e : Element} (h : Plain e) : Plain (positioned pos e) := by
  unfold positioned
  split
  · cases h with
    | intro hname hkeys hes =>
        refine .intro hname (fun e he => ?_) hes
        rcases NameMap.mem_insertEntry he with rfl | he
        · show Markup.isPlainName "pos" = true ∧ "pos" ≠ "xmlns"
          decide +kernel
        · exact hkeys e he
  · exact h

/-- The first element of a block carries the position, if there is one. -/
theorem plain_block (hes : ∀ e ∈ es, e.Unplaced) (pos : Option String) : Plain (block pos es) := by
  cases es with
  | nil => exact Element.plain_make (by simp) (by simp) (by simp)
  | cons e es =>
      obtain ⟨he, hes⟩ := List.forall_mem_cons.mp hes
      refine Element.plain_make (by simp) (by simp) ?_
      exact List.forall_mem_cons.mpr ⟨plain_positioned he.plain, fun d hd => (hes d hd).plain⟩

theorem unplaced_instructionHead (h : DeclarationHead) : (instructionHead h).Unplaced :=
  Element.unplaced_make (by simp) (by simp) (by simp)

theorem unplaced_eventHead (h : EventHead) (d : EventDefinition) : (eventHead h d).Unplaced := by
  refine Element.unplaced_make (by simp) (by simp) ?_
  split
  · simpa using @Element.unplaced_make "Constant" [("canReplace", "false"), ("text", h.filter.getD "")] []
      (by simp) (by simp) (by simp)
  · simp

/-- The element of a declared expression gets its position after it is made. -/
theorem unplaced_declared {name numbered named : String} {value : Element} (h : value.Unplaced) :
    (Element.make "CustomExpression" [("name", name), ("callFormat", numbered), ("format", named),
      ("style", "custom-expression")] [value]).Unplaced :=
  Element.unplaced_make (by simp) (by simp) (by simpa using h)

theorem plain_expressionDeclaration (head : DeclarationHead) {value : Element} (h : value.Unplaced) :
    Plain (expressionDeclaration head value) := plain_positioned (unplaced_declared h).plain

theorem unplaced_variableElement (v : VariableDeclaration) : (variableElement v).Unplaced := by
  obtain ⟨name, nameLoc, kind, loc⟩ := v
  have hitems : (Element.make "Items" [] []).Unplaced := Element.unplaced_make (by simp) (by simp) (by simp)
  cases kind with
  | value => exact Element.unplaced_make (by simp) (by simp) (by simp)
  | list => exact Element.unplaced_make (by simp) (by simp) (by simpa using hitems)


/-- The elements of an item that has a block. A position is the one attribute that comes on top of fixed words,
and its name is plain as well. -/
theorem plain_topLevel (hs : s.globals.Declared) (n : Node) : Gives (∀ e ∈ ·, Plain e) (topLevel s n) := by
  have hsome : ∀ {e : Element}, Plain e → Gives (∀ e ∈ ·, Plain e) (.ok (some e)) := by
    intro e he
    exact .ok fun d hd => Option.mem_some.mp hd ▸ he
  cases n with
  | event head body =>
      rw [topLevel]
      cases Catalog.event? head.event with
      | none => exact .error
      | some d =>
          apply (unplaced_statements hs body).bind
          intro es hes
          exact hsome (plain_block (List.forall_mem_cons.mpr ⟨unplaced_eventHead head d, hes⟩) _)
  | instructionDeclaration head body =>
      apply (unplaced_statements hs body).bind
      intro es hes
      exact hsome (plain_block (List.forall_mem_cons.mpr ⟨unplaced_instructionHead head, hes⟩) _)
  | detached pos body loc =>
      apply (unplaced_statements hs body).bind
      intro es hes
      cases body with
      | nil => exact .ok fun d hd => by cases hd
      | cons => exact hsome (plain_block hes pos)
  | _ => exact .error

/-- The elements of all items, blocks and declared expressions apart. -/
theorem plain_topLevels (hs : s.globals.Declared) (ns : List Node) :
    Gives (fun r => (∀ e ∈ r.1, Plain e) ∧ ∀ e ∈ r.2, Plain e) (topLevels s ns) := by
  induction ns using topLevels.induct with
  | case1 => exact .ok (by simp)
  | case2 head value ns ih =>
      rw [topLevels]
      apply (unplaced_expression hs value).bind
      intro e he
      apply ih.bind
      rintro ⟨blocks, declared⟩ ⟨hblocks, hdeclared⟩
      exact .ok ⟨hblocks, List.forall_mem_cons.mpr ⟨plain_expressionDeclaration head he, hdeclared⟩⟩
  | case3 n ns h ih =>
      rw [topLevels_cons s ns h]
      apply (plain_topLevel hs n).bind
      intro b hb
      apply ih.bind
      rintro ⟨blocks, declared⟩ ⟨hblocks, hdeclared⟩
      exact .ok ⟨List.forall_mem_append.mpr ⟨fun e he => hb e (Option.mem_toList.mp he), hblocks⟩, hdeclared⟩

/-- **The element of any tree** has names without a qualifier. -/
theorem plain_root (hs : s.globals.Declared) (n : Node) : Gives Plain (root s n) := by
  -- a statement by itself is exported only if it gives one element
  have hsingle : Gives Plain (do single n (← statement s n)) := by
    apply (unplaced_statement hs n).bind
    intro es hes
    rcases es with _ | ⟨e, _ | ⟨d, es⟩⟩
    · exact .error
    · exact .ok (hes e List.mem_cons_self).plain
    · exact .error
  -- and a block by itself only if it is not empty
  have hblock : ∀ {f : Option Element → Except Failure Element}, (∀ e, f (some e) = .ok e) →
      (∃ failure, f none = .error failure) → Gives Plain (topLevel s n >>= f) := by
    rintro f hsome ⟨failure, hnone⟩
    apply (plain_topLevel hs n).bind
    intro b hb
    cases b with
    | none =>
        rw [hnone]
        exact .error
    | some e =>
        rw [hsome]
        exact .ok (hb e rfl)
  have hexpression : Gives Plain (expression s n) := ⟨fun he => ((unplaced_expression hs n).of_ok he).plain⟩
  cases n with
  | program name vars body loc =>
      apply (plain_topLevels hs body).bind
      rintro ⟨blocks, declared⟩ ⟨hblocks, hdeclared⟩
      have hvariables : Plain (.make "Variables" [] (vars.map variableElement)) :=
        Element.plain_make (by simp) (by simp)
          (List.forall_mem_map.mpr fun v _ => (unplaced_variableElement v).plain)
      have hexpressions : Plain (.make "Expressions" [] declared) :=
        Element.plain_make (by simp) (by simp) hdeclared
      refine .ok (Element.plain_make (by simp) (by simp) ?_)
      rw [List.cons_append, List.forall_mem_cons, List.forall_mem_append, List.forall_mem_singleton]
      exact ⟨hvariables, hblocks, hexpressions⟩
  | variableDeclaration d => exact .ok (unplaced_variableElement d).plain
  | expressionDeclaration head value =>
      apply (unplaced_expression hs value).bind
      intro e he
      exact .ok (plain_expressionDeclaration head he)
  | event => exact hblock (fun _ => rfl) ⟨_, rfl⟩
  | instructionDeclaration => exact hblock (fun _ => rfl) ⟨_, rfl⟩
  | detached => exact hblock (fun _ => rfl) ⟨_, rfl⟩
  | identifier => exact hexpression
  | constant => exact hexpression
  | binary => exact hexpression
  | unary => exact hexpression
  | conditional => exact hexpression
  | _ => exact hsingle

end Export

end Words

theorem Globals.declared_ofNode (n : Node) : (Globals.ofNode n).Declared := by
  cases n with
  | program name vars body loc => exact declared_ofProgram vars body
  | _ => exact declared_ofProgram [] []

end FlightScript
