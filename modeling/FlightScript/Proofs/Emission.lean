import FlightScript.Proofs.Documents
import FlightScript.Proofs.Numbering

/-!
# `Proofs.Emission` — ids drawn from a counter

The ids of a document could as well be drawn from a counter while its elements are made, each before what stands in its
element. Declared expressions go to the end of the document, wherever they stand in the program; as they take no ids,
the numbers are those of the finished document all the same.

## Contents

* `Emission`, `Node.emission`: elements made with a counter at hand;
* `Emission.Numbers`: what is made from a counter on is what is numbered from it on;
* `Node.document_numbered`: ids are the numbers from zero on, on heads and statements;
* `importStatements_exportStatements`: the importer reads what was made as what it was made from.
-/

namespace FlightScript

open Export (headNames statementNames expressionNames frameNames)

/-! ## Elements made with a counter at hand

The counter is a state, and a failure ends the whole. Otherwise the steps are those of the exporter. -/

/-- Something made while a counter of ids is at hand, unless the tree has no document. -/
abbrev Emission (α : Type) : Type := StateT Nat (Except Failure) α

namespace Emission

/-- The next id. -/
def allocate : Emission String := do
  let next ← get
  set (next + 1)
  return toString next

/-- A construct: its id, then its arguments, then its block. -/
def construct (tag style : String) (attributes : List (String × String)) (arguments : Except Failure (List Element))
    (body : Emission (List Element)) : Emission Element := do
  let id ← allocate
  let es ← arguments
  let fs ← body
  return (Export.construct tag style attributes es fs).withAttr "id" id

mutual

/-- The elements of a statement. The attributes of an instruction's definition are set over its id. -/
def statement (s : Scope) : Node → Emission (List Element)
  | .instruction use arguments =>
    match s.instruction? use.name use.kind with
    | some d => do
      let id ← allocate
      let es ← Export.expressions s arguments
      return [.make d.element (("id", id) :: d.attributes.entries) (es ++ d.trailing.map Export.constant)]
    | none => throw (.unresolvedInstruction use.name use.loc)
  | .wait .seconds condition _ => do
    return [← construct "WaitSeconds" "wait-seconds" [] (Export.expressions s [condition]) (pure [])]
  | .wait .condition condition _ => do
    return [← construct "WaitUntil" "wait-until" [] (Export.expressions s [condition]) (pure [])]
  | .ifElse condition consequent alternative _ => do
    let e ← construct "If" "if" [] (Export.expressions s [condition]) (statements s consequent)
    let rest ← rungs s alternative
    return e :: rest
  | .whileLoop condition body _ => do
    return [← construct "While" "while" [] (Export.expressions s [condition]) (statements s body)]
  | .repeatLoop count body _ => do
    return [← construct "Repeat" "repeat" [] (Export.expressions s [count]) (statements s body)]
  | .forLoop head first last step body => do
    return [← construct "For" "for" [("var", head.var)] (Export.expressions s [first, last, step]) (statements s body)]
  | .breakLoop _ => return [.make "Break" [("style", "break")] []]
  | .assignment .change target value _ => do
    return [← construct "ChangeVariable" "change-variable" [] (Export.expressions s [target, value]) (pure [])]
  | .assignment .set target value _ => do
    return [← construct "SetVariable" "set-variable" [] (Export.expressions s [target, value]) (pure [])]
  | .comment text _ => do
    return [← construct "Comment" "comment" []
      (.ok [.make "Constant" [("canReplace", "false"), ("style", "comment-text"), ("text", text)] []]) (pure [])]
  | n => throw (Export.unexpected n)

/-- The elements of several statements. -/
def statements (s : Scope) : List Node → Emission (List Element)
  | [] => return []
  | n :: ns => do
    let es ← statement s n
    let rest ← statements s ns
    return es ++ rest

/-- The elements of what stands after `else`. -/
def rungs (s : Scope) : List Node → Emission (List Element)
  | [] => return []
  | [.ifElse condition consequent alternative _] => do
    let e ← construct "ElseIf" "else-if" [] (Export.expressions s [condition]) (statements s consequent)
    let rest ← rungs s alternative
    return e :: rest
  | n :: ns => do
    return [← construct "ElseIf" "else" [] (.ok [.make "Constant" [("bool", "true")] []]) do
      let es ← statement s n
      let rest ← statements s ns
      return es ++ rest]

end

/-- A block with a head, which has the first id of the block. -/
def headed (s : Scope) (pos : Option String) (head : Element) (body : List Node) : Emission Element := do
  let id ← allocate
  let es ← statements s body
  return Export.block pos (head.withAttr "id" id :: es)

/-- The block of a handler, a declared instruction or statements of their own. -/
def topLevel (s : Scope) : Node → Emission (Option Element)
  | .event head body =>
    match Catalog.event? head.event with
    | some d => do return some (← headed s head.pos (Export.eventHead head d) body)
    | none => throw (.unexpectedEvent head.event head.loc)
  | .instructionDeclaration head body => do return some (← headed s head.pos (Export.instructionHead head) body)
  | .detached pos body _ => do
    let es ← statements s body
    return if body.isEmpty then none else some (Export.block pos es)
  | n => throw (Export.unexpected n)

/-- The blocks and the declared expressions of a program, in the order of the program. -/
def topLevels (s : Scope) : List Node → Emission (List Element × List Element)
  | [] => return ([], [])
  | .expressionDeclaration head value :: ns => do
    let e := Export.expressionDeclaration head (← Export.expression s value)
    let (blocks, declared) ← topLevels s ns
    return (blocks, e :: declared)
  | n :: ns => do
    let b ← topLevel s n
    let (blocks, declared) ← topLevels s ns
    return (b.toList ++ blocks, declared)

/-- The element of any tree. -/
def root (s : Scope) (n : Node) : Emission Element :=
  match n with
  | .program name globals body _ => do
    let (blocks, declared) ← topLevels s body
    return .make "Program" [("name", name)] (.make "Variables" [] (globals.map Export.variableElement) ::
      blocks ++ [.make "Expressions" [] declared])
  | .event .. | .instructionDeclaration .. | .detached .. => do
    match ← topLevel s n with
    | some e => return e
    | none => throw (Export.unexpected n)
  | .variableDeclaration .. | .expressionDeclaration .. | .identifier .. | .constant .. | .binary .. | .unary ..
  | .conditional .. => Export.root s n
  | _ => do Export.single n (← statement s n)

end Emission

/-- The document of a tree, made with ids from zero on. -/
def Node.emission (n : Node) : Except Failure Element :=
  (Emission.root { globals := .ofNode n } n.resolved).run' 0

/-! ## Making numbered elements is numbering made elements

The two go through a document in the same order. An expression takes no number, so only statements have to be
followed. -/

namespace Emission

open Export (Gives numberList numberList_append numberList_innerBlock number)

variable {s : Scope} {m m' : Emission (List Element)} {x x' : Except Failure (List Element)}

/-- Elements made from a counter on are elements numbered from it on, and are those of heads and statements. -/
structure Numbers (m : Emission (List Element)) (x : Except Failure (List Element)) : Prop where
  counted : Gives (∀ e ∈ ·, e.Counted) x
  run : ∀ k, m k = x.map (numberList k)

theorem Numbers.nil : Numbers (pure []) (.ok []) := ⟨.ok (by simp), fun _ => rfl⟩

theorem Numbers.error (f : Failure) : Numbers (throw f) (.error f) := ⟨.error, fun _ => rfl⟩

/-- Elements made one after the other are numbered one after the other. -/
theorem Numbers.append (h : Numbers m x) (h' : Numbers m' x') :
    Numbers (do let es ← m; let fs ← m'; return es ++ fs) (do let es ← x; let fs ← x'; return es ++ fs) where
  counted := by
    apply h.counted.bind
    intro es hes
    apply h'.counted.bind
    intro fs hfs
    exact .ok (List.forall_mem_append.mpr ⟨hes, hfs⟩)
  run k := by
    show (m k >>= fun r => m' r.2 >>= fun r' => .ok (r.1 ++ r'.1, r'.2)) = _
    rw [h.run k]
    cases x with
    | error f => rfl
    | ok es =>
        show (m' (numberList k es).2 >>= fun r' => .ok ((numberList k es).1 ++ r'.1, r'.2)) = _
        rw [h'.run]
        cases x' with
        | error f => rfl
        | ok fs => exact congrArg Except.ok (numberList_append es fs k).symm

/-- A construct takes the first number. Its expressions take none, and its block takes those that follow. -/
theorem number_construct {tag style : String} {attributes : List (String × String)} {es : List Element}
    (hes : ∀ e ∈ es, e.Silent) (fs : List Element) (k : Nat) :
    number k (Export.construct tag style attributes es fs) =
      ((Export.construct tag style attributes es (numberList (k + 1) fs).1).withAttr "id" (toString k),
        (numberList (k + 1) fs).2) := by
  have hid : (NameMap.ofList (attributes ++ [Export.idSlot, ("style", style)])).contains "id" = true := by
    rw [NameMap.contains_ofList]
    simp [Export.idSlot]
  -- the arguments stand between the construct and its block but take no number
  have hparts : numberList (k + 1) es = (es, k + 1) :=
    Export.numberList_of_fixed (fun e he => (hes e he).number) (k + 1)
  rw [Export.construct, Export.number_make_of_id hid, numberList_append, hparts, numberList_innerBlock]
  rfl

/-- A construct can stand in a block if its expressions take no numbers and its statements can stand in a block.
-/
theorem counted_construct {tag style : String} (htag : tag ∈ statementNames) {attributes : List (String × String)}
    {es fs : List Element} (hes : ∀ e ∈ es, e.Silent) (hfs : ∀ e ∈ fs, e.Counted) :
    (Export.construct tag style attributes es fs).Counted := by
  have hinner : ∀ e ∈ Export.innerBlock fs, e.Outer := by
    cases fs with
    | nil => exact fun e he => absurd he List.not_mem_nil
    | cons f fs => exact List.forall_mem_singleton.mpr (Element.outer_instructions hfs)
  apply Element.counted_make (List.mem_append_right _ htag)
  · rw [NameMap.contains_ofList]
    simp [Export.idSlot]
  · rw [List.forall_mem_append]
    exact ⟨fun e he => (hes e he).outer, hinner⟩

/-- A construct takes its number first, then its block takes numbers, then what follows it. -/
theorem Numbers.construct {tag style : String} (htag : tag ∈ statementNames) {attributes : List (String × String)}
    {arguments : Except Failure (List Element)} (harguments : Gives (∀ e ∈ ·, e.Silent) arguments)
    (h : Numbers m x) (h' : Numbers m' x') :
    Numbers (do let e ← construct tag style attributes arguments m; let rest ← m'; return e :: rest)
      (do
        let es ← arguments
        let fs ← x
        let rest ← x'
        return Export.construct tag style attributes es fs :: rest) where
  counted := by
    apply harguments.bind
    intro es hes
    apply h.counted.bind
    intro fs hfs
    apply h'.counted.bind
    intro rest hrest
    exact .ok (List.forall_mem_cons.mpr ⟨counted_construct htag hes hfs, hrest⟩)
  run k := by
    cases arguments with
    | error f => rfl
    | ok es =>
        have hes := harguments.of_ok rfl
        show ((m (k + 1) >>= fun r => .ok ((Export.construct tag style attributes es r.1).withAttr "id" (toString k), r.2))
          >>= fun r => m' r.2 >>= fun r' => .ok (r.1 :: r'.1, r'.2)) = _
        -- the number of the construct itself is `k`, so its block counts on from the next one
        rw [h.run (k + 1)]
        cases x with
        | error f => rfl
        | ok fs =>
            show (m' (numberList (k + 1) fs).2 >>= fun r' => .ok (_ :: r'.1, r'.2)) = _
            rw [h'.run]
            cases x' with
            | error f => rfl
            | ok rest =>
                show _ = Except.ok (numberList k (Export.construct tag style attributes es fs :: rest))
                rw [numberList, number_construct hes]
                rfl

theorem Numbers.construct_alone {tag style : String} (htag : tag ∈ statementNames)
    {attributes : List (String × String)} {arguments : Except Failure (List Element)}
    (harguments : Gives (∀ e ∈ ·, e.Silent) arguments) (h : Numbers m x) :
    Numbers (do return [← Emission.construct tag style attributes arguments m])
      (do
        let es ← arguments
        let fs ← x
        return [Export.construct tag style attributes es fs]) :=
  .construct htag harguments h .nil

/-- An id that stands before the attributes of a definition is not overwritten by them. -/
theorem id_before_keys {a : Attributes} (h : ∀ e ∈ a.entries, e.1 ≠ "id") (old new : String) :
    NameMap.ofList (("id", new) :: a.entries) = (NameMap.ofList (("id", old) :: a.entries)).insert "id" new := by
  have hget : ∀ value name, (NameMap.ofList (("id", value) :: a.entries)).get? name =
      (a.get? name).or ((NameMap.empty.insert "id" value).get? name) :=
    fun value name => NameMap.get?_ofList_append [("id", value)] a name
  -- the attributes come later in the list and would win
  have hnone : a.get? "id" = none := by
    rw [NameMap.get?, List.find?_eq_none.mpr fun e he => by simpa using h e he]
    rfl
  apply NameMap.ext_get?
  intro name
  by_cases hname : name = "id"
  · rw [hname, hget, hnone, NameMap.get?_insert_self, NameMap.get?_insert_self]
    rfl
  · rw [hget, NameMap.get?_insert_of_ne _ _ hname, NameMap.get?_insert_of_ne _ _ hname, hget,
      NameMap.get?_insert_of_ne _ _ hname]

/-- An instruction takes its number before its arguments. -/
theorem Numbers.instruction {d : Definition} (hd : d.Worded statementNames)
    {arguments : Except Failure (List Element)} (harguments : Gives (∀ e ∈ ·, e.Silent) arguments) :
    Numbers (do
        let id ← allocate
        let es ← arguments
        return [.make d.element (("id", id) :: d.attributes.entries) (es ++ d.trailing.map Export.constant)])
      (do return [Export.defined d true (← arguments)]) where
  counted := by
    apply harguments.bind
    intro es hes
    refine .ok (List.forall_mem_singleton.mpr (Element.counted_make (List.mem_append_right _ hd.element) ?_ ?_))
    · rw [NameMap.contains_ofList]
      simp [Export.idSlot]
    · exact fun e he => (Export.inherited_silent.parts d hes e he).outer
  run k := by
    cases arguments with
    | error f => rfl
    | ok es =>
        have hid : (NameMap.ofList ([Export.idSlot] ++ d.attributes.entries)).contains "id" = true := by
          rw [NameMap.contains_ofList]
          simp [Export.idSlot]
        have hparts := Export.numberList_of_fixed
          (fun e he => (Export.inherited_silent.parts d (harguments.of_ok rfl) e he).number) (k + 1)
        have hnumber : number k (Export.defined d true es) = (.make d.element (("id", toString k) :: d.attributes.entries)
            (es ++ d.trailing.map Export.constant), k + 1) := by
          rw [Export.defined, if_pos rfl, Export.number_make_of_id hid, hparts]
          unfold Element.make
          rw [id_before_keys (fun e he => Export.keyWords_ne_id e.1 (hd.keys e he)) ""]
          rfl
        show _ = Except.ok (numberList k [Export.defined d true es])
        rw [numberList, hnumber]
        rfl

section Statements

theorem expressions_cons_bind {α : Type} (n : Node) (ns : List Node) (f : List Element → Except Failure α) :
    (Export.expressions s (n :: ns) >>= f) =
      Export.expression s n >>= fun e => Export.expressions s ns >>= fun es => f (e :: es) := by
  rw [Export.expressions]
  cases Export.expression s n with
  | error => rfl
  | ok e => cases Export.expressions s ns <;> rfl

theorem Numbers.of_eq {y : Except Failure (List Element)} (h : Numbers m x) (hxy : x = y) : Numbers m y := hxy ▸ h

/-- What stands after `else` and is no single further condition. -/
theorem Numbers.otherwise {n : Node} {ns : List Node} (hne : (n.isIfElse && ns.isEmpty) = false)
    (hn : Numbers (statement s n) (Export.statement s n)) (hns : Numbers (statements s ns) (Export.statements s ns)) :
    Numbers (rungs s (n :: ns)) (Export.rungs s (n :: ns)) := by
  have hrungs : rungs s (n :: ns) = (do
      return [← Emission.construct "ElseIf" "else" [] (.ok [.make "Constant" [("bool", "true")] []]) do
        let es ← statement s n
        let rest ← statements s ns
        return es ++ rest]) := by
    cases ns with
    | cons m ms => simp only [rungs]
    | nil => cases n <;> first | rfl | cases hne
  have hconstant := @Element.silent_make "Constant" [("bool", "true")] [] (by simp [expressionNames]) (by simp) (by simp)
  rw [hrungs, Export.rungs_cons s hne]
  refine (Numbers.construct_alone (by simp [statementNames]) (.ok (by simpa using hconstant)) (hn.append hns)).of_eq ?_
  cases Export.statement s n with
  | error => rfl
  | ok es => cases Export.statements s ns <;> rfl

mutual

/-- **Making the elements of a statement** from a counter on. -/
theorem numbers_statement (hs : s.globals.Declared) : (n : Node) → Numbers (statement s n) (Export.statement s n)
  | .instruction use arguments => by
      rw [statement, Export.statement]
      cases hd : s.instruction? use.name use.kind with
      | none => exact .error _
      | some d => exact .instruction (Scope.worded_instruction hs hd) (Export.silent_expressions hs arguments)
  | .wait kind condition _ => by
      have harguments := Export.silent_expressions hs [condition]
      cases kind with
      | seconds =>
          rw [statement, Export.statement]
          refine (Numbers.construct_alone (by simp [statementNames]) harguments .nil).of_eq ?_
          rw [expressions_cons_bind]
          rfl
      | condition =>
          rw [statement, Export.statement]
          refine (Numbers.construct_alone (by simp [statementNames]) harguments .nil).of_eq ?_
          rw [expressions_cons_bind]
          rfl
  -- expressions take no numbers, so it does not matter that they are made behind the number of their construct
  | .ifElse condition consequent alternative _ => by
      rw [statement, Export.statement]
      refine (Numbers.construct (by simp [statementNames]) (Export.silent_expressions hs [condition])
        (numbers_statements hs consequent) (numbers_rungs hs alternative)).of_eq ?_
      rw [expressions_cons_bind]
      rfl
  | .whileLoop condition body _ => by
      rw [statement, Export.statement]
      refine (Numbers.construct_alone (by simp [statementNames]) (Export.silent_expressions hs [condition])
        (numbers_statements hs body)).of_eq ?_
      rw [expressions_cons_bind]
      rfl
  | .repeatLoop count body _ => by
      rw [statement, Export.statement]
      refine (Numbers.construct_alone (by simp [statementNames]) (Export.silent_expressions hs [count])
        (numbers_statements hs body)).of_eq ?_
      rw [expressions_cons_bind]
      rfl
  | .forLoop head first last step body => by
      rw [statement, Export.statement]
      refine (Numbers.construct_alone (by simp [statementNames]) (Export.silent_expressions hs [first, last, step])
        (numbers_statements hs body)).of_eq ?_
      simp only [expressions_cons_bind]
      rfl
  | .breakLoop _ => by
      have hbreak : (Element.make "Break" [("style", "break")] []).Counted := by
        intro around haround p hp
        obtain rfl := List.mem_singleton.mp hp
        exact Place.regular_of_break rfl (Element.id?_make (by simp)) haround
      exact ⟨.ok (List.forall_mem_singleton.mpr hbreak), fun _ => rfl⟩
  | .assignment operator target value _ => by
      have harguments := Export.silent_expressions hs [target, value]
      cases operator with
      | change =>
          rw [statement, Export.statement]
          refine (Numbers.construct_alone (by simp [statementNames]) harguments .nil).of_eq ?_
          simp only [expressions_cons_bind]
          rfl
      | set =>
          rw [statement, Export.statement]
          refine (Numbers.construct_alone (by simp [statementNames]) harguments .nil).of_eq ?_
          simp only [expressions_cons_bind]
          rfl
  | .comment text _ => by
      have hconstant := @Element.silent_make "Constant"
        [("canReplace", "false"), ("style", "comment-text"), ("text", text)] [] (by simp [expressionNames]) (by simp)
        (by simp)
      rw [statement, Export.statement]
      exact .construct_alone (by simp [statementNames]) (.ok (by simpa using hconstant)) .nil
  | .error .. | .program .. | .variableDeclaration .. | .instructionDeclaration .. | .expressionDeclaration ..
  | .event .. | .detached .. | .identifier .. | .constant .. | .binary .. | .unary .. | .conditional .. => .error _

theorem numbers_statements (hs : s.globals.Declared) : (ns : List Node) → Numbers (statements s ns) (Export.statements s ns)
  | [] => .nil
  | n :: ns => by
      rw [statements, Export.statements]
      exact (numbers_statement hs n).append (numbers_statements hs ns)

/-- What stands behind `else` is made as one more rung or as a last one. -/
theorem numbers_rungs (hs : s.globals.Declared) : (ns : List Node) → Numbers (rungs s ns) (Export.rungs s ns)
  | [] => .nil
  | n :: m :: ns => .otherwise (by simp) (numbers_statement hs n) (numbers_statements hs (m :: ns))
  | [n] => by
      cases n with
      | ifElse condition consequent alternative loc =>
          -- a condition alone after `else` stands beside the first one, not in a block
          rw [rungs, Export.rungs]
          refine (Numbers.construct (by simp [statementNames]) (Export.silent_expressions hs [condition])
            (numbers_statements hs consequent) (numbers_rungs hs alternative)).of_eq ?_
          rw [expressions_cons_bind]
          rfl
      | _ => exact .otherwise rfl (numbers_statement hs _) (numbers_statements hs [])

end

end Statements

/-! ## Reading numbered elements

The importer does not look at ids, so it reads elements made with a counter at hand as it reads elements without
numbers. -/

/-- Numbered elements differ from those without numbers in what the importer does not look at. -/
theorem likewise_numberList {es : List Element} (h : ∀ e ∈ es, Markup.Plain e) (k : Nat) :
    List.Forall₂ Element.Likewise es (numberList k es).1 := by
  induction es generalizing k with
  | nil => exact .nil
  | cons e es ih =>
      obtain ⟨he, hes⟩ := List.forall_mem_cons.mp h
      exact .cons (Export.number_related he k).1.likewise (ih hes _)

/-- Statements made from any number on are read as their elements without numbers are. -/
theorem exists_statements_readAlike (hs : s.globals.Declared) {ns : List Node} {es : List Element}
    (hes : Export.statements s ns = .ok es) (k : Nat) :
    ∃ fs next, statements s ns k = .ok (fs, next) ∧
      Import.ReadAlike (es.map Child.element) (fs.map Child.element) := by
  have hplain : ∀ e ∈ es, Markup.Plain e := fun e he => ((Export.unplaced_statements hs ns).of_ok hes e he).plain
  have hrun := (numbers_statements hs ns).run k
  rw [hes] at hrun
  exact ⟨_, _, hrun, .of_forall₂ (likewise_numberList hplain k)⟩

/-! ## Programs -/

/-- An element with an id that has parts without ids takes one number. -/
theorem number_head {name : String} {attributes : List (String × String)} {es : List Element}
    (hid : (NameMap.ofList attributes).contains "id" = true) (hes : ∀ e ∈ es, e.Silent) (k : Nat) :
    number k (.make name attributes es) = ((Element.make name attributes es).withAttr "id" (toString k), k + 1) := by
  rw [Export.number_make_of_id hid, Export.numberList_of_fixed fun e he => (hes e he).number]

/-- A position can be set before or after the ids. -/
theorem number_positioned (pos : Option String) (e : Element) (k : Nat) :
    number k (Export.positioned pos e) = (Export.positioned pos (number k e).1, (number k e).2) := by
  obtain ⟨name, attributes, children, span⟩ := e
  unfold Export.positioned
  split
  · rename_i value _
    have hcontains : (attributes.insert "pos" value).contains "id" = attributes.contains "id" :=
      congrArg Option.isSome (NameMap.get?_insert_of_ne _ _ (by decide))
    -- the two attributes have different names, so it does not matter which is set first
    have hcomm : (attributes.insert "pos" value).insert "id" (toString k) =
        (attributes.insert "id" (toString k)).insert "pos" value := by
      apply NameMap.ext_get?
      intro key
      by_cases hid : key = "id"
      · subst hid
        rw [NameMap.get?_insert_self, NameMap.get?_insert_of_ne _ _ (by decide), NameMap.get?_insert_self]
      · by_cases hpos : key = "pos"
        · subst hpos
          rw [NameMap.get?_insert_of_ne _ _ hid, NameMap.get?_insert_self, NameMap.get?_insert_self]
        · rw [NameMap.get?_insert_of_ne _ _ hid, NameMap.get?_insert_of_ne _ _ hpos,
            NameMap.get?_insert_of_ne _ _ hpos, NameMap.get?_insert_of_ne _ _ hid]
    rw [Element.withAttr, number, number, hcontains]
    split
    · rw [hcomm]
      rfl
    · rfl
  · rfl

theorem number_block (pos : Option String) (es : List Element) (k : Nat) :
    number k (Export.block pos es) = (Export.block pos (numberList k es).1, (numberList k es).2) := by
  cases es with
  | nil => exact Export.number_make_of_not_id rfl [] k
  | cons e es =>
      rw [Export.block, Export.number_make_of_not_id rfl, numberList, number_positioned]
      rfl

theorem outer_block (pos : Option String) {es : List Element} (hes : ∀ e ∈ es, e.Counted) :
    (Export.block pos es).Outer := by
  cases es with
  | nil => exact Element.outer_instructions hes
  | cons e es =>
      obtain ⟨he, hes⟩ := List.forall_mem_cons.mp hes
      exact Element.outer_instructions (List.forall_mem_cons.mpr ⟨he.positioned pos, hes⟩)

/-- What numbering makes of a block that may be missing. -/
def numberOption (k : Nat) : Option Element → Option Element × Nat
  | none => (none, k)
  | some e => (some (number k e).1, (number k e).2)

/-- A block made from a counter on is the block numbered from it on. -/
structure NumbersBlock (m : Emission (Option Element)) (x : Except Failure (Option Element)) : Prop where
  outer : Gives (∀ e ∈ ·, e.Outer) x
  run : ∀ k, m k = x.map (numberOption k)

theorem NumbersBlock.error (f : Failure) : NumbersBlock (throw f) (.error f) := ⟨.error, fun _ => rfl⟩

/-- The head of a block takes the first number of the block. -/
theorem NumbersBlock.headed (hs : s.globals.Declared) {name : String} {attributes : List (String × String)}
    {parts : List Element} (hname : name ∈ headNames) (hid : (NameMap.ofList attributes).contains "id" = true)
    (hparts : ∀ e ∈ parts, e.Silent) (pos : Option String) (body : List Node) :
    NumbersBlock (do return some (← headed s pos (.make name attributes parts) body))
      (do return some (Export.block pos (.make name attributes parts :: (← Export.statements s body)))) := by
  have hbody := numbers_statements hs body
  constructor
  · apply hbody.counted.bind
    intro es hes
    have hhead : (Element.make name attributes parts).Counted :=
      Element.counted_make (List.mem_append_left _ hname) hid fun e he => (hparts e he).outer
    refine .ok fun e he => ?_
    obtain rfl := Option.mem_some.mp he
    exact outer_block pos (List.forall_mem_cons.mpr ⟨hhead, hes⟩)
  · intro k
    show ((statements s body (k + 1) >>= fun r => .ok (Export.block pos (_ :: r.1), r.2)) >>=
      fun r => .ok (some r.1, r.2)) = _
    rw [hbody.run]
    cases Export.statements s body with
    | error f => rfl
    | ok es =>
        show _ = Except.ok (numberOption k (some (Export.block pos (.make name attributes parts :: es))))
        rw [numberOption, number_block, numberList, number_head hid hparts]
        rfl

/-- **Making the block of an item** of a program. -/
theorem numbers_topLevel (hs : s.globals.Declared) (n : Node) : NumbersBlock (topLevel s n) (Export.topLevel s n) := by
  cases n with
  | event head body =>
      rw [topLevel, Export.topLevel]
      cases Catalog.event? head.event with
      | none => exact .error _
      | some d =>
          refine .headed hs (by simp [headNames]) ?_ ?_ head.pos body
          · rw [NameMap.contains_ofList]
            simp [Export.idSlot]
          · by_cases hfilter : d.hasFilter = true
            · rw [if_pos hfilter]
              exact List.forall_mem_singleton.mpr
                (Element.silent_make (by simp [expressionNames]) (by simp) (by simp))
            · rw [if_neg hfilter]
              exact fun e he => absurd he List.not_mem_nil
  | instructionDeclaration head body =>
      refine .headed hs (by simp [headNames]) ?_ (by simp) head.pos body
      rw [NameMap.contains_ofList]
      simp [Export.idSlot]
  | detached pos body loc =>
      have hbody := numbers_statements hs body
      constructor
      · apply hbody.counted.bind
        intro es hes
        refine .ok fun e he => ?_
        cases body with
        | nil => cases he
        | cons =>
            obtain rfl := Option.mem_some.mp he
            exact outer_block pos hes
      · intro k
        show (statements s body k >>= fun r => .ok (if body.isEmpty then none else some (Export.block pos r.1), r.2)) = _
        rw [hbody.run, Export.topLevel]
        cases body with
        | nil => rfl
        | cons n ns =>
            cases Export.statements s (n :: ns) with
            | error f => rfl
            | ok es =>
                show _ = Except.ok (numberOption k (some (Export.block pos es)))
                rw [numberOption, number_block]
                rfl
  | _ => exact .error _

/-- The blocks of a program take numbers in their order, and what goes to the end of the document takes none. -/
structure NumbersItems (m : Emission (List Element × List Element))
    (x : Except Failure (List Element × List Element)) : Prop where
  parts : Gives (fun r => (∀ e ∈ r.1, e.Outer) ∧ ∀ e ∈ r.2, e.Silent) x
  run : ∀ k, m k = x.map fun r => (((numberList k r.1).1, r.2), (numberList k r.1).2)

theorem silent_positioned {e : Element} (h : e.Silent) (pos : Option String) : (Export.positioned pos e).Silent := by
  refine ⟨h.outer.positioned pos, fun k => ?_⟩
  rw [number_positioned, h.number]

theorem silent_expressionDeclaration (head : DeclarationHead) {value : Element} (h : value.Silent) :
    (Export.expressionDeclaration head value).Silent :=
  silent_positioned (Element.silent_make (by simp [frameNames]) (by simp) (by simpa using h)) head.pos

/-- The block of an item, and then those of the others. Declared expressions are put aside and take no numbers.
-/
theorem NumbersItems.block {m : Emission (Option Element)} {x : Except Failure (Option Element)}
    {ms : Emission (List Element × List Element)} {xs : Except Failure (List Element × List Element)}
    (h : NumbersBlock m x) (hs : NumbersItems ms xs) :
    NumbersItems (do let b ← m; let r ← ms; return (b.toList ++ r.1, r.2))
      (do let b ← x; let r ← xs; return (b.toList ++ r.1, r.2)) where
  parts := by
    apply h.outer.bind
    intro b hb
    apply hs.parts.bind
    rintro r ⟨hblocks, hdeclared⟩
    refine .ok ⟨List.forall_mem_append.mpr ⟨?_, hblocks⟩, hdeclared⟩
    exact fun e he => hb e (Option.mem_toList.mp he)
  run k := by
    show (m k >>= fun b => ms b.2 >>= fun r => .ok ((b.1.toList ++ r.1.1, r.1.2), r.2)) = _
    rw [h.run]
    cases x with
    | error f => rfl
    | ok b =>
        have hoption : (numberList k b.toList).1 = (numberOption k b).1.toList ∧
            (numberList k b.toList).2 = (numberOption k b).2 := by
          cases b <;> exact ⟨rfl, rfl⟩
        show (ms (numberOption k b).2 >>= fun r => .ok (((numberOption k b).1.toList ++ r.1.1, r.1.2), r.2)) = _
        rw [hs.run]
        cases xs with
        | error f => rfl
        | ok r =>
            show Except.ok _ = Except.ok (((numberList k (b.toList ++ r.1)).1, r.2), (numberList k (b.toList ++ r.1)).2)
            rw [numberList_append, hoption.1, hoption.2]

/-- All items of a program, by the recursion of the exporter. -/
theorem numbers_topLevels (hs : s.globals.Declared) (ns : List Node) :
    NumbersItems (topLevels s ns) (Export.topLevels s ns) := by
  induction ns using Export.topLevels.induct with
  | case1 => exact ⟨.ok (by simp), fun _ => rfl⟩
  | case2 head value ns ih =>
      -- a declared expression is moved to the end, which no number notices
      have hvalue := Export.silent_expression hs value
      rw [topLevels, Export.topLevels]
      constructor
      · apply hvalue.bind
        intro e he
        apply ih.parts.bind
        rintro ⟨blocks, declared⟩ ⟨hblocks, hdeclared⟩
        exact .ok ⟨hblocks, List.forall_mem_cons.mpr ⟨silent_expressionDeclaration head he, hdeclared⟩⟩
      · intro k
        cases Export.expression s value with
        | error f => rfl
        | ok e =>
            show (topLevels s ns k >>= fun r => .ok ((r.1.1, Export.expressionDeclaration head e :: r.1.2), r.2)) = _
            rw [ih.run]
            cases Export.topLevels s ns <;> rfl
  | case3 n ns h ih =>
      have htopLevels : topLevels s (n :: ns) = (do
          let b ← topLevel s n
          let (blocks, declared) ← topLevels s ns
          return (b.toList ++ blocks, declared)) := by
        cases n <;> first | rfl | exact absurd rfl (h _ _)
      rw [htopLevels, Export.topLevels_cons s ns h]
      exact .block (numbers_topLevel hs n) ih

theorem silent_variableElement (v : VariableDeclaration) : (Export.variableElement v).Silent := by
  have hitems : (Element.make "Items" [] []).Silent := Element.silent_make (by simp [frameNames]) (by simp) (by simp)
  unfold Export.variableElement
  cases v.kind with
  | value => exact Element.silent_make (by simp [expressionNames]) (by simp) (by simp)
  | list => exact Element.silent_make (by simp [expressionNames]) (by simp) (by simpa using hitems)

/-- The element of a tree made from a counter on is the element numbered from it on, and regular. -/
structure NumbersRoot (m : Emission Element) (x : Except Failure Element) : Prop where
  regular : Gives (fun e => ∀ p ∈ e.places none, p.Regular) x
  run : ∀ k, m k = x.map (number k)

/-- An element that takes no number. -/
theorem NumbersRoot.of_silent {x : Except Failure Element} (h : Gives Element.Silent x) : NumbersRoot x x := by
  constructor
  · exact ⟨fun he => (h.of_ok he).outer none (by simp)⟩
  · intro k
    cases x with
    | error f => rfl
    | ok e =>
        show Except.ok (e, k) = Except.ok (number k e)
        rw [(h.of_ok rfl).number]

/-- A statement by itself has an element only if it has one element. -/
theorem NumbersRoot.single (h : Numbers m x) (n : Node) :
    NumbersRoot (do Export.single n (← m)) (do Export.single n (← x)) := by
  constructor
  · apply h.counted.bind
    intro es hes
    rcases es with _ | ⟨e, _ | ⟨d, es⟩⟩
    · exact .error
    · exact .ok (hes e List.mem_cons_self none (.inl rfl))
    · exact .error
  · intro k
    show (m k >>= fun r => (Export.single n r.1 : Emission Element) r.2) = _
    rw [h.run]
    cases x with
    | error f => rfl
    | ok es => rcases es with _ | ⟨e, _ | ⟨d, es⟩⟩ <;> rfl

/-- A block by itself has an element only if it is not empty. -/
theorem NumbersRoot.block {m : Emission (Option Element)} {x : Except Failure (Option Element)}
    (h : NumbersBlock m x) {f : Option Element → Emission Element} {g : Option Element → Except Failure Element}
    {failure : Failure} (hnone : f none = throw failure ∧ g none = .error failure)
    (hsome : ∀ e, f (some e) = pure e ∧ g (some e) = .ok e) : NumbersRoot (m >>= f) (x >>= g) := by
  constructor
  · apply h.outer.bind
    intro b hb
    cases b with
    | none =>
        rw [hnone.2]
        exact .error
    | some e =>
        rw [(hsome e).2]
        exact .ok (hb e rfl none (by simp))
  · intro k
    show (m k >>= fun r => f r.1 r.2) = _
    rw [h.run]
    cases x with
    | error e => rfl
    | ok b =>
        cases b with
        | none =>
            show f none k = (g none).map _
            rw [hnone.1, hnone.2]
            rfl
        | some e =>
            show f (some (number k e).1) (number k e).2 = (g (some e)).map _
            rw [(hsome _).1, (hsome e).2]
            rfl

/-- **Making the element of any tree** from a counter on. It gives what numbering the finished element gives, and
leaves the counter behind the last number. Variables and declared expressions take no numbers, so in a program only
the blocks count. -/
theorem numbers_root (hs : s.globals.Declared) (n : Node) : NumbersRoot (root s n) (Export.root s n) := by
  have hexpression : NumbersRoot (Export.expression s n : Emission Element) (Export.expression s n) :=
    .of_silent (Export.silent_expression hs n)
  cases n with
  | program name globals body loc =>
      have hbody := numbers_topLevels hs body
      have hvariables : (Element.make "Variables" [] (globals.map Export.variableElement)).Silent :=
        Element.silent_make (by simp [frameNames]) (by simp)
          (List.forall_mem_map.mpr fun v _ => silent_variableElement v)
      have hexpressions : ∀ declared : List Element, (∀ e ∈ declared, e.Silent) →
          (Element.make "Expressions" [] declared).Silent :=
        fun _ h => Element.silent_make (by simp [frameNames]) (by simp) h
      constructor
      · apply hbody.parts.bind
        rintro ⟨blocks, declared⟩ ⟨hblocks, hdeclared⟩
        refine .ok (Element.outer_make (by simp [frameNames]) (by simp) ?_ none (by simp))
        rw [List.cons_append, List.forall_mem_cons, List.forall_mem_append, List.forall_mem_singleton]
        exact ⟨hvariables.outer, hblocks, (hexpressions declared hdeclared).outer⟩
      · intro k
        show (topLevels s body k >>= fun r => .ok (Element.make "Program" [("name", name)]
          (.make "Variables" [] (globals.map Export.variableElement) :: r.1.1 ++
            [.make "Expressions" [] r.1.2]), r.2)) = _
        rw [hbody.run, Export.root, Export.program]
        cases hitems : Export.topLevels s body with
        | error f => rfl
        | ok r =>
            have hlast := (hexpressions r.2 (hbody.parts.of_ok hitems).2).number
            show _ = Except.ok (number k (.make "Program" [("name", name)]
              (.make "Variables" [] (globals.map Export.variableElement) :: r.1 ++ [.make "Expressions" [] r.2])))
            -- variables and declared expressions take no numbers; only the blocks between them count
            rw [Export.number_make_of_not_id (Element.contains_id_ofList (by simp)), List.cons_append, numberList,
              hvariables.number, numberList_append, numberList, numberList, hlast]
            rfl
  | variableDeclaration d => exact .of_silent (.ok (silent_variableElement d))
  | expressionDeclaration head value =>
      refine .of_silent ?_
      apply (Export.silent_expression hs value).bind
      intro e he
      exact .ok (silent_expressionDeclaration head he)
  | event head body =>
      exact .block (numbers_topLevel hs (.event head body)) ⟨rfl, rfl⟩ fun _ => ⟨rfl, rfl⟩
  | instructionDeclaration head body =>
      exact .block (numbers_topLevel hs (.instructionDeclaration head body)) ⟨rfl, rfl⟩ fun _ => ⟨rfl, rfl⟩
  | detached pos body loc =>
      exact .block (numbers_topLevel hs (.detached pos body loc)) ⟨rfl, rfl⟩ fun _ => ⟨rfl, rfl⟩
  | identifier => exact hexpression
  | constant => exact hexpression
  | binary => exact hexpression
  | unary => exact hexpression
  | conditional => exact hexpression
  | _ => exact .single (numbers_statement hs _) _

end Emission

/-! ## Documents

What is known of making is now known of documents. -/

/-- **Ids are dense and in the order of the document.** Every document is what a counter gives that hands out ids while
the elements are made; its ids in document order are the numbers from zero on; and the elements that carry one are the
heads and the statements other than `Break`. -/
theorem Node.document_numbered {n : Node} {e : Element} (h : n.document = .ok e) :
    n.emission = .ok e ∧ (∃ count, e.ids = (List.range count).map toString) ∧ ∀ p ∈ e.places none, p.Regular := by
  have hroot := Emission.numbers_root (s := { globals := .ofNode n }) (Globals.declared_ofNode n) n.resolved
  obtain ⟨d, hd, hnumber⟩ : ∃ d, Export.root { globals := .ofNode n } n.resolved = .ok d ∧ (Export.number 0 d).1 = e := by
    rw [document] at h
    cases hd : Export.root { globals := .ofNode n } n.resolved with
    | error f => rw [hd] at h; cases h
    | ok d =>
        rw [hd] at h
        exact ⟨d, rfl, Except.ok.inj h⟩
  refine ⟨?_, ?_, ?_⟩
  · show (Emission.root _ n.resolved 0 >>= fun r => .ok r.1) = _
    rw [hroot.run 0, hd]
    exact congrArg Except.ok hnumber
  · obtain ⟨count, -, hids⟩ := Export.ids_number d none 0
    refine ⟨count, ?_⟩
    rw [Element.ids, ← hnumber, hids, List.range_eq_range']
  · rw [← hnumber]
    exact Element.regular_of_outline (Export.outline_number d none 0) (hroot.regular.of_ok hd)

/-- A declared expression between two blocks, and a loop that is left in a chain of conditions. -/
theorem Node.document_numbered_chain :
    let one : Node := .constant (.number "1") none
    let more : Node := .ifElse one [.breakLoop none] [.comment "on" none] none
    let n : Node := .program "p" []
      [.instructionDeclaration ⟨none, "Go", none, none, [], none, none⟩ [.wait .seconds one none],
       .expressionDeclaration ⟨none, "f", none, none, [], none, none⟩ one,
       .detached none [.whileLoop one [.ifElse one [] [more] none] none] none] none
    ∃ e, n.document = .ok e ∧ e.ids = ["0", "1", "2", "3", "4", "5", "6"] ∧ n.emission = .ok e ∧
      (∃ count, e.ids = (List.range count).map toString) ∧ ∀ p ∈ e.places none, p.Regular := by
  intro one more n
  have hids : n.document.toOption.map Element.ids = some ["0", "1", "2", "3", "4", "5", "6"] := by decide +kernel
  cases h : n.document with
  | error f =>
      rw [h] at hids
      cases hids
  | ok e =>
      rw [h] at hids
      exact ⟨e, rfl, Option.some.inj hids, document_numbered h⟩

/-- **Importing undoes exporting.** In the scope of any program, statements whose names all have definitions that take
their arguments have elements, and the importer reads these as the statements without their metadata. It does so too if
the elements have ids, whichever number the ids count on from. -/
theorem importStatements_exportStatements (vars : List VariableDeclaration) (body : List Node)
    (s : Scope) (hs : s.globals = .ofProgram vars body) (ns : List Node)
    (h : ∀ n ∈ ns, Grammar.defined.Statement s n) :
    (∃ es, Export.statements s ns = .ok es ∧
      Import.statements (es.map Child.element) = .ok (ns.map Node.clearMetadata)) ∧
    ∀ k, ∃ es next, Emission.statements s ns k = .ok (es, next) ∧
      Import.statements (es.map Child.element) = .ok (ns.map Node.clearMetadata) := by
  have hdeclared : s.globals.Declared := hs ▸ Globals.declared_ofProgram vars body
  obtain ⟨es, hes, hrecovers⟩ := Grammar.Statement.exists_recovers h rfl hdeclared
  refine ⟨⟨es, hes, hrecovers.statements⟩, fun k => ?_⟩
  obtain ⟨fs, next, hfs, halike⟩ := Emission.exists_statements_readAlike hdeclared hes k
  refine ⟨fs, next, hfs, ?_⟩
  have hsame := halike.statements
  rw [hrecovers.statements] at hsame
  exact eq_ok_of_toOption hsame.symm

/-- A chain of conditions in front of a further statement, in a program with a variable and an instruction, with ids
from seven on. -/
theorem importStatements_exportStatements_chain :
    let vars : List VariableDeclaration := [⟨"n", none, .value, none⟩]
    let body : List Node := [.instructionDeclaration ⟨none, "Go", none, none, ["to"], none, none⟩ []]
    let n : Node := .identifier ⟨"n", none, .global, none⟩ []
    let one : Node := .constant (.number "1") none
    let more : Node := .ifElse (.unary "not" n none) [] [.comment "else" none] none
    let ns : List Node :=
      [.ifElse (.binary Operator.greater.symbol n one none) [.instruction ⟨"Go", none, .global, none⟩ [n]] [more] none,
        .instruction ⟨"Display", none, .builtin, none⟩
          [.identifier ⟨"Mfd.LocalToDisplay", none, .builtin, none⟩ [n, one]]]
    ∃ es next, Emission.statements { globals := .ofProgram vars body } ns 7 = .ok (es, next) ∧
      Import.statements (es.map Child.element) = .ok (ns.map Node.clearMetadata) := by
  intro vars body n one more ns
  have hn : Grammar.defined.Expression { globals := .ofProgram vars body } n :=
    .identifier ⟨_, rfl, rfl⟩ (by simp)
  have hone : Grammar.defined.Expression { globals := .ofProgram vars body } one := .constant trivial
  have hmore : Grammar.defined.Statement { globals := .ofProgram vars body } more :=
    .ifElse (.negation hn) (by simp) (by simpa using .comment trivial)
  refine (importStatements_exportStatements vars body _ rfl ns ?_).2 7
  simp only [ns, List.forall_mem_cons, List.not_mem_nil, false_imp_iff, implies_true, and_true]
  constructor
  · exact .ifElse (.binary .greater hn hone)
      (by simpa using .instruction ⟨_, rfl, rfl⟩ (by simpa using hn))
      (by simpa using hmore)
  · refine .instruction ⟨_, rfl, rfl⟩ ?_
    simpa using .identifier ⟨_, rfl, rfl⟩ (by simpa using ⟨hn, hone⟩)

end FlightScript
