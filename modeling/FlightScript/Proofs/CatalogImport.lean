import FlightScript.Import
import FlightScript.Proofs.Legible

/-!
# `Proofs.CatalogImport` — every definition is found again

A use of a name becomes an element with the attributes of its definition, and the importer finds the name again
from them. For the catalog this is shown family by family, with the word of the table left open; only where the
importer changes the word on the way, or chooses by it, are the words gone through.

## Contents

* `NameMap.get?_ofList_append`: attributes in front of those of a definition;
* `Attributes.Alike`: attributes but for the id;
* `Definition.RecoversExpression`, `Definition.RecoversInstruction`: the importer finds a definition again;
* `Scope.recovers_identifier`, `Scope.recovers_instruction`: so it does for every name in the scope of a program.
-/

namespace FlightScript

/-! ## Attributes

An element of a use has the attributes of its definition and perhaps an id in front of them. -/

namespace NameMap

variable {α : Type}

theorem get?_empty (name : String) : (empty : NameMap α).get? name = none := rfl

/-- Entries that follow others count before them. -/
theorem get?_foldl_insert (name : String) {es : List (String × α)} (h : es.Pairwise fun a b => a.1 < b.1)
    (m : NameMap α) : (es.foldl (fun m e => m.insert e.1 e.2) m).get? name =
      ((es.find? fun e => e.1 == name).map Prod.snd).or (m.get? name) := by
  induction es generalizing m with
  | nil => rfl
  | cons e es ih =>
      obtain ⟨hlt, hes⟩ := List.pairwise_cons.mp h
      rw [List.foldl_cons, ih hes]
      by_cases he : e.1 = name
      · -- the entries behind this one have greater names
        have hnone : es.find? (fun e => e.1 == name) = none := by
          rw [List.find?_eq_none]
          intro x hx hname
          rw [beq_iff_eq] at hname
          exact String.lt_irrefl name (by simpa [he, hname] using hlt x hx)
        rw [hnone, ← he, get?_insert_self]
        simp
      · rw [get?_insert_of_ne m e.2 (Ne.symm he), List.find?_cons_of_neg (by simpa using he)]

theorem get?_ofList_append (es : List (String × α)) (m : NameMap α) (name : String) :
    (ofList (es ++ m.entries)).get? name = (m.get? name).or ((ofList es).get? name) := by
  rw [ofList, List.foldl_append, get?_foldl_insert name m.sorted]
  rfl

end NameMap

/-- The same attributes, ids apart. -/
def Attributes.Alike (a b : Attributes) : Prop := ∀ name, name ≠ "id" → a.get? name = b.get? name

theorem Attributes.Alike.refl (a : Attributes) : a.Alike a := fun _ _ => rfl

/-- An id in front of other attributes. -/
theorem Attributes.alike_id (value : String) (a : Attributes) : Alike (.ofList (("id", value) :: a.entries)) a := by
  intro name hname
  rw [show ("id", value) :: a.entries = [("id", value)] ++ a.entries from rfl, NameMap.get?_ofList_append]
  have hid : (NameMap.ofList [("id", value)]).get? name = none := by
    show (NameMap.empty.insert "id" value).get? name = none
    rw [NameMap.get?_insert_of_ne _ _ hname]
    rfl
  rw [hid, Option.or_none]

/-- The value of an attribute, whatever the id. -/
theorem Attributes.Alike.textOf {a b : Attributes} (h : a.Alike b) {key value : String} (hkey : key ≠ "id")
    (hvalue : b.get? key = some value) : Import.textOf a key = value := by
  rw [Import.textOf, h key hkey, hvalue]
  rfl

/-! ## Parts

Parts of an element are read before it is known what the element is, so a failure stays inside of its part until
it is asked for. -/

namespace Import.Part

/-- What the parts of an element become. -/
def Are (parts : List Part) (nodes : List Node) : Prop := List.Forall₂ (fun p n => p.node = .ok n) parts nodes

variable {parts : List Part} {nodes : List Node}

theorem Are.all (h : Are parts nodes) : Part.all parts = .ok nodes := by
  induction h with
  | nil => rfl
  | cons hp _ ih => rw [Part.all, hp, ih]; rfl

theorem Are.first {n : Node} (h : Are parts (n :: nodes)) : Part.first parts = .ok n := by
  cases h with
  | cons hp _ => exact hp

theorem Are.at?_zero {n : Node} (h : Are parts (n :: nodes)) : Part.at? parts 0 = .ok n := h.first

theorem Are.at?_one {n m : Node} (h : Are parts (n :: m :: nodes)) : Part.at? parts 1 = .ok m := by
  cases h with
  | cons _ h => exact Are.first h

theorem Are.at?_two {n m l : Node} (h : Are parts (n :: m :: l :: nodes)) : Part.at? parts 2 = .ok l := by
  cases h with
  | cons _ h => exact Are.at?_one h

theorem Are.arguments (h : Are parts nodes) (hname : ∀ p ∈ parts, p.name ≠ "Instructions") :
    Part.arguments parts = .ok nodes := by
  have hfilter : parts.filter (fun p => p.name != "Instructions") = parts :=
    List.filter_eq_self.mpr fun p hp => by simpa using hname p hp
  rw [Part.arguments, hfilter, h.all]

end Import.Part

/-! ## Definitions that are found again

A definition is found again if from any element with its name and its attributes, and with parts that were read,
the importer makes a use of its name with these parts. -/

namespace Definition

open Import

/-- The importer finds the name of a definition again in an expression. -/
structure RecoversExpression (kind : IdentifierKind) (d : Definition) : Prop where
  element : d.element ≠ "Instructions"
  tree : ∀ (a : Attributes) (span : Span) (parts : List Part) (nodes : List Node), a.Alike d.attributes →
    d.arity.accepts nodes.length → Part.Are parts (nodes ++ d.trailing.map (Node.constant · none)) →
    expressionOf d.element a span parts = .ok (.identifier ⟨d.name, none, kind, none⟩ nodes)

theorem mem_of_lookup? {definitions : List Definition} {name : String} {d : Definition}
    (h : lookup? definitions name = some d) : d ∈ definitions ∧ d.name = name :=
  ⟨List.mem_reverse.mp (List.mem_of_find?_eq_some h), by simpa using List.find?_some h⟩

/-- The elements of statements that are no single instruction. -/
def constructs : List String := ["If", "ElseIf", "While", "Repeat", "For"]

/-- The importer finds the name of a definition again in an instruction. -/
structure RecoversInstruction (kind : InstructionKind) (d : Definition) : Prop where
  element : d.element ∉ constructs
  tree : ∀ (a : Attributes) (children : List (Child Element)) (parts : List Part) (nodes : List Node),
    a.Alike d.attributes → d.arity.accepts nodes.length → (∀ p ∈ parts, p.name ≠ "Instructions") →
    Part.Are parts (nodes ++ d.trailing.map (Node.constant · none)) →
    simpleStatement d.element a children parts = .ok (.instruction ⟨d.name, none, kind, none⟩ nodes)

variable {name element : String} {arity : Nat} {attributes : List (String × String)}

/-- An element that becomes a name with all of its parts. -/
theorem RecoversExpression.of_all {kind : IdentifierKind} (helement : element ≠ "Instructions")
    (h : ∀ (a : Attributes) (span : Span) (parts : List Part), a.Alike (.ofList attributes) →
      expressionOf element a span parts =
        (do return .identifier ⟨name, none, kind, none⟩ (← Part.all parts))) :
    RecoversExpression kind (plain name element arity attributes) where
  element := helement
  tree := by
    intro a span parts nodes ha _ hparts
    rw [show (plain name element arity attributes).element = element from rfl, h a span parts ha]
    rw [show (plain name element arity attributes).trailing = [] from rfl, List.map_nil, List.append_nil] at hparts
    rw [hparts.all]
    rfl

/-- An element that becomes a name with its first part. -/
theorem RecoversExpression.of_first {kind : IdentifierKind} (helement : element ≠ "Instructions")
    (h : ∀ (a : Attributes) (span : Span) (parts : List Part), a.Alike (.ofList attributes) →
      expressionOf element a span parts =
        (do return .identifier ⟨name, none, kind, none⟩ [← Part.first parts])) :
    RecoversExpression kind (plain name element 1 attributes) where
  element := helement
  tree := by
    intro a span parts nodes ha hk hparts
    have hone : 1 = nodes.length := beq_iff_eq.mp hk
    obtain ⟨n, rfl⟩ : ∃ n, nodes = [n] := List.length_eq_one_iff.mp hone.symm
    rw [show (plain name element 1 attributes).element = element from rfl, h a span parts ha]
    rw [show (plain name element 1 attributes).trailing = [] from rfl] at hparts
    rw [Part.Are.first hparts]
    rfl

/-- An element that becomes an instruction with all of its parts. -/
theorem RecoversInstruction.of_arguments {kind : InstructionKind} (helement : element ∉ constructs)
    (h : ∀ (a : Attributes) (children : List (Child Element)) (parts : List Part), a.Alike (.ofList attributes) →
      simpleStatement element a children parts =
        (do return .instruction ⟨name, none, kind, none⟩ (← Part.arguments parts))) :
    RecoversInstruction kind (plain name element arity attributes) where
  element := helement
  tree := by
    intro a children parts nodes ha _ hnames hparts
    rw [show (plain name element arity attributes).element = element from rfl, h a children parts ha]
    rw [show (plain name element arity attributes).trailing = [] from rfl, List.map_nil, List.append_nil] at hparts
    rw [hparts.arguments hnames]
    rfl

/-- An element that becomes an instruction without arguments. -/
theorem RecoversInstruction.of_none {kind : InstructionKind} (helement : element ∉ constructs)
    (h : ∀ (a : Attributes) (children : List (Child Element)) (parts : List Part), a.Alike (.ofList attributes) →
      simpleStatement element a children parts = .ok (.instruction ⟨name, none, kind, none⟩ [])) :
    RecoversInstruction kind (plain name element 0 attributes) where
  element := helement
  tree := by
    intro a children parts nodes ha hk _ _
    have hzero : 0 = nodes.length := beq_iff_eq.mp hk
    obtain rfl : nodes = [] := List.length_eq_zero_iff.mp hzero.symm
    exact h a children parts ha

end Definition

/-! ## Expressions of the catalog

The families of the catalog, each with its own way to spell a name in the attributes of an element. -/

namespace Catalog

open Import Definition

section Lookup

attribute [local simp] NameMap.ofList NameMap.get?_empty NameMap.get?_insert_self NameMap.get?_insert_of_ne

/-- The functions of two numbers that are looked for in documents are those of the catalog. -/
theorem binaryFunctions_eq : Import.binaryFunctions = Catalog.binaryFunctions.map Prod.fst := rfl

/-- Functions of one number are named by an attribute, and those of two have elements of their own. Both lists
are the importer's own, so it is here that they have to agree with the catalog. -/
theorem recovers_mathExpressions : ∀ d ∈ mathExpressions, RecoversExpression .builtin d := by
  rw [mathExpressions, List.forall_mem_append, List.forall_mem_map, List.forall_mem_map]
  constructor
  · intro f _
    refine .of_first (by decide) fun a span parts ha => ?_
    have hf : textOf a "function" = f := Attributes.Alike.textOf ha (by decide) (by simp)
    show (do return builtin ("Math." ++ textOf a "function") [← Part.first parts]) = _
    rw [hf]
    rfl
  · intro f hf
    refine ⟨show "BinaryOp" ≠ "Instructions" by decide, fun a span parts nodes ha hk hparts => ?_⟩
    have htwo : 2 = nodes.length := beq_iff_eq.mp hk
    obtain ⟨l, r, rfl⟩ := List.length_eq_two.mp htwo.symm
    have hop : a.get? "op" = some f.1 := (ha "op" (by decide)).trans (by simp [plain])
    have hfunction : Import.binaryFunctions.contains f.1 = true := by
      rw [List.contains_eq_mem, decide_eq_true_eq, binaryFunctions_eq]
      exact List.mem_map_of_mem hf
    show (if Import.binaryFunctions.contains ((a.get? "op").getD "+") then _ else _) = _
    rw [hop, Option.getD_some, if_pos hfunction, Part.Are.at?_zero hparts,
      Part.Are.at?_one hparts]
    rfl

/-- Operations on vectors are named by an attribute. -/
theorem recovers_vectorExpressions : ∀ d ∈ vectorExpressions, RecoversExpression .builtin d := by
  have hop : ∀ (op style : String) (arity : Nat),
      RecoversExpression .builtin (plain ("Vec." ++ op) "VectorOp" arity [("op", op), ("style", style)]) := by
    intro op style arity
    refine .of_all (by decide) fun a span parts ha => ?_
    have hop : textOf a "op" = op := Attributes.Alike.textOf ha (by decide) (by simp)
    show (do return builtin ("Vec." ++ textOf a "op") (← Part.all parts)) = _
    rw [hop]
    rfl
  have hvec : RecoversExpression .builtin (plain "Vec" "Vector" 3 [("style", "vec")]) :=
    .of_all (by decide) fun _ _ _ _ => rfl
  simp only [vectorExpressions, List.forall_mem_append, List.forall_mem_cons, List.forall_mem_map]
  exact ⟨⟨⟨hvec, fun op _ => hop op _ _⟩, fun op _ => hop op _ _⟩, hop "hex" _ _, by simp⟩

theorem stringOperation_eq {op : String} {a : Attributes} (ha : a.Alike (.ofList [("op", op), ("style", op)])) :
    textOf a "op" = op ∧ Import.stringOperation a = "String." ++ op := by
  have hname : textOf a "op" = op := ha.textOf (by decide) (by simp)
  have hsub : a.get? "subOp" = none := (ha "subOp" (by decide)).trans (by simp)
  exact ⟨hname, by rw [Import.stringOperation, hsub, hname]⟩

/-- An operation on strings with a fixed number of arguments is found again. -/
theorem recovers_stringOperation {op : String} (arity : Nat) (hop : isVariadic op = false) :
    RecoversExpression .builtin (stringOperation op arity) := by
  refine .of_all (by decide) fun a span parts ha => ?_
  obtain ⟨hname, hoperation⟩ := stringOperation_eq ha
  show (do
    let arguments ← Part.all parts
    return builtin (Import.stringOperation a)
      (if isVariadic (textOf a "op") then arguments.dropLast else arguments)) = _
  rw [hoperation, hname, hop]
  rfl

/-- The empty text that ends the arguments is taken off again. -/
theorem recovers_variadicString {op : String} (hop : isVariadic op = true) :
    RecoversExpression .builtin (variadicString op) := by
  refine ⟨show "StringOp" ≠ "Instructions" by decide, fun a span parts nodes ha _ hparts => ?_⟩
  obtain ⟨hname, hoperation⟩ := stringOperation_eq ha
  show (do
    let arguments ← Part.all parts
    return builtin (Import.stringOperation a)
      (if isVariadic (textOf a "op") then arguments.dropLast else arguments)) = _
  rw [hoperation, hname, hop, hparts.all]
  show Except.ok (builtin ("String." ++ op) (nodes ++ [Node.constant (.string "") none]).dropLast) = _
  rw [List.dropLast_concat]
  rfl

/-- The operations on strings, those with any number of arguments included. -/
theorem recovers_stringExpressions : ∀ d ∈ stringExpressions, RecoversExpression .builtin d := by
  have hfriendly : ∀ f : String, RecoversExpression .builtin (plain ("String.friendly." ++ f) "StringOp" 1
      [("op", "friendly"), ("subOp", f), ("style", "friendly")]) := by
    intro f
    refine .of_all (by decide) fun a span parts ha => ?_
    have hname : textOf a "op" = "friendly" := Attributes.Alike.textOf ha (by decide) (by simp)
    have hsub : a.get? "subOp" = some f := (ha "subOp" (by decide)).trans (by simp)
    have hoperation : Import.stringOperation a = "String.friendly." ++ f := by
      rw [Import.stringOperation, hsub, hname]
      rfl
    show (do
      let arguments ← Part.all parts
      return builtin (Import.stringOperation a)
        (if isVariadic (textOf a "op") then arguments.dropLast else arguments)) = _
    rw [hoperation, hname]
    rfl
  simp only [stringExpressions, List.forall_mem_append, List.forall_mem_cons, List.forall_mem_map]
  exact ⟨⟨recovers_variadicString (by decide), recovers_stringOperation _ (by decide),
    recovers_stringOperation _ (by decide), recovers_stringOperation _ (by decide),
    recovers_stringOperation _ (by decide), recovers_variadicString (by decide), by simp⟩, fun f _ => hfriendly f⟩

/-- What is asked of a planet is named by an attribute. -/
theorem recovers_planetExpressions : ∀ d ∈ planetExpressions, RecoversExpression .builtin d := by
  have hop : ∀ (op style : String),
      RecoversExpression .builtin (plain ("Planet." ++ op) "Planet" 1 [("op", op), ("style", style)]) := by
    intro op style
    refine .of_all (by decide) fun a span parts ha => ?_
    have hop : textOf a "op" = op := Attributes.Alike.textOf ha (by decide) (by simp)
    show (do return builtin ("Planet." ++ textOf a "op") (← Part.all parts)) = _
    rw [hop]
    rfl
  simp only [planetExpressions, List.forall_mem_append, List.forall_mem_map]
  exact ⟨fun op _ => hop op _, fun op _ => hop op.1 op.2⟩

theorem recovers_listExpressions : ∀ d ∈ listExpressions, RecoversExpression .builtin d := by
  rw [listExpressions, List.forall_mem_map]
  intro op _
  refine .of_all (by decide) fun a span parts ha => ?_
  have hop : textOf a "op" = op.1 := Attributes.Alike.textOf ha (by decide) (by simp)
  show (do return builtin ("List." ++ textOf a "op") (← Part.all parts)) = _
  rw [hop]
  rfl

/-- A property is found again under the name it has now. -/
theorem recovers_property {d : Definition} (h : d.element = "CraftProperty" ∧ d.trailing.isEmpty ∧
    (d.attributes.get? "property").map presentName = some d.name) : RecoversExpression .builtin d := by
  obtain ⟨helement, htrailing, hname⟩ := h
  obtain ⟨property, hproperty, hpresent⟩ := Option.map_eq_some_iff.mp hname
  refine ⟨by rw [helement]; decide, fun a span parts nodes ha _ hparts => ?_⟩
  rw [List.isEmpty_iff.mp htrailing, List.map_nil, List.append_nil] at hparts
  rw [helement]
  show (do
    let property ← required "property" "CraftProperty" a span
    return builtin (presentName property) (← Part.all parts)) = _
  rw [required, ha "property" (by decide), hproperty, hparts.all, ← hpresent]
  rfl

/-- The properties of crafts, parts and displays. -/
theorem recovers_properties : ∀ d ∈ propertyExpressions ++ displayExpressions, RecoversExpression .builtin d := by
  have hproperty : ∀ d ∈ propertyExpressions ++ displayExpressions, d.element = "CraftProperty" ∧
      d.trailing.isEmpty ∧ (d.attributes.get? "property").map presentName = some d.name := by
    decide +kernel
  exact fun d hd => recovers_property (hproperty d hd)

theorem recovers_otherExpressions : ∀ d ∈ otherExpressions, RecoversExpression .builtin d := by
  have hgroup : RecoversExpression .builtin (plain "AG.Get" "ActivationGroup" 1 [("style", "activation-group")]) :=
    .of_all (by decide) fun _ _ _ _ => rfl
  have hevaluate : RecoversExpression .builtin
      (plain "funk" "EvaluateExpression" 1 [("style", "evaluate-expression")]) :=
    .of_first (by decide) fun _ _ _ _ => rfl
  simp only [otherExpressions, List.forall_mem_cons]
  exact ⟨hgroup, recovers_property (by decide), hevaluate, by simp⟩

/-- **Every builtin name in an expression is found again.** -/
theorem recovers_expression? {name : String} {d : Definition} (h : expression? name = some d) :
    d.name = name ∧ RecoversExpression .builtin d := by
  obtain ⟨hmem, hname⟩ := mem_of_lookup? h
  obtain ⟨hproperty, hdisplay⟩ := List.forall_mem_append.mp recovers_properties
  have hall : ∀ d ∈ expressions, RecoversExpression .builtin d := by
    simp only [expressions, List.forall_mem_append]
    exact ⟨⟨⟨⟨⟨⟨⟨recovers_mathExpressions, recovers_vectorExpressions⟩, recovers_stringExpressions⟩,
      recovers_planetExpressions⟩, recovers_listExpressions⟩, recovers_otherExpressions⟩, hproperty⟩, hdisplay⟩
  exact ⟨hname, hall d hmem⟩

/-! ## Instructions of the catalog

The same for instructions. -/

/-- An instruction that sets a property is named by it. -/
theorem recovers_propertySetter {d : Definition} (h : d.element = "SetCraftProperty" ∧ d.trailing.isEmpty ∧
    d.attributes.get? "property" = some d.name) : RecoversInstruction .builtin d := by
  obtain ⟨helement, htrailing, hproperty⟩ := h
  refine ⟨by rw [helement]; decide, fun a children parts nodes ha _ hnames hparts => ?_⟩
  rw [List.isEmpty_iff.mp htrailing, List.map_nil, List.append_nil] at hparts
  rw [helement]
  show (do return instruction ((a.get? "property").getD "Part.SetActivated") (← Part.arguments parts)) = _
  rw [ha "property" (by decide), hproperty, hparts.arguments hnames]
  rfl

/-- Instructions that have elements of their own. -/
theorem recovers_basicInstructions : ∀ d ∈ basicInstructions, RecoversInstruction .builtin d := by
  have hstage : RecoversInstruction .builtin (plain "ActivateStage" "ActivateStage" 0 [("style", "activate-stage")]) :=
    .of_none (by decide) fun _ _ _ _ => rfl
  have htarget : RecoversInstruction .builtin (plain "SetTarget" "SetTarget" 1 [("style", "set-target")]) :=
    .of_arguments (by decide) fun _ _ _ _ => rfl
  have hgroup : RecoversInstruction .builtin (plain "AG.Set" "SetActivationGroup" 2 [("style", "set-ag")]) :=
    .of_arguments (by decide) fun _ _ _ _ => rfl
  have hswitch : RecoversInstruction .builtin (plain "Craft.Switch" "SwitchCraft" 1 [("style", "switch-craft")]) :=
    .of_arguments (by decide) fun _ _ _ _ => rfl
  have huser : RecoversInstruction .builtin (plain "UserInput" "UserInput" 2 [("style", "user-input")]) :=
    .of_arguments (by decide) fun _ _ _ _ => rfl
  have hcase : ∀ input ∈ inputs, Text.upperFirst (Text.lowerFirst input) = input := by decide +kernel
  simp only [basicInstructions, List.forall_mem_append, List.forall_mem_cons, List.forall_mem_map]
  refine ⟨⟨hstage, htarget, hgroup, hswitch, recovers_propertySetter (by decide), huser, by simp⟩, fun input hi => ?_⟩
  refine .of_arguments (by decide) fun a children parts ha => ?_
  have hinput : a.get? "input" = some (Text.lowerFirst input) := (ha "input" (by decide)).trans (by simp)
  show (do
    return instruction ("Input.Set" ++ Text.upperFirst ((a.get? "input").getD "slider1"))
      (← Part.arguments parts)) = _
  rw [hinput, Option.getD_some, hcase input hi]
  rfl

/-- Instructions that steer a craft. Some of them are told apart by an attribute, whose values are gone through.
-/
theorem recovers_navigationInstructions : ∀ d ∈ navigationInstructions, RecoversInstruction .builtin d := by
  have hlock : ∀ (indicator style : String) (arity : Nat), RecoversInstruction .builtin
      (plain ("Nav.Lock" ++ indicator) "LockNavSphere" arity [("indicatorType", indicator), ("style", style)]) := by
    intro indicator style arity
    refine .of_arguments (by decide) fun a children parts ha => ?_
    have hindicator : a.get? "indicatorType" = some indicator := (ha "indicatorType" (by decide)).trans (by simp)
    show (do return instruction ("Nav.Lock" ++ (a.get? "indicatorType").getD "None") (← Part.arguments parts)) = _
    rw [hindicator]
    rfl
  have hsetter : ∀ s ∈ headingSetters, headingSetter? s.2 = some s.1 := by decide
  simp only [navigationInstructions, List.forall_mem_append, List.forall_mem_cons, List.forall_mem_map]
  refine ⟨⟨⟨fun indicator _ => hlock indicator _ _, hlock "Vector" _ _, by simp⟩, fun s hs => ?_⟩, fun mode _ => ?_⟩
  · refine .of_arguments (by decide) fun a children parts ha => ?_
    have hproperty : a.get? "property" = some s.2 := (ha "property" (by decide)).trans (by simp)
    show (do
      return instruction (((a.get? "property").bind headingSetter?).getD "Nav.SetAutopilotHeading")
        (← Part.arguments parts)) = _
    rw [hproperty, Option.bind_some, hsetter s hs]
    rfl
  · refine .of_none (by decide) fun a children parts ha => ?_
    have hmode : a.get? "mode" = some mode := (ha "mode" (by decide)).trans (by simp)
    show Except.ok (instruction ("SetTimeMode." ++ (a.get? "mode").getD "Normal") []) = _
    rw [hmode]
    rfl

/-- The seconds that a shown message stays are not an argument. -/
theorem recovers_display : RecoversInstruction .builtin
    ⟨"Display", "DisplayMessage", .ofList [("style", "display")], [.number "7"], .exactly 1⟩ := by
  refine ⟨show "DisplayMessage" ∉ constructs by decide, fun a children parts nodes _ hk _ hparts => ?_⟩
  have hone : 1 = nodes.length := beq_iff_eq.mp hk
  obtain ⟨n, rfl⟩ : ∃ n, nodes = [n] := List.length_eq_one_iff.mp hone.symm
  show (do return instruction "Display" [← Part.first parts]) = _
  rw [Part.Are.first hparts]
  rfl

/-- Instructions that show or log something. -/
theorem recovers_outputInstructions : ∀ d ∈ outputInstructions, RecoversInstruction .builtin d := by
  have hlog : RecoversInstruction .builtin (plain "Log.Message" "LogMessage" 1 [("style", "log")]) :=
    .of_arguments (by decide) fun _ _ _ _ => rfl
  have hflight : RecoversInstruction .builtin (plain "Log.Flight" "LogFlight" 2 [("style", "flightlog")]) :=
    .of_arguments (by decide) fun _ _ _ _ => rfl
  have hcase : ∀ property ∈ cameraProperties, Text.upperFirst (Text.lowerFirst property) = property := by
    decide +kernel
  simp only [outputInstructions, List.forall_mem_append, List.forall_mem_cons, List.forall_mem_map]
  refine ⟨⟨recovers_display, hlog, hflight, by simp⟩, fun property hp => ?_⟩
  refine .of_arguments (by decide) fun a children parts ha => ?_
  have hproperty : a.get? "property" = some (Text.lowerFirst property) := (ha "property" (by decide)).trans (by simp)
  show (do
    return instruction ("Camera." ++ Text.upperFirst ((a.get? "property").getD "zoom"))
      (← Part.arguments parts)) = _
  rw [hproperty, Option.getD_some, hcase property hp]
  rfl

theorem recovers_partInstructions : ∀ d ∈ partInstructions, RecoversInstruction .builtin d := by
  have hsetter : ∀ name, RecoversInstruction .builtin (propertySetter "set-part" 2 name) :=
    fun name => recovers_propertySetter ⟨rfl, rfl, by simp [propertySetter, plain]⟩
  simp only [partInstructions, List.forall_mem_append, List.forall_mem_map]
  refine ⟨fun name _ => hsetter name, fun op _ => ?_⟩
  refine .of_arguments (by decide) fun a children parts ha => ?_
  have hop : a.get? "op" = some op.1 := (ha "op" (by decide)).trans (by simp)
  show (do return instruction ("List." ++ (a.get? "op").getD "add") (← Part.arguments parts)) = _
  rw [hop]
  rfl

/-- The instruction for messages of a style. -/
def broadcastName : Option String → String
  | some "broadcast-msg-craft" => "Broadcast.Craft"
  | some "broadcast-msg-all-crafts" => "Broadcast.Nearby"
  | _ => "Broadcast.This"

/-- Messages are told apart by their style. -/
theorem recovers_broadcastInstructions : ∀ d ∈ broadcastInstructions, RecoversInstruction .builtin d := by
  have hstyle : ∀ (name isGlobal isLocal style : String), broadcastName (some style) = name →
      RecoversInstruction .builtin (broadcast name isGlobal isLocal style) := by
    intro name isGlobal isLocal style hname
    refine .of_arguments (by decide) fun a children parts ha => ?_
    have hget : a.get? "style" = some style := (ha "style" (by decide)).trans (by simp)
    show (do return instruction (broadcastName (a.get? "style")) (← Part.arguments parts)) = _
    rw [hget, hname]
    rfl
  simp only [broadcastInstructions, List.forall_mem_cons]
  exact ⟨hstyle _ _ _ _ rfl, hstyle _ _ _ _ rfl, hstyle _ _ _ _ rfl, by simp⟩

theorem recovers_displayInstructions : ∀ d ∈ displayInstructions, RecoversInstruction .builtin d := by
  have hproperty : ∀ d ∈ displayInstructions, d.element = "SetCraftProperty" ∧ d.trailing.isEmpty ∧
      d.attributes.get? "property" = some d.name := by
    decide +kernel
  exact fun d hd => recovers_propertySetter (hproperty d hd)

/-- **Every builtin instruction is found again.** -/
theorem recovers_instruction? {name : String} {d : Definition} (h : instruction? name = some d) :
    d.name = name ∧ RecoversInstruction .builtin d := by
  obtain ⟨hmem, hname⟩ := mem_of_lookup? h
  have hall : ∀ d ∈ instructions, RecoversInstruction .builtin d := by
    simp only [instructions, List.forall_mem_append]
    exact ⟨⟨⟨⟨⟨recovers_basicInstructions, recovers_navigationInstructions⟩, recovers_outputInstructions⟩,
      recovers_partInstructions⟩, recovers_broadcastInstructions⟩, recovers_displayInstructions⟩
  exact ⟨hname, hall d hmem⟩

end Lookup

end Catalog

/-! ## Declared names

What a program declares is spelt by a variable element or a call, which hold its name. -/

namespace Globals

/-- Every definition is that of something declared under its name. -/
structure Declared (g : Globals) : Prop where
  vars : ∀ name d, g.vars.get? name = some d → ∃ v, d = ofVariable v ∧ v.name = name
  instructions : ∀ name d, g.instructions.get? name = some d → ∃ h, d = ofInstruction h ∧ h.name = name
  expressions : ∀ name d, g.expressions.get? name = some d → ∃ h, d = ofExpression h ∧ h.name = name

/-- One more item of a program is declared under its name. -/
theorem Declared.add {g : Globals} (hg : g.Declared) (n : Node) : (g.add n).Declared := by
  -- a new entry has the name that was asked for, and the others are as they were
  have hinsert : ∀ {β : Type} {m : NameMap Definition} {ofHead : β → Definition} {nameOf : β → String} (h : β),
      (∀ name d, m.get? name = some d → ∃ h, d = ofHead h ∧ nameOf h = name) →
      ∀ name d, (m.insert (nameOf h) (ofHead h)).get? name = some d → ∃ h, d = ofHead h ∧ nameOf h = name := by
    intro β m ofHead nameOf h hm name d hget
    by_cases hname : name = nameOf h
    · subst hname
      rw [NameMap.get?_insert_self] at hget
      exact ⟨h, (Option.some.inj hget).symm, rfl⟩
    · rw [NameMap.get?_insert_of_ne _ _ hname] at hget
      exact hm name d hget
  cases n with
  | instructionDeclaration h _ => exact ⟨hg.vars, hinsert h hg.instructions, hg.expressions⟩
  | expressionDeclaration h _ => exact ⟨hg.vars, hg.instructions, hinsert h hg.expressions⟩
  | _ => exact hg

/-- Everything that a program declares is declared under its name, by induction over its variables and its items.
-/
theorem declared_ofProgram (vars : List VariableDeclaration) (body : List Node) : (ofProgram vars body).Declared := by
  have hvars : Declared { vars := .ofList (vars.map fun d => (d.name, ofVariable d)) } := by
    refine ⟨fun name d hget => ?_, nofun, nofun⟩
    obtain ⟨v, _, hv⟩ := List.mem_map.mp (NameMap.mem_of_get?_ofList hget)
    cases hv
    exact ⟨v, rfl, rfl⟩
  unfold ofProgram
  generalize ({ vars := _ } : Globals) = g at hvars
  induction body generalizing g with
  | nil => exact hvars
  | cons n ns ih => exact ih (g.add n) (hvars.add n)

end Globals

namespace Scope

open Definition Import

section Lookup

attribute [local simp] NameMap.ofList NameMap.get?_empty NameMap.get?_insert_self NameMap.get?_insert_of_ne

/-- A variable is found again by its name, as local or not. -/
theorem recovers_variable (name list : String) (isLocal : Bool) : RecoversExpression
    (if isLocal then .local_ else .global) (plain name "Variable" 0
      [("list", list), ("local", if isLocal then "true" else "false"), ("variableName", name)]) := by
  refine ⟨show "Variable" ≠ "Instructions" by decide, fun a span parts nodes ha hk _ => ?_⟩
  have hzero : 0 = nodes.length := beq_iff_eq.mp hk
  obtain rfl : nodes = [] := List.length_eq_zero_iff.mp hzero.symm
  have hname : textOf a "variableName" = name := ha.textOf (by decide) (by simp [plain])
  have hlocal : a.get? "local" = some (if isLocal then "true" else "false") :=
    (ha "local" (by decide)).trans (by simp [plain])
  show Except.ok (Node.identifier ⟨textOf a "variableName", none,
    if a.get? "local" == some "true" then .local_ else .global, none⟩ []) = _
  rw [hname, hlocal]
  cases isLocal <;> rfl

theorem recovers_ofExpression (h : DeclarationHead) : RecoversExpression .expression (Globals.ofExpression h) := by
  refine .of_all (by decide) fun a span parts ha => ?_
  have hcall : a.get? "call" = some h.name := (ha "call" (by decide)).trans (by simp)
  show (do
    let call ← required "call" "CallCustomExpression" a span
    return Node.identifier ⟨call, none, .expression, none⟩ (← Part.all parts)) = _
  rw [required, hcall]
  rfl

theorem recovers_ofInstruction (h : DeclarationHead) : RecoversInstruction .global (Globals.ofInstruction h) := by
  refine .of_arguments (by decide) fun a children parts ha => ?_
  have hcall : textOf a "call" = h.name := Attributes.Alike.textOf ha (by decide) (by simp)
  show (do return Node.instruction ⟨textOf a "call", none, .global, none⟩ (← Part.arguments parts)) = _
  rw [hcall]

end Lookup

variable {s : Scope} {name : String} {d : Definition}

/-- **Every name in an expression is found again.** -/
theorem recovers_identifier {kind : IdentifierKind} (hs : s.globals.Declared)
    (h : s.identifier? name kind = some d) : d.name = name ∧ RecoversExpression kind d := by
  cases kind with
  | local_ =>
      cases h
      exact ⟨rfl, recovers_variable name "false" true⟩
  | global =>
      obtain ⟨v, rfl, hname⟩ := hs.vars name d h
      exact ⟨hname, recovers_variable v.name _ false⟩
  | expression =>
      obtain ⟨head, rfl, hname⟩ := hs.expressions name d h
      exact ⟨hname, recovers_ofExpression head⟩
  | builtin => exact Catalog.recovers_expression? h
  | unknown => cases h
  | invalid => cases h

/-- **Every instruction is found again.** -/
theorem recovers_instruction {kind : InstructionKind} (hs : s.globals.Declared)
    (h : s.instruction? name kind = some d) : d.name = name ∧ RecoversInstruction kind d := by
  cases kind with
  | global =>
      obtain ⟨head, rfl, hname⟩ := hs.instructions name d h
      exact ⟨hname, recovers_ofInstruction head⟩
  | builtin => exact Catalog.recovers_instruction? h
  | unknown => cases h
  | invalid => cases h

end Scope

end FlightScript
