import FlightScript.Proofs.Elements
import FlightScript.Proofs.Scoping

/-!
# `Proofs.Numbering` — the ids of a document

Ids are given to the elements of a finished document, in its order. Only heads and statements have a place for one:
the elements of expressions, and those around blocks, are left as they are.

## Contents

* `Element.places`: the elements of a document in their order;
* `Export.ids_number`, `Export.outline_number`: numbering is dense and keeps every element at its place;
* `Place.Regular`: which elements carry an id, by their names and by where they stand;
* `Export.silent_expression`: expressions take no numbers.
-/

namespace FlightScript

/-! ## Places in a document

An element is looked at together with the name of the element around it. Whether it has an id is told by its own
name, and where it may stand by what is around it. -/

/-- An element of a document, with the name of the element around it. -/
structure Place where
  around : Option String
  element : Element

namespace Place

/-- The id of the element at a place. -/
def id? (p : Place) : Option String := p.element.attr? "id"

/-- What numbering keeps of a place. -/
def outline (p : Place) : Option String × String × Bool := (p.around, p.element.name, p.id?.isSome)

end Place

namespace Element

mutual

/-- An element and the elements in it, in the order of the document. -/
def places (around : Option String) : Element → List Place
  | ⟨name, attributes, children, span⟩ => ⟨around, ⟨name, attributes, children, span⟩⟩ :: placesIn name children

/-- The elements among the children of an element. -/
def placesIn (around : String) : List (Child Element) → List Place
  | [] => []
  | .element e :: rest => e.places (some around) ++ placesIn around rest
  | .text .. :: rest => placesIn around rest

end

/-- The ids of a document, in its order. -/
def ids (e : Element) : List String := (e.places none).filterMap Place.id?

theorem placesIn_map_element (around : String) (es : List Element) :
    placesIn around (es.map Child.element) = es.flatMap (places (some around)) := by
  induction es with
  | nil => rfl
  | cons e es ih => rw [List.map_cons, placesIn, ih, List.flatMap_cons]

theorem places_make (around : Option String) (name : String) (attributes : List (String × String))
    (es : List Element) : (make name attributes es).places around =
      ⟨around, make name attributes es⟩ :: es.flatMap (places (some name)) := by
  rw [make, places, placesIn_map_element]

end Element

/-! ## Numbering a document

Numbering goes through the document in its order and hands the next number on. Both facts about it are by the
recursion of the numbering itself. -/

namespace NameMap

variable {α : Type}

theorem get?_of_contains_false {m : NameMap α} {name : String} (h : m.contains name = false) : m.get? name = none := by
  simpa [contains] using h

/-- A value is found under a name exactly if the pair is among the entries. The entries are in the order of their
names, so there is at most one for each. -/
theorem get?_eq_some_iff {m : NameMap α} {name : String} {value : α} :
    m.get? name = some value ↔ (name, value) ∈ m.entries := by
  obtain ⟨entries, hsorted⟩ := m
  show (entries.find? _).map _ = _ ↔ _
  induction entries with
  | nil => simp
  | cons e es ih =>
      obtain ⟨hlt, hes⟩ := List.pairwise_cons.mp hsorted
      by_cases he : e.1 = name
      · -- the entries behind this one have greater names
        have hnot : (name, value) ∉ es := by
          intro hmem
          exact String.lt_irrefl name (by simpa [he] using hlt _ hmem)
        rw [List.find?_cons_of_pos (by simpa using he), List.mem_cons, or_iff_left hnot]
        simp [Prod.ext_iff, he, eq_comm]
      · rw [List.find?_cons_of_neg (by simpa using he), ih hes, List.mem_cons, or_iff_right]
        rintro rfl
        exact he rfl

/-- Maps with the same values are equal. -/
theorem ext_get? {m n : NameMap α} (h : ∀ name, m.get? name = n.get? name) : m = n := by
  have hmem : ∀ e, e ∈ m.entries ↔ e ∈ n.entries := by
    intro e
    rw [← get?_eq_some_iff (m := m), ← get?_eq_some_iff (m := n), h]
  have hnodup : ∀ l : NameMap α, l.entries.Nodup := by
    intro l
    refine l.sorted.imp ?_
    rintro a b hlt rfl
    exact String.lt_irrefl _ hlt
  -- two sorted lists with the same entries are the same list
  have hperm := (List.perm_ext_iff_of_nodup (hnodup m) (hnodup n)).mpr hmem
  refine ext_entries (hperm.eq_of_pairwise ?_ m.sorted n.sorted)
  intro a b _ _ hab hba
  exact absurd (String.lt_trans hab hba) (String.lt_irrefl _)

end NameMap

namespace Export

open Element

mutual

/-- **Numbering is dense**: the ids of a numbered element are the numbers that it used up, in order. -/
theorem ids_number : (e : Element) → (around : Option String) → (k : Nat) → ∃ m, (number k e).2 = k + m ∧
    ((number k e).1.places around).filterMap Place.id? = (List.range' k m).map toString
  | ⟨name, attributes, children, span⟩, around, k => by
      rw [number]
      by_cases hid : attributes.contains "id" = true
      · -- the element comes before what is in it, in the document as in the numbers
        obtain ⟨m, hnext, hids⟩ := ids_numberAll children name (k + 1)
        refine ⟨m + 1, ?_, ?_⟩
        · rw [if_pos hid]
          show (numberAll (k + 1) children).2 = k + (m + 1)
          omega
        · have hself : Place.id? ⟨around, ⟨name, attributes.insert "id" (toString k),
              (numberAll (k + 1) children).1, span⟩⟩ = some (toString k) := NameMap.get?_insert_self _ _ _
          rw [if_pos hid]
          show List.filterMap Place.id? (_ :: _) = _
          rw [List.filterMap_cons_some hself, hids, List.range'_succ, List.map_cons]
      · obtain ⟨m, hnext, hids⟩ := ids_numberAll children name k
        rw [if_neg hid]
        refine ⟨m, hnext, ?_⟩
        have hself : Place.id? ⟨around, ⟨name, attributes, (numberAll k children).1, span⟩⟩ = none :=
          NameMap.get?_of_contains_false (Bool.not_eq_true _ ▸ hid)
        show List.filterMap Place.id? (_ :: _) = _
        rw [List.filterMap_cons_none hself, hids]

/-- The ids among several children are the numbers that they used up together, in order. -/
theorem ids_numberAll : (children : List (Child Element)) → (around : String) → (k : Nat) →
    ∃ m, (numberAll k children).2 = k + m ∧
      (placesIn around (numberAll k children).1).filterMap Place.id? = (List.range' k m).map toString
  | [], _, k => ⟨0, rfl, rfl⟩
  | .text value span :: rest, around, k => ids_numberAll rest around k
  | .element e :: rest, around, k => by
      obtain ⟨m, hnext, hids⟩ := ids_number e (some around) k
      obtain ⟨l, hnext', hids'⟩ := ids_numberAll rest around (number k e).2
      refine ⟨m + l, ?_, ?_⟩
      · show (numberAll (number k e).2 rest).2 = _
        omega
      · show ((number k e).1.places (some around) ++ placesIn around (numberAll (number k e).2 rest).1).filterMap _ = _
        rw [List.filterMap_append, hids, hids', hnext, ← List.map_append, List.range'_append_1]

end

mutual

/-- Numbering keeps every element at its place. -/
theorem outline_number : (e : Element) → (around : Option String) → (k : Nat) →
    ((number k e).1.places around).map Place.outline = (e.places around).map Place.outline
  | ⟨name, attributes, children, span⟩, around, k => by
      rw [number]
      by_cases hid : attributes.contains "id" = true
      · have hself : (attributes.insert "id" (toString k)).contains "id" = attributes.contains "id" := by
          rw [hid, NameMap.contains, NameMap.get?_insert_self]
          rfl
        rw [if_pos hid]
        exact congrArg₂ List.cons (congrArg (around, name, ·) hself) (outline_numberAll children name (k + 1))
      · rw [if_neg hid]
        exact congrArg (_ :: ·) (outline_numberAll children name k)

theorem outline_numberAll : (children : List (Child Element)) → (around : String) → (k : Nat) →
    (placesIn around (numberAll k children).1).map Place.outline = (placesIn around children).map Place.outline
  | [], _, _ => rfl
  | .text value span :: rest, around, k => outline_numberAll rest around k
  | .element e :: rest, around, k => by
      show ((number k e).1.places (some around) ++ placesIn around (numberAll (number k e).2 rest).1).map _ = _
      rw [placesIn, List.map_append, List.map_append, outline_number e, outline_numberAll rest]

end

/-! Several elements in a row are numbered one after another. -/

/-- Elements with ids from a number on, and the number after them. -/
def numberList (next : Nat) : List Element → List Element × Nat
  | [] => ([], next)
  | e :: es =>
    let r := number next e
    let rs := numberList r.2 es
    (r.1 :: rs.1, rs.2)

theorem numberAll_map_element (es : List Element) (k : Nat) :
    numberAll k (es.map Child.element) = ((numberList k es).1.map Child.element, (numberList k es).2) := by
  induction es generalizing k with
  | nil => rfl
  | cons e es ih =>
      rw [List.map_cons, numberAll, ih]
      rfl

theorem numberList_append (es fs : List Element) (k : Nat) : numberList k (es ++ fs) =
    ((numberList k es).1 ++ (numberList (numberList k es).2 fs).1, (numberList (numberList k es).2 fs).2) := by
  induction es generalizing k with
  | nil => rfl
  | cons e es ih =>
      rw [List.cons_append, numberList, ih]
      rfl

/-- An element with a place for an id gets the next number, before what is in it. -/
theorem number_make_of_id {name : String} {attributes : List (String × String)}
    (h : (NameMap.ofList attributes).contains "id" = true) (es : List Element) (k : Nat) :
    number k (.make name attributes es) =
      ((Element.make name attributes (numberList (k + 1) es).1).withAttr "id" (toString k),
        (numberList (k + 1) es).2) := by
  rw [Element.make, number, if_pos h, numberAll_map_element]
  rfl

theorem number_make_of_not_id {name : String} {attributes : List (String × String)}
    (h : (NameMap.ofList attributes).contains "id" = false) (es : List Element) (k : Nat) :
    number k (.make name attributes es) = (.make name attributes (numberList k es).1, (numberList k es).2) := by
  rw [Element.make, number, if_neg (by rw [h]; decide), numberAll_map_element]
  rfl

/-- Elements that numbering leaves as they are. -/
theorem numberList_of_fixed {es : List Element} (h : ∀ e ∈ es, ∀ k, number k e = (e, k)) (k : Nat) :
    numberList k es = (es, k) := by
  induction es with
  | nil => rfl
  | cons e es ih =>
      obtain ⟨he, hes⟩ := List.forall_mem_cons.mp h
      rw [numberList, he k]
      show ((e :: (numberList k es).1, (numberList k es).2) : List Element × Nat) = (e :: es, k)
      rw [ih hes]

/-- The block inside a construct has no id, so its statements get the numbers that they would get alone. -/
theorem numberList_innerBlock (es : List Element) (k : Nat) :
    numberList k (innerBlock es) = (innerBlock (numberList k es).1, (numberList k es).2) := by
  cases es with
  | nil => rfl
  | cons e es =>
      have hblock : ∀ fs : List Element, block none fs = .make "Instructions" [] fs := by
        intro fs
        cases fs <;> rfl
      have hnumber := @number_make_of_not_id "Instructions" [] rfl (e :: es) k
      show numberList k [block none (e :: es)] = ([block none (numberList k (e :: es)).1], _)
      rw [hblock, hblock, numberList, hnumber]
      rfl

end Export

/-! ## Which elements carry an id

The names of elements fall into four groups, and an element of a group can only stand at certain places. So it is
enough to look at each construct once. -/

namespace Export

theorem not_numbered : ∀ name ∈ expressionNames ++ frameNames,
    name ∉ headNames ++ statementNames ∧ name ≠ "Break" ∧ name ≠ "Instructions" := by
  decide +kernel

theorem numbered_ne : ∀ name ∈ headNames ++ statementNames,
    name ∉ expressionNames ++ frameNames ∧ name ≠ "Break" ∧ name ≠ "Instructions" := by
  decide +kernel

end Export

open Export (headNames statementNames expressionNames frameNames)

/-- A place has an element with an id exactly if the element is a head or a statement other than `Break`, and these
are the elements that stand in a block or alone. -/
structure Place.Regular (p : Place) : Prop where
  numbered : p.id?.isSome = true ↔ p.element.name ∈ headNames ++ statementNames
  plain : p.id?.isSome = false ↔ p.element.name ∈ "Break" :: "Instructions" :: (expressionNames ++ frameNames)
  inside : p.around = some "Instructions" → p.id?.isSome = true ∨ p.element.name = "Break"
  outside : p.id?.isSome = true ∨ p.element.name = "Break" → p.around = some "Instructions" ∨ p.around = none

namespace Place

variable {p q : Place}

/-- Which elements carry an id is seen from the outline. -/
theorem Regular.congr (h : p.outline = q.outline) (hq : q.Regular) : p.Regular := by
  obtain ⟨haround, hname, hid⟩ : p.around = q.around ∧ p.element.name = q.element.name ∧
      p.id?.isSome = q.id?.isSome := by simpa [outline] using h
  constructor
  · rw [hid, hname]
    exact hq.numbered
  · rw [hid, hname]
    exact hq.plain
  · rw [haround, hid, hname]
    exact hq.inside
  · rw [haround, hid, hname]
    exact hq.outside

/-- An element that stands for an expression or around blocks. -/
theorem regular_of_plain (hname : p.element.name ∈ expressionNames ++ frameNames) (hid : p.id? = none)
    (haround : p.around ≠ some "Instructions") : p.Regular := by
  obtain ⟨hnumbered, hbreak, -⟩ := Export.not_numbered _ hname
  refine ⟨?_, ?_, fun h => absurd h haround, ?_⟩
  · simp [hid, hnumbered]
  · simp [hid, List.mem_append.mp hname]
  · simp [hid, hbreak]

/-- A block. -/
theorem regular_of_block (hname : p.element.name = "Instructions") (hid : p.id? = none)
    (haround : p.around ≠ some "Instructions") : p.Regular := by
  refine ⟨?_, ?_, fun h => absurd h haround, ?_⟩
  · rw [hid, hname]
    decide +kernel
  · simp [hid, hname]
  · simp [hid, hname]

/-- A head or a statement. -/
theorem regular_of_numbered (hname : p.element.name ∈ headNames ++ statementNames) (hid : p.id?.isSome = true)
    (haround : p.around = none ∨ p.around = some "Instructions") : p.Regular := by
  obtain ⟨hplain, hbreak, hblock⟩ := Export.numbered_ne _ hname
  refine ⟨?_, ?_, fun _ => .inl hid, fun _ => haround.symm⟩
  · simp only [hid, hname]
  · simp [hid, hbreak, hblock, List.mem_append.not.mp hplain]

/-- The statement without an id. -/
theorem regular_of_break (hname : p.element.name = "Break") (hid : p.id? = none)
    (haround : p.around = none ∨ p.around = some "Instructions") : p.Regular := by
  refine ⟨?_, ?_, fun _ => .inr hname, fun _ => haround.symm⟩
  · rw [hid, hname]
    decide +kernel
  · simp [hid, hname]

end Place

namespace Element

variable {name : String} {attributes : List (String × String)} {e : Element} {es : List Element}

/-- An element that can stand anywhere but in a block. -/
def Outer (e : Element) : Prop := ∀ around, around ≠ some "Instructions" → ∀ p ∈ e.places around, p.Regular

/-- An element that can stand in a block or alone. -/
def Counted (e : Element) : Prop :=
  ∀ around, around = none ∨ around = some "Instructions" → ∀ p ∈ e.places around, p.Regular

/-- The element of an expression: it takes no number. -/
structure Silent (e : Element) : Prop where
  outer : e.Outer
  number : ∀ k, Export.number k e = (e, k)

theorem contains_id_ofList (h : ∀ a ∈ attributes, a.1 ≠ "id") : (NameMap.ofList attributes).contains "id" = false := by
  rw [Bool.eq_false_iff, ne_eq, NameMap.contains_ofList, List.mem_map]
  rintro ⟨a, ha, hid⟩
  exact h a ha hid

theorem id?_make {around : Option String} (h : ∀ a ∈ attributes, a.1 ≠ "id") :
    Place.id? ⟨around, make name attributes es⟩ = none :=
  NameMap.get?_of_contains_false (contains_id_ofList h)

/-- An element of an expression, or around blocks, has no id, and neither may the elements in it stand in a
block. -/
theorem outer_make (hname : name ∈ expressionNames ++ frameNames) (hkeys : ∀ a ∈ attributes, a.1 ≠ "id")
    (hes : ∀ e ∈ es, e.Outer) : (make name attributes es).Outer := by
  intro around haround p hp
  rw [places_make, List.mem_cons, List.mem_flatMap] at hp
  rcases hp with rfl | ⟨e, he, hp⟩
  · exact Place.regular_of_plain hname (id?_make hkeys) haround
  · exact hes e he (some name) (by simpa using (Export.not_numbered name hname).2.2) p hp

theorem silent_make (hname : name ∈ expressionNames ++ frameNames) (hkeys : ∀ a ∈ attributes, a.1 ≠ "id")
    (hes : ∀ e ∈ es, e.Silent) : (make name attributes es).Silent where
  outer := outer_make hname hkeys fun e he => (hes e he).outer
  number k := by
    rw [Export.number_make_of_not_id (contains_id_ofList hkeys),
      Export.numberList_of_fixed (fun e he => (hes e he).number)]

/-- A block of statements. -/
theorem outer_instructions (hes : ∀ e ∈ es, e.Counted) : (make "Instructions" [] es).Outer := by
  intro around haround p hp
  rw [places_make, List.mem_cons, List.mem_flatMap] at hp
  rcases hp with rfl | ⟨e, he, hp⟩
  · exact Place.regular_of_block rfl rfl haround
  · exact hes e he (some "Instructions") (.inr rfl) p hp

/-- A head or a statement has its parts in front of its block. -/
theorem counted_make (hname : name ∈ headNames ++ statementNames) (hid : (NameMap.ofList attributes).contains "id" = true)
    (hes : ∀ e ∈ es, e.Outer) : (make name attributes es).Counted := by
  intro around haround p hp
  rw [places_make, List.mem_cons, List.mem_flatMap] at hp
  rcases hp with rfl | ⟨e, he, hp⟩
  · exact Place.regular_of_numbered hname hid haround
  · exact hes e he (some name) (by simpa using (Export.numbered_ne name hname).2.2) p hp

/-- A position changes nothing else. -/
theorem outline_withAttr {key : String} (hkey : key ≠ "id") (value : String) (around : Option String) :
    ((e.withAttr key value).places around).map Place.outline = (e.places around).map Place.outline := by
  obtain ⟨name, attributes, children, span⟩ := e
  have hself : Place.outline ⟨around, withAttr ⟨name, attributes, children, span⟩ key value⟩ =
      Place.outline ⟨around, ⟨name, attributes, children, span⟩⟩ := by
    show (around, name, ((attributes.insert key value).get? "id").isSome) = (around, name, (attributes.get? "id").isSome)
    rw [NameMap.get?_insert_of_ne _ _ hkey.symm]
  exact congrArg (· :: _) hself

theorem regular_of_outline {around : Option String} {f : Element}
    (h : (f.places around).map Place.outline = (e.places around).map Place.outline)
    (he : ∀ p ∈ e.places around, p.Regular) : ∀ p ∈ f.places around, p.Regular := by
  intro p hp
  obtain ⟨q, hq, hpq⟩ : ∃ q ∈ e.places around, q.outline = p.outline := by
    rw [← List.mem_map, ← h]
    exact List.mem_map_of_mem hp
  exact (he q hq).congr hpq.symm

theorem Counted.positioned (h : e.Counted) (pos : Option String) : (Export.positioned pos e).Counted := by
  intro around haround
  unfold Export.positioned
  split
  · exact regular_of_outline (outline_withAttr (by decide) _ around) (h around haround)
  · exact h around haround

theorem Outer.positioned (h : e.Outer) (pos : Option String) : (Export.positioned pos e).Outer := by
  intro around haround
  unfold Export.positioned
  split
  · exact regular_of_outline (outline_withAttr (by decide) _ around) (h around haround)
  · exact h around haround

end Element

/-! ## Expressions take no numbers

Numbering goes through an expression without using up a number, so what follows it has the number that it had
before. -/

namespace Export

variable {s : Scope}

theorem inherited_silent : Inherited Element.Silent where
  make hname hkeys hes := Element.silent_make (List.mem_append_left _ hname)
    (fun e he => keyWords_ne_id e.1 (hkeys e he)) hes

/-- **The element of an expression** takes no number, and neither do those in it. -/
theorem silent_expression (hs : s.globals.Declared) (n : Node) : Gives Element.Silent (expression s n) :=
  gives_expression inherited_silent hs n

theorem silent_expressions (hs : s.globals.Declared) (ns : List Node) :
    Gives (∀ e ∈ ·, e.Silent) (expressions s ns) :=
  gives_expressions inherited_silent hs ns

end Export

end FlightScript
