import FlightScript.Surface.Desugar
import Mathlib.Data.List.DropRight

/-!
# `Proofs.Directives` — what a directive belongs to

A program is put together item by item, and directives are noted until an item takes them. What an item gets can
also be read off the items before it: the last directive of a name counts, if it stands behind the last item that
takes such values. Handlers, declarations and blocks take positions, only declarations take call formats, and all
that nothing takes is without effect.

## Contents

* `Item.takesPos`, `Item.takesFormat`, `Item.directive?`: what an item takes and what it says;
* `noted`, `programName`: the value behind given items; `Node.attach`: a tree with its values;
* `Draft.get?_add`: what an item does to the values that are noted, under any name; `Draft.body_add`: its tree;
* `Draft.Follows`: a draft holds what its items say, item by item and for all of them;
* `Reaches`, `Idle`, `Draft.Agree`: directives that nothing takes, and drafts that differ by them only;
* `Program.directives_attach`.
-/

namespace FlightScript

/-- A tree with this position and, if it is a declaration, this call format. -/
def Node.attach (pos callFormat : Option String) : Node → Node
  | .instructionDeclaration head body =>
    .instructionDeclaration { head with pos := pos, callFormat := callFormat } body
  | .expressionDeclaration head value =>
    .expressionDeclaration { head with pos := pos, callFormat := callFormat } value
  | .event head body => .event { head with pos := pos } body
  | .detached _ body loc => .detached pos body loc
  | n => n

namespace Surface

/-! ## Values by position

What a directive says is looked up behind the last item that took such a value. -/

namespace Item

/-- Handlers, declarations and blocks take a position. -/
def takesPos : Item → Bool
  | .event .. => true
  | .instruction .. => true
  | .expression .. => true
  | .block .. => true
  | .directive .. => false
  | .var .. => false

/-- Declarations take a call format. -/
def takesFormat : Item → Bool
  | .instruction .. => true
  | .expression .. => true
  | _ => false

/-- Whether an item takes what is noted under a name. Only positions and call formats are taken. -/
def takes (key : String) (i : Item) : Bool :=
  if key = "pos" then i.takesPos else if key = "fmt" then i.takesFormat else false

/-- What an item says as a directive of this name: a value, or that there is none. -/
def directive? (key : String) : Item → Option (Option String)
  | .directive (some name) value _ => if name = key then some (value.map Text.Quoted.value) else none
  | _ => none

/-- The variable that an item declares. -/
def declared? : Item → Option VariableDeclaration
  | .var isList name span =>
    some ⟨declaredName name, name.map DeclName.span, if isList then .list else .value, some span⟩
  | _ => none

/-- The trees of an item that no directive stands before: one if it takes a position, otherwise none. -/
def trees (i : Item) : List Node := (Draft.add {} i).body

/-- What is noted behind an item if `v` is noted before it: nothing if the item takes it, otherwise what the item
itself says, or `v` still. -/
def passOn (key : String) (takes : Item → Bool) (v : Option String) (i : Item) : Option String :=
  if takes i then none else ((i.directive? key).map Text.filled).getD v

end Item

/-- What the last directive of this name says. -/
def lastDirective? (key : String) (items : List Item) : Option (Option String) :=
  (items.filterMap (Item.directive? key)).getLast?

/-- The value for the next item that takes one: what the last directive of this name says behind the last item
that takes such values, if it says something. -/
def noted (key : String) (takes : Item → Bool) (before : List Item) : Option String :=
  Text.filled (lastDirective? key (before.rtakeWhile fun i => !takes i)).join

/-- The name that items give to a program. -/
def programName (items : List Item) : String := (lastDirective? "program" items).join.getD "program"

/-! ## One more item

What is noted behind items changes with the last of them only. -/

section Concat

variable {key : String} {takes : Item → Bool} (before : List Item) (i : Item)

theorem lastDirective?_concat :
    lastDirective? key (before ++ [i]) = (i.directive? key).or (lastDirective? key before) := by
  unfold lastDirective?
  cases h : i.directive? key <;> simp [List.filterMap_append, h]

/-- What is noted behind one more item: what the item says, or nothing if it takes such values, or what was noted
before. -/
theorem noted_concat : noted key takes (before ++ [i]) = i.passOn key takes (noted key takes before) := by
  unfold noted Item.passOn
  -- an item that takes such values ends the stretch of items that is looked at
  by_cases hi : takes i = true
  · rw [List.rtakeWhile_concat_neg _ _ _ (by simp [hi]), if_pos hi]
    rfl
  · rw [List.rtakeWhile_concat_pos _ _ _ (by simp [hi]), if_neg hi, lastDirective?_concat]
    cases i.directive? key <;> rfl

theorem programName_concat : programName (before ++ [i]) =
    ((i.directive? "program").map (·.getD "program")).getD (programName before) := by
  unfold programName
  rw [lastDirective?_concat]
  cases i.directive? "program" <;> rfl

end Concat

/-! ## What an item does to a draft

A draft notes values as items come. Each of its fields is followed separately. -/

namespace Draft

variable (d : Draft)

/-- A directive changes what is noted under its own name and nothing else, unless it names the program. -/
theorem get?_direct {key : String} (hkey : key ≠ "program") (name : String) (value : Option String) :
    (d.direct name value).directives.get? key =
      if name = key then Text.filled value else d.directives.get? key := by
  unfold direct
  by_cases hprogram : name = "program"
  · have hne : name ≠ key := fun h => hkey (h ▸ hprogram)
    simp [hprogram, hprogram ▸ hne]
  · rw [if_neg (by simpa using hprogram)]
    by_cases hname : name = key
    · subst hname
      cases Text.filled value <;> simp [NameMap.get?_insert_self]
    · cases Text.filled value <;>
        simp [hname, NameMap.get?_insert_of_ne _ _ (Ne.symm hname), NameMap.get?_erase_of_ne _ (Ne.symm hname)]

theorem name_direct (name : String) (value : Option String) :
    (d.direct name value).name = if name = "program" then value.getD "program" else d.name := by
  unfold direct
  by_cases hprogram : name = "program"
  · simp [hprogram]
  · rw [if_neg (by simpa using hprogram), if_neg hprogram]
    split <;> rfl

theorem globals_direct (name : String) (value : Option String) : (d.direct name value).globals = d.globals := by
  unfold direct
  repeat' split
  all_goals rfl

theorem body_direct (name : String) (value : Option String) : (d.direct name value).body = d.body := by
  unfold direct
  repeat' split
  all_goals rfl

/-- A handler takes the position and nothing else. -/
theorem eventHead_eq (name : Option EventName) (parameters : Option Parameters) (span : Span) :
    d.eventHead name parameters span = { Draft.eventHead {} name parameters span with pos := d.pos } := by
  unfold eventHead
  split
  · split <;> rfl
  · rfl
  · rfl

/-- An item changes the name of a program exactly if it is such a directive. -/
theorem name_add (i : Item) : (d.add i).name = ((i.directive? "program").map (·.getD "program")).getD d.name := by
  cases i with
  | directive name value span =>
      cases name with
      | none => rfl
      | some name =>
          show (d.direct name _).name = _
          rw [name_direct, Item.directive?]
          split <;> rfl
  | _ => rfl

/-- What is noted under any name behind an item. -/
theorem get?_add {key : String} (hkey : key ≠ "program") (i : Item) :
    (d.add i).directives.get? key = i.passOn key (Item.takes key) (d.directives.get? key) := by
  have hplace : (d.directives.erase "pos").get? key = if key = "pos" then none else d.directives.get? key := by
    by_cases hpos : key = "pos"
    · simp [hpos]
    · simp [hpos, NameMap.get?_erase_of_ne _ hpos]
  have hdeclare : ((d.directives.erase "pos").erase "fmt").get? key =
      if key = "pos" ∨ key = "fmt" then none else d.directives.get? key := by
    by_cases hformat : key = "fmt"
    · simp [hformat]
    · rw [NameMap.get?_erase_of_ne _ hformat, hplace]
      simp [hformat]
  cases i with
  | directive name value span =>
      have htakes : ∀ name, Item.takes key (.directive name value span) = false := by
        simp [Item.takes, Item.takesPos, Item.takesFormat]
      rw [Item.passOn, if_neg (by simp [htakes])]
      cases name with
      | none => rfl
      | some name =>
          show (d.direct name _).directives.get? key = _
          rw [get?_direct d hkey, Item.directive?]
          split <;> rfl
  | var isList name span => simp [add, Item.passOn, Item.directive?, Item.takes, Item.takesPos, Item.takesFormat]
  | event name parameters body span =>
      refine hplace.trans ?_
      simp [Item.passOn, Item.directive?, Item.takes, Item.takesPos, Item.takesFormat]
  | instruction name parameters body span =>
      refine hdeclare.trans ?_
      simp only [Item.passOn, Item.directive?, Item.takes, Item.takesPos, Item.takesFormat]
      split_ifs <;> simp_all
  | expression name parameters value span =>
      refine hdeclare.trans ?_
      simp only [Item.passOn, Item.directive?, Item.takes, Item.takesPos, Item.takesFormat]
      split_ifs <;> simp_all
  | block statements span =>
      refine hplace.trans ?_
      simp [Item.passOn, Item.directive?, Item.takes, Item.takesPos, Item.takesFormat]

/-- Behind an item a position is noted that stood before it, or that it says itself. -/
theorem pos_add (i : Item) : (d.add i).pos = i.passOn "pos" Item.takesPos d.pos := d.get?_add (by decide) i

theorem callFormat_add (i : Item) : (d.add i).callFormat = i.passOn "fmt" Item.takesFormat d.callFormat :=
  d.get?_add (by decide) i

/-- An item declares a variable exactly if it is a declaration of one. -/
theorem globals_add (i : Item) : (d.add i).globals = d.globals ++ i.declared?.toList := by
  cases i with
  | directive name value span =>
      cases name with
      | none => exact (List.append_nil _).symm
      | some name => exact (d.globals_direct name _).trans (List.append_nil _).symm
  | var isList name span => rfl
  | _ => exact (List.append_nil _).symm

/-- The tree of an item takes what is noted before it. -/
theorem body_add (i : Item) : (d.add i).body = d.body ++ i.trees.map (Node.attach d.pos d.callFormat) := by
  cases i with
  | directive name value span =>
      cases name with
      | none => exact (List.append_nil _).symm
      | some name =>
          have htrees : (Item.directive (some name) value span).trees = [] := body_direct {} name _
          rw [htrees, List.map_nil, List.append_nil]
          exact d.body_direct name _
  | var isList name span => exact (List.append_nil _).symm
  | event name parameters body span =>
      show d.body ++ [.event (d.eventHead name parameters span) body.nodes] = _
      rw [eventHead_eq]
      rfl
  | instruction name parameters body span => rfl
  | expression name parameters value span => rfl
  | block statements span => rfl

end Draft

/-- An item that takes a position has one tree, and any other none. -/
theorem Item.length_trees (i : Item) : i.trees.length = if i.takesPos then 1 else 0 := by
  cases i with
  | directive name value span =>
      cases name with
      | none => rfl
      | some name => exact congrArg List.length (Draft.body_direct {} name _)
  | _ => rfl

theorem Item.trees_directive (name value : Option String) (span : Span) : (directive name value span).trees = [] :=
  List.eq_nil_of_length_eq_zero (length_trees _)

/-- A tree depends on nothing that its item does not take. -/
theorem Item.map_attach_congr {i : Item} {pos pos' callFormat callFormat' : Option String}
    (hpos : i.takesPos = true → pos = pos') (hformat : i.takesFormat = true → callFormat = callFormat') :
    i.trees.map (Node.attach pos callFormat) = i.trees.map (Node.attach pos' callFormat') := by
  cases i with
  | directive name value span =>
      rw [trees_directive]
      rfl
  | var isList name span => rfl
  | event name parameters body span => cases hpos rfl; rfl
  | instruction name parameters body span => cases hpos rfl; cases hformat rfl; rfl
  | expression name parameters value span => cases hpos rfl; cases hformat rfl; rfl
  | block statements span => cases hpos rfl; rfl

/-! ## Drafts hold what their items say

The two descriptions agree behind every item, so they agree behind all of them. -/

/-- The trees of the items in order: each is the tree of its item with the position and the call format that are
noted before it. -/
structure Attached (items : List Item) (body : List Node) : Prop where
  length : body.length = items.countP Item.takesPos
  tree : ∀ (before : List Item) (i : Item) (after : List Item), items = before ++ i :: after → i.takesPos = true →
    ∃ t : Node, i.trees = [t] ∧ body[before.countP Item.takesPos]? =
      some (t.attach (noted "pos" Item.takesPos before) (noted "fmt" Item.takesFormat before))

/-- One more item and its tree, if it has one. -/
theorem Attached.concat {items : List Item} {body : List Node} (h : Attached items body) (i : Item) :
    Attached (items ++ [i]) (body ++ i.trees.map
      (Node.attach (noted "pos" Item.takesPos items) (noted "fmt" Item.takesFormat items))) where
  length := by
    rw [List.length_append, List.length_map, i.length_trees, h.length, List.countP_append, List.countP_singleton]
  tree := by
    intro before j after heq hj
    rcases after.eq_nil_or_concat' with rfl | ⟨after, k, rfl⟩
    · -- the item is the last one
      obtain ⟨rfl, rfl⟩ : items = before ∧ i = j := by simpa using List.append_inj' heq rfl
      obtain ⟨t, ht⟩ : ∃ t, i.trees = [t] := List.length_eq_one_iff.mp (by rw [i.length_trees, if_pos hj])
      refine ⟨t, ht, ?_⟩
      rw [ht, List.map_singleton, ← h.length, List.getElem?_concat_length]
    · have hlast : items ++ [i] = (before ++ j :: after) ++ [k] := by simpa using heq
      obtain ⟨rfl, -⟩ := List.append_inj' hlast rfl
      obtain ⟨t, ht, hbody⟩ := h.tree before j after rfl hj
      refine ⟨t, ht, ?_⟩
      have hlt : before.countP Item.takesPos < body.length := (List.getElem?_eq_some_iff.mp hbody).1
      rw [List.getElem?_append_left hlt, hbody]

/-- A draft holds what these items say. -/
structure Draft.Follows (d : Draft) (items : List Item) : Prop where
  name : d.name = programName items
  /-- Under every name the last directive of the name is noted, unless it has been taken. -/
  directives : ∀ key, key ≠ "program" → d.directives.get? key = noted key (Item.takes key) items
  globals : d.globals = items.filterMap Item.declared?
  body : Attached items d.body

/-- One more item: the draft still holds what its items say. -/
theorem Draft.Follows.add {d : Draft} {items : List Item} (h : d.Follows items) (i : Item) :
    (d.add i).Follows (items ++ [i]) where
  name := by rw [d.name_add, programName_concat, h.name]
  directives := by
    intro key hkey
    rw [d.get?_add hkey, noted_concat, h.directives key hkey]
  globals := by
    rw [d.globals_add, List.filterMap_append, h.globals]
    cases hi : i.declared? <;> simp [hi]
  body := by
    have hpos : d.pos = noted "pos" Item.takesPos items := h.directives "pos" (by decide)
    have hformat : d.callFormat = noted "fmt" Item.takesFormat items := h.directives "fmt" (by decide)
    rw [d.body_add, hpos, hformat]
    exact h.body.concat i

theorem Draft.follows (items : List Item) : (items.foldl Draft.add {}).Follows items := by
  -- from the end, as what is noted depends on the items before
  induction items using List.reverseRecOn with
  | nil => exact ⟨rfl, fun _ _ => rfl, rfl, rfl, fun before i after h => by simp at h⟩
  | append_singleton items i ih =>
      rw [List.foldl_append]
      exact ih.add i

/-! ## Directives that nothing takes

A value that no item reaches may be anything, so drafts that differ in such values only have the same tree. -/

/-- The next item that takes such a value, or is a directive of this name as well, takes it. -/
def Reaches (key : String) (takes : Item → Bool) (after : List Item) : Prop :=
  ∃ i ∈ after.find? fun i => takes i || (i.directive? key).isSome, takes i = true

theorem reaches_cons {key : String} {takes : Item → Bool} {i : Item} {after : List Item} :
    Reaches key takes (i :: after) ↔ takes i = true ∨ (i.directive? key = none ∧ Reaches key takes after) := by
  unfold Reaches
  by_cases ht : takes i = true
  · simp [ht]
  · cases hd : i.directive? key <;> simp [ht, hd]

/-- Values that differ only where no item is reached differ so behind the next item as well. -/
theorem agree_of_not_reaches {key : String} {takes : Item → Bool} {i : Item} {after : List Item}
    {v w : Option String} (h : v = w ∨ ¬ Reaches key takes (i :: after)) :
    i.passOn key takes v = i.passOn key takes w ∨ ¬ Reaches key takes after := by
  rcases h with rfl | h
  · exact .inl rfl
  · rw [reaches_cons, not_or, not_and] at h
    unfold Item.passOn
    -- another directive of the name makes both values the same
    cases hi : i.directive? key with
    | some value => exact .inl rfl
    | none => exact .inr (h.2 hi)

/-- A directive that nothing takes: the program gets its name from a later one, and no item is reached that takes
a position or a call format from it. -/
structure Idle (directive : Item) (after : List Item) : Prop where
  name : directive.directive? "program" = none ∨ ∃ i ∈ after, i.directive? "program" ≠ none
  pos : directive.directive? "pos" = none ∨ ¬ Reaches "pos" Item.takesPos after
  callFormat : directive.directive? "fmt" = none ∨ ¬ Reaches "fmt" Item.takesFormat after

/-- Two drafts that differ in what the items to come do not take; under names that nothing takes, anything may be
noted. -/
structure Draft.Agree (after : List Item) (d e : Draft) : Prop where
  name : d.name = e.name ∨ ∃ i ∈ after, i.directive? "program" ≠ none
  pos : d.pos = e.pos ∨ ¬ Reaches "pos" Item.takesPos after
  callFormat : d.callFormat = e.callFormat ∨ ¬ Reaches "fmt" Item.takesFormat after
  globals : d.globals = e.globals
  body : d.body = e.body

/-- Drafts that differ only in values that reach nothing still do so behind the next item, and have got the same
tree. -/
theorem Draft.Agree.add {d e : Draft} {i : Item} {after : List Item} (h : Draft.Agree (i :: after) d e) :
    Draft.Agree after (d.add i) (e.add i) where
  name := by
    rw [d.name_add, e.name_add]
    cases hi : i.directive? "program" with
    | some value => exact .inl rfl
    | none => simpa [hi] using h.name
  pos := by
    rw [d.pos_add, e.pos_add]
    exact agree_of_not_reaches h.pos
  callFormat := by
    rw [d.callFormat_add, e.callFormat_add]
    exact agree_of_not_reaches h.callFormat
  globals := by rw [d.globals_add, e.globals_add, h.globals]
  body := by
    have hpos : i.takesPos = true → d.pos = e.pos :=
      fun hi => h.pos.resolve_right fun hn => hn (reaches_cons.mpr (.inl hi))
    have hformat : i.takesFormat = true → d.callFormat = e.callFormat :=
      fun hi => h.callFormat.resolve_right fun hn => hn (reaches_cons.mpr (.inl hi))
    rw [d.body_add, e.body_add, h.body, Item.map_attach_congr hpos hformat]

/-- Behind all items such drafts have the same tree. -/
theorem Draft.Agree.foldl {d e : Draft} {after : List Item} (h : Draft.Agree after d e) :
    Draft.Agree [] (after.foldl Draft.add d) (after.foldl Draft.add e) := by
  induction after generalizing d e with
  | nil => exact h
  | cons i after ih => exact ih h.add

/-- A directive that nothing takes makes no difference to the items behind it. -/
theorem Idle.agree {name value : Option String} {span : Span} {after : List Item}
    (h : Idle (.directive name value span) after) (d : Draft) :
    Draft.Agree after (d.add (.directive name value span)) d := by
  have hsame : ∀ {α : Type} {said : Option (Option String)} {f : Option String → α} {v : α} {P : Prop},
      said = none ∨ P → (said.map f).getD v = v ∨ P := by
    rintro α said f v P (rfl | hP)
    · exact .inl rfl
    · exact .inr hP
  -- a directive takes nothing itself
  refine ⟨?_, ?_, ?_, ?_, ?_⟩
  · rw [d.name_add]
    exact hsame h.name
  · rw [d.pos_add]
    exact hsame h.pos
  · rw [d.callFormat_add]
    exact hsame h.callFormat
  · rw [d.globals_add]
    exact List.append_nil _
  · rw [d.body_add, Item.trees_directive]
    exact List.append_nil _

/-! ## Programs

A program is the draft behind all of its items. -/

/-- **Directives belong to the next item that takes them.** A program has the name that the last directive for it
gives, and for each handler, declaration and block a tree in its order. The position of the tree is that of the last
`pos` behind the item before it that takes one, and the call format of a declaration is that of the last `fmt`
behind the declaration before it. No other directive makes a difference. -/
theorem Program.directives_attach (items : List Item) :
    (∃ body : List Node, Program.node ⟨items⟩ = .program (programName items) (items.filterMap Item.declared?) body none ∧
      Attached items body) ∧
    ∀ (before : List Item) (name value : Option String) (span : Span) (after : List Item),
      items = before ++ .directive name value span :: after →
      Idle (.directive name value span) after → Program.node ⟨items⟩ = Program.node ⟨before ++ after⟩ := by
  refine ⟨?_, ?_⟩
  · have h := Draft.follows items
    refine ⟨(items.foldl Draft.add {}).body, ?_, h.body⟩
    rw [Program.node, h.name, h.globals]
  · rintro before name value span after rfl hidle
    have h := (hidle.agree (before.foldl Draft.add {})).foldl
    simp only [Program.node, List.foldl_append, List.foldl_cons]
    rw [h.name.resolve_right (by simp), h.globals, h.body]

/-- A handler takes the position and leaves the call format to the declaration behind it. A position between the two
is taken back by a directive with an empty value, so that it is as if it did not stand there, and another one before the
block by a directive without a value. A directive that nothing knows is noted and never taken. -/
theorem Program.directives_attach_taken_back :
    let before : List Item :=
      [.directive (some "pos") (some "'1,2'") .synthetic, .directive (some "fmt") (some "'go _'") .synthetic,
        .event none none .missing .synthetic, .var true none .synthetic]
    let after : List Item :=
      [.directive (some "pos") (some "''") .synthetic, .directive (some "color") (some "'red'") .synthetic,
        .instruction none none .missing .synthetic, .directive (some "pos") (some "'5,6'") .synthetic,
        .directive (some "pos") none .synthetic, .block [] .synthetic]
    let items : List Item := before ++ .directive (some "pos") (some "'3,4'") .synthetic :: after
    Idle (.directive (some "pos") (some "'3,4'") .synthetic) after ∧
      Program.node ⟨items⟩ = Program.node ⟨before ++ after⟩ ∧
      ∃ (body : List Node) (handler : EventHead) (declaration : DeclarationHead),
        Program.node ⟨items⟩ = .program "program" [⟨"", none, .list, some .synthetic⟩] body none ∧
        body[0]? = some (.event handler []) ∧ handler.pos = some "1,2" ∧
        body[1]? = some (.instructionDeclaration declaration []) ∧ declaration.pos = none ∧
          declaration.callFormat = some "go _" ∧
        body[2]? = some (.detached none [] (some .synthetic)) := by
  intro before after items
  have hidle : Idle (.directive (some "pos") (some "'3,4'") .synthetic) after := by
    refine ⟨.inl rfl, .inr ?_, .inl rfl⟩
    rintro ⟨i, hi, htakes⟩
    cases hi
    cases htakes
  obtain ⟨⟨body, hnode, hbody⟩, herase⟩ := Program.directives_attach items
  refine ⟨hidle, herase before _ _ _ after rfl hidle, ?_⟩
  obtain ⟨t, ht, hhandler⟩ := hbody.tree (items.take 2) _ (items.drop 3) rfl rfl
  obtain ⟨u, hu, hdeclaration⟩ := hbody.tree (items.take 7) _ (items.drop 8) rfl rfl
  obtain ⟨v, hv, hblock⟩ := hbody.tree (items.take 10) _ [] rfl rfl
  obtain rfl := (List.cons.inj ht).1
  obtain rfl := (List.cons.inj hu).1
  obtain rfl := (List.cons.inj hv).1
  have hpos : noted "pos" Item.takesPos (items.take 2) = some "1,2" := by decide +kernel
  have hempty : noted "pos" Item.takesPos (items.take 7) = none := by decide +kernel
  have hformat : noted "fmt" Item.takesFormat (items.take 7) = some "go _" := by decide +kernel
  have hnone : noted "pos" Item.takesPos (items.take 10) = none := by decide +kernel
  rw [hnone] at hblock
  exact ⟨body, _, _, hnode, hhandler, hpos, hdeclaration, hempty, hformat, hblock⟩

end Surface

end FlightScript
