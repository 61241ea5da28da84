import FlightScript.Proofs.Expressions
import FlightScript.Proofs.Movement

/-!
# `Proofs.Parts` — the parts of a program and the readings that gave them

Every part of a program that has a span was given by a reading, from one cursor to another: a name by the reading of
names, a block by that of blocks. An expression is what a level gives, or the left operand that a level has come to
after some of its operators.

## Contents

* `Surface.Part`, with `Surface.Program.parts`, every part of a program;
* `Surface.Part.ReadBy`: the reading that gives a part;
* `Surface.Part.Located`: a part was read behind a cursor, and its span is that of its lexemes;
* `Finds`, `Drafts`: what is known of the parts that a reading gives.
-/

namespace FlightScript

namespace Surface

/-! ## Parts -/

/-- A part of a program that has a span. -/
inductive Part where
  | name (n : DeclName)
  | parameters (p : Parameters)
  | reference (r : Reference)
  | expression (e : Expression)
  | statement (s : Statement)
  | block (b : Block)
  | rung (a : Alternative)
  | item (i : Item)

mutual

/-- An expression and the parts in it. -/
def Expression.parts : Expression → List Part
  | .missing => []
  | .literal value span => [.expression (.literal value span)]
  | .name r span => [.expression (.name r span), .reference r]
  | .call r arguments span =>
    .expression (.call r arguments span) :: .reference r :: Expression.partsAll arguments
  | .group inner span => .expression (.group inner span) :: inner.parts
  | .binary op lhs rhs span => .expression (.binary op lhs rhs span) :: (lhs.parts ++ rhs.parts)
  | .not operand span => .expression (.not operand span) :: operand.parts
  | .conditional condition consequent alternative span =>
    .expression (.conditional condition consequent alternative span) ::
      (condition.parts ++ consequent.parts ++ alternative.parts)

/-- The parts of several expressions. -/
def Expression.partsAll : List Expression → List Part
  | [] => []
  | e :: es => e.parts ++ Expression.partsAll es

end

/-- The parts of what follows the name of an instruction. -/
def Arguments.parts : Arguments → List Part
  | .none => []
  | .list items => Expression.partsAll items
  | .single item => item.parts

/-- The parts of what is assigned to. -/
def Target.parts : Target → List Part
  | .reference r => [.reference r]
  | .group inner => inner.parts

mutual

/-- A statement and the parts in it. -/
def Statement.parts : Statement → List Part
  | .comment text span => [.statement (.comment text span)]
  | .ifElse condition consequent alternative span =>
    .statement (.ifElse condition consequent alternative span) ::
      (condition.parts ++ consequent.parts ++ alternative.parts)
  | .whileLoop condition body span => .statement (.whileLoop condition body span) :: (condition.parts ++ body.parts)
  | .repeatLoop count body span => .statement (.repeatLoop count body span) :: (count.parts ++ body.parts)
  | .forLoop var first last step body span =>
    .statement (.forLoop var first last step body span) ::
      (var.toList.map .name ++ first.parts ++ last.parts ++ step.parts ++ body.parts)
  | .breakLoop span => [.statement (.breakLoop span)]
  | .wait isUntil condition span => .statement (.wait isUntil condition span) :: condition.parts
  | .assign target operator value span =>
    .statement (.assign target operator value span) :: (target.parts ++ value.parts)
  | .instruction r arguments span => .statement (.instruction r arguments span) :: .reference r :: arguments.parts

/-- A block and the parts in it. -/
def Block.parts : Block → List Part
  | .missing => []
  | .braces body span => .block (.braces body span) :: Statement.partsAll body

/-- What stands after `else` and the parts in it. -/
def Alternative.parts : Alternative → List Part
  | .none => []
  | .elseIf condition consequent alternative span =>
    .rung (.elseIf condition consequent alternative span) ::
      (condition.parts ++ consequent.parts ++ alternative.parts)
  | .otherwise body => body.parts

/-- The parts of several statements. -/
def Statement.partsAll : List Statement → List Part
  | [] => []
  | s :: ss => s.parts ++ Statement.partsAll ss

end

/-- The parameters of a declaration and their names. -/
def Parameters.parts (p : Parameters) : List Part := .parameters p :: p.names.map .name

/-- A part of a text at top level and the parts in it. -/
def Item.parts (i : Item) : List Part :=
  .item i :: match i with
    | .directive .. => []
    | .var _ name _ => name.toList.map .name
    | .event _ parameters body _ => parameters.toList.flatMap Parameters.parts ++ body.parts
    | .instruction name parameters body _ =>
      name.toList.map .name ++ parameters.toList.flatMap Parameters.parts ++ body.parts
    | .expression name parameters value _ =>
      name.toList.map .name ++ parameters.toList.flatMap Parameters.parts ++ value.parts
    | .block body _ => Statement.partsAll body

/-- Every part of a program. -/
def Program.parts (p : Program) : List Part := p.items.flatMap Item.parts

/-! ## Spans -/

/-- The span of an expression that could be read. -/
def Expression.span? : Expression → Option Span
  | .missing => none
  | .literal _ span | .name _ span | .call _ _ span | .group _ span | .binary _ _ _ span | .not _ span
  | .conditional _ _ _ span => some span

/-- The span of a statement. -/
def Statement.span : Statement → Span
  | .comment _ span | .ifElse _ _ _ span | .whileLoop _ _ span | .repeatLoop _ _ span | .forLoop _ _ _ _ _ span
  | .breakLoop span | .wait _ _ span | .assign _ _ _ span | .instruction _ _ span => span

/-- The span of a part of a text at top level. -/
def Item.span : Item → Span
  | .directive _ _ span | .var _ _ span | .event _ _ _ span | .instruction _ _ _ span | .expression _ _ _ span
  | .block _ span => span

namespace Part

/-- The span of a part. -/
def span? : Part → Option Span
  | name n => some n.span
  | parameters p => some p.span
  | reference r => some r.span
  | expression e => e.span?
  | statement s => some s.span
  | block (.braces _ span) => some span
  | block .missing => none
  | rung (.elseIf _ _ _ span) => some span
  | rung _ => none
  | item i => some i.span

/-- Whether a part has a header that a block has to follow. -/
def isHeaded : Part → Bool
  | statement (.ifElse ..) | statement (.whileLoop ..) | statement (.repeatLoop ..) | statement (.forLoop ..) => true
  | rung _ => true
  | item (.event ..) | item (.instruction ..) => true
  | _ => false

end Part

end Surface

/-! ## Readings of parts -/

namespace Parse

open Surface

/-- A condition with what belongs to it, from the keyword `if` on, given the reading of blocks. -/
def rungWith (block : Parse Block) : Parse Branch := do
  let budget ← remaining
  branchWithin block (budget + 1)

/-- A condition with what belongs to it. -/
def rung : Parse Branch := rungWith block

/-- The left operand that the level above `p` has come to: what level `p` gives, then one operator after another, each
with the right operand that level `p` gives. -/
inductive Chained (p : Nat) (c : Cursor) : Expression → Cursor → Prop where
  | operand {e : Expression} {d : Cursor} {ps : List Problem} : level expression p c = ⟨some e, d, ps⟩ → Chained p c e d
  | operator {lhs : Expression} {op : Operator} {rhs : Option Expression} {d e : Cursor} {ps : List Problem} :
      Chained p c lhs d → d.token?.bind (levelTable (p + 1)) = some op → level expression p d.next = ⟨rhs, e, ps⟩ →
      Chained p c (.binary op lhs (orMissing rhs) (e.spanFrom c.start)) e

end Parse

namespace Surface.Part

open Parse

/-- A reading gives a part, from one cursor to another. -/
inductive ReadBy : Part → Cursor → Cursor → Prop where
  | name {n : DeclName} {c d : Cursor} {ps : List Problem} : declName c = ⟨some n, d, ps⟩ → ReadBy (name n) c d
  | parameters {p : Parameters} {c d : Cursor} {ps : List Problem} :
      Parse.parameters c = ⟨some p, d, ps⟩ → ReadBy (parameters p) c d
  | reference {r : Reference} {c d : Cursor} {ps : List Problem} :
      Parse.reference c = ⟨some r, d, ps⟩ → ReadBy (reference r) c d
  | expression {p : Nat} {e : Expression} {c d : Cursor} : Chained p c e d → ReadBy (expression e) c d
  | statement {s : Statement} {c d : Cursor} {ps : List Problem} :
      Parse.statement Parse.block c = ⟨some s, d, ps⟩ → ReadBy (statement s) c d
  | comment {l : Lexeme} {c : Cursor} : c.rest.head? = some l → l.token = .comment →
      ReadBy (statement (.comment l.text l.span)) c c.next
  | block {b : Block} {c d : Cursor} {ps : List Problem} : Parse.block c = ⟨b, d, ps⟩ → ReadBy (block b) c d
  | rung {b : Branch} {c d : Cursor} {ps : List Problem} : Parse.rung c = ⟨b, d, ps⟩ →
      ReadBy (rung (.elseIf b.condition b.consequent b.alternative b.span)) c d
  | item {t : Token} {one : Parse Item} {i : Item} {c d : Cursor} {ps : List Problem} : c.token? = some t →
      item? t c.second? = some one → one c = ⟨i, d, ps⟩ → ReadBy (item i) c d

variable {x : Part} {b c d : Cursor}

/-- The span of a part goes from where one cursor stands to the end of what was read up to the other. -/
def Closes (x : Part) (c d : Cursor) : Prop :=
  ∃ span, x.span? = some span ∧ span.start = c.start ∧ (span.stop = d.lastEnd ∨ span.stop = d.lastEnd.later c.start)

theorem Closes.of_spanFrom (h : x.span? = some (d.spanFrom c.start)) : x.Closes c d := ⟨_, h, rfl, .inr rfl⟩

/-- The span of a single lexeme. -/
theorem Closes.of_lexeme {l : Lexeme} (h : x.span? = some l.span) (hl : c.rest.head? = some l) : x.Closes c c.next := by
  obtain ⟨ls, hls⟩ := List.head?_eq_some_iff.mp hl
  refine ⟨l.span, h, ?_, .inl ?_⟩
  · unfold Cursor.start
    rw [hls]
  · unfold Cursor.next
    rw [hls]

/-- Behind a cursor a reading gave a part, and the span of the part closes there. -/
def Located (x : Part) (c : Cursor) : Prop :=
  ∃ b d, b.rest <:+ c.rest ∧ x.ReadBy b d ∧ b.Ends x.isHeaded d ∧ x.Closes b d

theorem Located.of_suffix (h : x.Located d) (hcd : d.rest <:+ c.rest) : x.Located c := by
  obtain ⟨b, e, hb, hread, hends, hcloses⟩ := h
  exact ⟨b, e, hb.trans hcd, hread, hends, hcloses⟩

end Surface.Part

/-! ## What readings find -/

open Surface

/-- A reading that may find something: no closing brace is taken; if something is found then some lexeme is taken, and
every part of it is located. -/
structure Finds {α : Type} (parts : α → List Part) (c : Cursor) (o : Option α) (d : Cursor) : Prop where
  steps : c.Steps d
  advances : ∀ a, o = some a → c.Advances d
  located : ∀ a, o = some a → ∀ x ∈ parts a, x.Located c

/-- The same, except that the thing found is not known to be what a reading gives. -/
structure Drafts {α : Type} (own : α → Part) (parts : α → List Part) (c : Cursor) (o : Option α) (d : Cursor) :
    Prop where
  steps : c.Steps d
  advances : ∀ a, o = some a → c.Advances d
  located : ∀ a, o = some a → ∀ x ∈ parts a, x.Located c ∨ (x = own a ∧ x.Closes c d)

section Find

variable {α : Type} {own : α → Part} {parts : α → List Part} {c d : Cursor} {o : Option α}

theorem Finds.none (h : c.Steps d) : Finds parts c none d := ⟨h, by simp, by simp⟩

theorem Drafts.none (h : c.Steps d) : Drafts own parts c none d := ⟨h, by simp, by simp⟩

theorem Finds.drafts (h : Finds parts c o d) : Drafts own parts c o d :=
  ⟨h.steps, h.advances, fun a ha x hx => .inl (h.located a ha x hx)⟩

/-- Something found whose own span closes and whose other parts are located. -/
theorem Drafts.some {a : α} {others : List Part} (hadv : c.Advances d) (hparts : parts a = own a :: others)
    (hcloses : (own a).Closes c d) (hothers : ∀ x ∈ others, x.Located c) : Drafts own parts c (some a) d where
  steps := hadv.steps
  advances _ _ := hadv
  located b hb x hx := by
    cases hb
    rw [hparts] at hx
    rcases List.mem_cons.mp hx with rfl | hx
    · exact .inr ⟨rfl, hcloses⟩
    · exact .inl (hothers x hx)

/-- The thing found is what a reading gives. -/
theorem Drafts.finds (h : Drafts own parts c o d) (hread : ∀ a, o = .some a → (own a).ReadBy c d)
    (hplain : ∀ a, (own a).isHeaded = false) : Finds parts c o d where
  steps := h.steps
  advances := h.advances
  located a ha x hx := by
    rcases h.located a ha x hx with hlocated | ⟨rfl, hcloses⟩
    · exact hlocated
    · refine ⟨c, d, List.suffix_rfl, hread a ha, ?_, hcloses⟩
      rw [hplain]
      exact (h.advances a ha).ends

theorem Finds.located_toList (h : Finds parts c o d) : ∀ x ∈ o.toList.flatMap parts, x.Located c := by
  intro x hx
  obtain ⟨a, ha, hx⟩ := List.mem_flatMap.mp hx
  exact h.located a (Option.mem_toList.mp ha) x hx

theorem Finds.located_names {o : Option DeclName} (h : Finds (fun n => [Part.name n]) c o d) :
    ∀ x ∈ o.toList.map Part.name, x.Located c := by
  rw [List.map_eq_flatMap]
  exact h.located_toList

end Find

end FlightScript
