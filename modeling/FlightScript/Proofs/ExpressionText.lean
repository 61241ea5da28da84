import FlightScript.Proofs.Expressions
import FlightScript.Proofs.Uses

/-!
# `Proofs.ExpressionText` — the text of an expression stands for the expression

An expression is written at some place, where a program has declared its names and constructs around the place
bind theirs. There its text is read back as the same expression: the parentheses stand where the grammar asks for
them, and a name is qualified wherever, bare, it would refer to something else.

## Contents

* `Grammar.sayable`: expressions with constants that can be spelled and with well-formed uses of names;
* `Grammar.Expression.settled_of_sayable`, `Grammar.Expression.complaints_of_sayable`;
* `expression_reads_back`.
-/

namespace FlightScript

/-! ## Places

A place is given by a program and the frames around it. -/

/-- Wherever a place is in a program, variables are defined without arguments. -/
theorem Scope.variablesBare_ofNode (program : Node) (frames : List (List String)) :
    ({ globals := .ofNode program, frames := frames } : Scope).VariablesBare := by
  intro name d hd
  cases program with
  | program _ vars body _ => exact Grammar.variablesBare_scopeOf vars body name d hd
  | _ => simp [Globals.ofNode, NameMap.get?, NameMap.empty] at hd

/-! ## Expressions that can be said

Both conditions on an expression that the theorem needs follow from its being sayable. -/

namespace Grammar

/-- The trees whose constants a text can spell, and whose names have definitions that take their arguments. -/
def sayable : Grammar :=
  { settled with identifier := Scope.DefinesIdentifier, instruction := Scope.DefinesInstruction }

variable {s : Scope} {e : Node}

/-- Nothing is wrong with names that have definitions which take their arguments. -/
theorem Expression.complaints_of_sayable (h : sayable.Expression s e) : e.complaints s = [] := by
  induction h with
  | identifier hu ha ih =>
      rw [Node.complaints, Node.complaintsAll_of_programFree (Expression.programFree_all ha),
        Scope.resolveIdentifier_of_known hu.known, Scope.identifierComplaints_eq_nil_iff.mpr (.inl hu)]
      exact List.flatMap_eq_nil_iff.mpr ih
  | constant _ => rfl
  | binary op hl _ ihl ihr => rw [Node.complaints_binary _ _ hl.programFree, ihl, ihr]; rfl
  | negation _ ih => exact ih
  | conditional hc ht _ ihc iht ihe =>
      rw [Node.complaints_conditional _ hc.programFree ht.programFree, ihc, iht, ihe]; rfl

/-- Such names are settled; that a variable has no arguments comes from its definition. -/
theorem Expression.settled_of_sayable (hs : s.VariablesBare) (h : sayable.Expression s e) :
    Grammar.settled.Expression s e := by
  induction h with
  | identifier hu _ ih =>
      exact .identifier (Scope.settlesIdentifier_of_complaints hs hu.known
        (Scope.identifierComplaints_eq_nil_iff.mpr (.inl hu))) ih
  | constant hc => exact .constant hc
  | binary op _ _ ihl ihr => exact .binary op ihl ihr
  | negation _ ih => exact .negation ih
  | conditional _ _ _ ihc iht ihe => exact .conditional ihc iht ihe

end Grammar

/-! ## Reading back

The text is cut, read and resolved, and each of the three steps is described elsewhere. -/

/-- **The text of an expression stands for the expression**, at every place of every program: it is read without a
problem and to its end, nothing is wrong with what is read, and resolved at that place it is the expression again,
up to metadata. -/
theorem expression_reads_back (program : Node) (frames : List (List String)) (e : Node)
    (h : Grammar.sayable.Expression { globals := .ofNode program, frames := frames } e) :
    let s : Scope := { globals := .ofNode program, frames := frames }
    let lexing := Lexing.ofText (e.render s 0 looseCeiling)
    let reading := Parse.expression (.ofLexemes lexing.lexemes)
    lexing.problems = [] ∧ reading.problems = [] ∧ reading.cursor.rest = [] ∧
      ∃ x, reading.value = some x ∧ x.node.complaints s = [] ∧
        (x.node.resolve s).clearMetadata = e.clearMetadata := by
  intro s lexing reading
  have hsettled := h.settled_of_sayable (Scope.variablesBare_ofNode program frames)
  obtain ⟨ts, hts⟩ := hsettled.expressed looseCeiling (by decide)
  -- the text is cut into the lexemes of the expression, and those are read as a whole expression
  have hspells : Spells 0 (e.render s 0 looseCeiling).toList ts := by
    simpa using hts.spelled 0 [] [] Stops.nil Spells.nil
  obtain ⟨hlexemes, hproblems⟩ := hspells.lexing
  have hends : Ends 10 [] := fun _ _ ht => by cases ht
  have hreads : Reads Parse.expression ts [] (SomeTree (Node.Same s · e)) := by
    simpa using hts.whole.expression hends
  obtain ⟨hnone, hview, x, hx, hsame⟩ := hreads (.ofLexemes lexing.lexemes) hlexemes
  refine ⟨hproblems, hnone, List.map_eq_nil_iff.mp hview, x, hx, ?_, hsame.resolve⟩
  exact hsame.complaints.mpr h.complaints_of_sayable

/-- Where a local `x` hides the variable `x`, the expression `(if x then -1 else 2) ^ var.x ^ "3"` is read back,
with the parentheses and the qualifier that it needs. -/
theorem expression_reads_back_hidden :
    let program : Node := .program "p" [⟨"x", none, .value, none⟩] [] none
    let s : Scope := { globals := .ofNode program, frames := [["x"]] }
    let e : Node := .binary "^"
      (.conditional (.identifier ⟨"x", none, .local_, none⟩ []) (.constant ⟨.number, "-1"⟩ none)
        (.constant ⟨.number, "2"⟩ none) none)
      (.binary "^" (.identifier ⟨"x", none, .global, none⟩ []) (.constant ⟨.string, "3"⟩ none) none) none
    Grammar.sayable.Expression s e ∧
      ∃ x, (Parse.expression (.ofLexemes (Lexing.ofText (e.render s 0 looseCeiling)).lexemes)).value = some x ∧
        (x.node.resolve s).clearMetadata = e.clearMetadata := by
  intro program s e
  have hlocal : Grammar.sayable.Expression s (.identifier ⟨"x", none, .local_, none⟩ []) :=
    .identifier ⟨Scope.localVariable "x", rfl, rfl⟩ (by simp)
  have hglobal : Grammar.sayable.Expression s (.identifier ⟨"x", none, .global, none⟩ []) :=
    .identifier ⟨_, rfl, rfl⟩ (by simp)
  have hone : Grammar.sayable.Expression s (.constant ⟨.number, "-1"⟩ none) :=
    .constant (.inr ⟨['1'], rfl, ⟨'1', [], rfl, .inl (by decide)⟩, by decide⟩)
  have htwo : Grammar.sayable.Expression s (.constant ⟨.number, "2"⟩ none) :=
    .constant (.inl ⟨⟨'2', [], rfl, .inl (by decide)⟩, by decide⟩)
  have hthree : Grammar.sayable.Expression s (.constant ⟨.string, "3"⟩ none) := .constant trivial
  have he : Grammar.sayable.Expression s e :=
    .binary .power (.conditional hlocal hone htwo) (.binary .power hglobal hthree)
  obtain ⟨_, _, _, x, hx, _, hresolve⟩ := expression_reads_back program [["x"]] e he
  exact ⟨he, x, hx, hresolve⟩

end FlightScript
