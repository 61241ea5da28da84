import FlightScript.Proofs.Threading

/-!
# `Proofs.Levels` — every problem of a text is an error

Whatever scanning, reading and resolving find wrong with a text is posted as an error. So a text without errors is a
text without problems.

## Contents

* `Threads.level_problems`: every reading posts errors only;
* `level_treeOfText`, `Node.level_complaints`: the problems of a whole text and the complaints about a tree;
* `Valid`, a text without errors, and `valid_iff`.
-/

namespace FlightScript

/-- **A reading that can be given a log posts errors only.** The induction is on its steps, of which only a report
posts something by itself. An attempt posts what the second reading posts, or nothing. -/
theorem Threads.level_problems {α : Type} {p : Parse α} {f : LogParse α} (h : Threads p f) (c : Cursor) :
    ∀ x ∈ (p c).problems, x.level = .error := by
  induction h generalizing c with
  | ret a =>
      intro x hx
      cases hx
  | bind _ _ ihp ihq =>
      intro x hx
      rcases List.mem_append.mp hx with hx | hx
      · exact ihp c x hx
      · exact ihq _ _ x hx
  | quiet hquiet =>
      intro x hx
      rw [hquiet c] at hx
      cases hx
  | report fault =>
      intro x hx
      rw [List.mem_singleton.mp hx]
      rfl
  | attempt _ _ _ ihq =>
      intro x hx
      -- an attempt that stands has posted nothing
      unfold Parse.firstClean at hx
      dsimp only at hx
      split at hx
      · split at hx
        · cases hx
        · exact ihq c x hx
      · exact ihq c x hx

/-! ## Whole texts

Problems come from three sources: cutting, reading and checking. -/

theorem Lexing.level_ofPieces (index : LineIndex) (start depth : Nat) (pieces : List Piece) :
    ∀ x ∈ (Lexing.ofPieces index start depth pieces).problems, x.level = .error := by
  fun_induction Lexing.ofPieces index start depth pieces with
  | case1 => simp
  | case2 _ _ _ _ _ ih => exact ih
  | case3 _ _ _ _ _ _ _ ih => simpa using ⟨rfl, ih⟩
  | case4 _ _ _ _ _ _ _ _ ih => exact ih
  | case5 _ _ _ _ _ _ _ _ _ ih => exact ih

theorem level_treeOfText (source : String) : ∀ x ∈ (treeOfText source).problems, x.level = .error := by
  obtain ⟨read, hread⟩ := Threadable.program
  intro x hx
  rcases List.mem_append.mp hx with hx | hx
  · exact Lexing.level_ofPieces _ _ _ _ x hx
  · exact hread.level_problems _ x hx

namespace Complaint

/-- Whatever is wrong with a use of a name is an error. -/
theorem level_ofUse {Kind : Type} (u : Use Kind) (k : Nat) (d : Option Definition) :
    ∀ x ∈ ofUse u k d, x.level = .error := by
  cases d with
  | none => simp [ofUse, post, Problem.error]
  | some d =>
      unfold ofUse
      dsimp only
      split
      · simp
      · simp [post, Problem.error]

theorem level_ofEvent (h : EventHead) : ∀ x ∈ ofEvent h, x.level = .error := by
  unfold ofEvent
  cases Catalog.event? h.event with
  | none => simp [post, Problem.error]
  | some d =>
      intro x hx
      obtain ⟨p, _, rfl⟩ := List.mem_map.mp hx
      rfl

end Complaint

theorem Scope.level_identifierComplaints (s : Scope) (u : Use IdentifierKind) (k : Nat) :
    ∀ x ∈ s.identifierComplaints u k, x.level = .error := by
  unfold Scope.identifierComplaints
  split
  · split
    · simp [Complaint.post, Problem.error]
    · simp
  · exact Complaint.level_ofUse _ _ _

namespace Node

theorem level_append {ps qs : List Problem} (hp : ∀ x ∈ ps, x.level = .error) (hq : ∀ x ∈ qs, x.level = .error) :
    ∀ x ∈ ps ++ qs, x.level = .error := by
  intro x hx
  rcases List.mem_append.mp hx with hx | hx
  · exact hp x hx
  · exact hq x hx

mutual

/-- Every complaint is an error. -/
theorem level_complaints (s : Scope) : (n : Node) → ∀ x ∈ n.complaints s, x.level = .error
  | error .. => nofun
  | variableDeclaration _ => nofun
  | comment .. => nofun
  | breakLoop _ => nofun
  | constant .. => nofun
  | program _ _ body _ => level_complaintsAll _ body
  | instructionDeclaration _ body => level_complaintsAll _ body
  | expressionDeclaration _ value => level_complaints _ value
  | event head body => level_append (Complaint.level_ofEvent head) (level_complaintsAll _ body)
  | detached _ body _ => level_complaintsAll _ body
  | instruction _ arguments => level_append (Complaint.level_ofUse _ _ _) (level_complaintsAll _ arguments)
  | assignment _ target value _ => level_append (level_complaints _ target) (level_complaints _ value)
  | wait _ condition _ => level_complaints _ condition
  | ifElse condition consequent alternative _ =>
      level_append (level_append (level_complaints _ condition) (level_complaintsAll _ consequent))
        (level_complaintsAll _ alternative)
  | whileLoop condition body _ => level_append (level_complaints _ condition) (level_complaintsAll _ body)
  | forLoop _ first last step body =>
      level_append (level_append (level_append (level_complaints _ first) (level_complaints _ last))
        (level_complaints _ step)) (level_complaintsAll _ body)
  | repeatLoop count body _ => level_append (level_complaints _ count) (level_complaintsAll _ body)
  | identifier _ arguments =>
      level_append (s.level_identifierComplaints _ _) (level_complaintsAll _ arguments)
  | binary _ lhs rhs _ => level_append (level_complaints _ lhs) (level_complaints _ rhs)
  | unary _ operand _ => level_complaints _ operand
  | conditional condition consequent alternative _ =>
      level_append (level_append (level_complaints _ condition) (level_complaints _ consequent))
        (level_complaints _ alternative)

theorem level_complaintsAll (s : Scope) : (ns : List Node) → ∀ x ∈ complaintsAll s ns, x.level = .error
  | [] => nofun
  | n :: ns => level_append (level_complaints s n) (level_complaintsAll _ ns)

end

end Node

/-- A text without errors. -/
def Valid (source : String) : Prop := ∀ x ∈ (resolvedTreeOfText source).problems, x.level ≠ .error

instance (source : String) : Decidable (Valid source) :=
  inferInstanceAs (Decidable (∀ x ∈ (resolvedTreeOfText source).problems, x.level ≠ .error))

/-- **A text without errors is read without problems, and there is nothing to complain about.** Whatever cutting,
reading and checking find is an error, so a text without errors has no problems at all. -/
theorem valid_iff (source : String) :
    Valid source ↔ (treeOfText source).problems = [] ∧ (treeOfText source).result.problems = [] := by
  have hall : ∀ x ∈ (resolvedTreeOfText source).problems, x.level = .error :=
    Node.level_append (level_treeOfText source) (Node.level_complaints _ _)
  have hvalid : Valid source ↔ (resolvedTreeOfText source).problems = [] := by
    constructor
    · intro h
      exact List.eq_nil_iff_forall_not_mem.mpr fun x hx => h x hx (hall x hx)
    · intro h x hx
      rw [h] at hx
      cases hx
  rw [hvalid]
  exact List.append_eq_nil_iff

end FlightScript
