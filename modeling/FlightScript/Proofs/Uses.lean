import FlightScript.Proofs.Legible

/-!
# `Proofs.Uses` — uses of names and their definitions

A use of a name is well-formed if the name has a definition of its kind and the definition takes the arguments.
Complaints are close to that, but not the same: a name that is marked as local is not looked up, and arguments are
held against it only where a construct around the place binds it.

## Contents

* `Scope.DefinesIdentifier`, `Scope.DefinesInstruction`: well-formed uses;
* `Scope.identifierComplaints_eq_nil_iff`, `Scope.instructionComplaints_eq_nil_iff`: what goes without complaint.
-/

namespace FlightScript

namespace Scope

/-- The name has a definition of its kind, which takes this many arguments. -/
def DefinesIdentifier (s : Scope) (u : Use IdentifierKind) (arguments : Nat) : Prop :=
  ∃ d, s.identifier? u.name u.kind = some d ∧ d.arity.accepts arguments

/-- The instruction has a definition of its kind, which takes this many arguments. -/
def DefinesInstruction (s : Scope) (u : Use InstructionKind) (arguments : Nat) : Prop :=
  ∃ d, s.instruction? u.name u.kind = some d ∧ d.arity.accepts arguments

variable {s : Scope} {k : Nat}

theorem DefinesIdentifier.known {u : Use IdentifierKind} (h : s.DefinesIdentifier u k) : u.kind ≠ .unknown := by
  intro hk
  obtain ⟨d, hd, _⟩ := h
  rw [hk, identifier?] at hd
  cases hd

theorem DefinesInstruction.known {u : Use InstructionKind} (h : s.DefinesInstruction u k) : u.kind ≠ .unknown := by
  intro hk
  obtain ⟨d, hd, _⟩ := h
  rw [hk, instruction?] at hd
  cases hd

/-- A definition goes without complaint exactly if it is there and takes the arguments. -/
theorem ofUse_eq_nil_iff {Kind : Type} {u : Use Kind} {d? : Option Definition} :
    Complaint.ofUse u k d? = [] ↔ ∃ d, d? = some d ∧ d.arity.accepts k := by
  cases d? with
  | none => simp [Complaint.ofUse]
  | some d => simp [Complaint.ofUse]

theorem instructionComplaints_eq_nil_iff {u : Use InstructionKind} :
    s.instructionComplaints u k = [] ↔ s.DefinesInstruction u k :=
  ofUse_eq_nil_iff

/-- A local variable is defined wherever it is used, and takes no arguments. -/
theorem definesIdentifier_local {u : Use IdentifierKind} (hu : u.kind = .local_) :
    s.DefinesIdentifier u k ↔ k = 0 := by
  have harity : (localVariable u.name).arity = .exactly 0 := rfl
  constructor
  · rintro ⟨d, hd, hk⟩
    rw [hu, identifier?, Option.some.injEq] at hd
    rw [← hd, harity, Arity.accepts, beq_iff_eq] at hk
    exact hk.symm
  · rintro rfl
    exact ⟨localVariable u.name, by rw [hu, identifier?], by rw [harity]; rfl⟩

/-- A name goes without complaint if its use is well-formed, and also if it is marked as local where nothing
binds it, whatever its arguments. -/
theorem identifierComplaints_eq_nil_iff {u : Use IdentifierKind} :
    s.identifierComplaints u k = [] ↔
      s.DefinesIdentifier u k ∨ (u.kind = .local_ ∧ s.isLocal u.name = false) := by
  by_cases hu : u.kind = .local_
  · rw [definesIdentifier_local hu, identifierComplaints, if_pos hu]
    by_cases hk : k = 0
    · simp [hk]
    · cases hl : s.isLocal u.name <;> simp [hk, hu]
  · rw [identifierComplaints, if_neg hu, ofUse_eq_nil_iff]
    simp [DefinesIdentifier, hu]

end Scope

end FlightScript
