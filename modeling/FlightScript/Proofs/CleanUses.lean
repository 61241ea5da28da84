import FlightScript.Proofs.Formatting
import FlightScript.Proofs.Scoping
import FlightScript.Proofs.Uses

/-!
# `Proofs.CleanUses` — what a text without problems says about its names

Resolving and complaining go through a tree in the same scopes. So where nothing is complained about, nothing is
wrong at any place in the scope of that place, and every use of a name there is well-formed. There is one kind of
use that no complaint speaks of: a name that is marked as local, with arguments, where nothing binds it.

## Contents

* `Node.complaints_at?`: where nothing is wrong with a tree, nothing is wrong at its places;
* `Valid.uses_defined_iff`: the uses of names in a text without problems that are well-formed.
-/

namespace FlightScript

namespace Node

variable {s : Scope} {n m : Node} {role : Role}

/-- Where nothing is wrong with a node, nothing is wrong with its parts in their scopes. -/
theorem complaints_part (h : ∀ role, ∀ m ∈ n.part role, m.ProgramFree) (hn : n.complaints s = [])
    (hm : m ∈ n.part role) : m.complaints (s.inside n role) = [] := by
  have hlist : ∀ {ns : List Node} {s : Scope}, (∀ m ∈ ns, m.ProgramFree) → complaintsAll s ns = [] →
      ∀ m ∈ ns, m.complaints s = [] := by
    intro ns s hfree hns
    rwa [complaintsAll_of_programFree hfree, List.flatMap_eq_nil_iff] at hns
  -- the complaints of a node are those of its parts one after the other; a role without parts has nothing to show
  cases n with
  | program | instructionDeclaration | detached =>
      cases role <;> first | exact hlist (h .body) hn m hm | cases hm
  | event =>
      have hbody := (List.append_eq_nil_iff.mp hn).2
      cases role <;> first | exact hlist (h .body) hbody m hm | cases hm
  | instruction | identifier =>
      have harguments := (List.append_eq_nil_iff.mp hn).2
      cases role <;> first | exact hlist (h .argument) harguments m hm | cases hm
  | assignment op target value loc =>
      rw [complaints_assignment op loc (h .target target (.head _)), List.append_eq_nil_iff] at hn
      cases role with
      | target => exact List.mem_singleton.mp hm ▸ hn.1
      | value => exact List.mem_singleton.mp hm ▸ hn.2
      | _ => cases hm
  | ifElse condition consequent alternative loc =>
      rw [complaints_ifElse loc (h .condition condition (.head _))] at hn
      · simp only [List.append_eq_nil_iff, List.flatMap_eq_nil_iff] at hn
        cases role with
        | condition => exact List.mem_singleton.mp hm ▸ hn.1.1
        | consequent => exact hn.1.2 m hm
        | alternative => exact hn.2 m hm
        | _ => cases hm
      · exact h .consequent
      · exact h .alternative
  | whileLoop condition body loc =>
      rw [complaints_whileLoop loc (h .condition condition (.head _))] at hn
      · simp only [List.append_eq_nil_iff, List.flatMap_eq_nil_iff] at hn
        cases role with
        | condition => exact List.mem_singleton.mp hm ▸ hn.1
        | body => exact hn.2 m hm
        | _ => cases hm
      · exact h .body
  | forLoop head first last step body =>
      rw [complaints_forLoop head (h .first first (.head _)) (h .last last (.head _)) (h .step step (.head _))] at hn
      · simp only [List.append_eq_nil_iff, List.flatMap_eq_nil_iff] at hn
        cases role with
        | first => exact List.mem_singleton.mp hm ▸ hn.1.1.1
        | last => exact List.mem_singleton.mp hm ▸ hn.1.1.2
        | step => exact List.mem_singleton.mp hm ▸ hn.1.2
        | body => exact hn.2 m hm
        | _ => cases hm
      · exact h .body
  | repeatLoop count body loc =>
      rw [complaints_repeatLoop loc (h .count count (.head _))] at hn
      · simp only [List.append_eq_nil_iff, List.flatMap_eq_nil_iff] at hn
        cases role with
        | count => exact List.mem_singleton.mp hm ▸ hn.1
        | body => exact hn.2 m hm
        | _ => cases hm
      · exact h .body
  | binary op lhs rhs loc =>
      rw [complaints_binary op loc (h .left lhs (.head _)), List.append_eq_nil_iff] at hn
      cases role with
      | left => exact List.mem_singleton.mp hm ▸ hn.1
      | right => exact List.mem_singleton.mp hm ▸ hn.2
      | _ => cases hm
  | conditional condition consequent alternative loc =>
      rw [complaints_conditional loc (h .condition condition (.head _)) (h .consequent consequent (.head _))] at hn
      simp only [List.append_eq_nil_iff] at hn
      cases role with
      | condition => exact List.mem_singleton.mp hm ▸ hn.1.1
      | consequent => exact List.mem_singleton.mp hm ▸ hn.1.2
      | alternative => exact List.mem_singleton.mp hm ▸ hn.2
      | _ => cases hm
  | expressionDeclaration head value =>
      cases role with
      | value => exact List.mem_singleton.mp hm ▸ hn
      | _ => cases hm
  | wait kind condition loc =>
      cases role with
      | condition => exact List.mem_singleton.mp hm ▸ hn
      | _ => cases hm
  | unary op operand loc =>
      cases role with
      | operand => exact List.mem_singleton.mp hm ▸ hn
      | _ => cases hm
  | error | variableDeclaration | comment | breakLoop | constant => cases role <;> cases hm

/-- Where nothing is wrong with a tree, nothing is wrong at its places. -/
theorem complaints_at? {path : List Step} (h : ∀ role, ∀ m ∈ n.part role, m.ProgramFree)
    (hn : n.complaints s = []) (hm : n.at? path = some m) : m.complaints (s.along n path) = [] := by
  induction path generalizing s n with
  | nil =>
      cases hm
      exact hn
  | cons step path ih =>
      rw [at?_cons, Option.bind_eq_some_iff] at hm
      obtain ⟨child, hchild, hm⟩ := hm
      have hmem := mem_part_of_child? hchild
      have halong : s.along n (step :: path) = (s.inside n step.role).along child path := by
        rw [Scope.along, hchild]
      rw [halong]
      exact ih (fun _ _ => (h _ child hmem).part) (complaints_part h hn hmem) hm

end Node

/-! ## Texts without problems

The resolved tree of such a text draws no complaints and resolving it again changes nothing, which is all that is
used of it. -/

namespace Scope

variable {s o : Scope} {k : Nat}

/-- Which uses are well-formed depends on what is declared only. -/
theorem DefinesIdentifier.of_globals {u : Use IdentifierKind} (ho : s.globals = o.globals)
    (h : s.DefinesIdentifier u k) : o.DefinesIdentifier u k := by
  obtain ⟨d, hd, hk⟩ := h
  refine ⟨d, ?_, hk⟩
  rw [← hd]
  cases u.kind <;> simp [identifier?, ho]

theorem DefinesInstruction.of_globals {u : Use InstructionKind} (ho : s.globals = o.globals)
    (h : s.DefinesInstruction u k) : o.DefinesInstruction u k := by
  obtain ⟨d, hd, hk⟩ := h
  refine ⟨d, ?_, hk⟩
  rw [← hd]
  cases u.kind <;> simp [instruction?, ho]

end Scope

/-- Whether a node is a name that is marked as local and has arguments. -/
def Node.callsLocal : Node → Bool
  | .identifier u (_ :: _) => u.kind == .local_
  | _ => false

theorem Node.exists_of_callsLocal {n : Node} (h : n.callsLocal = true) :
    ∃ u a arguments, n = .identifier u (a :: arguments) ∧ u.kind = .local_ := by
  unfold callsLocal at h
  split at h
  · exact ⟨_, _, _, rfl, by simpa using h⟩
  · cases h

/-- The resolved tree of a text without problems, as far as its places go: no program stands below its root, nothing
is wrong with it, and resolving it again changes nothing. -/
structure Node.Clean (tree : Node) : Prop where
  parts : ∀ role, ∀ m ∈ tree.part role, m.ProgramFree
  problems : tree.problems = []
  resolved : tree.resolved = tree

theorem Valid.clean {source : String} (h : Valid source) : (resolvedTreeOfText source).result.Clean where
  parts role m hm := by
    have hprogram := h.settled
    revert hm hprogram
    generalize (resolvedTreeOfText source).result = tree
    rintro hm ⟨hbody⟩
    cases role <;> first | exact (hbody m hm).programFree | cases hm
  problems := h.problems_resolved
  resolved := Node.resolve_resolve {} _

namespace Node.Clean

variable {tree : Node} {path : List Node.Step} {arguments : List Node}

/-- Resolving what stands at a place changes nothing. -/
theorem resolve_at? (h : tree.Clean) {m : Node} (hm : tree.at? path = some m) :
    m.resolve (({} : Scope).along tree path) = m := by
  have hplace := Node.at?_resolve (s := {}) h.parts path
  rw [show tree.resolve {} = tree from h.resolved, hm] at hplace
  exact (Option.some.inj hplace).symm

theorem definesInstruction (h : tree.Clean) {u : Use InstructionKind}
    (hu : tree.at? path = some (.instruction u arguments)) :
    ({ globals := .ofNode tree } : Scope).DefinesInstruction u arguments.length := by
  have hcomplaints := Node.complaints_at? h.parts h.problems hu
  have hresolve := h.resolve_at? hu
  rw [Node.resolve, Node.instruction.injEq] at hresolve
  rw [Node.complaints, List.append_eq_nil_iff, hresolve.1, Scope.instructionComplaints_eq_nil_iff] at hcomplaints
  exact hcomplaints.1.of_globals (Scope.globals_along h.parts hu rfl)

/-- The use of a name at a place is well-formed, unless the name is marked as local and nothing binds it. -/
theorem definesIdentifier_or (h : tree.Clean) {u : Use IdentifierKind}
    (hu : tree.at? path = some (.identifier u arguments)) :
    ({ globals := .ofNode tree } : Scope).DefinesIdentifier u arguments.length ∨
      (u.kind = .local_ ∧ ¬ tree.Binds path u.name) := by
  have hcomplaints := Node.complaints_at? h.parts h.problems hu
  have hresolve := h.resolve_at? hu
  rw [Node.resolve, Node.identifier.injEq] at hresolve
  rw [Node.complaints, List.append_eq_nil_iff, hresolve.1, Scope.identifierComplaints_eq_nil_iff] at hcomplaints
  refine hcomplaints.1.imp (·.of_globals (Scope.globals_along h.parts hu rfl)) (And.imp_right fun hlocal hbinds => ?_)
  rw [(Scope.isLocal_along_iff_binds hu).mpr hbinds] at hlocal
  cases hlocal

end Node.Clean

/-- **In a text without problems every use of a name is well-formed, but for calls of unbound locals.** Every
instruction has a definition that takes its arguments. So has every name in an expression, unless it is marked as
local, has arguments, and stands where nothing binds it; and then the definition of locals does not take them. -/
theorem Valid.uses_defined_iff {source : String} (h : Valid source) :
    let tree := (resolvedTreeOfText source).result
    let s : Scope := { globals := .ofNode tree }
    (∀ path u arguments, tree.at? path = some (.instruction u arguments) →
        s.DefinesInstruction u arguments.length) ∧
      ∀ path u arguments, tree.at? path = some (.identifier u arguments) →
        (s.DefinesIdentifier u arguments.length ↔
          ¬ (u.kind = .local_ ∧ arguments ≠ [] ∧ ¬ tree.Binds path u.name)) := by
  intro tree s
  refine ⟨fun path u arguments hu => h.clean.definesInstruction hu, fun path u arguments hu => ?_⟩
  constructor
  · rintro hdefines ⟨hlocal, harguments, _⟩
    rw [Scope.definesIdentifier_local hlocal, List.length_eq_zero_iff] at hdefines
    exact harguments hdefines
  · intro hstray
    rcases h.clean.definesIdentifier_or hu with hdefines | ⟨hlocal, hbinds⟩
    · exact hdefines
    · rw [Scope.definesIdentifier_local hlocal, List.length_eq_zero_iff]
      by_contra harguments
      exact hstray ⟨hlocal, harguments, hbinds⟩

/-- Every name in this text is used well: in the loop `x` is its counter, behind it the variable. -/
theorem Valid.uses_defined_countdown :
    let source := "#program \"count\"\nvar x\n\x7b\nfor x = x to 3 \x7b\nDisplay x\n\x7d\nx = x + 1\n\x7d\n"
    let tree := (resolvedTreeOfText source).result
    Valid source ∧ ∀ path u arguments, tree.at? path = some (.identifier u arguments) →
      ({ globals := .ofNode tree } : Scope).DefinesIdentifier u arguments.length := by
  intro source tree
  have hvalid : Valid source := by decide +kernel
  have hnone : ∀ n ∈ tree.walk, n.callsLocal = false := by decide +kernel
  refine ⟨hvalid, fun path u arguments hu => ?_⟩
  refine (hvalid.uses_defined_iff.2 path u arguments hu).mpr ?_
  rintro ⟨hlocal, harguments, _⟩
  have hcalls := hnone _ (Node.mem_walk_of_at? hu)
  cases arguments with
  | nil => exact harguments rfl
  | cons => simp [Node.callsLocal, hlocal] at hcalls

/-- Nothing is held against `local.ghost(1)` where nothing binds `ghost`, though locals take no arguments. -/
theorem Valid.calls_unbound_local :
    let source := "#program \"program\"\n\n\n\x7b\n  Display local.ghost(1)\n\x7d\n"
    let tree := (resolvedTreeOfText source).result
    Valid source ∧ ∃ path u arguments, tree.at? path = some (.identifier u arguments) ∧
      ¬ ({ globals := .ofNode tree } : Scope).DefinesIdentifier u arguments.length := by
  intro source tree
  refine ⟨by decide +kernel, ?_⟩
  have hcalls : (tree.at? [⟨.body, 0⟩, ⟨.body, 0⟩, ⟨.argument, 0⟩]).any Node.callsLocal = true := by
    decide +kernel
  cases hn : tree.at? [⟨.body, 0⟩, ⟨.body, 0⟩, ⟨.argument, 0⟩] with
  | none => simp [hn] at hcalls
  | some n =>
      rw [hn, Option.any_some] at hcalls
      obtain ⟨u, a, arguments, rfl, hlocal⟩ := Node.exists_of_callsLocal hcalls
      exact ⟨_, u, a :: arguments, hn, by simp [Scope.definesIdentifier_local hlocal]⟩

end FlightScript
