import FlightScript.Proofs.Catalog
import FlightScript.Proofs.Reading

/-!
# `Proofs.Naming` — names that refer to what they referred to

A name is written bare where it then refers to what is meant, and with a qualifier or quotes where it would not.
The decision of the writer and that of the resolver are inverse to each other, under every way in which builtin
names, local names, variables and declared expressions hide one another.

## Contents

* `WritesReference`: a text that is read as a reference, with or without a qualifier;
* `Scope.Refers`, `Scope.Instructs`: a reference that comes to a given use once it is resolved;
* `Scope.SettlesIdentifier.writes`, `Scope.SettlesInstruction.writes`: the written name is such a reference.
-/

namespace FlightScript

/-- The tokens that a use of a name begins with. -/
def Token.startsName : Token → Bool
  | .word => true
  | .keyword .this => true
  | .keyword .var => true
  | .keyword .local_ => true
  | _ => false

/-- A text that is read as a reference of a given sort, if no dot follows. -/
def WritesReference (text : String) (P : Surface.Reference → Prop) : Prop :=
  ∃ t w us, (∀ depth, Spelled depth text ((t, w) :: us)) ∧ t.startsName = true ∧
    ∀ rest, headToken rest ≠ some .dot →
      Reads Parse.reference ((t, w) :: us ++ rest) rest fun o => ∃ r, o = some r ∧ P r

/-- A bare name is read as an unqualified reference to it, at every depth of parentheses and before whatever
stops it. -/
theorem writesReference_bare {name : String} {P : Surface.Reference → Prop}
    (hb : Text.isBare name = true) (hP : ∀ r, r.qualifier = none → r.value = name → P r) :
    WritesReference name P := by
  obtain ⟨d, hd, _, hlexemes⟩ := Surface.Dotted.exists_parts name
  refine ⟨.word, d.first, tailLexemes (d.more.map String.toList), ?_, rfl, ?_⟩
  · intro depth
    show Spelled depth name (Surface.Name.words d).lexemes
    rw [hlexemes hb]
    exact .dotted (Spelled.isDotted_of_isBare hb)
  · intro rest hrest
    let r : Surface.Reference := ⟨none, some (.words d), .synthetic⟩
    refine (Surface.Reference.IsWhole.reads (r := r) trivial hrest).mono ?_
    rintro _ ⟨r, rfl, hq, hr⟩
    exact ⟨r, rfl, hP r hq (by rw [Surface.Reference.value, hr]; exact hd)⟩

/-- A qualifier and a dot before a name, however the name itself is written. -/
theorem writesReference_qualified (q : Surface.Qualifier) {lead text name : String}
    {ms : List Symbol} {P : Surface.Reference → Prop} (hlead : lead = q.keyword.text ++ ".")
    (hspelled : ∀ depth, Spelled depth text ms)
    (hstart : ∃ c cs, text.toList = c :: cs ∧ Scan.isDigit c = false)
    (hmember : ∃ n : Surface.Name, n.memberLexemes = ms ∧ n.value = name)
    (hP : ∀ r, r.qualifier = some q → r.value = name → P r) : WritesReference (lead ++ text) P := by
  obtain ⟨c, cs, htext, hdigit⟩ := hstart
  obtain ⟨n, rfl, hn⟩ := hmember
  refine ⟨.keyword q.keyword, q.keyword.text, _, fun depth => .qualified q.keyword hlead htext hdigit
    (hspelled depth), by cases q <;> rfl, ?_⟩
  intro rest hrest
  let r : Surface.Reference := ⟨some q, some n, .synthetic⟩
  refine (Surface.Reference.IsWhole.reads (r := r) trivial hrest).mono ?_
  rintro _ ⟨r, rfl, hq, hr⟩
  exact ⟨r, rfl, hP r hq (by rw [Surface.Reference.value, hr]; exact hn)⟩

namespace Scope

/-- Once it is resolved, a reference with this many arguments is this use of a name in an expression. -/
def Refers (s : Scope) (u : Use IdentifierKind) (arguments : Nat) (r : Surface.Reference) : Prop :=
  ∀ span, (s.resolveIdentifier (r.identifierUse span) arguments).clearMetadata = u.clearMetadata

/-- Once it is resolved, a reference is this use of an instruction. -/
def Instructs (s : Scope) (u : Use InstructionKind) (r : Surface.Reference) : Prop :=
  ∀ span, (s.resolveInstruction (r.instructionUse span)).clearMetadata = u.clearMetadata

variable {s : Scope} {k : Nat}

/-- An unqualified reference gets the kind that its name has here. -/
theorem refers_of_unqualified {u : Use IdentifierKind} {r : Surface.Reference} (hq : r.qualifier = none)
    (hr : r.value = u.name) (hk : s.identifierKind u.name k = u.kind) : s.Refers u k r := by
  intro span
  rw [Use.clearMetadata_eq_iff]
  simp [resolveIdentifier, Surface.Reference.identifierUse, Surface.Reference.identifierKind, hq, hr, hk]

/-- A qualifier gives the kind. -/
theorem refers_of_qualified {u : Use IdentifierKind} {r : Surface.Reference} (hr : r.value = u.name)
    (hk : r.identifierKind = u.kind) (hu : u.kind ≠ .unknown) : s.Refers u k r := by
  intro span
  rw [Use.clearMetadata_eq_iff]
  simp [resolveIdentifier, Surface.Reference.identifierUse, hr, hk, hu]

/-- Where a name needs no qualifier it has the wanted kind by itself. -/
theorem identifierKind_of_not_needsQualifier {u : Use IdentifierKind} (h : s.SettlesIdentifier u k)
    (hn : s.needsQualifier u k = false) : s.identifierKind u.name k = u.kind := by
  simp only [needsQualifier, Bool.or_eq_false_iff] at hn
  obtain ⟨⟨⟨⟨hcat, hloc⟩, hnot⟩, -⟩, hvar⟩ := hn
  unfold SettlesIdentifier at h
  unfold identifierKind
  rw [hcat]
  -- what is left is the order in which local names, variables and expressions hide one another
  cases hk : u.kind with
  | unknown => simp [hk] at h
  | invalid => simp [hk] at h
  | builtin => simp [hk, hcat] at h
  | local_ =>
      have hl : s.isLocal u.name = true := by simpa [hk] using hnot
      simp [hl]
  | global =>
      have hl : s.isLocal u.name = false := by simpa [hk] using hloc
      simp only [hk] at h
      simp [hl, h.1, h.2]
  | expression =>
      have hl : s.isLocal u.name = false := by simpa [hk] using hloc
      simp only [hk] at h hvar
      have hv : (k == 0 && s.globals.vars.contains u.name) = false := by simpa using hvar
      simp [hl, hv, h]

theorem isBare_of_not_needsQualifier {u : Use IdentifierKind} (hn : s.needsQualifier u k = false) :
    Text.isBare u.name = true := by
  simp only [needsQualifier, Bool.or_eq_false_iff, Bool.not_eq_false'] at hn
  exact hn.1.2

/-- **The written name of a settled identifier refers to it.** -/
theorem SettlesIdentifier.writes {u : Use IdentifierKind} (h : s.SettlesIdentifier u k) :
    WritesReference (s.identifierText u k) (s.Refers u k) := by
  have hbare : Text.isBare u.name = true → s.identifierKind u.name k = u.kind →
      WritesReference u.name (s.Refers u k) :=
    fun hb hk => writesReference_bare hb fun r hq hr => refers_of_unqualified hq hr hk
  have hqualified : ∀ (q : Surface.Qualifier) (lead : String), lead = q.keyword.text ++ "." →
      (∀ r : Surface.Reference, r.qualifier = some q → r.identifierKind = u.kind) →
      WritesReference (lead ++ Render.member u.name) (s.Refers u k) :=
    fun q lead hlead hkind => writesReference_qualified q hlead (fun _ => .renderMember u.name)
      (Spelled.member_start u.name) (Surface.Name.exists_member u.name _)
      fun r hq hr => refers_of_qualified hr (hkind r hq) h.known
  unfold identifierText
  by_cases hn : s.needsQualifier u k = true
  · rw [if_pos hn]
    cases hk : u.kind with
    | unknown => exact absurd hk h.known
    | invalid => simp [SettlesIdentifier, hk] at h
    | builtin =>
        have hcat : (Catalog.expression? u.name).isSome := by simpa [SettlesIdentifier, hk] using h
        exact hbare (Catalog.isBare_of_expression? hcat) (by simp [identifierKind, hcat, hk])
    | local_ =>
        exact hqualified .local_ "local." rfl fun r hr => by simp [Surface.Reference.identifierKind, hr, hk]
    | global =>
        exact hqualified .var "var." rfl fun r hr => by simp [Surface.Reference.identifierKind, hr, hk]
    | expression =>
        exact hqualified .this "this." rfl fun r hr => by simp [Surface.Reference.identifierKind, hr, hk]
  · rw [if_neg hn]
    rw [Bool.not_eq_true] at hn
    exact hbare (isBare_of_not_needsQualifier hn) (identifierKind_of_not_needsQualifier h hn)

/-- **The written name of a settled instruction refers to it.** -/
theorem SettlesInstruction.writes {u : Use InstructionKind} (h : s.SettlesInstruction u) :
    WritesReference (Render.instruction u "") (s.Instructs u) := by
  have hunqualified : Text.isBare u.name = true → s.instructionKind u.name = u.kind →
      WritesReference u.name (s.Instructs u) := by
    intro hb hk
    refine writesReference_bare hb fun r hq hr span => ?_
    rw [Use.clearMetadata_eq_iff]
    simp [resolveInstruction, Surface.Reference.instructionUse, Surface.Reference.instructionKind, hq, hr, hk]
  unfold Render.instruction
  rw [String.append_empty, String.append_empty]
  cases hk : u.kind with
  | unknown => exact absurd hk h.known
  | invalid => simp [SettlesInstruction, hk] at h
  | builtin =>
      have hcat : (Catalog.instruction? u.name).isSome := by simpa [SettlesInstruction, hk] using h
      rw [if_neg (by simp)]
      exact hunqualified (Catalog.isBare_of_instruction? hcat) (by simp [instructionKind, hcat, hk])
  | global =>
      have hdecl : s.globals.instructions.contains u.name := by simpa [SettlesInstruction, hk] using h
      split
      · refine writesReference_qualified .this rfl (fun _ => .renderName u.name)
          (Spelled.name_start u.name) (Surface.Name.exists_member u.name _) ?_
        intro r hq hr span
        rw [Use.clearMetadata_eq_iff]
        simp [resolveInstruction, Surface.Reference.instructionUse, Surface.Reference.instructionKind,
          hq, hr, hk]
      · rename_i hplain
        simp only [decide_true, Bool.true_and, Bool.or_eq_true, not_or, Bool.not_eq_true,
          Bool.not_eq_false'] at hplain
        exact hunqualified hplain.2 (by simp [instructionKind, hplain.1, hdecl, hk])

end Scope

end FlightScript
