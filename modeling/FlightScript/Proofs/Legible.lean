import FlightScript.Proofs.Resolution
import FlightScript.Proofs.Scanning
import FlightScript.Surface.Desugar

/-!
# `Proofs.Legible` — the trees that texts stand for

Which constants, comments and heads a text can spell, and two grammars made of them. The trees of
`Grammar.written` have the kinds that qualifiers give and are what a text without problems is read as. The trees of
`Grammar.settled` have known kinds with definitions, and are what their texts are read back as. Resolving leads
from the first grammar to the second wherever there is nothing to complain about.

## Contents

* `Constant.Legible`, `LegibleComment`, `DeclarationHead.Legible`, `EventHead.Legible`;
* `Grammar.written`, `Grammar.settled`;
* `Grammar.Program.settled`: resolving a written program without complaints settles it;
* `Grammar.Program.resolved_clearMetadata`: resolving a settled program changes metadata only.
-/

namespace FlightScript

/-! ## What a text can spell

A number has to be a numeral, a comment must not hold a line end, and a directive must say something. -/

/-- A constant that a text can spell. -/
def Constant.Legible (c : Constant) : Prop :=
  match c.kind with
  | .number => Numeral c.value.toList ∨ ∃ cs, c.value.toList = '-' :: cs ∧ Numeral cs
  | .string => True
  | .bool => c.value = "true" ∨ c.value = "false"
  | .vector => False

/-- A comment that a line can hold. -/
def LegibleComment (text : String) : Prop :=
  '\n' ∉ text.toList ∧ Text.trimStart text.toList = text.toList

/-- A value of a directive: none, or one that says something. -/
def LegibleValue (value : Option String) : Prop := value ≠ some ""

theorem legibleValue_filled (value : Option String) : LegibleValue (Text.filled value) :=
  fun h => (Text.filled_eq_some_iff.mp h).2 rfl

/-- The head of a declaration that a text can spell. -/
structure DeclarationHead.Legible (h : DeclarationHead) : Prop where
  pos : LegibleValue h.pos
  callFormat : LegibleValue h.callFormat

/-- The head of a handler that a text can spell: only a handler of messages names one. -/
structure EventHead.Legible (h : EventHead) : Prop where
  pos : LegibleValue h.pos
  event : (Catalog.event? h.event).isSome
  filter : h.filter ≠ none → h.event = Catalog.messageEvent

namespace Grammar

/-- The trees that texts are read as. A qualifier gives a kind, and no other kind is known. -/
def written : Grammar where
  constant := Constant.Legible
  comment := LegibleComment
  identifier _ u _ := u.kind ≠ .builtin ∧ u.kind ≠ .invalid
  instruction _ u _ := u.kind ≠ .builtin ∧ u.kind ≠ .invalid
  position := LegibleValue
  declaration := DeclarationHead.Legible
  event := EventHead.Legible

/-- The trees that can be spelled and read back. -/
def settled : Grammar where
  constant := Constant.Legible
  comment := LegibleComment
  identifier s u k := s.SettlesIdentifier u k
  instruction s u _ := s.SettlesInstruction u
  position := LegibleValue
  declaration := DeclarationHead.Legible
  event := EventHead.Legible

/-! ## Resolving settles

Where nothing is wrong every name gets a kind and has a definition of that kind. -/

variable {s : Scope} {n : Node}

theorem forall_mem_map_resolve {P : Node → Prop} {ns : List Node}
    (h : ∀ n ∈ ns, P (n.resolve s)) : ∀ m ∈ ns.map (Node.resolve s), P m := by
  intro m hm
  obtain ⟨n, hn, rfl⟩ := List.mem_map.mp hm
  exact h n hn

/-- A written expression without complaints resolves to a settled one. A name that has a qualifier keeps its
kind, and any other one gets the first kind under which it is found. -/
theorem Expression.settled (h : written.Expression s n) (hs : s.VariablesBare)
    (hn : n.complaints s = []) : settled.Expression s (n.resolve s) := by
  induction h with
  | identifier _ ha ih =>
      have hfree := Expression.programFree_all ha
      simp only [Node.complaints, Node.complaintsAll_of_programFree hfree, List.append_eq_nil_iff,
        List.flatMap_eq_nil_iff] at hn
      rw [Node.resolve, Node.resolveAll_of_programFree hfree]
      refine .identifier ?_ ?_
      · rw [List.length_map]
        exact Scope.settlesIdentifier_of_complaints hs (s.resolveIdentifier_known _ _) hn.1
      · exact forall_mem_map_resolve fun a m => ih a m (hn.2 a m)
  | constant hc => exact .constant hc
  | binary op hl _ ihl ihr =>
      rw [Node.complaints_binary _ _ hl.programFree, List.append_eq_nil_iff] at hn
      rw [Node.resolve_binary _ _ hl.programFree]
      exact .binary op (ihl hn.1) (ihr hn.2)
  | negation _ ih => exact .negation (ih hn)
  | conditional hc ht _ ihc iht ihe =>
      rw [Node.complaints_conditional _ hc.programFree ht.programFree] at hn
      simp only [List.append_eq_nil_iff] at hn
      rw [Node.resolve_conditional _ hc.programFree ht.programFree]
      exact .conditional (ihc hn.1.1) (iht hn.1.2) (ihe hn.2)

/-- The same for statements, by induction over the derivation. A counting loop adds its variable to the scope,
which leaves the variables of the program without arguments. -/
theorem Statement.settled (h : written.Statement s n) (hs : s.VariablesBare)
    (hn : n.complaints s = []) : settled.Statement s (n.resolve s) := by
  induction h with
  | instruction _ ha =>
      have hfree := Expression.programFree_all ha
      simp only [Node.complaints, Node.complaintsAll_of_programFree hfree, List.append_eq_nil_iff,
        List.flatMap_eq_nil_iff] at hn
      rw [Node.resolve, Node.resolveAll_of_programFree hfree]
      refine .instruction ?_ (forall_mem_map_resolve fun a m => (ha a m).settled hs (hn.2 a m))
      exact Scope.settlesInstruction_of_complaints hn.1
  | assignment ht hv =>
      rw [Node.complaints_assignment _ _ ht.programFree, List.append_eq_nil_iff] at hn
      rw [Node.resolve_assignment _ _ ht.programFree]
      exact .assignment (ht.settled hs hn.1) (hv.settled hs hn.2)
  | comment ht => exact .comment ht
  | wait hc => exact .wait (hc.settled hs hn)
  | ifElse hc ht he iht ihe =>
      have htf := programFree_all ht
      have hef := programFree_all he
      rw [Node.complaints_ifElse _ hc.programFree htf hef] at hn
      simp only [List.append_eq_nil_iff, List.flatMap_eq_nil_iff] at hn
      rw [Node.resolve_ifElse _ hc.programFree htf hef]
      exact .ifElse (hc.settled hs hn.1.1)
        (forall_mem_map_resolve fun m hm => iht m hm hs (hn.1.2 m hm))
        (forall_mem_map_resolve fun m hm => ihe m hm hs (hn.2 m hm))
  | whileLoop hc hb ih =>
      have hbf := programFree_all hb
      rw [Node.complaints_whileLoop _ hc.programFree hbf] at hn
      simp only [List.append_eq_nil_iff, List.flatMap_eq_nil_iff] at hn
      rw [Node.resolve_whileLoop _ hc.programFree hbf]
      exact .whileLoop (hc.settled hs hn.1) (forall_mem_map_resolve fun m hm => ih m hm hs (hn.2 m hm))
  | forLoop hf hl ht hb ih =>
      have hbf := programFree_all hb
      rw [Node.complaints_forLoop _ hf.programFree hl.programFree ht.programFree hbf] at hn
      simp only [List.append_eq_nil_iff, List.flatMap_eq_nil_iff] at hn
      rw [Node.resolve_forLoop _ hf.programFree hl.programFree ht.programFree hbf]
      exact .forLoop (hf.settled hs hn.1.1.1) (hl.settled hs hn.1.1.2) (ht.settled hs hn.1.2)
        (forall_mem_map_resolve fun m hm => ih m hm hs (hn.2 m hm))
  | breakLoop => exact .breakLoop
  | repeatLoop hc hb ih =>
      have hbf := programFree_all hb
      rw [Node.complaints_repeatLoop _ hc.programFree hbf] at hn
      simp only [List.append_eq_nil_iff, List.flatMap_eq_nil_iff] at hn
      rw [Node.resolve_repeatLoop _ hc.programFree hbf]
      exact .repeatLoop (hc.settled hs hn.1) (forall_mem_map_resolve fun m hm => ih m hm hs (hn.2 m hm))

/-- The same for items, in the scope with their parameters. -/
theorem Item.settled (h : written.Item s n) (hs : s.VariablesBare) (hn : n.complaints s = []) :
    settled.Item s (n.resolve s) := by
  cases h with
  | event he hb =>
      have hbf := Statement.programFree_all hb
      simp only [Node.complaints, Node.complaintsAll_of_programFree hbf, List.append_eq_nil_iff,
        List.flatMap_eq_nil_iff] at hn
      rw [Node.resolve, Node.resolveAll_of_programFree hbf]
      exact .event ⟨he.pos, he.event, he.filter⟩
        (forall_mem_map_resolve fun m hm => (hb m hm).settled hs (hn.2 m hm))
  | instructionDeclaration hd hb =>
      have hbf := Statement.programFree_all hb
      simp only [Node.complaints, Node.complaintsAll_of_programFree hbf, List.flatMap_eq_nil_iff] at hn
      rw [Node.resolve, Node.resolveAll_of_programFree hbf]
      exact .instructionDeclaration ⟨hd.pos, hd.callFormat⟩
        (forall_mem_map_resolve fun m hm => (hb m hm).settled hs (hn m hm))
  | expressionDeclaration hd hv =>
      exact .expressionDeclaration ⟨hd.pos, hd.callFormat⟩ (hv.settled hs hn)
  | detached hp hb =>
      have hbf := Statement.programFree_all hb
      simp only [Node.complaints, Node.complaintsAll_of_programFree hbf, List.flatMap_eq_nil_iff] at hn
      rw [Node.resolve, Node.resolveAll_of_programFree hbf]
      exact .detached hp (forall_mem_map_resolve fun m hm => (hb m hm).settled hs (hn m hm))

end Grammar

/-! ## What a program declares

Resolving leaves the heads of a program, so it declares the same before and after. -/

namespace NameMap

variable {α : Type}

/-- What is looked up in a map made of a list stands in the list. -/
theorem mem_of_get?_ofList {es : List (String × α)} {name : String} {v : α}
    (h : (ofList es).get? name = some v) : (name, v) ∈ es := by
  have hfold : ∀ (es : List (String × α)) (m : NameMap α),
      (es.foldl (fun m e => m.insert e.1 e.2) m).get? name = some v →
        (name, v) ∈ es ∨ m.get? name = some v := by
    intro es
    induction es with
    | nil => intro m hm; exact .inr hm
    | cons e es ih =>
        intro m hm
        rcases ih _ hm with hin | hget
        · exact .inl (List.mem_cons_of_mem _ hin)
        · by_cases he : name = e.1
          · rw [he, get?_insert_self] at hget
            cases hget
            exact .inl (he ▸ List.mem_cons_self)
          · rw [get?_insert_of_ne m e.2 he] at hget
            exact .inr hget
  rcases hfold es empty h with hin | hget
  · exact hin
  · simp [get?, empty] at hget

end NameMap

namespace Globals

/-- Declarations leave the variables as they are. -/
theorem vars_ofProgram (vars : List VariableDeclaration) (body : List Node) :
    (ofProgram vars body).vars = .ofList (vars.map fun d => (d.name, ofVariable d)) := by
  have hadd : ∀ (g : Globals) (n : Node), (g.add n).vars = g.vars := by
    intro g n
    cases n <;> rfl
  have hfold : ∀ (body : List Node) (g : Globals), (body.foldl add g).vars = g.vars := by
    intro body
    induction body with
    | nil => intro g; rfl
    | cons n ns ih => intro g; rw [List.foldl_cons, ih, hadd]
  exact hfold body _

/-- What a program declares depends only on what each part of its body adds. -/
theorem ofProgram_map {f : Node → Node} (hf : ∀ (g : Globals) (n : Node), g.add (f n) = g.add n)
    (vars : List VariableDeclaration) (body : List Node) :
    ofProgram vars (body.map f) = ofProgram vars body := by
  unfold ofProgram
  generalize ({ vars := _ } : Globals) = g
  induction body generalizing g with
  | nil => rfl
  | cons n ns ih => rw [List.map_cons, List.foldl_cons, List.foldl_cons, hf, ih]

theorem add_clearMetadata (g : Globals) (n : Node) : g.add n.clearMetadata = g.add n := by
  cases n <;> rfl

theorem ofProgram_clearMetadata (vars : List VariableDeclaration) (body : List Node) :
    ofProgram (vars.map VariableDeclaration.clearMetadata) (body.map Node.clearMetadata) =
      ofProgram vars body := by
  rw [ofProgram_map add_clearMetadata]
  unfold ofProgram
  rw [List.map_map]
  rfl

end Globals

namespace Grammar

/-- The variables of a program are defined without arguments. -/
theorem variablesBare_scopeOf (vars : List VariableDeclaration) (body : List Node) :
    (scopeOf vars body).VariablesBare := by
  intro name d hd
  rw [scopeOf, Globals.vars_ofProgram] at hd
  have hmem := NameMap.mem_of_get?_ofList hd
  obtain ⟨v, _, hv⟩ := List.mem_map.mp hmem
  cases hv
  rfl

theorem scopeOf_map {f : Node → Node} (hf : ∀ (g : Globals) (n : Node), g.add (f n) = g.add n)
    (vars : List VariableDeclaration) (body : List Node) :
    scopeOf vars (body.map f) = scopeOf vars body := by
  rw [scopeOf, Globals.ofProgram_map hf, ← scopeOf]

theorem Item.programFree_all {g : Grammar} {s : Scope} {ns : List Node} (h : ∀ n ∈ ns, g.Item s n) :
    ∀ n ∈ ns, n.ProgramFree := fun n m => (h n m).programFree

/-- The complaints about a program are those about its items. -/
theorem Program.problems_eq {g : Grammar} {name : String} {vars : List VariableDeclaration}
    {body : List Node} {loc : Option Span} (h : ∀ n ∈ body, g.Item (scopeOf vars body) n) :
    (Node.program name vars body loc).problems = body.flatMap (Node.complaints (scopeOf vars body)) := by
  show Node.complaintsAll (scopeOf vars body) body = _
  rw [Node.complaintsAll_of_programFree (Item.programFree_all h)]

/-- Resolving a program resolves its items. -/
theorem Program.resolved_eq {g : Grammar} {name : String} {vars : List VariableDeclaration}
    {body : List Node} {loc : Option Span} (h : ∀ n ∈ body, g.Item (scopeOf vars body) n) :
    (Node.program name vars body loc).resolved =
      .program name vars (body.map (Node.resolve (scopeOf vars body))) loc := by
  show Node.program name vars (Node.resolveAll (scopeOf vars body) body) loc = _
  rw [Node.resolveAll_of_programFree (Item.programFree_all h)]

/-- **Resolving a written program without complaints settles it.** A name that there is no complaint about gets a kind
that its definition belongs to, and the resolved items declare the same names, so they are settled in the scope that
they were resolved in. -/
theorem Program.settled {n : Node} (h : written.Program n) (hn : n.problems = []) :
    settled.Program n.resolved := by
  cases h with
  | program hb =>
      rw [Program.problems_eq hb, List.flatMap_eq_nil_iff] at hn
      rw [Program.resolved_eq hb]
      refine .program ?_
      rw [scopeOf_map (Globals.add_resolve _)]
      exact forall_mem_map_resolve fun m hm =>
        (hb m hm).settled (variablesBare_scopeOf _ _) (hn m hm)

/-! ## Settled trees stay as they are

Resolving a settled tree leaves all kinds, so that only the notes of local names change. -/

open Node (Same)

theorem forall₂_self {s : Scope} {ns : List Node} (h : ∀ n ∈ ns, Same s n n) :
    List.Forall₂ (Same s) ns ns := by
  simpa using forall₂_map_right (f := id) h

/-- A settled expression comes to the same as itself: its names keep their kinds. -/
theorem Expression.same_self {s : Scope} {n : Node} (h : Grammar.settled.Expression s n) :
    Same s n n := by
  induction h with
  | identifier hn _ ih =>
      refine .identifier hn.known ?_ (forall₂_self ih)
      rw [Scope.resolveIdentifier_of_known hn.known]
  | constant _ => exact .constant
  | binary op _ _ ihl ihr => exact ihl.binary ihr
  | negation _ ih => exact ih.unary
  | conditional _ _ _ ihc iht ihe => exact ihc.conditional iht ihe

/-- A settled statement comes to the same as itself. -/
theorem Statement.same_self {s : Scope} {n : Node} (h : Grammar.settled.Statement s n) :
    Same s n n := by
  induction h with
  | instruction hn ha =>
      refine .instruction hn.known ?_ (forall₂_self fun a m => (ha a m).same_self)
      rw [Scope.resolveInstruction_of_known hn.known]
  | assignment ht hv => exact ht.same_self.assignment hv.same_self
  | comment _ => exact .comment
  | wait hc => exact hc.same_self.wait
  | ifElse hc _ _ iht ihe => exact hc.same_self.ifElse (forall₂_self iht) (forall₂_self ihe)
  | whileLoop hc _ ih => exact hc.same_self.whileLoop (forall₂_self ih)
  | forLoop hf hl ht _ ih =>
      exact .forLoop rfl hf.same_self hl.same_self ht.same_self (forall₂_self ih)
  | breakLoop => exact .breakLoop
  | repeatLoop hc _ ih => exact hc.same_self.repeatLoop (forall₂_self ih)

theorem Item.same_self {s : Scope} {n : Node} (h : Grammar.settled.Item s n) : Same s n n := by
  cases h with
  | event _ hb => exact .event rfl (forall₂_self fun m hm => (hb m hm).same_self)
  | instructionDeclaration _ hb =>
      exact .instructionDeclaration rfl (forall₂_self fun m hm => (hb m hm).same_self)
  | expressionDeclaration _ hv => exact .expressionDeclaration rfl hv.same_self
  | detached _ hb => exact .detached (forall₂_self fun m hm => (hb m hm).same_self)

/-- **Resolving a settled program changes metadata only.** -/
theorem Program.resolved_clearMetadata {n : Node} (h : Grammar.settled.Program n) :
    n.resolved.clearMetadata = n.clearMetadata := by
  cases h with
  | program hb =>
      rw [Program.resolved_eq hb]
      simp only [Node.clearMetadata, Node.clearMetadataAll_eq_map,
        Same.resolve_all (forall₂_self fun m hm => (hb m hm).same_self)]

end Grammar

end FlightScript
