import FlightScript.Conversion
import FlightScript.Proofs.Patterns
import FlightScript.Proofs.Soundness
import Mathlib.Data.List.DropRight

/-!
# `Proofs.Completeness` — texts without problems have whole trees

Whatever cannot be read leaves a placeholder in the tree, and every placeholder comes with a problem. So the tree of
a text that is read without problems is a tree of `Grammar.written`: an expression stands wherever one is asked, and
constants, comments and heads are such as a text can spell. A program without problems is derived from its lexemes, and
the rules of the grammar have no placeholders; so this is shown by induction over derivations.

## Contents

* `Expression.Derives.written`, `Phrase.Derives.written`, `Item.Derives.written`: what is derived is written;
* `Draft.Written`: programs of which some items have been read;
* `Grammar.written_treeOfText`: the tree of a text without problems.
-/

namespace FlightScript

/-! ## Lexemes

Two classes of lexemes have texts that matter later: a number has to be the whole of a numeral, and a comment must not
hold a line end. Both are said by the patterns of the classes. -/

theorem Token.Matches.numeral {w : List Char} (h : Token.Matches .number w) : Numeral w := by
  cases h with
  | fixed hs => cases hs
  | number hw => exact hw.numeral

theorem Token.Matches.newline_notMem {w : List Char} (h : Token.Matches .comment w) : '\n' ∉ w := by
  cases h with
  | fixed hs => cases hs
  | comment hcs => simpa using hcs

/-! ## Expressions

The trees are written in every scope, since `Grammar.written` asks nothing of a name but a kind that a qualifier can
give. -/

/-- A tree that stands where an expression is written, whatever is known around it. -/
def WrittenExpression (n : Node) : Prop := ∀ s, Grammar.written.Expression s n

/-- A qualifier gives a kind that a text can give. -/
theorem WrittenExpression.identifier {r : Surface.Reference} {span : Span} {args : List Node}
    (h : ∀ a ∈ args, WrittenExpression a) : WrittenExpression (.identifier (r.identifierUse span) args) := by
  intro s
  refine .identifier ?_ fun a ha => h a ha s
  show r.identifierKind ≠ .builtin ∧ r.identifierKind ≠ .invalid
  unfold Surface.Reference.identifierKind
  split <;> exact ⟨nofun, nofun⟩

/-- The number that counts where an expression is left out. -/
theorem WrittenExpression.nodeOr {e : Surface.Expression} {value : String} (h : WrittenExpression e.node)
    (hv : Constant.Legible (.number value)) : WrittenExpression (e.nodeOr value) := by
  cases e with
  | missing => exact fun s => .constant hv
  | _ => exact h

namespace Surface

open Spelled (key commas)

/-- The digits of a number are a whole numeral, with a sign or without one. -/
theorem Literal.legible_constant {v : Literal} (h : ∀ u ∈ v.lexemes, u.1.Matches u.2.toList) : v.constant.Legible := by
  cases v with
  | number negative digits =>
      have hdigits := (h (.number, digits) (by cases negative <;> simp [lexemes])).numeral
      cases negative with
      | false => exact .inl hdigits
      | true => exact .inr ⟨digits.toList, by simp [constant, Constant.number], hdigits⟩
  | string literal => trivial
  | bool value =>
      cases value with
      | false => exact .inr rfl
      | true => exact .inl rfl

/-- **A derived expression is written.** The rules of the grammar have no placeholders, so an expression stands at each
of its places. -/
theorem Expression.Derives.written {k : Nat} {e : Expression} {ts : List Symbol} (h : e.Derives k ts)
    (hts : ∀ u ∈ ts, u.1.Matches u.2.toList) : WrittenExpression e.node := by
  induction h with
  | literal => exact fun s => .constant (Literal.legible_constant hts)
  | name => exact .identifier (by simp)
  | call _ _ ih =>
      rw [Expression.node, Expression.nodes_eq_map]
      refine .identifier fun n hn => ?_
      obtain ⟨e, he, rfl⟩ := List.mem_map.mp hn
      obtain ⟨a, ha, rfl⟩ := List.mem_map.mp he
      refine ih a ha fun u hu => hts u ?_
      simp [Spelled.mem_commas_of_mem (List.mem_map_of_mem ha) hu]
  | group _ ih => exact ih fun u hu => hts u (by simp [hu])
  | conditional _ _ _ ihc iht ihe =>
      exact fun s => .conditional (ihc (fun u hu => hts u (by simp [hu])) s) (iht (fun u hu => hts u (by simp [hu])) s)
        (ihe (fun u hu => hts u (by simp [hu])) s)
  | power _ _ ihl ihr =>
      exact fun s => .binary .power (ihl (fun u hu => hts u (by simp [hu])) s) (ihr (fun u hu => hts u (by simp [hu])) s)
  | binary _ _ _ ihl ihr =>
      exact fun s => .binary _ (ihl (fun u hu => hts u (by simp [hu])) s) (ihr (fun u hu => hts u (by simp [hu])) s)
  | not _ ih => exact fun s => .negation (ih (fun u hu => hts u (by simp [hu])) s)
  | looser _ _ ih => exact ih hts

theorem Target.Derives.written {t : Target} {ts : List Symbol} (h : t.Derives ts)
    (hts : ∀ u ∈ ts, u.1.Matches u.2.toList) : WrittenExpression t.node := by
  cases h with
  | reference => exact .identifier (by simp)
  | group h => exact h.written fun u hu => hts u (by simp [hu])

/-- The arguments of an instruction are written, whether they stand in parentheses or not. -/
theorem Arguments.Derives.written {as : Arguments} {ts : List Symbol} (h : as.Derives ts)
    (hts : ∀ u ∈ ts, u.1.Matches u.2.toList) : ∀ n ∈ as.nodes, WrittenExpression n := by
  cases h with
  | none => simp [Arguments.nodes]
  | list h =>
      rw [Arguments.nodes, Expression.nodes_eq_map]
      intro n hn
      obtain ⟨e, he, rfl⟩ := List.mem_map.mp hn
      obtain ⟨a, ha, rfl⟩ := List.mem_map.mp he
      refine (h a ha).written fun u hu => hts u ?_
      simp [Spelled.mem_commas_of_mem (List.mem_map_of_mem ha) hu]
  | single h => simpa [Arguments.nodes] using h.written hts

/-! ## Statements -/

/-- The words of a comment stand on its line and begin with no white space. -/
theorem legibleComment_commentText {text : String} (h : '\n' ∉ text.toList) : LegibleComment (commentText text) := by
  have htext : (commentText text).toList = (text.toList.drop 2).dropWhile Text.isBlank := by
    simp [commentText, Text.trimStart]
  constructor
  · rw [htext]
    exact fun hm => h ((List.drop_suffix _ _).subset ((List.dropWhile_suffix _).subset hm))
  · rw [htext, Text.trimStart, List.dropWhile_idempotent]

/-- A tree that stands where a statement is written, whatever is known around it. -/
def WrittenStatement (n : Node) : Prop := ∀ s, Grammar.written.Statement s n

/-- The statements in a phrase are written. -/
def Phrase.Written : Phrase → Prop
  | .statement s => WrittenStatement s.node
  | .block b => ∀ n ∈ b.nodes, WrittenStatement n
  | .body ss => ∀ s ∈ ss, WrittenStatement s.node
  | .alternative a => ∀ n ∈ a.nodes, WrittenStatement n

/-- **Derived statements are written**, in blocks, after `else` and alone. The body of a counting loop is written in
every scope, so it is in the one with the variable. -/
theorem Phrase.Derives.written {p : Phrase} {ts : List Symbol} (h : p.Derives ts)
    (hts : ∀ u ∈ ts, u.1.Matches u.2.toList) : p.Written := by
  induction h with
  | bodyEnd => exact fun s hs => absurd hs List.not_mem_nil
  | bodyNewline _ ih => exact ih fun u hu => hts u (by simp [hu])
  | @bodyComment ss us text span _ ih =>
      have htext := (hts (.comment, text) List.mem_cons_self).newline_notMem
      refine List.forall_mem_cons.mpr ⟨fun s => .comment (legibleComment_commentText htext), ?_⟩
      exact ih fun u hu => hts u (by simp [hu])
  | bodyStatement _ _ _ ihs ihss =>
      refine List.forall_mem_cons.mpr ⟨ihs fun u hu => hts u (by simp [hu]), ?_⟩
      exact ihss fun u hu => hts u (by simp [hu])
  | block _ ih =>
      intro n hn
      rw [Block.nodes, statementNodes_eq_map] at hn
      obtain ⟨s, hs, rfl⟩ := List.mem_map.mp hn
      exact ih (fun u hu => hts u (by simp [hu])) s hs
  | ifElse hc _ _ _ ihb iha =>
      exact fun s => .ifElse (hc.written (fun u hu => hts u (by simp [hu])) s)
        (fun n hn => ihb (fun u hu => hts u (by simp [hu])) n hn s)
        fun n hn => iha (fun u hu => hts u (by simp [hu])) n hn s
  | noElse => simp [Phrase.Written, Alternative.nodes]
  | elseIf hc _ _ _ ihb iha =>
      rw [Phrase.Written, Alternative.nodes, List.forall_mem_singleton]
      exact fun s => .ifElse (hc.written (fun u hu => hts u (by simp [hu])) s)
        (fun n hn => ihb (fun u hu => hts u (by simp [hu])) n hn s)
        fun n hn => iha (fun u hu => hts u (by simp [hu])) n hn s
  | otherwise _ ih => exact ih fun u hu => hts u (by simp [hu])
  | whileLoop hc _ ih =>
      exact fun s => .whileLoop (hc.written (fun u hu => hts u (by simp [hu])) s)
        fun n hn => ih (fun u hu => hts u (by simp [hu])) n hn s
  | repeatLoop hc _ ih =>
      exact fun s => .repeatLoop (hc.written (fun u hu => hts u (by simp [hu])) s)
        fun n hn => ih (fun u hu => hts u (by simp [hu])) n hn s
  | forLoop hf hl _ ih =>
      exact fun s => .forLoop (hf.written (fun u hu => hts u (by simp [hu])) s)
        (hl.written (fun u hu => hts u (by simp [hu])) s) (.constant Grammar.settled_one)
        fun n hn => ih (fun u hu => hts u (by simp [hu])) n hn _
  | forStep hf hl hstep _ ih =>
      have hwritten := (hstep.written fun u hu => hts u (by simp [hu])).nodeOr Grammar.settled_one
      exact fun s => .forLoop (hf.written (fun u hu => hts u (by simp [hu])) s)
        (hl.written (fun u hu => hts u (by simp [hu])) s) (hwritten s)
        fun n hn => ih (fun u hu => hts u (by simp [hu])) n hn _
  | breakLoop => exact fun s => .breakLoop
  | waitAlone => exact fun s => .wait (.constant Grammar.settled_zero)
  | waitFor he => exact fun s => .wait ((he.written fun u hu => hts u (by simp [hu])).nodeOr Grammar.settled_zero s)
  | waitUntil he => exact fun s => .wait ((he.written fun u hu => hts u (by simp [hu])).nodeOr Grammar.settled_zero s)
  | assign ht he =>
      exact fun s => .assignment (ht.written (fun u hu => hts u (by simp [hu])) s)
        (he.written (fun u hu => hts u (by simp [hu])) s)
  | @instruction r as ts span _ has =>
      intro s
      refine .instruction ?_ fun n hn => has.written (fun u hu => hts u (by simp [hu])) n hn s
      show r.instructionKind ≠ .builtin ∧ r.instructionKind ≠ .invalid
      unfold Reference.instructionKind
      split <;> decide

/-! ## Programs

Items are put into a draft one by one. What the draft holds is written, and stays so with every item. -/

/-- An item whose statements and expressions are written. -/
def WrittenItem : Item → Prop
  | .event _ _ body _ => ∀ n ∈ body.nodes, WrittenStatement n
  | .instruction _ _ body _ => ∀ n ∈ body.nodes, WrittenStatement n
  | .expression _ _ value _ => WrittenExpression value.node
  | .block statements _ => ∀ x ∈ statements, WrittenStatement x.node
  | _ => True

theorem Item.Derives.written {x : Item} {ts : List Symbol} (h : x.Derives ts) (hts : ∀ u ∈ ts, u.1.Matches u.2.toList) :
    WrittenItem x := by
  cases h with
  | directive => trivial
  | var => trivial
  | event h => exact h.written fun u hu => hts u (by simp [hu])
  | instruction h => exact h.written fun u hu => hts u (by simp [hu])
  | expression h => exact h.written fun u hu => hts u (by simp [hu])
  | block h => exact h.written fun u hu => hts u (by simp [hu])

/-- The items of a derived program are written, by induction over the derivation. -/
theorem Items.Derives.written {xs : List Item} {ts : List Symbol} (h : Items.Derives xs ts)
    (hts : ∀ u ∈ ts, u.1.Matches u.2.toList) : ∀ x ∈ xs, WrittenItem x := by
  induction h with
  | nil => simp
  | newline _ ih => exact ih fun u hu => hts u (by simp [hu])
  | comment _ ih => exact ih fun u hu => hts u (by simp [hu])
  | cons hx _ _ ih =>
      refine List.forall_mem_cons.mpr ⟨hx.written fun u hu => hts u (by simp [hu]), ?_⟩
      exact ih fun u hu => hts u (by simp [hu])

end Surface

open Surface (WrittenItem)

/-- What has been read of a program is written, and what is noted says something. -/
structure Surface.Draft.Written (d : Surface.Draft) : Prop where
  directives : ∀ key, LegibleValue (d.directives.get? key)
  body : ∀ n ∈ d.body, ∀ s, Grammar.written.Item s n

theorem Surface.Draft.Written.pos {d : Surface.Draft} (h : d.Written) : LegibleValue d.pos := h.directives "pos"

theorem Surface.Draft.Written.callFormat {d : Surface.Draft} (h : d.Written) : LegibleValue d.callFormat :=
  h.directives "fmt"

section Notes

variable {m : NameMap String} (h : ∀ key, LegibleValue (m.get? key)) (name : String)
include h

/-- Taking back what is noted under a name leaves notes that say something. -/
theorem legibleValue_erase : ∀ key, LegibleValue ((m.erase name).get? key) := by
  intro key
  by_cases hkey : key = name
  · rw [hkey, NameMap.get?_erase_self]
    exact (Option.some_ne_none _).symm
  · rw [NameMap.get?_erase_of_ne _ hkey]
    exact h key

/-- Noting a value that is not empty leaves notes that say something. -/
theorem legibleValue_insert {value : String} (hvalue : value ≠ "") :
    ∀ key, LegibleValue ((m.insert name value).get? key) := by
  intro key
  by_cases hkey : key = name
  · rw [hkey, NameMap.get?_insert_self]
    exact fun heq => hvalue (Option.some.inj heq)
  · rw [NameMap.get?_insert_of_ne _ _ hkey]
    exact h key

end Notes

/-- The head of a handler is such as a text can spell: its position says something or there is none, its word
names an event, and only a handler of messages has a filter. -/
theorem Surface.Draft.eventHead_legible {d : Surface.Draft} (h : d.Written) (name : Option Surface.EventName)
    (parameters : Option Surface.Parameters) (span : Span) : (d.eventHead name parameters span).Legible := by
  have hmessage : (Catalog.event? Catalog.messageEvent).isSome := by decide
  unfold Surface.Draft.eventHead
  split
  · split
    · exact ⟨h.pos, ‹_›, fun hf => absurd rfl hf⟩
    · exact ⟨h.pos, hmessage, fun _ => rfl⟩
  · exact ⟨h.pos, hmessage, fun _ => rfl⟩
  · exact ⟨h.pos, hmessage, fun _ => rfl⟩

/-- One more tree. -/
theorem Surface.Draft.Written.append {d : Surface.Draft} (h : d.Written) {n : Node}
    (hn : ∀ s, Grammar.written.Item s n) : ∀ m ∈ d.body ++ [n], ∀ s, Grammar.written.Item s m := by
  intro m hm
  rcases List.mem_append.mp hm with hm | hm
  · exact h.body m hm
  · rw [List.mem_singleton.mp hm]
    exact hn

/-- One more item keeps a draft written. There is one case for each kind of item: a directive changes the notes,
a variable the declarations, and all others add a tree that takes what is noted. -/
theorem Surface.Draft.Written.add {d : Surface.Draft} (h : d.Written) {x : Surface.Item} (hx : WrittenItem x) :
    (d.add x).Written := by
  have hplaced := legibleValue_erase h.directives "pos"
  have hdeclared := legibleValue_erase hplaced "fmt"
  cases x with
  | directive name value span =>
      cases name with
      | none => exact h
      | some name =>
          show (d.direct name _).Written
          unfold Surface.Draft.direct
          split
          · exact ⟨h.directives, h.body⟩
          · split
            · rename_i hvalue
              exact ⟨legibleValue_insert h.directives name (Text.filled_eq_some_iff.mp hvalue).2, h.body⟩
            · exact ⟨legibleValue_erase h.directives name, h.body⟩
  | var isList name span => exact ⟨h.directives, h.body⟩
  -- a handler takes the position that waits for it; a format waits on for the next declaration
  | event name params body span =>
      refine ⟨hplaced, h.append fun s => ?_⟩
      exact .event (Surface.Draft.eventHead_legible h _ _ _) fun n hn => hx n hn _
  | instruction name params body span =>
      refine ⟨hdeclared, h.append fun s => ?_⟩
      exact .instructionDeclaration ⟨h.pos, h.callFormat⟩ fun n hn => hx n hn _
  | expression name params value span =>
      exact ⟨hdeclared, h.append fun s => .expressionDeclaration ⟨h.pos, h.callFormat⟩ (hx _)⟩
  | block statements span =>
      refine ⟨hplaced, h.append fun s => .detached h.pos fun n hn => ?_⟩
      rw [Surface.statementNodes_eq_map] at hn
      obtain ⟨x, hm, rfl⟩ := List.mem_map.mp hn
      exact hx x hm s

/-- **The tree of a text that is read without problems is written.** Reading is sound, so the program is derived from
the lexemes of the text; what is derived is written; and putting written items into a draft one by one keeps its body
written. -/
theorem Grammar.written_treeOfText {source : String} (h : (treeOfText source).problems = []) :
    Grammar.written.Program (treeOfText source).result := by
  obtain ⟨_, hreading⟩ := List.append_eq_nil_iff.mp h
  have hderives := derives_of_ofLexemes (Lexing.canonical_ofText source) hreading
  have hitems := hderives.written fun _ hu => Lexing.matches_ofText hu
  have hfold : ∀ (xs : List Surface.Item) (d : Surface.Draft), d.Written → (∀ x ∈ xs, WrittenItem x) →
      (xs.foldl Surface.Draft.add d).Written := by
    intro xs
    induction xs with
    | nil => exact fun d hd _ => hd
    | cons x xs ih =>
        intro d hd hxs
        exact ih _ (hd.add (hxs x List.mem_cons_self)) fun y hy => hxs y (List.mem_cons_of_mem _ hy)
  have hdraft := hfold _ {} ⟨fun _ => (Option.some_ne_none _).symm, by simp⟩ hitems
  exact .program fun n hn => hdraft.body n hn _

end FlightScript
