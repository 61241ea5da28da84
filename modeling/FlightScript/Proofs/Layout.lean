import FlightScript.Proofs.Blurring
import FlightScript.Proofs.Bytes
import FlightScript.Proofs.Derivation
import FlightScript.Proofs.Forgetting

/-!
# `Proofs.Layout` — the layout of a text is meaningless

Where the lexemes of a text stand, and what stands between them, is layout. Two texts with the same lexemes may differ
in blanks, tabs and carriage returns, and inside parentheses in line ends and comments. They have the same tree up to
metadata, since reading looks at no places, and so everything that is made from their trees is the same.

## Contents

* `Node.mapComments`: a tree with other words in its comments;
* `Surface.Program.node_blur`: the tree of a blurred program, up to its comments;
* `SameProgram`, and the main theorem `layout_is_meaningless`.
-/

namespace FlightScript

open Blurry (blur)
open Spelled (key commas mem_commas mem_commas_of_mem)

/-! ## Trees with other comments

Blurring lexemes changes the words of comments, and comments are kept in the tree. The statements below are
therefore up to a function on these words, which is the identity where only places are looked away from. -/

namespace Node

mutual

/-- The tree with something done to the words of its comments. -/
def mapComments (f : String → String) : Node → Node
  | error message loc => .error message loc
  | program name globals body loc => .program name globals (mapCommentsAll f body) loc
  | variableDeclaration d => .variableDeclaration d
  | instructionDeclaration head body => .instructionDeclaration head (mapCommentsAll f body)
  | expressionDeclaration head value => .expressionDeclaration head (mapComments f value)
  | event head body => .event head (mapCommentsAll f body)
  | detached pos body loc => .detached pos (mapCommentsAll f body) loc
  | instruction use arguments => .instruction use (mapCommentsAll f arguments)
  | assignment operator target value loc => .assignment operator (mapComments f target) (mapComments f value) loc
  | comment text loc => .comment (f text) loc
  | wait kind condition loc => .wait kind (mapComments f condition) loc
  | ifElse condition consequent alternative loc =>
    .ifElse (mapComments f condition) (mapCommentsAll f consequent) (mapCommentsAll f alternative) loc
  | whileLoop condition body loc => .whileLoop (mapComments f condition) (mapCommentsAll f body) loc
  | forLoop head first last step body =>
    .forLoop head (mapComments f first) (mapComments f last) (mapComments f step) (mapCommentsAll f body)
  | breakLoop loc => .breakLoop loc
  | repeatLoop count body loc => .repeatLoop (mapComments f count) (mapCommentsAll f body) loc
  | identifier use arguments => .identifier use (mapCommentsAll f arguments)
  | constant value loc => .constant value loc
  | binary op lhs rhs loc => .binary op (mapComments f lhs) (mapComments f rhs) loc
  | unary op operand loc => .unary op (mapComments f operand) loc
  | conditional condition consequent alternative loc =>
    .conditional (mapComments f condition) (mapComments f consequent) (mapComments f alternative) loc

def mapCommentsAll (f : String → String) : List Node → List Node
  | [] => []
  | n :: ns => mapComments f n :: mapCommentsAll f ns

end

@[simp] theorem mapCommentsAll_eq_map (f : String → String) (ns : List Node) :
    mapCommentsAll f ns = ns.map (mapComments f) := by
  induction ns with
  | nil => rfl
  | cons n ns ih => rw [mapCommentsAll, ih, List.map_cons]

end Node

/-! ## The tree of a blurred program

The tree is made from the written program by one function for each of its parts, and each of these functions
commutes with blurring if the texts it uses are kept. -/

theorem wordLexeme_ne_comment (w : List Char) : (wordLexeme w).1 ≠ .comment := by
  intro h
  have hword := isWordLike_wordToken w
  rw [show Piece.wordToken w = .comment from h] at hword
  cases hword

/-- Looking at these lexemes, only comments change, and their words become what `f` says. -/
def Blur.Keeps (b : Blur) (f : String → String) (us : List Symbol) : Prop :=
  ∀ u ∈ us, if u.1 = .comment then Surface.commentText u.2 = f (Surface.commentText (b.text u.2)) else b.text u.2 = u.2

namespace Blur.Keeps

variable {b : Blur} {f : String → String} {us vs : List Symbol}

@[simp] theorem cons {u : Symbol} : b.Keeps f (u :: us) ↔
    (if u.1 = .comment then Surface.commentText u.2 = f (Surface.commentText (b.text u.2)) else b.text u.2 = u.2) ∧
      b.Keeps f us := List.forall_mem_cons

@[simp] theorem append : b.Keeps f (us ++ vs) ↔ b.Keeps f us ∧ b.Keeps f vs := List.forall_mem_append

theorem mono (h : b.Keeps f us) (hsub : ∀ v ∈ vs, v ∈ us) : b.Keeps f vs := fun v hv => h v (hsub v hv)

theorem text_eq (h : b.Keeps f us) {t : Token} {w : String} (hu : (t, w) ∈ us) (ht : t ≠ .comment) : b.text w = w := by
  have hkept := h _ hu
  rwa [if_neg ht] at hkept

theorem of_commas {tss : List (List Symbol)} (h : b.Keeps f (commas tss)) : ∀ ts ∈ tss, b.Keeps f ts :=
  fun _ hts => h.mono fun _ hu => mem_commas_of_mem hts hu

end Blur.Keeps

namespace Surface

variable {b : Blur} {f : String → String}

theorem map_text_of_tail {ws : List String} (h : b.Keeps f (tailLexemes (ws.map String.toList))) :
    ws.map b.text = ws := by
  conv_rhs => rw [← List.map_id ws]
  refine List.map_congr_left fun w hw => ?_
  refine h.text_eq (t := Piece.wordToken w.toList) ?_ (wordLexeme_ne_comment w.toList)
  simp only [tailLexemes, List.mem_flatMap, List.mem_map]
  exact ⟨w.toList, ⟨w, hw, rfl⟩, by simp [wordLexeme]⟩

/-- A name whose lexemes are kept is not changed by blurring. -/
theorem Name.blur_eq {n : Name} (h : b.Keeps f n.lexemes) : blur b n = n := by
  cases n with
  | words d =>
      obtain ⟨first, more⟩ := d
      have hfirst : b.text first = first := h.text_eq List.mem_cons_self (by simp)
      have hmore := map_text_of_tail (h.mono fun _ hu => List.mem_cons_of_mem _ hu)
      show Name.words ⟨b.text first, more.map b.text⟩ = _
      rw [hfirst, hmore]
  | quoted literal =>
      have hliteral : b.text literal = literal := h.text_eq List.mem_cons_self (by simp)
      show Name.quoted (b.text literal) = _
      rw [hliteral]

/-- The same for a name behind a qualifier, the first word of which may be a keyword. -/
theorem Name.blur_eq_of_member {n : Name} (h : b.Keeps f n.memberLexemes) : blur b n = n := by
  cases n with
  | words d =>
      obtain ⟨first, more⟩ := d
      have hfirst : b.text first = first := by
        refine h.text_eq (t := Piece.wordToken first.toList) ?_ (wordLexeme_ne_comment first.toList)
        simp [Name.memberLexemes, wordLexeme]
      have hmore := map_text_of_tail (h.mono fun _ hu => List.mem_cons_of_mem _ hu)
      show Name.words ⟨b.text first, more.map b.text⟩ = _
      rw [hfirst, hmore]
  | quoted literal => exact Name.blur_eq h

/-- The name of something declared is not changed by blurring, and neither is the empty one that stands for none.
-/
theorem declaredName_blur {d : Option DeclName} (h : b.Keeps f ((d.map fun d => d.name.lexemes).getD [])) :
    declaredName (blur b d) = declaredName d := by
  cases d with
  | none => rfl
  | some d => exact congrArg Name.value (Name.blur_eq h)

/-- The names of parameters are not changed by blurring; their places are not part of them. -/
theorem parameterNames_blur {ps : Option Parameters} (h : b.Keeps f (parameterLexemes ps)) :
    parameterNames (blur b ps) = parameterNames ps := by
  cases ps with
  | none => rfl
  | some ps =>
      have hnames : b.Keeps f (commas (ps.names.map fun d => d.name.lexemes)) := by
        refine h.mono fun u hu => ?_
        simp [parameterLexemes, Parameters.lexemes, hu]
      show (ps.names.map (blur b)).map (fun d => d.name.value) = ps.names.map fun d => d.name.value
      rw [List.map_map]
      refine List.map_congr_left fun d hd => ?_
      exact congrArg Name.value (Name.blur_eq (hnames.of_commas _ (List.mem_map_of_mem hd)))

namespace Reference

theorem value_blur {r : Reference} (h : b.Keeps f r.lexemes) : (blur b r).value = r.value := by
  obtain ⟨_ | q, _ | n, span⟩ := r
  · rfl
  · exact congrArg Name.value (Name.blur_eq h)
  · rfl
  · have hmember : b.Keeps f n.memberLexemes := h.mono fun u hu => by simp [Reference.lexemes, hu]
    exact congrArg Name.value (Name.blur_eq_of_member hmember)

/-- A use of a name has its places as metadata. -/
theorem identifierUse_blur {r : Reference} (h : b.Keeps f r.lexemes) (span : Span) :
    ((blur b r).identifierUse (blur b span)).clearMetadata = (r.identifierUse span).clearMetadata := by
  simp only [identifierUse, Use.clearMetadata, value_blur h]
  rfl

theorem instructionUse_blur {r : Reference} (h : b.Keeps f r.lexemes) (span : Span) :
    ((blur b r).instructionUse (blur b span)).clearMetadata = (r.instructionUse span).clearMetadata := by
  simp only [instructionUse, Use.clearMetadata, value_blur h]
  rfl

end Reference

/-- The constant of a literal is made from its text, which is kept. -/
theorem Literal.constant_blur {l : Literal} (h : b.Keeps f l.lexemes) : (blur b l).constant = l.constant := by
  cases l with
  | number negative digits =>
      have hdigits : b.text digits = digits := by
        refine h.text_eq (t := .number) ?_ (by simp)
        cases negative <;> simp [Literal.lexemes]
      show (Literal.number negative (b.text digits)).constant = _
      rw [hdigits]
  | string literal =>
      have hliteral : b.text literal = literal := h.text_eq List.mem_cons_self (by simp)
      show (Literal.string (b.text literal)).constant = _
      rw [hliteral]
  | bool value => rfl

section Nodes

attribute [local simp] Expression.node Expression.blurred Node.clearMetadata Node.mapComments

mutual

/-- The tree of a blurred expression; there are no comments in it. -/
theorem Expression.node_blur : (e : Expression) → b.Keeps f e.lexemes →
    e.node.clearMetadata = ((e.blurred b).node.clearMetadata).mapComments f
  | missing, _ => rfl
  | literal value _, h => by
      rw [Expression.lexemes] at h
      simp [Literal.constant_blur h]
  | name reference _, h => by
      rw [Expression.lexemes] at h
      simp [Reference.identifierUse_blur h]
  | call reference arguments _, h => by
      simp only [Expression.lexemes, Expression.lexemesEach_eq_map, Blur.Keeps.append, Blur.Keeps.cons] at h
      obtain ⟨⟨hr, _, hitems⟩, _⟩ := h
      simp [Reference.identifierUse_blur hr, Expression.nodes_blur arguments hitems.of_commas, -List.map_map]
  | group inner _, h => by
      simp only [Expression.lexemes, Blur.Keeps.append, Blur.Keeps.cons] at h
      simpa using Expression.node_blur inner h.1.2
  | binary _ lhs rhs _, h => by
      simp only [Expression.lexemes, Blur.Keeps.append, Blur.Keeps.cons] at h
      simp [Expression.node_blur lhs h.1, Expression.node_blur rhs h.2.2]
  | not operand _, h => by
      simp only [Expression.lexemes, Blur.Keeps.cons] at h
      simp [Expression.node_blur operand h.2]
  | conditional condition consequent alternative _, h => by
      simp only [Expression.lexemes, Blur.Keeps.append, Blur.Keeps.cons] at h
      simp [Expression.node_blur condition h.1.1.2, Expression.node_blur consequent h.1.2.2,
        Expression.node_blur alternative h.2.2]

/-- The trees of several expressions are blurred one by one. -/
theorem Expression.nodes_blur : (es : List Expression) → (∀ us ∈ es.map Expression.lexemes, b.Keeps f us) →
    (es.map Expression.node).map Node.clearMetadata =
      (((es.map (Expression.blurred b)).map Expression.node).map Node.clearMetadata).map (Node.mapComments f)
  | [], _ => rfl
  | e :: es, h => by
      obtain ⟨he, hes⟩ := List.forall_mem_cons.mp h
      simp only [List.map_cons, ← Expression.node_blur e he, ← Expression.nodes_blur es hes]

end

theorem Expression.nodeOr_blur (default : String) {e : Expression} (h : b.Keeps f e.lexemes) :
    (e.nodeOr default).clearMetadata = (((e.blurred b).nodeOr default).clearMetadata).mapComments f := by
  cases e with
  | missing => rfl
  | _ => exact Expression.node_blur _ h

/-- The arguments of an instruction, in parentheses or not. -/
theorem Arguments.nodes_blur {as : Arguments} (h : b.Keeps f as.lexemes) :
    as.nodes.map Node.clearMetadata = ((blur b as).nodes.map Node.clearMetadata).map (Node.mapComments f) := by
  cases as with
  | none => rfl
  | list items =>
      simp only [Arguments.lexemes, Blur.Keeps.append, Blur.Keeps.cons] at h
      show (Expression.nodes items).map Node.clearMetadata =
        ((Expression.nodes (items.map (Expression.blurred b))).map Node.clearMetadata).map (Node.mapComments f)
      rw [Expression.nodes_eq_map, Expression.nodes_eq_map]
      exact Expression.nodes_blur items h.1.2.of_commas
  | single item => exact congrArg (fun n => [n]) (Expression.node_blur item h)

theorem Target.node_blur {t : Target} (h : b.Keeps f t.lexemes) :
    t.node.clearMetadata = ((blur b t).node.clearMetadata).mapComments f := by
  cases t with
  | reference r =>
      show Node.identifier (r.identifierUse r.span).clearMetadata [] =
        .identifier ((blur b r).identifierUse (blur b r.span)).clearMetadata []
      rw [Reference.identifierUse_blur h]
  | group inner =>
      simp only [Target.lexemes, Blur.Keeps.append, Blur.Keeps.cons] at h
      exact Expression.node_blur inner h.1.2

theorem keeps_of_stepLexemes {e : Expression} (h : b.Keeps f (stepLexemes e)) : b.Keeps f e.lexemes := by
  cases e with
  | missing => exact h
  | _ => exact (Blur.Keeps.cons.mp h).2

theorem Expression.blur_eq (e : Expression) : blur b e = e.blurred b := rfl

attribute [local simp] Statement.node Statement.blurred Block.nodes Block.blurred Alternative.nodes Alternative.blurred
  Expression.blur_eq

mutual

/-- The tree of a blurred statement, up to its comments. -/
theorem Statement.node_blur : (s : Statement) → b.Keeps f s.lexemes →
    s.node.clearMetadata = ((s.blurred b).node.clearMetadata).mapComments f
  | .comment text _, h => by
      simp only [Statement.lexemes, Blur.Keeps.cons, if_true] at h
      simp only [Statement.node, Statement.blurred, Node.clearMetadata, Node.mapComments]
      exact congrArg (Node.comment · none) h.1
  | .ifElse condition consequent alternative _, h => by
      simp only [Statement.lexemes, Blur.Keeps.append, Blur.Keeps.cons] at h
      obtain ⟨⟨⟨_, hcondition⟩, hconsequent⟩, halternative⟩ := h
      simp [Expression.node_blur condition hcondition, Block.nodes_blur consequent hconsequent,
        Alternative.nodes_blur alternative halternative, -List.map_map]
  | .whileLoop condition body _, h => by
      simp only [Statement.lexemes, Blur.Keeps.append, Blur.Keeps.cons] at h
      simp [Expression.node_blur condition h.1.2, Block.nodes_blur body h.2, -List.map_map]
  | .repeatLoop count body _, h => by
      simp only [Statement.lexemes, Blur.Keeps.append, Blur.Keeps.cons] at h
      simp [Expression.node_blur count h.1.2, Block.nodes_blur body h.2, -List.map_map]
  | .forLoop var first last step body _, h => by
      simp only [Statement.lexemes, Blur.Keeps.append, Blur.Keeps.cons] at h
      obtain ⟨⟨⟨⟨⟨_, hvar⟩, _, hfirst⟩, _, hlast⟩, hstep⟩, hbody⟩ := h
      simp [declaredName_blur hvar, Expression.node_blur first hfirst, Expression.node_blur last hlast,
        Expression.nodeOr_blur "1" (keeps_of_stepLexemes hstep), Block.nodes_blur body hbody, ForHead.clearMetadata,
        -List.map_map]
  | .breakLoop _, _ => rfl
  | .wait isUntil condition _, h => by
      simp only [Statement.lexemes, Blur.Keeps.append, Blur.Keeps.cons] at h
      simp [Expression.nodeOr_blur "0" h.2]
  | .assign target operator value _, h => by
      simp only [Statement.lexemes, Blur.Keeps.append, Blur.Keeps.cons] at h
      simp [Target.node_blur h.1, Expression.node_blur value h.2.2]
  | .instruction reference arguments _, h => by
      simp only [Statement.lexemes, Blur.Keeps.append] at h
      simp [Reference.instructionUse_blur h.1, Arguments.nodes_blur h.2, -List.map_map]

theorem Block.nodes_blur : (k : Block) → b.Keeps f k.lexemes →
    k.nodes.map Node.clearMetadata = ((k.blurred b).nodes.map Node.clearMetadata).map (Node.mapComments f)
  | .missing, _ => rfl
  | .braces statements _, h => by
      simp only [Block.lexemes, Blur.Keeps.append, Blur.Keeps.cons] at h
      simpa [-List.map_map] using Statement.nodes_blur statements h.1.2

/-- What stands behind `else`, which may be a further condition. -/
theorem Alternative.nodes_blur : (a : Alternative) → b.Keeps f a.lexemes →
    a.nodes.map Node.clearMetadata = ((a.blurred b).nodes.map Node.clearMetadata).map (Node.mapComments f)
  | .none, _ => rfl
  | .elseIf condition consequent alternative _, h => by
      simp only [Alternative.lexemes, Blur.Keeps.append, Blur.Keeps.cons] at h
      obtain ⟨⟨⟨_, _, hcondition⟩, hconsequent⟩, halternative⟩ := h
      simp [Expression.node_blur condition hcondition, Block.nodes_blur consequent hconsequent,
        Alternative.nodes_blur alternative halternative, -List.map_map]
  | .otherwise body, h => by
      simp only [Alternative.lexemes, Blur.Keeps.cons] at h
      exact Block.nodes_blur body h.2

theorem Statement.nodes_blur : (ss : List Statement) → b.Keeps f (Statement.lexemesAll ss) →
    (ss.map Statement.node).map Node.clearMetadata =
      (((ss.map (Statement.blurred b)).map Statement.node).map Node.clearMetadata).map (Node.mapComments f)
  | [], _ => rfl
  | s :: ss, h => by
      simp only [Statement.lexemesAll, Blur.Keeps.append] at h
      simp only [List.map_cons, ← Statement.node_blur s h.1, ← Statement.nodes_blur ss h.2]

end

end Nodes

/-! ### Items

A program is drafted item by item, so the induction is over the items, with two drafts that differ in nothing
that matters. -/

/-- Two drafts that differ in metadata and in the words of comments. -/
structure Draft.Differ (f : String → String) (d e : Draft) : Prop where
  name : d.name = e.name
  directives : d.directives = e.directives
  globals : d.globals.map VariableDeclaration.clearMetadata = e.globals.map VariableDeclaration.clearMetadata
  body : d.body.map Node.clearMetadata = (e.body.map Node.clearMetadata).map (Node.mapComments f)

namespace Draft.Differ

variable {d e : Draft}

theorem place (h : d.Differ f e) {m n : Node} (hn : m.clearMetadata = n.clearMetadata.mapComments f) :
    (d.place m).Differ f (e.place n) where
  name := h.name
  directives := by rw [Draft.place, Draft.place, h.directives]
  globals := h.globals
  body := by simp [Draft.place, h.body, hn, -List.map_map]

theorem declare (h : d.Differ f e) {m n : Node} (hn : m.clearMetadata = n.clearMetadata.mapComments f) :
    (d.declare m).Differ f (e.declare n) where
  name := h.name
  directives := by rw [Draft.declare, Draft.declare, h.directives]
  globals := h.globals
  body := by simp [Draft.declare, h.body, hn, -List.map_map]

theorem direct (h : d.Differ f e) (name : String) (value : Option String) :
    (d.direct name value).Differ f (e.direct name value) := by
  unfold Draft.direct
  repeat' split
  · exact ⟨rfl, h.directives, h.globals, h.body⟩
  · exact ⟨h.name, by rw [h.directives], h.globals, h.body⟩
  · exact ⟨h.name, by rw [h.directives], h.globals, h.body⟩

theorem pos (h : d.Differ f e) : d.pos = e.pos := by rw [Draft.pos, Draft.pos, h.directives]

theorem callFormat (h : d.Differ f e) : d.callFormat = e.callFormat := by
  rw [Draft.callFormat, Draft.callFormat, h.directives]

theorem head (h : d.Differ f e) {name : Option DeclName} {parameters : Option Parameters}
    (hname : b.Keeps f ((name.map fun d => d.name.lexemes).getD [])) (hparameters : b.Keeps f (parameterLexemes parameters))
    (span : Span) : (d.head name parameters span).clearMetadata =
      (e.head (blur b name) (blur b parameters) (blur b span)).clearMetadata := by
  simp only [Draft.head, DeclarationHead.clearMetadata, h.pos, h.callFormat, declaredName_blur hname,
    parameterNames_blur hparameters]

/-- The heads of a handler in both drafts agree up to metadata. Whether a word names an event is asked of the
word itself, which is kept. -/
theorem eventHead (h : d.Differ f e) {name : Option EventName} {parameters : Option Parameters}
    (hname : b.Keeps f (name.map EventName.lexeme).toList) (hparameters : b.Keeps f (parameterLexemes parameters))
    (span : Span) : (d.eventHead name parameters span).clearMetadata =
      (e.eventHead (blur b name) (blur b parameters) (blur b span)).clearMetadata := by
  have hblur : blur b name = name := by
    rcases name with _ | ⟨text⟩ | ⟨literal⟩
    · rfl
    · have htext : b.text text = text := hname.text_eq List.mem_cons_self (by simp)
      show some (EventName.word (b.text text)) = _
      rw [htext]
    · have hliteral : b.text literal = literal := hname.text_eq List.mem_cons_self (by simp)
      show some (EventName.message (b.text literal)) = _
      rw [hliteral]
  rw [hblur]
  unfold Draft.eventHead
  simp only [h.pos, parameterNames_blur hparameters]
  repeat' split
  all_goals rfl

/-- One more item. -/
theorem add (h : d.Differ f e) {x : Item} (hx : b.Keeps f x.lexemes) : (d.add x).Differ f (e.add (blur b x)) := by
  cases x with
  | directive name value span =>
      simp only [Item.lexemes, Blur.Keeps.append, Blur.Keeps.cons] at hx
      obtain ⟨⟨_, hname⟩, hvalue⟩ := hx
      cases name with
      | none => exact h
      | some name =>
          have hname : b.text name = name := by
            refine hname.text_eq (t := Piece.wordToken name.toList) ?_ (wordLexeme_ne_comment name.toList)
            simp [wordLexeme]
          have hvalue : blur b value = value := by
            cases value with
            | none => rfl
            | some value => exact congrArg some (hvalue.text_eq (t := .string) (by simp) (by simp))
          show (d.direct name (value.map Text.Quoted.value)).Differ f
            (e.direct (b.text name) ((blur b value).map Text.Quoted.value))
          rw [hname, hvalue]
          exact h.direct name _
  | var isList name span =>
      simp only [Item.lexemes, Blur.Keeps.cons] at hx
      refine ⟨h.name, h.directives, ?_, h.body⟩
      show (d.globals ++ [_]).map _ = (e.globals ++ [(⟨declaredName (blur b name), _, _, _⟩ : VariableDeclaration)]).map _
      simp only [List.map_append, h.globals, declaredName_blur hx.2, List.map_cons, VariableDeclaration.clearMetadata]
  | event name parameters body span =>
      simp only [Item.lexemes, Blur.Keeps.append, Blur.Keeps.cons] at hx
      obtain ⟨⟨⟨_, hname⟩, hparameters⟩, hbody⟩ := hx
      apply h.place
      simp only [Node.clearMetadata, Node.mapComments, Node.clearMetadataAll_eq_map, Node.mapCommentsAll_eq_map,
        h.eventHead hname hparameters, Block.nodes_blur body hbody]
      rfl
  | instruction name parameters body span =>
      simp only [Item.lexemes, Blur.Keeps.append, Blur.Keeps.cons] at hx
      obtain ⟨⟨⟨_, hname⟩, hparameters⟩, hbody⟩ := hx
      apply h.declare
      simp only [Node.clearMetadata, Node.mapComments, Node.clearMetadataAll_eq_map, Node.mapCommentsAll_eq_map,
        h.head hname hparameters, Block.nodes_blur body hbody]
      rfl
  | expression name parameters value span =>
      simp only [Item.lexemes, Blur.Keeps.append, Blur.Keeps.cons] at hx
      obtain ⟨⟨⟨_, _, hname⟩, hparameters⟩, _, hvalue⟩ := hx
      apply h.declare
      simp only [Node.clearMetadata, Node.mapComments, h.head hname hparameters, Expression.node_blur value hvalue]
      rfl
  | block statements span =>
      simp only [Item.lexemes, Blur.Keeps.append, Blur.Keeps.cons] at hx
      show (d.place _).Differ f (e.place (.detached e.pos (statementNodes (statements.map _)) _))
      apply h.place
      simp only [Node.clearMetadata, Node.mapComments, Node.clearMetadataAll_eq_map, Node.mapCommentsAll_eq_map,
        statementNodes_eq_map, Statement.nodes_blur statements hx.1.2, h.pos]
      rfl

end Draft.Differ

/-- **The tree of a blurred program** is the tree of the program, up to metadata and the words of comments. -/
theorem Program.node_blur {p : Program} (h : b.Keeps f p.lexemes) :
    p.node.clearMetadata = ((blur b p).node.clearMetadata).mapComments f := by
  have hitems : ∀ (xs : List Item) (d e : Draft), d.Differ f e → b.Keeps f (xs.flatMap Item.lexemes) →
      (xs.foldl Draft.add d).Differ f ((blur b xs).foldl Draft.add e) := by
    intro xs
    induction xs with
    | nil =>
        intro d e hdiffer _
        exact hdiffer
    | cons x xs ih =>
        intro d e hdiffer hkeeps
        rw [List.flatMap_cons, Blur.Keeps.append] at hkeeps
        exact ih _ _ (hdiffer.add hkeeps.1) hkeeps.2
  have hdraft := hitems p.items {} {} ⟨rfl, rfl, rfl, rfl⟩ h
  show (Node.program _ _ _ _).clearMetadata = (Node.program _ _ _ _).clearMetadata.mapComments f
  simp only [Node.clearMetadata, Node.mapComments, Node.clearMetadataAll_eq_map, Node.mapCommentsAll_eq_map]
  rw [hdraft.name, hdraft.globals, hdraft.body]
  rfl

end Surface

/-! ## Texts with the same lexemes

What comes out of a text is a function of its tree and its problems, and these do not depend on places. So it is
enough to compare the readings. -/

/-- Looks away from places only. -/
def Blur.places : Blur := ⟨id, id, fun _ _ => rfl⟩

theorem Blur.keeps_places (us : List Symbol) : places.Keeps id us := by
  intro u _
  split <;> rfl

/-- Blurred lexemes have no places. -/
theorem Lexeme.blur_eq (b : Blur) (ls : List Lexeme) :
    blur b ls = (ls.map Lexeme.bare).map fun u => ⟨u.1, b.text u.2, .synthetic⟩ := by
  rw [List.map_map]
  rfl

/-- Lexemes that agree up to what a blur looks away from are read alike. -/
theorem Surface.Program.blurs_ofLexemes {b : Blur} {ts us : List Lexeme} (h : blur b ts = blur b us) :
    blur b (ofLexemes ts).value = blur b (ofLexemes us).value ∧
      (ofLexemes ts).problems.map b.said = (ofLexemes us).problems.map b.said := by
  have hcursor : blur b (Cursor.ofLexemes ts) = blur b (Cursor.ofLexemes us) :=
    congrArg (fun rest => (⟨rest, .origin, .origin⟩ : Cursor)) h
  have hts := InStep.program.follows (b := b) (Cursor.ofLexemes ts)
  have hus := InStep.program.follows (b := b) (Cursor.ofLexemes us)
  rw [hcursor] at hts
  exact ⟨hts.value.symm.trans hus.value, hts.problems.symm.trans hus.problems⟩

namespace Node

variable {m n : Node}

/-- What is made from trees that differ in metadata only. -/
theorem resolved_congr (h : m.clearMetadata = n.clearMetadata) :
    m.resolved.clearMetadata = n.resolved.clearMetadata := by
  rw [← resolved_clearMetadata, h, resolved_clearMetadata]

theorem problems_congr (h : m.clearMetadata = n.clearMetadata) :
    m.problems.map Problem.bare = n.problems.map Problem.bare := by
  rw [← problems_clearMetadata, h, problems_clearMetadata]

theorem text_congr (h : m.clearMetadata = n.clearMetadata) : m.text = n.text := by
  rw [← text_clearMetadata, h, text_clearMetadata]

theorem documentText_congr (h : m.clearMetadata = n.clearMetadata) : SameResult m.documentText n.documentText := by
  apply SameResult.of_mapError
  have hdocument : m.document.mapError Failure.placeless = n.document.mapError Failure.placeless := by
    rw [← document_clearMetadata, h, document_clearMetadata]
  simp only [documentText, mapError_bind, hdocument]

end Node

/-- Two texts have the same tree up to metadata, problems of the same levels with the same messages, the same canonical
form, and the same document or failures of the same code with the same message. -/
structure SameProgram (s t : String) : Prop where
  tree : (resolvedTreeOfText s).result.clearMetadata = (resolvedTreeOfText t).result.clearMetadata
  problems : (resolvedTreeOfText s).problems.map Problem.bare = (resolvedTreeOfText t).problems.map Problem.bare
  text : (formatText s).result = (formatText t).result
  document : SameResult (documentOfText s).result (documentOfText t).result

/-- Everything that is asked of two texts follows from their trees and their problems. -/
theorem SameProgram.of_tree {s t : String}
    (htree : (treeOfText s).result.clearMetadata = (treeOfText t).result.clearMetadata)
    (hproblems : (treeOfText s).problems.map Problem.bare = (treeOfText t).problems.map Problem.bare) :
    SameProgram s t := by
  have hresolved := Node.resolved_congr htree
  constructor
  · exact hresolved
  · show ((treeOfText s).problems ++ _).map Problem.bare = ((treeOfText t).problems ++ _).map Problem.bare
    rw [List.map_append, List.map_append, hproblems, Node.problems_congr htree]
  · exact Node.text_congr hresolved
  · exact Node.documentText_congr hresolved

/-- **Layout is meaningless.** Texts that are cut without problems into lexemes of the same classes with the same
texts are the same program. Looking away from places, the two texts have the same lexemes, so the readings of both
give the same; and what is made of a tree does not depend on the places in it. -/
theorem layout_is_meaningless (s t : String) (hs : (Lexing.ofText s).problems = []) (ht : (Lexing.ofText t).problems = [])
    (h : (Lexing.ofText s).lexemes.map Lexeme.bare = (Lexing.ofText t).lexemes.map Lexeme.bare) : SameProgram s t := by
  have hblur : blur Blur.places (Lexing.ofText s).lexemes = blur Blur.places (Lexing.ofText t).lexemes := by
    rw [Lexeme.blur_eq, Lexeme.blur_eq, h]
  obtain ⟨hvalue, hproblems⟩ := Surface.Program.blurs_ofLexemes hblur
  apply SameProgram.of_tree
  · show (Surface.Program.ofLexemes _).value.node.clearMetadata = (Surface.Program.ofLexemes _).value.node.clearMetadata
    rw [Surface.Program.node_blur (Blur.keeps_places _), hvalue, ← Surface.Program.node_blur (Blur.keeps_places _)]
  · show ((Lexing.ofText s).problems ++ _).map Problem.bare = ((Lexing.ofText t).problems ++ _).map Problem.bare
    rw [hs, ht]
    exact hproblems

/-- A call over several lines, with a comment between its arguments, tabs and carriage returns, in a text with problems:
there is no instruction of this name, and something is left over at the end of its line. -/
theorem layout_of_call :
    let s := "#program \"p\"\nvar n\n\x7b\n  Launch(n, 2)\n  n = 1 2\n\x7d\n"
    let t := "#program\t\"p\"\r\nvar   n\n\x7b \n Launch ( n ,\n\r\n // both\n 2\n\t)\n n=1\t2 \r\n\x7d\r\n"
    (Lexing.ofText s).problems = [] ∧ (Lexing.ofText t).problems = [] ∧
      (Lexing.ofText s).lexemes.map Lexeme.bare = (Lexing.ofText t).lexemes.map Lexeme.bare ∧
      (resolvedTreeOfText s).problems ≠ [] ∧ SameProgram s t := by
  intro s t
  have hs : (Lexing.ofText s).problems = [] := by
    rw [Lexing.ofText_eq_chars]
    decide +kernel
  have ht : (Lexing.ofText t).problems = [] := by
    rw [Lexing.ofText_eq_chars]
    decide +kernel
  have h : (Lexing.ofText s).lexemes.map Lexeme.bare = (Lexing.ofText t).lexemes.map Lexeme.bare := by
    rw [Lexing.ofText_eq_chars, Lexing.ofText_eq_chars]
    decide +kernel
  have hproblems : (resolvedTreeOfText s).problems ≠ [] := by
    rw [resolvedTreeOfText, treeOfText_eq_chars]
    decide +kernel
  exact ⟨hs, ht, h, hproblems, layout_is_meaningless s t hs ht h⟩

end FlightScript
