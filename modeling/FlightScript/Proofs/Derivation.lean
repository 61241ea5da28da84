import FlightScript.Proofs.Expressions

/-!
# `Proofs.Derivation` — the grammar of the text language

The grammar as rules for building written trees from lexemes, one rule for each way of writing something. It knows
nothing of how a text is read. Expressions are stratified by how loosely their operators bind: 10 is `or`, 9 `and`,
8 `not`, 7 comparisons, 6 sums, 5 products, 3 powers and 2 what no operator stands beside; a tree of one stratum is
also one of every looser stratum.

A tree keeps all of its lexemes but for the layout: line ends, comments between the items of a program, and the
word `then` that may stand before the block of a condition. `essential` leaves the same lexemes out by looking at
the lexemes alone.

## Contents

* `lexemes`: the lexemes that a name, an expression, a statement, an item, a program keeps;
* `Expression.Derives`, `Phrase.Derives`, `Item.Derives`, `Program.Derives`: the grammar;
* `essential`: lexemes without layout;
* `Program.Derives.lexemes_eq`: a tree keeps the essential lexemes of what it is derived from.
-/

namespace FlightScript

open Spelled (key commas)

/-- The lexeme of an operator. -/
def Operator.lexeme (o : Operator) : Symbol := (o.token, o.spelling)

/-- The lexeme of an assignment. -/
def AssignOperator.lexeme (o : AssignOperator) : Symbol := (o.token, o.text)

namespace Surface

/-! ## The lexemes of a tree

A tree is read off its lexemes; here the lexemes are read off the tree. -/

def EventName.lexeme : EventName → Symbol
  | word text => (.word, text)
  | message literal => (.string, literal)

def Literal.lexemes : Literal → List Symbol
  | number negative digits => if negative then [(.minus, "-"), (.number, digits)] else [(.number, digits)]
  | string literal => [(.string, literal)]
  | bool value => [key (if value then .true_ else .false_)]

mutual

def Expression.lexemes : Expression → List Symbol
  | missing => []
  | literal value _ => value.lexemes
  | name reference _ => reference.lexemes
  | call reference arguments _ =>
    reference.lexemes ++ (.leftParen, "(") :: commas (Expression.lexemesEach arguments) ++ [(.rightParen, ")")]
  | group inner _ => (.leftParen, "(") :: inner.lexemes ++ [(.rightParen, ")")]
  | binary operator lhs rhs _ => lhs.lexemes ++ operator.lexeme :: rhs.lexemes
  | not operand _ => key .not :: operand.lexemes
  | conditional condition consequent alternative _ =>
    key .if_ :: condition.lexemes ++ key .then_ :: consequent.lexemes ++ key .else_ :: alternative.lexemes

def Expression.lexemesEach : List Expression → List (List Symbol)
  | [] => []
  | e :: es => e.lexemes :: Expression.lexemesEach es

end

@[simp] theorem Expression.lexemesEach_eq_map (es : List Expression) :
    Expression.lexemesEach es = es.map Expression.lexemes := by
  induction es with
  | nil => rfl
  | cons e es ih => rw [Expression.lexemesEach, ih, List.map_cons]

def Target.lexemes : Target → List Symbol
  | reference r => r.lexemes
  | group inner => (.leftParen, "(") :: inner.lexemes ++ [(.rightParen, ")")]

def Arguments.lexemes : Arguments → List Symbol
  | none => []
  | list items => (.leftParen, "(") :: commas (items.map Expression.lexemes) ++ [(.rightParen, ")")]
  | single item => item.lexemes

/-- The step of a counting loop, behind its word. -/
def stepLexemes : Expression → List Symbol
  | .missing => []
  | step => key .step :: step.lexemes

mutual

def Statement.lexemes : Statement → List Symbol
  | .comment text _ => [(.comment, text)]
  | .ifElse condition consequent alternative _ =>
    key .if_ :: condition.lexemes ++ consequent.lexemes ++ alternative.lexemes
  | .whileLoop condition body _ => key .while_ :: condition.lexemes ++ body.lexemes
  | .repeatLoop count body _ => key .repeat_ :: count.lexemes ++ body.lexemes
  | .forLoop var first last step body _ =>
    key .for_ :: (var.map fun d => d.name.lexemes).getD [] ++ (.assign, "=") :: first.lexemes ++
      key .to_ :: last.lexemes ++ stepLexemes step ++ body.lexemes
  | .breakLoop _ => [key .break_]
  | .wait isUntil condition _ => key .wait :: (if isUntil then [key .until_] else []) ++ condition.lexemes
  | .assign target operator value _ => target.lexemes ++ operator.lexeme :: value.lexemes
  | .instruction reference arguments _ => reference.lexemes ++ arguments.lexemes

def Block.lexemes : Block → List Symbol
  | .missing => []
  | .braces statements _ =>
    (.leftBrace, "\x7b") :: Statement.lexemesAll statements ++ [(.rightBrace, "\x7d")]

def Alternative.lexemes : Alternative → List Symbol
  | .none => []
  | .elseIf condition consequent alternative _ =>
    key .else_ :: key .if_ :: condition.lexemes ++ consequent.lexemes ++ alternative.lexemes
  | .otherwise body => key .else_ :: body.lexemes

def Statement.lexemesAll : List Statement → List Symbol
  | [] => []
  | s :: ss => s.lexemes ++ Statement.lexemesAll ss

end

def Item.lexemes : Item → List Symbol
  | directive name value _ =>
    (.hash, "#") :: (name.map fun w => wordLexeme w.toList).toList ++ (value.map fun v => (.string, v)).toList
  | var isList name _ =>
    key (if isList then .list else .var) :: (name.map fun d => d.name.lexemes).getD []
  | event name parameters body _ =>
    key .on :: (name.map EventName.lexeme).toList ++ parameterLexemes parameters ++ body.lexemes
  | instruction name parameters body _ =>
    key .def_ :: (name.map fun d => d.name.lexemes).getD [] ++ parameterLexemes parameters ++ body.lexemes
  | expression name parameters value _ =>
    key .def_ :: key .expression :: (name.map fun d => d.name.lexemes).getD [] ++ parameterLexemes parameters ++
      (.colon, ":") :: value.lexemes
  | block statements _ =>
    (.leftBrace, "\x7b") :: Statement.lexemesAll statements ++ [(.rightBrace, "\x7d")]

def Program.lexemes (p : Program) : List Symbol := p.items.flatMap Item.lexemes

/-! ## The grammar

One constructor for each way of writing something. The relations are between trees and lexemes, so that a text
may have several derivations. -/

/-- Lexemes make up an expression of a stratum. A list of arguments is given with the lexemes of each. -/
inductive Expression.Derives : Nat → Expression → List Symbol → Prop where
  | literal {value : Literal} {span : Span} : Derives 2 (.literal value span) value.lexemes
  | name {r : Reference} {span : Span} : r.IsWhole → Derives 2 (.name r span) r.lexemes
  | call {r : Reference} {arguments : List (Expression × List Symbol)} {span : Span} :
      r.IsWhole → (∀ a ∈ arguments, Derives 10 a.1 a.2) →
      Derives 2 (.call r (arguments.map Prod.fst) span)
        (r.lexemes ++ (.leftParen, "(") :: commas (arguments.map Prod.snd) ++ [(.rightParen, ")")])
  | group {inner : Expression} {ts : List Symbol} {span : Span} :
      Derives 10 inner ts →
      Derives 2 (.group inner span) ((.leftParen, "(") :: ts ++ [(.rightParen, ")")])
  | conditional {c t e : Expression} {cs ts es : List Symbol} {span : Span} :
      Derives 10 c cs → Derives 10 t ts → Derives 10 e es →
      Derives 2 (.conditional c t e span) (key .if_ :: cs ++ key .then_ :: ts ++ key .else_ :: es)
  | power {lhs rhs : Expression} {ls rs : List Symbol} {span : Span} :
      Derives 2 lhs ls → Derives 3 rhs rs →
      Derives 3 (.binary .power lhs rhs span) (ls ++ Operator.power.lexeme :: rs)
  | binary {o : Operator} {lhs rhs : Expression} {ls rs : List Symbol} {span : Span} :
      o ≠ .power → Derives o.precedence lhs ls → Derives (o.precedence - 1) rhs rs →
      Derives o.precedence (.binary o lhs rhs span) (ls ++ o.lexeme :: rs)
  | not {operand : Expression} {ts : List Symbol} {span : Span} :
      Derives 8 operand ts → Derives 8 (.not operand span) (key .not :: ts)
  | looser {j k : Nat} {e : Expression} {ts : List Symbol} :
      j ≤ k → Derives j e ts → Derives k e ts

/-- What an assignment may begin with. -/
inductive Target.Derives : Target → List Symbol → Prop where
  | reference {r : Reference} : r.IsWhole → Derives (.reference r) r.lexemes
  | group {inner : Expression} {ts : List Symbol} :
      inner.Derives 10 ts → Derives (.group inner) ((.leftParen, "(") :: ts ++ [(.rightParen, ")")])

/-- What may follow the name of an instruction. -/
inductive Arguments.Derives : Arguments → List Symbol → Prop where
  | none : Derives .none []
  | list {items : List (Expression × List Symbol)} :
      (∀ a ∈ items, a.1.Derives 10 a.2) →
      Derives (.list (items.map Prod.fst))
        ((.leftParen, "(") :: commas (items.map Prod.snd) ++ [(.rightParen, ")")])
  | single {item : Expression} {ts : List Symbol} : item.Derives 10 ts → Derives (.single item) ts

/-- Line ends that may stand before a brace or before `else`. -/
def newlines (n : Nat) : List Symbol := List.replicate n (.newline, "\n")

/-- The parts of statements and blocks that hold others. -/
inductive Phrase where
  | statement (s : Statement)
  /-- From an opening brace on. -/
  | block (b : Block)
  /-- From behind an opening brace on, the closing one included. -/
  | body (statements : List Statement)
  | alternative (a : Alternative)

/-- A statement ends before a line end, a comment or a closing brace. -/
def EndsStatement (us : List Symbol) : Prop :=
  headToken us = some .newline ∨ headToken us = some .comment ∨ headToken us = some .rightBrace

/-- Lexemes make up a statement, a block or a part of one. -/
inductive Phrase.Derives : Phrase → List Symbol → Prop where
  | bodyEnd : Derives (.body []) [(.rightBrace, "\x7d")]
  | bodyNewline {ss : List Statement} {us : List Symbol} :
      Derives (.body ss) us → Derives (.body ss) ((.newline, "\n") :: us)
  | bodyComment {ss : List Statement} {us : List Symbol} {text : String} {span : Span} :
      Derives (.body ss) us → Derives (.body (.comment text span :: ss)) ((.comment, text) :: us)
  | bodyStatement {s : Statement} {ss : List Statement} {ts us : List Symbol} :
      Derives (.statement s) ts → Derives (.body ss) us → EndsStatement us →
      Derives (.body (s :: ss)) (ts ++ us)
  | block {ss : List Statement} {us : List Symbol} {span : Span} :
      Derives (.body ss) us → Derives (.block (.braces ss span)) ((.leftBrace, "\x7b") :: us)
  | ifElse {c : Expression} {b : Block} {a : Alternative} {cs thens bs as : List Symbol} {n : Nat}
      {span : Span} :
      c.Derives 10 cs → thens = [] ∨ thens = [key .then_] → Derives (.block b) bs → Derives (.alternative a) as →
      Derives (.statement (.ifElse c b a span)) (key .if_ :: cs ++ thens ++ newlines n ++ bs ++ as)
  | noElse : Derives (.alternative .none) []
  | elseIf {c : Expression} {b : Block} {a : Alternative} {cs thens bs as : List Symbol} {m n : Nat}
      {span : Span} :
      c.Derives 10 cs → thens = [] ∨ thens = [key .then_] → Derives (.block b) bs → Derives (.alternative a) as →
      Derives (.alternative (.elseIf c b a span))
        (newlines m ++ key .else_ :: key .if_ :: cs ++ thens ++ newlines n ++ bs ++ as)
  | otherwise {b : Block} {bs : List Symbol} {m n : Nat} :
      Derives (.block b) bs →
      Derives (.alternative (.otherwise b)) (newlines m ++ [key .else_] ++ newlines n ++ bs)
  | whileLoop {c : Expression} {b : Block} {cs bs : List Symbol} {n : Nat} {span : Span} :
      c.Derives 10 cs → Derives (.block b) bs →
      Derives (.statement (.whileLoop c b span)) (key .while_ :: cs ++ newlines n ++ bs)
  | repeatLoop {c : Expression} {b : Block} {cs bs : List Symbol} {n : Nat} {span : Span} :
      c.Derives 10 cs → Derives (.block b) bs →
      Derives (.statement (.repeatLoop c b span)) (key .repeat_ :: cs ++ newlines n ++ bs)
  | forLoop {d : DeclName} {first last : Expression} {b : Block} {fs ls bs : List Symbol} {n : Nat}
      {span : Span} :
      first.Derives 10 fs → last.Derives 10 ls → Derives (.block b) bs →
      Derives (.statement (.forLoop (some d) first last .missing b span))
        (key .for_ :: d.name.lexemes ++ (.assign, "=") :: fs ++ key .to_ :: ls ++ newlines n ++ bs)
  | forStep {d : DeclName} {first last step : Expression} {b : Block} {fs ls ss bs : List Symbol}
      {n : Nat} {span : Span} :
      first.Derives 10 fs → last.Derives 10 ls → step.Derives 10 ss → Derives (.block b) bs →
      Derives (.statement (.forLoop (some d) first last step b span))
        (key .for_ :: d.name.lexemes ++ (.assign, "=") :: fs ++ key .to_ :: ls ++ key .step :: ss ++
          newlines n ++ bs)
  | breakLoop {span : Span} : Derives (.statement (.breakLoop span)) [key .break_]
  | waitAlone {span : Span} : Derives (.statement (.wait false .missing span)) [key .wait]
  | waitFor {e : Expression} {ts : List Symbol} {span : Span} :
      e.Derives 10 ts → Derives (.statement (.wait false e span)) (key .wait :: ts)
  | waitUntil {e : Expression} {ts : List Symbol} {span : Span} :
      e.Derives 10 ts → Derives (.statement (.wait true e span)) (key .wait :: key .until_ :: ts)
  | assign {t : Target} {o : AssignOperator} {e : Expression} {ts es : List Symbol} {span : Span} :
      t.Derives ts → e.Derives 10 es → Derives (.statement (.assign t o e span)) (ts ++ o.lexeme :: es)
  | instruction {r : Reference} {as : Arguments} {ts : List Symbol} {span : Span} :
      r.IsWhole → as.Derives ts → Derives (.statement (.instruction r as span)) (r.lexemes ++ ts)

/-- Lexemes make up an item of a program. -/
inductive Item.Derives : Item → List Symbol → Prop where
  | directive {name : String} {value : Option String} {span : Span} :
      Derives (.directive (some name) value span)
        ((.hash, "#") :: wordLexeme name.toList :: (value.map fun v => (Token.string, v)).toList)
  | var {isList : Bool} {d : DeclName} {span : Span} :
      Derives (.var isList (some d) span) (key (if isList then .list else .var) :: d.name.lexemes)
  | event {name : EventName} {ps : Option Parameters} {b : Block} {bs : List Symbol} {n : Nat}
      {span : Span} :
      (Phrase.block b).Derives bs →
      Derives (.event (some name) ps b span)
        (key .on :: name.lexeme :: parameterLexemes ps ++ newlines n ++ bs)
  | instruction {d : DeclName} {ps : Option Parameters} {b : Block} {bs : List Symbol} {n : Nat}
      {span : Span} :
      (Phrase.block b).Derives bs →
      Derives (.instruction (some d) ps b span)
        (key .def_ :: d.name.lexemes ++ parameterLexemes ps ++ newlines n ++ bs)
  | expression {d : DeclName} {ps : Option Parameters} {e : Expression} {es : List Symbol} {span : Span} :
      e.Derives 10 es →
      Derives (.expression (some d) ps e span)
        (key .def_ :: key .expression :: d.name.lexemes ++ parameterLexemes ps ++ (.colon, ":") :: es)
  | block {ss : List Statement} {us : List Symbol} {span : Span} :
      (Phrase.body ss).Derives us → Derives (.block ss span) ((.leftBrace, "\x7b") :: us)

/-- An item ends before a line end or a comment, or at the end of the text. -/
def EndsItem (us : List Symbol) : Prop :=
  headToken us = none ∨ headToken us = some .newline ∨ headToken us = some .comment

/-- Lexemes make up the items of a program. -/
inductive Items.Derives : List Item → List Symbol → Prop where
  | nil : Derives [] []
  | newline {xs : List Item} {us : List Symbol} :
      Derives xs us → Derives xs ((.newline, "\n") :: us)
  | comment {xs : List Item} {us : List Symbol} {text : String} :
      Derives xs us → Derives xs ((.comment, text) :: us)
  | cons {x : Item} {xs : List Item} {ts us : List Symbol} :
      x.Derives ts → Derives xs us → EndsItem us → Derives (x :: xs) (ts ++ us)

/-- Lexemes make up a program. -/
def Program.Derives (p : Program) (ts : List Symbol) : Prop := Items.Derives p.items ts

/-! ## What a tree keeps of an expression

Expressions have no layout in them, so a tree keeps all of it. -/

/-- An expression keeps all lexemes that it is derived from, by induction over the derivation. -/
theorem Expression.Derives.lexemes_eq {k : Nat} {e : Expression} {ts : List Symbol}
    (h : e.Derives k ts) : e.lexemes = ts := by
  induction h with
  | literal => rfl
  | name _ => rfl
  | @call r arguments span _ _ ih =>
      have hmap : (arguments.map Prod.fst).map Expression.lexemes = arguments.map Prod.snd := by
        rw [List.map_map]
        exact List.map_congr_left ih
      rw [Expression.lexemes, Expression.lexemesEach_eq_map, hmap]
  | group _ ih => rw [Expression.lexemes, ih]
  | conditional _ _ _ ihc iht ihe => rw [Expression.lexemes, ihc, iht, ihe]
  | power _ _ ihl ihr => rw [Expression.lexemes, ihl, ihr]
  | binary _ _ _ ihl ihr => rw [Expression.lexemes, ihl, ihr]
  | not _ ih => rw [Expression.lexemes, ih]
  | looser _ _ ih => exact ih

/-- A use of a name begins with a word or a qualifier. -/
theorem Reference.IsWhole.starts {r : Reference} (h : r.IsWhole) :
    ∃ t w us, r.lexemes = (t, w) :: us ∧ t.startsName = true := by
  obtain ⟨qualifier, member, span⟩ := r
  cases qualifier with
  | none =>
      match member, h with
      | some (.words d), _ => exact ⟨_, _, _, rfl, rfl⟩
  | some q =>
      refine ⟨_, _, _, rfl, ?_⟩
      cases q <;> rfl

/-- An expression begins as one. -/
theorem Expression.Derives.starts {k : Nat} {e : Expression} {ts : List Symbol}
    (h : e.Derives k ts) : Starts 11 ts := by
  have hstart : ∀ {t : Token} {w : String} {us : List Symbol}, t.startsExpression = true →
      Starts 11 ((t, w) :: us) := fun ht => ⟨_, _, _, rfl, ht, fun hk => by omega, fun hk => by omega⟩
  induction h with
  | @literal value span =>
      cases value with
      | number negative digits => cases negative <;> exact hstart rfl
      | string literal => exact hstart rfl
      | bool value => cases value <;> exact hstart rfl
  | name hr =>
      obtain ⟨t, w, us, hus, ht⟩ := hr.starts
      rw [hus]
      exact hstart (t.startsExpression_of_startsName ht).1
  | call hr _ _ =>
      obtain ⟨t, w, us, hus, ht⟩ := hr.starts
      rw [hus]
      exact hstart (t.startsExpression_of_startsName ht).1
  | group _ _ => exact hstart rfl
  | conditional _ _ _ _ _ _ => exact hstart rfl
  | power _ _ ihl _ => exact ihl.append _
  | binary _ _ _ ihl _ => exact ihl.append _
  | not _ _ => exact hstart rfl
  | looser _ _ ih => exact ih

/-! ## Lexemes without layout

Layout is told by the lexemes themselves: line ends, comments at the top, and `then` before a brace. The lexeme
behind a dot is never layout, since keywords are words there. -/

/-- The lexemes without layout, inside so many braces. What stands behind a dot or a hash is part of a name. The word
`then` belongs to the layout if a brace follows, on the same line or on a later one. -/
def essentialFrom (depth : Nat) (named : Bool) : List Symbol → List Symbol
  | [] => []
  | (t, w) :: rest =>
    if named then (t, w) :: essentialFrom depth false rest
    else match t with
      | .newline => essentialFrom depth false rest
      | .comment => if depth = 0 then essentialFrom depth false rest else (t, w) :: essentialFrom depth false rest
      | .keyword .then_ =>
        if headToken (rest.dropWhile fun u => u.1 == .newline) = some .leftBrace then essentialFrom depth false rest
        else (t, w) :: essentialFrom depth false rest
      | .leftBrace => (t, w) :: essentialFrom (depth + 1) false rest
      | .rightBrace => (t, w) :: essentialFrom (depth - 1) false rest
      | .dot | .hash => (t, w) :: essentialFrom depth true rest
      | _ => (t, w) :: essentialFrom depth false rest

/-- The lexemes of a text without layout: without line ends, without comments outside all braces, and without the
word `then` before the block of a condition. -/
def essential (ts : List Symbol) : List Symbol := essentialFrom 0 false ts

/-- There is no layout in these lexemes. -/
def Kept (ts : List Symbol) : Prop :=
  ∀ depth rest, essentialFrom depth false (ts ++ rest) = ts ++ essentialFrom depth false rest

namespace Kept

variable {ts us : List Symbol}

theorem nil : Kept [] := fun _ _ => rfl

theorem append (ht : Kept ts) (hu : Kept us) : Kept (ts ++ us) := by
  intro depth rest
  rw [List.append_assoc, ht, hu, List.append_assoc]

/-- The tokens that are never layout and change nothing about what follows. -/
def isPlain : Token → Bool
  | .newline | .comment | .keyword .then_ | .leftBrace | .rightBrace | .dot | .hash => false
  | _ => true

/-- A lexeme that is never layout is kept, in front of others that are. -/
theorem cons {t : Token} {w : String} (ht : isPlain t = true) (hu : Kept us) : Kept ((t, w) :: us) := by
  intro depth rest
  rw [List.cons_append, List.cons_append, ← hu depth rest]
  cases t with
  | keyword k => cases k <;> first | rfl | cases ht
  | _ => first | rfl | cases ht

/-- What stands behind a dot is kept. -/
theorem dot {w : String} {l : Symbol} (hu : Kept us) : Kept ((.dot, w) :: l :: us) := by
  intro depth rest
  rw [List.cons_append, List.cons_append, List.cons_append, List.cons_append, ← hu depth rest]
  rfl

/-- The word `then` before an expression is kept. -/
theorem then_ {k : Nat} (hs : Starts k us) (hu : Kept us) : Kept (key .then_ :: us) := by
  intro depth rest
  obtain ⟨t, w, vs, rfl, ht, _⟩ := hs
  have hnewline : (t == Token.newline) = false := by
    cases t <;> first | rfl | cases ht
  have hbrace : some t ≠ some Token.leftBrace := by
    rintro ⟨⟩
    cases ht
  have hnone : ¬ headToken (((t, w) :: vs ++ rest).dropWhile fun u => u.1 == .newline) = some .leftBrace := by
    simpa [hnewline] using hbrace
  show essentialFrom depth false (key .then_ :: ((t, w) :: vs ++ rest)) =
    key .then_ :: ((t, w) :: vs ++ essentialFrom depth false rest)
  rw [← hu depth rest]
  exact if_neg hnone

theorem commas {tss : List (List Symbol)} (h : ∀ ts ∈ tss, Kept ts) : Kept (commas tss) := by
  match tss, h with
  | [], _ => exact nil
  | [ts], h => exact h ts (.head _)
  | ts :: vs :: tss, h =>
      rw [Spelled.commas]
      exact (h ts (.head _)).append (.cons rfl (commas fun us hus => h us (.tail _ hus)))

/-- Items in parentheses with commas between them. -/
theorem parenthesized {tss : List (List Symbol)} (h : ∀ ts ∈ tss, Kept ts) :
    Kept ((.leftParen, "(") :: Spelled.commas tss ++ [(.rightParen, ")")]) :=
  .append (.cons rfl (.commas h)) (.cons rfl .nil)

theorem tail (ws : List (List Char)) : Kept (tailLexemes ws) := by
  induction ws with
  | nil => exact nil
  | cons w ws ih => exact dot ih

end Kept

theorem Name.kept (n : Name) : Kept n.lexemes := by
  cases n with
  | words d => exact .cons rfl (.tail _)
  | quoted literal => exact .cons rfl .nil

/-- There is no layout in a use of a name. A keyword behind a dot is a word. -/
theorem Reference.IsWhole.kept {r : Reference} (h : r.IsWhole) : Kept r.lexemes := by
  obtain ⟨qualifier, member, span⟩ := r
  cases qualifier with
  | none =>
      match member, h with
      | some (.words d), _ => exact Name.kept (.words d)
  | some q =>
      match member, h with
      | some (.words d), _ => cases q <;> exact .cons rfl (.dot (.tail _))
      | some (.quoted literal), _ => cases q <;> exact .cons rfl (.dot .nil)

theorem Operator.kept (o : Operator) {us : List Symbol} (h : Kept us) : Kept (o.lexeme :: us) := by
  cases o <;> exact .cons rfl h

/-- There is no layout in an expression. -/
theorem Expression.Derives.kept {k : Nat} {e : Expression} {ts : List Symbol}
    (h : e.Derives k ts) : Kept ts := by
  induction h with
  | @literal value span =>
      cases value with
      | number negative digits =>
          cases negative with
          | false => exact .cons rfl .nil
          | true => exact .cons rfl (.cons rfl .nil)
      | string literal => exact .cons rfl .nil
      | bool value => cases value <;> exact .cons rfl .nil
  | name hr => exact hr.kept
  | call hr _ ih =>
      rw [List.append_assoc]
      refine hr.kept.append (.parenthesized ?_)
      intro ts hts
      obtain ⟨a, ha, rfl⟩ := List.mem_map.mp hts
      exact ih a ha
  | group _ ih => exact .append (.cons rfl ih) (.cons rfl .nil)
  | conditional _ ht _ ihc iht ihe =>
      exact .append (.append (.cons rfl ihc) (.then_ ht.starts iht)) (.cons rfl ihe)
  | power _ _ ihl ihr => exact ihl.append (Operator.kept _ ihr)
  | binary _ _ _ ihl ihr => exact ihl.append (Operator.kept _ ihr)
  | not _ ih => exact .cons rfl ih
  | looser _ _ ih => exact ih

/-! ## What a tree keeps of a text

For statements and items the layout has to be taken out of the lexemes, part by part. -/

/-- The lexemes that a part of a statement or a block keeps. -/
def Phrase.lexemes : Phrase → List Symbol
  | statement s => s.lexemes
  | block b => b.lexemes
  | body ss => Statement.lexemesAll ss ++ [(.rightBrace, "\x7d")]
  | alternative a => a.lexemes

/-- How many of the braces around a part are closed behind it. -/
def Phrase.closes : Phrase → Nat
  | body _ => 1
  | _ => 0

theorem essentialFrom_newlines (depth n : Nat) (us : List Symbol) :
    essentialFrom depth false (newlines n ++ us) = essentialFrom depth false us := by
  induction n with
  | zero => rfl
  | succ n ih => exact ih

/-- What is left of the lexemes between a condition and its block. -/
theorem essentialFrom_header {depth n : Nat} {thens us : List Symbol} {w : String}
    (h : thens = [] ∨ thens = [key .then_]) :
    essentialFrom depth false (thens ++ (newlines n ++ (.leftBrace, w) :: us)) =
      essentialFrom depth false ((.leftBrace, w) :: us) := by
  have hbrace : headToken ((newlines n ++ (.leftBrace, w) :: us).dropWhile fun u => u.1 == .newline) =
      some .leftBrace := by
    induction n with
    | zero => rfl
    | succ n ih => exact ih
  rcases h with rfl | rfl
  · exact essentialFrom_newlines depth n _
  · exact (if_pos hbrace).trans (essentialFrom_newlines depth n _)

theorem Phrase.Derives.block_starts {b : Block} {bs : List Symbol} (h : (Phrase.block b).Derives bs) :
    ∃ us, bs = (.leftBrace, "\x7b") :: us := by
  cases h with
  | block _ => exact ⟨_, rfl⟩

/-- What is left of a block behind its header. -/
theorem Phrase.Derives.essentialFrom_headed {b : Block} {bs thens : List Symbol} {n : Nat}
    (h : (Phrase.block b).Derives bs)
    (ih : ∀ depth rest, essentialFrom depth false (bs ++ rest) = b.lexemes ++ essentialFrom depth false rest)
    (hthens : thens = [] ∨ thens = [key .then_]) (depth : Nat) (rest : List Symbol) :
    essentialFrom depth false (thens ++ (newlines n ++ (bs ++ rest))) =
      b.lexemes ++ essentialFrom depth false rest := by
  obtain ⟨us, rfl⟩ := h.block_starts
  rw [← ih, List.cons_append, essentialFrom_header hthens]

/-- What is left of a header without layout, of the line ends behind it and of its block. -/
theorem Kept.headed {b : Block} {head bs : List Symbol} {n : Nat} (h : Kept head)
    (ih : ∀ depth rest, essentialFrom depth false (bs ++ rest) = b.lexemes ++ essentialFrom depth false rest)
    (depth : Nat) (rest : List Symbol) :
    essentialFrom depth false (head ++ newlines n ++ bs ++ rest) =
      head ++ b.lexemes ++ essentialFrom depth false rest := by
  rw [List.append_assoc, List.append_assoc, h, essentialFrom_newlines, ih, List.append_assoc]

theorem Target.Derives.kept {t : Target} {ts : List Symbol} (h : t.Derives ts) :
    t.lexemes = ts ∧ Kept ts := by
  cases h with
  | reference hr => exact ⟨rfl, hr.kept⟩
  | group he => exact ⟨by rw [Target.lexemes, he.lexemes_eq], .append (.cons rfl he.kept) (.cons rfl .nil)⟩

/-- The arguments of an instruction are kept whole. -/
theorem Arguments.Derives.kept {as : Arguments} {ts : List Symbol} (h : as.Derives ts) :
    as.lexemes = ts ∧ Kept ts := by
  cases h with
  | none => exact ⟨rfl, .nil⟩
  | @list items hitems =>
      have hmap : (items.map Prod.fst).map Expression.lexemes = items.map Prod.snd := by
        rw [List.map_map]
        exact List.map_congr_left fun a ha => (hitems a ha).lexemes_eq
      refine ⟨by rw [Arguments.lexemes, hmap], .parenthesized ?_⟩
      intro ts hts
      obtain ⟨a, ha, rfl⟩ := List.mem_map.mp hts
      exact (hitems a ha).kept
  | single he => exact ⟨he.lexemes_eq, he.kept⟩

/-- The step of a loop is written behind its word. -/
theorem Expression.Derives.stepLexemes_eq {k : Nat} {e : Expression} {ts : List Symbol}
    (h : e.Derives k ts) : stepLexemes e = key .step :: ts := by
  rw [← h.lexemes_eq]
  cases e with
  | missing => exact absurd h.lexemes_eq.symm h.starts.ne_nil
  | _ => rfl

/-- A part of a statement or a block keeps the essential lexemes of what it is derived from. -/
theorem Phrase.Derives.essentialFrom_eq {p : Phrase} {ts : List Symbol} (h : p.Derives ts) :
    ∀ depth rest, essentialFrom (depth + p.closes) false (ts ++ rest) =
      p.lexemes ++ essentialFrom depth false rest := by
  induction h with
  | bodyEnd => exact fun _ _ => rfl
  | bodyNewline _ ih => exact ih
  | bodyComment _ ih => exact fun depth rest => congrArg (_ :: ·) (ih depth rest)
  | @bodyStatement s ss ts us _ _ _ ihs ihss =>
      intro depth rest
      -- the closing brace of the body is still to come while the statement is read
      have hs := ihs (depth + 1) (us ++ rest)
      have hss := ihss depth rest
      simp only [Phrase.closes, Phrase.lexemes, Statement.lexemesAll, Nat.add_zero, List.append_assoc] at hs hss ⊢
      rw [hs, hss]
  | block _ ih => exact fun depth rest => congrArg (_ :: ·) (ih depth rest)
  | @ifElse c b a cs thens bs as n span hc hthens hb _ ihb iha =>
      intro depth rest
      have hif : Kept (key .if_ :: cs) := .cons rfl hc.kept
      have ha : essentialFrom depth false (as ++ rest) = a.lexemes ++ essentialFrom depth false rest := iha depth rest
      show essentialFrom depth false _ = (key .if_ :: c.lexemes ++ b.lexemes ++ a.lexemes) ++ _
      simp only [hc.lexemes_eq, List.append_assoc]
      rw [hif, hb.essentialFrom_headed ihb hthens, ha]
  | noElse => exact fun _ _ => rfl
  -- the line ends in front of `else` are layout
  | @elseIf c b a cs thens bs as m n span hc hthens hb _ ihb iha =>
      intro depth rest
      have helse : Kept (key .else_ :: key .if_ :: cs) := .cons rfl (.cons rfl hc.kept)
      have ha : essentialFrom depth false (as ++ rest) = a.lexemes ++ essentialFrom depth false rest := iha depth rest
      show essentialFrom depth false _ = (key .else_ :: key .if_ :: c.lexemes ++ b.lexemes ++ a.lexemes) ++ _
      simp only [hc.lexemes_eq, List.append_assoc]
      rw [essentialFrom_newlines, helse, hb.essentialFrom_headed ihb hthens, ha]
  | @otherwise b bs m n _ ihb =>
      intro depth rest
      have helse : Kept [key .else_] := .cons rfl .nil
      have hblock := helse.headed (n := n) ihb depth rest
      simp only [List.append_assoc] at hblock ⊢
      rw [essentialFrom_newlines]
      exact hblock
  | @whileLoop c b cs bs n span hc _ ihb =>
      intro depth rest
      show essentialFrom depth false _ = (key .while_ :: c.lexemes ++ b.lexemes) ++ _
      rw [hc.lexemes_eq]
      exact (Kept.cons rfl hc.kept).headed ihb depth rest
  | @repeatLoop c b cs bs n span hc _ ihb =>
      intro depth rest
      show essentialFrom depth false _ = (key .repeat_ :: c.lexemes ++ b.lexemes) ++ _
      rw [hc.lexemes_eq]
      exact (Kept.cons rfl hc.kept).headed ihb depth rest
  | @forLoop d first last b fs ls bs n span hf hl _ ihb =>
      intro depth rest
      have hhead : Kept (key .for_ :: d.name.lexemes ++ (.assign, "=") :: fs ++ key .to_ :: ls) :=
        .append (.append (.cons rfl d.name.kept) (.cons rfl hf.kept)) (.cons rfl hl.kept)
      show essentialFrom depth false _ = (key .for_ :: d.name.lexemes ++ (.assign, "=") :: first.lexemes ++
        key .to_ :: last.lexemes ++ [] ++ b.lexemes) ++ _
      rw [hf.lexemes_eq, hl.lexemes_eq, List.append_nil]
      exact hhead.headed ihb depth rest
  | @forStep d first last step b fs ls ss bs n span hf hl hs _ ihb =>
      intro depth rest
      have hhead : Kept (key .for_ :: d.name.lexemes ++ (.assign, "=") :: fs ++ key .to_ :: ls ++ key .step :: ss) :=
        .append (.append (.append (.cons rfl d.name.kept) (.cons rfl hf.kept)) (.cons rfl hl.kept))
          (.cons rfl hs.kept)
      show essentialFrom depth false _ = (key .for_ :: d.name.lexemes ++ (.assign, "=") :: first.lexemes ++
        key .to_ :: last.lexemes ++ stepLexemes step ++ b.lexemes) ++ _
      rw [hf.lexemes_eq, hl.lexemes_eq, hs.stepLexemes_eq]
      exact hhead.headed ihb depth rest
  | breakLoop => exact fun depth rest => Kept.cons rfl .nil depth rest
  | waitAlone => exact fun depth rest => Kept.cons rfl .nil depth rest
  | @waitFor e ts span he =>
      intro depth rest
      show _ = (key .wait :: e.lexemes) ++ _
      rw [he.lexemes_eq]
      exact Kept.cons rfl he.kept depth rest
  | @waitUntil e ts span he =>
      intro depth rest
      show _ = (key .wait :: key .until_ :: e.lexemes) ++ _
      rw [he.lexemes_eq]
      exact Kept.cons rfl (.cons rfl he.kept) depth rest
  | @assign t o e ts es span ht he =>
      intro depth rest
      show _ = (t.lexemes ++ o.lexeme :: e.lexemes) ++ _
      rw [ht.kept.1, he.lexemes_eq]
      exact (ht.kept.2.append (by cases o <;> exact .cons rfl he.kept)) depth rest
  | @instruction r as ts span hr has =>
      intro depth rest
      show _ = (r.lexemes ++ as.lexemes) ++ _
      rw [has.kept.1]
      exact (hr.kept.append has.kept.2) depth rest

theorem Parameters.kept (ps : Option Parameters) : Kept (parameterLexemes ps) := by
  cases ps with
  | none => exact .nil
  | some p =>
      refine .parenthesized fun ts hts => ?_
      obtain ⟨d, _, rfl⟩ := List.mem_map.mp hts
      exact d.name.kept

/-- An item keeps the essential lexemes of what it is derived from. -/
theorem Item.Derives.essentialFrom_eq {x : Item} {ts : List Symbol} (h : x.Derives ts)
    (rest : List Symbol) : essentialFrom 0 false (ts ++ rest) = x.lexemes ++ essentialFrom 0 false rest := by
  cases h with
  | @directive name value span =>
      cases value with
      | none => rfl
      | some v => rfl
  | @var isList d span =>
      cases isList <;> exact Kept.cons rfl d.name.kept 0 rest
  | @event name ps b bs n span hb =>
      have hhead : Kept (key .on :: name.lexeme :: parameterLexemes ps) := by
        cases name <;> exact .cons rfl (.cons rfl (Parameters.kept ps))
      exact hhead.headed hb.essentialFrom_eq 0 rest
  | @instruction d ps b bs n span hb =>
      have hhead : Kept (key .def_ :: d.name.lexemes ++ parameterLexemes ps) :=
        .append (.cons rfl d.name.kept) (Parameters.kept ps)
      exact hhead.headed hb.essentialFrom_eq 0 rest
  | @expression d ps e es span he =>
      have hall : Kept (key .def_ :: key .expression :: d.name.lexemes ++ parameterLexemes ps ++ (.colon, ":") :: es) :=
        .append (.append (.cons rfl (.cons rfl d.name.kept)) (Parameters.kept ps)) (.cons rfl he.kept)
      show essentialFrom 0 false _ = (key .def_ :: key .expression :: d.name.lexemes ++ parameterLexemes ps ++
        (.colon, ":") :: e.lexemes) ++ _
      rw [he.lexemes_eq]
      exact hall 0 rest
  | @block ss us span hb => exact congrArg (_ :: ·) (hb.essentialFrom_eq 0 rest)

/-- **A program keeps the essential lexemes of what it is derived from.** Between the items only line ends and
comments stand, which `essential` leaves out at depth zero, and each item keeps what is essential in its own lexemes. -/
theorem Program.Derives.lexemes_eq {p : Program} {ts : List Symbol} (h : p.Derives ts) :
    p.lexemes = essential ts := by
  have hitems : ∀ {xs : List Item} {ts : List Symbol}, Items.Derives xs ts →
      xs.flatMap Item.lexemes = essentialFrom 0 false ts := by
    intro xs ts h
    induction h with
    | nil => rfl
    | newline _ ih => exact ih
    | comment _ ih => exact ih
    | cons hx _ _ ih => rw [List.flatMap_cons, ih, hx.essentialFrom_eq]
  exact hitems h

end Surface

end FlightScript
