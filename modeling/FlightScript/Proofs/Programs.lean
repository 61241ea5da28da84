import FlightScript.Conversion
import FlightScript.Proofs.Statements

/-!
# `Proofs.Programs` — canonical texts of programs read back

The canonical text of a program is a line for its name, the lines of its variables, and its items with blank lines
between them. It is read item by item, and each item adds to what has been read before. So the tree that comes out
has the same name, variables and items, each of them as its own text stands for it.

## Contents

* `Lines`: texts that end with their line end;
* `ReadsItems`, `Drafted`: how items are read and what they add to a program;
* one lemma for each kind of item;
* `Grammar.Program.treeOfText`: a settled program is read back from its text if no name with arguments is assigned
  to, and its text has a problem otherwise.
-/

namespace FlightScript

open Parse

/-! ## Texts that end with their line end

What ends with its own line end has its lexemes whatever comes next, so such texts are put together freely. -/

/-- A text has these lexemes, whatever stands behind it. -/
def Lines (text : String) (ts : List Symbol) : Prop :=
  ∀ rest us, Spells 0 rest us → Spells 0 (text.toList ++ rest) (ts ++ us)

namespace Lines

variable {a b : String} {ts us : List Symbol}

theorem empty : Lines "" [] := fun _ _ h => h

theorem append (ha : Lines a ts) (hb : Lines b us) : Lines (a ++ b) (ts ++ us) := by
  intro rest vs h
  rw [String.toList_append, List.append_assoc, List.append_assoc]
  exact ha _ _ (hb _ _ h)

theorem newline (h : Lines a ts) : Lines ("\n" ++ a) ((.newline, "\n") :: ts) := by
  intro rest vs hs
  simpa using (h rest vs hs).newline

/-- A line with its line end. -/
theorem ofLine (h : Line a ts) : Lines (a ++ "\n") (ts ++ [(.newline, "\n")]) := by
  intro rest vs hs
  simpa using h rest _ hs.newline

end Lines

/-- The lexemes of the line of a directive. -/
def directiveLine (key value : String) : List Symbol :=
  [(.hash, "#"), (.word, key), (.string, Text.Quoted.write value), (.newline, "\n")]

/-- The line of a directive is its mark, its word, its value and the line end. -/
theorem Lines.directiveLine {key : String} (hword : Text.isWord key.toList = true)
    (htoken : Piece.wordToken key.toList = .word) (value : String) :
    Lines ("#" ++ key ++ " " ++ Text.Quoted.write value ++ "\n") (FlightScript.directiveLine key value) := by
  intro rest us h
  have hvalue := (h.newline.quoted value).space
  have hkey := (hvalue.word hword ⟨rfl, rfl⟩).hash
  rw [htoken, String.ofList_toList] at hkey
  simpa [FlightScript.directiveLine] using hkey

/-- The lexemes of a directive that may be left out. -/
def directiveLexemes (key : String) : Option String → List Symbol
  | some value => directiveLine key value
  | none => []

/-- A directive that says nothing is not written. -/
theorem Lines.directive {key : String} {value : Option String} (hvalue : LegibleValue value)
    (hword : Text.isWord key.toList = true) (htoken : Piece.wordToken key.toList = .word) :
    Lines (Render.directive key value) (directiveLexemes key value) := by
  cases value with
  | none => exact Lines.empty
  | some v =>
      have hv : (v == "") = false := by
        simp only [beq_eq_false_iff_ne]
        rintro rfl
        exact hvalue rfl
      rw [Render.directive, hv]
      exact Lines.directiveLine hword htoken v

/-! ## Items one after another

The loop over items, one item at a time, with a condition under which all of them are read. -/

/-- All items of a text are read if something holds, and as wanted. -/
def ReadsItems (ok : Prop) (us : List Symbol) (R : List Surface.Item → Prop) : Prop :=
  ∀ m, us.length ≤ m → ReadsIf ok (items m) us [] R

/-- An item was read before others. -/
def FirstItem (P : Surface.Item → Prop) (R : List Surface.Item → Prop) (xs : List Surface.Item) : Prop :=
  ∃ x ys, xs = x :: ys ∧ P x ∧ R ys

namespace ReadsItems

variable {ok ok' : Prop} {us rest : List Symbol} {R R' : List Surface.Item → Prop}

theorem mono (h : ReadsItems ok us R) (hR : ∀ xs, R xs → R' xs) : ReadsItems ok us R' :=
  fun m hm => (h m hm).mono hR

theorem congr (h : ReadsItems ok us R) (hiff : ok ↔ ok') : ReadsItems ok' us R :=
  fun m hm => (h m hm).congr hiff

theorem nil : ReadsItems True [] (· = []) := by
  intro m _
  refine Reads.readsIf ?_ trivial
  cases m with
  | zero => exact .pure rfl
  | succ m =>
      unfold items
      refine Reads.cursor.bind fun c hc => ?_
      rw [c.token?_eq, hc]
      exact .pure rfl

theorem newline {w : String} (h : ReadsItems ok us R) : ReadsItems ok ((.newline, w) :: us) R := by
  intro m hm
  rw [List.length_cons] at hm
  obtain ⟨m, rfl⟩ : ∃ k, m = k + 1 := ⟨m - 1, by omega⟩
  unfold items
  refine Reads.cursor.bind_readsIf fun c hc => ?_
  rw [c.token?_eq, hc]
  exact Reads.advance.bind_readsIf fun _ _ => h m (by omega)

/-- An item, its line end, and the items behind it. -/
theorem item {p : Parse Surface.Item} {t : Token} {w : String} {P : Surface.Item → Prop}
    (hp : item? t (headToken us) = some p) (h : ReadsIf ok p ((t, w) :: us) ((.newline, "\n") :: rest) P)
    (hlen : rest.length < us.length) (hrest : ReadsItems ok' rest R) :
    ReadsItems (ok ∧ ok') ((t, w) :: us) (FirstItem P R) := by
  intro m hm
  rw [List.length_cons] at hm
  obtain ⟨m, rfl⟩ : ∃ k, m = k + 1 := ⟨m - 1, by omega⟩
  have hlayout : (t == .newline || t == .comment) = false := by
    cases t <;> first | rfl | cases hp
  unfold items
  refine Reads.cursor.bind_readsIf fun c hc => ?_
  rw [c.token?_eq, c.second?_eq, hc]
  simp only [headToken_cons, hlayout, Bool.false_eq_true, if_false, List.tail_cons, hp]
  refine h.bind fun x hx => (Reads.expectLineEnd (by rintro _ ⟨⟩; rfl)).bind_readsIf fun _ _ => ?_
  refine (hrest.newline m (by rw [List.length_cons]; omega)).bind_reads fun ys hys => ?_
  exact .pure ⟨x, ys, rfl, hx, hys⟩

/-- An item that is always read. -/
theorem item_reads {p : Parse Surface.Item} {t : Token} {w : String} {P : Surface.Item → Prop}
    (hp : item? t (headToken us) = some p) (h : Reads p ((t, w) :: us) ((.newline, "\n") :: rest) P)
    (hlen : rest.length < us.length) (hrest : ReadsItems ok rest R) :
    ReadsItems ok ((t, w) :: us) (FirstItem P R) :=
  (item hp (h.readsIf trivial) hlen hrest).congr (iff_of_eq (true_and ok))

/-- The line of a directive is read as one item, whose value is the one that was written. -/
theorem directiveLine (key value : String) (h : ReadsItems ok us R) :
    ReadsItems ok (FlightScript.directiveLine key value ++ us)
      (FirstItem (fun x => ∃ literal span, x = .directive (some key) (some literal) span ∧
        Text.Quoted.value literal = value) R) := by
  refine item_reads rfl ?_ (by simp; omega) h
  unfold directiveItem
  refine Reads.start.bind fun first _ => Reads.advance.bind fun _ _ => ?_
  refine Reads.bind (show Reads _ _ ((.string, Text.Quoted.write value) :: (.newline, "\n") :: us) (· = some key) from
    Reads.token?.bind ?_) ?_
  · rintro _ rfl
    refine Reads.lexeme?.bind ?_
    rintro _ ⟨l, rfl, _, hl⟩
    exact .pure (by rw [Option.map_some, hl])
  · rintro _ rfl
    refine Reads.eat.bind ?_
    rintro _ ⟨l, rfl, _, hl⟩
    refine Reads.spanFrom.bind fun span _ => .pure ⟨_, span, rfl, ?_⟩
    rw [hl, Text.Quoted.value_write]

end ReadsItems

/-! ## What items add to a program

A draft is described by what is noted in it and by what the items still to come will add, so that the induction
over items can go from the last one to the first. -/

/-- A draft in which this position and this call format are noted. -/
structure Notes (pos callFormat : Option String) (d : Surface.Draft) : Prop where
  pos : d.pos = pos
  callFormat : d.callFormat = callFormat

/-- Read while these values are noted, the items add variables and trees to a program: the variables are as wanted up to
their places, and the trees come to the same as the wanted ones. -/
def Drafted (s : Scope) (pos callFormat : Option String) (vars : List VariableDeclaration) (ns : List Node)
    (xs : List Surface.Item) : Prop :=
  ∀ d : Surface.Draft, Notes pos callFormat d → ∃ directives vars' body',
    xs.foldl Surface.Draft.add d = ⟨d.name, directives, d.globals ++ vars', d.body ++ body'⟩ ∧
      vars'.map VariableDeclaration.clearMetadata = vars.map VariableDeclaration.clearMetadata ∧
      List.Forall₂ (Node.Same s) body' ns

/-- Read while these values are noted, an item takes them and adds a tree that comes to the same as this one. -/
def Adds (s : Scope) (pos callFormat : Option String) (n : Node) (x : Surface.Item) : Prop :=
  ∀ d : Surface.Draft, Notes pos callFormat d → ∃ directives m,
    d.add x = ⟨d.name, directives, d.globals, d.body ++ [m]⟩ ∧ Notes none none (d.add x) ∧ Node.Same s m n

theorem Notes.place {pos : Option String} {d : Surface.Draft} (h : Notes pos none d) (n : Node) :
    Notes none none (d.place n) where
  pos := NameMap.get?_erase_self _ _
  callFormat := (NameMap.get?_erase_of_ne _ (by decide)).trans h.callFormat

theorem Notes.declare (d : Surface.Draft) (n : Node) : Notes none none (d.declare n) where
  pos := (NameMap.get?_erase_of_ne _ (by decide)).trans (NameMap.get?_erase_self _ _)
  callFormat := NameMap.get?_erase_self _ _

namespace Drafted

variable {s : Scope} {pos callFormat : Option String} {vars : List VariableDeclaration} {ns : List Node}
  {xs : List Surface.Item}

theorem nil : Drafted s none none [] [] [] := by
  intro d _
  refine ⟨d.directives, [], [], ?_, rfl, .nil⟩
  simp

/-- A directive changes what is noted. -/
theorem directive {key value : String} {literal : Option String} {span : Span} {pos' callFormat' : Option String}
    (hliteral : literal.map Text.Quoted.value = some value) (hkey : key ≠ "program") (hvalue : value ≠ "")
    (hnotes : ∀ d : Surface.Draft, Notes pos callFormat d →
      Notes pos' callFormat' { d with directives := d.directives.insert key value })
    (h : Drafted s pos' callFormat' vars ns xs) :
    Drafted s pos callFormat vars ns (.directive (some key) literal span :: xs) := by
  intro d hd
  have hdirect : d.direct key (literal.map Text.Quoted.value) =
      { d with directives := d.directives.insert key value } := by
    rw [hliteral, Surface.Draft.direct, if_neg (by simpa using hkey),
      Text.filled_eq_some_iff.mpr ⟨rfl, hvalue⟩]
  rw [List.foldl_cons, Surface.Draft.add, hdirect]
  exact h _ (hnotes d hd)

/-- A declared variable. -/
theorem var {d : VariableDeclaration} {isList : Bool} {name : Option Surface.DeclName} {span : Span}
    (hname : Surface.declaredName name = d.name) (hkind : (if isList then .list else .value) = d.kind)
    (h : Drafted s pos callFormat vars ns xs) :
    Drafted s pos callFormat (d :: vars) ns (.var isList name span :: xs) := by
  intro draft hnotes
  rw [List.foldl_cons, Surface.Draft.add, hname, hkind]
  obtain ⟨directives, vars', body', hfold, hvars, hbody⟩ := h { draft with
    globals := draft.globals ++ [⟨d.name, name.map Surface.DeclName.span, d.kind, some span⟩] } ⟨hnotes.pos, hnotes.callFormat⟩
  refine ⟨directives, ⟨d.name, name.map Surface.DeclName.span, d.kind, some span⟩ :: vars', body', ?_, ?_, hbody⟩
  · rw [hfold]
    simp
  · rw [List.map_cons, List.map_cons, hvars]
    rfl

/-- An item that takes what is noted, and then the others with nothing noted. -/
theorem cons {n : Node} {x : Surface.Item} (hx : Adds s pos callFormat n x) (h : Drafted s none none [] ns xs) :
    Drafted s pos callFormat [] (n :: ns) (x :: xs) := by
  intro d hd
  obtain ⟨_, m, hadd, hnotes, hm⟩ := hx d hd
  obtain ⟨directives, vars', body', hfold, hvars, hbody⟩ := h (d.add x) hnotes
  refine ⟨directives, vars', m :: body', ?_, hvars, .cons hm hbody⟩
  rw [List.foldl_cons, hfold, hadd]
  simp

end Drafted

/-- An item that adds a tree, its line end, and the items behind it. -/
theorem ReadsItems.adds {ok ok' : Prop} {us rest : List Symbol} {s : Scope}
    {pos callFormat : Option String} {n : Node} {ns : List Node} {p : Parse Surface.Item} {t : Token} {w : String}
    (hp : item? t (headToken us) = some p)
    (h : ReadsIf ok p ((t, w) :: us) ((.newline, "\n") :: rest) (Adds s pos callFormat n))
    (hlen : rest.length < us.length) (hrest : ReadsItems ok' rest (Drafted s none none [] ns)) :
    ReadsItems (ok ∧ ok') ((t, w) :: us) (Drafted s pos callFormat [] (n :: ns)) := by
  refine (ReadsItems.item hp h hlen hrest).mono ?_
  rintro _ ⟨x, xs, rfl, hx, hxs⟩
  exact .cons hx hxs

/-! ## Directives

A directive is noted and then taken by the item behind it, so between the two the notes are not empty. -/

section Directives

variable {ok : Prop} {us : List Symbol} {s : Scope} {vars : List VariableDeclaration} {ns : List Node}

/-- The lines of the directives in front of a declaration. -/
theorem ReadsItems.pos {value format : Option String} (hvalue : LegibleValue value)
    (h : ReadsItems ok us (Drafted s value format vars ns)) :
    ReadsItems ok (directiveLexemes "pos" value ++ us) (Drafted s none format vars ns) := by
  cases value with
  | none => exact h
  | some v =>
      refine (ReadsItems.directiveLine "pos" v h).mono ?_
      rintro _ ⟨_, xs, rfl, ⟨literal, span, rfl, hv⟩, hxs⟩
      refine Drafted.directive (congrArg some hv) (by decide) (fun hempty => hvalue (congrArg some hempty)) ?_ hxs
      intro d hd
      exact ⟨NameMap.get?_insert_self _ _ _, (NameMap.get?_insert_of_ne _ _ (by decide)).trans hd.callFormat⟩

/-- The line of a format is noted for the declaration behind it. -/
theorem ReadsItems.fmt {value pos : Option String} (hvalue : LegibleValue value)
    (h : ReadsItems ok us (Drafted s pos value vars ns)) :
    ReadsItems ok (directiveLexemes "fmt" value ++ us) (Drafted s pos none vars ns) := by
  cases value with
  | none => exact h
  | some v =>
      refine (ReadsItems.directiveLine "fmt" v h).mono ?_
      rintro _ ⟨_, xs, rfl, ⟨literal, span, rfl, hv⟩, hxs⟩
      refine Drafted.directive (congrArg some hv) (by decide) (fun hempty => hvalue (congrArg some hempty)) ?_ hxs
      intro d hd
      exact ⟨(NameMap.get?_insert_of_ne _ _ (by decide)).trans hd.pos, NameMap.get?_insert_self _ _ _⟩

end Directives

/-! ## Items -/

/-- The lexemes of an item with its line end, and how they are read before other items. -/
structure Itemized (s : Scope) (n : Node) (ts : List Symbol) : Prop where
  lines : Lines (n.render s 0 looseCeiling) ts
  reads : ∀ ok rest ns, ReadsItems ok rest (Drafted s none none [] ns) →
    ReadsItems (n.Readable ∧ ok) (ts ++ rest) (Drafted s none none [] (n.readBack :: ns))

theorem Lines.pos {value : Option String} (h : LegibleValue value) :
    Lines (Render.directive "pos" value) (directiveLexemes "pos" value) :=
  .directive h (by decide) (by decide)

theorem Lines.fmt {value : Option String} (h : LegibleValue value) :
    Lines (Render.directive "fmt" value) (directiveLexemes "fmt" value) :=
  .directive h (by decide) (by decide)

theorem Spelled.parameters {depth : Nat} (names : List String) :
    Spelled depth (Render.parameters names) (Spelled.arguments (names.map Spelled.name)) := by
  refine Spelled.parenthesized ?_
  induction names with
  | nil => exact .nil
  | cons a names ih => exact .cons (Spelled.renderName a) ih

/-- Parameters begin with a parenthesis, if there are any. -/
theorem headToken_parameters {names : List String} {us : List Symbol} {t : Token} (ht : t ≠ .leftParen)
    (hu : headToken us ≠ some t) : headToken (Spelled.arguments (names.map Spelled.name) ++ us) ≠ some t := by
  cases names with
  | nil => exact hu
  | cons a names =>
      have hhead : headToken (Spelled.arguments ((a :: names).map Spelled.name) ++ us) = some .leftParen := rfl
      rw [hhead]
      exact fun h => ht (Option.some.inj h).symm

/-- A name with parameters and a block behind it. -/
theorem Spelled.header {a lines : String} {ts us : List Symbol} (names : List String)
    (ha : Spelled 0 a us) (h : Line lines ts) :
    Spelled 0 (a ++ Render.parameters names ++ " " ++ blockText 0 lines)
      (us ++ Spelled.arguments (names.map Spelled.name) ++ blockLexemes ts) :=
  (ha.append (Spelled.parameters names) (Spelled.stops_parenthesized _)).spaced (.block h 0)

section Blocks

variable {s : Scope} {depth : Nat} {ns : List Node} {ts rest : List Symbol}

theorem Blocked.readsIf (h : Blocked s depth ns ts) :
    ReadsIf (∀ n ∈ ns, n.Readable) Parse.block (blockLexemes ts ++ rest) rest
      fun blk => List.Forall₂ (Node.Same s) blk.nodes (ns.map Node.readBack) := by
  unfold Parse.block
  refine Reads.remaining.bind_readsIf ?_
  rintro _ rfl
  exact ⟨fun hok => h.reads hok _ rest (Nat.lt_succ_self _), fun hok => h.refuses hok _ rest (Nat.lt_succ_self _)⟩

theorem Blocked.readsIf_afterHeader (h : Blocked s depth ns ts) :
    ReadsIf (∀ n ∈ ns, n.Readable) (blockAfterHeader Parse.block) (blockLexemes ts ++ rest) rest
      fun blk => List.Forall₂ (Node.Same s) blk.nodes (ns.map Node.readBack) :=
  ⟨fun hok => Reads.blockAfterHeader (h.readsIf.reads hok),
    fun hok => Refuses.blockAfterHeader (h.readsIf.refuses hok)⟩

end Blocks

/-! ### Event handlers

A handler of messages is named by a string literal, any other one by the word of its event. -/

/-- The lexeme of what a handler names. -/
def eventLexeme (h : EventHead) : Symbol :=
  match Text.filled h.filter with
  | some filter => (.string, Text.Quoted.write filter)
  | none => (.word, h.event)

/-- A filter that says something is written as a literal; without one the word of the event is written. -/
theorem Render.eventName_eq (h : EventHead) :
    Render.eventName h = match Text.filled h.filter with
      | some filter => Text.Quoted.write filter
      | none => h.event := by
  unfold Render.eventName Text.filled
  cases h.filter with
  | none => rfl
  | some f =>
      by_cases hf : f = ""
      · simp [hf, Option.filter]
      · simp [hf, Option.filter]

/-- The names of events are plain words. -/
theorem Catalog.isWord_event {name : String} (h : (event? name).isSome) :
    Text.isWord name.toList = true ∧ Piece.wordToken name.toList = .word := by
  have hall : ∀ e ∈ events, Text.isWord e.event.toList = true ∧ Piece.wordToken e.event.toList = .word := by
    decide
  obtain ⟨e, he⟩ := Option.isSome_iff_exists.mp h
  have hname : e.event = name := by simpa using List.find?_some he
  exact hname ▸ hall e (List.mem_of_find?_eq_some he)

/-- What a handler names is one lexeme. -/
theorem Spelled.eventName {h : EventHead} (hh : h.Legible) :
    Spelled 0 (Render.eventName h) [eventLexeme h] := by
  rw [Render.eventName_eq]
  unfold eventLexeme
  cases Text.filled h.filter with
  | some f => exact Spelled.quoted f
  | none =>
      obtain ⟨hword, htoken⟩ := Catalog.isWord_event hh.event
      intro rest us hrest hs
      have hspells := hs.word hword (hrest.takeWhile fun _ => isWordPart_of_isStop)
      rwa [htoken, String.ofList_toList] at hspells

/-- A handler that names this has the wanted head, less an empty message. -/
def NamesEvent (h : EventHead) (name : Option Surface.EventName) : Prop :=
  ∀ (d : Surface.Draft) (parameters : Option Surface.Parameters) (span : Span),
    d.pos = h.pos → Surface.parameterNames parameters = h.parameters →
    (d.eventHead name parameters span).clearMetadata =
      { h with filter := Text.filled h.filter }.clearMetadata

/-- What a handler names is read back: a literal is a filter of messages, and the word of an event is that event.
A handler of messages without a filter is written as a word too, and read back as an event. -/
theorem Reads.eventName {h : EventHead} (hh : h.Legible) {rest : List Symbol} :
    Reads Parse.eventName (eventLexeme h :: rest) rest (NamesEvent h) := by
  unfold Parse.eventName eventLexeme
  refine Reads.token?.bind ?_
  rintro _ rfl
  cases hf : Text.filled h.filter with
  | some f =>
      refine Reads.lexeme?.bind ?_
      rintro _ ⟨l, rfl, _, hl⟩
      refine .pure fun d parameters span hpos hparams => ?_
      have hsome : h.filter ≠ none := by
        intro hnone
        rw [hnone] at hf
        cases hf
      simp [Surface.Draft.eventHead, EventHead.clearMetadata, hl, Text.Quoted.value_write, hpos, hparams,
        hh.filter hsome, hf]
  | none =>
      refine Reads.lexeme?.bind ?_
      rintro _ ⟨l, rfl, _, hl⟩
      refine .pure fun d parameters span hpos hparams => ?_
      simp [Surface.Draft.eventHead, EventHead.clearMetadata, hl, hh.event, hpos, hparams, hf]

/-- **An event handler is read back** with the directive of its position, its name, its parameters and its block.
It is refused exactly if a name with arguments is assigned to in its body. -/
theorem itemized_event {s : Scope} {head : EventHead} {body : List Node} (hh : head.Legible)
    (hb : ∀ n ∈ body, Grammar.settled.Statement (s.push head.parameters) n) :
    ∃ ts, Itemized s (.event head body) ts := by
  obtain ⟨ts, hts⟩ := Grammar.Statement.blocked hb 1
  refine ⟨directiveLexemes "pos" head.pos ++ (Spelled.key .on :: ([eventLexeme head] ++
    Spelled.arguments (head.parameters.map Spelled.name) ++ blockLexemes ts) ++ [(.newline, "\n")]), ?_, ?_⟩
  · have hline : Spelled 0 ("on " ++ _) _ :=
      Spelled.lead .on rfl (Spelled.header head.parameters (Spelled.eventName hh) hts.lines)
    have htext : (Node.event head body).render s 0 looseCeiling = Render.directive "pos" head.pos ++
        ("on " ++ (Render.eventName head ++ Render.parameters head.parameters ++ " " ++
          blockText 0 (Node.statements (s.push head.parameters) 1 body)) ++ "\n") := by
      rw [← String.toList_inj]
      simp [Node.render, blockText]
    rw [htext]
    exact (Lines.pos hh.pos).append (.ofLine hline.line)
  · intro ok rest ns hrest
    have hok : (Node.event head body).Readable ↔ ∀ n ∈ body, n.Readable :=
      Node.everywhere_event.trans (and_iff_right rfl)
    have hview : directiveLexemes "pos" head.pos ++ (Spelled.key .on :: ([eventLexeme head] ++
        Spelled.arguments (head.parameters.map Spelled.name) ++ blockLexemes ts) ++ [(.newline, "\n")]) ++ rest =
        directiveLexemes "pos" head.pos ++ (Spelled.key .on :: eventLexeme head ::
          (Spelled.arguments (head.parameters.map Spelled.name) ++ (blockLexemes ts ++ (.newline, "\n") :: rest))) := by
      simp
    rw [hok, hview]
    refine ReadsItems.pos hh.pos (ReadsItems.adds rfl ?_ (by simp; omega) hrest)
    unfold eventItem
    refine Reads.start.bind_readsIf fun first _ => Reads.advance.bind_readsIf fun _ _ => ?_
    refine (Reads.eventName hh).bind_readsIf fun name hname => ?_
    refine (Reads.parameters head.parameters (by simp [blockLexemes])).bind_readsIf fun params hparams => ?_
    refine hts.readsIf_afterHeader.bind_reads fun blk hblk => Reads.spanFrom.bind fun span _ => .pure ?_
    intro d hd
    have hhead := hname d params span hd.pos hparams
    refine ⟨_, .event (d.eventHead name params span) blk.nodes, rfl, hd.place _, ?_⟩
    rw [Node.readBack, Node.readBackAll_eq_map]
    exact .event hhead hblk

/-! ### Declarations and blocks

A declaration may have two directives before it and a block only one. -/

/-- **A declared instruction is read back** with its two directives, its name, its parameters and its block. Both
directives are noted when the declaration comes, and it takes both. -/
theorem itemized_instructionDeclaration {s : Scope} {head : DeclarationHead} {body : List Node}
    (hh : head.Legible) (hb : ∀ n ∈ body, Grammar.settled.Statement (s.push head.parameters) n) :
    ∃ ts, Itemized s (.instructionDeclaration head body) ts := by
  obtain ⟨ts, hts⟩ := Grammar.Statement.blocked hb 1
  refine ⟨directiveLexemes "pos" head.pos ++ directiveLexemes "fmt" head.callFormat ++ (Spelled.key .def_ ::
    (Spelled.name head.name ++ Spelled.arguments (head.parameters.map Spelled.name) ++ blockLexemes ts) ++
      [(.newline, "\n")]), ?_, ?_⟩
  · have hline : Spelled 0 ("def " ++ _) _ :=
      Spelled.lead .def_ rfl (Spelled.header head.parameters (Spelled.renderName head.name) hts.lines)
    have htext : (Node.instructionDeclaration head body).render s 0 looseCeiling =
        Render.directive "pos" head.pos ++ Render.directive "fmt" head.callFormat ++
        ("def " ++ (Render.name head.name ++ Render.parameters head.parameters ++ " " ++
          blockText 0 (Node.statements (s.push head.parameters) 1 body)) ++ "\n") := by
      rw [← String.toList_inj]
      simp [Node.render, blockText]
    rw [htext]
    exact ((Lines.pos hh.pos).append (Lines.fmt hh.callFormat)).append (.ofLine hline.line)
  · intro ok rest ns hrest
    have hok : (Node.instructionDeclaration head body).Readable ↔ ∀ n ∈ body, n.Readable :=
      Node.everywhere_instructionDeclaration.trans (and_iff_right rfl)
    have hview : directiveLexemes "pos" head.pos ++ directiveLexemes "fmt" head.callFormat ++ (Spelled.key .def_ ::
        (Spelled.name head.name ++ Spelled.arguments (head.parameters.map Spelled.name) ++ blockLexemes ts) ++
          [(.newline, "\n")]) ++ rest =
        directiveLexemes "pos" head.pos ++ (directiveLexemes "fmt" head.callFormat ++ (Spelled.key .def_ ::
          (Spelled.name head.name ++ (Spelled.arguments (head.parameters.map Spelled.name) ++
            (blockLexemes ts ++ (.newline, "\n") :: rest))))) := by
      simp
    rw [hok, hview]
    refine ReadsItems.pos hh.pos (ReadsItems.fmt hh.callFormat 
      (ReadsItems.adds (p := instructionItem) ?_ ?_ (by simp; omega) hrest))
    · rcases headToken_name head.name (Spelled.arguments (head.parameters.map Spelled.name) ++
        (blockLexemes ts ++ (.newline, "\n") :: rest)) with h | h <;> rw [h] <;> rfl
    · unfold instructionItem
      refine Reads.start.bind_readsIf fun first _ => Reads.advance.bind_readsIf fun _ _ => ?_
      refine (Reads.declName head.name (headToken_parameters (by simp) (by simp [blockLexemes]))).bind_readsIf ?_
      rintro _ ⟨name, rfl, hname⟩
      refine (Reads.parameters head.parameters (by simp [blockLexemes])).bind_readsIf fun params hparams => ?_
      refine hts.readsIf_afterHeader.bind_reads fun blk hblk => Reads.spanFrom.bind fun span _ => .pure ?_
      intro d hd
      refine ⟨_, .instructionDeclaration (d.head (some name) params span) blk.nodes, rfl, .declare _ _, ?_⟩
      have hhead : (d.head (some name) params span).clearMetadata = head.clearMetadata := by
        simp [Surface.Draft.head, DeclarationHead.clearMetadata, Surface.declaredName, hname, hparams, hd.pos, hd.callFormat]
      rw [Node.readBack, Node.readBackAll_eq_map]
      exact .instructionDeclaration hhead hblk

/-- **A declared expression is read back** with its two directives, its name, its parameters and its value. It is
always read, since nothing is assigned to in an expression. -/
theorem itemized_expressionDeclaration {s : Scope} {head : DeclarationHead} {value : Node} (hh : head.Legible)
    (hv : Grammar.settled.Expression (s.push head.parameters) value) :
    ∃ ts, Itemized s (.expressionDeclaration head value) ts := by
  obtain ⟨ts, hts⟩ := hv.expressed looseCeiling (by decide)
  refine ⟨directiveLexemes "pos" head.pos ++ directiveLexemes "fmt" head.callFormat ++ (Spelled.key .def_ ::
    Spelled.key .expression :: (Spelled.name head.name ++ Spelled.arguments (head.parameters.map Spelled.name) ++
      (.colon, ":") :: ts) ++ [(.newline, "\n")]), ?_, ?_⟩
  · have hcolon : Spelled 0 (": " ++ value.render (s.push head.parameters) 0 looseCeiling) ((.colon, ":") :: ts) := by
      intro rest us hrest hs
      simpa using (hts.spelled 0 rest us hrest hs).space.colon
    have hname : Spelled 0 _ _ := Spelled.renderName head.name
    have hhead := hname.append (Spelled.parameters head.parameters) (Spelled.stops_parenthesized _)
    have hexpression : Spelled 0 ("expression " ++ _) _ :=
      Spelled.lead .expression rfl (hhead.append hcolon (by simp [Stops, isStop]))
    have hline : Spelled 0 ("def " ++ _) _ := Spelled.lead .def_ rfl hexpression
    have htext : (Node.expressionDeclaration head value).render s 0 looseCeiling =
        Render.directive "pos" head.pos ++ Render.directive "fmt" head.callFormat ++
        ("def " ++ ("expression " ++ (Render.name head.name ++ Render.parameters head.parameters ++
          (": " ++ value.render (s.push head.parameters) 0 looseCeiling))) ++ "\n") := by
      rw [← String.toList_inj]
      simp [Node.render]
    rw [htext]
    exact ((Lines.pos hh.pos).append (Lines.fmt hh.callFormat)).append (.ofLine hline.line)
  · intro ok rest ns hrest
    have hok : (Node.expressionDeclaration head value).Readable ∧ ok ↔ True ∧ ok :=
      and_congr_left' (iff_true_intro (Node.everywhere_expressionDeclaration.mpr ⟨rfl, hv.readable⟩))
    have hview : directiveLexemes "pos" head.pos ++ directiveLexemes "fmt" head.callFormat ++ (Spelled.key .def_ ::
        Spelled.key .expression :: (Spelled.name head.name ++ Spelled.arguments (head.parameters.map Spelled.name) ++
          (.colon, ":") :: ts) ++ [(.newline, "\n")]) ++ rest =
        directiveLexemes "pos" head.pos ++ (directiveLexemes "fmt" head.callFormat ++ (Spelled.key .def_ ::
          Spelled.key .expression :: (Spelled.name head.name ++
            (Spelled.arguments (head.parameters.map Spelled.name) ++
              (.colon, ":") :: (ts ++ (.newline, "\n") :: rest))))) := by
      simp
    rw [hok, hview]
    refine ReadsItems.pos hh.pos (ReadsItems.fmt hh.callFormat (ReadsItems.adds rfl ?_ (by simp; omega) hrest))
    refine Reads.readsIf ?_ trivial
    unfold expressionItem
    refine Reads.start.bind fun first _ => Reads.advance.bind fun _ _ => Reads.advance.bind fun _ _ => ?_
    refine (Reads.declName head.name (headToken_parameters (by simp) (by simp))).bind ?_
    rintro _ ⟨name, rfl, hname⟩
    refine (Reads.parameters head.parameters (by simp)).bind fun params hparams => ?_
    refine (Reads.expressionAfter (hts.whole.expression (Ends.cons fun l hl => by cases hl))).bind fun e he => ?_
    refine Reads.spanFrom.bind fun span _ => .pure ?_
    intro d hd
    refine ⟨_, .expressionDeclaration (d.head (some name) params span) e.node, rfl, .declare _ _, ?_⟩
    have hhead : (d.head (some name) params span).clearMetadata = head.clearMetadata := by
      simp [Surface.Draft.head, DeclarationHead.clearMetadata, Surface.declaredName, hname, hparams, hd.pos, hd.callFormat]
    exact .expressionDeclaration hhead he

/-- **Statements of their own are read back** with the directive of their position. They take no format, so one
that is noted would stay; but none is, since each item is written with its own directives. -/
theorem itemized_detached {s : Scope} {pos : Option String} {body : List Node} {loc : Option Span}
    (hp : LegibleValue pos) (hb : ∀ n ∈ body, Grammar.settled.Statement s n) :
    ∃ ts, Itemized s (.detached pos body loc) ts := by
  obtain ⟨ts, hts⟩ := Grammar.Statement.blocked hb 1
  refine ⟨directiveLexemes "pos" pos ++ (blockLexemes ts ++ [(.newline, "\n")]), ?_, ?_⟩
  · have htext : (Node.detached pos body loc).render s 0 looseCeiling =
        Render.directive "pos" pos ++ (blockText 0 (Node.statements s 1 body) ++ "\n") := by
      rw [← String.toList_inj]
      simp [Node.render, blockText]
    rw [htext]
    exact (Lines.pos hp).append (.ofLine (Spelled.block hts.lines 0).line)
  · intro ok rest ns hrest
    have hok : (Node.detached pos body loc).Readable ↔ ∀ n ∈ body, n.Readable :=
      Node.everywhere_detached.trans (and_iff_right rfl)
    have hview : directiveLexemes "pos" pos ++ (blockLexemes ts ++ [(.newline, "\n")]) ++ rest =
        directiveLexemes "pos" pos ++ (blockLexemes ts ++ (.newline, "\n") :: rest) := by
      simp
    rw [hok, hview]
    refine ReadsItems.pos hp (ReadsItems.adds rfl ?_ (by simp; omega) hrest)
    unfold blockItem
    refine hts.readsIf.bind_reads fun blk hblk => ?_
    rw [Node.readBack, Node.readBackAll_eq_map]
    cases blk with
    | braces statements span =>
        refine .pure fun d hd => ⟨_, .detached d.pos (Surface.statementNodes statements) (some span), rfl,
          hd.place _, ?_⟩
        rw [hd.pos]
        exact .detached hblk
    | missing =>
        refine Reads.start.bind fun first _ => Reads.spanFrom.bind fun span _ => .pure fun d hd =>
          ⟨_, .detached d.pos [] (some span), rfl, hd.place _, ?_⟩
        rw [hd.pos]
        exact .detached hblk

/-- Every settled item is read back, or refused if a name with arguments is assigned to in it. -/
theorem Grammar.Item.itemized {s : Scope} {n : Node} (h : Grammar.settled.Item s n) : ∃ ts, Itemized s n ts := by
  cases h with
  | event hh hb => exact itemized_event hh hb
  | instructionDeclaration hh hb => exact itemized_instructionDeclaration hh hb
  | expressionDeclaration hh hv => exact itemized_expressionDeclaration hh hv
  | detached hp hb => exact itemized_detached hp hb

/-- The items of a program, each behind a blank line. -/
theorem exists_itemized {s : Scope} {ns : List Node} (h : ∀ n ∈ ns, Grammar.settled.Item s n) :
    ∃ ts, Lines (Node.statements s 0 ns) ts ∧
      ReadsItems (∀ n ∈ ns, n.Readable) ts (Drafted s none none [] (ns.map Node.readBack)) := by
  induction ns with
  | nil =>
      refine ⟨[], Lines.empty, (ReadsItems.nil.congr (by simp)).mono ?_⟩
      rintro _ rfl
      exact .nil
  | cons n ns ih =>
      obtain ⟨ts, hts⟩ := (h n List.mem_cons_self).itemized
      obtain ⟨us, hlines, hreads⟩ := ih fun m hm => h m (List.mem_cons_of_mem _ hm)
      refine ⟨(.newline, "\n") :: (ts ++ us), ?_, ?_⟩
      · have htext : Node.statements s 0 (n :: ns) =
            "\n" ++ (n.render s 0 looseCeiling ++ Node.statements s 0 ns) := by
          simp [Node.statements, Text.indent, String.append_assoc]
        rw [htext]
        exact (hts.lines.append hlines).newline
      · exact ((hts.reads _ _ _ hreads).newline).congr (by simp)

/-! ## Variables

Each variable is on a line of its own, and the next one follows without a blank line. -/

/-- The lexemes of a declared variable. -/
def variableLexemes (d : VariableDeclaration) : List Symbol :=
  Spelled.key (match d.kind with | .value => .var | .list => .list) :: Spelled.name d.name

theorem Spelled.variableDeclaration (d : VariableDeclaration) :
    Spelled 0 (Render.variableDeclaration d) (variableLexemes d) := by
  unfold Render.variableDeclaration variableLexemes
  cases d.kind with
  | value => exact Spelled.lead .var rfl (Spelled.renderName d.name)
  | list => exact Spelled.lead .list rfl (Spelled.renderName d.name)

/-- The lines of declared variables, each with its line end. -/
theorem Lines.variables (vars : List VariableDeclaration) :
    Lines (String.join (vars.map fun d => Render.variableDeclaration d ++ "\n"))
      (vars.flatMap fun d => variableLexemes d ++ [(.newline, "\n")]) := by
  induction vars with
  | nil => exact Lines.empty
  | cons d vars ih =>
      rw [List.map_cons, String.join_cons, List.flatMap_cons]
      exact (Lines.ofLine (Spelled.variableDeclaration d).line).append ih

/-- The lines of declared variables are read back in order, before the items. The induction is over the
variables. -/
theorem ReadsItems.variables {ok : Prop} {rest : List Symbol} {s : Scope} {ns : List Node}
    (vars : List VariableDeclaration) (h : ReadsItems ok rest (Drafted s none none [] ns)) :
    ReadsItems ok ((vars.flatMap fun d => variableLexemes d ++ [(.newline, "\n")]) ++ rest)
      (Drafted s none none vars ns) := by
  induction vars with
  | nil => exact h
  | cons d vars ih =>
      have hitem : ∀ (us : List Symbol) (isList : Bool) (k : Keyword),
          Reads (varItem isList) (Spelled.key k :: (Spelled.name d.name ++ (.newline, "\n") :: us))
            ((.newline, "\n") :: us)
            fun x => ∃ name span, x = .var isList name span ∧ Surface.declaredName name = d.name := by
        intro us isList k
        unfold varItem
        refine Reads.start.bind fun first _ => Reads.advance.bind fun _ _ => ?_
        refine (Reads.declName d.name (by simp)).bind ?_
        rintro _ ⟨name, rfl, hname⟩
        exact Reads.spanFrom.bind fun span _ => .pure ⟨_, span, rfl, hname⟩
      rw [List.flatMap_cons, variableLexemes, List.cons_append, List.cons_append, List.cons_append,
        List.append_assoc, List.append_assoc, List.singleton_append]
      cases hkind : d.kind with
      | value =>
          refine (item_reads rfl (hitem _ false .var) (by simp; omega) ih).mono ?_
          rintro _ ⟨_, xs, rfl, ⟨name, span, rfl, hname⟩, hxs⟩
          exact .var hname hkind.symm hxs
      | list =>
          refine (item_reads rfl (hitem _ true .list) (by simp; omega) ih).mono ?_
          rintro _ ⟨_, xs, rfl, ⟨name, span, rfl, hname⟩, hxs⟩
          exact .var hname hkind.symm hxs

/-! ## Programs -/

/-- What a text is read as, if all of its items are read. -/
theorem treeOfText_of_items {ok : Prop} {text : String} {ts : List Symbol}
    {R : List Surface.Item → Prop} (hlines : Lines text ts) (hitems : ReadsItems ok ts R) :
    (ok → (treeOfText text).problems = [] ∧ ∃ xs, R xs ∧ (treeOfText text).result = (⟨xs⟩ : Surface.Program).node) ∧
      (¬ ok → (treeOfText text).problems ≠ []) := by
  have hspells : Spells 0 text.toList ts := by simpa using hlines [] [] Spells.nil
  obtain ⟨hlexemes, hproblems⟩ := hspells.lexing
  have hprogram : ReadsIf ok Parse.program ts [] fun p => R p.items := by
    unfold Parse.program
    refine Reads.remaining.bind_readsIf ?_
    rintro _ rfl
    exact (hitems _ (le_refl _)).bind_reads fun xs hxs => .pure hxs
  have htree : treeOfText text = ⟨(Surface.Program.ofLexemes (Lexing.ofText text).lexemes).value.node,
      (Surface.Program.ofLexemes (Lexing.ofText text).lexemes).problems⟩ := by
    show (⟨_, (Lexing.ofText text).problems ++ _⟩ : Outcome Node) = _
    rw [show (Lexing.ofText text).problems = [] from hproblems, List.nil_append]
  rw [htree]
  constructor
  · intro hok
    obtain ⟨hnone, _, hR⟩ := hprogram.reads hok (.ofLexemes _) hlexemes
    exact ⟨hnone, _, hR, rfl⟩
  · intro hok
    exact hprogram.refuses hok (.ofLexemes _) hlexemes

/-- The text of a settled program is read as a program with the same name and variables, whose items come to the
same as those that were written, each as its text stands for it. -/
theorem treeOfText_render {name : String} {vars : List VariableDeclaration} {body : List Node} {loc : Option Span}
    (h : ∀ n ∈ body, Grammar.settled.Item (Grammar.scopeOf vars body) n) :
    ((∀ n ∈ body, n.Readable) →
      (treeOfText ((Node.program name vars body loc).render (Grammar.scopeOf vars body) 0 looseCeiling)).problems = [] ∧
      ∃ vars' body',
        (treeOfText ((Node.program name vars body loc).render (Grammar.scopeOf vars body) 0 looseCeiling)).result =
          .program name vars' body' none ∧
        vars'.map VariableDeclaration.clearMetadata = vars.map VariableDeclaration.clearMetadata ∧
        List.Forall₂ (Node.Same (Grammar.scopeOf vars body)) body' (body.map Node.readBack)) ∧
    (¬ (∀ n ∈ body, n.Readable) →
      (treeOfText ((Node.program name vars body loc).render (Grammar.scopeOf vars body) 0 looseCeiling)).problems ≠
        []) := by
  obtain ⟨ts, hlines, hreads⟩ := exists_itemized h
  have hjoin : String.join (vars.map fun d => "\n" ++ Render.variableDeclaration d) ++ "\n" =
      "\n" ++ String.join (vars.map fun d => Render.variableDeclaration d ++ "\n") := by
    clear h hreads hlines
    induction vars with
    | nil => rfl
    | cons d vars ih =>
        rw [List.map_cons, List.map_cons, String.join_cons, String.join_cons, String.append_assoc, ih,
          String.append_assoc, String.append_assoc]
  have htext : (Node.program name vars body loc).render (Grammar.scopeOf vars body) 0 looseCeiling =
      "#" ++ "program" ++ " " ++ Text.Quoted.write name ++ "\n" ++
        ("\n" ++ String.join (vars.map fun d => Render.variableDeclaration d ++ "\n") ++
          Node.statements (Grammar.scopeOf vars body) 0 body) := by
    rw [← hjoin, ← String.toList_inj]
    simp [Node.render]
  have hall := (ReadsItems.variables vars hreads).newline (w := "\n") |>.directiveLine "program" name
  obtain ⟨hyes, hno⟩ := treeOfText_of_items
    ((Lines.directiveLine (by decide) (by decide) name).append ((Lines.variables vars).newline.append hlines)) hall
  rw [htext]
  refine ⟨fun hok => ?_, hno⟩
  obtain ⟨hnone, _, ⟨_, xs, rfl, ⟨literal, span, rfl, hvalue⟩, hxs⟩, htree⟩ := hyes hok
  obtain ⟨directives, vars', body', hfold, hvars, hbody⟩ := hxs { name := name } ⟨rfl, rfl⟩
  refine ⟨hnone, vars', body', ?_, hvars, hbody⟩
  rw [htree, Surface.Program.node, List.foldl_cons, Surface.Draft.add]
  have hname : ({} : Surface.Draft).direct "program" ((some literal).map Text.Quoted.value) = { name := name } := by
    simp [Surface.Draft.direct, hvalue]
  rw [hname, hfold]
  simp

end FlightScript
