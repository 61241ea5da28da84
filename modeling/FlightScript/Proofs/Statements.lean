import FlightScript.Proofs.Blocks

/-!
# `Proofs.Statements` — written statements read back

Each kind of statement, written on its line, is read back as a statement that comes to the same, and a statement
whose text cannot be read back is refused.

## Contents

* one lemma for each kind of statement;
* `Grammar.Statement.stated`, all of them.
-/

namespace FlightScript

open Parse

/-! ## Dispatch on the first token

Which statement is read is told by the first lexeme alone, so each kind is looked at with its own reading. -/

section Dispatch

variable {block : Parse Surface.Block} {t : Token} {w : String} {us vs : List Symbol}
  {Q : Option Surface.Statement → Prop}

/-- A statement that begins with a name. -/
theorem Reads.statement_named (ht : t.startsName = true) (h : Reads namedStatement ((t, w) :: us) vs Q) :
    Reads (statement block) ((t, w) :: us) vs Q := by
  unfold statement
  refine Reads.cursor.bind fun c hc => ?_
  rw [c.token?_eq, hc, headToken_cons]
  cases t with
  | word => exact h
  | keyword k => cases k <;> first | exact h | cases ht
  | _ => cases ht

/-- If what begins with a name is refused as such a statement then it is refused. -/
theorem Refuses.statement_named (ht : t.startsName = true) (h : Refuses namedStatement ((t, w) :: us)) :
    Refuses (statement block) ((t, w) :: us) := by
  unfold statement
  refine Reads.cursor.bind_refuses fun c hc => ?_
  rw [c.token?_eq, hc, headToken_cons]
  cases t with
  | word => exact h
  | keyword k => cases k <;> first | exact h | cases ht
  | _ => cases ht

theorem Token.startsStatement_of_startsName (ht : t.startsName = true) : t.startsStatement = true := by
  cases t with
  | word => rfl
  | keyword k => cases k <;> first | rfl | cases ht
  | _ => cases ht

/-- The statements that a keyword of their own begins. -/
def headedStatement : Keyword → Option (Parse Surface.Block → Parse Surface.Statement)
  | .if_ => some branch
  | .while_ => some fun block => loop block .whileLoop
  | .repeat_ => some fun block => loop block .repeatLoop
  | .for_ => some forLoop
  | .wait => some fun _ => waitStatement
  | _ => none

/-- A statement with a keyword of its own is read by the reading of its kind. -/
theorem Reads.statement_headed {k : Keyword} {p : Parse Surface.Block → Parse Surface.Statement}
    {P : Node → Prop} (hk : headedStatement k = some p)
    (h : Reads (p block) (Spelled.key k :: us) vs fun x => P x.node) :
    Reads (statement block) (Spelled.key k :: us) vs (SomeStatement P) := by
  unfold statement
  refine Reads.cursor.bind fun c hc => ?_
  rw [c.token?_eq, hc]
  cases k <;> cases hk <;> exact h.map fun x hx => ⟨x, rfl, hx⟩

theorem Refuses.statement_headed {k : Keyword} {p : Parse Surface.Block → Parse Surface.Statement}
    (hk : headedStatement k = some p) (h : Refuses (p block) (Spelled.key k :: us)) :
    Refuses (statement block) (Spelled.key k :: us) := by
  unfold statement
  refine Reads.cursor.bind_refuses fun c hc => ?_
  rw [c.token?_eq, hc]
  cases k <;> cases hk <;> exact h.map

end Dispatch

/-! ## Instructions

An instruction with one argument is written without parentheses, which makes a parenthesis behind its name
ambiguous. The reading tries a list first, and it has to be shown which of the two it comes to. -/

theorem Render.instruction_append (u : Use InstructionKind) (call : String) :
    Render.instruction u call = Render.instruction u "" ++ call := by
  unfold Render.instruction
  split <;> simp

/-- The lexemes of the arguments of an instruction: a single one needs no parentheses. -/
def callLexemes : List (List Symbol) → List Symbol
  | [] => []
  | [ts] => ts
  | tss => Spelled.arguments tss

section Instructions

variable {s : Scope} {args : List Node} {tss : List (List Symbol)}
  {rest : List Symbol}

/-- An expression begins with a token that no statement ends before. -/
theorem Token.endsStatement_of_startsExpression {t : Token} (h : t.startsExpression = true) :
    t.endsStatement = false := by
  cases t <;> first | rfl | cases h

/-- A single argument, also where it begins with a parenthesis of its own. -/
theorem Reads.instructionArguments_single {a : Node} {ts : List Symbol}
    (h : Expressed s looseCeiling a ts) (hend : LineEnd rest) :
    Reads instructionArguments (ts ++ rest) rest fun as => List.Forall₂ (Node.Same s) as.nodes [a] := by
  have hsingle : Reads singleArgument (ts ++ rest) rest
      fun as => List.Forall₂ (Node.Same s) as.nodes [a] := by
    unfold singleArgument
    refine (h.whole.expression (hend.ends 10)).bind ?_
    rintro _ ⟨e, rfl, he⟩
    exact .pure (.cons he .nil)
  obtain ⟨t, hhead, hstart⟩ := h.starts.headToken rest
  unfold instructionArguments
  refine Reads.cursor.bind fun c hc => ?_
  have hnot : c.atStatementEnd = false := by
    rw [c.atStatementEnd_eq (by rw [hc]; exact hhead), Token.endsStatement_of_startsExpression hstart]
  rw [if_neg (by simp [hnot]), c.isAt_eq, hc, hhead]
  split
  · rename_i hparen
    -- the parenthesis closes before the end, and behind it stands an operator
    have hparen : headToken ts = some .leftParen := by
      obtain ⟨t', w', us, rfl, _⟩ := h.starts
      simp only [List.cons_append, headToken_cons] at hhead
      rw [headToken_cons, hhead]
      simpa using hparen
    obtain ⟨is, us, rfl, his, histart, hus, hop⟩ := h.opens hparen
    have hus : us ≠ [] := fun hnil => absurd (hus hnil) (by decide)
    obtain ⟨⟨t', w'⟩, us', rfl⟩ := List.exists_cons_of_ne_nil hus
    have hlist : ReadsAll (fun _ (_ : Unit) => True) [is] [()] := .cons ⟨his, histart⟩ .nil
    have hfirst : Reads (do
        let items ← Parse.argumentList
        Pure.pure (items.map Surface.Arguments.list)) (Spelled.arguments [is] ++ (t', w') :: us' ++ rest)
        ((t', w') :: us' ++ rest) fun _ => True := by
      rw [List.append_assoc]
      exact (Reads.argumentList hlist (by simp)).bind fun _ _ => .pure trivial
    have hop' : t'.endsStatement = false := by
      have hlevel := hop t' rfl
      cases t' <;> first | rfl | cases hlevel
    intro c' hc'
    rw [firstClean_right hfirst rfl hop' hc']
    exact hsingle c' hc'
  · exact hsingle

/-- Several arguments in parentheses. -/
theorem Reads.instructionArguments_list (h : ReadsAll (Node.Same s) tss args) (hne : tss ≠ [])
    (hend : LineEnd rest) :
    Reads instructionArguments (Spelled.arguments tss ++ rest) rest
      fun as => List.Forall₂ (Node.Same s) as.nodes args := by
  unfold instructionArguments
  refine Reads.cursor.bind fun c hc => ?_
  have hhead : headToken (Spelled.arguments tss ++ rest) = some .leftParen := by
    rw [arguments_append hne, headToken_cons]
  have hnot : c.atStatementEnd = false := c.atStatementEnd_eq (t := .leftParen) (by rw [hc]; exact hhead)
  rw [if_neg (by simp [hnot]), c.isAt_eq, hc, hhead, if_pos (by simp)]
  refine Reads.firstClean_left ?_ hend.atEnd
  refine (Reads.argumentList h hne).bind ?_
  rintro _ ⟨es, rfl, hes⟩
  refine .pure ⟨.list es, rfl, ?_⟩
  simpa [Surface.Arguments.nodes] using hes

theorem Reads.instructionArguments_none (hend : LineEnd rest) :
    Reads instructionArguments rest rest fun as => as.nodes = [] := by
  unfold instructionArguments
  refine Reads.cursor.bind fun c hc => ?_
  have hat : c.atStatementEnd = true := c.atStatementEnd_eq (t := .newline) (by rw [hc]; exact hend.headToken)
  rw [if_pos hat]
  exact .pure rfl

/-- The arguments of an instruction are read back from the lexemes of the call: none, a single expression without
parentheses, or a list with them. -/
theorem Reads.instructionArguments (h : List.Forall₂ (Expressed s looseCeiling) args tss)
    (hend : LineEnd rest) :
    Reads Parse.instructionArguments (callLexemes tss ++ rest) rest
      fun as => List.Forall₂ (Node.Same s) as.nodes args := by
  cases h with
  | nil =>
      refine (Reads.instructionArguments_none hend).mono fun as has => ?_
      rw [has]
      exact .nil
  | cons ha hs =>
      cases hs with
      | nil => exact .instructionArguments_single ha hend
      | cons hb hs => exact .instructionArguments_list (Expressed.readsAll (.cons ha (.cons hb hs))) (by simp) hend

/-- The text of a call has these lexemes, in each of its three forms. -/
theorem Spelled.call (h : List.Forall₂ (Expressed s looseCeiling) args tss) :
    Spelled 0 (match Node.items s args with
      | [] => ""
      | [item] => " " ++ item
      | several => Render.parenthesized several) (callLexemes tss) ∧
    Stops (match Node.items s args with
      | [] => ""
      | [item] => " " ++ item
      | several => Render.parenthesized several).toList := by
  have hspelled := fun depth => Expressed.spelled_all h depth
  rw [Node.items_eq_map] at hspelled ⊢
  cases h with
  | nil => exact ⟨.empty, .nil⟩
  | cons ha hs =>
      cases hs with
      | nil => exact ⟨(ha.spelled 0).space, Spelled.stops_space _⟩
      | cons hb hs => exact ⟨.parenthesized (hspelled 1), Spelled.stops_parenthesized _⟩

end Instructions

section Kinds

variable {s : Scope} {depth : Nat}

/-- An instruction is read back from its line. Its name is settled in the scope, so it is resolved to the same
instruction again. -/
theorem stated_instruction {u : Use InstructionKind} {args : List Node} (hu : s.SettlesInstruction u)
    (ha : ∀ a ∈ args, Grammar.settled.Expression s a) :
    ∃ ts, Stated s depth (.instruction u args) ts := by
  obtain ⟨tss, htss⟩ := exists_forall₂ fun a m => (ha a m).expressed looseCeiling (by decide)
  obtain ⟨t, w, us, hspelled, hstart, hreads⟩ := hu.writes
  have hreadable : (Node.instruction u args).Readable :=
    Node.everywhere_instruction.mpr ⟨rfl, fun a m => (ha a m).readable⟩
  refine ⟨(t, w) :: us ++ callLexemes tss, .ofReading ?_
    ⟨t, w, _, rfl, Token.startsStatement_of_startsName hstart⟩ nofun ?_ fun h => absurd hreadable h⟩
  · rw [Node.render, Render.instruction_append]
    exact ((hspelled 0).append (Spelled.call htss).1 (Spelled.call htss).2).line
  · intro _ b rest hend _
    rw [List.append_assoc]
    refine .statement_named hstart ?_
    show Reads namedStatement ((t, w) :: us ++ (callLexemes tss ++ rest)) rest _
    -- what follows the name begins neither a longer name nor an assignment
    obtain ⟨hdot, hassign, hplus⟩ : headToken (callLexemes tss ++ rest) ≠ some .dot ∧
        headToken (callLexemes tss ++ rest) ≠ some .assign ∧
        headToken (callLexemes tss ++ rest) ≠ some .plusAssign := by
      cases htss with
      | nil => simp [callLexemes, hend.headToken]
      | cons hx hs =>
          cases hs with
          | nil => exact ⟨hx.starts.ne rfl _, hx.starts.ne rfl _, hx.starts.ne rfl _⟩
          | cons hb hs => simp [callLexemes, Spelled.arguments]
    unfold namedStatement
    refine Reads.start.bind fun first _ => (hreads _ hdot).bind ?_
    rintro _ ⟨r, rfl, hr⟩
    refine Reads.cursor.bind fun c hc => ?_
    rw [if_neg (by simp [c.isAt_eq, hc, hassign, hplus])]
    refine (Reads.instructionArguments htss hend).bind fun as has => Reads.spanFrom.bind fun span _ => ?_
    exact .pure ⟨_, rfl, .instruction hu.known (hr span) has⟩

theorem stated_breakLoop {loc : Option Span} : ∃ ts, Stated s depth (.breakLoop loc) ts := by
  have hreadable : (Node.breakLoop loc).Readable := Node.everywhere_breakLoop.mpr rfl
  refine ⟨[Spelled.key .break_], .ofReading (Spelled.keyword .break_).line ⟨_, _, _, rfl, rfl⟩ nofun ?_
    fun h => absurd hreadable h⟩
  intro _ b rest _ _
  unfold statement
  refine Reads.cursor.bind fun c hc => ?_
  rw [c.token?_eq, hc]
  exact Reads.advance.bind fun _ _ => .pure ⟨_, rfl, .breakLoop⟩

/-- A comment is read back if its words are such as a text can spell. It ends its line, so it is spelt only
before a line end. -/
theorem stated_comment {text : String} {loc : Option Span} (h : LegibleComment text) :
    ∃ ts, Stated s depth (.comment text loc) ts := by
  have hreadable : (Node.comment text loc).Readable := Node.everywhere_comment.mpr rfl
  have htext : Surface.commentText ("// " ++ text) = text := by
    have hdrop : ("// " ++ text).toList.drop 2 = ' ' :: text.toList := by simp
    have hblank : Text.isBlank ' ' = true := by decide
    rw [Surface.commentText, hdrop, Text.trimStart, List.dropWhile_cons_of_pos hblank]
    have htrim : text.toList.dropWhile Text.isBlank = text.toList := h.2
    rw [htrim, String.ofList_toList]
  refine ⟨[(.comment, "// " ++ text)], .comment h.1, ⟨_, rfl, .inr rfl⟩, ?_, fun h => absurd hreadable h, ?_,
    fun h => by cases h⟩
  · intro _ b m rest vs R _ _ hmore
    exact Reads.statements_comment hmore fun span => htext.symm ▸ .comment
  · intro _ b m rest _ _ hmore
    exact Refuses.statements_comment hmore

/-! ## Waits

A wait of no seconds is written as the bare word. -/

/-- An expression that was read is never left out. -/
theorem Surface.Expression.nodeOr_eq {e : Surface.Expression} {n : Node} {value : String}
    (h : Node.Same s e.node n) (hn : Grammar.settled.Expression s n) : e.nodeOr value = e.node := by
  cases e with
  | missing =>
      have hresolve := h.resolve
      cases hn <;> cases hresolve
  | _ => rfl

section Waits

variable {condition : Node} {loc : Option Span}

/-- A wait for a condition is read back. -/
theorem stated_waitUntil (hc : Grammar.settled.Expression s condition) :
    ∃ ts, Stated s depth (.wait .condition condition loc) ts := by
  have hreadable : (Node.wait .condition condition loc).Readable := Node.everywhere_wait.mpr ⟨rfl, hc.readable⟩
  obtain ⟨ts, hts⟩ := hc.expressed looseCeiling (by decide)
  refine ⟨Spelled.key .wait :: Spelled.key .until_ :: ts, .ofReading ?_ ⟨_, _, _, rfl, rfl⟩ (by simp [Node.isIfElse]) ?_
    fun h => absurd hreadable h⟩
  · have htext : (Node.wait .condition condition loc).render s depth looseCeiling =
        "wait " ++ ("until " ++ condition.render s 0 looseCeiling) := by
      rw [Node.render, ← String.append_assoc]
      rfl
    rw [htext]
    exact (Spelled.lead .wait rfl (.lead .until_ rfl (hts.spelled 0))).line
  · intro _ b rest hend _
    refine .statement_headed (k := .wait) rfl ?_
    unfold waitStatement
    refine Reads.start.bind fun first _ => Reads.advance.bind fun _ _ => Reads.eat.bind ?_
    rintro _ ⟨l, rfl, _⟩
    refine Reads.cursor.bind fun c _ => (hts.whole.expression (hend.ends 10)).bind ?_
    rintro _ ⟨e, rfl, he⟩
    refine Reads.spanFrom.bind fun span _ => .pure ?_
    simp only [Surface.Statement.node, orMissing, Option.getD_some, Surface.Expression.nodeOr_eq he hc]
    exact he.wait

/-- The default is not written, and stands for the number. -/
theorem stated_waitAlone (hc : Grammar.settled.Expression s condition) (hzero : condition.isConstant "0" = true) :
    ∃ ts, Stated s depth (.wait .seconds condition loc) ts := by
  have hreadable : (Node.wait .seconds condition loc).Readable := Node.everywhere_wait.mpr ⟨rfl, hc.readable⟩
  have hback : (Node.wait .seconds condition loc).readBack = .wait .seconds (.number "0") loc := by
    simp [Node.readBack, Node.orNumber, hzero]
  refine ⟨[Spelled.key .wait], .ofReading ?_ ⟨_, _, _, rfl, rfl⟩ (by simp [Node.isIfElse]) ?_ fun h => absurd hreadable h⟩
  · have htext : (Node.wait .seconds condition loc).render s depth looseCeiling = "wait" := by
      simp [Node.render, hzero]
    rw [htext]
    exact (Spelled.keyword .wait).line
  · intro _ b rest hend _
    rw [hback]
    refine .statement_headed (k := .wait) rfl ?_
    unfold waitStatement
    refine Reads.start.bind fun first _ => Reads.advance.bind fun _ _ => ?_
    have huntil : headToken rest ≠ some (.keyword .until_) := by rw [hend.headToken]; decide
    refine (Reads.eat_none huntil).bind ?_
    rintro _ rfl
    refine Reads.cursor.bind fun c hc' => ?_
    have hat : c.atStatementEnd = true :=
      c.atStatementEnd_eq (t := .newline) (by rw [hc']; exact hend.headToken)
    rw [if_pos (by simp [hat])]
    refine (Reads.pure (Q := (· = none)) rfl).bind ?_
    rintro _ rfl
    exact Reads.spanFrom.bind fun span _ => .pure Node.Same.constant.wait

/-- A wait for a time is read back, if the time is written at all. -/
theorem stated_waitFor (hc : Grammar.settled.Expression s condition) (hzero : ¬ condition.isConstant "0" = true) :
    ∃ ts, Stated s depth (.wait .seconds condition loc) ts := by
  have hreadable : (Node.wait .seconds condition loc).Readable := Node.everywhere_wait.mpr ⟨rfl, hc.readable⟩
  have hback : (Node.wait .seconds condition loc).readBack = .wait .seconds condition loc := by
    simp [Node.readBack, Node.orNumber, hzero]
  obtain ⟨ts, hts⟩ := hc.expressed looseCeiling (by decide)
  refine ⟨Spelled.key .wait :: ts, .ofReading ?_ ⟨_, _, _, rfl, rfl⟩ (by simp [Node.isIfElse]) ?_ fun h => absurd hreadable h⟩
  · have htext : (Node.wait .seconds condition loc).render s depth looseCeiling =
        "wait " ++ condition.render s 0 looseCeiling := by
      simp [Node.render, hzero]
    rw [htext]
    exact (Spelled.lead .wait rfl (hts.spelled 0)).line
  · intro _ b rest hend _
    rw [hback]
    refine .statement_headed (k := .wait) rfl ?_
    unfold waitStatement
    refine Reads.start.bind fun first _ => Reads.advance.bind fun _ _ => ?_
    refine (Reads.eat_none (hts.starts.ne rfl rest)).bind ?_
    rintro _ rfl
    refine Reads.cursor.bind fun c hc' => ?_
    obtain ⟨t, hhead, hstart⟩ := hts.starts.headToken rest
    have hat : c.atStatementEnd = false := by
      rw [c.atStatementEnd_eq (by rw [hc']; exact hhead), Token.endsStatement_of_startsExpression hstart]
    rw [if_neg (by simp [hat])]
    refine (hts.whole.expression (hend.ends 10)).bind ?_
    rintro _ ⟨e, rfl, he⟩
    refine Reads.spanFrom.bind fun span _ => .pure ?_
    simp only [Surface.Statement.node, orMissing, Option.getD_some, Surface.Expression.nodeOr_eq he hc]
    exact he.wait

/-- Every wait is read back: one for a condition, one for a time that is written, and one for no time. -/
theorem stated_wait {kind : WaitKind} (hc : Grammar.settled.Expression s condition) :
    ∃ ts, Stated s depth (.wait kind condition loc) ts := by
  cases kind with
  | condition => exact stated_waitUntil hc
  | seconds =>
      by_cases hzero : condition.isConstant "0" = true
      · exact stated_waitAlone hc hzero
      · exact stated_waitFor hc hzero

end Waits

/-! ## Loops

A block stands behind a header, and its statements are read back one level further in. -/

theorem ends_leftBrace {k : Nat} {w : String} {us : List Symbol} :
    Ends k ((.leftBrace, w) :: us) := Ends.cons fun l hl => by cases hl

/-- The text of a statement with a keyword, an expression and a block. -/
theorem Spelled.headed {k : Keyword} {c : String} {ts us : List Symbol} {body : List Node}
    (hc : Spelled 0 c ts) (hb : Blocked s (depth + 1) body us) {lead : String} (hlead : lead = k.text ++ " ") :
    Spelled 0 (lead ++ c ++ " \x7b" ++ Node.statements s (depth + 1) body ++ "\n" ++ Text.indent depth ++ "\x7d")
      (Spelled.key k :: ts ++ blockLexemes us) := by
  have htext : lead ++ c ++ " \x7b" ++ Node.statements s (depth + 1) body ++ "\n" ++ Text.indent depth ++
      "\x7d" = lead ++ (c ++ " " ++ blockText depth (Node.statements s (depth + 1) body)) := by
    rw [← String.toList_inj]
    simp [blockText]
  rw [htext]
  exact Spelled.lead k hlead (hc.spaced (.block hb.lines depth))

/-- A loop with an expression before its block. -/
theorem stated_loop {k : Keyword} {make : Surface.Expression → Surface.Block → Span → Surface.Statement}
    {n condition : Node} {body : List Node} (hk : headedStatement k = some fun block => loop block make)
    (hrender : n.render s depth looseCeiling = k.text ++ " " ++ condition.render s 0 looseCeiling ++ " \x7b" ++
      Node.statements s (depth + 1) body ++ "\n" ++ Text.indent depth ++ "\x7d")
    (hif : n.isIfElse = false) (hok : n.Readable ↔ ∀ m ∈ body, m.Readable)
    (hnode : ∀ e blk span, Node.Same s e.node condition →
      List.Forall₂ (Node.Same s) blk.nodes (body.map Node.readBack) →
      Node.Same s (make e blk span).node n.readBack)
    (hc : Grammar.settled.Expression s condition) (hb : ∃ us, Blocked s (depth + 1) body us) :
    ∃ ts, Stated s depth n ts := by
  obtain ⟨ts, hts⟩ := hc.expressed looseCeiling (by decide)
  obtain ⟨us, hus⟩ := hb
  have hview : ∀ rest, Spelled.key k :: ts ++ blockLexemes us ++ rest =
      Spelled.key k :: (ts ++ (blockLexemes us ++ rest)) := by simp
  have hstart : (Token.keyword k).startsStatement = true := by cases k <;> first | rfl | cases hk
  refine ⟨Spelled.key k :: ts ++ blockLexemes us, .ofReading ?_ ⟨_, _, _, rfl, hstart⟩ (by simp [hif]) ?_ ?_⟩
  · rw [hrender]
    exact (Spelled.headed (hts.spelled 0) hus rfl).line
  -- the header is read in any case, so the block decides whether the loop is read
  · intro hreadable b rest _ hlen
    rw [hview] at hlen ⊢
    refine .statement_headed hk ?_
    unfold loop
    refine Reads.start.bind fun first _ => Reads.advance.bind fun _ _ => ?_
    refine (hts.whole.expression ends_leftBrace).bind ?_
    rintro _ ⟨e, rfl, he⟩
    refine (Reads.blockAfterHeader (hus.reads (hok.mp hreadable) b rest (by simp at hlen ⊢; omega))).bind
      fun blk hblk => ?_
    exact Reads.spanFrom.bind fun span _ => .pure (hnode e blk span he hblk)
  · intro hreadable b rest _ hlen
    rw [hview] at hlen ⊢
    refine .inl (.statement_headed hk ?_)
    unfold loop
    refine Reads.start.bind_refuses fun first _ => Reads.advance.bind_refuses fun _ _ => ?_
    refine (hts.whole.expression ends_leftBrace).bind_refuses ?_
    rintro _ ⟨e, rfl, he⟩
    refine (Refuses.blockAfterHeader (hus.refuses (fun h => hreadable (hok.mpr h)) b rest ?_)).bind
    simp at hlen ⊢
    omega

/-- A loop with a condition is read back, if its block is. -/
theorem stated_whileLoop {condition : Node} {body : List Node} {loc : Option Span}
    (hc : Grammar.settled.Expression s condition) (hb : ∃ us, Blocked s (depth + 1) body us) :
    ∃ ts, Stated s depth (.whileLoop condition body loc) ts := by
  refine stated_loop (k := .while_) rfl ?_ rfl ?_ ?_ hc hb
  · rw [Node.render]
    rfl
  · rw [Node.readable_whileLoop]
    exact and_iff_right hc.readable
  · intro e blk span he hblk
    simp only [Surface.Statement.node, Node.readBack, Node.readBackAll_eq_map]
    exact he.whileLoop hblk

/-- A loop with a count is read back, if its block is. -/
theorem stated_repeatLoop {count : Node} {body : List Node} {loc : Option Span}
    (hc : Grammar.settled.Expression s count) (hb : ∃ us, Blocked s (depth + 1) body us) :
    ∃ ts, Stated s depth (.repeatLoop count body loc) ts := by
  refine stated_loop (k := .repeat_) rfl ?_ rfl ?_ ?_ hc hb
  · rw [Node.render]
    rfl
  · rw [Node.readable_repeatLoop]
    exact and_iff_right hc.readable
  · intro e blk span he hblk
    simp only [Surface.Statement.node, Node.readBack, Node.readBackAll_eq_map]
    exact he.repeatLoop hblk

/-- The step of a counting loop, which is left out where it is one. -/
theorem expressed_step {step : Node} (h : Grammar.settled.Expression s step) :
    ∃ ts, Spelled 0 (if step.isConstant "1" then "" else " step " ++ step.render s 0 looseCeiling) ts ∧
      Stops (if step.isConstant "1" then "" else " step " ++ step.render s 0 looseCeiling).toList ∧
      (∀ rest, ts = [] ∧ headToken (ts ++ rest) = headToken rest ∨
        headToken (ts ++ rest) = some (.keyword .step)) ∧
      ∀ w rest, Reads (do
          match ← eat (.keyword .step) with
          | some _ => expression
          | none => pure none) (ts ++ (.leftBrace, w) :: rest) ((.leftBrace, w) :: rest)
        fun o => Node.Same s ((orMissing o).nodeOr "1") (step.orNumber "1") := by
  by_cases hone : step.isConstant "1" = true
  · refine ⟨[], ?_, ?_, fun rest => .inl ⟨rfl, rfl⟩, ?_⟩
    · simpa [hone] using Spelled.empty
    · simpa [hone] using Stops.nil
    · intro w rest
      refine (Reads.eat_none (by simp)).bind ?_
      rintro _ rfl
      refine .pure ?_
      simp only [Node.orNumber, hone, if_true]
      exact .constant
  · obtain ⟨ts, hts⟩ := h.expressed looseCeiling (by decide)
    have htext : " step " ++ step.render s 0 looseCeiling =
        " " ++ ("step " ++ step.render s 0 looseCeiling) := by
      rw [← String.append_assoc]
      rfl
    refine ⟨Spelled.key .step :: ts, ?_, ?_, fun rest => .inr rfl, ?_⟩
    · rw [if_neg hone, htext]
      exact (Spelled.lead .step rfl (hts.spelled 0)).space
    · rw [if_neg hone, htext]
      exact Spelled.stops_space _
    · intro w rest
      refine Reads.eat.bind ?_
      rintro _ ⟨l, rfl, _⟩
      refine (hts.whole.expression ends_leftBrace).mono ?_
      rintro _ ⟨e, rfl, he⟩
      simp only [orMissing, Option.getD_some, Surface.Expression.nodeOr_eq he h, Node.orNumber, hone]
      exact he

/-- The line of a counting loop from the spellings of its parts. -/
theorem line_forLoop {head : ForHead} {first last step : Node} {body : List Node} {fs ls ss us : List Symbol}
    (hfs : Expressed s looseCeiling first fs) (hls : Expressed s looseCeiling last ls)
    (hspelled : Spelled 0 (if step.isConstant "1" then "" else " step " ++ step.render s 0 looseCeiling) ss)
    (hstops : Stops (if step.isConstant "1" then "" else " step " ++ step.render s 0 looseCeiling).toList)
    (hus : Blocked (s.push [head.var]) (depth + 1) body us) :
    Line ((Node.forLoop head first last step body).render s depth looseCeiling) (Spelled.key .for_ ::
      Spelled.name head.var ++ (.assign, "=") :: fs ++ Spelled.key .to_ :: ls ++ ss ++ blockLexemes us) := by
  generalize hst : (if step.isConstant "1" then "" else " step " ++ step.render s 0 looseCeiling) = stepText
    at hspelled hstops
  have htext : (Node.forLoop head first last step body).render s depth looseCeiling =
      "for " ++ (Render.name head.var ++ " " ++ ("=" ++ " " ++ (first.render s 0 looseCeiling ++ " " ++
        ("to " ++ (last.render s 0 looseCeiling ++ stepText ++ " " ++
          blockText depth (Node.statements (s.push [head.var]) (depth + 1) body)))))) := by
    rw [Node.render, hst, ← String.toList_inj]
    simp [blockText]
  have hhigh : Spelled 0 ("to " ++ (last.render s 0 looseCeiling ++ stepText ++ " " ++
      blockText depth (Node.statements (s.push [head.var]) (depth + 1) body))) _ :=
    .lead .to_ rfl (((hls.spelled 0).append hspelled hstops).spaced (.block hus.lines depth))
  have hbounds : Spelled 0 ("=" ++ " " ++ (first.render s 0 looseCeiling ++ " " ++ _)) _ :=
    (Spelled.assignOperator .set).spaced ((hfs.spelled 0).spaced hhigh)
  have hall : Spelled 0 ("for " ++ (Render.name head.var ++ " " ++ _)) _ :=
    .lead .for_ rfl ((Spelled.renderName head.var).spaced hbounds)
  rw [htext]
  simpa [AssignOperator.token, AssignOperator.text] using hall.line

/-- **A counting loop is read back.** Its name, its bounds and the step, where one is written, are read from the
header in turn, and the block behind it in the scope in which the variable is known. A step of one is not
written, and is read back as the number. If some part of the block is refused then so is the loop. -/
theorem stated_forLoop {head : ForHead} {first last step : Node} {body : List Node}
    (hf : Grammar.settled.Expression s first) (hl : Grammar.settled.Expression s last)
    (ht : Grammar.settled.Expression s step) (hb : ∃ us, Blocked (s.push [head.var]) (depth + 1) body us) :
    ∃ ts, Stated s depth (.forLoop head first last step body) ts := by
  obtain ⟨fs, hfs⟩ := hf.expressed looseCeiling (by decide)
  obtain ⟨ls, hls⟩ := hl.expressed looseCeiling (by decide)
  obtain ⟨ss, hspelled, hstops, hhead, hstep⟩ := expressed_step ht
  obtain ⟨us, hus⟩ := hb
  have hok : (Node.forLoop head first last step body).Readable ↔ ∀ m ∈ body, m.Readable := by
    rw [Node.readable_forLoop]
    simp [hf.readable, hl.readable, ht.readable]
  have hview : ∀ rest, Spelled.key .for_ :: Spelled.name head.var ++ (.assign, "=") :: fs ++
      Spelled.key .to_ :: ls ++ ss ++ blockLexemes us ++ rest = Spelled.key .for_ :: (Spelled.name head.var ++
        (.assign, "=") :: (fs ++ Spelled.key .to_ :: (ls ++ (ss ++ (blockLexemes us ++ rest))))) := by simp
  have hto : ∀ rest, Ends 10 (Spelled.key .to_ :: rest) := fun rest => Ends.cons fun l hl => by cases hl
  -- the upper bound ends before the step or, where none is written, before the block
  have hbody : ∀ rest, Ends 10 (ss ++ (blockLexemes us ++ rest)) := by
    intro rest t l ht' hl'
    rcases hhead (blockLexemes us ++ rest) with ⟨-, h⟩ | h
    · rw [h] at ht'
      exact ends_leftBrace t l ht' hl'
    · rw [h] at ht'
      cases ht'
      cases hl'
  refine ⟨_, .ofReading (line_forLoop hfs hls hspelled hstops hus) ⟨_, _, _, rfl, rfl⟩ nofun ?_ ?_⟩
  · intro hreadable b rest _ hlen
    rw [hview] at hlen ⊢
    refine .statement_headed (k := .for_) rfl ?_
    unfold Parse.forLoop
    refine Reads.start.bind fun first _ => Reads.advance.bind fun _ _ => ?_
    refine (Reads.declName head.var (by simp)).bind ?_
    rintro _ ⟨d, rfl, hd⟩
    refine (Reads.expressionAfter (hfs.whole.expression (hto _))).bind fun low hlow => ?_
    refine (Reads.expressionAfter (hls.whole.expression (hbody rest))).bind fun high hhigh => ?_
    refine (hstep _ _).bind fun st hst => ?_
    refine (Reads.blockAfterHeader (hus.reads (hok.mp hreadable) b rest (by simp at hlen ⊢; omega))).bind
      fun blk hblk => ?_
    refine Reads.spanFrom.bind fun span _ => .pure ?_
    simp only [Surface.Statement.node, Node.readBack, Node.readBackAll_eq_map]
    exact .forLoop hd hlow hhigh hst hblk
  · intro hreadable b rest _ hlen
    rw [hview] at hlen ⊢
    refine .inl (.statement_headed (k := .for_) rfl ?_)
    unfold Parse.forLoop
    refine Reads.start.bind_refuses fun first _ => Reads.advance.bind_refuses fun _ _ => ?_
    refine (Reads.declName head.var (by simp)).bind_refuses fun d _ => ?_
    refine (Reads.expressionAfter (hfs.whole.expression (hto _))).bind_refuses fun low hlow => ?_
    refine (Reads.expressionAfter (hls.whole.expression (hbody rest))).bind_refuses fun high hhigh => ?_
    refine (hstep _ _).bind_refuses fun st hst => ?_
    refine (Refuses.blockAfterHeader (hus.refuses (fun h => hreadable (hok.mpr h)) b rest ?_)).bind
    simp at hlen ⊢
    omega

/-! ## Conditions

A chain of conditions is read by one loop, and printed by a recursion on what stands behind `else`. The two are
brought together by `Alternated`, which speaks about one rung with all those below it. -/

/-- What stands after the block of a condition, in a chain of at most `n` conditions. -/
def alternativeWithin (block : Parse Surface.Block) (n : Nat) : Parse Surface.Alternative := do
  if ← elseWord then
    if ← isAt (.keyword .if_) then
      let rung ← branchWithin block n
      pure (.elseIf rung.condition rung.consequent rung.alternative rung.span)
    else
      let body ← blockAfterHeader block
      pure (otherwise body)
  else pure Surface.Alternative.none

/-- One rung of a chain of conditions, with what stands behind its block as a reading of its own. -/
theorem branchWithin_succ (block : Parse Surface.Block) (n : Nat) : branchWithin block (n + 1) =
    (do
      let first ← start
      advance
      let condition ← expression
      let _ ← eat (.keyword .then_)
      let consequent ← blockAfterHeader block
      let alternative ← alternativeWithin block n
      let span ← spanFrom first
      pure ⟨orMissing condition, consequent, alternative, span⟩) := rfl

/-- The lexemes of what stands after the block of a condition, and how they are read. -/
structure Alternated (s : Scope) (depth : Nat) (ns : List Node) (ts : List Symbol) : Prop where
  line : Line (Node.otherwise s depth ns) ts
  stops : Stops (Node.otherwise s depth ns).toList
  reads : (∀ n ∈ ns, n.Readable) → ∀ b m rest, LineEnd rest → (ts ++ rest).length < b →
    (ts ++ rest).length < m → Reads (alternativeWithin (blockWithin b) m) (ts ++ rest) rest fun a =>
      List.Forall₂ (Node.Same s) a.nodes (ns.map Node.readBack)
  refuses : ¬ (∀ n ∈ ns, n.Readable) → ∀ b m rest, LineEnd rest → (ts ++ rest).length < b →
    (ts ++ rest).length < m → Refuses (alternativeWithin (blockWithin b) m) (ts ++ rest)

theorem Alternated.nil : Alternated s depth [] [] := by
  refine ⟨Spelled.empty.line, Stops.nil, ?_, fun h => absurd (by simp) h⟩
  intro _ b m rest hend _ _
  unfold alternativeWithin
  refine (Reads.elseWord_none hend.noElse).bind ?_
  rintro _ rfl
  exact .pure .nil

/-- A single further condition. -/
theorem Alternated.elseIf {n : Node} {ts : List Symbol} (hif : n.isIfElse = true)
    (h : Stated s depth n ts) :
    Alternated s depth [n] (Spelled.key .else_ :: ts) := by
  have htext : Node.otherwise s depth [n] = " else " ++ n.render s depth looseCeiling := by
    simp [Node.otherwise, hif]
  have hspace : " else " ++ n.render s depth looseCeiling =
      " " ++ (Keyword.else_.text ++ (" " ++ n.render s depth looseCeiling)) := by
    rw [← String.toList_inj]
    rfl
  obtain ⟨hts, hreads, hrefuses⟩ := h.branch hif
  have hat : ∀ rest, (headToken (ts ++ rest) == some (Token.keyword .if_)) = true := by
    intro rest
    cases ts with
    | nil => cases hts
    | cons u ts => simpa [headToken] using hts
  refine ⟨?_, ?_, ?_, ?_⟩
  · rw [htext, hspace]
    exact (Line.append (Spelled.keyword .else_) h.line.space (Spelled.stops_space _)).space
  · rw [htext, hspace]
    exact Spelled.stops_space _
  · intro hok b m rest hend hb hm
    rw [List.cons_append] at hb hm ⊢
    simp only [List.length_cons] at hb hm
    unfold alternativeWithin
    refine (Reads.elseWord rfl).bind ?_
    rintro _ rfl
    rw [if_pos rfl]
    refine Reads.isAt.bind ?_
    rintro _ rfl
    rw [if_pos (hat rest)]
    refine (hreads (hok n List.mem_cons_self) b m rest hend (by omega) (by omega)).bind fun r hr => ?_
    exact .pure (.cons hr .nil)
  · intro hok b m rest hend hb hm
    rw [List.cons_append] at hb hm ⊢
    simp only [List.length_cons] at hb hm
    unfold alternativeWithin
    refine (Reads.elseWord rfl).bind_refuses ?_
    rintro _ rfl
    rw [if_pos rfl]
    refine Reads.isAt.bind_refuses ?_
    rintro _ rfl
    rw [if_pos (hat rest)]
    exact (hrefuses (fun h => hok (by simpa using h)) b m rest hend (by omega) (by omega)).bind

/-- A block after `else`. -/
theorem Alternated.block {ns : List Node} {ts : List Symbol}
    (htext : Node.otherwise s depth ns = " else " ++ blockText depth (Node.statements s (depth + 1) ns))
    (h : Blocked s (depth + 1) ns ts) : Alternated s depth ns (Spelled.key .else_ :: blockLexemes ts) := by
  have hspace : " else " ++ blockText depth (Node.statements s (depth + 1) ns) =
      " " ++ ("else " ++ blockText depth (Node.statements s (depth + 1) ns)) := by
    rw [← String.append_assoc]
    rfl
  have hat : ∀ rest, (headToken (blockLexemes ts ++ rest) == some (Token.keyword .if_)) = false :=
    fun rest => rfl
  refine ⟨?_, ?_, ?_, ?_⟩
  · rw [htext, hspace]
    exact (Spelled.lead .else_ rfl (Spelled.block h.lines depth)).space.line
  · rw [htext, hspace]
    exact Spelled.stops_space _
  · intro hok b m rest hend hb _
    rw [List.cons_append] at hb ⊢
    simp only [List.length_cons] at hb
    unfold alternativeWithin
    refine (Reads.elseWord rfl).bind ?_
    rintro _ rfl
    rw [if_pos rfl]
    refine Reads.isAt.bind ?_
    rintro _ rfl
    rw [if_neg (by simp [hat])]
    refine (Reads.blockAfterHeader (h.reads hok b rest (by omega))).bind fun blk hblk => ?_
    refine .pure ?_
    cases blk <;> exact hblk
  · intro hok b m rest hend hb _
    rw [List.cons_append] at hb ⊢
    simp only [List.length_cons] at hb
    unfold alternativeWithin
    refine (Reads.elseWord rfl).bind_refuses ?_
    rintro _ rfl
    rw [if_pos rfl]
    refine Reads.isAt.bind_refuses ?_
    rintro _ rfl
    rw [if_neg (by simp [hat])]
    exact (Refuses.blockAfterHeader (h.refuses hok b rest (by omega))).bind

/-- What stands behind the block of a condition is nothing, a single further condition, or a block after `else`.
-/
theorem exists_alternated {ns : List Node} (h : ∀ n ∈ ns, ∀ depth, ∃ ts, Stated s depth n ts) :
    ∃ ts, Alternated s depth ns ts := by
  cases ns with
  | nil => exact ⟨[], .nil⟩
  | cons n ns =>
      by_cases hchain : (n.isIfElse && ns.isEmpty) = true
      · rw [Bool.and_eq_true, List.isEmpty_iff] at hchain
        obtain ⟨hif, rfl⟩ := hchain
        obtain ⟨ts, hts⟩ := h n List.mem_cons_self depth
        exact ⟨_, .elseIf hif hts⟩
      · obtain ⟨ts, hts⟩ := exists_blocked fun m hm => h m hm (depth + 1)
        refine ⟨_, .block ?_ hts⟩
        rw [Node.otherwise, if_neg hchain, ← String.toList_inj]
        simp [blockText, Node.statements]

/-- A condition with its block and what stands behind that, as a rung of a chain. -/
theorem branched_ifElse {condition : Node} {consequent alternative : List Node} {loc : Option Span}
    {ts us vs : List Symbol} (hc : Grammar.settled.Expression s condition)
    (hts : Expressed s looseCeiling condition ts) (hus : Blocked s (depth + 1) consequent us)
    (hvs : Alternated s depth alternative vs) :
    Branched s (.ifElse condition consequent alternative loc) (Spelled.key .if_ :: ts ++ blockLexemes us ++ vs) := by
  have hview : ∀ rest, Spelled.key .if_ :: ts ++ blockLexemes us ++ vs ++ rest =
      Spelled.key .if_ :: (ts ++ (blockLexemes us ++ (vs ++ rest))) := by simp
  have hok : (Node.ifElse condition consequent alternative loc).Readable ↔
      (∀ n ∈ consequent, n.Readable) ∧ ∀ n ∈ alternative, n.Readable := by
    rw [Node.readable_ifElse]
    exact and_iff_right hc.readable
  refine ⟨rfl, ?_, ?_⟩
  · intro hreadable b m rest hend hb hm
    obtain ⟨hreadt, hreade⟩ := hok.mp hreadable
    obtain ⟨m, rfl⟩ : ∃ k, m = k + 1 := ⟨m - 1, by omega⟩
    rw [hview] at hb hm ⊢
    simp only [List.length_cons, List.length_append] at hb hm
    rw [branchWithin_succ]
    refine Reads.start.bind fun first _ => Reads.advance.bind fun _ _ => ?_
    refine (hts.whole.expression ends_leftBrace).bind ?_
    rintro _ ⟨e, rfl, he⟩
    refine (Reads.eat_none (by simp)).bind ?_
    rintro _ rfl
    refine (Reads.blockAfterHeader (hus.reads hreadt b (vs ++ rest) (by simp; omega))).bind fun blk hblk => ?_
    refine (hvs.reads hreade b m rest hend (by simp; omega) (by simp; omega)).bind fun a ha => ?_
    refine Reads.spanFrom.bind fun span _ => .pure ?_
    simp only [Node.readBack, Node.readBackAll_eq_map]
    exact he.ifElse hblk ha
  · intro hreadable b m rest hend hb hm
    obtain ⟨m, rfl⟩ : ∃ k, m = k + 1 := ⟨m - 1, by omega⟩
    rw [hview] at hb hm ⊢
    simp only [List.length_cons, List.length_append] at hb hm
    rw [branchWithin_succ]
    refine Reads.start.bind_refuses fun first _ => Reads.advance.bind_refuses fun _ _ => ?_
    refine (hts.whole.expression ends_leftBrace).bind_refuses ?_
    rintro _ ⟨e, rfl, he⟩
    refine (Reads.eat_none (by simp)).bind_refuses ?_
    rintro _ rfl
    -- the first of the two parts that cannot be read back refuses
    by_cases hreadt : ∀ n ∈ consequent, n.Readable
    · refine (Reads.blockAfterHeader (hus.reads hreadt b (vs ++ rest) (by simp; omega))).bind_refuses
        fun blk hblk => ?_
      refine (hvs.refuses (fun h => hreadable (hok.mpr ⟨hreadt, h⟩)) b m rest hend ?_ ?_).bind
      · simp
        omega
      · simp
        omega
    · exact (Refuses.blockAfterHeader (hus.refuses hreadt b (vs ++ rest) (by simp; omega))).bind

/-- A branching is read back, from its first condition down to the last block of the chain. -/
theorem stated_ifElse {condition : Node} {consequent alternative : List Node} {loc : Option Span}
    (hc : Grammar.settled.Expression s condition) (ht : ∃ us, Blocked s (depth + 1) consequent us)
    (he : ∃ vs, Alternated s depth alternative vs) :
    ∃ ts, Stated s depth (.ifElse condition consequent alternative loc) ts := by
  obtain ⟨ts, hts⟩ := hc.expressed looseCeiling (by decide)
  obtain ⟨us, hus⟩ := ht
  obtain ⟨vs, hvs⟩ := he
  have hbranched : Branched s (.ifElse condition consequent alternative loc) _ := branched_ifElse hc hts hus hvs
  refine ⟨_, .ofReading ?_ ⟨_, _, _, rfl, rfl⟩ (fun _ => hbranched) ?_ ?_⟩
  · rw [Node.render]
    have hhead := Spelled.headed (k := .if_) (hts.spelled 0) hus rfl
    exact Line.append hhead hvs.line hvs.stops
  · intro hreadable b rest hend hb
    refine .statement_headed (k := .if_) rfl ?_
    show Reads (branch (blockWithin b)) (Spelled.key .if_ :: ts ++ blockLexemes us ++ vs ++ rest) _ _
    unfold branch
    refine Reads.remaining.bind ?_
    rintro _ rfl
    refine (hbranched.reads hreadable b _ rest hend hb (Nat.lt_succ_self _)).bind fun r hr => ?_
    exact .pure hr
  · intro hreadable b rest hend hb
    refine .inl (.statement_headed (k := .if_) rfl ?_)
    show Refuses (branch (blockWithin b)) (Spelled.key .if_ :: ts ++ blockLexemes us ++ vs ++ rest)
    unfold branch
    refine Reads.remaining.bind_refuses ?_
    rintro _ rfl
    exact (hbranched.refuses hreadable b _ rest hend hb (Nat.lt_succ_self _)).bind

/-! ## Assignments

What may be assigned to in a text is a name or something in parentheses. A tree may assign to a call as well,
whose text is then refused. -/

/-- What follows the target of an assignment. -/
theorem Reads.assignment {operator : AssignOperator} {target : Surface.Target} {tnode value : Node}
    {first : Location} {ts rest : List Symbol} {w : String} {loc : Option Span}
    (htarget : Node.Same s target.node tnode) (h : Expressed s looseCeiling value ts) (hend : LineEnd rest) :
    Reads (Parse.assignment first target) ((operator.token, w) :: (ts ++ rest)) rest
      (SomeStatement (Node.Same s · (.assignment operator tnode value loc))) := by
  have hrest : Reads (Parse.assignment.rest first target operator) ((operator.token, w) :: (ts ++ rest)) rest
      (SomeStatement (Node.Same s · (.assignment operator tnode value loc))) := by
    unfold Parse.assignment.rest
    refine Reads.advance.bind fun _ _ => (h.whole.expression (hend.ends 10)).bind ?_
    rintro _ ⟨e, rfl, he⟩
    exact Reads.spanFrom.bind fun span _ => .pure ⟨_, rfl, htarget.assignment he⟩
  unfold Parse.assignment
  refine Reads.token?.bind ?_
  rintro _ rfl
  cases operator <;> exact hrest

/-- A comma behind the first expression in parentheses is refused, since there is no expression with commas in
it. -/
theorem refuses_listInGroup {n : Nat} {ts us : List Symbol} {P : Node → Prop} {u v : String}
    (h : ReadsWhole ts P) (hn : ((Token.leftParen, u) :: (ts ++ (.comma, v) :: us)).length ≤ n) :
    Refuses (primary (expressionWithin n)) ((.leftParen, u) :: (ts ++ (.comma, v) :: us)) := by
  unfold primary
  refine Reads.cursor.bind_refuses fun c hc => ?_
  rw [c.token?_eq, hc]
  refine Reads.advance.bind_refuses fun _ _ => ?_
  have hcomma : Ends 10 ((Token.comma, v) :: us) := Ends.cons fun l hl => by cases hl
  refine (h n _ hcomma (by simp at hn ⊢; omega)).bind_refuses ?_
  rintro _ ⟨e, rfl, _⟩
  exact (Refuses.expect (by simp)).bind

/-- Where a parenthesis is refused as a primary expression, it is refused as an expression. -/
theorem refuses_expression {us : List Symbol} {u : String}
    (h : ∀ n, ((Token.leftParen, u) :: us).length ≤ n → Refuses (primary (expressionWithin n)) ((.leftParen, u) :: us)) :
    Refuses expression ((.leftParen, u) :: us) := by
  -- every stratum reads its first operand first, and this goes down to the primary expression
  have hlevel : ∀ (table : OperatorTable) (operand : ExpressionParse),
      Refuses operand ((.leftParen, u) :: us) → Refuses (binaryLevel table operand) ((.leftParen, u) :: us) := by
    intro table operand h
    unfold binaryLevel
    exact Reads.start.bind_refuses fun _ _ => h.bind
  unfold expression
  refine Reads.remaining.bind_refuses ?_
  rintro _ rfl
  unfold expressionWithin
  refine Reads.isAt.bind_refuses ?_
  rintro _ rfl
  have hpower : Refuses (power (primary (expressionWithin ((Token.leftParen, u) :: us).length)))
      ((.leftParen, u) :: us) := by
    unfold power
    refine Reads.remaining.bind_refuses ?_
    rintro _ rfl
    unfold powerWithin
    exact Reads.start.bind_refuses fun _ _ => (h _ (le_refl _)).bind
  have hnot : Refuses (negations (expressionWithin ((Token.leftParen, u) :: us).length))
      ((.leftParen, u) :: us) := by
    unfold negations notLevel
    refine Reads.remaining.bind_refuses ?_
    rintro _ rfl
    unfold notWithin
    refine Reads.isAt.bind_refuses ?_
    rintro _ rfl
    exact hlevel _ _ (hlevel _ _ (hlevel _ _ hpower))
  exact hlevel _ _ (hlevel _ _ hnot)

/-- A list of arguments that does not end its statement is tried as a single expression. -/
theorem instructionArguments_eq {tss : List (List Symbol)} {args : List Node} {t : Token} {w : String}
    {us : List Symbol} (h : ReadsAll (Node.Same s) tss args) (hne : tss ≠ [])
    (ht : t.endsStatement = false) {c : Cursor} (hc : c.view = Spelled.arguments tss ++ (t, w) :: us) :
    instructionArguments c = singleArgument c := by
  have hfirst : Reads (do
      let items ← argumentList
      pure (items.map Surface.Arguments.list)) (Spelled.arguments tss ++ (t, w) :: us) ((t, w) :: us)
      fun _ => True :=
    (Reads.argumentList h hne).bind fun _ _ => .pure trivial
  have hhead : headToken c.view = some .leftParen := by rw [hc, arguments_append hne, headToken_cons]
  have hnot : c.atStatementEnd = false := c.atStatementEnd_eq (t := .leftParen) hhead
  have hat : c.isAt .leftParen = true := by rw [c.isAt_eq, hhead]; rfl
  have hstep : instructionArguments c = firstClean (do
      let items ← argumentList
      pure (items.map Surface.Arguments.list)) singleArgument c := by
    show (if c.atStatementEnd then _ else if c.isAt .leftParen then _ else _ : Parse Surface.Arguments) c = _
    rw [hnot, hat]
    rfl
  rw [hstep, firstClean_right hfirst rfl ht hc]

/-- A single argument is read as an expression in parentheses. -/
theorem Reads.instructionArguments_group {ts us : List Symbol} {a : Node} {t : Token} {w : String}
    (h : ReadsAll (Node.Same s) [ts] [a]) (ht : t.endsStatement = false) (hends : Ends 10 ((t, w) :: us)) :
    Reads Parse.instructionArguments (Spelled.arguments [ts] ++ (t, w) :: us) ((t, w) :: us) fun _ => True := by
  have hwhole : ReadsWhole (Spelled.arguments [ts]) (Node.Same s · a) := by
    have hstarts : ∀ k, Starts k (Spelled.arguments [ts]) :=
      fun k => ⟨_, _, _, rfl, rfl, fun _ => by simp, fun _ => by simp⟩
    cases h with
    | cons ha _ =>
        exact (Climbs.climb (j := 2) ha.1.group (le_refl 2) (hstarts 2) (by omega) (le_refl 10)).whole
          (hstarts 10)
  have hsingle : Reads singleArgument (Spelled.arguments [ts] ++ (t, w) :: us) ((t, w) :: us)
      fun _ => True := by
    unfold singleArgument
    refine (hwhole.expression hends).bind ?_
    rintro _ ⟨e, rfl, _⟩
    exact .pure trivial
  intro c hc
  rw [instructionArguments_eq h (by simp) ht hc]
  exact hsingle c hc

/-- Several arguments are no expression. -/
theorem Refuses.instructionArguments_group {ts ts' us : List Symbol}
    {tss : List (List Symbol)} {args : List Node} {t : Token} {w : String}
    (h : ReadsAll (Node.Same s) (ts :: ts' :: tss) args) (ht : t.endsStatement = false) :
    Refuses Parse.instructionArguments (Spelled.arguments (ts :: ts' :: tss) ++ (t, w) :: us) := by
  have hview : Spelled.arguments (ts :: ts' :: tss) ++ (t, w) :: us = (.leftParen, "(") :: (ts ++ (.comma, ",") ::
      (Spelled.commas (ts' :: tss) ++ (.rightParen, ")") :: (t, w) :: us)) := by
    simp [Spelled.arguments, Spelled.commas]
  have hsingle : Refuses singleArgument (Spelled.arguments (ts :: ts' :: tss) ++ (t, w) :: us) := by
    unfold singleArgument
    rw [hview]
    refine Refuses.bind (refuses_expression fun n hn => ?_)
    cases h with
    | cons ha _ => exact refuses_listInGroup ha.1 hn
  intro c hc
  rw [instructionArguments_eq h (by simp) ht hc]
  exact hsingle c hc

theorem AssignOperator.ends (o : AssignOperator) {k : Nat} {w : String} {us : List Symbol} :
    Ends k ((o.token, w) :: us) := Ends.cons fun l hl => by cases o <;> cases hl

/-- A name is assigned to. -/
theorem stated_assignName {operator : AssignOperator} {u : Use IdentifierKind} {value : Node}
    {loc : Option Span} (hu : s.SettlesIdentifier u 0) (hv : Grammar.settled.Expression s value) :
    ∃ ts, Stated s depth (.assignment operator (.identifier u []) value loc) ts := by
  obtain ⟨vs, hvs⟩ := hv.expressed looseCeiling (by decide)
  obtain ⟨t, w, us, hspelled, hstart, hreads⟩ := hu.writes
  have hreadable : (Node.assignment operator (.identifier u []) value loc).Readable :=
    Node.everywhere_assignment.mpr ⟨rfl, Node.everywhere_identifier.mpr ⟨rfl, by simp⟩, hv.readable⟩
  refine ⟨(t, w) :: us ++ (operator.token, operator.text) :: vs, .ofReading ?_
    ⟨t, w, _, rfl, Token.startsStatement_of_startsName hstart⟩ nofun ?_ fun h => absurd hreadable h⟩
  · have htext : (Node.assignment operator (.identifier u []) value loc).render s depth looseCeiling =
        s.identifierText u 0 ++ " " ++ operator.text ++ " " ++ value.render s 0 looseCeiling := by
      simp [Node.render, Node.isIdentifier, Render.grouped, Node.items, Render.parenthesized]
    rw [htext]
    simpa using (((hspelled 0).spaced (.assignOperator operator)).spaced (hvs.spelled 0)).line
  · intro _ b rest hend _
    rw [List.append_assoc]
    refine .statement_named hstart ?_
    show Reads namedStatement ((t, w) :: us ++ ((operator.token, operator.text) :: (vs ++ rest))) rest _
    unfold namedStatement
    refine Reads.start.bind fun first _ => (hreads _ (by cases operator <;> simp [AssignOperator.token])).bind ?_
    rintro _ ⟨r, rfl, hr⟩
    refine Reads.cursor.bind fun c hc => ?_
    rw [if_pos (by cases operator <;> simp [c.isAt_eq, hc, AssignOperator.token])]
    exact .assignment (.identifier hu.known (hr r.span) .nil) hvs hend

/-- Another expression is assigned to, in parentheses. -/
theorem stated_assignGroup {operator : AssignOperator} {target value : Node} {loc : Option Span}
    (htarget : target.isIdentifier = false) (ht : Grammar.settled.Expression s target)
    (hv : Grammar.settled.Expression s value) :
    ∃ ts, Stated s depth (.assignment operator target value loc) ts := by
  obtain ⟨ts, hts⟩ := ht.expressed looseCeiling (by decide)
  obtain ⟨vs, hvs⟩ := hv.expressed looseCeiling (by decide)
  have hreadable : (Node.assignment operator target value loc).Readable := by
    refine Node.everywhere_assignment.mpr ⟨?_, ht.readable, hv.readable⟩
    cases target <;> first | rfl | cases htarget
  refine ⟨(.leftParen, "(") :: ts ++ [(.rightParen, ")")] ++ (operator.token, operator.text) :: vs,
    .ofReading ?_ ⟨_, _, _, rfl, rfl⟩ nofun ?_ fun h => absurd hreadable h⟩
  · have htext : (Node.assignment operator target value loc).render s depth looseCeiling =
        "(" ++ target.render s 0 looseCeiling ++ ")" ++ " " ++ operator.text ++ " " ++
          value.render s 0 looseCeiling := by
      simp [Node.render, htarget, Render.grouped]
    rw [htext]
    simpa using (((hts.spelled 1).grouped.spaced (.assignOperator operator)).spaced (hvs.spelled 0)).line
  · intro _ b rest hend _
    have hview : (Token.leftParen, "(") :: ts ++ [(.rightParen, ")")] ++ (operator.token, operator.text) :: vs ++
        rest = (.leftParen, "(") :: (ts ++ (.rightParen, ")") :: ((operator.token, operator.text) ::
          (vs ++ rest))) := by simp
    rw [hview]
    unfold statement
    refine Reads.cursor.bind fun c hc => ?_
    rw [c.token?_eq, hc]
    show Reads groupAssignment _ _ _
    unfold groupAssignment
    refine Reads.start.bind fun first _ => Reads.advance.bind fun _ _ => ?_
    refine (hts.whole.expression (Ends.cons fun l hl => by cases hl)).bind ?_
    rintro _ ⟨e, rfl, he⟩
    refine Reads.expect.bind ?_
    rintro _ ⟨l, rfl, _⟩
    exact .assignment he hvs hend

/-- **A name with arguments cannot be assigned to in a text.** It is read as an instruction, and behind its
arguments nothing may follow. -/
theorem stated_assignCall {operator : AssignOperator} {u : Use IdentifierKind} {a value : Node}
    {as : List Node} {loc : Option Span} (hu : s.SettlesIdentifier u (as.length + 1))
    (has : ∀ x ∈ a :: as, Grammar.settled.Expression s x) (hv : Grammar.settled.Expression s value) :
    ∃ ts, Stated s depth (.assignment operator (.identifier u (a :: as)) value loc) ts := by
  obtain ⟨vs, hvs⟩ := hv.expressed looseCeiling (by decide)
  obtain ⟨tss, htss⟩ := exists_forall₂ fun x hx => (has x hx).expressed looseCeiling (by decide)
  have hall := Expressed.readsAll htss
  have hne : tss ≠ [] := by
    rintro rfl
    cases htss
  obtain ⟨t, w, us, hspelled, hstart, hreads⟩ := hu.writes
  have hreadable : ¬ (Node.assignment operator (.identifier u (a :: as)) value loc).Readable := by
    intro h
    exact absurd (Node.everywhere_assignment.mp h).1 (by simp [Node.assignsCall])
  refine ⟨(t, w) :: us ++ Spelled.arguments tss ++ (operator.token, operator.text) :: vs, .ofReading ?_
    ⟨t, w, _, rfl, Token.startsStatement_of_startsName hstart⟩ nofun (fun h => absurd h hreadable) ?_⟩
  · have htext : (Node.assignment operator (.identifier u (a :: as)) value loc).render s depth looseCeiling =
        s.identifierText u (as.length + 1) ++ Render.parenthesized (Node.items s (a :: as)) ++ " " ++
          operator.text ++ " " ++ value.render s 0 looseCeiling := by
      simp [Node.render, Node.isIdentifier, Render.grouped]
    have hcall : Spelled 0 _ _ := (hspelled 0).append (.parenthesized (Expressed.spelled_all htss 1))
      (Spelled.stops_parenthesized _)
    rw [htext]
    simpa using ((hcall.spaced (.assignOperator operator)).spaced (hvs.spelled 0)).line
  · intro _ b rest hend _
    have hview : (t, w) :: us ++ Spelled.arguments tss ++ (operator.token, operator.text) :: vs ++ rest =
        (t, w) :: us ++ (Spelled.arguments tss ++ (operator.token, operator.text) :: (vs ++ rest)) := by simp
    rw [hview]
    have hend : operator.token.endsStatement = false := by cases operator <;> rfl
    have hparen : headToken (Spelled.arguments tss ++ (operator.token, operator.text) :: (vs ++ rest)) =
        some .leftParen := by rw [arguments_append hne, headToken_cons]
    cases htss with
    | @cons _ ts _ tss hx hs =>
        cases hs with
        | nil =>
            -- a single argument is read as an expression in parentheses, and the line does not end there
            refine .inr ⟨(operator.token, operator.text) :: (vs ++ rest), fun _ => True,
              .statement_named hstart ?_, operator.token, rfl, hend⟩
            show Reads namedStatement ((t, w) :: us ++ (Spelled.arguments [ts] ++ _)) _ _
            unfold namedStatement
            refine Reads.start.bind fun first _ => (hreads _ (by rw [hparen]; decide)).bind ?_
            rintro _ ⟨r, rfl, _⟩
            refine Reads.cursor.bind fun c hc => ?_
            rw [if_neg (by simp [c.isAt_eq, hc, hparen])]
            exact (Reads.instructionArguments_group hall hend operator.ends).bind fun as _ =>
              Reads.spanFrom.bind fun span _ => .pure ⟨_, rfl, trivial⟩
        | @cons _ ts' _ tss hy hs =>
            -- several arguments are no expression
            refine .inl (.statement_named hstart ?_)
            show Refuses namedStatement ((t, w) :: us ++ (Spelled.arguments (ts :: ts' :: tss) ++ _))
            unfold namedStatement
            refine Reads.start.bind_refuses fun first _ => (hreads _ (by rw [hparen]; decide)).bind_refuses ?_
            rintro _ ⟨r, rfl, _⟩
            refine Reads.cursor.bind_refuses fun c hc => ?_
            rw [if_neg (by simp [c.isAt_eq, hc, hparen])]
            exact (Refuses.instructionArguments_group hall hend).bind

/-- An assignment is read back or refused, by what is assigned to: a name, a call, or something else. -/
theorem stated_assignment {operator : AssignOperator} {target value : Node} {loc : Option Span}
    (ht : Grammar.settled.Expression s target) (hv : Grammar.settled.Expression s value) :
    ∃ ts, Stated s depth (.assignment operator target value loc) ts := by
  by_cases hid : target.isIdentifier = true
  · cases ht with
    | @identifier u args hu has =>
        cases args with
        | nil => exact stated_assignName hu hv
        | cons a as => exact stated_assignCall hu has hv
    | constant _ => cases hid
    | binary _ _ _ => cases hid
    | negation _ => cases hid
    | conditional _ _ _ => cases hid
  · exact stated_assignGroup (by simpa using hid) ht hv

end Kinds

/-! ## All statements

One lemma for each constructor of the derivation is put together here. -/

/-- **A settled statement is read back from its line, or refused if a name with arguments is assigned to.** The depth
is generalised in the induction, since the statements of a block are printed one step deeper. -/
theorem Grammar.Statement.stated {s : Scope} {n : Node} (h : Grammar.settled.Statement s n) :
    ∀ depth, ∃ ts, Stated s depth n ts := by
  induction h with
  | instruction hn ha => exact fun depth => stated_instruction hn ha
  | assignment ht hv => exact fun depth => stated_assignment ht hv
  | comment ht => exact fun depth => stated_comment ht
  | wait hc => exact fun depth => stated_wait hc
  | ifElse hc _ _ iht ihe =>
      exact fun depth => stated_ifElse hc (exists_blocked fun n hn => iht n hn (depth + 1)) (exists_alternated ihe)
  | whileLoop hc _ ih =>
      exact fun depth => stated_whileLoop hc (exists_blocked fun n hn => ih n hn (depth + 1))
  | forLoop hf hl ht _ ih =>
      exact fun depth => stated_forLoop hf hl ht (exists_blocked fun n hn => ih n hn (depth + 1))
  | breakLoop => exact fun depth => stated_breakLoop
  | repeatLoop hc _ ih =>
      exact fun depth => stated_repeatLoop hc (exists_blocked fun n hn => ih n hn (depth + 1))

/-- The lines of a block of settled statements. -/
theorem Grammar.Statement.blocked {s : Scope} {ns : List Node} (h : ∀ n ∈ ns, Grammar.settled.Statement s n)
    (depth : Nat) : ∃ ts, Blocked s depth ns ts :=
  exists_blocked fun n hn => (h n hn).stated depth

end FlightScript
