import FlightScript.Proofs.Chains
import FlightScript.Proofs.Soundness

/-!
# `Proofs.Acceptance` — reading accepts exactly the grammar

Every derivable sequence of lexemes is read without problems. The tree need not be that of the derivation, since the
grammar leaves choices: a single argument in parentheses may be a list of one argument, and a conditional may end
early or late. What has to be shown is that reading never refuses, and that it stops where the derived part ends. With
`Proofs.Soundness` this makes reading and the grammar agree.

## Contents

* `Arguments.Derives.accepted`: whichever way the arguments of an instruction are read, they end at the same place;
* `Phrase.Derives.accepted`: statements, blocks and alternatives, by induction on their derivation;
* items and programs; `ofText_clean_iff_derives`.
-/

namespace FlightScript

open Parse Surface
open Spelled (key commas)

/-- Before these lexemes a reading posts nothing and leaves those. -/
abbrev Accepts {α : Type} (p : Parse α) (us vs : List Symbol) : Prop := Reads p us vs fun _ => True

/-! ## Arguments of an instruction

Here the grammar is ambiguous, and so a derivation cannot be followed. What helps is that no statement ends
inside an expression: two readings that both end a statement end at the same place. -/

/-- No statement ends inside these lexemes. -/
def Inline (ts : List Symbol) : Prop := ∀ u ∈ ts, u.1.endsStatement = false

namespace Inline

variable {ts us : List Symbol}

@[simp] theorem nil : Inline [] := nofun

@[simp] theorem cons {u : Symbol} : Inline (u :: us) ↔ u.1.endsStatement = false ∧ Inline us :=
  List.forall_mem_cons

@[simp] theorem append : Inline (ts ++ us) ↔ Inline ts ∧ Inline us := List.forall_mem_append

theorem commas {tss : List (List Symbol)} (h : ∀ ts ∈ tss, Inline ts) : Inline (commas tss) := by
  intro u hu
  rcases Spelled.mem_commas hu with rfl | ⟨ts, hts, hu⟩
  · rfl
  · exact h ts hts u hu

theorem word (w : List Char) : (wordLexeme w).1.endsStatement = false := by
  show (Piece.wordToken w).endsStatement = false
  unfold Piece.wordToken
  split <;> rfl

theorem tail (ws : List (List Char)) : Inline (tailLexemes ws) := by
  induction ws with
  | nil => exact nil
  | cons w ws ih => exact cons.mpr ⟨rfl, cons.mpr ⟨word w, ih⟩⟩

end Inline

namespace Surface

section Inline

theorem endsStatement_keyword (k : Keyword) : (Token.keyword k).endsStatement = false := rfl

attribute [local simp] endsStatement_keyword Inline.word Inline.tail key Operator.lexeme

theorem Name.inline (n : Name) : Inline n.lexemes := by
  cases n <;> simp +decide [Name.lexemes]

theorem Name.inline_member (n : Name) : Inline n.memberLexemes := by
  cases n <;> simp +decide [Name.memberLexemes]

theorem Reference.inline (r : Reference) : Inline r.lexemes := by
  obtain ⟨_ | q, _ | n, span⟩ := r <;> simp +decide [Reference.lexemes, Name.inline, Name.inline_member]

theorem Literal.inline (l : Literal) : Inline l.lexemes := by
  cases l with
  | number negative digits => cases negative <;> simp +decide [Literal.lexemes]
  | string literal => simp +decide [Literal.lexemes]
  | bool value => simp +decide [Literal.lexemes]

theorem Operator.endsStatement_token (o : Operator) : o.token.endsStatement = false := by
  cases o <;> rfl

attribute [local simp] Reference.inline Literal.inline Operator.endsStatement_token

mutual

/-- No statement ends inside an expression, by induction over it. -/
theorem Expression.inline : (e : Expression) → Inline e.lexemes
  | missing => by simp +decide [Expression.lexemes]
  | literal value _ => by simp +decide [Expression.lexemes]
  | name reference _ => by simp +decide [Expression.lexemes]
  | call reference arguments _ => by simp +decide [Expression.lexemes, Inline.commas (Expression.inlineAll arguments)]
  | group inner _ => by simp +decide [Expression.lexemes, Expression.inline inner]
  | binary _ lhs rhs _ => by simp +decide [Expression.lexemes, Expression.inline lhs, Expression.inline rhs]
  | not operand _ => by simp +decide [Expression.lexemes, Expression.inline operand]
  | conditional condition consequent alternative _ => by
      simp +decide [Expression.lexemes, Expression.inline condition, Expression.inline consequent,
        Expression.inline alternative]

theorem Expression.inlineAll : (es : List Expression) → ∀ us ∈ es.map Expression.lexemes, Inline us
  | [] => by simp
  | e :: es => List.forall_mem_cons.mpr ⟨Expression.inline e, Expression.inlineAll es⟩

end

theorem Arguments.inline (as : Arguments) : Inline as.lexemes := by
  cases as with
  | none => exact .nil
  | list items => simp +decide [Arguments.lexemes, Inline.commas (Expression.inlineAll items)]
  | single item => exact item.inline

end Inline

end Surface

/-- Two parts in which no statement ends are the same if a statement ends behind each of them. -/
theorem Inline.append_inj {ts us rest rest' : List Symbol} (ht : Inline ts) (hu : Inline us)
    (heq : ts ++ rest = us ++ rest') (hrest : AtEnd rest) (hrest' : AtEnd rest') : rest = rest' := by
  induction ts generalizing us with
  | nil =>
      cases us with
      | nil => exact heq
      | cons u us =>
          have hfirst := hrest u.1 (by rw [show rest = _ from heq]; rfl)
          rw [hu u (.head _)] at hfirst
          cases hfirst
  | cons t ts ih =>
      cases us with
      | nil =>
          have hfirst := hrest' t.1 (by rw [← show _ = rest' from heq]; rfl)
          rw [ht t (.head _)] at hfirst
          cases hfirst
      | cons u us =>
          have htail := (List.cons.inj heq).2
          exact ih (fun v hv => ht v (.tail _ hv)) (fun v hv => hu v (.tail _ hv)) htail

theorem Surface.EndsStatement.ends {rest : List Symbol} (h : EndsStatement rest) (k : Nat) : Ends k rest := by
  intro t l ht hl
  rcases h with h | h | h <;> rw [h] at ht <;> cases ht <;> cases hl

theorem Surface.EndsStatement.atEnd {rest : List Symbol} (h : EndsStatement rest) : AtEnd rest := by
  intro t ht
  rcases h with h | h | h <;> rw [h] at ht <;> cases ht <;> rfl

/-- A list of arguments, none of them included. -/
theorem accepts_argumentList {tss : List (List Symbol)} (h : ∀ ts ∈ tss, IsReadWhole ts ∧ Starts 11 ts)
    {rest : List Symbol} :
    Reads argumentList ((.leftParen, "(") :: commas tss ++ (.rightParen, ")") :: rest) rest
      fun o => ∃ es, o = some es := by
  by_cases hne : tss = []
  · subst hne
    unfold argumentList
    refine Reads.expect.bind ?_
    rintro _ ⟨l, rfl, _⟩
    refine Reads.eat.bind ?_
    rintro _ ⟨l', rfl, _⟩
    exact .pure ⟨[], rfl⟩
  · have hall : ReadsAll (fun _ (_ : List Symbol) => True) tss tss := List.forall₂_same.mpr h
    rw [List.cons_append, ← arguments_append hne]
    exact (Reads.argumentList hall hne).mono fun _ ⟨es, hes, _⟩ => ⟨es, hes⟩

/-- **The arguments of an instruction are read to their end.** A single expression that begins with a parenthesis is
first tried as a list of arguments; if that counts, it ends where the expression ends. -/
theorem Surface.Arguments.Derives.accepted {as : Arguments} {ts rest : List Symbol} (h : as.Derives ts)
    (hends : EndsStatement rest) (hcanonical : ∀ u ∈ ts ++ rest, Canonical u) :
    Accepts instructionArguments (ts ++ rest) rest := by
  unfold instructionArguments
  refine Reads.cursor.bind fun c hc => ?_
  cases h with
  | none =>
      rw [if_pos (c.atStatementEnd_iff.mpr (by rw [hc]; exact hends.atEnd))]
      exact .pure trivial
  | @list items hitems =>
      have hview : (Token.leftParen, "(") :: commas (items.map Prod.snd) ++ [(Token.rightParen, ")")] ++ rest =
          (.leftParen, "(") :: commas (items.map Prod.snd) ++ (.rightParen, ")") :: rest := by simp
      have hhead : headToken c.view = some .leftParen := by rw [hc]; rfl
      rw [if_neg (by rw [c.atStatementEnd_eq hhead]; decide), c.isAt_eq, hhead, if_pos (by decide), hview]
      refine Reads.firstClean_left ?_ hends.atEnd
      refine (accepts_argumentList fun ts hts => ?_).bind ?_
      · obtain ⟨a, ha, rfl⟩ := List.mem_map.mp hts
        exact ⟨(hitems a ha).readsWhole, (hitems a ha).starts⟩
      · rintro _ ⟨es, rfl⟩
        exact .pure ⟨_, rfl, trivial⟩
  | single he =>
      have hsingle : Accepts singleArgument (ts ++ rest) rest := by
        unfold singleArgument
        refine (he.readsWhole.expression (hends.ends 10)).bind ?_
        rintro _ ⟨e, rfl, _⟩
        exact .pure trivial
      obtain ⟨t', hhead, hstart⟩ := he.starts.headToken rest
      have hnot : c.atStatementEnd = false := by
        rw [c.atStatementEnd_eq (by rw [hc]; exact hhead), Token.endsStatement_of_startsExpression hstart]
      rw [if_neg (by simp [hnot])]
      split
      · intro c' hc'
        rcases firstClean_cases (do
            let items ← argumentList
            pure (items.map Arguments.list)) singleArgument c' with ⟨as, has, hproblems, hat, heq⟩ | heq
        · rw [heq]
          refine ⟨rfl, ?_, trivial⟩
          -- both readings take lexemes in which no statement ends
          obtain ⟨us, hus, hlist⟩ := consumes_listAttempt c' (by rw [hc']; exact hcanonical) hproblems
          rw [hc'] at hus
          have hat' := (Cursor.atStatementEnd_iff _).mp hat
          have hinline := as.inline
          rw [(hlist as has).kept.1] at hinline
          exact ((he.lexemes_eq ▸ Expression.inline _).append_inj hinline hus hends.atEnd hat').symm
        · rw [heq]
          exact hsingle c' hc'
      · exact hsingle

/-! ## Statements without blocks

Each of them ends where its statement ends, whatever stands behind that. -/

/-- The sign of an assignment and its value are read up to the end of the statement. -/
theorem accepts_assignment {first : Location} {target : Target} {o : AssignOperator} {e : Expression}
    {es rest : List Symbol} (he : e.Derives 10 es) (hends : EndsStatement rest) :
    Reads (assignment first target) (o.lexeme :: (es ++ rest)) rest fun s => ∃ s', s = some s' := by
  unfold assignment
  refine Reads.token?.bind ?_
  rintro _ rfl
  have hrest : Reads (assignment.rest first target o) (o.lexeme :: (es ++ rest)) rest fun s => ∃ s', s = some s' := by
    unfold assignment.rest
    refine Reads.advance.bind fun _ _ => (he.readsWhole.expression (hends.ends 10)).bind fun _ _ => ?_
    exact Reads.spanFrom.bind fun span _ => .pure ⟨_, rfl⟩
  cases o <;> exact hrest

/-- What stands behind the name of an assignment or an instruction. -/
theorem Surface.Reference.IsWhole.accepts_assign {r : Reference} (hr : r.IsWhole) {o : AssignOperator} {e : Expression}
    {es rest : List Symbol} (he : e.Derives 10 es) (hends : EndsStatement rest) :
    Reads namedStatement (r.lexemes ++ o.lexeme :: (es ++ rest)) rest fun s => ∃ s', s = some s' := by
  unfold namedStatement
  refine Reads.start.bind fun first _ => ?_
  refine (hr.reads (by cases o <;> exact nofun)).bind ?_
  rintro _ ⟨r', rfl, _⟩
  refine Reads.cursor.bind fun c hc => ?_
  have hat : (c.isAt .assign || c.isAt .plusAssign) = true := by
    rw [c.isAt_eq, c.isAt_eq, hc]
    cases o <;> rfl
  rw [if_pos hat]
  exact accepts_assignment he hends

/-- An instruction is read up to the end of its statement. Its first argument does not begin with the sign of an
assignment, so it is not taken for one. -/
theorem Surface.Reference.IsWhole.accepts_instruction {r : Reference} (hr : r.IsWhole) {as : Arguments}
    {ts rest : List Symbol} (has : as.Derives ts) (hends : EndsStatement rest)
    (hcanonical : ∀ u ∈ ts ++ rest, Canonical u) :
    Reads namedStatement (r.lexemes ++ (ts ++ rest)) rest fun s => ∃ s', s = some s' := by
  -- neither a dot nor an assignment follows the name
  have hhead : ∀ t, headToken (ts ++ rest) = some t → t.startsExpression = true ∨ t.endsStatement = true := by
    intro t ht
    cases has with
    | none => exact .inr (hends.atEnd t ht)
    | list _ => cases ht; exact .inl rfl
    | single he =>
        obtain ⟨t', ht', hstart⟩ := he.starts.headToken rest
        cases ht'.symm.trans ht
        exact .inl hstart
  have hne : ∀ t : Token, t.startsExpression = false → t.endsStatement = false → headToken (ts ++ rest) ≠ some t := by
    intro t hs he ht
    rcases hhead t ht with h | h
    · rw [hs] at h; cases h
    · rw [he] at h; cases h
  unfold namedStatement
  refine Reads.start.bind fun first _ => ?_
  refine (hr.reads (hne .dot rfl rfl)).bind ?_
  rintro _ ⟨r', rfl, _⟩
  refine Reads.cursor.bind fun c hc => ?_
  have hat : (c.isAt .assign || c.isAt .plusAssign) = false := by
    rw [c.isAt_eq, c.isAt_eq, hc]
    simpa using ⟨hne .assign rfl rfl, hne .plusAssign rfl rfl⟩
  rw [hat]
  refine (has.accepted hends hcanonical).bind fun as' _ => ?_
  exact Reads.spanFrom.bind fun span _ => .pure ⟨_, rfl⟩

/-- An assignment to something in parentheses is read up to the end of the statement. -/
theorem accepts_groupAssignment {inner e : Expression} {o : AssignOperator} {ts es rest : List Symbol}
    (hi : inner.Derives 10 ts) (he : e.Derives 10 es) (hends : EndsStatement rest) :
    Reads groupAssignment ((.leftParen, "(") :: (ts ++ (.rightParen, ")") :: o.lexeme :: (es ++ rest))) rest
      fun s => ∃ s', s = some s' := by
  unfold groupAssignment
  refine Reads.start.bind fun first _ => Reads.advance.bind fun _ _ => ?_
  refine (hi.readsWhole.expression (Ends.cons fun l hl => by cases hl)).bind fun _ _ => ?_
  refine Reads.expect.bind fun _ _ => ?_
  exact accepts_assignment he hends

theorem accepts_waitAlone {rest : List Symbol} (hends : EndsStatement rest) :
    Accepts waitStatement (key .wait :: rest) rest := by
  have huntil : headToken rest ≠ some (.keyword .until_) := fun h => nomatch hends.atEnd _ h
  unfold waitStatement
  refine Reads.start.bind fun first _ => Reads.advance.bind fun _ _ => (Reads.eat_none huntil).bind ?_
  rintro _ rfl
  refine Reads.cursor.bind fun c hc => ?_
  have hat : c.atStatementEnd = true := c.atStatementEnd_iff.mpr (by rw [hc]; exact hends.atEnd)
  rw [if_pos (by simp [hat])]
  refine (Reads.pure (Q := fun _ => True) trivial).bind fun _ _ => ?_
  exact Reads.spanFrom.bind fun span _ => .pure trivial

/-- A wait for a time. An expression does not begin with `until`, so it is not taken for a condition. -/
theorem accepts_waitFor {e : Expression} {ts rest : List Symbol} (he : e.Derives 10 ts)
    (hends : EndsStatement rest) : Accepts waitStatement (key .wait :: (ts ++ rest)) rest := by
  unfold waitStatement
  refine Reads.start.bind fun first _ => Reads.advance.bind fun _ _ => ?_
  refine (Reads.eat_none (he.starts.ne rfl rest)).bind ?_
  rintro _ rfl
  refine Reads.cursor.bind fun c hc => ?_
  obtain ⟨t, hhead, hstart⟩ := he.starts.headToken rest
  have hat : c.atStatementEnd = false := by
    rw [c.atStatementEnd_eq (by rw [hc]; exact hhead), Token.endsStatement_of_startsExpression hstart]
  rw [if_neg (by simp [hat])]
  refine (he.readsWhole.expression (hends.ends 10)).bind fun _ _ => ?_
  exact Reads.spanFrom.bind fun span _ => .pure trivial

theorem accepts_waitUntil {e : Expression} {ts rest : List Symbol} (he : e.Derives 10 ts)
    (hends : EndsStatement rest) : Accepts waitStatement (key .wait :: key .until_ :: (ts ++ rest)) rest := by
  unfold waitStatement
  refine Reads.start.bind fun first _ => Reads.advance.bind fun _ _ => Reads.eat.bind ?_
  rintro _ ⟨l, rfl, _⟩
  refine Reads.cursor.bind fun c hc => ?_
  refine (he.readsWhole.expression (hends.ends 10)).bind fun _ _ => ?_
  exact Reads.spanFrom.bind fun span _ => .pure trivial

/-! ## Headers

Between a header and its block there may be line ends, and before the block of a condition the word `then`. -/

theorem dropWhile_newlines (n : Nat) (us : List Symbol) :
    (newlines n ++ us).dropWhile (fun u => u.1 == .newline) = us.dropWhile fun u => u.1 == .newline := by
  induction n with
  | zero => rfl
  | succ n ih => exact ih

/-- Line ends may stand before a block. -/
theorem Reads.blockAfterHeader_newlines {block : Parse Block} {n : Nat} {w : String} {us vs : List Symbol}
    {Q : Block → Prop} (h : Reads block ((.leftBrace, w) :: us) vs Q) :
    Reads (Parse.blockAfterHeader block) (newlines n ++ (.leftBrace, w) :: us) vs Q := by
  intro c hc
  have hskip : c.view.dropWhile (fun u => u.1 == .newline) = (.leftBrace, w) :: us := by
    rw [hc, dropWhile_newlines]
    rfl
  obtain ⟨c', hview, heq⟩ := blockAfterHeader_eq block hskip
  rw [heq]
  exact h c' hview

/-- What stands between a header and its brace belongs to no expression. -/
theorem ends_header {thens : List Symbol} (hthens : thens = [] ∨ thens = [key .then_]) (n : Nat) {w : String}
    {us : List Symbol} : Ends 10 (thens ++ (newlines n ++ (.leftBrace, w) :: us)) := by
  rcases hthens with rfl | rfl
  · cases n with
    | zero => exact Ends.cons fun l hl => by cases hl
    | succ n => exact Ends.cons fun l hl => by cases hl
  · exact Ends.cons fun l hl => by cases hl

theorem accepts_eatThen {thens : List Symbol} (hthens : thens = [] ∨ thens = [key .then_]) (n : Nat)
    {w : String} {us : List Symbol} :
    Accepts (eat (.keyword .then_)) (thens ++ (newlines n ++ (.leftBrace, w) :: us))
      (newlines n ++ (.leftBrace, w) :: us) := by
  rcases hthens with rfl | rfl
  · exact (Reads.eat_none (by cases n <;> exact nofun)).mono fun _ _ => trivial
  · exact Reads.eat.mono fun _ _ => trivial

/-! ## Blocks

A block is read to its brace, and a chain of conditions to the end of its last block. -/

/-- The lexemes of a part are read to their end, wherever what follows is not part of it. -/
def Surface.Phrase.Accepted : Phrase → List Symbol → Prop
  | .statement _, ts => ∀ b rest, EndsStatement rest → NoElse rest → (∀ u ∈ ts ++ rest, Canonical u) →
      (ts ++ rest).length ≤ b →
      Reads (Parse.statement (blockWithin b)) (ts ++ rest) rest fun o => ∃ s, o = some s
  | .block _, ts => ∀ b rest, (∀ u ∈ ts ++ rest, Canonical u) → (ts ++ rest).length ≤ b →
      Accepts (blockWithin b) (ts ++ rest) rest
  | .body _, ts => ∀ b m rest, (∀ u ∈ ts ++ rest, Canonical u) → (ts ++ rest).length ≤ b →
      (ts ++ rest).length < m → Accepts (statements (Parse.statement (blockWithin b)) m) (ts ++ rest) rest
  | .alternative _, ts => ∀ b m rest, NoElse rest → (∀ u ∈ ts ++ rest, Canonical u) → (ts ++ rest).length ≤ b →
      (ts ++ rest).length < m → Accepts (alternativeWithin (blockWithin b) m) (ts ++ rest) rest

/-- A statement that a keyword of its own begins. -/
theorem Accepts.headed {block : Parse Block} {k : Keyword} {p : Parse Block → Parse Statement}
    {us vs : List Symbol} (hk : headedStatement k = some p) (h : Accepts (p block) (key k :: us) vs) :
    Reads (Parse.statement block) (key k :: us) vs fun o => ∃ s, o = some s :=
  (Reads.statement_headed (P := fun _ => True) hk h).mono fun _ ⟨s, hs, _⟩ => ⟨s, hs⟩

section Blocks

variable {c : Expression} {blk : Block} {cs bs : List Symbol} {n : Nat}

/-- A block behind its header. -/
theorem accepts_blockAfterHeader (hblk : (Phrase.block blk).Derives bs) (h : (Phrase.block blk).Accepted bs) {b : Nat}
    {rest : List Symbol} (hcanonical : ∀ u ∈ bs ++ rest, Canonical u) (hb : (bs ++ rest).length ≤ b) :
    Accepts (blockAfterHeader (blockWithin b)) (newlines n ++ (bs ++ rest)) rest := by
  obtain ⟨us, rfl⟩ := hblk.block_starts
  exact Reads.blockAfterHeader_newlines (h b rest hcanonical hb)

/-- A condition, its block and what stands behind that. -/
theorem accepts_branchWithin {a : Alternative} {thens as : List Symbol} (hc : c.Derives 10 cs)
    (hthens : thens = [] ∨ thens = [key .then_]) (hblk : (Phrase.block blk).Derives bs)
    (hb : (Phrase.block blk).Accepted bs) (ha : (Phrase.alternative a).Accepted as) {b m : Nat}
    {rest : List Symbol} (hno : NoElse rest)
    (hcanonical : ∀ u ∈ key .if_ :: cs ++ thens ++ newlines n ++ bs ++ as ++ rest, Canonical u)
    (hlen : (key .if_ :: cs ++ thens ++ newlines n ++ bs ++ as ++ rest).length ≤ b)
    (hm : (key .if_ :: cs ++ thens ++ newlines n ++ bs ++ as ++ rest).length ≤ m) :
    Accepts (branchWithin (blockWithin b) (m + 1)) (key .if_ :: cs ++ thens ++ newlines n ++ bs ++ as ++ rest)
      rest := by
  have hview : key .if_ :: cs ++ thens ++ newlines n ++ bs ++ as ++ rest =
      key .if_ :: (cs ++ (thens ++ (newlines n ++ (bs ++ (as ++ rest))))) := by simp
  rw [hview] at hcanonical hlen hm ⊢
  simp only [List.length_cons, List.length_append] at hlen hm
  have hbehind : ∀ u ∈ bs ++ (as ++ rest), Canonical u := fun u hu => hcanonical u (by
    simp only [List.mem_cons, List.mem_append] at hu ⊢
    tauto)
  have hblock := accepts_blockAfterHeader (n := n) hblk hb hbehind (b := b) (by simp; omega)
  have halternative := ha b m rest hno (fun u hu => hbehind u (List.mem_append_right _ hu)) (by simp; omega)
    (by simp; omega)
  obtain ⟨us, rfl⟩ := hblk.block_starts
  rw [branchWithin_succ]
  refine Reads.start.bind fun first _ => Reads.advance.bind fun _ _ => ?_
  refine (hc.readsWhole.expression (ends_header hthens n)).bind fun _ _ => ?_
  refine (accepts_eatThen hthens n).bind fun _ _ => hblock.bind fun _ _ => halternative.bind fun _ _ => ?_
  exact Reads.spanFrom.bind fun span _ => .pure trivial

/-- A loop with an expression before its block. The brace, and the line ends before it, belong to no expression,
so the expression ends there. -/
theorem accepts_loop {k : Keyword} {make : Expression → Block → Span → Statement}
    (hk : headedStatement k = some fun block => loop block make) (hc : c.Derives 10 cs)
    (hblk : (Phrase.block blk).Derives bs) (hb : (Phrase.block blk).Accepted bs) {s : Statement} :
    (Phrase.statement s).Accepted (key k :: cs ++ newlines n ++ bs) := by
  intro b rest _ _ hcanonical hlen
  have hview : key k :: cs ++ newlines n ++ bs ++ rest = key k :: (cs ++ (newlines n ++ (bs ++ rest))) := by simp
  rw [hview] at hcanonical hlen ⊢
  simp only [List.length_cons, List.length_append] at hlen
  have hbehind : ∀ u ∈ bs ++ rest, Canonical u := fun u hu => hcanonical u (by
    simp only [List.mem_cons, List.mem_append] at hu ⊢
    tauto)
  have hblock := accepts_blockAfterHeader (n := n) hblk hb hbehind (b := b) (by simp; omega)
  obtain ⟨us, rfl⟩ := hblk.block_starts
  refine Accepts.headed hk ?_
  unfold loop
  refine Reads.start.bind fun first _ => Reads.advance.bind fun _ _ => ?_
  refine (hc.readsWhole.expression (ends_header (.inl rfl) n)).bind fun _ _ => hblock.bind fun _ _ => ?_
  exact Reads.spanFrom.bind fun span _ => .pure trivial

/-- The step of a counting loop, if there is one. -/
theorem accepts_step {ss us : List Symbol} (hends : Ends 10 us) (hnone : headToken us ≠ some (.keyword .step))
    (hstep : ss = [] ∨ ∃ (e : Expression) (ts : List Symbol), e.Derives 10 ts ∧ ss = key .step :: ts) :
    Accepts (do
      match ← eat (.keyword .step) with
      | some _ => expression
      | none => pure none) (ss ++ us) us := by
  rcases hstep with rfl | ⟨e, ts, he, rfl⟩
  · refine (Reads.eat_none hnone).bind ?_
    rintro _ rfl
    exact .pure trivial
  · refine Reads.eat.bind ?_
    rintro _ ⟨l, rfl, _⟩
    exact (he.readsWhole.expression hends).mono fun _ _ => trivial

/-- A counting loop with its name, its bounds and its block, with a step or without one. Each part ends before a
token that does not belong to it. -/
theorem accepts_forLoop {d : DeclName} {first last : Expression} {fs ls ss : List Symbol}
    (hf : first.Derives 10 fs) (hl : last.Derives 10 ls)
    (hstep : ss = [] ∨ ∃ (e : Expression) (ts : List Symbol), e.Derives 10 ts ∧ ss = key .step :: ts)
    (hblk : (Phrase.block blk).Derives bs) (hb : (Phrase.block blk).Accepted bs) {s : Statement} :
    (Phrase.statement s).Accepted (key .for_ :: d.name.lexemes ++ (.assign, "=") :: fs ++ key .to_ :: ls ++ ss ++
      newlines n ++ bs) := by
  intro b rest _ _ hcanonical hlen
  have hview : key .for_ :: d.name.lexemes ++ (Token.assign, "=") :: fs ++ key .to_ :: ls ++ ss ++ newlines n ++ bs ++
      rest = key .for_ :: (d.name.lexemes ++ (.assign, "=") :: (fs ++ key .to_ :: (ls ++ (ss ++ (newlines n ++
        (bs ++ rest)))))) := by simp
  rw [hview] at hcanonical hlen ⊢
  simp only [List.length_cons, List.length_append] at hlen
  have hbehind : ∀ u ∈ bs ++ rest, Canonical u := fun u hu => hcanonical u (by
    simp only [List.mem_cons, List.mem_append] at hu ⊢
    tauto)
  have hblock := accepts_blockAfterHeader (n := n) hblk hb hbehind (b := b) (by simp; omega)
  obtain ⟨us, rfl⟩ := hblk.block_starts
  have hheader : Ends 10 (newlines n ++ ((.leftBrace, "\x7b") :: us ++ rest)) := ends_header (.inl rfl) n
  -- the upper bound ends before the step or, where none is written, before the block
  have hends : Ends 10 (ss ++ (newlines n ++ ((.leftBrace, "\x7b") :: us ++ rest))) := by
    rcases hstep with rfl | ⟨e, ts, _, rfl⟩
    · exact hheader
    · exact Ends.cons fun l hl => by cases hl
  refine Accepts.headed (k := .for_) rfl ?_
  unfold forLoop
  refine Reads.start.bind fun _ _ => Reads.advance.bind fun _ _ => ?_
  refine (d.name.reads_declName (by simp)).bind fun _ _ => ?_
  refine (Reads.expressionAfter (hf.readsWhole.expression (Ends.cons fun l hl => by cases hl))).bind fun _ _ => ?_
  refine (Reads.expressionAfter (hl.readsWhole.expression hends)).bind fun _ _ => ?_
  refine (accepts_step hheader (by cases n <;> exact nofun) hstep).bind fun _ _ => hblock.bind fun _ _ => ?_
  exact Reads.spanFrom.bind fun span _ => .pure trivial

/-- A further condition behind the block of a condition. -/
theorem accepts_elseIf {a a' : Alternative} {thens as : List Symbol} {m : Nat} (hc : c.Derives 10 cs)
    (hthens : thens = [] ∨ thens = [key .then_]) (hblk : (Phrase.block blk).Derives bs)
    (hb : (Phrase.block blk).Accepted bs) (ha : (Phrase.alternative a).Accepted as) :
    (Phrase.alternative a').Accepted
      (newlines m ++ key .else_ :: key .if_ :: cs ++ thens ++ newlines n ++ bs ++ as) := by
  intro b k rest hno hcanonical hlen hk
  have hview : newlines m ++ key .else_ :: key .if_ :: cs ++ thens ++ newlines n ++ bs ++ as ++ rest =
      newlines m ++ key .else_ :: (key .if_ :: cs ++ thens ++ newlines n ++ bs ++ as ++ rest) := by simp
  rw [hview] at hcanonical hlen hk ⊢
  rw [List.length_append, List.length_cons] at hlen hk
  obtain ⟨k, rfl⟩ : ∃ j, k = j + 1 := ⟨k - 1, by omega⟩
  have hbehind : ∀ u ∈ key .if_ :: cs ++ thens ++ newlines n ++ bs ++ as ++ rest, Canonical u :=
    fun u hu => hcanonical u (List.mem_append_right _ (.tail _ hu))
  unfold alternativeWithin
  refine (Reads.elseWord (dropWhile_newlines m _)).bind ?_
  rintro _ rfl
  refine Reads.isAt.bind ?_
  rintro _ rfl
  refine (accepts_branchWithin hc hthens hblk hb ha hno hbehind (by omega) (by omega)).bind fun _ _ => ?_
  exact .pure trivial

/-- The last block behind a condition. -/
theorem accepts_otherwise {a : Alternative} {m : Nat} (hblk : (Phrase.block blk).Derives bs)
    (hb : (Phrase.block blk).Accepted bs) :
    (Phrase.alternative a).Accepted (newlines m ++ [key .else_] ++ newlines n ++ bs) := by
  intro b k rest _ hcanonical hlen _
  have hview : newlines m ++ [key .else_] ++ newlines n ++ bs ++ rest =
      newlines m ++ key .else_ :: (newlines n ++ (bs ++ rest)) := by simp
  rw [hview] at hcanonical hlen ⊢
  simp only [List.length_append, List.length_cons] at hlen
  have hbehind : ∀ u ∈ bs ++ rest, Canonical u := fun u hu => hcanonical u (by
    simp only [List.mem_cons, List.mem_append] at hu ⊢
    tauto)
  have hblock := accepts_blockAfterHeader (n := n) hblk hb hbehind (b := b) (by simp; omega)
  obtain ⟨us, rfl⟩ := hblk.block_starts
  unfold alternativeWithin
  refine (Reads.elseWord (dropWhile_newlines m _)).bind ?_
  rintro _ rfl
  refine Reads.isAt.bind ?_
  rintro _ rfl
  rw [if_neg (by cases n <;> (intro h; cases h))]
  exact hblock.bind fun _ _ => .pure trivial

end Blocks

/-! ## Assignments and instructions

What begins with a name is one or the other, told by the sign behind it. -/

section Named

variable {s : Statement} {ts : List Symbol}

/-- An assignment to a name or to something in parentheses. -/
theorem accepts_assign {t : Target} {o : AssignOperator} {e : Expression} {es : List Symbol}
    (ht : t.Derives ts) (he : e.Derives 10 es) : (Phrase.statement s).Accepted (ts ++ o.lexeme :: es) := by
  intro b rest hends _ _ _
  rw [List.append_assoc, List.cons_append]
  cases ht with
  | reference hr =>
      have hnamed := hr.accepts_assign (o := o) he hends
      obtain ⟨t, w, us, hus, ht⟩ := hr.starts
      rw [hus] at hnamed ⊢
      exact .statement_named ht hnamed
  | group hi =>
      rw [List.append_assoc]
      unfold Parse.statement
      refine Reads.cursor.bind fun c hc => ?_
      rw [c.token?_eq, hc]
      exact accepts_groupAssignment hi he hends

theorem accepts_instruction {r : Reference} {as : Arguments} (hr : r.IsWhole) (has : as.Derives ts) :
    (Phrase.statement s).Accepted (r.lexemes ++ ts) := by
  intro b rest hends _ hcanonical _
  rw [List.append_assoc] at hcanonical ⊢
  have hnamed := hr.accepts_instruction has hends fun u hu => hcanonical u (List.mem_append_right _ hu)
  obtain ⟨t, w, us, hus, ht⟩ := hr.starts
  rw [hus] at hnamed ⊢
  exact .statement_named ht hnamed

end Named

/-! ## Whole blocks

The induction over derivations, with all kinds of statements put together. -/

/-- Behind a statement of a block no `else` follows. -/
theorem Surface.Phrase.Derives.body_noElse {ss : List Statement} {us : List Symbol}
    (h : (Phrase.body ss).Derives us) (rest : List Symbol) : NoElse (us ++ rest) := by
  generalize hx : Phrase.body ss = x at h
  induction h generalizing ss with
  | bodyEnd => exact nofun
  | bodyNewline _ ih =>
      cases hx
      exact ih rfl
  | bodyComment _ _ => exact nofun
  | bodyStatement hs _ _ _ _ =>
      obtain ⟨t, w, vs, rfl, ht⟩ := hs.statement_starts
      have hnewline : ¬ (t == Token.newline) = true := by
        rintro h
        rw [beq_iff_eq.mp h] at ht
        cases ht
      unfold NoElse
      rw [List.cons_append, List.cons_append, List.dropWhile_cons_of_neg (by exact hnewline)]
      rintro ⟨⟩
      cases ht
  | _ => cases hx

/-- A statement in front of the others of a block. -/
theorem accepts_bodyStatement {s : Statement} {ss : List Statement} {ts us : List Symbol}
    (hs : (Phrase.statement s).Derives ts) (hss : (Phrase.body ss).Derives us) (hends : EndsStatement us)
    (ihs : (Phrase.statement s).Accepted ts) (ihss : (Phrase.body ss).Accepted us) :
    (Phrase.body (s :: ss)).Accepted (ts ++ us) := by
  intro b m rest hcanonical hb hm
  obtain ⟨m, rfl⟩ : ∃ k, m = k + 1 := ⟨m - 1, by omega⟩
  obtain ⟨t, w, vs, rfl, ht⟩ := hs.statement_starts
  rw [List.append_assoc] at hcanonical hb hm ⊢
  have hends' : EndsStatement (us ++ rest) := by
    obtain ⟨u, us, rfl⟩ := List.exists_cons_of_ne_nil hends.ne_nil
    exact hends
  have hone := ihs b (us ++ rest) hends' (hss.body_noElse rest) hcanonical hb
  have hmore := ihss b m rest (fun u hu => hcanonical u (List.mem_append_right _ hu))
    (by simp only [List.length_append] at hb ⊢; omega)
    (by simp only [List.length_append, List.length_cons] at hm ⊢; omega)
  have hone' : Reads (Parse.statement (blockWithin b)) ((t, w) :: (vs ++ (us ++ rest))) (us ++ rest)
      (SomeStatement fun _ => True) := by
    refine hone.mono ?_
    rintro _ ⟨x, hx⟩
    exact ⟨x, hx, trivial⟩
  exact (Reads.statements_one ht hone' hends'.atEnd hmore).mono fun _ _ => trivial

/-- **Every part of a statement or a block is read to its end.** By induction on the derivation; bodies of blocks are
parts of their own, since the loop that reads them ends at the brace that the rule for blocks puts behind them. -/
theorem Surface.Phrase.Derives.accepted {x : Phrase} {ts : List Symbol} (h : x.Derives ts) :
    x.Accepted ts := by
  induction h with
  -- a list is read in rounds, and there are always more of them than lexemes left
  | bodyEnd =>
      intro b m rest _ _ hm
      obtain ⟨m, rfl⟩ : ∃ k, m = k + 1 := ⟨m - 1, by omega⟩
      exact Reads.statements_close.mono fun _ _ => trivial
  | bodyNewline _ ih =>
      intro b m rest hcanonical hb hm
      obtain ⟨m, rfl⟩ : ∃ k, m = k + 1 := ⟨m - 1, by omega⟩
      simp only [List.cons_append, List.length_cons] at hb hm
      exact .statements_newline (ih b m rest (fun u hu => hcanonical u (.tail _ hu)) (by omega) (by omega))
  | bodyComment _ ih =>
      intro b m rest hcanonical hb hm
      obtain ⟨m, rfl⟩ : ∃ k, m = k + 1 := ⟨m - 1, by omega⟩
      simp only [List.cons_append, List.length_cons] at hb hm
      have hmore := ih b m rest (fun u hu => hcanonical u (.tail _ hu)) (by omega) (by omega)
      exact (Reads.statements_comment (P := fun _ => True) hmore fun _ => trivial).mono fun _ _ => trivial
  | bodyStatement hs hss hends ihs ihss => exact accepts_bodyStatement hs hss hends ihs ihss
  | block _ ih =>
      intro b rest hcanonical hb
      obtain ⟨b, rfl⟩ : ∃ k, b = k + 1 := ⟨b - 1, by simp at hb; omega⟩
      unfold blockWithin
      refine Reads.start.bind fun first _ => Reads.advance.bind fun _ _ => Reads.remaining.bind ?_
      rintro _ rfl
      simp only [List.cons_append, List.length_cons] at hb
      refine (ih b _ rest (fun u hu => hcanonical u (.tail _ hu)) (by omega) (Nat.lt_succ_self _)).bind fun _ _ => ?_
      exact Reads.spanFrom.bind fun span _ => .pure trivial
  | ifElse hc hthens hblk _ ihb iha =>
      intro b rest _ hno hcanonical hb
      refine Accepts.headed (k := .if_) rfl ?_
      unfold branch
      refine Reads.remaining.bind ?_
      rintro _ rfl
      refine (accepts_branchWithin hc hthens hblk ihb iha hno hcanonical hb (le_refl _)).bind fun _ _ => ?_
      exact .pure trivial
  | noElse =>
      intro b m rest hno _ _ _
      unfold alternativeWithin
      refine (Reads.elseWord_none hno).bind ?_
      rintro _ rfl
      exact .pure trivial
  | elseIf hc hthens hblk _ ihb iha => exact accepts_elseIf hc hthens hblk ihb iha
  | otherwise hblk ihb => exact accepts_otherwise hblk ihb
  | whileLoop hc hblk ihb => exact accepts_loop rfl hc hblk ihb
  | repeatLoop hc hblk ihb => exact accepts_loop rfl hc hblk ihb
  | forLoop hf hl hblk ihb => simpa using accepts_forLoop hf hl (.inl rfl) hblk ihb
  | forStep hf hl hs hblk ihb => exact accepts_forLoop hf hl (.inr ⟨_, _, hs, rfl⟩) hblk ihb
  | breakLoop =>
      intro b rest _ _ _ _
      unfold Parse.statement
      refine Reads.cursor.bind fun c hc => ?_
      rw [c.token?_eq, hc]
      exact Reads.advance.bind fun _ _ => .pure ⟨_, rfl⟩
  | waitAlone =>
      intro b rest hends _ _ _
      exact Accepts.headed (k := .wait) rfl (accepts_waitAlone hends)
  | waitFor he =>
      intro b rest hends _ _ _
      exact Accepts.headed (k := .wait) rfl (accepts_waitFor he hends)
  | waitUntil he =>
      intro b rest hends _ _ _
      exact Accepts.headed (k := .wait) rfl (accepts_waitUntil he hends)
  | assign htarget he => exact accepts_assign htarget he
  | instruction hr has => exact accepts_instruction hr has

theorem accepts_block {blk : Block} {bs rest : List Symbol} (h : (Phrase.block blk).Derives bs)
    (hcanonical : ∀ u ∈ bs ++ rest, Canonical u) : Accepts Parse.block (bs ++ rest) rest := by
  unfold Parse.block
  refine Reads.remaining.bind ?_
  rintro _ rfl
  exact h.accepted _ rest hcanonical (by omega)

/-- A block behind the header of an item. -/
theorem accepts_itemBlock {blk : Block} {bs rest : List Symbol} {n : Nat}
    (h : (Phrase.block blk).Derives bs) (hcanonical : ∀ u ∈ bs ++ rest, Canonical u) :
    Accepts (blockAfterHeader Parse.block) (newlines n ++ (bs ++ rest)) rest := by
  have hblock := accepts_block h hcanonical
  obtain ⟨us, rfl⟩ := h.block_starts
  exact hblock.blockAfterHeader_newlines

/-! ## Items

An item is chosen by two tokens and read to its end. -/

theorem Surface.EndsItem.atEnd {rest : List Symbol} (h : EndsItem rest) : AtEnd rest := by
  intro t ht
  rcases h with h | h | h <;> rw [h] at ht <;> cases ht <;> rfl

theorem Surface.EndsItem.ends {rest : List Symbol} (h : EndsItem rest) (k : Nat) : Ends k rest := by
  intro t l ht hl
  rcases h with h | h | h <;> rw [h] at ht <;> cases ht <;> cases hl

/-- Two tokens choose how an item is read, and the item is read to its end. -/
def Surface.Item.Accepted (ts : List Symbol) : Prop :=
  ∀ rest, EndsItem rest → (∀ u ∈ ts ++ rest, Canonical u) → ∃ t w us p, ts = (t, w) :: us ∧
    item? t (headToken (us ++ rest)) = some p ∧ Accepts p (ts ++ rest) rest

/-- A directive is read to its end, if what follows is no string literal that would be taken for its value. -/
theorem accepts_directiveItem {name : String} {value : Option String} {rest : List Symbol}
    (hrest : headToken rest ≠ some .string) :
    Accepts directiveItem ((.hash, "#") :: wordLexeme name.toList ::
      ((value.map fun v => (Token.string, v)).toList ++ rest)) rest := by
  unfold directiveItem
  refine Reads.start.bind fun first _ => Reads.advance.bind fun _ _ => ?_
  refine Reads.bind (show Accepts _ _ ((value.map fun v => (Token.string, v)).toList ++ rest) from
    Reads.token?.bind ?_) ?_
  · rintro _ rfl
    show Accepts (if (Piece.wordToken name.toList).isWordLike then _ else _) _ _
    rw [if_pos (isWordLike_wordToken _)]
    exact Reads.lexeme?.bind fun _ _ => .pure trivial
  intro _ _
  have hvalue : Accepts (eat .string) ((value.map fun v => (Token.string, v)).toList ++ rest) rest := by
    cases value with
    | none => exact (Reads.eat_none hrest).mono fun _ _ => trivial
    | some v => exact Reads.eat.mono fun _ _ => trivial
  exact hvalue.bind fun _ _ => Reads.spanFrom.bind fun span _ => .pure trivial

theorem accepts_eventName (name : EventName) (rest : List Symbol) :
    Accepts eventName (name.lexeme :: rest) rest := by
  unfold eventName
  refine Reads.token?.bind ?_
  rintro _ rfl
  cases name with
  | word text => exact Reads.lexeme?.bind fun _ _ => .pure trivial
  | message literal => exact Reads.lexeme?.bind fun _ _ => .pure trivial

/-- Parameters begin with a parenthesis; otherwise what stands behind them comes first. -/
theorem headToken_parameterLexemes {ps : Option Parameters} {us : List Symbol} {t : Token}
    (ht : t ≠ .leftParen) (hus : headToken us ≠ some t) : headToken (parameterLexemes ps ++ us) ≠ some t := by
  cases ps with
  | none => exact hus
  | some ps =>
      rintro ⟨⟩
      exact ht rfl

theorem headToken_newlines_block {n : Nat} {w : String} {us : List Symbol} {t : Token}
    (hnewline : t ≠ .newline) (hbrace : t ≠ .leftBrace) :
    headToken (newlines n ++ (.leftBrace, w) :: us) ≠ some t := by
  cases n with
  | zero => exact fun h => hbrace (Option.some.inj h).symm
  | succ n => exact fun h => hnewline (Option.some.inj h).symm

/-- **Every item is read to its end.** The first one or two lexemes decide which reading is made, and that reading
goes through the parts of the item in the order in which the rule of the grammar has them. -/
theorem Surface.Item.Derives.accepted {x : Item} {ts : List Symbol} (h : x.Derives ts) :
    Item.Accepted ts := by
  intro rest hends hcanonical
  cases h with
  | directive =>
      refine ⟨_, _, _, directiveItem, rfl, rfl, ?_⟩
      exact accepts_directiveItem fun h => nomatch hends.atEnd _ h
  | @var isList d span =>
      have hdot : headToken rest ≠ some .dot := fun h => nomatch hends.atEnd _ h
      refine ⟨_, _, _, varItem isList, rfl, by cases isList <;> rfl, ?_⟩
      unfold varItem
      refine Reads.start.bind fun first _ => Reads.advance.bind fun _ _ => ?_
      refine (d.name.reads_declName hdot).bind fun _ _ => ?_
      exact Reads.spanFrom.bind fun span _ => .pure trivial
  | @event name ps blk bs n span hblk =>
      have hview : key .on :: name.lexeme :: parameterLexemes ps ++ newlines n ++ bs ++ rest =
          key .on :: name.lexeme :: (parameterLexemes ps ++ (newlines n ++ (bs ++ rest))) := by simp
      rw [hview] at hcanonical ⊢
      have hblock : Accepts (blockAfterHeader Parse.block) (newlines n ++ (bs ++ rest)) rest :=
        accepts_itemBlock hblk fun u hu => hcanonical u (by
          simp only [List.mem_cons, List.mem_append] at hu ⊢
          tauto)
      obtain ⟨us, rfl⟩ := hblk.block_starts
      refine ⟨_, _, _, eventItem, rfl, rfl, ?_⟩
      unfold eventItem
      refine Reads.start.bind fun first _ => Reads.advance.bind fun _ _ => ?_
      refine (accepts_eventName name _).bind fun _ _ => ?_
      refine (reads_parameters ps (headToken_newlines_block nofun nofun)).bind fun _ _ => hblock.bind fun _ _ => ?_
      exact Reads.spanFrom.bind fun span _ => .pure trivial
  | @instruction d ps blk bs n span hblk =>
      have hview : key .def_ :: d.name.lexemes ++ parameterLexemes ps ++ newlines n ++ bs ++ rest =
          key .def_ :: (d.name.lexemes ++ (parameterLexemes ps ++ (newlines n ++ (bs ++ rest)))) := by simp
      rw [hview] at hcanonical ⊢
      have hblock : Accepts (blockAfterHeader Parse.block) (newlines n ++ (bs ++ rest)) rest :=
        accepts_itemBlock hblk fun u hu => hcanonical u (by
          simp only [List.mem_cons, List.mem_append] at hu ⊢
          tauto)
      obtain ⟨us, rfl⟩ := hblk.block_starts
      refine ⟨_, _, d.name.lexemes ++ parameterLexemes ps ++ newlines n ++ (.leftBrace, "\x7b") :: us, instructionItem,
        rfl, ?_, ?_⟩
      · -- a declared name does not begin with a keyword
        simp only [List.append_assoc]
        rcases d.name.headToken_lexemes _ with h | h <;> rw [h] <;> rfl
      · unfold instructionItem
        refine Reads.start.bind fun first _ => Reads.advance.bind fun _ _ => ?_
        have hdot : headToken (parameterLexemes ps ++ (newlines n ++ ((.leftBrace, "\x7b") :: us ++ rest))) ≠ some .dot :=
          headToken_parameterLexemes nofun (headToken_newlines_block nofun nofun)
        refine (d.name.reads_declName hdot).bind fun _ _ => ?_
        refine (reads_parameters ps (headToken_newlines_block nofun nofun)).bind fun _ _ => hblock.bind fun _ _ => ?_
        exact Reads.spanFrom.bind fun span _ => .pure trivial
  | @expression d ps e es span he =>
      have hview : key .def_ :: key .expression :: d.name.lexemes ++ parameterLexemes ps ++ (Token.colon, ":") :: es ++
          rest = key .def_ :: key .expression :: (d.name.lexemes ++ (parameterLexemes ps ++ (.colon, ":") ::
            (es ++ rest))) := by simp
      rw [hview]
      refine ⟨_, _, _, expressionItem, rfl, rfl, ?_⟩
      unfold expressionItem
      refine Reads.start.bind fun first _ => Reads.advance.bind fun _ _ => Reads.advance.bind fun _ _ => ?_
      refine (d.name.reads_declName (headToken_parameterLexemes nofun (by simp))).bind fun _ _ => ?_
      refine (reads_parameters ps (by simp)).bind fun _ _ => ?_
      refine (Reads.expressionAfter (he.readsWhole.expression (hends.ends 10))).bind fun _ _ => ?_
      exact Reads.spanFrom.bind fun span _ => .pure trivial
  | @block ss us span hss =>
      have hblk : (Phrase.block (.braces ss span)).Derives ((.leftBrace, "\x7b") :: us) := .block hss
      refine ⟨_, _, _, blockItem, rfl, rfl, ?_⟩
      unfold blockItem
      refine (accepts_block hblk hcanonical).bind fun b _ => ?_
      cases b with
      | missing => exact Reads.start.bind fun _ _ => Reads.spanFrom.bind fun _ _ => .pure trivial
      | braces ss span => exact .pure trivial

/-- **Every program is read to its end.** The induction is on the derivation, for every number of rounds that is not
smaller than the number of lexemes: line ends and comments take a round each, and an item takes one round however long
it is. -/
theorem Surface.Items.Derives.accepted {xs : List Item} {us : List Symbol} (h : Items.Derives xs us) :
    (∀ u ∈ us, Canonical u) → ∀ m, us.length ≤ m → Accepts (items m) us [] := by
  induction h with
  | nil =>
      intro _ m _
      cases m with
      | zero => exact .pure trivial
      | succ m =>
          unfold items
          refine Reads.cursor.bind fun c hc => ?_
          rw [c.token?_eq, hc]
          exact .pure trivial
  | newline _ ih =>
      intro hcanonical m hm
      obtain ⟨m, rfl⟩ : ∃ k, m = k + 1 := ⟨m - 1, by simp at hm; omega⟩
      unfold items
      refine Reads.cursor.bind fun c hc => ?_
      rw [c.token?_eq, hc]
      exact Reads.advance.bind fun _ _ => ih (fun u hu => hcanonical u (.tail _ hu)) m (by simpa using hm)
  | comment _ ih =>
      intro hcanonical m hm
      obtain ⟨m, rfl⟩ : ∃ k, m = k + 1 := ⟨m - 1, by simp at hm; omega⟩
      unfold items
      refine Reads.cursor.bind fun c hc => ?_
      rw [c.token?_eq, hc]
      exact Reads.advance.bind fun _ _ => ih (fun u hu => hcanonical u (.tail _ hu)) m (by simpa using hm)
  | @cons x xs ts us hx _ hends ih =>
      intro hcanonical m hm
      obtain ⟨t, w, vs, p, rfl, hp, haccepts⟩ := hx.accepted us hends hcanonical
      simp only [List.cons_append, List.length_cons, List.length_append] at hm
      obtain ⟨m, rfl⟩ : ∃ k, m = k + 1 := ⟨m - 1, by omega⟩
      -- no item begins with layout, so its first two lexemes decide how it is read
      have hlayout : (t == .newline || t == .comment) = false := by
        cases t <;> first | rfl | cases hp
      unfold items
      refine Reads.cursor.bind fun c hc => ?_
      rw [c.token?_eq, c.second?_eq, hc]
      simp only [List.cons_append, headToken_cons, hlayout, Bool.false_eq_true, if_false, List.tail_cons, hp]
      refine haccepts.bind fun _ _ => (Reads.expectLineEnd hends.atEnd).bind fun _ _ => ?_
      refine (ih (fun u hu => hcanonical u (List.mem_append_right _ hu)) m (by omega)).bind fun _ _ => ?_
      exact .pure trivial

/-- A derived program is read without problems: the loop over its items has enough rounds. -/
theorem Surface.Program.Derives.accepted {p : Program} {lexemes : List Lexeme}
    (h : p.Derives (lexemes.map Lexeme.bare)) (hcanonical : ∀ l ∈ lexemes, Canonical l.bare) :
    (Program.ofLexemes lexemes).problems = [] := by
  have hprogram : Accepts Parse.program (lexemes.map Lexeme.bare) [] := by
    unfold Parse.program
    refine Reads.remaining.bind ?_
    rintro _ rfl
    refine (Items.Derives.accepted h ?_ _ (le_refl _)).bind fun _ _ => .pure trivial
    intro u hu
    obtain ⟨l, hl, rfl⟩ := List.mem_map.mp hu
    exact hcanonical l hl
  exact (hprogram (Cursor.ofLexemes lexemes) rfl).1

/-! ## Reading and the grammar

Both directions together. -/

/-- The lexemes of a text without their places. -/
def Lexing.bare (lexing : Lexing) : List Symbol := lexing.lexemes.map Lexeme.bare

/-- **A text is read without problems exactly if its lexemes are derivable.** The tree that is read is then derived
from all lexemes of the text, and its own lexemes are those of the text without layout: without line ends, comments
outside all braces, and the word `then` before the block of a condition. -/
theorem ofText_clean_iff_derives (source : String) :
    ((Program.ofText source).2 = [] ↔
      (Lexing.ofText source).problems = [] ∧ ∃ p : Program, p.Derives (Lexing.ofText source).bare) ∧
    ((Program.ofText source).2 = [] ↔
      (Lexing.ofText source).problems = [] ∧ (Program.ofText source).1.Derives (Lexing.ofText source).bare ∧
        (Program.ofText source).1.lexemes = essential (Lexing.ofText source).bare) := by
  have hcanonical := Lexing.canonical_ofText source
  have hproblems : (Program.ofText source).2 = [] ↔
      (Lexing.ofText source).problems = [] ∧ (Program.ofLexemes (Lexing.ofText source).lexemes).problems = [] :=
    List.append_eq_nil_iff
  have hsound : (Program.ofLexemes (Lexing.ofText source).lexemes).problems = [] →
      (Program.ofText source).1.Derives (Lexing.ofText source).bare := derives_of_ofLexemes hcanonical
  rw [hproblems]
  refine ⟨and_congr_right fun _ => ⟨fun h => ⟨_, hsound h⟩, ?_⟩, and_congr_right fun _ => ⟨fun h => ?_, ?_⟩⟩
  · rintro ⟨p, hp⟩
    exact hp.accepted hcanonical
  · exact ⟨hsound h, (hsound h).lexemes_eq⟩
  · rintro ⟨hp, _⟩
    exact hp.accepted hcanonical

end FlightScript
