import FlightScript.Proofs.Parts

/-!
# `Proofs.ExpressionParts` — what the readings of names and expressions find

One rule for each reading, from names up to lists of arguments. A reading that is given the reading of whole expressions
asks it only at cursors that at least one lexeme leads to, so a given reading that is right there will do.

## Contents

* `finds_declName`, `finds_parameters`, `finds_reference`: names;
* `tracks_primary`, `tracks_powerBody`, `tracks_binaryLevel`, `tracks_notBody`: the levels;
* `tracks_expressionBody`, `expression_knot`, `finds_expression`: whole expressions;
* `finds_argumentList`: lists of arguments.
-/

namespace FlightScript

open Parse Surface

variable {c d : Cursor}

/-! ## Names

A name is the part itself, and it has the span of the lexemes it was read from. -/

/-- A declared name, whether a literal or words, has the span of its lexemes. -/
theorem finds_declName (c : Cursor) : Tracks declName declName c (Finds (fun n => [Part.name n]) c) := by
  have hdraft : Tracks declName declName c (Drafts Part.name (fun n => [Part.name n]) c) := by
    refine .start ((Tracks.eat (by decide)).bind ?_)
    rintro _ d (⟨rfl, rfl⟩ | ⟨l, rfl, hl, rfl, hadv⟩)
    · refine (Tracks.expect (by decide)).bind ?_
      rintro _ e (⟨rfl, rfl⟩ | ⟨l, rfl, _, _, hadv⟩)
      · exact .pure (.none (.refl _))
      · refine Tracks.dottedTail.bind fun more e' hsteps => .spanFrom (.pure ?_)
        exact .some (hadv.trans_steps hsteps) rfl (.of_spanFrom rfl) (by simp)
    · exact .pure (.some hadv rfl (.of_lexeme rfl hl) (by simp))
  exact hdraft.strengthen fun o d ps heq h => h.finds (fun n hn => .name (hn ▸ heq)) fun _ => rfl

/-- Every name in a list with commas has the span of its lexemes, for any budget. -/
theorem finds_declNames (n : Nat) (c : Cursor) : Tracks (declNames n) (declNames n) c fun names d =>
    c.Steps d ∧ ∀ x ∈ names.map Part.name, x.Located c := by
  induction n generalizing c with
  | zero => exact .pure ⟨.refl _, by simp⟩
  | succ n ih =>
      refine (finds_declName c).bind fun o d hname => ?_
      have hlocated := hname.located_names
      refine (Tracks.eat (by decide)).bind ?_
      rintro _ e (⟨rfl, rfl⟩ | ⟨l, rfl, _, _, hadv⟩)
      · exact .pure ⟨hname.steps, hlocated⟩
      · have hce := hname.steps.trans hadv.steps
        refine (ih e).bind ?_
        rintro more f ⟨hsteps, hmore⟩
        refine .pure ⟨hce.trans hsteps, ?_⟩
        rw [List.map_append, List.forall_mem_append]
        exact ⟨hlocated, fun x hx => (hmore x hx).of_suffix hce.suffix⟩

/-- Parameters have the span from the opening parenthesis to the last lexeme read, and so has each name among
them. -/
theorem finds_parameters (c : Cursor) : Tracks parameters parameters c (Finds Parameters.parts c) := by
  have hdraft : Tracks parameters parameters c (Drafts Part.parameters Parameters.parts c) := by
    refine .isAt ?_
    by_cases hat : c.isAt .leftParen = true
    · rw [if_pos hat]
      have htoken : c.token? = some .leftParen := by simpa [Cursor.isAt] using hat
      refine .start (.advance htoken (by decide) fun hadv => ?_)
      -- there may be no names between the parentheses
      have hnames : Tracks (do
            if ← Parse.isAt .rightParen then pure []
            else
              let budget ← Parse.remaining
              declNames (budget + 1)) (do
            if ← Parse.isAt .rightParen then pure []
            else
              let budget ← Parse.remaining
              declNames (budget + 1)) c.next fun names d =>
          c.next.Steps d ∧ ∀ x ∈ names.map Part.name, x.Located c.next := by
        refine .isAt ?_
        split
        · exact .pure ⟨.refl _, by simp⟩
        · exact .remaining (finds_declNames _ _)
      refine hnames.bind ?_
      rintro names d ⟨hsteps, hlocated⟩
      refine (Tracks.expect (by decide)).bind fun o e hparen => .spanFrom (.pure ?_)
      refine .some (hadv.trans_steps (hsteps.trans (Tracks.steps_of_expect hparen))) rfl (.of_spanFrom rfl) ?_
      exact fun x hx => (hlocated x hx).of_suffix hadv.suffix
    · rw [if_neg hat]
      exact .pure (.none (.refl _))
  exact hdraft.strengthen fun o d ps heq h => h.finds (fun n hn => .parameters (hn ▸ heq)) fun _ => rfl

/-- A name made of words, if a word comes next. -/
theorem steps_words {t : Token} (hc : c.token? = some t) :
    Tracks (if t.isWordLike then do
        match ← Parse.lexeme? with
        | none => pure none
        | some l =>
          let more ← dottedTail
          pure (some (Name.words ⟨l.text, more⟩))
      else mismatch "member name") (if t.isWordLike then do
        match ← Parse.lexeme? with
        | none => pure none
        | some l =>
          let more ← dottedTail
          pure (some (Name.words ⟨l.text, more⟩))
      else mismatch "member name") c fun _ d => c.Steps d := by
  split
  · rename_i hword
    refine (Tracks.lexeme? hc (by rintro rfl; cases hword)).bind ?_
    rintro _ d ⟨l, rfl, _, _, hadv⟩
    exact Tracks.dottedTail.bind fun more e hsteps => .pure (hadv.steps.trans hsteps)
  · exact .mismatch (.refl _)

/-- A name behind a qualifier takes lexemes, or none if it is missed. -/
theorem steps_member (c : Cursor) : Tracks member member c fun _ d => c.Steps d := by
  refine .token? ?_
  cases htoken : c.token? with
  | none => exact .mismatch (.refl _)
  | some t =>
      have hword := steps_words htoken
      cases t with
      | string =>
          refine (Tracks.lexeme? htoken (by decide)).bind ?_
          rintro _ d ⟨l, rfl, _, _, hadv⟩
          exact .pure hadv.steps
      | _ => exact hword

/-- A use of a name has the span from its qualifier, or its first word, to its last word. -/
theorem finds_reference (c : Cursor) : Tracks reference reference c (Finds (fun r => [Part.reference r]) c) := by
  have hdraft : Tracks reference reference c (Drafts Part.reference (fun r => [Part.reference r]) c) := by
    refine .start (.token? ?_)
    cases hq : qualifier? c.token? with
    | some q =>
        obtain ⟨t, htoken, ht⟩ : ∃ t, c.token? = some t ∧ t ≠ .rightBrace := by
          cases htoken : c.token? with
          | none => rw [htoken] at hq; cases hq
          | some t =>
              refine ⟨t, rfl, ?_⟩
              rintro rfl
              rw [htoken] at hq
              cases hq
        refine .advance htoken ht fun hadv => (Tracks.expect (by decide)).bind ?_
        rintro _ d (⟨rfl, rfl⟩ | ⟨l, rfl, _, _, hdot⟩)
        · exact .pure (.none hadv.steps)
        · refine (steps_member d).bind fun name e hsteps => .spanFrom (.pure ?_)
          exact .some (hadv.trans_steps (hdot.steps.trans hsteps)) rfl (.of_spanFrom rfl) (by simp)
    | none =>
        refine (Tracks.expect (by decide)).bind ?_
        rintro _ d (⟨rfl, rfl⟩ | ⟨l, rfl, _, _, hadv⟩)
        · exact .pure (.none (.refl _))
        · refine Tracks.dottedTail.bind fun more e hsteps => .spanFrom (.pure ?_)
          exact .some (hadv.trans_steps hsteps) rfl (.of_spanFrom rfl) (by simp)
  exact hdraft.strengthen fun o d ps heq h => h.finds (fun n hn => .reference (hn ▸ heq)) fun _ => rfl

/-! ## Primary expressions

The readings inside parentheses, calls and conditionals are asked behind at least one lexeme, which is why they
may be given ones. -/

/-- The parts of an expression that was read, or of the one that stands for none, are where they should be. -/
theorem Finds.located_orMissing {o : Option Expression} (h : Finds Expression.parts c o d) :
    ∀ x ∈ (orMissing o).parts, x.Located c := by
  cases o with
  | none => simp [orMissing, Expression.parts]
  | some e => exact h.located e rfl

theorem Expression.partsAll_append (es fs : List Expression) :
    Expression.partsAll (es ++ fs) = Expression.partsAll es ++ Expression.partsAll fs := by
  induction es with
  | nil => rfl
  | cons e es ih => rw [List.cons_append, Expression.partsAll, Expression.partsAll, ih, List.append_assoc]

theorem Expression.partsAll_toList (o : Option Expression) : Expression.partsAll o.toList = (orMissing o).parts := by
  cases o with
  | none => rfl
  | some e => exact List.append_nil e.parts

/-- A given reading of whole expressions is right at every cursor that some lexeme leads to. -/
abbrev RightBehind (expr : ExpressionParse) (c : Cursor) : Prop :=
  ∀ d, c.Advances d → Tracks expr expression d (Finds Expression.parts d)

section Primary

variable {expr : ExpressionParse} {t : Token}

/-- An expression behind a lexeme is asked for behind it; without the lexeme it is not asked for at all. -/
theorem tracks_expressionAfter (hexpr : RightBehind expr c) (ht : t ≠ .rightBrace) {expected : String} :
    Tracks (expressionAfter expr t expected) (expressionAfter expression t expected) c fun e d =>
      c.Steps d ∧ ∀ x ∈ e.parts, x.Located c := by
  refine (Tracks.expect ht).bind ?_
  rintro _ d (⟨rfl, rfl⟩ | ⟨l, rfl, _, _, hadv⟩)
  · exact .pure ⟨.refl _, by simp [Expression.parts]⟩
  · refine (hexpr d hadv).bind fun o e h => .pure ⟨hadv.steps.trans h.steps, fun x hx => ?_⟩
    exact (h.located_orMissing x hx).of_suffix hadv.suffix

/-- A conditional expression asks for its parts behind its three keywords. -/
theorem tracks_conditional (hexpr : RightBehind expr c) (hc : c.token? = some (.keyword .if_)) :
    Tracks (conditional expr) (conditional expression) c (Drafts Part.expression Expression.parts c) := by
  refine .start (.advance hc (by decide) fun hadv => ?_)
  refine (hexpr _ hadv).bind fun condition d hcondition => ?_
  have hd := hadv.trans_steps hcondition.steps
  refine (tracks_expressionAfter (fun f hf => hexpr f (hd.trans hf)) (by decide)).bind fun consequent e hconsequent => ?_
  have he := hd.trans_steps hconsequent.1
  refine (tracks_expressionAfter (fun f hf => hexpr f (he.trans hf)) (by decide)).bind fun alternative f halternative => ?_
  refine .spanFrom (.pure (.some (he.trans_steps halternative.1) rfl (.of_spanFrom rfl) ?_))
  rw [List.forall_mem_append, List.forall_mem_append]
  refine ⟨⟨?_, ?_⟩, ?_⟩
  · exact fun x hx => (hcondition.located_orMissing x hx).of_suffix hadv.suffix
  · exact fun x hx => (hconsequent.2 x hx).of_suffix hd.suffix
  · exact fun x hx => (halternative.2 x hx).of_suffix he.suffix

/-- The items of a call. The first is asked for at once, so the given reading has to be right here as well; the
others are behind commas. -/
theorem tracks_callItems (n : Nat) (hexpr : ∀ d, c.Steps d → Tracks expr expression d (Finds Expression.parts d)) :
    Tracks (callItems expr n) (callItems expression n) c fun es d =>
      c.Steps d ∧ ∀ x ∈ Expression.partsAll es, x.Located c := by
  induction n generalizing c with
  | zero => exact .pure ⟨.refl _, by simp [Expression.partsAll]⟩
  | succ n ih =>
      refine (hexpr c (.refl c)).bind fun o d h => (Tracks.eat (by decide)).bind ?_
      rintro _ e (⟨rfl, rfl⟩ | ⟨l, rfl, _, _, hadv⟩)
      · refine .pure ⟨h.steps, ?_⟩
        rw [Expression.partsAll_toList]
        exact h.located_orMissing
      · have hce := h.steps.trans hadv.steps
        refine (ih fun f hf => hexpr f (hce.trans hf)).bind ?_
        rintro more f ⟨hsteps, hmore⟩
        refine .pure ⟨hce.trans hsteps, ?_⟩
        rw [Expression.partsAll_append, Expression.partsAll_toList, List.forall_mem_append]
        exact ⟨h.located_orMissing, fun x hx => (hmore x hx).of_suffix hce.suffix⟩

/-- The arguments of a call are behind its parenthesis, so the given reading is right for all of them. -/
theorem tracks_callArguments (hexpr : RightBehind expr c) (hc : c.token? = some .leftParen) :
    Tracks (callArguments expr) (callArguments expression) c fun es d =>
      c.Steps d ∧ ∀ x ∈ Expression.partsAll es, x.Located c := by
  refine .advance hc (by decide) fun hadv => (Tracks.eat (by decide)).bind ?_
  rintro _ d (⟨rfl, rfl⟩ | ⟨l, rfl, _, _, hparen⟩)
  · refine .remaining ((tracks_callItems _ fun f hf => hexpr f (hadv.trans_steps hf)).bind ?_)
    rintro es e ⟨hsteps, hes⟩
    refine (Tracks.expect (by decide)).bind fun o f hparen => .pure ⟨?_, ?_⟩
    · exact hadv.steps.trans (hsteps.trans (Tracks.steps_of_expect hparen))
    · exact fun x hx => (hes x hx).of_suffix hadv.suffix
  · exact .pure ⟨hadv.steps.trans hparen.steps, by simp [Expression.partsAll]⟩

/-- A name or a call has the span from the name to the last lexeme read. -/
theorem tracks_nameOrCall (hexpr : RightBehind expr c) :
    Tracks (nameOrCall expr) (nameOrCall expression) c (Drafts Part.expression Expression.parts c) := by
  refine .start ((finds_reference c).bind fun o d hreference => ?_)
  cases o with
  | none => exact .pure (.none hreference.steps)
  | some r =>
      have hadv := hreference.advances r rfl
      have hlocated := hreference.located r rfl (.reference r) List.mem_cons_self
      refine .isAt ?_
      by_cases hat : d.isAt .leftParen = true
      · rw [if_pos hat, if_pos hat]
        have hopen : d.token? = some .leftParen := by simpa [Cursor.isAt] using hat
        refine (tracks_callArguments (fun f hf => hexpr f (hadv.trans hf)) hopen).bind ?_
        rintro es e ⟨hsteps, hes⟩
        refine .spanFrom (.pure (.some (hadv.trans_steps hsteps) rfl (.of_spanFrom rfl) ?_))
        exact List.forall_mem_cons.mpr ⟨hlocated, fun x hx => (hes x hx).of_suffix hadv.suffix⟩
      · rw [if_neg hat, if_neg hat]
        exact .spanFrom (.pure (.some hadv rfl (.of_spanFrom rfl) (by simpa using hlocated)))

theorem drafts_constant (value : String → Literal) (hc : c.token? = some t) (ht : t ≠ .rightBrace) :
    Tracks (constant value) (constant value) c (Drafts Part.expression Expression.parts c) := by
  refine .start ((Tracks.lexeme? hc ht).bind ?_)
  rintro _ d ⟨l, rfl, _, _, hadv⟩
  exact .spanFrom (.pure (.some hadv rfl (.of_spanFrom rfl) (by simp)))

/-- A number after a sign. -/
theorem drafts_negative (hc : c.token? = some .minus) (hnumber : c.second? = some .number) :
    Tracks (do
        advance
        match ← Parse.lexeme? with
        | none => pure none
        | some l =>
          let span ← Parse.spanFrom c.start
          pure (some (Expression.literal (.number true l.text) span))) (do
        advance
        match ← Parse.lexeme? with
        | none => pure none
        | some l =>
          let span ← Parse.spanFrom c.start
          pure (some (.literal (.number true l.text) span))) c (Drafts Part.expression Expression.parts c) := by
  refine .advance hc (by decide) fun hadv => ?_
  have hnext : c.next.token? = some .number := (Cursor.token?_next hc).trans hnumber
  refine (Tracks.lexeme? hnext (by decide)).bind ?_
  rintro _ d ⟨l, rfl, _, _, hadv'⟩
  exact .spanFrom (.pure (.some (hadv.trans hadv') rfl (.of_spanFrom rfl) (by simp)))

/-- An expression in parentheses. -/
theorem drafts_group (hexpr : RightBehind expr c) (hc : c.token? = some .leftParen) :
    Tracks (do
        advance
        let inner ← expr
        let _ ← Parse.expect .rightParen "')'"
        let span ← Parse.spanFrom c.start
        pure (some (Expression.group (orMissing inner) span))) (do
        advance
        let inner ← expression
        let _ ← Parse.expect .rightParen "')'"
        let span ← Parse.spanFrom c.start
        pure (some (.group (orMissing inner) span))) c (Drafts Part.expression Expression.parts c) := by
  refine .advance hc (by decide) fun hadv => ?_
  refine (hexpr _ hadv).bind fun inner d h => ?_
  refine (Tracks.expect (by decide)).bind fun o e hparen => .spanFrom (.pure ?_)
  refine .some (hadv.trans_steps (h.steps.trans (Tracks.steps_of_expect hparen))) rfl (.of_spanFrom rfl) ?_
  exact fun x hx => (h.located_orMissing x hx).of_suffix hadv.suffix

/-- One case for each token that an expression can begin with. None of the given readings is asked before a
lexeme was taken. -/
theorem tracks_primary (hexpr : RightBehind expr c) :
    Tracks (primary expr) (primary expression) c (Finds Expression.parts c) := by
  have hnone : Tracks (Parse.mismatch "expression") (Parse.mismatch "expression") c
      (Drafts Part.expression Expression.parts c) := .mismatch (.none (.refl c))
  have hdraft : Tracks (primary expr) (primary expression) c (Drafts Part.expression Expression.parts c) := by
    refine .cursor ?_
    cases htoken : c.token? with
    | none => exact hnone
    | some t =>
        cases t with
        | number => exact drafts_constant _ htoken (by decide)
        | string => exact drafts_constant _ htoken (by decide)
        | word => exact tracks_nameOrCall hexpr
        | leftParen => exact drafts_group hexpr htoken
        | minus =>
            by_cases hnumber : c.second? = some .number
            · rw [hnumber]
              exact drafts_negative htoken hnumber
            · have hne : (c.second? == some .number) = false := by simpa using hnumber
              rw [hne]
              exact hnone
        | keyword k =>
            cases k with
            | true_ => exact drafts_constant _ htoken (by decide)
            | false_ => exact drafts_constant _ htoken (by decide)
            | if_ => exact tracks_conditional hexpr htoken
            | this => exact tracks_nameOrCall hexpr
            | var => exact tracks_nameOrCall hexpr
            | local_ => exact tracks_nameOrCall hexpr
            | _ => exact hnone
        | _ => exact hnone
  refine hdraft.strengthen fun o d ps heq h => h.finds (fun e he => ?_) fun _ => rfl
  exact .expression (p := 0) (.operand (he ▸ heq))

end Primary

/-! ## Levels

Each level begins where its first operand begins, so the span of an operation is the one from there to the end of
its last operand. -/

section Levels

variable {operand base next expr : ExpressionParse} {p : Nat}

theorem levelTable_ne_rightBrace {t : Token} {op : Operator} (h : levelTable p t = some op) : t ≠ .rightBrace := by
  rintro rfl
  cases level?_of_levelTable h

/-- A chain of operators, begun at `b`, that has come to its left operand. -/
theorem tracks_operatorChain {b : Cursor} (n : Nat)
    (hoperand : ∀ d, b.Advances d → Tracks operand (level expression p) d (Finds Expression.parts d)) (c : Cursor)
    (lhs : Expression) (hc : b.Advances c) (hchained : Chained p b lhs c) (hlhs : ∀ x ∈ lhs.parts, x.Located b) :
    Tracks (operatorChain (levelTable (p + 1)) operand b.start n lhs)
      (operatorChain (levelTable (p + 1)) (level expression p) b.start n lhs) c
      fun e d => b.Advances d ∧ ∀ x ∈ e.parts, x.Located b := by
  induction n generalizing c lhs with
  | zero => exact .pure ⟨hc, hlhs⟩
  | succ n ih =>
      refine .token? ?_
      cases hop : c.token?.bind (levelTable (p + 1)) with
      | none => exact .pure ⟨hc, hlhs⟩
      | some op =>
          obtain ⟨t, htoken, ht⟩ := Option.bind_eq_some_iff.mp hop
          refine .advance htoken (levelTable_ne_rightBrace ht) fun hadv => ?_
          have hnext := hc.trans hadv
          -- the left operand with this operator and what comes after it is the next left operand
          have hrhs := (hoperand c.next hnext).strengthen (R := fun rhs e =>
            Finds Expression.parts c.next rhs e ∧ ∃ ps, level expression p c.next = ⟨rhs, e, ps⟩)
            fun rhs e ps heq h => ⟨h, ps, heq⟩
          refine hrhs.bind ?_
          rintro rhs e ⟨h, ps, heq⟩
          refine .spanFrom ?_
          have he := hnext.trans_steps h.steps
          have hchained' := Chained.operator hchained hop heq
          refine ih e _ he hchained' ?_
          rw [Expression.parts, List.forall_mem_cons, List.forall_mem_append]
          refine ⟨⟨b, e, List.suffix_rfl, .expression hchained', he.ends, .of_spanFrom rfl⟩, hlhs, fun x hx => ?_⟩
          exact (h.located_orMissing x hx).of_suffix hnext.suffix

/-- **A level of operators that group to the left**: its first operand is asked for at once, the others behind an
operator. -/
theorem tracks_binaryLevel
    (hoperand : ∀ d, c.Steps d → Tracks operand (level expression p) d (Finds Expression.parts d)) :
    Tracks (binaryLevel (levelTable (p + 1)) operand) (binaryLevel (levelTable (p + 1)) (level expression p)) c
      (Finds Expression.parts c) := by
  have hfirst := (hoperand c (.refl c)).strengthen (R := fun o d =>
    Finds Expression.parts c o d ∧ ∃ ps, level expression p c = ⟨o, d, ps⟩) fun o d ps heq h => ⟨h, ps, heq⟩
  refine .start (hfirst.bind ?_)
  rintro o d ⟨h, ps, heq⟩
  cases o with
  | none => exact .pure (.none h.steps)
  | some lhs =>
      refine .remaining ?_
      refine (tracks_operatorChain _ (fun e he => hoperand e he.steps) d lhs (h.advances lhs rfl) (.operand heq)
        (h.located lhs rfl)).bind ?_
      rintro e f ⟨hadv, hlocated⟩
      refine .pure ?_
      refine ⟨hadv.steps, fun _ _ => hadv, ?_⟩
      rintro _ ⟨⟩
      exact hlocated

/-- A power, given the readings of its base and of its exponent. -/
def Parse.powerBody (base next : ExpressionParse) : ExpressionParse := do
  let first ← start
  match ← base with
  | none => pure none
  | some lhs =>
    match ← eat .caret with
    | none => pure (some lhs)
    | some _ =>
      let rhs ← next
      let span ← spanFrom first
      pure (some (.binary .power lhs (orMissing rhs) span))

/-- A power asks for its base at once and for its exponent behind the caret. -/
theorem tracks_powerBody {base' next' : ExpressionParse} (hbase : Tracks base base' c (Finds Expression.parts c))
    (hnext : ∀ d, c.Advances d → Tracks next next' d (Finds Expression.parts d)) :
    Tracks (powerBody base next) (powerBody base' next') c (Drafts Part.expression Expression.parts c) := by
  refine .start (hbase.bind fun o d h => ?_)
  cases o with
  | none => exact .pure (.none h.steps)
  | some lhs =>
      have hadv := h.advances lhs rfl
      refine (Tracks.eat (by decide)).bind ?_
      rintro _ e (⟨rfl, rfl⟩ | ⟨l, rfl, _, _, hcaret⟩)
      · exact .pure h.drafts
      · have he := hadv.trans hcaret
        refine (hnext e he).bind fun rhs f hrhs => .spanFrom (.pure ?_)
        refine .some (he.trans_steps hrhs.steps) rfl (.of_spanFrom rfl) ?_
        rw [List.forall_mem_append]
        exact ⟨h.located lhs rfl, fun x hx => (hrhs.located_orMissing x hx).of_suffix he.suffix⟩

/-- An expression that a level gives is one that a reading gives. -/
theorem finds_of_level {o : Option Expression} {ps : List Problem} (heq : level expression p c = ⟨o, d, ps⟩)
    (h : Drafts Part.expression Expression.parts c o d) : Finds Expression.parts c o d :=
  h.finds (fun _ he => .expression (.operand (he ▸ heq))) fun _ => rfl

/-- **Powers**, whose exponents are powers behind a caret. -/
theorem tracks_power (hbase : ∀ d, c.Steps d → Tracks base (primary expression) d (Finds Expression.parts d)) :
    Tracks (power base) (power (primary expression)) c (Finds Expression.parts c) ∧
      power (primary expression) c = powerBody (primary expression) (power (primary expression)) c := by
  have hknot := Tracks.knot (Q := fun d => Finds Expression.parts d) c.Steps (powerWithin base)
    (powerWithin (primary expression)) (powerBody base) (powerBody (primary expression)) (power (primary expression))
    (fun _ => rfl) (fun _ => rfl) (fun _ => rfl)
    (fun d p hd hp => tracks_powerBody (hbase d hd) fun e he => hp e (hd.trans he.steps) he.length_lt)
    (fun d p hd hp => tracks_powerBody ⟨rfl, (hbase d hd).2⟩ fun e he => hp e (hd.trans he.steps) he.length_lt)
    (fun d o e ps _ heq h => finds_of_level (p := 4) heq h) c (.refl c)
  exact ⟨(hknot.2 _ (Nat.lt_succ_self _)).1, hknot.1⟩

/-- A negation, given the readings of what is negated and of an expression without negation. -/
def Parse.notBody (operand next : ExpressionParse) : ExpressionParse := do
  if ← isAt (.keyword .not) then
    let first ← start
    advance
    let e ← next
    let span ← spanFrom first
    pure (some (.not (orMissing e) span))
  else operand

/-- A negation asks for what it negates behind its word; without the word the operand is asked for at once. -/
theorem tracks_notBody {operand' next' : ExpressionParse}
    (hoperand : Tracks operand operand' c (Finds Expression.parts c))
    (hnext : ∀ d, c.Advances d → Tracks next next' d (Finds Expression.parts d)) :
    Tracks (notBody operand next) (notBody operand' next') c (Drafts Part.expression Expression.parts c) := by
  refine .isAt ?_
  by_cases hat : c.isAt (.keyword .not) = true
  · rw [if_pos hat, if_pos hat]
    have htoken : c.token? = some (.keyword .not) := by simpa [Cursor.isAt] using hat
    refine .start (.advance htoken (by decide) fun hadv => ?_)
    refine (hnext _ hadv).bind fun o d h => .spanFrom (.pure ?_)
    refine .some (hadv.trans_steps h.steps) rfl (.of_spanFrom rfl) ?_
    exact fun x hx => (h.located_orMissing x hx).of_suffix hadv.suffix
  · rw [if_neg hat, if_neg hat]
    exact hoperand.mono fun _ _ h => h.drafts

/-- One more negation than there are lexemes is never read. -/
theorem notWithin_succ (operand : ExpressionParse) (n : Nat) (c : Cursor) (h : c.rest.length ≤ n) :
    notWithin operand n c = notWithin operand (n + 1) c := by
  induction n generalizing c with
  | zero =>
      have hrest : c.rest = [] := List.length_eq_zero_iff.mp (by omega)
      have hat : c.isAt (.keyword .not) = false := by
        unfold Cursor.isAt Cursor.token?
        rw [hrest]
        rfl
      show operand c = (if c.isAt (.keyword .not) = true then _ else operand : ExpressionParse) c
      rw [hat]
      rfl
  | succ n ih =>
      by_cases hat : c.isAt (.keyword .not) = true
      · have htoken : c.token? = some (.keyword .not) := by simpa [Cursor.isAt] using hat
        have hlt := (Cursor.advances_next htoken (by decide)).length_lt
        have hih : Tracks (notWithin operand n) (notWithin operand (n + 1)) c.next fun _ _ => True :=
          ⟨ih c.next (by omega), trivial⟩
        have htracks : Tracks (notWithin operand (n + 1)) (notWithin operand (n + 2)) c fun _ _ => True := by
          refine .isAt ?_
          rw [if_pos hat, if_pos hat]
          refine .start (.advance htoken (by decide) fun _ => ?_)
          exact hih.bind fun o d _ => .spanFrom (.pure trivial)
        exact htracks.1
      · have htracks : Tracks (notWithin operand (n + 1)) (notWithin operand (n + 2)) c fun _ _ => True := by
          refine .isAt ?_
          rw [if_neg hat, if_neg hat]
          exact ⟨rfl, trivial⟩
        exact htracks.1

/-- **Negations**, inside which there may be negations behind the word `not`. -/
theorem tracks_notLevel
    (hoperand : ∀ d, c.Steps d → Tracks operand (comparisons expression) d (Finds Expression.parts d)) :
    Tracks (notLevel operand) (negations expression) c (Finds Expression.parts c) ∧
      negations expression c = notBody (comparisons expression) (negations expression) c := by
  -- the budget of this level is one less than that of the others
  have hwhole : ∀ operand d, notLevel operand d = notWithin operand (d.rest.length + 1) d :=
    fun operand d => notWithin_succ operand _ d (Nat.le_refl _)
  have hknot := Tracks.knot (Q := fun d => Finds Expression.parts d) c.Steps (notWithin operand)
    (notWithin (comparisons expression)) (notBody operand) (notBody (comparisons expression)) (negations expression)
    (fun _ => rfl) (fun _ => rfl) (hwhole _)
    (fun d p hd hp => tracks_notBody (hoperand d hd) fun e he => hp e (hd.trans he.steps) he.length_lt)
    (fun d p hd hp => tracks_notBody ⟨rfl, (hoperand d hd).2⟩ fun e he => hp e (hd.trans he.steps) he.length_lt)
    (fun d o e ps _ heq h => finds_of_level (p := 8) heq h) c (.refl c)
  exact ⟨(hknot.2 _ (Nat.lt_succ_self _)).1.of_eq (hwhole _ c) rfl, hknot.1⟩

/-! A given reading of whole expressions that is right behind a cursor is right behind every later one, so one level
after another follows the true ones. -/

theorem RightBehind.of_steps (h : RightBehind expr c) (hcd : c.Steps d) : RightBehind expr d :=
  fun e he => h e (hcd.trans_advances he)

theorem tracks_powers (h : RightBehind expr c) :
    Tracks (power (primary expr)) (power (primary expression)) c (Finds Expression.parts c) :=
  (tracks_power fun _ hd => tracks_primary (h.of_steps hd)).1

theorem tracks_products (h : RightBehind expr c) :
    Tracks (products expr) (products expression) c (Finds Expression.parts c) :=
  tracks_binaryLevel (p := 4) fun _ hd => tracks_powers (h.of_steps hd)

theorem tracks_sums (h : RightBehind expr c) : Tracks (sums expr) (sums expression) c (Finds Expression.parts c) :=
  tracks_binaryLevel (p := 5) fun _ hd => tracks_products (h.of_steps hd)

theorem tracks_comparisons (h : RightBehind expr c) :
    Tracks (comparisons expr) (comparisons expression) c (Finds Expression.parts c) :=
  tracks_binaryLevel (p := 6) fun _ hd => tracks_sums (h.of_steps hd)

theorem tracks_negations (h : RightBehind expr c) :
    Tracks (negations expr) (negations expression) c (Finds Expression.parts c) :=
  (tracks_notLevel fun _ hd => tracks_comparisons (h.of_steps hd)).1

theorem tracks_conjunctions (h : RightBehind expr c) :
    Tracks (conjunctions expr) (conjunctions expression) c (Finds Expression.parts c) :=
  tracks_binaryLevel (p := 8) fun _ hd => tracks_negations (h.of_steps hd)

theorem tracks_operators (h : RightBehind expr c) :
    Tracks (operators expr) (operators expression) c (Finds Expression.parts c) :=
  tracks_binaryLevel (p := 9) fun _ hd => tracks_conjunctions (h.of_steps hd)

end Levels

/-! ## Whole expressions

Here the knot is tied: the reading with a budget is shown to do what the reading without one does. -/

/-- A whole expression, given the reading of conditional ones and that of the loosest level. -/
def Parse.expressionBody (branches levels : ExpressionParse) : ExpressionParse := do
  if ← isAt (.keyword .if_) then branches
  else levels

/-- A conditional expression is a primary one too. -/
theorem primary_of_if (expr : ExpressionParse) (h : c.token? = some (.keyword .if_)) :
    primary expr c = conditional expr c := by
  rw [primary, cursor_bind, h]

/-- A whole expression is a conditional, told by its word, or what the loosest level gives. -/
theorem tracks_expressionBody {branches levels levels' : ExpressionParse}
    (hbranches : c.token? = some (.keyword .if_) →
      Tracks branches (conditional expression) c (Drafts Part.expression Expression.parts c))
    (hlevels : Tracks levels levels' c (Finds Expression.parts c)) :
    Tracks (expressionBody branches levels) (expressionBody (conditional expression) levels') c
      (Finds Expression.parts c) := by
  refine .isAt ?_
  by_cases hat : c.isAt (.keyword .if_) = true
  · rw [if_pos hat, if_pos hat]
    have htoken : c.token? = some (.keyword .if_) := by simpa [Cursor.isAt] using hat
    refine (hbranches htoken).strengthen fun o d ps heq h => ?_
    exact finds_of_level (p := 0) ((primary_of_if expression htoken).trans heq) h
  · rw [if_neg hat, if_neg hat]
    exact hlevels

/-- The reading of whole expressions satisfies its equation without a budget, and what it finds has its spans.
Both are shown at once, since the first makes the second an induction over the lexemes that are left. -/
theorem expression_knot (c : Cursor) :
    expression c = expressionBody (conditional expression) (operators expression) c ∧
      Tracks expression expression c (Finds Expression.parts c) := by
  have hbody : ∀ c expr, True → (∀ d, True → d.rest.length < c.rest.length →
      Tracks expr expression d (Finds Expression.parts d)) →
      Tracks (expressionBody (conditional expr) (operators expr))
        (expressionBody (conditional expression) (operators expression)) c (Finds Expression.parts c) := by
    intro c expr _ hexpr
    have hright : RightBehind expr c := fun d hd => hexpr d trivial hd.length_lt
    exact tracks_expressionBody (tracks_conditional hright) (tracks_operators hright)
  have hknot := Tracks.knot (Q := fun d => Finds Expression.parts d) (fun _ => True) expressionWithin expressionWithin
    (fun expr => expressionBody (conditional expr) (operators expr))
    (fun expr => expressionBody (conditional expr) (operators expr)) expression (fun _ => rfl) (fun _ => rfl)
    (fun _ => rfl) hbody hbody (fun _ _ _ _ _ _ h => h) c trivial
  exact ⟨hknot.1, rfl, (hknot.2 _ (Nat.lt_succ_self _)).1.2⟩

/-- **What an expression is made of**, whatever the lexemes: every part of it has the span of its lexemes. -/
theorem finds_expression (c : Cursor) : Tracks expression expression c (Finds Expression.parts c) := (expression_knot c).2

theorem rightBehind_expression (c : Cursor) : RightBehind expression c := fun d _ => finds_expression d

/-- The items of a list, if the whole of it is read, by induction over the budget. -/
theorem finds_listItems (n : Nat) (c : Cursor) : Tracks (listItems n) (listItems n) c fun o d =>
    c.Steps d ∧ ∀ es, o = some es → ∀ x ∈ Expression.partsAll es, x.Located c := by
  induction n generalizing c with
  | zero => exact .pure ⟨.refl c, by simp⟩
  | succ n ih =>
      refine (finds_expression c).bind fun o d h => ?_
      cases o with
      | none => exact .pure ⟨h.steps, by simp⟩
      | some e =>
          have hlocated := h.located e rfl
          refine (Tracks.eat (by decide)).bind ?_
          rintro _ f (⟨rfl, rfl⟩ | ⟨l, rfl, _, _, hadv⟩)
          · refine .pure ⟨h.steps, ?_⟩
            rintro _ ⟨⟩
            simpa [Expression.partsAll] using hlocated
          · have hf := h.steps.trans hadv.steps
            refine (ih f).bind ?_
            rintro more g ⟨hsteps, hmore⟩
            refine .pure ⟨hf.trans hsteps, ?_⟩
            intro es hes
            obtain ⟨fs, rfl, rfl⟩ := Option.map_eq_some_iff.mp hes
            rw [Expression.partsAll, List.forall_mem_append]
            exact ⟨hlocated, fun x hx => (hmore fs rfl x hx).of_suffix hf.suffix⟩

/-- The arguments in a list have their spans, and whether or not the list is found lexemes are only taken in
order. -/
theorem finds_argumentList (c : Cursor) : Tracks argumentList argumentList c fun o d =>
    c.Steps d ∧ ∀ es, o = some es → ∀ x ∈ Expression.partsAll es, x.Located c := by
  refine (Tracks.expect (by decide)).bind ?_
  rintro _ d (⟨rfl, rfl⟩ | ⟨l, rfl, _, _, hopen⟩)
  · exact .pure ⟨.refl _, by simp⟩
  · refine (Tracks.eat (by decide)).bind ?_
    rintro _ e (⟨rfl, rfl⟩ | ⟨l, rfl, _, _, hclose⟩)
    · refine .remaining ((finds_listItems _ _).bind ?_)
      rintro o f ⟨hsteps, hitems⟩
      have hf := hopen.steps.trans hsteps
      cases o with
      | none => exact .pure ⟨hf, by simp⟩
      | some es =>
          refine (Tracks.expect (by decide)).bind ?_
          rintro _ g (⟨rfl, rfl⟩ | ⟨l, rfl, _, _, hclose⟩)
          · exact .pure ⟨hf, by simp⟩
          · refine .pure ⟨hf.trans hclose.steps, ?_⟩
            rintro _ ⟨⟩ x hx
            exact (hitems es rfl x hx).of_suffix hopen.suffix
    · refine .pure ⟨hopen.steps.trans hclose.steps, ?_⟩
      rintro _ ⟨⟩
      simp [Expression.partsAll]

end FlightScript
