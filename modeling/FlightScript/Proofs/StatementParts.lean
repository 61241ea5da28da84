import FlightScript.Proofs.ExpressionParts

/-!
# `Proofs.StatementParts` — what the reading of a statement finds

A header that is not followed by a block leaves the cursor before the line ends that were looked through, while the end
of the last read lexeme is behind them. So a headed statement may overhang line ends that are still to read. The loop
over the statements of a block then reads a line end first, and with it the end of the last read lexeme is right again.

The reading of blocks is a given one here; it has to be right at the braces behind the cursor.

## Contents

* `Cursor.Heads`, `Cursor.Reaches`: where headers and rounds of a loop come to;
* statements without blocks;
* `tracks_blockAfterHeader`, `tracks_rungBody`, `tracks_rungWith`: what follows a header, chains of conditions;
* `tracks_statementBody`, `tracks_statement`: one statement.
-/

namespace FlightScript

open Parse Surface

/-! ## Where headers and rounds come to

Three ways to come from one cursor to another, by what is the last lexeme taken: anything but a closing brace for
a header, a closing brace for a block, and anything at all for a round of a loop. -/

namespace Cursor

variable {b c d e : Cursor} {taken more : List Lexeme}

/-- Lexemes are taken, and the last one is no closing brace. -/
def Heads (c d : Cursor) : Prop := ∃ taken l, c.Passes d (taken ++ [l]) ∧ l.token ≠ .rightBrace

theorem Advances.heads (h : c.Advances d) : c.Heads d := by
  obtain ⟨taken, hpass, hbrace, hne⟩ := h
  obtain ⟨front, l, rfl⟩ := (List.eq_nil_or_concat' taken).resolve_left hne
  exact ⟨front, l, hpass, hbrace l (by simp)⟩

theorem Heads.suffix (h : c.Heads d) : d.rest <:+ c.rest := by
  obtain ⟨taken, l, hpass, _⟩ := h
  exact hpass.suffix

theorem Heads.length_lt (h : c.Heads d) : d.rest.length < c.rest.length := by
  obtain ⟨taken, l, hpass, _⟩ := h
  rw [hpass.rest, List.length_append, List.length_append, List.length_singleton]
  omega

/-- A header without a block overhangs the line ends behind it. -/
theorem Heads.ends (h : c.Heads d) :
    c.Ends true { d with lastEnd := lastStop d.lastEnd (d.rest.takeWhile Lexeme.isNewline) } := by
  obtain ⟨taken, l, hpass, hl⟩ := h
  refine ⟨taken ++ [l], by simp, hpass.rest, ?_⟩
  have hover : overhang true (taken ++ [l]) d.rest = d.rest.takeWhile Lexeme.isNewline := by
    unfold overhang
    rw [if_pos]
    simpa using hl
  show lastStop d.lastEnd _ = _
  rw [hover, lastStop_append, hpass.lastEnd]

/-- Where a block ends: lexemes are taken, and the last one is a closing brace unless there is nothing left. -/
def Encloses (c d : Cursor) : Prop :=
  ∃ taken, c.Passes d taken ∧ taken ≠ [] ∧ (taken.getLast?.map Lexeme.token = some .rightBrace ∨ d.rest = [])

/-- Nothing is overhung behind a block. -/
theorem Encloses.ends {headed : Bool} (h : c.Encloses d) : c.Ends headed d := by
  obtain ⟨taken, hpass, hne, hclosed⟩ := h
  have hover : overhang headed taken d.rest = [] := by
    unfold overhang
    split
    · rename_i hopen
      rw [hclosed.resolve_left hopen.2]
      rfl
    · rfl
  refine ⟨taken, hne, hpass.rest, ?_⟩
  rw [hover, List.append_nil]
  exact hpass.lastEnd

theorem Ends.trans_heads {headed : Bool} (h : c.Ends headed d) (h' : d.Heads e) : c.Heads e := by
  obtain ⟨taken, _, hrest, _⟩ := h
  obtain ⟨more, l, hpass, hl⟩ := h'
  refine ⟨taken ++ more, l, ⟨?_, ?_⟩, hl⟩
  · rw [hrest, hpass.rest]
    simp
  · rw [hpass.lastEnd, lastStop_append, lastStop_append _ (taken ++ more)]
    rfl

/-- A round of a loop takes something. The end of the last read lexeme is right unless a line end comes next. -/
def Reaches (c d : Cursor) : Prop :=
  ∃ taken, taken ≠ [] ∧ c.rest = taken ++ d.rest ∧
    (d.lastEnd = lastStop c.lastEnd taken ∨ ∃ l, d.rest.head? = some l ∧ l.isNewline = true)

theorem Reaches.of_passes (h : c.Passes d taken) (hne : taken ≠ []) : c.Reaches d := ⟨taken, hne, h.rest, .inl h.lastEnd⟩

theorem Reaches.suffix (h : c.Reaches d) : d.rest <:+ c.rest := by
  obtain ⟨taken, _, hrest, _⟩ := h
  exact ⟨taken, hrest.symm⟩

theorem Reaches.length_lt (h : c.Reaches d) : d.rest.length < c.rest.length := by
  obtain ⟨taken, hne, hrest, _⟩ := h
  have hpos := List.length_pos_iff.mpr hne
  rw [hrest, List.length_append]
  omega

/-- Whatever ends somewhere reaches there. If it overhangs line ends then a line end comes next, which is the
exception that `Reaches` allows. -/
theorem Ends.reaches {headed : Bool} (h : c.Ends headed d) : c.Reaches d := by
  obtain ⟨taken, hne, hrest, hlast⟩ := h
  refine ⟨taken, hne, hrest, ?_⟩
  unfold overhang at hlast
  split at hlast
  · cases hlines : d.rest with
    | nil =>
        rw [hlines] at hlast
        exact .inl (by simpa using hlast)
    | cons l ls =>
        by_cases hl : l.isNewline = true
        · exact .inr ⟨l, rfl, hl⟩
        · rw [hlines, List.takeWhile_cons_of_neg hl, List.append_nil] at hlast
          exact .inl hlast
  · rw [List.append_nil] at hlast
    exact .inl hlast

/-- Two rounds one after the other. If the first one left the end of the last read lexeme wrong then a line end
comes next, and with it the second round makes it right. -/
theorem Reaches.trans (h : c.Reaches d) (h' : d.Reaches e) : c.Reaches e := by
  obtain ⟨taken, hne, hrest, _⟩ := h
  obtain ⟨more, hne', hrest', hlast⟩ := h'
  refine ⟨taken ++ more, by simp [hne], ?_, ?_⟩
  · rw [hrest, hrest', List.append_assoc]
  · refine hlast.imp_left fun hlast => ?_
    rw [hlast, lastStop_append]
    exact lastStop_of_ne_nil hne' _ _

theorem Reaches.trans_passes (h : c.Reaches d) (h' : d.Passes e more) : c.Reaches e := by
  by_cases hne : more = []
  · subst hne
    obtain ⟨taken, hne, hrest, hlast⟩ := h
    have hsame : d.rest = e.rest := h'.rest
    have hend : e.lastEnd = d.lastEnd := h'.lastEnd
    exact ⟨taken, hne, by rw [hrest, hsame], by rw [hend, ← hsame]; exact hlast⟩
  · exact h.trans (.of_passes h' hne)

/-- At the end of the lexemes the end of the last read lexeme is right. -/
theorem Reaches.encloses_of_nil (h : c.Reaches d) (hd : d.rest = []) : c.Encloses d := by
  obtain ⟨taken, hne, hrest, hlast | ⟨l, hl, _⟩⟩ := h
  · exact ⟨taken, ⟨hrest, hlast⟩, hne, .inr hd⟩
  · rw [hd] at hl
    cases hl

/-- A closing brace read after a round makes the end of the last read lexeme right. -/
theorem Reaches.encloses_of_brace {l : Lexeme} (h : c.Reaches d) (h' : d.Passes e [l]) (hl : l.token = .rightBrace) :
    c.Encloses e := by
  obtain ⟨taken, _, hrest, _⟩ := h
  refine ⟨taken ++ [l], ⟨?_, ?_⟩, by simp, .inl (by simp [hl])⟩
  · rw [hrest, h'.rest, List.append_assoc]
  · rw [h'.lastEnd, lastStop_append]
    rfl

end Cursor

/-! ## Statements without blocks

These overhang nothing, since they look past no line end. -/

variable {c d : Cursor}

/-- What both readings give is as wanted, and whichever is kept is kept on both sides. -/
theorem Tracks.firstClean {α : Type} {p : Parse (Option α)} {q : Parse α} {Q : α → Cursor → Prop}
    (hp : Tracks p p c fun o d => ∀ a, o = some a → Q a d) (hq : Tracks q q c Q) :
    Tracks (Parse.firstClean p q) (Parse.firstClean p q) c Q := by
  have hcases : Parse.firstClean p q c = q c ∨
      ∃ a, (p c).value = some a ∧ Parse.firstClean p q c = ⟨a, (p c).cursor, []⟩ := by
    unfold Parse.firstClean
    dsimp only
    split
    · rename_i a ha
      split
      · exact .inr ⟨a, ha, rfl⟩
      · exact .inl rfl
    · exact .inl rfl
  refine ⟨rfl, ?_⟩
  rcases hcases with heq | ⟨a, ha, heq⟩
  · rw [heq]
    exact hq.2
  · rw [heq]
    exact hp.2 a ha

theorem finds_singleArgument (c : Cursor) : Tracks singleArgument singleArgument c fun a d =>
    c.Steps d ∧ ∀ x ∈ a.parts, x.Located c := by
  refine (finds_expression c).bind fun o d h => ?_
  cases o with
  | none => exact .pure ⟨h.steps, by simp [Arguments.parts]⟩
  | some e => exact .pure ⟨h.steps, h.located e rfl⟩

/-- The arguments of an instruction, whichever of the two ways they are read in, have their spans. -/
theorem finds_instructionArguments (c : Cursor) :
    Tracks instructionArguments instructionArguments c fun a d => c.Steps d ∧ ∀ x ∈ a.parts, x.Located c := by
  refine .cursor ?_
  by_cases hend : c.atStatementEnd = true
  · rw [if_pos hend]
    exact .pure ⟨.refl c, by simp [Arguments.parts]⟩
  · rw [if_neg hend]
    split
    · refine .firstClean ?_ (finds_singleArgument c)
      refine (finds_argumentList c).bind ?_
      rintro o d ⟨hsteps, hitems⟩
      refine .pure fun a ha => ?_
      obtain ⟨items, rfl, rfl⟩ := Option.map_eq_some_iff.mp ha
      exact ⟨hsteps, hitems items rfl⟩
    · exact finds_singleArgument c

/-- A statement without a block that was found, its own span not yet known to be read. -/
abbrev DraftsStatement (c : Cursor) (o : Option Statement) (d : Cursor) : Prop :=
  Drafts Part.statement Statement.parts c o d ∧ ∀ s, o = some s → (Part.statement s).isHeaded = false

/-- The rest of an assignment behind its target. The span begins where the target did. -/
theorem drafts_assignment {target : Target} (hcd : c.Advances d) (htarget : ∀ x ∈ target.parts, x.Located c) :
    Tracks (assignment c.start target) (assignment c.start target) d (DraftsStatement c) := by
  have hrest : ∀ operator t, d.token? = some t → t ≠ .rightBrace →
      Tracks (assignment.rest c.start target operator) (assignment.rest c.start target operator) d
        (DraftsStatement c) := by
    intro operator t htoken ht
    refine .advance htoken ht fun hadv => ?_
    refine (finds_expression _).bind fun o e h => .spanFrom (.pure ⟨?_, ?_⟩)
    · have hnext := hcd.trans hadv
      refine .some (hnext.trans_steps h.steps) rfl (.of_spanFrom rfl) ?_
      rw [List.forall_mem_append]
      exact ⟨htarget, fun x hx => (h.located_orMissing x hx).of_suffix hnext.suffix⟩
    · rintro _ ⟨⟩
      rfl
  have hnone : Tracks (Parse.mismatch "'=' or '+='") (Parse.mismatch "'=' or '+='") d (DraftsStatement c) :=
    .mismatch ⟨.none hcd.steps, by simp⟩
  refine .token? ?_
  cases htoken : d.token? with
  | none => exact hnone
  | some t =>
      cases t with
      | assign => exact hrest .set _ htoken (by decide)
      | plusAssign => exact hrest .change _ htoken (by decide)
      | _ => exact hnone

/-- An assignment or an instruction that begins with a name has the span from there on. -/
theorem drafts_namedStatement (c : Cursor) : Tracks namedStatement namedStatement c (DraftsStatement c) := by
  refine .start ((finds_reference c).bind fun o d h => ?_)
  cases o with
  | none => exact .pure ⟨.none h.steps, by simp⟩
  | some r =>
      have hadv := h.advances r rfl
      have hlocated := h.located r rfl
      refine .cursor ?_
      split
      · exact drafts_assignment hadv hlocated
      · refine (finds_instructionArguments d).bind ?_
        rintro a e ⟨hsteps, ha⟩
        refine .spanFrom (.pure ⟨?_, ?_⟩)
        · refine .some (hadv.trans_steps hsteps) rfl (.of_spanFrom rfl) ?_
          rw [List.forall_mem_cons]
          exact ⟨hlocated _ List.mem_cons_self, fun x hx => (ha x hx).of_suffix hadv.suffix⟩
        · rintro _ ⟨⟩
          rfl

theorem drafts_groupAssignment (hc : c.token? = some .leftParen) :
    Tracks groupAssignment groupAssignment c (DraftsStatement c) := by
  refine .start (.advance hc (by decide) fun hadv => ?_)
  refine (finds_expression _).bind fun o d h => (Tracks.expect (by decide)).bind fun _ e hparen => ?_
  refine drafts_assignment (hadv.trans_steps (h.steps.trans (Tracks.steps_of_expect hparen))) ?_
  exact fun x hx => (h.located_orMissing x hx).of_suffix hadv.suffix

/-- A wait has the span from its word on, also where nothing follows. -/
theorem drafts_waitStatement (hc : c.token? = some (.keyword .wait)) :
    Tracks (some <$> waitStatement) (some <$> waitStatement) c (DraftsStatement c) := by
  refine Tracks.map (Q := fun s d => DraftsStatement c (some s) d) ?_ fun _ _ h => h
  refine .start (.advance hc (by decide) fun hadv => ?_)
  refine (Tracks.eat (by decide)).bind fun word d hword => ?_
  have hd := hadv.trans_steps (Tracks.steps_of_expect hword)
  have hfinish : ∀ o e, Finds Expression.parts d o e →
      Tracks (do let span ← Parse.spanFrom c.start; pure (Statement.wait word.isSome (orMissing o) span))
        (do let span ← Parse.spanFrom c.start; pure (Statement.wait word.isSome (orMissing o) span)) e
        fun s d => DraftsStatement c (some s) d := by
    intro o e h
    refine .spanFrom (.pure ⟨.some (hd.trans_steps h.steps) rfl (.of_spanFrom rfl) ?_, ?_⟩)
    · exact fun x hx => (h.located_orMissing x hx).of_suffix hd.suffix
    · rintro _ ⟨⟩
      rfl
  -- a time may be left out, a condition may not
  refine .cursor ?_
  dsimp only
  split
  · exact hfinish none d (.none (.refl d))
  · exact (finds_expression d).bind hfinish

/-! ## Statements with blocks

Where a headed statement ends depends on whether its block is there. -/

/-- A block was read: it ends with a closing brace or with the lexemes, and its parts are located. -/
structure BlockRead (c : Cursor) (b : Block) (d : Cursor) : Prop where
  encloses : c.Encloses d
  braces : ∃ body, b = .braces body (d.spanFrom c.start)
  located : ∀ x ∈ b.parts, x.Located c

/-- A given reading of blocks is right at every brace behind a cursor. -/
abbrev RightBlocks (block : Parse Block) (c : Cursor) : Prop :=
  ∀ d, d.rest <:+ c.rest → d.rest.length < c.rest.length → d.token? = some .leftBrace →
    Tracks block Parse.block d (BlockRead d)

theorem RightBlocks.of_suffix {block : Parse Block} (h : RightBlocks block c) (hcd : d.rest <:+ c.rest) :
    RightBlocks block d :=
  fun e he hlt htoken => h e (he.trans hcd) (Nat.lt_of_lt_of_le hlt hcd.length_le) htoken

section Headed

variable {block : Parse Block} {b : Cursor}

/-- What comes next is still to come behind the line ends that are passed over. -/
theorem Cursor.isAt_skipNewlines {t : Token} (ht : t ≠ .newline) (h : c.isAt t = true) :
    (skipNewlines c).cursor.isAt t = true := by
  obtain ⟨_, hdrop⟩ := c.passes_skipNewlines
  obtain ⟨l, hl, hrest, _⟩ := Cursor.exists_of_token? (beq_iff_eq.mp h)
  have hnewline : ¬ l.isNewline = true := by simpa [Lexeme.isNewline, hl] using ht
  rw [Cursor.isAt, Cursor.token?, hdrop, hrest, List.dropWhile_cons_of_neg hnewline]
  simp [hl]

/-- Where there is no brace none is read. -/
theorem tracks_missingBlock (hc : ¬ c.isAt .leftBrace = true) :
    Tracks (do
        let _ ← Parse.expect .leftBrace "'\x7b'"
        pure Block.missing) (do
        let _ ← Parse.expect .leftBrace "'\x7b'"
        pure Block.missing) c fun body d => body = .missing ∧ d = c := by
  have heat : Parse.eat .leftBrace c = ⟨none, c, []⟩ := if_neg hc
  have hexpect : Tracks (Parse.expect .leftBrace "'\x7b'") (Parse.expect .leftBrace "'\x7b'") c fun _ d => d = c :=
    .peek heat (.report (.pure rfl))
  exact hexpect.bind fun _ _ hd => .pure ⟨rfl, hd⟩

/-- **The block after a header.** With a block the header ends where the block ends; without one it overhangs the line
ends behind it. -/
theorem tracks_blockAfterHeader (hblock : RightBlocks block b) (hbc : b.Heads c) :
    Tracks (blockAfterHeader block) (blockAfterHeader Parse.block) c fun body d =>
      b.Ends true d ∧ ∀ x ∈ body.parts, x.Located c := by
  obtain ⟨hskip, _⟩ := c.passes_skipNewlines
  by_cases hat : (skipNewlines c).cursor.isAt .leftBrace = true
  · have hunfold : ∀ block, blockAfterHeader block c = block (skipNewlines c).cursor := fun _ => if_pos hat
    have htoken : (skipNewlines c).cursor.token? = some .leftBrace := beq_iff_eq.mp hat
    have hsuffix := hskip.suffix
    have hright := hblock _ (hsuffix.trans hbc.suffix) (Nat.lt_of_le_of_lt hsuffix.length_le hbc.length_lt) htoken
    refine ⟨?_, ?_⟩
    · rw [hunfold, hunfold, hright.1]
    · rw [hunfold]
      obtain ⟨hencloses, _, hlocated⟩ := hright.2
      refine ⟨?_, fun x hx => (hlocated x hx).of_suffix hsuffix⟩
      obtain ⟨front, l, hfront, _⟩ := hbc
      exact hfront.trans_ends (hskip.trans_ends hencloses.ends)
  · -- the lexemes are those behind the header, but the end of the last read one is that of the line ends
    have hends := hbc.ends
    rw [← hskip.lastEnd] at hends
    -- no brace follows the line ends, so none follows the header
    have hnone : ¬ ({ c with lastEnd := (skipNewlines c).cursor.lastEnd } : Cursor).isAt .leftBrace = true :=
      fun hopen => hat (Cursor.isAt_skipNewlines (by decide) hopen)
    refine ((tracks_missingBlock hnone).mono ?_).of_eq (if_neg hat) (if_neg hat)
    rintro _ _ ⟨rfl, rfl⟩
    exact ⟨hends, by simp [Block.parts]⟩

/-- The word `else`, perhaps behind line ends. -/
theorem tracks_elseWord (c : Cursor) : Tracks elseWord elseWord c fun found d =>
    (found = false ∧ d = c) ∨ (found = true ∧ c.Heads d) := by
  obtain ⟨hskip, _⟩ := c.passes_skipNewlines
  refine ⟨rfl, ?_⟩
  unfold elseWord
  dsimp only
  split
  · rename_i hat
    have htoken : (skipNewlines c).cursor.token? = some (.keyword .else_) := by simpa [Cursor.isAt] using hat
    obtain ⟨l, hl, _, hpass⟩ := Cursor.exists_of_token? htoken
    exact .inr ⟨rfl, _, l, hskip.trans hpass, by rw [hl]; decide⟩
  · exact .inl ⟨rfl, rfl⟩

/-- What a chain of conditions is made of, given the readings of blocks and of a further condition after `else`. -/
def Parse.rungBody (block : Parse Block) (next : Parse Branch) : Parse Branch := do
  let first ← start
  advance
  let condition ← expression
  let _ ← eat (.keyword .then_)
  let consequent ← blockAfterHeader block
  let alternative ← (do
    if ← elseWord then
      if ← isAt (.keyword .if_) then
        let rung ← next
        pure (.elseIf rung.condition rung.consequent rung.alternative rung.span)
      else
        let body ← blockAfterHeader block
        pure (otherwise body)
    else pure Alternative.none)
  let span ← spanFrom first
  pure ⟨orMissing condition, consequent, alternative, span⟩

/-- A condition with its block was read: its span closes, and what is in it is located. -/
structure RungRead (c : Cursor) (b : Branch) (d : Cursor) : Prop where
  ends : c.Ends true d
  span : b.span = d.spanFrom c.start
  located : ∀ x ∈ b.condition.parts ++ b.consequent.parts ++ b.alternative.parts, x.Located c

/-- A given reading of further conditions is right at every `if` behind a cursor. -/
abbrev RightRungs (next : Parse Branch) (c : Cursor) : Prop :=
  ∀ d, d.rest <:+ c.rest → d.rest.length < c.rest.length → d.token? = some (.keyword .if_) →
    Tracks next Parse.rung d (RungRead d)

/-- What stands after `else`. -/
theorem tracks_alternative {next : Parse Branch} (hblock : RightBlocks block b) (hnext : RightRungs next b)
    (hbc : b.Ends true c) :
    Tracks (do
        if ← elseWord then
          if ← Parse.isAt (.keyword .if_) then
            let rung ← next
            pure (.elseIf rung.condition rung.consequent rung.alternative rung.span)
          else
            let body ← blockAfterHeader block
            pure (otherwise body)
        else pure Alternative.none) (do
        if ← elseWord then
          if ← Parse.isAt (.keyword .if_) then
            let rung ← Parse.rung
            pure (.elseIf rung.condition rung.consequent rung.alternative rung.span)
          else
            let body ← blockAfterHeader Parse.block
            pure (otherwise body)
        else pure Alternative.none) c fun alternative d => b.Ends true d ∧ ∀ x ∈ alternative.parts, x.Located b := by
  refine (tracks_elseWord c).bind ?_
  rintro _ d (⟨rfl, rfl⟩ | ⟨rfl, hcd⟩)
  · exact .pure ⟨hbc, by simp [Alternative.parts]⟩
  · -- the word `else` is a lexeme, so whatever was overhung before it is no longer
    have hbd := hbc.trans_heads hcd
    refine .isAt ?_
    by_cases hat : d.isAt (.keyword .if_) = true
    · rw [if_pos hat, if_pos hat]
      have htoken : d.token? = some (.keyword .if_) := by simpa [Cursor.isAt] using hat
      have hrung := (hnext d hbd.suffix hbd.length_lt htoken).strengthen (R := fun rung e =>
        RungRead d rung e ∧ ∃ ps, Parse.rung d = ⟨rung, e, ps⟩) fun rung e ps heq h => ⟨h, ps, heq⟩
      refine hrung.bind ?_
      rintro rung e ⟨h, ps, heq⟩
      refine .pure ⟨?_, ?_⟩
      · obtain ⟨front, l, hpass, _⟩ := hbd
        exact hpass.trans_ends h.ends
      · rw [Alternative.parts, List.forall_mem_cons]
        refine ⟨⟨d, e, hbd.suffix, .rung heq, h.ends, .of_spanFrom (congrArg some h.span)⟩, fun x hx => ?_⟩
        exact (h.located x hx).of_suffix hbd.suffix
    · rw [if_neg hat, if_neg hat]
      refine (tracks_blockAfterHeader hblock hbd).bind ?_
      rintro body e ⟨hends, hbody⟩
      refine .pure ⟨hends, fun x hx => ?_⟩
      cases body with
      | missing => simp [otherwise, Alternative.parts] at hx
      | braces body span => exact (hbody x hx).of_suffix hbd.suffix

/-- **A condition with its block and what stands after `else`.** -/
theorem tracks_rungBody {next : Parse Branch} (hblock : RightBlocks block c) (hnext : RightRungs next c)
    (hc : c.token? = some (.keyword .if_)) :
    Tracks (rungBody block next) (rungBody Parse.block Parse.rung) c (RungRead c) := by
  refine .start (.advance hc (by decide) fun hadv => ?_)
  refine (finds_expression _).bind fun condition d hcondition => ?_
  refine (Tracks.eat (by decide)).bind fun word e hword => ?_
  have he := hadv.trans_steps (hcondition.steps.trans (Tracks.steps_of_expect hword))
  refine (tracks_blockAfterHeader hblock he.heads).bind ?_
  rintro consequent f ⟨hends, hconsequent⟩
  refine (tracks_alternative hblock hnext hends).bind ?_
  rintro alternative g ⟨hends', halternative⟩
  refine .spanFrom (.pure ⟨hends', rfl, ?_⟩)
  rw [List.forall_mem_append, List.forall_mem_append]
  refine ⟨⟨fun x hx => ?_, fun x hx => ?_⟩, halternative⟩
  · exact (hcondition.located_orMissing x hx).of_suffix hadv.suffix
  · exact (hconsequent x hx).of_suffix he.suffix

theorem RightBlocks.whole (h : RightBlocks block c) : RightBlocks Parse.block c :=
  fun d hd hlt htoken => ⟨rfl, (h d hd hlt htoken).2⟩

/-- **Chains of conditions**, in which there may be further conditions behind the word `else`. -/
theorem tracks_rungWith (hblock : RightBlocks block c) (hc : c.token? = some (.keyword .if_)) :
    Tracks (rungWith block) rung c (RungRead c) ∧ rung c = rungBody Parse.block rung c := by
  -- only behind `c` is the given reading of blocks right, and only at an `if` does a further condition begin
  have hknot := Tracks.knot (Q := RungRead) (fun d => d.rest <:+ c.rest ∧ d.token? = some (.keyword .if_))
    (branchWithin block) (branchWithin Parse.block) (rungBody block) (rungBody Parse.block) rung
    (fun _ => rfl) (fun _ => rfl) (fun _ => rfl)
    (fun d p hd hp => tracks_rungBody (hblock.of_suffix hd.1)
      (fun e he hlt htoken => hp e ⟨he.trans hd.1, htoken⟩ hlt) hd.2)
    (fun d p hd hp => tracks_rungBody (hblock.whole.of_suffix hd.1)
      (fun e he hlt htoken => hp e ⟨he.trans hd.1, htoken⟩ hlt) hd.2)
    (fun _ _ _ _ _ _ h => h) c ⟨List.suffix_rfl, hc⟩
  exact ⟨(hknot.2 _ (Nat.lt_succ_self _)).1, hknot.1⟩

/-- What is known of the reading of a statement: a statement that was found ends as its kind says, and its parts are
located, its own span apart. -/
structure StatementDraft (c : Cursor) (o : Option Statement) (d : Cursor) : Prop where
  nothing : o = none → c.Steps d
  ends : ∀ s, o = some s → c.Ends (Part.statement s).isHeaded d
  located : ∀ s, o = some s → ∀ x ∈ s.parts, x.Located c ∨ (x = .statement s ∧ x.Closes c d)

/-- The same, with every part located. -/
structure StatementRead (c : Cursor) (o : Option Statement) (d : Cursor) : Prop where
  nothing : o = none → c.Steps d
  ends : ∀ s, o = some s → c.Ends (Part.statement s).isHeaded d
  located : ∀ s, o = some s → ∀ x ∈ s.parts, x.Located c

/-- A statement whose parts are located is located itself once it is known that the reading of statements gave
it. -/
theorem StatementDraft.read {o : Option Statement} {ps : List Problem} (h : StatementDraft c o d)
    (heq : statement Parse.block c = ⟨o, d, ps⟩) : StatementRead c o d where
  nothing := h.nothing
  ends := h.ends
  located s hs x hx := by
    rcases h.located s hs x hx with hlocated | ⟨rfl, hcloses⟩
    · exact hlocated
    · exact ⟨c, d, List.suffix_rfl, .statement (hs ▸ heq), h.ends s hs, hcloses⟩

theorem StatementDraft.of_drafts {o : Option Statement} (h : DraftsStatement c o d) : StatementDraft c o d where
  nothing _ := h.1.steps
  ends s hs := by
    rw [h.2 s hs]
    exact (h.1.advances s hs).ends
  located := h.1.located

/-- A headed statement whose own span closes and whose other parts are located. -/
theorem StatementDraft.headed {s : Statement} {others : List Part} (hheaded : (Part.statement s).isHeaded = true)
    (hends : c.Ends true d) (hparts : s.parts = .statement s :: others) (hspan : s.span = d.spanFrom c.start)
    (hothers : ∀ x ∈ others, x.Located c) : StatementDraft c (some s) d where
  nothing := by simp
  ends := by
    rintro _ ⟨⟩
    rw [hheaded]
    exact hends
  located := by
    rintro _ ⟨⟩ x hx
    rw [hparts] at hx
    rcases List.mem_cons.mp hx with rfl | hx
    · exact .inr ⟨rfl, .of_spanFrom (congrArg some hspan)⟩
    · exact .inl (hothers x hx)

/-- The statement that a chain of conditions is. -/
def Parse.Branch.statement (b : Branch) : Statement := .ifElse b.condition b.consequent b.alternative b.span

theorem RungRead.draft {b : Branch} (h : RungRead c b d) : StatementDraft c (some b.statement) d :=
  .headed rfl h.ends rfl h.span h.located

/-- A loop with an expression before its block. Its parts are itself, those of the expression and those of the
block, for whatever loop is made of them. -/
theorem tracks_loop (hblock : RightBlocks block c) {t : Token} (hc : c.token? = some t) (ht : t ≠ .rightBrace)
    {make : Expression → Block → Span → Statement}
    (hmake : ∀ e b span, (Part.statement (make e b span)).isHeaded = true ∧ (make e b span).span = span ∧
      (make e b span).parts = .statement (make e b span) :: (e.parts ++ b.parts)) :
    Tracks (some <$> loop block make) (some <$> loop Parse.block make) c (StatementDraft c) := by
  refine Tracks.map (Q := fun s d => StatementDraft c (some s) d) ?_ fun _ _ h => h
  refine .start (.advance hc ht fun hadv => ?_)
  refine (finds_expression _).bind fun head d hhead => ?_
  have hd := hadv.trans_steps hhead.steps
  refine (tracks_blockAfterHeader hblock hd.heads).bind ?_
  rintro body e ⟨hends, hbody⟩
  refine .spanFrom (.pure ?_)
  obtain ⟨hheaded, hspan, hparts⟩ := hmake (orMissing head) body (e.spanFrom c.start)
  refine .headed hheaded hends hparts hspan ?_
  rw [List.forall_mem_append]
  refine ⟨fun x hx => ?_, fun x hx => ?_⟩
  · exact (hhead.located_orMissing x hx).of_suffix hadv.suffix
  · exact (hbody x hx).of_suffix hd.suffix

/-- The step of a counting loop, which may be left out. -/
theorem tracks_stepClause (c : Cursor) : Tracks (do
      match ← Parse.eat (.keyword .step) with
      | some _ => expression
      | none => pure none) (do
      match ← Parse.eat (.keyword .step) with
      | some _ => expression
      | none => pure none) c fun o d => c.Steps d ∧ ∀ x ∈ (orMissing o).parts, x.Located c := by
  refine (Tracks.eat (by decide)).bind ?_
  rintro _ d (⟨rfl, rfl⟩ | ⟨l, rfl, _, _, hword⟩)
  · exact .pure ⟨.refl _, by simp [orMissing, Expression.parts]⟩
  · refine (finds_expression d).mono fun o e h => ⟨hword.steps.trans h.steps, fun x hx => ?_⟩
    exact (h.located_orMissing x hx).of_suffix hword.suffix

/-- A counting loop, whose header has five parts, each of which may be missed without ending it. -/
theorem tracks_forLoop (hblock : RightBlocks block c) (hc : c.token? = some (.keyword .for_)) :
    Tracks (some <$> forLoop block) (some <$> forLoop Parse.block) c (StatementDraft c) := by
  refine Tracks.map (Q := fun s d => StatementDraft c (some s) d) ?_ fun _ _ h => h
  refine .start (.advance hc (by decide) fun hadv => ?_)
  refine (finds_declName _).bind fun var d hvar => ?_
  have hd := hadv.trans_steps hvar.steps
  refine (tracks_expressionAfter (rightBehind_expression d) (by decide)).bind fun low e hlow => ?_
  have he := hd.trans_steps hlow.1
  refine (tracks_expressionAfter (rightBehind_expression e) (by decide)).bind fun high f hhigh => ?_
  have hf := he.trans_steps hhigh.1
  refine (tracks_stepClause f).bind ?_
  rintro step g ⟨hsteps, hstep⟩
  have hg := hf.trans_steps hsteps
  refine (tracks_blockAfterHeader hblock hg.heads).bind ?_
  rintro body h ⟨hends, hbody⟩
  refine .spanFrom (.pure ?_)
  refine .headed rfl hends rfl rfl ?_
  simp only [List.forall_mem_append]
  refine ⟨⟨⟨⟨fun x hx => ?_, fun x hx => ?_⟩, fun x hx => ?_⟩, fun x hx => ?_⟩, fun x hx => ?_⟩
  · exact (hvar.located_names x hx).of_suffix hadv.suffix
  · exact (hlow.2 x hx).of_suffix hd.suffix
  · exact (hhigh.2 x hx).of_suffix he.suffix
  · exact (hstep x hx).of_suffix hf.suffix
  · exact (hbody x hx).of_suffix hg.suffix

/-! ## One statement

The kinds are put together by the first token. -/

/-- One statement, given the readings of chains of conditions and of blocks. -/
def Parse.statementBody (rung : Parse Branch) (block : Parse Block) : Parse (Option Statement) := do
  if ← isAt (.keyword .if_) then
    let b ← rung
    pure (some b.statement)
  else statement block

/-- At the keyword `if` a statement is a chain of conditions. -/
theorem statement_of_if (block : Parse Block) (hc : c.token? = some (.keyword .if_)) :
    statement block c = (do
      let b ← rungWith block
      pure (some b.statement)) c := by
  have hunfold : statement block c = (some <$> branch block) c := by
    rw [statement, cursor_bind, hc]
  rw [hunfold, branch, rungWith]
  simp only [map_eq_pure_bind, bind_assoc, pure_bind, Branch.statement]

/-- Every other statement. -/
theorem tracks_otherStatement (hblock : RightBlocks block c) (hif : c.token? ≠ some (.keyword .if_)) :
    Tracks (statement block) (statement Parse.block) c (StatementDraft c) := by
  have hnone : StatementDraft c none c := ⟨fun _ => .refl c, by simp, by simp⟩
  have hreport : Tracks (do Parse.report .notStatement; pure none) (do Parse.report .notStatement; pure none) c
      (StatementDraft c) := .report (.pure hnone)
  have hnamed : Tracks namedStatement namedStatement c (StatementDraft c) :=
    (drafts_namedStatement c).mono fun _ _ h => .of_drafts h
  refine .cursor ?_
  cases htoken : c.token? with
  | none => exact .pure hnone
  | some t =>
      cases t with
      | keyword k =>
          cases k with
          | if_ => exact absurd htoken hif
          | while_ => exact tracks_loop hblock htoken (by decide) fun _ _ _ => ⟨rfl, rfl, rfl⟩
          | repeat_ => exact tracks_loop hblock htoken (by decide) fun _ _ _ => ⟨rfl, rfl, rfl⟩
          | for_ => exact tracks_forLoop hblock htoken
          | break_ =>
              obtain ⟨l, _, hrest, _⟩ := Cursor.exists_of_token? htoken
              have hhere : c.here = l.span := by rw [Cursor.here, hrest]
              refine .advance htoken (by decide) fun hadv => .pure (.of_drafts ⟨.some hadv rfl ?_ (by simp), ?_⟩)
              · exact .of_lexeme (l := l) (by rw [hhere]; rfl) (by rw [hrest]; rfl)
              · rintro _ ⟨⟩
                rfl
          | wait => exact (drafts_waitStatement htoken).mono fun _ _ h => .of_drafts h
          | this | var | local_ => exact hnamed
          | _ => exact hreport
      | leftParen => exact (drafts_groupAssignment htoken).mono fun _ _ h => .of_drafts h
      | word => exact hnamed
      | _ => exact hreport

/-- One statement with a given reading of blocks that is right behind the cursor. -/
theorem tracks_statement (hblock : RightBlocks block c) :
    Tracks (statement block) (statement Parse.block) c (StatementRead c) := by
  by_cases htoken : c.token? = some (.keyword .if_)
  · refine Tracks.strengthen (Q := StatementDraft c) ?_ fun o d ps heq h => h.read heq
    have hbody : Tracks (do let b ← rungWith block; pure (some b.statement))
        (do let b ← Parse.rung; pure (some b.statement)) c (StatementDraft c) :=
      (tracks_rungWith hblock htoken).1.bind fun _ _ h => .pure h.draft
    exact hbody.of_eq (statement_of_if block htoken) (statement_of_if Parse.block htoken)
  · exact (tracks_otherStatement hblock htoken).strengthen fun o d ps heq h => h.read heq

end Headed

end FlightScript
