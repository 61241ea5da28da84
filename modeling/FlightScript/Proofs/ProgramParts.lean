import FlightScript.Proofs.StatementParts

/-!
# `Proofs.ProgramParts` — what the readings of blocks and of whole texts find

The statements of a block and the items of a text are read by loops. A loop is a sequence of rounds, each of which gives
what it found or ends the loop. A round that goes on takes a lexeme: if nothing could be read then what is passed over
is not empty, since neither a line end nor a closing brace comes first.

## Contents

* `Parse.rounds`, with the rule `tracks_rounds` for what its rounds preserve;
* `Parse.statementRound`, `Parse.itemRound`: the rounds of the two loops;
* `block_knot`: blocks, and in them statements, to any depth;
* `tracks_item?`: the items of a text;
* `reads_program`: every lexeme is taken, and every part of the program is located.
-/

namespace FlightScript

open Parse Surface

/-! ## Loops

The loops of the readings have a budget and stop at its end, but a loop of rounds that take lexemes never gets
there. -/

/-- A loop: one round after another until one gives nothing, at most `n` of them. -/
def Parse.rounds {α : Type} (round : Parse (Option (List α))) : Nat → Parse (List α)
  | 0 => pure []
  | n + 1 => do
    match ← round with
    | none => pure []
    | some found =>
      let more ← rounds round n
      pure (found ++ more)

/-- One round of the loop over the statements of a block. -/
def Parse.statementRound (one : Parse (Option Statement)) : Parse (Option (List Statement)) := do
  let c ← cursor
  match c.rest with
  | [] =>
    report .missingBrace
    pure none
  | l :: _ =>
    match l.token with
    | .rightBrace =>
      advance
      pure none
    | .newline =>
      advance
      pure (some [])
    | .comment =>
      advance
      pure (some [.comment l.text l.span])
    | _ =>
      match ← one with
      | some s =>
        expectLineEnd true
        pure (some [s])
      | none =>
        recover true
        pure (some [])

/-- One round of the loop over the items of a text. -/
def Parse.itemRound : Parse (Option (List Item)) := do
  let c ← cursor
  match c.token? with
  | none => pure none
  | some t =>
    if t == .newline || t == .comment then
      advance
      pure (some [])
    else
      match item? t c.second? with
      | some one =>
        let item ← one
        expectLineEnd false
        pure (some [item])
      | none =>
        report .extraneousAtTopLevel
        advance
        recover false
        pure (some [])

/-- **The statements of a block are read round by round.** -/
theorem statements_eq_rounds (one : Parse (Option Statement)) (n : Nat) :
    statements one n = rounds (statementRound one) n := by
  induction n with
  | zero => rfl
  | succ n ih =>
      rw [statements, rounds, ih]
      generalize rounds (statementRound one) n = later
      rw [statementRound, bind_assoc]
      refine bind_congr fun c => ?_
      cases c.rest with
      | nil => rfl
      | cons l ls =>
          dsimp only
          cases l.token with
          | rightBrace | newline => simp only [bind_assoc, pure_bind, List.nil_append, bind_pure]
          | comment => simp only [bind_assoc, pure_bind, List.cons_append, List.nil_append]
          | _ =>
              rw [bind_assoc]
              refine bind_congr fun o => ?_
              cases o with
              | none => simp only [bind_assoc, pure_bind, List.nil_append, bind_pure]
              | some s => simp only [bind_assoc, pure_bind, List.cons_append, List.nil_append]

/-- **The items of a text are read round by round.** -/
theorem items_eq_rounds (n : Nat) : items n = rounds itemRound n := by
  induction n with
  | zero => rfl
  | succ n ih =>
      rw [items, rounds, ih]
      generalize rounds itemRound n = later
      rw [itemRound, bind_assoc]
      refine bind_congr fun c => ?_
      cases c.token? with
      | none => rfl
      | some t =>
          dsimp only
          split
          · simp only [bind_assoc, pure_bind, List.nil_append, bind_pure]
          · cases item? t c.second? with
            | none => simp only [bind_assoc, pure_bind, List.nil_append, bind_pure]
            | some one => simp only [bind_assoc, pure_bind, List.cons_append, List.nil_append]

variable {c d : Cursor}

/-- **What the rounds of a loop preserve.** Every round that goes on leaves fewer lexemes, so a loop with as many rounds as
there are lexemes ends because a round gives nothing, or because there is nothing left. -/
theorem tracks_rounds {α : Type} {round round' : Parse (Option (List α))} (Inv Done : Cursor → Prop) (Found : α → Prop)
    (hround : ∀ c, Inv c → Tracks round round' c fun o d => (o = none → Done d) ∧
      ∀ found, o = some found → Inv d ∧ d.rest.length < c.rest.length ∧ ∀ a ∈ found, Found a)
    (hempty : ∀ c, Inv c → c.rest = [] → Done c) (n : Nat) (hc : Inv c) (hn : c.rest.length ≤ n) :
    Tracks (rounds round n) (rounds round' n) c fun all d => Done d ∧ ∀ a ∈ all, Found a := by
  induction n generalizing c with
  | zero => exact .pure ⟨hempty c hc (List.length_eq_zero_iff.mp (by omega)), by simp⟩
  | succ n ih =>
      refine (hround c hc).bind ?_
      rintro o d ⟨hstops, hgoes⟩
      cases o with
      | none => exact .pure ⟨hstops rfl, by simp⟩
      | some found =>
          obtain ⟨hd, hlt, hfound⟩ := hgoes found rfl
          refine (ih hd (by omega)).bind ?_
          rintro more e ⟨hdone, hmore⟩
          refine .pure ⟨hdone, ?_⟩
          exact List.forall_mem_append.mpr ⟨hfound, hmore⟩

/-! ## Blocks

A block holds statements, in which there are blocks again. The knot is tied as with expressions, by the lexemes
that are left. -/

theorem Tracks.recover (stopAtBrace : Bool) : Tracks (Parse.recover stopAtBrace) (Parse.recover stopAtBrace) c fun _ d =>
    ∃ taken, c.Passes d taken ∧ (taken = [] → ∀ l ∈ c.rest.head?, l.token = .newline ∨ l.token = .rightBrace) :=
  ⟨rfl, c.passes_recover stopAtBrace⟩

/-- Asking for the end of a statement takes what is left over on its line, and nothing if it ends here. -/
theorem Tracks.expectLineEnd (inBlock : Bool) :
    Tracks (Parse.expectLineEnd inBlock) (Parse.expectLineEnd inBlock) c fun _ d => ∃ taken, c.Passes d taken := by
  refine .cursor ?_
  split
  · exact .pure ⟨[], .refl c⟩
  · refine .report ((Tracks.recover inBlock).mono ?_)
    rintro _ _ ⟨taken, hpass, _⟩
    exact ⟨taken, hpass⟩

/-- What a round of the loop over the statements of a block does: the loop ends at the end of the lexemes or with a
closing brace; otherwise something is taken, and the parts of the statements found are located. -/
structure StatementRoundRead (c : Cursor) (o : Option (List Statement)) (d : Cursor) : Prop where
  stops : o = none → (c.rest = [] ∧ d = c) ∨ ∃ l, l.token = .rightBrace ∧ c.Passes d [l]
  goes : ∀ found, o = some found → c.Reaches d ∧ ∀ s ∈ found, ∀ x ∈ s.parts, x.Located c

theorem StatementRoundRead.goesOn {found : List Statement} (hreaches : c.Reaches d)
    (hfound : ∀ s ∈ found, ∀ x ∈ s.parts, x.Located c) : StatementRoundRead c (some found) d :=
  ⟨by simp, by rintro _ ⟨⟩; exact ⟨hreaches, hfound⟩⟩

/-- A comment is a statement of its own. -/
theorem located_comment {l : Lexeme} (hl : c.rest.head? = some l) (htoken : l.token = .comment) :
    (Part.statement (.comment l.text l.span)).Located c := by
  have hc : c.token? = some .comment := by rw [Cursor.token?, hl, Option.map_some, htoken]
  exact ⟨c, c.next, List.suffix_rfl, .comment hl htoken, (Cursor.advances_next hc (by decide)).ends, .of_lexeme rfl hl⟩

/-- A statement that was found, and what is left over on its line. Together they reach some way, which is all the
loop needs to know. -/
theorem tracks_lineAfter {s : Statement} {headed : Bool} (hends : c.Ends headed d)
    (hlocated : ∀ x ∈ s.parts, x.Located c) :
    Tracks (do Parse.expectLineEnd true; pure (some [s])) (do Parse.expectLineEnd true; pure (some [s])) d
      (StatementRoundRead c) := by
  refine (Tracks.expectLineEnd true).bind ?_
  rintro _ e ⟨more, hpass⟩
  refine .pure (.goesOn ?_ ?_)
  · exact hends.reaches.trans_passes hpass
  · simpa using hlocated

/-- What is passed over because nothing could be read is not empty. -/
theorem tracks_lineOver {l : Lexeme} (hsteps : c.Steps d) (hhead : c.rest.head? = some l) (hline : l.token ≠ .newline)
    (hbrace : l.token ≠ .rightBrace) :
    Tracks (do Parse.recover true; pure (some [])) (do Parse.recover true; pure (some [])) d (StatementRoundRead c) := by
  obtain ⟨taken, hpass, _⟩ := hsteps
  refine (Tracks.recover true).bind ?_
  rintro _ e ⟨more, hpass', hmore⟩
  refine .pure (.goesOn ?_ (by simp))
  -- if neither the statement nor the recovery took anything then both looked at the same lexeme
  refine .of_passes (hpass.trans hpass') fun hnil => ?_
  obtain ⟨rfl, rfl⟩ := List.append_eq_nil_iff.mp hnil
  have hsame : d.rest.head? = some l := by
    rw [← hhead, hpass.rest]
    rfl
  rcases hmore rfl l hsame with h | h
  · exact hline h
  · exact hbrace h

/-- **One round of the loop over the statements of a block.** A statement is looked for only where there is neither a
line end nor a closing brace. -/
theorem tracks_statementRound {one one' : Parse (Option Statement)} (hone : Tracks one one' c (StatementRead c)) :
    Tracks (statementRound one) (statementRound one') c (StatementRoundRead c) := by
  refine .cursor ?_
  cases hrest : c.rest with
  | nil => exact .report (.pure ⟨fun _ => .inl ⟨hrest, rfl⟩, by simp⟩)
  | cons l ls =>
      have hhead : c.rest.head? = some l := by
        rw [hrest]
        rfl
      have htoken : c.token? = some l.token := by
        rw [Cursor.token?, hhead]
        rfl
      dsimp only
      cases hl : l.token with
      | rightBrace =>
          rw [hl] at htoken
          obtain ⟨k, hk, _, hpass⟩ := Cursor.exists_of_token? htoken
          refine Tracks.bind (Q := fun _ d => d = c.next) ⟨rfl, rfl⟩ ?_
          rintro _ _ rfl
          exact .pure ⟨fun _ => .inr ⟨k, hk, hpass⟩, by simp⟩
      | newline =>
          rw [hl] at htoken
          exact .advance htoken (by decide) fun hadv => .pure (.goesOn hadv.ends.reaches (by simp))
      | comment =>
          rw [hl] at htoken
          refine .advance htoken (by decide) fun hadv => .pure (.goesOn hadv.ends.reaches ?_)
          simpa [Statement.parts] using located_comment hhead hl
      | _ =>
          refine hone.bind fun o d h => ?_
          cases o with
          | none => exact tracks_lineOver (h.nothing rfl) hhead (by simp [hl]) (by simp [hl])
          | some s => exact tracks_lineAfter (h.ends s rfl) (h.located s rfl)

/-- What a block is made of, given the reading of statements. -/
def Parse.blockBody (one : Parse (Option Statement)) : Parse Block := do
  let first ← start
  advance
  let budget ← remaining
  let body ← statements one (budget + 1)
  let span ← spanFrom first
  pure (.braces body span)

theorem Statement.partsAll_eq_flatMap (ss : List Statement) : Statement.partsAll ss = ss.flatMap Statement.parts := by
  induction ss with
  | nil => rfl
  | cons s ss ih => rw [Statement.partsAll, ih, List.flatMap_cons]

/-- A block was read, its own span not yet known to be that of a block. -/
structure BlockDraft (c : Cursor) (b : Block) (d : Cursor) : Prop where
  encloses : c.Encloses d
  braces : ∃ body, b = .braces body (d.spanFrom c.start) ∧ ∀ s ∈ body, ∀ x ∈ s.parts, x.Located c

/-- A block whose parts are located is located itself once it is known which reading gave it. -/
theorem BlockDraft.read {b : Block} {ps : List Problem} (h : BlockDraft c b d) (heq : Parse.block c = ⟨b, d, ps⟩) :
    BlockRead c b d := by
  obtain ⟨hencloses, body, rfl, hbody⟩ := h
  refine ⟨hencloses, ⟨body, rfl⟩, ?_⟩
  rw [Block.parts, List.forall_mem_cons, Statement.partsAll_eq_flatMap]
  refine ⟨⟨c, d, List.suffix_rfl, .block heq, hencloses.ends, .of_spanFrom rfl⟩, fun x hx => ?_⟩
  obtain ⟨s, hs, hx⟩ := List.mem_flatMap.mp hx
  exact hbody s hs x hx

/-- **A block**, if the given reading of statements is right behind its brace. -/
theorem tracks_blockBody {one one' : Parse (Option Statement)} (hc : c.token? = some .leftBrace)
    (hone : ∀ d, d.rest <:+ c.next.rest → Tracks one one' d (StatementRead d)) :
    Tracks (blockBody one) (blockBody one') c (BlockDraft c) := by
  -- a round leaves the end of the last read lexeme right, or a line end that will make it right
  have hround : ∀ d, c.Reaches d ∧ d.rest <:+ c.next.rest →
      Tracks (statementRound one) (statementRound one') d fun o e => (o = none → c.Encloses e) ∧
        ∀ found, o = some found → (c.Reaches e ∧ e.rest <:+ c.next.rest) ∧ e.rest.length < d.rest.length ∧
          ∀ s ∈ found, ∀ x ∈ s.parts, x.Located c := by
    rintro d ⟨hreaches, hsuffix⟩
    refine (tracks_statementRound (hone d hsuffix)).mono fun o e h => ⟨fun ho => ?_, fun found hfound => ?_⟩
    · rcases h.stops ho with ⟨hrest, rfl⟩ | ⟨l, hl, hpass⟩
      · exact hreaches.encloses_of_nil hrest
      · exact hreaches.encloses_of_brace hpass hl
    · obtain ⟨hreaches', hlocated⟩ := h.goes found hfound
      exact ⟨⟨hreaches.trans hreaches', hreaches'.suffix.trans hsuffix⟩, hreaches'.length_lt,
        fun s hs x hx => (hlocated s hs x hx).of_suffix hreaches.suffix⟩
  refine .start (.advance hc (by decide) fun hadv => .remaining ?_)
  rw [statements_eq_rounds, statements_eq_rounds]
  refine (tracks_rounds _ _ _ hround (fun d hd => hd.1.encloses_of_nil) _ ⟨hadv.ends.reaches, List.suffix_rfl⟩
    (Nat.le_succ _)).bind ?_
  rintro body d ⟨hencloses, hbody⟩
  exact .spanFrom (.pure ⟨hencloses, body, rfl, hbody⟩)

/-- **Blocks**, to any depth: a block is what its body says of the readings of the statements in it, and every part of it
is located. -/
theorem block_knot (hc : c.token? = some .leftBrace) :
    block c = blockBody (statement block) c ∧ Tracks block block c (BlockRead c) := by
  have hbody : ∀ c p, c.token? = some .leftBrace →
      (∀ d, d.token? = some .leftBrace → d.rest.length < c.rest.length → Tracks p block d (BlockRead d)) →
      Tracks (blockBody (statement p)) (blockBody (statement block)) c (BlockDraft c) := by
    intro c p hc hp
    refine tracks_blockBody hc fun d hd => tracks_statement fun e he hlt htoken => hp e htoken ?_
    have hlength := (he.trans hd).length_le
    have hnext := (Cursor.advances_next hc (by decide)).length_lt
    omega
  have hknot := Tracks.knot (Q := BlockRead) (fun d => d.token? = some .leftBrace) blockWithin blockWithin
    (fun p => blockBody (statement p)) (fun p => blockBody (statement p)) block (fun _ => rfl) (fun _ => rfl)
    (fun _ => rfl) hbody hbody (fun _ _ _ _ _ heq h => h.read heq) c hc
  exact ⟨hknot.1, rfl, (hknot.2 _ (Nat.lt_succ_self _)).1.2⟩

theorem reads_block (hc : c.token? = some .leftBrace) : Tracks block block c (BlockRead c) := (block_knot hc).2

theorem rightBlocks_block (c : Cursor) : RightBlocks block c := fun _ _ _ htoken => reads_block htoken

/-- An item was read, its own span not yet known to be that of an item. -/
structure ItemDraft (c : Cursor) (i : Item) (d : Cursor) : Prop where
  ends : c.Ends (Part.item i).isHeaded d
  span : i.span = d.spanFrom c.start
  located : ∀ x ∈ i.parts.tail, x.Located c

theorem ItemDraft.read {t : Token} {one : Parse Item} {i : Item} {ps : List Problem} (h : ItemDraft c i d)
    (hc : c.token? = some t) (hone : item? t c.second? = some one) (heq : one c = ⟨i, d, ps⟩) :
    ∀ x ∈ i.parts, x.Located c := by
  have hparts : i.parts = .item i :: i.parts.tail := rfl
  rw [hparts, List.forall_mem_cons]
  exact ⟨⟨c, d, List.suffix_rfl, .item hc hone heq, h.ends, .of_spanFrom (congrArg some h.span)⟩, h.located⟩

/-- The name of a directive takes one lexeme if it is there. -/
theorem tracks_directiveName (c : Cursor) : Tracks (do
      match ← Parse.token? with
      | some t =>
        if t.isWordLike then
          let l ← Parse.lexeme?
          pure (l.map Lexeme.text)
        else mismatch "directive name"
      | none => mismatch "directive name") (do
      match ← Parse.token? with
      | some t =>
        if t.isWordLike then
          let l ← Parse.lexeme?
          pure (l.map Lexeme.text)
        else mismatch "directive name"
      | none => mismatch "directive name") c fun _ d => c.Steps d := by
  refine .token? ?_
  cases htoken : c.token? with
  | none => exact .mismatch (.refl c)
  | some t =>
      dsimp only
      split
      · rename_i hword
        have ht : t ≠ .rightBrace := by
          rintro rfl
          cases hword
        refine (Tracks.lexeme? htoken ht).bind ?_
        rintro _ d ⟨_, _, _, _, hadv⟩
        exact .pure hadv.steps
      · exact .mismatch (.refl c)

theorem tracks_directiveItem (hc : c.token? = some .hash) : Tracks directiveItem directiveItem c (ItemDraft c) := by
  refine .start (.advance hc (by decide) fun hadv => ?_)
  refine (tracks_directiveName _).bind fun name d hname => ?_
  refine (Tracks.eat (by decide)).bind fun value e hvalue => .spanFrom (.pure ⟨?_, rfl, by simp [Item.parts]⟩)
  exact (hadv.trans_steps (hname.trans (Tracks.steps_of_expect hvalue))).ends

theorem tracks_varItem {isList : Bool} {t : Token} (hc : c.token? = some t) (ht : t ≠ .rightBrace) :
    Tracks (varItem isList) (varItem isList) c (ItemDraft c) := by
  refine .start (.advance hc ht fun hadv => ?_)
  refine (finds_declName _).bind fun name d hname => .spanFrom (.pure ⟨?_, rfl, fun x hx => ?_⟩)
  · exact (hadv.trans_steps hname.steps).ends
  · exact (hname.located_names x hx).of_suffix hadv.suffix

/-- The name of an event takes one lexeme if it is there. -/
theorem tracks_eventName (c : Cursor) : Tracks eventName eventName c fun _ d => c.Steps d := by
  refine .token? ?_
  cases htoken : c.token? with
  | none => exact .mismatch (.refl c)
  | some t =>
      cases t with
      | word | string =>
          refine (Tracks.lexeme? htoken (by decide)).bind ?_
          rintro _ d ⟨_, _, _, _, hadv⟩
          exact .pure hadv.steps
      | _ => exact .mismatch (.refl c)

/-- A handler has the parts of its parameters and of its block. -/
theorem tracks_eventItem (hc : c.token? = some (.keyword .on)) : Tracks eventItem eventItem c (ItemDraft c) := by
  refine .start (.advance hc (by decide) fun hadv => ?_)
  refine (tracks_eventName _).bind fun name d hname => ?_
  have hd := hadv.trans_steps hname
  refine (finds_parameters d).bind fun params e hparams => ?_
  have he := hd.trans_steps hparams.steps
  refine (tracks_blockAfterHeader (rightBlocks_block c) he.heads).bind ?_
  rintro body f ⟨hends, hbody⟩
  refine .spanFrom (.pure ⟨hends, rfl, ?_⟩)
  simp only [Item.parts, List.tail_cons, List.forall_mem_append]
  refine ⟨fun x hx => ?_, fun x hx => ?_⟩
  · exact (hparams.located_toList x hx).of_suffix hd.suffix
  · exact (hbody x hx).of_suffix he.suffix

/-- A declared instruction has the parts of its name, its parameters and its block. -/
theorem tracks_instructionItem (hc : c.token? = some (.keyword .def_)) :
    Tracks instructionItem instructionItem c (ItemDraft c) := by
  refine .start (.advance hc (by decide) fun hadv => ?_)
  refine (finds_declName _).bind fun name d hname => ?_
  have hd := hadv.trans_steps hname.steps
  refine (finds_parameters d).bind fun params e hparams => ?_
  have he := hd.trans_steps hparams.steps
  refine (tracks_blockAfterHeader (rightBlocks_block c) he.heads).bind ?_
  rintro body f ⟨hends, hbody⟩
  refine .spanFrom (.pure ⟨hends, rfl, ?_⟩)
  simp only [Item.parts, List.tail_cons, List.forall_mem_append]
  refine ⟨⟨fun x hx => ?_, fun x hx => ?_⟩, fun x hx => ?_⟩
  · exact (hname.located_names x hx).of_suffix hadv.suffix
  · exact (hparams.located_toList x hx).of_suffix hd.suffix
  · exact (hbody x hx).of_suffix he.suffix

/-- A declared expression has the parts of its name, its parameters and its value. -/
theorem tracks_expressionItem (hc : c.token? = some (.keyword .def_)) (hword : c.second? = some (.keyword .expression)) :
    Tracks expressionItem expressionItem c (ItemDraft c) := by
  refine .start (.advance hc (by decide) fun hadv => ?_)
  refine .advance ((Cursor.token?_next hc).trans hword) (by decide) fun hadv' => ?_
  have hb := hadv.trans hadv'
  refine (finds_declName _).bind fun name d hname => ?_
  have hd := hb.trans_steps hname.steps
  refine (finds_parameters d).bind fun params e hparams => ?_
  have he := hd.trans_steps hparams.steps
  refine (tracks_expressionAfter (rightBehind_expression e) (by decide)).bind ?_
  rintro value f ⟨hsteps, hvalue⟩
  refine .spanFrom (.pure ⟨(he.trans_steps hsteps).ends, rfl, ?_⟩)
  simp only [Item.parts, List.tail_cons, List.forall_mem_append]
  refine ⟨⟨fun x hx => ?_, fun x hx => ?_⟩, fun x hx => ?_⟩
  · exact (hname.located_names x hx).of_suffix hb.suffix
  · exact (hparams.located_toList x hx).of_suffix hd.suffix
  · exact (hvalue x hx).of_suffix he.suffix

/-- A block at the top of a text is a block that begins at its brace, so its missing form does not occur. -/
theorem tracks_blockItem (hc : c.token? = some .leftBrace) : Tracks blockItem blockItem c (ItemDraft c) := by
  -- at a brace the reading of blocks never gives a missing one
  refine (reads_block hc).bind fun b d h => ?_
  obtain ⟨body, rfl⟩ := h.braces
  exact .pure ⟨h.encloses.ends, rfl, fun x hx => h.located x (List.mem_cons_of_mem _ hx)⟩

/-- **Every item** that two tokens begin. -/
theorem tracks_item? {t : Token} {one : Parse Item} (hc : c.token? = some t) (hone : item? t c.second? = some one) :
    Tracks one one c fun i d => c.Ends (Part.item i).isHeaded d ∧ ∀ x ∈ i.parts, x.Located c := by
  have hdraft : Tracks one one c (ItemDraft c) := by
    unfold item? at hone
    split at hone
    · cases hone
      exact tracks_directiveItem hc
    · cases hone
      exact tracks_varItem hc (by decide)
    · cases hone
      exact tracks_varItem hc (by decide)
    · cases hone
      exact tracks_eventItem hc
    · split at hone
      · rename_i hword
        cases hone
        exact tracks_expressionItem hc (beq_iff_eq.mp hword)
      · cases hone
        exact tracks_instructionItem hc
    · cases hone
      exact tracks_blockItem hc
    · cases hone
  exact hdraft.strengthen fun i d ps heq h => ⟨h.ends, h.read hc hone heq⟩

/-! ## Whole texts

At the top the loop ends only with the lexemes, so that all of them are taken. -/

/-- What a round of the loop over the items of a text does: the loop ends with the lexemes; otherwise something is taken,
and the parts of the items found are located. -/
structure ItemRoundRead (c : Cursor) (o : Option (List Item)) (d : Cursor) : Prop where
  stops : o = none → c.rest = [] ∧ d = c
  goes : ∀ found, o = some found → c.Reaches d ∧ ∀ i ∈ found, ∀ x ∈ i.parts, x.Located c

theorem ItemRoundRead.goesOn {found : List Item} (hreaches : c.Reaches d)
    (hfound : ∀ i ∈ found, ∀ x ∈ i.parts, x.Located c) : ItemRoundRead c (some found) d :=
  ⟨by simp, by rintro _ ⟨⟩; exact ⟨hreaches, hfound⟩⟩

/-- **One round of the loop over the items of a text.** -/
theorem tracks_itemRound (c : Cursor) : Tracks itemRound itemRound c (ItemRoundRead c) := by
  refine .cursor ?_
  cases htoken : c.token? with
  | none =>
      refine .pure ⟨fun _ => ⟨?_, rfl⟩, by simp⟩
      simpa [Cursor.token?] using htoken
  | some t =>
      dsimp only
      have hadvance : Tracks Parse.advance Parse.advance c fun _ d => c.Reaches d := by
        obtain ⟨l, _, _, hpass⟩ := Cursor.exists_of_token? htoken
        exact ⟨rfl, .of_passes hpass (by simp)⟩
      split
      · exact hadvance.bind fun _ d hd => .pure (.goesOn hd (by simp))
      · cases hone : item? t c.second? with
        | none =>
            refine .report (hadvance.bind fun _ d hd => (Tracks.recover false).bind ?_)
            rintro _ e ⟨more, hpass, _⟩
            exact .pure (.goesOn (hd.trans_passes hpass) (by simp))
        | some one =>
            refine (tracks_item? htoken hone).bind ?_
            rintro i d ⟨hends, hparts⟩
            refine (Tracks.expectLineEnd false).bind ?_
            rintro _ e ⟨more, hpass⟩
            refine .pure (.goesOn ?_ ?_)
            · exact hends.reaches.trans_passes hpass
            · simpa using hparts

/-- **A whole text.** Every lexeme is taken, and every part of the program is located. -/
theorem reads_program (c : Cursor) : Tracks program program c fun p d => d.rest = [] ∧ ∀ x ∈ p.parts, x.Located c := by
  have hround : ∀ d, d.rest <:+ c.rest → Tracks itemRound itemRound d fun o e => (o = none → e.rest = []) ∧
      ∀ found, o = some found → e.rest <:+ c.rest ∧ e.rest.length < d.rest.length ∧
        ∀ i ∈ found, ∀ x ∈ i.parts, x.Located c := by
    intro d hd
    refine (tracks_itemRound d).mono fun o e h => ⟨fun ho => ?_, fun found hfound => ?_⟩
    · obtain ⟨hrest, rfl⟩ := h.stops ho
      exact hrest
    · obtain ⟨hreaches, hlocated⟩ := h.goes found hfound
      exact ⟨hreaches.suffix.trans hd, hreaches.length_lt, fun i hi x hx => (hlocated i hi x hx).of_suffix hd⟩
  refine .remaining ?_
  rw [items_eq_rounds]
  refine (tracks_rounds _ _ _ hround (fun _ _ h => h) _ List.suffix_rfl le_rfl).bind ?_
  rintro all d ⟨hd, hall⟩
  refine .pure ⟨hd, fun x hx => ?_⟩
  obtain ⟨i, hi, hx⟩ := List.mem_flatMap.mp hx
  exact hall i hi x hx

end FlightScript
