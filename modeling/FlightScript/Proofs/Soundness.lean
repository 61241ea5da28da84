import FlightScript.Proofs.Consumption
import FlightScript.Proofs.Statements
import FlightScript.Surface.Programs

/-!
# `Proofs.Soundness` — programs that are read are derived

What holds of expressions holds of statements, blocks and items. The budgets of `statements` and `items` are larger
than the number of lexemes left, and every step takes a lexeme; so the readings never stop early. A whole text is
read to its end.

## Contents

* statements without blocks, and the two ways to read the arguments of an instruction;
* headers, blocks and the statements in them: `consumesBlock`;
* items, and `derives_of_ofLexemes`: a program that is read without problems is derived from all lexemes.
-/

namespace FlightScript

open Parse Surface
open Spelled (key commas)

/-! ## Statements without blocks

What is read before a statement's own lexemes, such as the target of an assignment, is carried along as lexemes
that come before them. -/

/-- A statement was derived from these lexemes, with others before them. -/
def SomeStated (ts : List Symbol) (o : Option Statement) (us : List Symbol) : Prop :=
  ∃ s, o = some s ∧ (Phrase.statement s).Derives (ts ++ us)

theorem Canonical.eq_assign {o : AssignOperator} {w : String} (h : Canonical (o.token, w)) :
    (o.token, w) = o.lexeme :=
  h.eq (by cases o <;> rfl)

/-- The sign and the value of an assignment to a target that was derived before. -/
theorem consumes_assignment {first : Location} {target : Target} {ts : List Symbol}
    (h : target.Derives ts) : Consumes (assignment first target) (SomeStated ts) := by
  have hrest : ∀ (o : AssignOperator) (c : Cursor), c.token? = some o.token →
      ConsumesAt (assignment.rest first target o) c (SomeStated ts) := by
    intro o c ht
    unfold assignment.rest
    refine (ConsumesAt.advance ht).bind ?_
    rintro _ _ ⟨w, rfl, hw⟩
    refine consumes_expression.bind ?_
    rintro _ es ⟨e, rfl, he⟩
    refine consumes_spanFrom_pure fun span => ⟨_, rfl, ?_⟩
    rw [hw.eq_assign, List.append_nil]
    exact .assign h he
  unfold assignment
  intro c
  refine .peek rfl ?_
  split
  · rename_i ht
    exact hrest .set c ht
  · rename_i ht
    exact hrest .change c ht
  · exact Consumes.mismatch c

theorem consumes_singleArgument : Consumes singleArgument Arguments.Derives := by
  unfold singleArgument
  refine consumes_expression.bind ?_
  rintro _ ts ⟨e, rfl, he⟩
  exact .pure (by simpa using Arguments.Derives.single he)

/-- Either reading takes what belongs to its value. -/
theorem ConsumesAt.firstClean {α : Type} {p : Parse (Option α)} {q : Parse α} {c : Cursor}
    {P : α → List Symbol → Prop} (hp : ConsumesAt p c fun o ts => ∀ a, o = some a → P a ts)
    (hq : ConsumesAt q c P) : ConsumesAt (Parse.firstClean p q) c P := by
  intro hc hnone
  rcases firstClean_cases p q c with ⟨a, ha, hproblems, _, heq⟩ | heq
  · rw [heq]
    obtain ⟨ts, hts, h⟩ := hp hc hproblems
    exact ⟨ts, hts, h a ha⟩
  · rw [heq] at hnone ⊢
    exact hq hc hnone

/-- The arguments of an instruction, tried as a list. -/
theorem consumes_listAttempt : Consumes (do
    let items ← argumentList
    pure (items.map Arguments.list)) fun o ts => ∀ as, o = some as → as.Derives ts := by
  refine consumes_argumentList.bind fun o ts ho => .pure ?_
  intro as has
  obtain ⟨es, rfl, rfl⟩ := Option.map_eq_some_iff.mp has
  rw [List.append_nil]
  exact ho es rfl

/-- The arguments of an instruction: none at the end of a statement, a list, or a single expression. -/
theorem consumes_instructionArguments : Consumes instructionArguments Arguments.Derives := by
  unfold instructionArguments
  intro c
  refine .peek rfl ?_
  split
  · exact Consumes.pure .none c
  · split
    · exact .firstClean (consumes_listAttempt c) (consumes_singleArgument c)
    · exact consumes_singleArgument c

/-- A statement that begins with a name is an assignment to it or an instruction. -/
theorem consumes_namedStatement : Consumes namedStatement (SomeStated []) := by
  unfold namedStatement
  intro c
  refine .peek rfl (Consumes.reference.bind ?_ c)
  rintro _ _ ⟨r, rfl, hr, rfl⟩
  intro c'
  refine .peek rfl ?_
  split
  · exact consumes_assignment (.reference hr) c'
  · refine consumes_instructionArguments.bind (fun as ts has => ?_) c'
    exact consumes_spanFrom_pure fun span => ⟨_, rfl, by simpa using Phrase.Derives.instruction hr has⟩

/-- An assignment to an expression in parentheses. -/
theorem consumesAt_groupAssignment {c : Cursor} (ht : c.token? = some .leftParen) :
    ConsumesAt groupAssignment c (SomeStated []) := by
  unfold groupAssignment
  refine .peek rfl ((ConsumesAt.advance ht).bind ?_)
  rintro _ _ ⟨w, rfl, hw⟩
  refine consumes_expression.bind ?_
  rintro _ ts ⟨e, rfl, he⟩
  refine Consumes.expect.bind ?_
  rintro _ _ ⟨l, rfl, rfl, hl⟩
  refine (consumes_assignment (.group he)).mono ?_
  rintro _ us ⟨s, rfl, hs⟩
  refine ⟨s, rfl, ?_⟩
  rw [hw.eq rfl, hl.eq rfl]
  simpa using hs

/-- A wait. If nothing follows the bare word then the time was left out; with `until` a condition was read. -/
theorem consumesAt_waitStatement {c : Cursor} (ht : c.token? = some (.keyword .wait)) :
    ConsumesAt waitStatement c fun s ts => (Phrase.statement s).Derives ts := by
  unfold waitStatement
  refine .peek rfl ((ConsumesAt.advance ht).bind ?_)
  rintro _ _ ⟨w, rfl, hw⟩
  refine Consumes.eat.bind ?_
  rintro _ _ (⟨rfl, rfl⟩ | ⟨l, rfl, rfl, hl⟩)
  · intro c'
    refine .peek rfl ?_
    split
    · refine (Consumes.pure (P := fun o ts => o = none ∧ ts = []) ⟨rfl, rfl⟩ c').bind ?_
      rintro _ _ ⟨rfl, rfl⟩
      refine consumes_spanFrom_pure fun span => ?_
      rw [hw.eq_key]
      exact .waitAlone
    · refine (consumes_expression c').bind ?_
      rintro _ ts ⟨e, rfl, he⟩
      refine consumes_spanFrom_pure fun span => ?_
      rw [hw.eq_key]
      simpa [orMissing] using Phrase.Derives.waitFor he
  · intro c'
    refine .peek rfl ((consumes_expression c').bind ?_)
    rintro _ ts ⟨e, rfl, he⟩
    refine consumes_spanFrom_pure fun span => ?_
    rw [hw.eq_key, hl.eq_key]
    simpa [orMissing] using Phrase.Derives.waitUntil he

/-! ## Headers

A block may stand on a line below its header, so some line ends come in between. How many is not part of the
tree. -/

/-- What is passed over are line ends. -/
theorem Cursor.view_eq_newlines (c : Cursor) (hc : ∀ u ∈ c.view, Canonical u) :
    ∃ n, c.view = newlines n ++ (skipNewlines c).cursor.view := by
  rw [view_skipNewlines]
  generalize c.view = us at hc
  induction us with
  | nil => exact ⟨0, rfl⟩
  | cons u us ih =>
      obtain ⟨t, w⟩ := u
      by_cases ht : (t == Token.newline) = true
      · obtain ⟨n, hn⟩ := ih fun v hv => hc v (.tail _ hv)
        obtain rfl := beq_iff_eq.mp ht
        refine ⟨n + 1, ?_⟩
        rw [(hc _ (.head _)).eq rfl, List.dropWhile_cons_of_pos rfl]
        conv_lhs => rw [hn]
        rfl
      · refine ⟨0, ?_⟩
        rw [List.dropWhile_cons_of_neg (by exact ht)]
        rfl

/-- A block is derived from what is read from its brace on. -/
abbrev ConsumesBlock (block : Parse Block) : Prop :=
  ∀ c : Cursor, c.token? = some .leftBrace → ConsumesAt block c fun b ts => (Phrase.block b).Derives ts

section Headed

variable {block : Parse Block}

/-- The block behind a header, with the line ends before its brace. Without a brace a problem is posted, so it
was there. -/
theorem ConsumesBlock.blockAfterHeader (h : ConsumesBlock block) :
    Consumes (Parse.blockAfterHeader block) fun b ts =>
      ∃ n bs, ts = newlines n ++ bs ∧ (Phrase.block b).Derives bs := by
  intro c hc hnone
  unfold Parse.blockAfterHeader at hnone ⊢
  dsimp only at hnone ⊢
  obtain ⟨n, hn⟩ := c.view_eq_newlines hc
  by_cases hat : (skipNewlines c).cursor.isAt .leftBrace = true
  · rw [if_pos hat] at hnone ⊢
    have htoken : (skipNewlines c).cursor.token? = some .leftBrace := by simpa [Cursor.isAt] using hat
    have hc' : ∀ u ∈ (skipNewlines c).cursor.view, Canonical u := by
      rw [hn] at hc
      exact fun u hu => hc u (List.mem_append_right _ hu)
    obtain ⟨bs, hbs, hb⟩ := h _ htoken hc' hnone
    refine ⟨newlines n ++ bs, ?_, n, bs, rfl, hb⟩
    rw [List.append_assoc, ← hbs]
    exact hn
  · -- a brace that is expected right here would have been found behind no line end
    rw [if_neg hat] at hnone
    have hexpect := (List.append_eq_nil_iff.mp hnone).1
    obtain ⟨_, hview, l, _, rfl, _⟩ := Consumes.expect { c with lastEnd := (skipNewlines c).cursor.lastEnd } hc hexpect
    refine absurd ?_ hat
    rw [Cursor.isAt_eq, view_skipNewlines, show c.view = _ from hview]
    rfl

/-- Either `else` is not found and nothing is taken, or it is taken together with the line ends before it. -/
theorem Consumes.elseWord : Consumes Parse.elseWord fun b ts =>
    (b = false ∧ ts = []) ∨ (b = true ∧ ∃ m, ts = newlines m ++ [key .else_]) := by
  intro c hc _
  unfold Parse.elseWord
  dsimp only
  obtain ⟨n, hn⟩ := c.view_eq_newlines hc
  by_cases hat : (skipNewlines c).cursor.isAt (.keyword .else_) = true
  · rw [if_pos hat]
    have htoken : (skipNewlines c).cursor.token? = some (.keyword .else_) := by simpa [Cursor.isAt] using hat
    obtain ⟨l, _, _, hview⟩ := Cursor.view_of_token? htoken
    have hl : Canonical (.keyword .else_, l.text) := by
      refine hc _ ?_
      rw [hn, hview]
      simp
    refine ⟨newlines n ++ [key .else_], ?_, .inr ⟨rfl, n, rfl⟩⟩
    rw [List.append_assoc, ← hl.eq_key, hn, hview]
    rfl
  · rw [if_neg hat]
    exact ⟨[], rfl, .inl ⟨rfl, rfl⟩⟩

/-- What stands behind a condition and its block, if a chain one rung shorter is derived. -/
theorem ConsumesBlock.alternative (h : ConsumesBlock block) {n : Nat}
    (ih : ∀ c : Cursor, c.token? = some (.keyword .if_) → ConsumesAt (Parse.branchWithin block n) c fun b ts =>
      (Phrase.statement (.ifElse b.condition b.consequent b.alternative b.span)).Derives ts) :
    Consumes (alternativeWithin block n) fun a ts => (Phrase.alternative a).Derives ts := by
  unfold alternativeWithin
  refine Consumes.elseWord.bind ?_
  rintro _ _ (⟨rfl, rfl⟩ | ⟨rfl, m, rfl⟩)
  · exact .pure .noElse
  · intro c
    refine .peek rfl ?_
    split
    · rename_i hat
      have ht : c.token? = some (.keyword .if_) := by simpa [Cursor.isAt] using hat
      refine (ih c ht).bind fun b ts hb => .pure ?_
      cases hb with
      | ifElse hc hthen hblock ha => simpa using Phrase.Derives.elseIf hc hthen hblock ha
    · refine h.blockAfterHeader.bind ?_ c
      rintro b _ ⟨n, bs, rfl, hb⟩
      refine .pure ?_
      cases hb with
      | block hss => simpa [otherwise] using Phrase.Derives.otherwise (.block hss)

/-- A chain of conditions, from the keyword `if` on. -/
theorem ConsumesBlock.branchWithin (h : ConsumesBlock block) (n : Nat) :
    ∀ c : Cursor, c.token? = some (.keyword .if_) → ConsumesAt (Parse.branchWithin block n) c fun b ts =>
      (Phrase.statement (.ifElse b.condition b.consequent b.alternative b.span)).Derives ts := by
  -- on the number of rungs that may still be read
  induction n with
  | zero => exact fun c _ => .peek rfl (Consumes.report c)
  | succ n ih =>
      intro c ht
      rw [branchWithin_succ]
      refine .peek rfl ((ConsumesAt.advance ht).bind ?_)
      rintro _ _ ⟨w, rfl, hw⟩
      refine consumes_expression.bind ?_
      rintro _ cs ⟨e, rfl, hc⟩
      have hthen : Consumes (eat (.keyword .then_)) fun _ ts => ts = [] ∨ ts = [key .then_] := by
        refine Consumes.eat.mono ?_
        rintro _ _ (⟨_, rfl⟩ | ⟨l, _, rfl, hl⟩)
        · exact .inl rfl
        · exact .inr (by rw [hl.eq_key])
      refine hthen.bind fun _ thens hthens => h.blockAfterHeader.bind ?_
      rintro b _ ⟨m, bs, rfl, hb⟩
      refine (h.alternative ih).bind fun a as ha => consumes_spanFrom_pure fun span => ?_
      rw [hw.eq_key]
      simpa [orMissing] using Phrase.Derives.ifElse hc hthens hb ha

/-- A loop with an expression before its block, for whatever statement is made of the two. -/
theorem ConsumesBlock.loop (h : ConsumesBlock block) {k : Keyword} {make : Expression → Block → Span → Statement}
    (hmake : ∀ {e b cs bs n span}, e.Derives 10 cs → (Phrase.block b).Derives bs →
      (Phrase.statement (make e b span)).Derives (key k :: cs ++ newlines n ++ bs))
    {c : Cursor} (ht : c.token? = some (.keyword k)) :
    ConsumesAt (Parse.loop block make) c fun s ts => (Phrase.statement s).Derives ts := by
  unfold Parse.loop
  refine .peek rfl ((ConsumesAt.advance ht).bind ?_)
  rintro _ _ ⟨w, rfl, hw⟩
  refine consumes_expression.bind ?_
  rintro _ cs ⟨e, rfl, hc⟩
  refine h.blockAfterHeader.bind ?_
  rintro b _ ⟨n, bs, rfl, hb⟩
  refine consumes_spanFrom_pure fun span => ?_
  rw [hw.eq_key]
  simpa [orMissing] using hmake hc hb

/-- A counting loop with its name, its bounds, its step, if there is one, and its block. -/
theorem ConsumesBlock.forLoop (h : ConsumesBlock block) {c : Cursor} (ht : c.token? = some (.keyword .for_)) :
    ConsumesAt (Parse.forLoop block) c fun s ts => (Phrase.statement s).Derives ts := by
  unfold Parse.forLoop
  refine .peek rfl ((ConsumesAt.advance ht).bind ?_)
  rintro _ _ ⟨w, rfl, hw⟩
  refine Consumes.declName.bind ?_
  rintro _ _ ⟨d, rfl, rfl⟩
  refine (consumes_expression.expressionAfter fun _ hw => hw.eq rfl).bind ?_
  rintro first _ ⟨fs, rfl, hf⟩
  refine (consumes_expression.expressionAfter fun _ hw => hw.eq_key).bind ?_
  rintro last _ ⟨ls, rfl, hl⟩
  refine Consumes.bind (P := fun o ts =>
    (o = none ∧ ts = []) ∨ ∃ step ss, o = some step ∧ step.Derives 10 ss ∧ ts = key .step :: ss)
    (Consumes.eat.bind ?_) ?_
  · rintro _ _ (⟨rfl, rfl⟩ | ⟨l, rfl, rfl, hl⟩)
    · exact .pure (.inl ⟨rfl, rfl⟩)
    · refine consumes_expression.mono ?_
      rintro _ ss ⟨step, rfl, hs⟩
      exact .inr ⟨step, ss, rfl, hs, by rw [hl.eq_key]; rfl⟩
  rintro _ _ (⟨rfl, rfl⟩ | ⟨step, ss, rfl, hs, rfl⟩)
  · refine h.blockAfterHeader.bind ?_
    rintro b _ ⟨n, bs, rfl, hb⟩
    refine consumes_spanFrom_pure fun span => ?_
    rw [hw.eq_key]
    simpa [orMissing] using Phrase.Derives.forLoop hf hl hb
  · refine h.blockAfterHeader.bind ?_
    rintro b _ ⟨n, bs, rfl, hb⟩
    refine consumes_spanFrom_pure fun span => ?_
    rw [hw.eq_key]
    simpa [orMissing] using Phrase.Derives.forStep hf hl hs hb

/-! ## Blocks

The loop over the statements of a block takes a lexeme in each round, and it stops at the closing brace. The
budget is what is left of the lexemes, so it does not run out before that. -/

/-- A statement that is read without problems is derived. -/
theorem ConsumesBlock.statement (h : ConsumesBlock block) {c : Cursor} (hc : c.token? ≠ none) :
    ConsumesAt (Parse.statement block) c (SomeStated []) := by
  have hsome : ∀ {p : Parse Statement}, ConsumesAt p c (fun s ts => (Phrase.statement s).Derives ts) →
      ConsumesAt (some <$> p) c (SomeStated []) := fun hp => hp.map fun s ts hs => ⟨s, rfl, hs⟩
  unfold Parse.statement
  refine .peek rfl ?_
  -- the cases of the reader, in its order: a statement is known by its first token
  split
  · rename_i ht
    exact absurd ht hc
  · rename_i ht
    refine hsome ?_
    unfold branch
    refine .peek rfl ((h.branchWithin _ c ht).bind fun b ts hb => .pure ?_)
    rwa [List.append_nil]
  · rename_i ht
    exact hsome (h.loop .whileLoop ht)
  · rename_i ht
    exact hsome (h.loop .repeatLoop ht)
  · rename_i ht
    exact hsome (h.forLoop ht)
  · rename_i ht
    refine (ConsumesAt.advance ht).bind ?_
    rintro _ _ ⟨w, rfl, hw⟩
    refine .pure ⟨_, rfl, ?_⟩
    rw [hw.eq_key]
    exact .breakLoop
  · rename_i ht
    exact hsome (consumesAt_waitStatement ht)
  · rename_i ht
    exact consumesAt_groupAssignment ht
  · exact consumes_namedStatement c
  · exact consumes_namedStatement c
  · exact consumes_namedStatement c
  · exact consumes_namedStatement c
  · exact Consumes.report c

end Headed

/-- A statement begins as one. -/
theorem Surface.Phrase.Derives.statement_starts {s : Statement} {ts : List Symbol}
    (h : (Phrase.statement s).Derives ts) : ∃ t w us, ts = (t, w) :: us ∧ t.startsStatement = true := by
  have hname : ∀ {r : Reference} (us : List Symbol), r.IsWhole →
      ∃ t w vs, r.lexemes ++ us = (t, w) :: vs ∧ t.startsStatement = true := by
    intro r us hr
    obtain ⟨t, w, vs, hvs, ht⟩ := hr.starts
    exact ⟨t, w, vs ++ us, by rw [hvs]; rfl, Token.startsStatement_of_startsName ht⟩
  cases h with
  | assign htarget _ =>
      cases htarget with
      | reference hr => exact hname _ hr
      | group _ => exact ⟨_, _, _, rfl, rfl⟩
  | instruction hr _ => exact hname _ hr
  | _ => exact ⟨_, _, _, rfl, rfl⟩

theorem Surface.EndsStatement.ne_nil {us : List Symbol} (h : EndsStatement us) : us ≠ [] := by
  rintro rfl
  rcases h with h | h | h <;> cases h

theorem Surface.Phrase.Derives.body_ne_nil {ss : List Statement} {us : List Symbol}
    (h : (Phrase.body ss).Derives us) : us ≠ [] := by
  cases h with
  | bodyStatement _ _ hends => exact List.append_ne_nil_of_right_ne_nil _ hends.ne_nil
  | _ => exact List.cons_ne_nil _ _

/-- Where a statement may end, and lexemes are taken behind it, these begin with something that ends a statement.
-/
theorem Cursor.endsStatement_of_atStatementEnd {c : Cursor} (h : c.atStatementEnd = true) {us vs : List Symbol}
    (hview : c.view = us ++ vs) (hne : us ≠ []) : EndsStatement us := by
  obtain ⟨⟨t, w⟩, us, rfl⟩ := List.exists_cons_of_ne_nil hne
  rw [c.atStatementEnd_eq (t := t) (by rw [hview]; rfl)] at h
  cases t with
  | newline => exact .inl rfl
  | comment => exact .inr (.inl rfl)
  | rightBrace => exact .inr (.inr rfl)
  | _ => cases h

theorem ConsumesAt.expectLineEnd {inBlock : Bool} {c : Cursor} :
    ConsumesAt (Parse.expectLineEnd inBlock) c fun _ ts => ts = [] ∧ c.atStatementEnd = true := by
  unfold Parse.expectLineEnd
  refine .peek rfl ?_
  split
  · rename_i hat
    exact Consumes.pure ⟨rfl, hat⟩ c
  · exact Consumes.report c

/-- The statements of a block up to its brace, if the budget is larger than the number of lexemes left. -/
theorem consumesAt_statements {one : Parse (Option Statement)}
    (hone : ∀ c : Cursor, c.token? ≠ none → ConsumesAt one c (SomeStated [])) (n : Nat) :
    ∀ c : Cursor, c.view.length < n → ConsumesAt (statements one n) c fun ss ts => (Phrase.body ss).Derives ts := by
  induction n with
  | zero => exact fun c hn => absurd hn (by omega)
  | succ n ih =>
      intro c hn
      -- the next step has fewer lexemes left
      have hless : ∀ {ts : List Symbol} {c' : Cursor}, c.view = ts ++ c'.view → ts ≠ [] →
          c'.view.length < n := by
        intro ts c' hview hne
        have hpos := List.length_pos_of_ne_nil hne
        rw [hview, List.length_append] at hn
        omega
      unfold statements
      refine .peek rfl ?_
      split
      · exact Consumes.report c
      · rename_i l ls hrest
        have htoken : c.token? = some l.token := by
          unfold Cursor.token?
          rw [hrest]
          rfl
        split
        · rename_i ht
          refine (ConsumesAt.advance (htoken.trans (congrArg some ht))).bind ?_
          rintro _ _ ⟨w, rfl, hw⟩
          refine .pure ?_
          rw [hw.eq rfl]
          exact .bodyEnd
        · rename_i ht
          refine (ConsumesAt.advance (htoken.trans (congrArg some ht))).bindAt ?_
          rintro _ _ c' ⟨w, rfl, hw⟩ hview
          refine (ih c' (hless hview (by simp))).mono fun ss us hss => ?_
          rw [hw.eq rfl]
          exact .bodyNewline hss
        · rename_i ht
          refine (ConsumesAt.advance (htoken.trans (congrArg some ht))).bindAt ?_
          rintro _ _ c' ⟨w, rfl, _⟩ hview
          have hw : l.text = w := by
            unfold Cursor.view at hview
            rw [hrest] at hview
            exact congrArg Prod.snd (List.cons.inj hview).1
          refine (ih c' (hless hview (by simp))).bind fun ss us hss => .pure ?_
          rw [List.append_nil, hw]
          exact .bodyComment hss
        · refine (hone c (by rw [htoken]; simp)).bindAt ?_
          rintro _ ts c₁ ⟨s, rfl, hs⟩ hview
          obtain ⟨t, w, vs, rfl, _⟩ := hs.statement_starts
          refine ConsumesAt.expectLineEnd.bindAt ?_
          rintro _ _ c₂ ⟨rfl, hat⟩ hview₁
          refine (ih c₂ (hless (hview.trans (by rw [hview₁]; rfl)) (by simp))).bindAt fun ss us c₃ hss hview₂ => ?_
          refine Consumes.pure ?_ c₃
          rw [List.append_nil]
          have hends := Cursor.endsStatement_of_atStatementEnd hat (hview₁.trans hview₂) hss.body_ne_nil
          exact .bodyStatement hs hss hends

/-- Blocks, by induction over the budget of nested ones. Each nested block has a brace of its own, so the budget
that is handed on is large enough. -/
theorem consumesBlock_within (n : Nat) : ConsumesBlock (blockWithin n) := by
  induction n with
  | zero => exact fun c _ => Consumes.report c
  | succ n ih =>
      intro c ht
      unfold blockWithin
      refine .peek rfl ((ConsumesAt.advance ht).bind ?_)
      rintro _ _ ⟨w, rfl, hw⟩
      intro c'
      refine .peek rfl ?_
      refine (consumesAt_statements (fun _ hc => ih.statement hc) _ c' (by rw [c'.length_rest]; omega)).bind ?_
      intro ss us hss
      refine consumes_spanFrom_pure fun span => ?_
      rw [hw.eq rfl]
      simpa using Phrase.Derives.block hss

/-- **A block that is read without problems is derived from the lexemes it takes.** -/
theorem consumesBlock : ConsumesBlock Parse.block :=
  fun c ht => .peek rfl (consumesBlock_within _ c ht)

/-! ## Items

The same for the items of a program, which stop at the end of the lexemes. -/

/-- Names with commas between them, if the budget is larger than the number of lexemes left. -/
theorem consumesAt_declNames (n : Nat) : ∀ c : Cursor, c.view.length < n → ConsumesAt (declNames n) c fun ds ts =>
    ds ≠ [] ∧ ts = commas (ds.map fun d => d.name.lexemes) := by
  induction n with
  | zero => exact fun c hn => absurd hn (by omega)
  | succ n ih =>
      intro c hn
      unfold declNames
      refine (Consumes.declName c).bindAt ?_
      rintro _ _ c₁ ⟨d, rfl, rfl⟩ hview
      refine (Consumes.eat c₁).bindAt ?_
      rintro _ _ c₂ (⟨rfl, rfl⟩ | ⟨l, rfl, rfl, hl⟩) hview'
      · exact Consumes.pure ⟨by simp, by simp [commas]⟩ c₂
      · have hlen : c₂.view.length < n := by
          rw [hview, hview'] at hn
          simp at hn
          omega
        refine (ih c₂ hlen).bind ?_
        rintro more _ ⟨hne, rfl⟩
        obtain ⟨d', ds, rfl⟩ := List.exists_cons_of_ne_nil hne
        refine .pure ⟨by simp, ?_⟩
        rw [hl.eq rfl, List.append_nil]
        rfl

/-- The names between parentheses, of which there may be none. -/
theorem consumes_parameterNames : Consumes (do
    if ← isAt .rightParen then pure []
    else
      let budget ← remaining
      declNames (budget + 1)) fun ds ts => ts = commas (ds.map fun d => d.name.lexemes) := by
  intro c
  refine .peek rfl ?_
  split
  · exact Consumes.pure (by rfl) c
  · refine .peek rfl ((consumesAt_declNames _ c (by rw [c.length_rest]; omega)).mono ?_)
    exact fun ds ts h => h.2

/-- The parameters of a declaration, or no lexemes where there are no parentheses. -/
theorem consumes_parameters : Consumes parameters fun ps ts => ts = parameterLexemes ps := by
  unfold parameters
  intro c
  refine .peek rfl ?_
  split
  · rename_i hat
    have ht : c.token? = some .leftParen := by simpa [Cursor.isAt] using hat
    refine .peek rfl ((ConsumesAt.advance ht).bind ?_)
    rintro _ _ ⟨w, rfl, hw⟩
    refine consumes_parameterNames.bind ?_
    rintro ds _ rfl
    refine Consumes.expect.bind ?_
    rintro _ _ ⟨l, rfl, rfl, hl⟩
    refine consumes_spanFrom_pure fun span => ?_
    rw [hw.eq rfl, hl.eq rfl]
    simp [parameterLexemes, Parameters.lexemes]
  · exact Consumes.pure (by rfl) c

/-- A directive with its mark, its name and perhaps a value. -/
theorem consumesAt_directiveItem {c : Cursor} (ht : c.token? = some .hash) :
    ConsumesAt directiveItem c Item.Derives := by
  unfold directiveItem
  refine .peek rfl ((ConsumesAt.advance ht).bind ?_)
  rintro _ _ ⟨w, rfl, hw⟩
  refine Consumes.bind (P := fun o ts => ∃ name, o = some name ∧ ts = [wordLexeme name.toList]) ?_ ?_
  · intro c'
    refine .peek rfl ?_
    split
    · rename_i t ht
      split
      · rename_i hword
        refine (ConsumesAt.lexeme? ht).bind ?_
        rintro _ _ ⟨l, rfl, rfl, hl⟩
        exact .pure ⟨_, rfl, by rw [hl.word hword, List.append_nil]⟩
      · exact Consumes.mismatch c'
    · exact Consumes.mismatch c'
  · rintro _ _ ⟨name, rfl, rfl⟩
    refine Consumes.eat.bind ?_
    rintro _ _ (⟨rfl, rfl⟩ | ⟨l, rfl, rfl, hl⟩)
    · refine consumes_spanFrom_pure fun span => ?_
      rw [hw.eq rfl]
      exact .directive
    · refine consumes_spanFrom_pure fun span => ?_
      rw [hw.eq rfl]
      exact .directive

/-- A declaration of a variable or of a list. -/
theorem consumesAt_varItem {isList : Bool} {c : Cursor}
    (ht : c.token? = some (.keyword (if isList then .list else .var))) :
    ConsumesAt (varItem isList) c Item.Derives := by
  unfold varItem
  refine .peek rfl ((ConsumesAt.advance ht).bind ?_)
  rintro _ _ ⟨w, rfl, hw⟩
  refine Consumes.declName.bind ?_
  rintro _ _ ⟨d, rfl, rfl⟩
  refine consumes_spanFrom_pure fun span => ?_
  rw [hw.eq_key, List.append_nil]
  exact .var

/-- An event is named by one lexeme, a word or a string. -/
theorem consumes_eventName : Consumes eventName fun o ts => ∃ name, o = some name ∧ ts = [name.lexeme] := by
  unfold eventName
  intro c
  refine .peek rfl ?_
  split
  · rename_i ht
    refine (ConsumesAt.lexeme? ht).bind ?_
    rintro _ _ ⟨l, rfl, rfl, hl⟩
    exact .pure ⟨_, rfl, rfl⟩
  · rename_i ht
    refine (ConsumesAt.lexeme? ht).bind ?_
    rintro _ _ ⟨l, rfl, rfl, hl⟩
    exact .pure ⟨_, rfl, rfl⟩
  · exact Consumes.mismatch c

/-- A handler with its name, its parameters and its block. -/
theorem consumesAt_eventItem {c : Cursor} (ht : c.token? = some (.keyword .on)) :
    ConsumesAt eventItem c Item.Derives := by
  unfold eventItem
  refine .peek rfl ((ConsumesAt.advance ht).bind ?_)
  rintro _ _ ⟨w, rfl, hw⟩
  refine consumes_eventName.bind ?_
  rintro _ _ ⟨name, rfl, rfl⟩
  refine consumes_parameters.bind ?_
  rintro ps _ rfl
  refine consumesBlock.blockAfterHeader.bind ?_
  rintro b _ ⟨n, bs, rfl, hb⟩
  refine consumes_spanFrom_pure fun span => ?_
  rw [hw.eq_key]
  simpa using Item.Derives.event hb

/-- A declaration of an instruction. -/
theorem consumesAt_instructionItem {c : Cursor} (ht : c.token? = some (.keyword .def_)) :
    ConsumesAt instructionItem c Item.Derives := by
  unfold instructionItem
  refine .peek rfl ((ConsumesAt.advance ht).bind ?_)
  rintro _ _ ⟨w, rfl, hw⟩
  refine Consumes.declName.bind ?_
  rintro _ _ ⟨d, rfl, rfl⟩
  refine consumes_parameters.bind ?_
  rintro ps _ rfl
  refine consumesBlock.blockAfterHeader.bind ?_
  rintro b _ ⟨n, bs, rfl, hb⟩
  refine consumes_spanFrom_pure fun span => ?_
  rw [hw.eq_key]
  simpa using Item.Derives.instruction hb

/-- A declaration of an expression, which two keywords begin. -/
theorem consumesAt_expressionItem {c : Cursor} (ht : c.token? = some (.keyword .def_))
    (ht' : c.second? = some (.keyword .expression)) : ConsumesAt expressionItem c Item.Derives := by
  unfold expressionItem
  refine .peek rfl ((ConsumesAt.advance ht).bindAt ?_)
  rintro _ _ c' ⟨w, rfl, hw⟩ hview
  have hsecond : c'.token? = some (.keyword .expression) := by
    rw [Cursor.second?_eq, hview] at ht'
    rw [Cursor.token?_eq]
    exact ht'
  refine (ConsumesAt.advance hsecond).bind ?_
  rintro _ _ ⟨v, rfl, hv⟩
  refine Consumes.declName.bind ?_
  rintro _ _ ⟨d, rfl, rfl⟩
  refine consumes_parameters.bind ?_
  rintro ps _ rfl
  refine (consumes_expression.expressionAfter fun _ hw => hw.eq rfl).bind ?_
  rintro e _ ⟨es, rfl, he⟩
  refine consumes_spanFrom_pure fun span => ?_
  rw [hw.eq_key, hv.eq_key]
  simpa using Item.Derives.expression he

theorem consumesAt_blockItem {c : Cursor} (ht : c.token? = some .leftBrace) :
    ConsumesAt blockItem c Item.Derives := by
  unfold blockItem
  refine (consumesBlock c ht).bind fun b bs hb => ?_
  cases hb with
  | block hss => exact .pure (by simpa using Item.Derives.block hss)

/-- An item that is read without problems is derived. -/
theorem consumesAt_item {c : Cursor} {t : Token} {p : Parse Item} (ht : c.token? = some t)
    (hp : item? t c.second? = some p) : ConsumesAt p c Item.Derives := by
  unfold item? at hp
  split at hp
  · cases hp; exact consumesAt_directiveItem ht
  · cases hp; exact consumesAt_varItem ht
  · cases hp; exact consumesAt_varItem ht
  · cases hp; exact consumesAt_eventItem ht
  · split at hp
    · rename_i hsecond
      cases hp
      exact consumesAt_expressionItem ht (by simpa using hsecond)
    · cases hp; exact consumesAt_instructionItem ht
  · cases hp; exact consumesAt_blockItem ht
  · cases hp

/-- An item begins with one of these tokens. -/
def Token.startsItem : Token → Bool
  | .hash | .leftBrace | .keyword .var | .keyword .list | .keyword .on | .keyword .def_ => true
  | _ => false

theorem Surface.Item.Derives.starts {x : Item} {ts : List Symbol} (h : x.Derives ts) :
    ∃ t w us, ts = (t, w) :: us ∧ t.startsItem = true := by
  cases h with
  | @var isList _ _ => cases isList <;> exact ⟨_, _, _, rfl, rfl⟩
  | _ => exact ⟨_, _, _, rfl, rfl⟩

theorem Surface.Items.Derives.head_ne {xs : List Item} {us : List Symbol} (h : Items.Derives xs us) :
    headToken us ≠ some .rightBrace := by
  cases h with
  | cons hx _ _ =>
      obtain ⟨t, w, vs, rfl, ht⟩ := hx.starts
      rintro ⟨⟩
      cases ht
  | _ => exact nofun

/-- The items of a text, up to its end. -/
theorem consumesAt_items (n : Nat) : ∀ c : Cursor, c.view.length ≤ n → ConsumesAt (items n) c fun xs ts =>
    c.view = ts ∧ Items.Derives xs ts := by
  induction n with
  | zero =>
      intro c hn
      have hnil : c.view = [] := List.length_eq_zero_iff.mp (by omega)
      exact Consumes.pure ⟨hnil, .nil⟩ c
  | succ n ih =>
      intro c hn
      have hless : ∀ {t : Token} {w : String} {ts : List Symbol} {c' : Cursor},
          c.view = (t, w) :: ts ++ c'.view → c'.view.length ≤ n := by
        intro t w ts c' hview
        rw [hview] at hn
        simp at hn
        omega
      unfold items
      refine .peek rfl ?_
      split
      · rename_i ht
        have hnil : c.view = [] := by simpa [Cursor.token?_eq, headToken] using ht
        exact Consumes.pure ⟨hnil, .nil⟩ c
      · rename_i t ht
        split
        · rename_i hlayout
          refine (ConsumesAt.advance ht).bindAt ?_
          rintro _ _ c' ⟨w, rfl, hw⟩ hview
          refine (ih c' (hless hview)).mono ?_
          rintro xs us ⟨hus, hxs⟩
          refine ⟨by rw [hview, hus], ?_⟩
          simp only [Bool.or_eq_true, beq_iff_eq] at hlayout
          rcases hlayout with rfl | rfl
          · rw [hw.eq rfl]
            exact .newline hxs
          · exact .comment hxs
        · split
          · rename_i p hp
            refine (consumesAt_item ht hp).bindAt fun x ts c₁ hx hview => ?_
            obtain ⟨t, w, vs, rfl, _⟩ := hx.starts
            refine ConsumesAt.expectLineEnd.bindAt ?_
            rintro _ _ c₂ ⟨rfl, hat⟩ hview₁
            have hview₂ : c₁.view = c₂.view := hview₁
            refine (ih c₂ (hless (hview.trans (by rw [hview₂])))).bind ?_
            rintro xs us ⟨hus, hxs⟩
            refine .pure ?_
            rw [List.append_nil]
            refine ⟨by rw [hview, hview₂, hus]; rfl, .cons hx hxs ?_⟩
            -- a closing brace begins no item, so that it would be a problem later
            by_cases hnil : us = []
            · exact .inl (by rw [hnil]; rfl)
            · have hview₃ : c₁.view = us ++ [] := by rw [hview₂, hus, List.append_nil]
              have hends := Cursor.endsStatement_of_atStatementEnd hat hview₃ hnil
              rcases hends with h | h | h
              · exact .inr (.inl h)
              · exact .inr (.inr h)
              · exact absurd h hxs.head_ne
          · exact Consumes.report c

/-- **A program that is read without problems is derived from all its lexemes.** The loop over the items has as many
rounds as there are lexemes, so it ends because none is left, and each of its rounds takes a line end, a comment or
the lexemes of an item. -/
theorem derives_of_ofLexemes {lexemes : List Lexeme} (hcanonical : ∀ l ∈ lexemes, Canonical l.bare)
    (h : (Program.ofLexemes lexemes).problems = []) :
    (Program.ofLexemes lexemes).value.Derives (lexemes.map Lexeme.bare) := by
  have hprogram : ConsumesAt Parse.program (Cursor.ofLexemes lexemes) fun p ts =>
      (Cursor.ofLexemes lexemes).view = ts ∧ p.Derives ts := by
    unfold Parse.program
    refine .peek rfl ((consumesAt_items _ _ (by rw [Cursor.length_rest])).bind fun xs ts hxs => .pure ?_)
    rwa [List.append_nil]
  obtain ⟨ts, _, hts, hderives⟩ := hprogram (by
    intro u hu
    obtain ⟨l, hl, rfl⟩ := List.mem_map.mp hu
    exact hcanonical l hl) h
  rw [← hts] at hderives
  exact hderives

end FlightScript
