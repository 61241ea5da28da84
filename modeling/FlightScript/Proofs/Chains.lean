import FlightScript.Proofs.Derivation

/-!
# `Proofs.Chains` — derivable expressions are read

The grammar allows a conditional expression to the left of an operator, and then the operator may as well belong to
its last part: the lexemes of an expression have several derivations, and reading finds the one in which a
conditional reaches as far as it can. What matters is then the sequence of operands and operators. Such a sequence
is a chain, and every stratum reads a chain up to an operator that is too loose for it.

## Contents

* `Chain`: operands, or a last conditional, with operators between them;
* `Expression.Derives.chain`: the lexemes of a derived expression are a chain;
* `ReadsChains`: a stratum reads every chain up to a looser operator, and one lemma from each stratum to the next;
* `Chain.readsWhole`, `Expression.Derives.readsWhole`: a derived expression is read to its end.
-/

namespace FlightScript

open Parse
open Spelled (key commas)

/-- Operators behind which `not` may stand. -/
def Operator.isLogical : Operator → Bool
  | and | or => true
  | _ => false

/-- Lexemes are read to their end at a stratum, whatever the tree. -/
abbrev IsRead (k : Nat) (ts : List Symbol) : Prop := ReadsAt k ts fun _ => True

/-- Lexemes are read as a whole expression, whatever the tree. -/
abbrev IsReadWhole (ts : List Symbol) : Prop := ReadsWhole ts fun _ => True

/-- Operands with operators between them. The last one may be a conditional, whose last part goes on as a chain.
The flag says whether `not` may stand in front. -/
inductive Chain : Bool → List Symbol → Prop where
  | operand {b : Bool} {ts : List Symbol} : IsRead 2 ts → Starts 2 ts → Chain b ts
  | operator {b : Bool} {ts us : List Symbol} (o : Operator) :
      IsRead 2 ts → Starts 2 ts → Chain o.isLogical us → Chain b (ts ++ o.lexeme :: us)
  | not {us : List Symbol} : Chain true us → Chain true (key .not :: us)
  | conditional {b : Bool} {cs ts us : List Symbol} :
      IsReadWhole cs → IsReadWhole ts → Chain true us →
      Chain b (key .if_ :: cs ++ key .then_ :: ts ++ key .else_ :: us)

namespace Chain

variable {b : Bool} {us : List Symbol}

/-- Where `not` may stand in front it need not. -/
theorem loose (h : Chain b us) : Chain true us := by
  cases h with
  | operand hr hs => exact .operand hr hs
  | operator o hr hs hu => exact .operator o hr hs hu
  | not hu => exact .not hu
  | conditional hc ht hu => exact .conditional hc ht hu

/-- A chain goes on behind an operator; behind a conditional it is the last part that goes on. -/
theorem append {vs : List Symbol} {o : Operator} (h : Chain b us) (hv : Chain o.isLogical vs) :
    Chain b (us ++ o.lexeme :: vs) := by
  induction h with
  | operand hr hs => exact .operator o hr hs hv
  | operator o' hr hs _ ih =>
      rw [List.append_assoc, List.cons_append]
      exact .operator o' hr hs ih
  | not _ ih => exact .not ih
  | conditional hc ht _ ih =>
      rw [List.append_assoc, List.cons_append]
      exact .conditional hc ht ih

/-- A chain is not empty. -/
theorem length_pos (h : Chain b us) : 0 < us.length := by
  cases h with
  | operand _ hs => exact List.length_pos_of_ne_nil hs.ne_nil
  | operator _ _ _ _ => rw [List.length_append, List.length_cons]; omega
  | not _ => simp
  | conditional _ _ _ => simp

/-- Without `not` in front it does not matter whether it may stand there. -/
theorem strict (h : Chain b us) (hnot : headToken us ≠ some (.keyword .not)) : Chain false us := by
  cases h with
  | operand hr hs => exact .operand hr hs
  | operator o hr hs hu => exact .operator o hr hs hu
  | not _ => exact absurd rfl hnot
  | conditional hc ht hu => exact .conditional hc ht hu

theorem headToken_of_starts {ts : List Symbol} (h : Starts 2 ts) {k : Keyword}
    (hk : k = .not ∨ k = .if_) : headToken ts ≠ some (.keyword k) := by
  obtain ⟨t, w, ws, rfl, _, hnot, hif⟩ := h
  rintro ⟨⟩
  rcases hk with rfl | rfl
  · exact hnot (by omega) rfl
  · exact hif (by omega) rfl

theorem eq_not (h : Chain b us) (hnot : headToken us = some (.keyword .not)) :
    ∃ vs, us = key .not :: vs ∧ Chain true vs := by
  cases h with
  | operand _ hs => exact absurd hnot (headToken_of_starts hs (.inl rfl))
  | operator _ _ hs _ => exact absurd hnot (headToken_of_starts (hs.append _) (.inl rfl))
  | not hu => exact ⟨_, rfl, hu⟩
  | conditional _ _ _ => cases hnot

/-- A chain that begins with `if` is a conditional whose first two parts are read whole and whose last one is a
chain. -/
theorem eq_conditional (h : Chain b us) (hif : headToken us = some (.keyword .if_)) :
    ∃ cs ts vs, us = key .if_ :: cs ++ key .then_ :: ts ++ key .else_ :: vs ∧ IsReadWhole cs ∧ IsReadWhole ts ∧
      Chain true vs := by
  cases h with
  | operand _ hs => exact absurd hif (headToken_of_starts hs (.inr rfl))
  | operator _ _ hs _ => exact absurd hif (headToken_of_starts (hs.append _) (.inr rfl))
  | not _ => cases hif
  | conditional hc ht hu => exact ⟨_, _, _, rfl, hc, ht, hu⟩

end Chain

/-! ## Chains at a stratum

A stratum reads a chain up to the first operator that is too loose for it, and what it leaves is a chain again
behind that operator. The length of a chain bounds the induction. -/

/-- Nothing, or an operator looser than a stratum and a chain behind it. -/
def GoesOn (k : Nat) (vs : List Symbol) : Prop :=
  vs = [] ∨ ∃ (o : Operator) (us : List Symbol), vs = o.lexeme :: us ∧ k < o.precedence ∧
    Chain o.isLogical us

/-- A reading takes lexemes, at least one of them, up to an operator looser than a stratum. -/
def ReadsTo (k : Nat) (p : ExpressionParse) (us rest : List Symbol) : Prop :=
  ∃ vs, GoesOn k vs ∧ vs.length < us.length ∧ Reads p (us ++ rest) (vs ++ rest) (SomeTree fun _ => True)

/-- A stratum reads all chains of at most this length up to a looser operator. -/
def ReadsChains (k N : Nat) : Prop :=
  ∀ b us, Chain b us → us.length ≤ N → (b = true → 8 ≤ k) → ∀ n rest, Ends 10 rest → (us ++ rest).length ≤ n →
    ReadsTo k (level (expressionWithin n) k) us rest

theorem Operator.level?_token (o : Operator) : o.token.level? = some o.precedence := by
  cases o <;> rfl

theorem Operator.three_le_precedence (o : Operator) : 3 ≤ o.precedence ∧ o.precedence ≤ 10 := by
  cases o <;> decide

theorem Operator.nine_le_precedence {o : Operator} (h : o.isLogical = true) : 9 ≤ o.precedence := by
  cases o <;> first | decide | cases h

theorem Operator.eq_power {o : Operator} (h : o.precedence = 3) : o = .power := by
  cases o <;> first | rfl | cases h

/-- An operator that follows does not belong to a tighter stratum. -/
theorem ends_operator {k : Nat} {o : Operator} (h : k < o.precedence) (us : List Symbol) :
    Ends k (o.lexeme :: us) := by
  refine Ends.cons fun l hl => ?_
  rw [o.level?_token] at hl
  cases hl
  exact h

/-- What goes on behind a stratum does not belong to it. -/
theorem GoesOn.ends {k : Nat} {vs rest : List Symbol} (h : GoesOn k vs) (hk : k ≤ 10)
    (hrest : Ends 10 rest) : Ends k (vs ++ rest) := by
  rcases h with rfl | ⟨o, us, rfl, ho, _⟩
  · exact hrest.mono hk
  · exact ends_operator ho _

section Strata

variable {N : Nat}

/-- Operands and conditionals are read by themselves. -/
theorem readsChains_operand (hwhole : ∀ b us, Chain b us → us.length < N → IsReadWhole us) : ReadsChains 2 N := by
  intro b us h hlen hb n rest hends hn
  cases h with
  | operand hr hs =>
      refine ⟨[], .inl rfl, List.length_pos_of_ne_nil hs.ne_nil, ?_⟩
      exact hr n rest (hends.mono (by omega)) hn
  | @operator _ ts us o hr hs hu =>
      have hpos : 0 < ts.length := List.length_pos_of_ne_nil hs.ne_nil
      have hprec : 2 < o.precedence := o.three_le_precedence.1
      refine ⟨o.lexeme :: us, .inr ⟨o, us, rfl, hprec, hu⟩, by simp; omega, ?_⟩
      rw [List.append_assoc] at hn ⊢
      exact hr n _ (ends_operator hprec _) hn
  | not _ => exact absurd (hb rfl) (by omega)
  | @conditional _ cs ts us hc ht hu =>
      have hu' : IsReadWhole us := hwhole true us hu (by simp at hlen; omega)
      refine ⟨[], .inl rfl, by simp, ?_⟩
      show Reads (primary (expressionWithin n)) _ rest _
      unfold primary
      refine Reads.cursor.bind fun c hc' => ?_
      rw [c.token?_eq, hc']
      exact .conditional hc ht hu' (fun _ _ _ _ _ _ _ => trivial) hends hn

/-- Powers take what stands behind a power as well. -/
theorem ReadsChains.power (h : ReadsChains 2 N) : ReadsChains 3 N := by
  have hwithin : ∀ L b us, us.length = L → Chain b us → us.length ≤ N → (b = true → 8 ≤ 2) →
      ∀ n m rest, Ends 10 rest → (us ++ rest).length ≤ n → (us ++ rest).length < m →
      ReadsTo 3 (powerWithin (primary (expressionWithin n)) m) us rest := by
    intro L
    induction L using Nat.strong_induction_on with
    | _ L ih =>
      intro b us hL hu hlen hb n m rest hends hn hm
      obtain ⟨m, rfl⟩ : ∃ k, m = k + 1 := ⟨m - 1, by omega⟩
      obtain ⟨vs, hvs, hshort, hreads⟩ := h b us hu hlen hb n rest hends hn
      have hbase : Reads (primary (expressionWithin n)) (us ++ rest) (vs ++ rest) (SomeTree fun _ => True) := hreads
      simp only [List.length_append] at hn hm
      -- nothing to the right unless a caret follows
      have hstop : GoesOn 3 vs → headToken (vs ++ rest) ≠ some .caret →
          ReadsTo 3 (powerWithin (primary (expressionWithin n)) (m + 1)) us rest := by
        intro hgoes hcaret
        refine ⟨vs, hgoes, hshort, ?_⟩
        unfold powerWithin
        refine Reads.start.bind fun first _ => hbase.bind ?_
        rintro _ ⟨e, rfl, _⟩
        refine (Reads.eat_none hcaret).bind ?_
        rintro _ rfl
        exact .pure ⟨e, rfl, trivial⟩
      rcases hvs with rfl | ⟨o, ws, rfl, ho, hws⟩
      · exact hstop (.inl rfl) (hends.ne rfl (by omega))
      · by_cases hpower : o.precedence = 3
        · cases Operator.eq_power hpower
          have hshort' : ws.length < us.length := by simp at hshort; omega
          obtain ⟨xs, hxs, hshort'', hrec⟩ := ih ws.length (by omega) false ws rfl hws (by omega) (by simp) n m rest
            hends (by simp; omega) (by simp; omega)
          refine ⟨xs, hxs, by omega, ?_⟩
          unfold powerWithin
          refine Reads.start.bind fun first _ => hbase.bind ?_
          rintro _ ⟨e, rfl, _⟩
          refine Reads.eat.bind ?_
          rintro _ ⟨l, rfl, _⟩
          refine hrec.bind ?_
          rintro _ ⟨e', rfl, _⟩
          exact Reads.spanFrom.bind fun span _ => .pure ⟨_, rfl, trivial⟩
        · have hlt : 3 < o.precedence := by omega
          refine hstop (.inr ⟨o, ws, rfl, hlt, hws⟩) ?_
          exact (ends_operator hlt _).ne rfl (by omega)
  intro b us hu hlen hb n rest hends hn
  have hfalse : b = true → 8 ≤ 2 := fun hb' => absurd (hb hb') (by omega)
  obtain ⟨vs, hvs, hshort, hreads⟩ := hwithin us.length b us rfl hu hlen hfalse n ((us ++ rest).length + 1) rest hends
    hn (Nat.lt_succ_self _)
  refine ⟨vs, hvs, hshort, ?_⟩
  show Reads (Parse.power (primary (expressionWithin n))) _ _ _
  unfold Parse.power
  refine Reads.remaining.bind ?_
  rintro _ rfl
  exact hreads

/-- No operator stands between powers and products. -/
theorem ReadsChains.four (h : ReadsChains 3 N) : ReadsChains 4 N := by
  intro b us hu hlen hb n rest hends hn
  obtain ⟨vs, hvs, hshort, hreads⟩ := h b us hu hlen (fun hb' => absurd (hb hb') (by omega)) n rest hends hn
  refine ⟨vs, hvs.imp_right ?_, hshort, hreads⟩
  rintro ⟨o, ws, rfl, ho, hws⟩
  exact ⟨o, ws, rfl, by cases o <;> first | decide | exact absurd ho (by decide), hws⟩

/-- After a left operand, operators of a stratum are taken with their right operands up to a looser operator. -/
theorem ReadsChains.operatorChain {p : Nat} (h : ReadsChains (p - 1) N) (hp : 4 < p ∧ p ≤ 10)
    {n : Nat} {rest : List Symbol} (hends : Ends 10 rest) (L : Nat) :
    ∀ vs, vs.length = L → vs.length ≤ N → GoesOn (p - 1) vs → (vs ++ rest).length ≤ n →
      ∃ ws, GoesOn p ws ∧ ws.length ≤ vs.length ∧ ∀ m first lhs, (vs ++ rest).length ≤ m →
        Reads (Parse.operatorChain (levelTable p) (level (expressionWithin n) (p - 1)) first m lhs) (vs ++ rest)
          (ws ++ rest) fun _ => True := by
  induction L using Nat.strong_induction_on with
  | _ L ih =>
    intro vs hL hlen hvs hn
    -- the chain ends where no operator of the stratum follows
    have hstop : GoesOn p vs → ∀ m first lhs, Reads
        (Parse.operatorChain (levelTable p) (level (expressionWithin n) (p - 1)) first m lhs) (vs ++ rest)
        (vs ++ rest) fun _ => True := by
      intro hgoes m first lhs
      have hnone : (headToken (vs ++ rest)).bind (levelTable p) = none := by
        cases ht : headToken (vs ++ rest) with
        | none => rfl
        | some t =>
            cases ho : levelTable p t with
            | none => exact ho
            | some o => exact absurd (hgoes.ends hp.2 hends t p ht (level?_of_levelTable ho)) (by omega)
      cases m with
      | zero => exact .pure trivial
      | succ m =>
          unfold Parse.operatorChain
          refine Reads.token?.bind ?_
          rintro _ rfl
          rw [hnone]
          exact .pure trivial
    rcases hvs with rfl | ⟨o, us, rfl, ho, hus⟩
    · exact ⟨[], .inl rfl, le_refl _, fun m first lhs _ => hstop (.inl rfl) m first lhs⟩
    · by_cases hprec : o.precedence = p
      · have hne : o ≠ .power := by
          rintro rfl
          exact absurd hprec (by simp [Operator.precedence]; omega)
        have hlogical : o.isLogical = true → 8 ≤ p - 1 := by
          intro hl
          have := Operator.nine_le_precedence hl
          omega
        have htable : levelTable p o.token = some o := hprec ▸ levelTable_token hne
        simp only [List.cons_append, List.length_cons, List.length_append] at hlen hn hL
        obtain ⟨xs, hxs, hshort, hoperand⟩ := h _ us hus (by omega) hlogical n rest hends (by simp; omega)
        obtain ⟨ws, hws, hle, hrec⟩ := ih xs.length (by omega) xs rfl (by omega) hxs (by simp; omega)
        refine ⟨ws, hws, by simp; omega, fun m first lhs hm => ?_⟩
        simp only [List.cons_append, List.length_cons, List.length_append] at hm
        obtain ⟨m, rfl⟩ : ∃ k, m = k + 1 := ⟨m - 1, by omega⟩
        unfold Parse.operatorChain
        refine Reads.token?.bind ?_
        rintro _ rfl
        have hhead : (headToken (o.lexeme :: us ++ rest)).bind (levelTable p) = some o := htable
        rw [hhead]
        refine Reads.advance.bind fun _ _ => hoperand.bind ?_
        rintro _ ⟨e, rfl, _⟩
        exact Reads.spanFrom.bind fun span _ => hrec m first _ (by simp; omega)
      · have hgoes : GoesOn p (o.lexeme :: us) := .inr ⟨o, us, rfl, by omega, hus⟩
        exact ⟨_, hgoes, le_refl _, fun m first lhs _ => hstop hgoes m first lhs⟩

/-- A stratum of operators that group to the left. -/
theorem ReadsChains.binary {p : Nat} (h : ReadsChains (p - 1) N) (hp : 4 < p ∧ p ≤ 10)
    (hlevel : ∀ expr, level expr p = binaryLevel (levelTable p) (level expr (p - 1)))
    (hnot : 8 ≤ p → 8 ≤ p - 1) : ReadsChains p N := by
  intro b us hu hlen hb n rest hends hn
  obtain ⟨vs, hvs, hshort, hoperand⟩ := h b us hu hlen (fun hb' => hnot (hb hb')) n rest hends hn
  simp only [List.length_append] at hn
  obtain ⟨ws, hws, hle, hchain⟩ := h.operatorChain (n := n) hp hends vs.length vs rfl (by omega) hvs
    (by simp; omega)
  refine ⟨ws, hws, by omega, ?_⟩
  rw [hlevel]
  unfold binaryLevel
  refine Reads.start.bind fun first _ => hoperand.bind ?_
  rintro _ ⟨e, rfl, _⟩
  refine Reads.remaining.bind ?_
  rintro _ rfl
  refine (hchain _ first e (le_refl _)).bind fun e' _ => ?_
  exact .pure ⟨e', rfl, trivial⟩

/-- Negations stand in front of comparisons. -/
theorem ReadsChains.not (h : ReadsChains 7 N) : ReadsChains 8 N := by
  -- without a negation in front it is the stratum below, and no operator stands between the two
  have hplain : ∀ {b us}, Chain b us → headToken us ≠ some (.keyword .not) → us.length ≤ N → ∀ n m rest,
      Ends 10 rest → (us ++ rest).length ≤ n → ReadsTo 8 (notWithin (level (expressionWithin n) 7) m) us rest := by
    intro b us hu hnot hlen n m rest hends hn
    obtain ⟨vs, hvs, hshort, hreads⟩ := h false us (hu.strict hnot) hlen (by simp) n rest hends hn
    refine ⟨vs, hvs.imp_right ?_, hshort, ?_⟩
    · rintro ⟨o, ws, rfl, ho, hws⟩
      exact ⟨o, ws, rfl, by cases o <;> first | decide | exact absurd ho (by decide), hws⟩
    · cases m with
      | zero => exact hreads
      | succ m =>
          have hat : (headToken (us ++ rest) == some (Token.keyword .not)) = false := by
            obtain ⟨u, us, rfl⟩ := List.exists_cons_of_length_pos hu.length_pos
            simpa [headToken] using hnot
          unfold notWithin
          refine Reads.isAt.bind ?_
          rintro _ rfl
          rw [hat]
          exact hreads
  have hwithin : ∀ L b us, us.length = L → Chain b us → us.length ≤ N → ∀ n m rest, Ends 10 rest →
      (us ++ rest).length ≤ n → (us ++ rest).length ≤ m →
      ReadsTo 8 (notWithin (level (expressionWithin n) 7) m) us rest := by
    intro L
    induction L with
    | zero => exact fun b us hL hu => absurd hu.length_pos (by omega)
    | succ L ih =>
        intro b us hL hu hlen n m rest hends hn hm
        by_cases hnot : headToken us = some (.keyword .not)
        · obtain ⟨ws, rfl, hws⟩ := hu.eq_not hnot
          simp only [List.cons_append, List.length_cons, List.length_append] at hL hlen hn hm
          obtain ⟨m, rfl⟩ : ∃ k, m = k + 1 := ⟨m - 1, by omega⟩
          obtain ⟨vs, hvs, hshort, hreads⟩ := ih true ws (by omega) hws (by omega) n m rest hends (by simp; omega)
            (by simp; omega)
          refine ⟨vs, hvs, by simp; omega, ?_⟩
          unfold notWithin
          refine Reads.isAt.bind ?_
          rintro _ rfl
          refine Reads.start.bind fun first _ => Reads.advance.bind fun _ _ => hreads.bind ?_
          rintro _ ⟨e, rfl, _⟩
          exact Reads.spanFrom.bind fun span _ => .pure ⟨_, rfl, trivial⟩
        · exact hplain hu hnot hlen n m rest hends hn
  intro b us hu hlen _ n rest hends hn
  obtain ⟨vs, hvs, hshort, hreads⟩ := hwithin _ b us rfl hu hlen n _ rest hends hn (le_refl _)
  refine ⟨vs, hvs, hshort, ?_⟩
  show Reads (notLevel (level (expressionWithin n) 7)) _ _ _
  unfold notLevel
  refine Reads.remaining.bind ?_
  rintro _ rfl
  exact hreads

/-- The loosest stratum reads all chains if whole expressions are read inside them. -/
theorem readsChains_loosest (hwhole : ∀ b us, Chain b us → us.length < N → IsReadWhole us) : ReadsChains 10 N := by
  have h4 : ReadsChains 4 N := (readsChains_operand hwhole).power.four
  have h5 : ReadsChains 5 N := ReadsChains.binary (p := 5) h4 (by omega) (fun _ => rfl) (by omega)
  have h6 : ReadsChains 6 N := ReadsChains.binary (p := 6) h5 (by omega) (fun _ => rfl) (by omega)
  have h7 : ReadsChains 7 N := ReadsChains.binary (p := 7) h6 (by omega) (fun _ => rfl) (by omega)
  have h9 : ReadsChains 9 N := ReadsChains.binary (p := 9) h7.not (by omega) (fun _ => rfl) (by omega)
  exact ReadsChains.binary (p := 10) h9 (by omega) (fun _ => rfl) (by omega)

end Strata

/-- **Every chain is read as a whole expression.** The induction is on the length of the chain, since a conditional
has shorter ones inside. The strata are climbed from the operands up. What one stratum leaves begins with a looser
operator or is nothing, and behind the loosest one it is nothing. -/
theorem Chain.readsWhole {b : Bool} {us : List Symbol} (h : Chain b us) : IsReadWhole us := by
  -- by the length of the chain: conditionals have shorter ones inside
  have hall : ∀ L b us, us.length = L → Chain b us → IsReadWhole us := by
    intro L
    induction L using Nat.strong_induction_on with
    | _ L ih =>
      intro b us hL hu
      have hwhole : ∀ b us, Chain b us → us.length < L → IsReadWhole us := fun b us hu hlt => ih _ hlt b us rfl hu
      by_cases hif : headToken us = some (.keyword .if_)
      · obtain ⟨cs, ts, ws, rfl, hc, ht, hw⟩ := hu.eq_conditional hif
        exact .conditional hc ht (hwhole true ws hw (by rw [← hL]; simp; omega)) fun _ _ _ _ _ _ _ => trivial
      · intro n rest hends hn
        obtain ⟨n, rfl⟩ : ∃ m, n = m + 1 := ⟨n - 1, by omega⟩
        obtain ⟨vs, hvs, _, hreads⟩ := readsChains_loosest hwhole b us hu (by omega) (by omega) n rest hends (by omega)
        -- no operator is looser than the loosest stratum
        have hnil : vs = [] := by
          rcases hvs with rfl | ⟨o, ws, _, ho, _⟩
          · rfl
          · exact absurd o.three_le_precedence.2 (by omega)
        have hat : (headToken (us ++ rest) == some (Token.keyword .if_)) = false := by
          obtain ⟨u, us, rfl⟩ := List.exists_cons_of_length_pos hu.length_pos
          simpa [headToken] using hif
        rw [hnil] at hreads
        unfold expressionWithin
        refine Reads.isAt.bind ?_
        rintro _ rfl
        rw [hat]
        exact hreads
  exact hall _ b us rfl h

/-! ## Operands

What is read at the tightest stratum: constants, names, calls and what stands in parentheses. -/

theorem Reads.anyTree {p : ExpressionParse} {us vs : List Symbol} {P : Node → Prop}
    (h : Reads p us vs (SomeTree P)) : Reads p us vs (SomeTree fun _ => True) := by
  refine h.mono ?_
  rintro _ ⟨e, rfl, _⟩
  exact ⟨e, rfl, trivial⟩

namespace Surface

/-- The lexemes begin as an operand does. -/
theorem starts_operand {t : Token} {w : String} {us : List Symbol} (ht : t.startsExpression = true)
    (hnot : t ≠ .keyword .not) (hif : t ≠ .keyword .if_) : Starts 2 ((t, w) :: us) :=
  ⟨_, _, _, rfl, ht, fun _ => hnot, fun _ => hif⟩

theorem Reference.IsWhole.starts_operand {r : Reference} (h : r.IsWhole) (us : List Symbol) :
    Starts 2 (r.lexemes ++ us) := by
  obtain ⟨t, w, vs, hvs, ht⟩ := h.starts
  obtain ⟨hstart, hnot, hif⟩ := t.startsExpression_of_startsName ht
  rw [hvs]
  exact Surface.starts_operand hstart (hnot 0 (by omega)) (hif 0 (by omega))

/-- A constant is an operand. A negative number is two lexemes, and the sign is taken with the number behind it.
-/
theorem Literal.isRead (v : Literal) : IsRead 2 v.lexemes ∧ Starts 2 v.lexemes := by
  have hsingle : ∀ {t : Token} {w : String} {value : String → Literal}, constantToken t = some value →
      IsRead 2 [(t, w)] ∧ Starts 2 [(t, w)] := by
    intro t w value ht
    obtain ⟨hstart, hnot, hif, _⟩ := constantToken_starts ht
    exact ⟨fun _ _ _ _ => (Reads.primary_constant ht).anyTree, starts_operand hstart hnot hif⟩
  cases v with
  | number negative digits =>
      cases negative with
      | false => exact hsingle (t := .number) rfl
      | true => exact ⟨fun _ _ _ _ => Reads.primary_negative.anyTree, starts_operand rfl nofun nofun⟩
  | string literal => exact hsingle (t := .string) rfl
  | bool value =>
      cases value with
      | false => exact hsingle (t := .keyword .false_) rfl
      | true => exact hsingle (t := .keyword .true_) rfl

/-- A use of a name is an operand. -/
theorem Reference.IsWhole.isRead {r : Reference} (h : r.IsWhole) : IsRead 2 r.lexemes := by
  intro n rest hends _
  obtain ⟨t, w, us, hus, ht⟩ := h.starts
  have hreads := h.reads (hends.ne (t := .dot) rfl (by omega))
  rw [hus] at hreads ⊢
  refine .primary_named ht ?_
  unfold nameOrCall
  refine Reads.start.bind fun first _ => hreads.bind ?_
  rintro _ ⟨r', rfl, _⟩
  refine Reads.isAt.bind ?_
  rintro _ rfl
  rw [if_neg (by simpa using hends.ne (t := .leftParen) rfl (by omega))]
  exact Reads.spanFrom.bind fun span _ => .pure ⟨_, rfl, trivial⟩

/-- The arguments of a call, none of them included. -/
theorem reads_callArguments {tss : List (List Symbol)} (h : ∀ ts ∈ tss, IsReadWhole ts ∧ Starts 11 ts)
    {n : Nat} {rest : List Symbol}
    (hn : ((.leftParen, "(") :: commas tss ++ (.rightParen, ")") :: rest).length ≤ n) :
    Reads (Parse.callArguments (expressionWithin n)) ((.leftParen, "(") :: commas tss ++ (.rightParen, ")") :: rest)
      rest fun _ => True := by
  by_cases hne : tss = []
  · subst hne
    unfold Parse.callArguments
    refine Reads.advance.bind fun _ _ => Reads.eat.bind ?_
    rintro _ ⟨l, rfl, _⟩
    exact .pure trivial
  · have hall : ReadsAll (fun _ (_ : List Symbol) => True) tss tss :=
      List.forall₂_same.mpr h
    have hview : Spelled.arguments tss ++ rest = _ := arguments_append hne
    rw [List.cons_append, ← hview] at hn ⊢
    exact (Reads.callArguments hall hne hn).mono fun _ _ => trivial

/-- A call is an operand. -/
theorem Reference.IsWhole.isRead_call {r : Reference} (h : r.IsWhole) {tss : List (List Symbol)}
    (has : ∀ ts ∈ tss, IsReadWhole ts ∧ Starts 11 ts) :
    IsRead 2 (r.lexemes ++ (.leftParen, "(") :: commas tss ++ [(.rightParen, ")")]) := by
  intro n rest _ hn
  have hview : r.lexemes ++ (Token.leftParen, "(") :: commas tss ++ [(Token.rightParen, ")")] ++ rest =
      r.lexemes ++ ((.leftParen, "(") :: commas tss ++ (.rightParen, ")") :: rest) := by simp
  rw [hview] at hn ⊢
  obtain ⟨t, w, us, hus, ht⟩ := h.starts
  have hdot : headToken ((.leftParen, "(") :: commas tss ++ (.rightParen, ")") :: rest) ≠ some .dot := by simp
  have hreads := h.reads hdot
  rw [hus] at hreads hn ⊢
  refine .primary_named ht ?_
  unfold nameOrCall
  refine Reads.start.bind fun first _ => hreads.bind ?_
  rintro _ ⟨r', rfl, _⟩
  refine Reads.isAt.bind ?_
  rintro _ rfl
  rw [if_pos (by simp)]
  refine (reads_callArguments has (by simp at hn ⊢; omega)).bind fun _ _ => ?_
  exact Reads.spanFrom.bind fun span _ => .pure ⟨_, rfl, trivial⟩

/-! ## Derived expressions

A derivation is taken apart into its operands and operators, which forgets how they were grouped. -/

/-- The lexemes of a derived expression are a chain, in front of which `not` may stand at the loose strata. -/
theorem Expression.Derives.chain {k : Nat} {e : Expression} {ts : List Symbol} (h : e.Derives k ts) :
    Chain (decide (8 ≤ k)) ts := by
  induction h with
  | @literal value _ =>
      obtain ⟨hread, hstarts⟩ := value.isRead
      exact .operand hread hstarts
  | @name r _ hr =>
      have hstarts := hr.starts_operand []
      rw [List.append_nil] at hstarts
      exact .operand hr.isRead hstarts
  | @call r arguments _ hr hargs ih =>
      have has : ∀ ts ∈ arguments.map Prod.snd, IsReadWhole ts ∧ Starts 11 ts := by
        intro ts hts
        obtain ⟨a, ha, rfl⟩ := List.mem_map.mp hts
        exact ⟨(ih a ha).readsWhole, (hargs a ha).starts⟩
      refine .operand (hr.isRead_call has) ?_
      rw [List.append_assoc]
      exact hr.starts_operand _
  | group _ ih => exact .operand ih.readsWhole.group (Surface.starts_operand rfl nofun nofun)
  | conditional _ _ _ ihc iht ihe => exact .conditional ihc.readsWhole iht.readsWhole ihe
  | power _ _ ihl ihr => exact ihl.append ihr
  | @binary o _ _ _ _ _ hpower _ _ ihl ihr =>
      have hlogical : decide (8 ≤ o.precedence - 1) = o.isLogical := by
        cases o <;> rfl
      rw [hlogical] at ihr
      exact ihl.append ihr
  | not _ ih => exact .not ih
  -- a tighter stratum fits where a looser one may stand, but only the loose ones let `not` in
  | @looser j k _ _ hjk _ ih =>
      by_cases hk : 8 ≤ k
      · rw [decide_eq_true hk]
        exact ih.loose
      · rw [decide_eq_false hk]
        rwa [decide_eq_false (by omega)] at ih

/-- **A derived expression is read to its end.** -/
theorem Expression.Derives.readsWhole {k : Nat} {e : Expression} {ts : List Symbol} (h : e.Derives k ts) :
    IsReadWhole ts := h.chain.readsWhole

end Surface

end FlightScript
