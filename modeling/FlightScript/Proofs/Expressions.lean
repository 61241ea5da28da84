import FlightScript.Proofs.Naming
import FlightScript.Surface.Desugar
import FlightScript.Surface.Expressions

/-!
# `Proofs.Expressions` — written expressions read back

The writer puts parentheses by numeric ceilings, the reader has a level of its own for each strength of binding.
Here the two are shown to agree: the lexemes of an expression under a ceiling are read at the level of that ceiling,
and at every weaker one, as a tree that comes to the same.

The levels that group to the left are the hard part: their left operand is not followed by something that ends it.
So a reading at such a level is described with whatever the chain of operators goes on with (`ReadsChain`), and
only at the end of the chain does this become a plain reading.

## Contents

* `Ends`: nothing behind an expression belongs to it;
* `ReadsAt`, `ReadsPower`, `ReadsNot`, `ReadsChain`: readings at the levels, and `Climbs`, which goes from one to
  the next;
* `Expressed`: everything about the lexemes of a written expression, and `Grammar.Expression.expressed`.
-/

namespace FlightScript

open Parse

/-! ## Levels

A token has a level if it can go on with an expression. An expression ends before a token of a looser level. -/

/-- The level at which a token goes on an expression that stands before it. -/
def Token.level? : Token → Option Nat
  | .leftParen | .dot => some 0
  | .caret => some 3
  | .star | .slash | .percent => some 5
  | .plus | .minus => some 6
  | .equal | .greater | .greaterEqual | .less | .lessEqual => some 7
  | .keyword .and => some 9
  | .keyword .or => some 10
  | _ => none

/-- What stands behind an expression of this level does not belong to it. -/
def Ends (k : Nat) (rest : List Symbol) : Prop :=
  ∀ t l, headToken rest = some t → t.level? = some l → k < l

theorem Ends.mono {j k : Nat} {rest : List Symbol} (h : Ends k rest) (hjk : j ≤ k) : Ends j rest :=
  fun t l ht hl => lt_of_le_of_lt hjk (h t l ht hl)

theorem Ends.cons {k : Nat} {t : Token} {w : String} {rest : List Symbol}
    (h : ∀ l, t.level? = some l → k < l) : Ends k ((t, w) :: rest) := by
  intro t' l ht hl
  cases ht
  exact h l hl

theorem Ends.ne {k l : Nat} {rest : List Symbol} {t : Token} (h : Ends k rest)
    (ht : t.level? = some l) (hl : l ≤ k) : headToken rest ≠ some t := by
  intro hhead
  exact absurd (h t l hhead ht) (by omega)

namespace Parse

/-- The level of products, given the reading of whole expressions. -/
def products (expr : ExpressionParse) : ExpressionParse :=
  binaryLevel multiplicativeOperator (power (primary expr))

/-- The level of sums. -/
def sums (expr : ExpressionParse) : ExpressionParse := binaryLevel additiveOperator (products expr)

/-- The level of comparisons. -/
def comparisons (expr : ExpressionParse) : ExpressionParse := binaryLevel comparisonOperator (sums expr)

/-- The level of negations. -/
def negations (expr : ExpressionParse) : ExpressionParse := notLevel (comparisons expr)

/-- The level of `and`. -/
def conjunctions (expr : ExpressionParse) : ExpressionParse := binaryLevel andOperator (negations expr)

/-- The reading of each level, by its strength of binding. -/
def level (expr : ExpressionParse) : Nat → ExpressionParse
  | 0 | 1 | 2 => primary expr
  | 3 | 4 => power (primary expr)
  | 5 => products expr
  | 6 => sums expr
  | 7 => comparisons expr
  | 8 => negations expr
  | 9 => conjunctions expr
  | _ => operators expr

/-- The operators of each level that groups to the left. -/
def levelTable : Nat → OperatorTable
  | 5 => multiplicativeOperator
  | 6 => additiveOperator
  | 7 => comparisonOperator
  | 9 => andOperator
  | 10 => orOperator
  | _ => fun _ => none

/-- An operator in the table of a level is of that level. -/
theorem level?_of_levelTable {p : Nat} {t : Token} {o : Operator} (h : levelTable p t = some o) :
    t.level? = some p := by
  unfold levelTable at h
  split at h
  · unfold multiplicativeOperator at h; split at h <;> first | rfl | cases h
  · unfold additiveOperator at h; split at h <;> first | rfl | cases h
  · unfold comparisonOperator at h; split at h <;> first | rfl | cases h
  · unfold andOperator at h; split at h <;> first | rfl | cases h
  · unfold orOperator at h; split at h <;> first | rfl | cases h
  · cases h

theorem levelTable_token {o : Operator} (h : o ≠ .power) : levelTable o.precedence o.token = some o := by
  cases o <;> first | rfl | exact absurd rfl h

end Parse

/-! ## Readings at a level

One kind of reading for each way in which levels read: powers, negations, and chains of operators that group to
the left. -/

/-- An expression was read, and its tree is as wanted. -/
def SomeTree (P : Node → Prop) (o : Option Surface.Expression) : Prop := ∃ e, o = some e ∧ P e.node

/-- The lexemes are read as a whole expression. -/
def ReadsWhole (ts : List Symbol) (P : Node → Prop) : Prop :=
  ∀ n rest, Ends 10 rest → (ts ++ rest).length < n →
    Reads (expressionWithin n) (ts ++ rest) rest (SomeTree P)

/-- The lexemes are read at a level. -/
def ReadsAt (k : Nat) (ts : List Symbol) (P : Node → Prop) : Prop :=
  ∀ n rest, Ends k rest → (ts ++ rest).length ≤ n →
    Reads (level (expressionWithin n) k) (ts ++ rest) rest (SomeTree P)

/-- The lexemes are read as a power, by any large enough number of steps. -/
def ReadsPower (ts : List Symbol) (P : Node → Prop) : Prop :=
  ∀ n m rest, Ends 3 rest → (ts ++ rest).length ≤ n → (ts ++ rest).length < m →
    Reads (powerWithin (primary (expressionWithin n)) m) (ts ++ rest) rest (SomeTree P)

/-- The lexemes are read as a negation, by any large enough number of steps. -/
def ReadsNot (ts : List Symbol) (P : Node → Prop) : Prop :=
  ∀ n m rest, Ends 8 rest → (ts ++ rest).length ≤ n → (ts ++ rest).length ≤ m →
    Reads (notWithin (level (expressionWithin n) 7) m) (ts ++ rest) rest (SomeTree P)

/-- The lexemes are read as the beginning of a chain of operators: if the chain goes on from any such tree as
described, so does the whole reading. -/
def ReadsChain (p : Nat) (ts : List Symbol) (P : Node → Prop) : Prop :=
  ∀ n rest vs R, Ends (p - 1) rest → (ts ++ rest).length ≤ n →
    (∀ first m e, P e.node → rest.length ≤ m →
      Reads (operatorChain (levelTable p) (level (expressionWithin n) (p - 1)) first m e) rest vs
        fun e => R e.node) →
    Reads (binaryLevel (levelTable p) (level (expressionWithin n) (p - 1))) (ts ++ rest) vs (SomeTree R)

section Steps

variable {ts : List Symbol} {P : Node → Prop} {p : Nat}

/-- A chain begins with what is read at the level below. -/
theorem ReadsAt.chain (h : ReadsAt (p - 1) ts P) : ReadsChain p ts P := by
  intro n rest vs R hends hn hchain
  unfold binaryLevel
  refine Reads.start.bind fun first _ => (h n rest hends hn).bind ?_
  rintro _ ⟨e, rfl, he⟩
  refine Reads.remaining.bind ?_
  rintro _ rfl
  refine (hchain first rest.length e he (le_refl _)).bind fun e' he' => ?_
  exact .pure ⟨e', rfl, he'⟩

/-- One more operator with its right operand. -/
theorem ReadsChain.binary {us : List Symbol} {L R : Node → Prop} {o : Operator} {w : String}
    (hl : ReadsChain p ts L) (ho : levelTable p o.token = some o) (hp : 0 < p) (hr : ReadsAt (p - 1) us R)
    (hP : ∀ l r span, L l → R r → P (.binary o.symbol l r span)) :
    ReadsChain p (ts ++ (o.token, w) :: us) P := by
  intro n rest vs S hends hn hchain
  have hview : ts ++ (o.token, w) :: us ++ rest = ts ++ ((o.token, w) :: (us ++ rest)) := by simp
  have hop : Ends (p - 1) ((o.token, w) :: (us ++ rest)) := by
    refine Ends.cons fun l hlev => ?_
    rw [level?_of_levelTable ho] at hlev
    cases hlev
    omega
  rw [hview] at hn ⊢
  simp only [List.length_append, List.length_cons] at hn
  refine hl n _ vs S hop (by simpa using hn) ?_
  -- the left operand is read; the chain goes on with the operator and comes to the rest
  intro first m e he hm
  simp only [List.length_cons, List.length_append] at hm
  obtain ⟨m, rfl⟩ : ∃ k, m = k + 1 := ⟨m - 1, by omega⟩
  unfold operatorChain
  refine Reads.token?.bind ?_
  rintro _ rfl
  rw [headToken_cons, Option.bind_some, ho]
  refine Reads.advance.bind fun _ _ => (hr n rest hends (by rw [List.length_append]; omega)).bind ?_
  rintro _ ⟨e', rfl, he'⟩
  refine Reads.spanFrom.bind fun span _ => hchain first m _ ?_ (by omega)
  exact hP _ _ _ he he'

/-- A chain ends where no operator of its level follows. -/
theorem ReadsChain.readsAt (hlevel : ∀ expr, level expr p = binaryLevel (levelTable p) (level expr (p - 1)))
    (h : ReadsChain p ts P) : ReadsAt p ts P := by
  intro n rest hends hn
  rw [hlevel]
  refine h n rest rest P (hends.mono (by omega)) hn ?_
  intro first m e he _
  have hnone : (headToken rest).bind (levelTable p) = none := by
    cases ht : headToken rest with
    | none => rfl
    | some t =>
        cases ho : levelTable p t with
        | none => exact ho
        | some o => exact absurd (hends t p ht (level?_of_levelTable ho)) (by omega)
  cases m with
  | zero => exact .pure he
  | succ m =>
      unfold operatorChain
      refine Reads.token?.bind ?_
      rintro _ rfl
      rw [hnone]
      exact .pure he

/-- A primary expression is a power without an exponent, if no caret follows. -/
theorem ReadsAt.power (h : ReadsAt 2 ts P) : ReadsPower ts P := by
  intro n m rest hends hn hm
  obtain ⟨m, rfl⟩ : ∃ k, m = k + 1 := ⟨m - 1, by omega⟩
  unfold powerWithin
  refine Reads.start.bind fun first _ => (h n rest (hends.mono (by omega)) hn).bind ?_
  rintro _ ⟨e, rfl, he⟩
  refine (Reads.eat_none (hends.ne rfl (by omega))).bind ?_
  rintro _ rfl
  exact .pure ⟨e, rfl, he⟩

/-- A power takes a primary expression to the left and another power to the right. -/
theorem ReadsPower.binary {us : List Symbol} {L R : Node → Prop} {w : String}
    (hl : ReadsAt 2 ts L) (hr : ReadsPower us R)
    (hP : ∀ l r span, L l → R r → P (.binary Operator.power.symbol l r span)) :
    ReadsPower (ts ++ (.caret, w) :: us) P := by
  intro n m rest hends hn hm
  have hview : ts ++ (Token.caret, w) :: us ++ rest = ts ++ ((.caret, w) :: (us ++ rest)) := by simp
  rw [hview] at hn hm ⊢
  simp only [List.length_append, List.length_cons] at hn hm
  obtain ⟨m, rfl⟩ : ∃ k, m = k + 1 := ⟨m - 1, by omega⟩
  unfold powerWithin
  have hcaret : Ends 2 ((Token.caret, w) :: (us ++ rest)) :=
    Ends.cons fun l hlev => by cases hlev; omega
  refine Reads.start.bind fun first _ => (hl n _ hcaret (by simpa using hn)).bind ?_
  rintro _ ⟨e, rfl, he⟩
  refine Reads.eat.bind ?_
  rintro _ ⟨l, rfl, _⟩
  refine (hr n m rest hends (by rw [List.length_append]; omega) (by rw [List.length_append]; omega)).bind ?_
  rintro _ ⟨e', rfl, he'⟩
  exact Reads.spanFrom.bind fun span _ => .pure ⟨_, rfl, hP _ _ _ he he'⟩

/-- A power is read at its own level, and at the next one, to which no operator belongs. -/
theorem ReadsPower.readsAt (h : ReadsPower ts P) {k : Nat} (hk : k = 3 ∨ k = 4) : ReadsAt k ts P := by
  intro n rest hends hn
  have hlevel : level (expressionWithin n) k = power (primary (expressionWithin n)) := by
    rcases hk with rfl | rfl <;> rfl
  rw [hlevel]
  unfold Parse.power
  refine Reads.remaining.bind ?_
  rintro _ rfl
  exact h n _ rest (hends.mono (by omega)) hn (Nat.lt_succ_self _)

/-- A comparison is read by the level of negations, if it does not begin with the word. -/
theorem ReadsAt.not (h : ReadsAt 7 ts P) (hhead : headToken ts ≠ some (.keyword .not)) (hne : ts ≠ []) :
    ReadsNot ts P := by
  intro n m rest hends hn _
  have hbase := h n rest (hends.mono (by omega)) hn
  cases m with
  | zero => exact hbase
  | succ m =>
      have hat : (headToken (ts ++ rest) == some (Token.keyword .not)) = false := by
        obtain ⟨u, us, rfl⟩ := List.exists_cons_of_ne_nil hne
        simpa [headToken] using hhead
      unfold notWithin
      refine Reads.isAt.bind ?_
      rintro _ rfl
      rw [hat]
      exact hbase

/-- One more negation in front. -/
theorem ReadsNot.negation {w : String} {R : Node → Prop} (h : ReadsNot ts R)
    (hP : ∀ e span, R e → P (.unary "not" e span)) : ReadsNot ((.keyword .not, w) :: ts) P := by
  intro n m rest hends hn hm
  simp only [List.cons_append, List.length_cons, List.length_append] at hn hm
  obtain ⟨m, rfl⟩ : ∃ k, m = k + 1 := ⟨m - 1, by omega⟩
  unfold notWithin
  refine Reads.isAt.bind ?_
  rintro _ rfl
  simp only [List.cons_append, headToken_cons, beq_self_eq_true, if_true]
  refine Reads.start.bind fun first _ => Reads.advance.bind fun _ _ => ?_
  refine (h n m rest hends (by rw [List.length_append]; omega) (by rw [List.length_append]; omega)).bind ?_
  rintro _ ⟨e, rfl, he⟩
  exact Reads.spanFrom.bind fun span _ => .pure ⟨_, rfl, hP _ _ he⟩

theorem ReadsNot.readsAt (h : ReadsNot ts P) : ReadsAt 8 ts P := by
  intro n rest hends hn
  show Reads (notLevel (level (expressionWithin n) 7)) _ _ _
  unfold notLevel
  refine Reads.remaining.bind ?_
  rintro _ rfl
  exact h n _ rest hends hn (le_refl _)

end Steps

/-! ## From level to level

What is read at one level is read at every weaker one, as long as what follows does not belong to it. -/

/-- The lexemes are read at a level in the form from which the next level follows. -/
def Climbs (k : Nat) (ts : List Symbol) (P : Node → Prop) : Prop :=
  match k with
  | 0 | 1 | 2 => ReadsAt 2 ts P
  | 3 | 4 => ReadsPower ts P
  | 8 => ReadsNot ts P
  | k => ReadsChain k ts P

/-- The tokens that an expression begins with. -/
def Token.startsExpression : Token → Bool
  | .number | .minus | .string | .leftParen | .word => true
  | .keyword .true_ | .keyword .false_ | .keyword .if_ | .keyword .not => true
  | .keyword .this | .keyword .var | .keyword .local_ => true
  | _ => false

/-- A token that a name begins with begins an expression, and is neither `not` nor `if`. -/
theorem Token.startsExpression_of_startsName (t : Token) (h : t.startsName = true) :
    t.startsExpression = true ∧ (∀ k : Nat, k < 8 → t ≠ .keyword .not) ∧
      ∀ k : Nat, k ≤ 10 → t ≠ .keyword .if_ := by
  refine ⟨?_, ?_, ?_⟩
  · cases t with
    | keyword k => cases k <;> first | rfl | cases h
    | word => rfl
    | _ => cases h
  · rintro _ _ rfl
    cases h
  · rintro _ _ rfl
    cases h

/-- The lexemes begin as an expression of this level does. -/
def Starts (k : Nat) (ts : List Symbol) : Prop :=
  ∃ t w us, ts = (t, w) :: us ∧ t.startsExpression = true ∧ (k < 8 → t ≠ .keyword .not) ∧
    (k ≤ 10 → t ≠ .keyword .if_)

theorem Starts.ne_nil {k : Nat} {ts : List Symbol} (h : Starts k ts) : ts ≠ [] := by
  obtain ⟨t, w, us, rfl, _⟩ := h
  simp

theorem Starts.mono {j k : Nat} {ts : List Symbol} (h : Starts j ts) (hjk : j ≤ k) :
    Starts k ts := by
  obtain ⟨t, w, us, rfl, ht, hnot, hif⟩ := h
  exact ⟨t, w, us, rfl, ht, fun hk => hnot (by omega), fun hk => hif (by omega)⟩

theorem Starts.append {k : Nat} {ts : List Symbol} (h : Starts k ts)
    (us : List Symbol) : Starts k (ts ++ us) := by
  obtain ⟨t, w, vs, rfl, hrest⟩ := h
  exact ⟨t, w, vs ++ us, rfl, hrest⟩

theorem Starts.headToken {k : Nat} {ts : List Symbol} (h : Starts k ts)
    (us : List Symbol) :
    ∃ t, FlightScript.headToken (ts ++ us) = some t ∧ t.startsExpression = true := by
  obtain ⟨t, w, vs, rfl, ht, _⟩ := h
  exact ⟨t, rfl, ht⟩

section Climbing

variable {ts : List Symbol} {P : Node → Prop} {j k : Nat}

/-- However a level reads, in the end it is a reading at that level. -/
theorem Climbs.readsAt (h : Climbs k ts P) (h2 : 2 ≤ k) (hk : k ≤ 10) : ReadsAt k ts P := by
  match k, h with
  | 2, h => exact h
  | 3, h => exact ReadsPower.readsAt h (.inl rfl)
  | 4, h => exact ReadsPower.readsAt h (.inr rfl)
  | 5, h => exact ReadsChain.readsAt (fun _ => rfl) h
  | 6, h => exact ReadsChain.readsAt (fun _ => rfl) h
  | 7, h => exact ReadsChain.readsAt (fun _ => rfl) h
  | 8, h => exact ReadsNot.readsAt h
  | 9, h => exact ReadsChain.readsAt (fun _ => rfl) h
  | 10, h => exact ReadsChain.readsAt (fun _ => rfl) h

/-- From one level to the next. Which lemma it takes depends on the level: powers, negations or chains. -/
theorem Climbs.succ (h : Climbs k ts P) (h2 : 2 ≤ k) (hk : k < 10) (hs : Starts k ts) :
    Climbs (k + 1) ts P := by
  have hat := h.readsAt h2 (by omega)
  match k, h, hat with
  | 2, _, hat => exact hat.power
  | 3, h, _ => exact h
  | 4, _, hat => exact hat.chain
  | 5, _, hat => exact hat.chain
  | 6, _, hat => exact hat.chain
  | 7, _, hat =>
      obtain ⟨t, w, us, rfl, _, hnot, _⟩ := hs
      exact hat.not (by simpa using hnot (by omega)) (by simp)
  | 8, _, hat => exact hat.chain
  | 9, _, hat => exact hat.chain

/-- What is read at a level is read at every weaker one. -/
theorem Climbs.climb (h : Climbs j ts P) (h2 : 2 ≤ j) (hs : Starts j ts) (hjk : j ≤ k) (hk : k ≤ 10) :
    Climbs k ts P := by
  induction k, hjk using Nat.le_induction with
  | base => exact h
  | succ k hjk ih => exact (ih (by omega)).succ (by omega) (by omega) (hs.mono hjk)

/-- What is read at the weakest level of operators is read as a whole expression. -/
theorem Climbs.whole (h : Climbs 10 ts P) (hs : Starts 10 ts) : ReadsWhole ts P := by
  intro n rest hends hn
  obtain ⟨n, rfl⟩ : ∃ m, n = m + 1 := ⟨n - 1, by omega⟩
  have hat : (headToken (ts ++ rest) == some (Token.keyword .if_)) = false := by
    obtain ⟨t, w, us, rfl, _, _, hif⟩ := hs
    simpa using hif (le_refl _)
  unfold expressionWithin
  refine Reads.isAt.bind ?_
  rintro _ rfl
  rw [hat]
  exact h.readsAt (by omega) (le_refl _) n rest hends (by omega)

/-- A whole expression in parentheses stands where a primary one stands. -/
theorem ReadsWhole.group {u v : String} (h : ReadsWhole ts P) :
    ReadsAt 2 ((.leftParen, u) :: ts ++ [(.rightParen, v)]) P := by
  intro n rest hends hn
  have hview : (Token.leftParen, u) :: ts ++ [(Token.rightParen, v)] ++ rest =
      (.leftParen, u) :: (ts ++ (.rightParen, v) :: rest) := by simp
  rw [hview] at hn ⊢
  show Reads (primary (expressionWithin n)) _ _ _
  unfold primary
  refine Reads.cursor.bind fun c hc => ?_
  rw [c.token?_eq, hc, headToken_cons]
  refine Reads.advance.bind fun _ _ => ?_
  have hclose : Ends 10 ((Token.rightParen, v) :: rest) := Ends.cons fun l hl => by cases hl
  refine (h n _ hclose (by simp at hn ⊢; omega)).bind ?_
  rintro _ ⟨e, rfl, he⟩
  refine Reads.expect.bind ?_
  rintro _ ⟨l, rfl, _⟩
  exact Reads.spanFrom.bind fun span _ => .pure ⟨_, rfl, he⟩

theorem ReadsWhole.expression (h : ReadsWhole ts P) {rest : List Symbol} (hends : Ends 10 rest) :
    Reads Parse.expression (ts ++ rest) rest (SomeTree P) := by
  unfold Parse.expression
  refine Reads.remaining.bind ?_
  rintro _ rfl
  exact h _ rest hends (Nat.lt_succ_self _)

/-- An expression after a lexeme that has to stand before it. -/
theorem Reads.expressionAfter {expr : ExpressionParse} {t : Token} {w expected : String}
    {us rest : List Symbol} (h : Reads expr us rest (SomeTree P)) :
    Reads (Parse.expressionAfter expr t expected) ((t, w) :: us) rest fun e => P e.node := by
  unfold Parse.expressionAfter
  refine Reads.expect.bind ?_
  rintro _ ⟨l, rfl, _⟩
  refine h.bind ?_
  rintro _ ⟨e, rfl, he⟩
  exact .pure he

/-- A conditional expression, from its keyword on. -/
theorem Reads.conditional {cs us vs rest : List Symbol} {C T E : Node → Prop} {n : Nat}
    (hc : ReadsWhole cs C) (ht : ReadsWhole us T) (he : ReadsWhole vs E)
    (hP : ∀ c t e span, C c → T t → E e → P (.conditional c t e span)) (hends : Ends 10 rest)
    (hn : (Spelled.key .if_ :: cs ++ Spelled.key .then_ :: us ++ Spelled.key .else_ :: vs ++ rest).length ≤ n) :
    Reads (Parse.conditional (expressionWithin n))
      (Spelled.key .if_ :: cs ++ Spelled.key .then_ :: us ++ Spelled.key .else_ :: vs ++ rest) rest (SomeTree P) := by
  have hview : Spelled.key .if_ :: cs ++ Spelled.key .then_ :: us ++ Spelled.key .else_ :: vs ++ rest =
      Spelled.key .if_ :: (cs ++ Spelled.key .then_ :: (us ++ Spelled.key .else_ :: (vs ++ rest))) := by
    simp
  rw [hview] at hn ⊢
  simp only [List.length_cons, List.length_append] at hn
  have hkey : ∀ (k : Keyword) (l : List Symbol), (Token.keyword k).level? = none →
      Ends 10 (Spelled.key k :: l) := by
    intro k l hk
    refine Ends.cons fun l' hl => ?_
    rw [hk] at hl
    cases hl
  unfold Parse.conditional
  refine Reads.start.bind fun first _ => Reads.advance.bind fun _ _ => ?_
  refine (hc n _ (hkey .then_ _ rfl) (by simp; omega)).bind ?_
  rintro _ ⟨c, rfl, hc⟩
  refine (Reads.expressionAfter (ht n _ (hkey .else_ _ rfl) (by simp; omega))).bind fun t ht => ?_
  refine (Reads.expressionAfter (he n rest hends (by simp; omega))).bind fun e he => ?_
  exact Reads.spanFrom.bind fun span _ => .pure ⟨_, rfl, hP _ _ _ _ hc ht he⟩

/-- A conditional expression is read as a whole expression. -/
theorem ReadsWhole.conditional {cs us vs : List Symbol} {C T E : Node → Prop}
    (hc : ReadsWhole cs C) (ht : ReadsWhole us T) (he : ReadsWhole vs E)
    (hP : ∀ c t e span, C c → T t → E e → P (.conditional c t e span)) :
    ReadsWhole (Spelled.key .if_ :: cs ++ Spelled.key .then_ :: us ++ Spelled.key .else_ :: vs) P := by
  intro n rest hends hn
  obtain ⟨n, rfl⟩ : ∃ m, n = m + 1 := ⟨n - 1, by omega⟩
  unfold expressionWithin
  refine Reads.isAt.bind ?_
  rintro _ rfl
  exact .conditional hc ht he hP hends (by omega)

end Climbing

/-! ## Primary expressions

What stands beside no operator: constants, names, calls, and anything in parentheses. -/

section Primary

variable {s : Scope} {rest : List Symbol}

/-- A constant of one lexeme is read as the constant of its text. -/
theorem Reads.constant {value : String → Surface.Literal} {t : Token} {w : String} :
    Reads (Parse.constant value) ((t, w) :: rest) rest
      (SomeTree fun n => ∃ span, n = .constant (value w).constant span) := by
  unfold Parse.constant
  refine Reads.start.bind fun first _ => Reads.lexeme?.bind ?_
  rintro _ ⟨l, rfl, _, hl⟩
  refine Reads.spanFrom.bind fun span _ => .pure ⟨_, rfl, some span, ?_⟩
  rw [hl]
  rfl

/-- The constants that a token of their own stands for. -/
def constantToken : Token → Option (String → Surface.Literal)
  | .number => some fun digits => .number false digits
  | .string => some fun text => .string text
  | .keyword .true_ => some fun _ => .bool true
  | .keyword .false_ => some fun _ => .bool false
  | _ => none

/-- The tokens of constants begin an expression, and none of them is a word that begins something else. -/
theorem constantToken_starts {t : Token} {value : String → Surface.Literal} (h : constantToken t = some value) :
    t.startsExpression = true ∧ t ≠ .keyword .not ∧ t ≠ .keyword .if_ ∧ t ≠ .leftParen := by
  cases t with
  | number | string => simp [Token.startsExpression]
  | keyword k =>
      cases k with
      | true_ | false_ => simp [Token.startsExpression]
      | _ => cases h
  | _ => cases h

/-- A constant of one lexeme is a primary expression. -/
theorem Reads.primary_constant {expr : ExpressionParse} {t : Token} {w : String} {value : String → Surface.Literal}
    (h : constantToken t = some value) :
    Reads (primary expr) ((t, w) :: rest) rest
      (SomeTree fun n => ∃ span, n = .constant (value w).constant span) := by
  unfold primary
  refine Reads.cursor.bind fun c hc => ?_
  rw [c.token?_eq, hc, headToken_cons]
  cases t with
  | number | string =>
      cases h
      exact .constant
  | keyword k =>
      cases k with
      | true_ | false_ =>
          cases h
          exact .constant
      | _ => cases h
  | _ => cases h

/-- A negative number is one too, though it has two lexemes. -/
theorem Reads.primary_negative {expr : ExpressionParse} {sign w : String} :
    Reads (primary expr) ((.minus, sign) :: (.number, w) :: rest) rest
      (SomeTree fun n => ∃ span, n = .constant (Surface.Literal.number true w).constant span) := by
  unfold primary
  refine Reads.cursor.bind fun c hc => ?_
  rw [c.token?_eq, c.second?_eq, hc]
  refine Reads.advance.bind fun _ _ => Reads.lexeme?.bind ?_
  rintro _ ⟨l, rfl, _, hl⟩
  refine Reads.spanFrom.bind fun span _ => .pure ⟨_, rfl, some span, ?_⟩
  rw [hl]
  rfl

/-- The text of a constant begins as an operand does and is read as the constant. -/
def Constant.Expressed (c : Constant) : Prop :=
  ∃ t w us, (∀ depth, Spelled depth (Render.constant c) ((t, w) :: us)) ∧
    (t.startsExpression = true ∧ t ≠ .keyword .not ∧ t ≠ .keyword .if_ ∧ t ≠ .leftParen) ∧
    ReadsAt 2 ((t, w) :: us) fun n => ∃ span, n = .constant c span

theorem Constant.expressed_single {t : Token} {w : String} {value : String → Surface.Literal} {c : Constant}
    (ht : constantToken t = some value) (hc : (value w).constant = c)
    (hspelled : ∀ depth, Spelled depth (Render.constant c) [(t, w)]) : c.Expressed := by
  subst hc
  exact ⟨t, w, [], hspelled, constantToken_starts ht, fun _ _ _ _ => .primary_constant ht⟩

/-- A constant is read back from its text. -/
theorem Constant.Legible.expressed {c : Constant} (h : c.Legible) : c.Expressed := by
  obtain ⟨kind, value⟩ := c
  cases kind with
  | vector => exact h.elim
  | string =>
      refine Constant.expressed_single (t := .string) rfl ?_ fun _ => .quoted value
      simp [Surface.Literal.constant, Constant.string]
  | bool =>
      obtain rfl | rfl := h
      · exact Constant.expressed_single (t := .keyword .true_) rfl rfl fun _ => .keyword .true_
      · exact Constant.expressed_single (t := .keyword .false_) rfl rfl fun _ => .keyword .false_
  | number =>
      rcases h with h | ⟨cs, hcs, h⟩
      · exact Constant.expressed_single (t := .number) rfl rfl fun _ => .numeral h
      · refine ⟨_, _, _, fun _ => .negative hcs h, by simp [Token.startsExpression], fun n rest _ _ => ?_⟩
        have hval : (Surface.Literal.number true (String.ofList cs)).constant = ⟨.number, value⟩ := by
          have htext : "-" ++ String.ofList cs = value := by
            rw [← String.toList_inj, hcs]
            simp
          rw [← htext]
          rfl
        rw [← hval]
        exact .primary_negative

/-! ## Names and calls

A name is read up to what is no dot, and is a call if a parenthesis follows. -/

/-- The lexemes of items are each read as a whole expression, whose tree is related to what was written. -/
def ReadsAll {α : Type} (R : Node → α → Prop) (tss : List (List Symbol)) (as : List α) : Prop :=
  List.Forall₂ (fun ts a => ReadsWhole ts (R · a) ∧ Starts 11 ts) tss as

section Items

variable {α : Type} {R : Node → α → Prop} {tss : List (List Symbol)} {as : List α}

/-- Expressions with commas between them, up to a closing parenthesis. -/
theorem Reads.callItems (h : ReadsAll R tss as) (hne : tss ≠ []) {w : String} {n m : Nat}
    (hn : (Spelled.commas tss ++ (.rightParen, w) :: rest).length < n)
    (hm : (Spelled.commas tss ++ (.rightParen, w) :: rest).length < m) :
    Reads (Parse.callItems (expressionWithin n) m) (Spelled.commas tss ++ (.rightParen, w) :: rest)
      ((.rightParen, w) :: rest) fun es => List.Forall₂ R (es.map (·.node)) as := by
  induction h generalizing m with
  | nil => exact absurd rfl hne
  | @cons ts a tss as ha hs ih =>
      obtain ⟨m, rfl⟩ : ∃ k, m = k + 1 := ⟨m - 1, by omega⟩
      unfold Parse.callItems
      cases hs with
      | nil =>
          refine (ha.1 n _ (Ends.cons fun l hl => by cases hl) hn).bind ?_
          rintro _ ⟨e, rfl, he⟩
          refine (Reads.eat_none (by simp)).bind ?_
          rintro _ rfl
          exact .pure (by simpa using he)
      | @cons us b tss as hb hs =>
          have hview : Spelled.commas (ts :: us :: tss) ++ (Token.rightParen, w) :: rest =
              ts ++ (.comma, ",") :: (Spelled.commas (us :: tss) ++ (.rightParen, w) :: rest) := by
            simp [Spelled.commas]
          rw [hview] at hn hm ⊢
          simp only [List.length_append, List.length_cons] at hn hm
          refine (ha.1 n _ (Ends.cons fun l hl => by cases hl) (by simp; omega)).bind ?_
          rintro _ ⟨e, rfl, he⟩
          refine Reads.eat.bind ?_
          rintro _ ⟨l, rfl, _⟩
          refine (ih (by simp) (by simp; omega) (by simp; omega)).bind fun es hes => ?_
          exact .pure (.cons he hes)

/-- The same for items that must all be read. -/
theorem Reads.listItems (h : ReadsAll R tss as) (hne : tss ≠ []) {w : String} {m : Nat}
    (hm : (Spelled.commas tss ++ (.rightParen, w) :: rest).length < m) :
    Reads (Parse.listItems m) (Spelled.commas tss ++ (.rightParen, w) :: rest)
      ((.rightParen, w) :: rest) fun o => ∃ es, o = some es ∧ List.Forall₂ R (es.map (·.node)) as := by
  induction h generalizing m with
  | nil => exact absurd rfl hne
  | @cons ts a tss as ha hs ih =>
      obtain ⟨m, rfl⟩ : ∃ k, m = k + 1 := ⟨m - 1, by omega⟩
      unfold Parse.listItems
      cases hs with
      | nil =>
          refine (ha.1.expression (Ends.cons fun l hl => by cases hl)).bind ?_
          rintro _ ⟨e, rfl, he⟩
          refine (Reads.eat_none (by simp)).bind ?_
          rintro _ rfl
          exact .pure ⟨[e], rfl, .cons he .nil⟩
      | @cons us b tss as hb hs =>
          have hview : Spelled.commas (ts :: us :: tss) ++ (Token.rightParen, w) :: rest =
              ts ++ (.comma, ",") :: (Spelled.commas (us :: tss) ++ (.rightParen, w) :: rest) := by
            simp [Spelled.commas]
          rw [hview] at hm ⊢
          simp only [List.length_append, List.length_cons] at hm
          refine (ha.1.expression (Ends.cons fun l hl => by cases hl)).bind ?_
          rintro _ ⟨e, rfl, he⟩
          refine Reads.eat.bind ?_
          rintro _ ⟨l, rfl, _⟩
          refine (ih (by simp) (by simp; omega)).bind ?_
          rintro _ ⟨es, rfl, hes⟩
          exact .pure ⟨e :: es, rfl, .cons he hes⟩

theorem ReadsAll.starts (h : ReadsAll R tss as) (hne : tss ≠ []) : Starts 11 (Spelled.commas tss) := by
  cases h with
  | nil => exact absurd rfl hne
  | cons ha hs =>
      cases hs with
      | nil => exact ha.2
      | cons _ _ => exact ha.2.append _

theorem Starts.ne {k : Nat} {ts : List Symbol} (h : Starts k ts) {t : Token}
    (ht : t.startsExpression = false) (us : List Symbol) : FlightScript.headToken (ts ++ us) ≠ some t := by
  obtain ⟨t', hhead, hstart⟩ := h.headToken us
  rw [hhead]
  rintro ⟨⟩
  rw [ht] at hstart
  exact absurd hstart (by decide)

theorem arguments_append (hne : tss ≠ []) : Spelled.arguments tss ++ rest =
    (.leftParen, "(") :: (Spelled.commas tss ++ (.rightParen, ")") :: rest) := by
  have hempty : tss.isEmpty = false := by simpa using hne
  simp [Spelled.arguments, hempty]

/-- The arguments of a call are read back in their parentheses. -/
theorem Reads.callArguments (h : ReadsAll R tss as) (hne : tss ≠ []) {n : Nat}
    (hn : (Spelled.arguments tss ++ rest).length ≤ n) :
    Reads (Parse.callArguments (expressionWithin n)) (Spelled.arguments tss ++ rest) rest
      fun es => List.Forall₂ R (es.map (·.node)) as := by
  rw [arguments_append hne] at hn ⊢
  unfold Parse.callArguments
  refine Reads.advance.bind fun _ _ => ?_
  refine (Reads.eat_none ((h.starts hne).ne rfl _)).bind ?_
  rintro _ rfl
  refine Reads.remaining.bind ?_
  rintro _ rfl
  refine (Reads.callItems h hne (by simp at hn ⊢; omega) (Nat.lt_succ_self _)).bind fun es hes => ?_
  refine Reads.expect.bind ?_
  rintro _ ⟨l, rfl, _⟩
  exact .pure hes

/-- The arguments of an instruction are read back in their parentheses, where all of them have to be read. -/
theorem Reads.argumentList (h : ReadsAll R tss as) (hne : tss ≠ []) :
    Reads Parse.argumentList (Spelled.arguments tss ++ rest) rest
      fun o => ∃ es, o = some es ∧ List.Forall₂ R (es.map (·.node)) as := by
  rw [arguments_append hne]
  unfold Parse.argumentList
  refine Reads.expect.bind ?_
  rintro _ ⟨l, rfl, _⟩
  refine (Reads.eat_none ((h.starts hne).ne rfl _)).bind ?_
  rintro _ rfl
  refine Reads.remaining.bind ?_
  rintro _ rfl
  refine (Reads.listItems h hne (Nat.lt_succ_self _)).bind ?_
  rintro _ ⟨es, rfl, hes⟩
  refine Reads.expect.bind ?_
  rintro _ ⟨l', rfl, _⟩
  exact .pure ⟨es, rfl, hes⟩

end Items

/-- A primary expression that begins with a name. -/
theorem Reads.primary_named {expr : ExpressionParse} {t : Token} {w : String} {us vs : List Symbol}
    {Q : Option Surface.Expression → Prop} (ht : t.startsName = true)
    (h : Reads (nameOrCall expr) ((t, w) :: us) vs Q) : Reads (primary expr) ((t, w) :: us) vs Q := by
  unfold primary
  refine Reads.cursor.bind fun c hc => ?_
  rw [c.token?_eq, hc, headToken_cons]
  cases t with
  | word => exact h
  | keyword k => cases k <;> first | exact h | cases ht
  | _ => cases ht

/-- A use of a name with the arguments that stand behind it. -/
theorem WritesReference.readsAt {text : String} {u : Use IdentifierKind} {as : List Node}
    (h : WritesReference text (s.Refers u as.length)) (hu : u.kind ≠ .unknown)
    {tss : List (List Symbol)} (has : ReadsAll (Node.Same s) tss as) :
    ∃ t w us, (∀ depth, Spelled depth text ((t, w) :: us)) ∧ t.startsName = true ∧
      ReadsAt 2 ((t, w) :: us ++ Spelled.arguments tss) (Node.Same s · (.identifier u as)) := by
  obtain ⟨t, w, us, hspelled, hstart, hreads⟩ := h
  refine ⟨t, w, us, hspelled, hstart, fun n rest hends hn => ?_⟩
  refine .primary_named hstart ?_
  show Reads _ ((t, w) :: us ++ Spelled.arguments tss ++ rest) _ _
  rw [List.append_assoc]
  unfold nameOrCall
  refine Reads.start.bind fun first _ => ?_
  -- only a parenthesis right behind the name makes it a call
  cases has with
  | nil =>
      refine (hreads rest (hends.ne rfl (by omega))).bind ?_
      rintro _ ⟨r, rfl, hr⟩
      refine Reads.isAt.bind ?_
      rintro _ rfl
      rw [if_neg (by simpa using hends.ne (t := .leftParen) rfl (by omega))]
      refine Reads.spanFrom.bind fun span _ => .pure ⟨_, rfl, ?_⟩
      exact .identifier hu (hr span) .nil
  | @cons ts a tss as ha hs =>
      have hcall : headToken (Spelled.arguments (ts :: tss) ++ rest) = some .leftParen := by
        simp [Spelled.arguments]
      refine (hreads _ (by rw [hcall]; decide)).bind ?_
      rintro _ ⟨r, rfl, hr⟩
      refine Reads.isAt.bind ?_
      rintro _ rfl
      rw [if_pos (by simp [hcall])]
      refine (Reads.callArguments (.cons ha hs) (by simp) (by simp at hn ⊢; omega)).bind fun es hes => ?_
      refine Reads.spanFrom.bind fun span _ => .pure ⟨_, rfl, ?_⟩
      simp only [Surface.Expression.node, Surface.Expression.nodes_eq_map]
      refine .identifier hu ?_ hes
      rw [hes.length_eq]
      exact hr span

end Primary

/-! ## Written expressions

The ceilings of the writer are the levels of the reader. Where an expression is looser than its ceiling there are
parentheses, and inside of these any level may stand. -/

/-- The lexemes of an expression that is written under a ceiling, with all that the rest of the development needs
to know of them. -/
structure Expressed (s : Scope) (ceiling : Nat) (e : Node) (ts : List Symbol) : Prop where
  spelled : ∀ depth, Spelled depth (e.render s 0 ceiling) ts
  starts : Starts ceiling ts
  level : ceiling ≤ 10 → Climbs ceiling ts (Node.Same s · e)
  whole : ReadsWhole ts (Node.Same s · e)
  /-- A parenthesis at the front closes before the end, unless all of it had to be put in parentheses. -/
  opens : headToken ts = some .leftParen → ∃ is us, ts = Spelled.arguments [is] ++ us ∧
    ReadsWhole is (fun _ => True) ∧ Starts 11 is ∧ (us = [] → ceiling ≤ 10) ∧
    ∀ t, headToken us = some t → t.level?.isSome = true

theorem ReadsWhole.mono {ts : List Symbol} {P P' : Node → Prop} (h : ReadsWhole ts P)
    (hP : ∀ n, P n → P' n) : ReadsWhole ts P' := by
  intro n rest hends hn
  refine (h n rest hends hn).mono ?_
  rintro _ ⟨e, rfl, he⟩
  exact ⟨e, rfl, hP _ he⟩

section Ceilings

variable {s : Scope} {e : Node} {ceiling p : Nat} {text : String} {ts : List Symbol}

/-- An expression in parentheses, under any ceiling. -/
theorem Expressed.parenthesized (h2 : 2 ≤ ceiling) (h10 : ceiling ≤ 10)
    (hrender : e.render s 0 ceiling = "(" ++ text ++ ")") (hspelled : ∀ depth, Spelled depth text ts)
    (hstart : Starts 11 ts) (hwhole : ReadsWhole ts (Node.Same s · e)) :
    Expressed s ceiling e ((.leftParen, "(") :: ts ++ [(.rightParen, ")")]) := by
  have hstarts : ∀ k, Starts k ((Token.leftParen, "(") :: ts ++ [(.rightParen, ")")]) :=
    fun k => ⟨_, _, _, rfl, rfl, fun _ => by simp, fun _ => by simp⟩
  have hclimbs : ∀ k, 2 ≤ k → k ≤ 10 →
      Climbs k ((Token.leftParen, "(") :: ts ++ [(.rightParen, ")")]) (Node.Same s · e) :=
    fun k hk hk' => Climbs.climb (j := 2) hwhole.group (le_refl 2) (hstarts 2) hk hk'
  refine ⟨?_, hstarts _, fun _ => hclimbs ceiling h2 h10, (hclimbs 10 (by omega) (le_refl _)).whole (hstarts 10), ?_⟩
  · intro depth
    rw [hrender]
    exact (hspelled (depth + 1)).grouped
  · intro _
    exact ⟨ts, [], by simp [Spelled.arguments, Spelled.commas], hwhole.mono fun _ _ => trivial, hstart,
      fun _ => h10, by simp⟩

/-- An expression that is read at its own level, written under any ceiling. -/
theorem Expressed.ofLevel (text : String) (h2 : 2 ≤ ceiling) (hp2 : 2 ≤ p) (hp : p ≤ 10)
    (hrender : e.render s 0 ceiling = Render.grouped (decide (ceiling < p)) text)
    (hspelled : ∀ depth, Spelled depth text ts) (hstarts : Starts p ts)
    (hclimbs : Climbs p ts (Node.Same s · e))
    (hopens : headToken ts = some .leftParen → ∃ is us, ts = Spelled.arguments [is] ++ us ∧
      ReadsWhole is (fun _ => True) ∧ Starts 11 is ∧ us ≠ [] ∧
        ∀ t, headToken us = some t → t.level?.isSome = true) :
    ∃ ts, Expressed s ceiling e ts := by
  have hwhole := (hclimbs.climb hp2 hstarts hp (le_refl 10)).whole (hstarts.mono hp)
  by_cases hc : ceiling < p
  · rw [decide_eq_true hc] at hrender
    exact ⟨_, .parenthesized h2 (by omega) hrender hspelled (hstarts.mono (by omega)) hwhole⟩
  · rw [decide_eq_false hc] at hrender
    refine ⟨ts, fun depth => hrender ▸ hspelled depth, hstarts.mono (by omega),
      fun h10 => hclimbs.climb hp2 hstarts (by omega) h10, hwhole, fun hhead => ?_⟩
    obtain ⟨is, us, hts, his, hstart, hus, hop⟩ := hopens hhead
    exact ⟨is, us, hts, his, hstart, fun h => absurd h hus, hop⟩

end Ceilings

/-- A list whose members are all related to something is related to a list. -/
theorem exists_forall₂ {α β : Type} {R : α → β → Prop} {l : List α} (h : ∀ a ∈ l, ∃ b, R a b) :
    ∃ bs, List.Forall₂ R l bs := by
  induction l with
  | nil => exact ⟨[], .nil⟩
  | cons a l ih =>
      obtain ⟨b, hb⟩ := h a List.mem_cons_self
      obtain ⟨bs, hbs⟩ := ih fun x hx => h x (List.mem_cons_of_mem _ hx)
      exact ⟨b :: bs, .cons hb hbs⟩

theorem Node.items_eq_map (s : Scope) (ns : List Node) :
    Node.items s ns = ns.map (Node.render s 0 looseCeiling) := by
  induction ns with
  | nil => rfl
  | cons n ns ih => rw [Node.items, ih, List.map_cons]

/-- The lexemes of arguments, each written without a ceiling. -/
theorem Expressed.readsAll {s : Scope} {as : List Node} {tss : List (List Symbol)}
    (h : List.Forall₂ (Expressed s looseCeiling) as tss) : ReadsAll (Node.Same s) tss as := by
  induction h with
  | nil => exact .nil
  | cons h _ ih =>
      obtain ⟨t, w, us, rfl, ht, _, _⟩ := h.starts
      exact .cons ⟨h.whole, t, w, us, rfl, ht, fun h => absurd h (by omega), fun h => absurd h (by omega)⟩ ih

theorem Expressed.spelled_all {s : Scope} {as : List Node} {tss : List (List Symbol)}
    (h : List.Forall₂ (Expressed s looseCeiling) as tss) (depth : Nat) :
    List.Forall₂ (Spelled depth) (Node.items s as) tss := by
  rw [Node.items_eq_map]
  induction h with
  | nil => exact .nil
  | cons h _ ih => exact .cons (h.spelled depth) ih

namespace Operator

theorem ofSymbol?_symbol (o : Operator) : ofSymbol? o.symbol = some o := by cases o <;> decide

theorem precedence?_symbol (o : Operator) : precedence? o.symbol = some o.precedence := by cases o <;> decide

theorem displaySymbol_symbol (o : Operator) : displaySymbol o.symbol = o.spelling := by
  rw [displaySymbol, ofSymbol?_symbol]

theorem operandCeilings_power : Node.operandCeilings Operator.power.symbol 3 = (2, 3) := by decide

theorem operandCeilings_left {o : Operator} (h : o ≠ .power) :
    Node.operandCeilings o.symbol o.precedence = (o.precedence, o.precedence - 1) := by
  cases o <;> first | decide | exact absurd rfl h

end Operator

namespace Grammar

variable {s : Scope} {e : Node}

/-- An operator gives its operands ceilings under which the reader puts the expression together again. A power has a
bare power on its right; the other operators have their own stratum on the left. -/
theorem exists_operandCeilings (o : Operator) (lhs rhs : Node) (loc : Option Span) :
    ∃ l r, Node.operandCeilings o.symbol o.precedence = (l, r) ∧ 2 ≤ l ∧ l ≤ o.precedence ∧ 2 ≤ r ∧
      ∀ ts us, Expressed s l lhs ts → Expressed s r rhs us →
        Climbs o.precedence (ts ++ (o.token, o.spelling) :: us) (Node.Same s · (.binary o.symbol lhs rhs loc)) := by
  have hp : 3 ≤ o.precedence ∧ o.precedence ≤ 10 := by cases o <;> decide
  by_cases ho : o = .power
  · subst ho
    refine ⟨2, 3, Operator.operandCeilings_power, by decide, by decide, by decide, ?_⟩
    intro ts us ht hu
    exact ReadsPower.binary (ht.level (by decide)) (hu.level (by decide)) fun _ _ _ hl hr => hl.binary hr
  · have hr4 : 4 ≤ o.precedence - 1 := by cases o <;> first | decide | exact absurd rfl ho
    refine ⟨_, _, Operator.operandCeilings_left ho, by omega, le_refl _, by omega, ?_⟩
    intro ts us ht hu
    have hchain : ∀ {ts P}, Climbs o.precedence ts P = ReadsChain o.precedence ts P := by
      intro ts P
      cases o <;> first | rfl | exact absurd rfl ho
    have hlhs := ht.level hp.2
    rw [hchain] at hlhs ⊢
    refine hlhs.binary (levelTable_token ho) (by omega) ((hu.level (by omega)).readsAt (by omega) (by omega)) ?_
    exact fun _ _ _ hl hr => hl.binary hr

/-- A binary expression from its operands, which have the ceilings that its operator gives them. -/
theorem expressed_binary {o : Operator} {lhs rhs : Node} {loc : Option Span} {ceiling : Nat}
    (h2 : 2 ≤ ceiling) (hl : ∀ k, 2 ≤ k → ∃ ts, Expressed s k lhs ts)
    (hr : ∀ k, 2 ≤ k → ∃ ts, Expressed s k rhs ts) :
    ∃ ts, Expressed s ceiling (.binary o.symbol lhs rhs loc) ts := by
  have hp : 3 ≤ o.precedence ∧ o.precedence ≤ 10 := by cases o <;> decide
  obtain ⟨l, r, hceil, hl2, hlp, hr2, hclimbs⟩ := exists_operandCeilings o lhs rhs loc
  obtain ⟨ts, hts⟩ := hl l hl2
  obtain ⟨us, hus⟩ := hr r hr2
  refine Expressed.ofLevel (lhs.render s 0 l ++ " " ++ o.spelling ++ " " ++ rhs.render s 0 r) h2
    (by omega) hp.2 ?_ ?_ ?_ (hclimbs ts us hts hus) ?_
  · simp only [Node.render, Operator.precedence?_symbol, Option.getD_some, hceil,
      Operator.displaySymbol_symbol]
  · intro depth
    have hspelled := ((hts.spelled depth).spaced (.operator o)).spaced (hus.spelled depth)
    simpa using hspelled
  · exact (hts.starts.mono hlp).append _
  · -- a parenthesis at the front is that of the left operand
    intro hhead
    have hne := hts.starts.ne_nil
    obtain ⟨u, ts', rfl⟩ := List.exists_cons_of_ne_nil hne
    obtain ⟨is, vs, hview, his, hstart, -, hop⟩ := hts.opens hhead
    refine ⟨is, vs ++ (o.token, o.spelling) :: us, ?_, his, hstart, by simp, ?_⟩
    · rw [hview]
      simp
    · cases vs with
      | nil =>
          intro t ht
          cases ht
          cases o <;> rfl
      | cons v vs => exact hop

/-- A name with its arguments, which stand where anything may stand. -/
theorem expressed_identifier {use : Use IdentifierKind} {args : List Node} {ceiling : Nat} (h2 : 2 ≤ ceiling)
    (hu : s.SettlesIdentifier use args.length) (ha : ∀ a ∈ args, ∃ ts, Expressed s looseCeiling a ts) :
    ∃ ts, Expressed s ceiling (.identifier use args) ts := by
  obtain ⟨tss, htss⟩ := exists_forall₂ ha
  obtain ⟨t, w, us, hspelled, hname, hreads⟩ :=
    (Scope.SettlesIdentifier.writes hu).readsAt (Scope.SettlesIdentifier.known hu) (Expressed.readsAll htss)
  obtain ⟨hstart, hnot, hif⟩ := t.startsExpression_of_startsName hname
  refine Expressed.ofLevel (s.identifierText use args.length ++ Render.parenthesized (Node.items s args)) h2 (le_refl 2)
    (by decide) ?_ ?_ ⟨t, w, _, rfl, hstart, hnot 2, hif 2⟩ hreads ?_
  · rw [Node.render, decide_eq_false (by omega)]
    rfl
  · intro depth
    exact (hspelled depth).append (.parenthesized (Expressed.spelled_all htss _)) (Spelled.stops_parenthesized _)
  · intro hhead
    cases hhead
    exact absurd hname (by decide)

/-- A conditional expression is in parentheses wherever an operator may stand beside it. -/
theorem expressed_conditional {c t e : Node} {loc : Option Span} {ceiling : Nat} {cs us vs : List Symbol}
    (h2 : 2 ≤ ceiling) (hc : Expressed s 11 c cs) (ht : Expressed s 10 t us) (he : Expressed s 11 e vs) :
    ∃ ts, Expressed s ceiling (.conditional c t e loc) ts := by
  have hwhole : ReadsWhole (Spelled.key .if_ :: cs ++ Spelled.key .then_ :: us ++ Spelled.key .else_ :: vs)
      (Node.Same s · (.conditional c t e loc)) :=
    ReadsWhole.conditional hc.whole ht.whole he.whole fun _ _ _ _ hc ht he => hc.conditional ht he
  have hspelled : ∀ depth, Spelled depth ("if " ++ c.render s 0 11 ++ " then " ++ t.render s 0 10 ++
      " else " ++ e.render s 0 11)
      (Spelled.key .if_ :: cs ++ Spelled.key .then_ :: us ++ Spelled.key .else_ :: vs) := by
    intro depth
    have htext : "if " ++ c.render s 0 11 ++ " then " ++ t.render s 0 10 ++ " else " ++ e.render s 0 11 =
        "if " ++ (c.render s 0 11 ++ " " ++ ("then " ++ (t.render s 0 10 ++ " " ++
          ("else " ++ e.render s 0 11)))) := by
      rw [← String.toList_inj]
      simp
    have hparts : Spelled depth ("if " ++ (c.render s 0 11 ++ " " ++ ("then " ++ (t.render s 0 10 ++ " " ++
        ("else " ++ e.render s 0 11))))) _ :=
      .lead .if_ rfl ((hc.spelled depth).spaced (.lead .then_ rfl ((ht.spelled depth).spaced
        (.lead .else_ rfl (he.spelled depth)))))
    rw [htext]
    simpa using hparts
  -- without parentheses a conditional would take in what follows its last part
  by_cases hceil : ceiling < 11
  · refine ⟨_, .parenthesized h2 (by omega) ?_ hspelled ?_ hwhole⟩
    · simp [Node.render, conditionalPrecedence, Render.grouped, hceil]
    · exact ⟨_, _, _, rfl, rfl, fun h => by omega, fun h => by omega⟩
  · refine ⟨_, fun depth => ?_, ⟨_, _, _, rfl, rfl, fun h => by omega, fun h => by omega⟩,
      fun h => by omega, hwhole, fun hhead => by cases hhead⟩
    have hrender : (Node.conditional c t e loc).render s 0 ceiling = "if " ++ c.render s 0 11 ++ " then " ++
        t.render s 0 10 ++ " else " ++ e.render s 0 11 := by
      simp [Node.render, conditionalPrecedence, Render.grouped, hceil]
    rw [hrender]
    exact hspelled depth

/-- **A settled expression is read back from its text, under every ceiling.** By induction on the expression: an
operand is printed under the ceiling of its side, so parentheses stand around it exactly where reading would group it
otherwise. -/
theorem Expression.expressed (h : Grammar.settled.Expression s e) :
    ∀ ceiling, 2 ≤ ceiling → ∃ ts, Expressed s ceiling e ts := by
  induction h with
  | identifier hu _ ih =>
      exact fun ceiling h2 => expressed_identifier h2 hu fun a ha => ih a ha looseCeiling (by decide)
  | @constant value loc hc =>
      intro ceiling h2
      obtain ⟨t, w, us, hspelled, ⟨hstart, hnot, hif, hparen⟩, hreads⟩ := Constant.Legible.expressed hc
      refine Expressed.ofLevel (Render.constant value) h2 (le_refl 2) (by decide) ?_ hspelled
        ⟨t, w, us, rfl, hstart, fun _ => hnot, fun _ => hif⟩ ?_ ?_
      · rw [Node.render, decide_eq_false (by omega)]
        rfl
      · intro n rest hends hn
        refine (hreads n rest hends hn).mono ?_
        rintro _ ⟨e, rfl, span, he⟩
        exact ⟨e, rfl, he ▸ .constant⟩
      · intro hhead
        exact absurd (Option.some.inj hhead) hparen
  | binary op _ _ ihl ihr => exact fun ceiling h2 => expressed_binary h2 ihl ihr
  | @negation operand loc _ ih =>
      intro ceiling h2
      obtain ⟨ts, hts⟩ := ih 8 (by decide)
      refine Expressed.ofLevel ("not" ++ " " ++ operand.render s 0 8) h2 (p := 8) (by decide) (by decide) rfl
        (fun depth => .lead .not rfl (hts.spelled depth)) ?_ ?_ ?_
      · exact ⟨_, _, _, rfl, rfl, fun h => absurd h (by decide), fun _ => by simp⟩
      · exact ReadsNot.negation (hts.level (by decide)) fun _ _ h => h.unary
      · intro hhead
        cases hhead
  | conditional _ _ _ ihc iht ihe =>
      intro ceiling h2
      obtain ⟨cs, hc⟩ := ihc 11 (by decide)
      obtain ⟨us, ht⟩ := iht 10 (by decide)
      obtain ⟨vs, he⟩ := ihe 11 (by decide)
      exact expressed_conditional h2 hc ht he

end Grammar

end FlightScript
