import FlightScript.Proofs.Derivation

/-!
# `Proofs.Consumption` — expressions that are read are derived

A reading that posts no problem leaves a tail of the lexemes before it; what it takes is a derivation of the tree it
gives. `Consumes` relates the value of a reading to the lexemes taken, and its rule for sequences puts the lexemes of
one reading before those of the next. The lexemes are those of a text, where a mark or a keyword has one spelling.

## Contents

* `Canonical`: the spelling of a lexeme fits its token; `Lexing.canonical_ofText`;
* `Consumes` and the elementary readings;
* names, then the strata of expressions from primary ones to whole ones: `consumes_expression`.
-/

namespace FlightScript

/-! ## Spellings

A reading looks at tokens only, and a derivation asks for the spelling as well. For lexemes that come from a text
the one decides the other, except for words, strings, numbers and comments, where any spelling of the class is
right. -/

/-- The text that every lexeme of a class has, if it is the same for all. -/
def Token.text? : Token → Option String
  | keyword k => some k.text
  | word | number | string | comment => none
  | newline => some "\n"
  | hash => some "#"
  | leftParen => some "("
  | rightParen => some ")"
  | leftBrace => some "\x7b"
  | rightBrace => some "\x7d"
  | comma => some ","
  | dot => some "."
  | colon => some ":"
  | assign => some "="
  | plusAssign => some "+="
  | plus => some "+"
  | minus => some "-"
  | star => some "*"
  | slash => some "/"
  | percent => some "%"
  | caret => some "^"
  | equal => some "=="
  | greater => some ">"
  | greaterEqual => some ">="
  | less => some "<"
  | lessEqual => some "<="

/-- The spelling of a lexeme fits its token. -/
structure Canonical (u : Symbol) : Prop where
  mark : ∀ w, u.1.text? = some w → u.2 = w
  word : u.1.isWordLike = true → wordLexeme u.2.toList = u

namespace Canonical

variable {t : Token} {w : String}

/-- The only lexeme of its class. -/
theorem eq {v : String} (h : Canonical (t, w)) (ht : t.text? = some v) : (t, w) = (t, v) := by
  rw [show w = v from h.mark v ht]

theorem eq_key {k : Keyword} (h : Canonical (.keyword k, w)) : (Token.keyword k, w) = Spelled.key k := h.eq rfl

theorem ofMark (ht : t.text? = some w) (hword : t.isWordLike = false) : Canonical (t, w) where
  mark v hv := Option.some.inj (ht.symm.trans hv)
  word h := by rw [show t.isWordLike = true from h] at hword; cases hword

theorem ofFree (ht : t.text? = none) (hword : t.isWordLike = false) : Canonical (t, w) where
  mark v hv := by rw [show t.text? = some v from hv] at ht; cases ht
  word h := by rw [show t.isWordLike = true from h] at hword; cases hword

/-- Letters that spell a keyword make that keyword and all others make a word, so the token of a word always fits
its spelling. -/
theorem ofWord (cs : List Char) : Canonical (Piece.wordToken cs, String.ofList cs) where
  mark v hv := by
    unfold Piece.wordToken at hv
    split at hv
    · rename_i k hk
      have htext : (k.text == String.ofList cs) = true :=
        List.find?_some (p := fun k : Keyword => k.text == String.ofList cs) hk
      rw [← Option.some.inj hv]
      exact (beq_iff_eq.mp htext).symm
    · cases hv
  word _ := by rw [wordLexeme, String.toList_ofList]

end Canonical

/-- A piece that is a lexeme is canonical. -/
def Piece.Canonical (p : Piece) : Prop := ∀ t, p.kind = .token t → FlightScript.Canonical (t, String.ofList p.text)

namespace Piece

/-- A mark of one or two characters is spelt as its class says, whichever of the two it is. -/
theorem canonical_mark {c d : Char} {one two : Token} (cs : List Char)
    (hone : one.text? = some (String.ofList [c]) ∧ one.isWordLike = false)
    (htwo : two.text? = some (String.ofList [c, d]) ∧ two.isWordLike = false) :
    (mark c one d two cs).1.Canonical := by
  fun_cases mark c one d two cs with
  | case1 => rintro _ ⟨⟩; exact .ofMark hone.1 hone.2
  | case2 e cs he =>
      rintro _ ⟨⟩
      rw [beq_iff_eq.mp he]
      exact .ofMark htwo.1 htwo.2
  | case3 => rintro _ ⟨⟩; exact .ofMark hone.1 hone.2

/-- Each character that is a lexeme by itself is the spelling of its class. The characters of the table are gone
through one by one. -/
theorem text?_of_single? (c : Char) :
    ∀ t, single? c = some t → t.text? = some (String.ofList [c]) ∧ t.isWordLike = false := by
  -- the marks are tried one after another
  have hnext : ∀ {d : Char} {u : Token} {o : Option Token},
      u.text? = some (String.ofList [d]) ∧ u.isWordLike = false →
      (∀ t, o = some t → t.text? = some (String.ofList [c]) ∧ t.isWordLike = false) →
      ∀ t, (if c == d then some u else o) = some t → t.text? = some (String.ofList [c]) ∧ t.isWordLike = false := by
    intro d u o hu ho t ht
    by_cases hcd : (c == d) = true
    · rw [if_pos hcd] at ht
      cases ht
      rw [beq_iff_eq.mp hcd]
      exact hu
    · rw [if_neg hcd] at ht
      exact ho t ht
  unfold single?
  iterate 12 refine hnext ⟨rfl, rfl⟩ ?_
  exact nofun

/-- The first piece of a text is canonical. -/
theorem canonical_next (c : Char) (cs : List Char) : (next c cs).1.Canonical := by
  fun_cases next c cs with
  | case1 => simp [Piece.Canonical]
  | case2 => rintro _ ⟨⟩; exact .ofWord _
  | case3 => rintro _ ⟨⟩; exact .ofFree rfl rfl
  | case4 _ _ _ hc => rintro _ ⟨⟩; rw [beq_iff_eq.mp hc]; exact .ofMark rfl rfl
  | case5 => rintro _ ⟨⟩; exact .ofFree rfl rfl
  | case6 _ _ _ hc => rintro _ ⟨⟩; rw [beq_iff_eq.mp hc]; exact .ofMark rfl rfl
  | case7 =>
      intro t ht
      dsimp only at ht
      split at ht
      · cases ht; exact .ofFree rfl rfl
      · cases ht
  | case8 _ _ _ _ _ hc => rintro _ ⟨⟩; rw [beq_iff_eq.mp hc]; exact .ofMark rfl rfl
  | case9 => rintro _ ⟨⟩; exact .ofFree rfl rfl
  | case10 _ _ _ _ _ hc => rintro _ ⟨⟩; rw [beq_iff_eq.mp hc]; exact .ofMark rfl rfl
  | case11 _ _ _ _ _ _ _ hc => rw [beq_iff_eq.mp hc]; exact canonical_mark _ ⟨rfl, rfl⟩ ⟨rfl, rfl⟩
  | case12 _ _ _ _ _ _ _ _ hc => rw [beq_iff_eq.mp hc]; exact canonical_mark _ ⟨rfl, rfl⟩ ⟨rfl, rfl⟩
  | case13 _ _ _ _ _ _ _ _ _ hc => rw [beq_iff_eq.mp hc]; exact canonical_mark _ ⟨rfl, rfl⟩ ⟨rfl, rfl⟩
  | case14 _ _ _ _ _ _ _ _ _ _ hc => rw [beq_iff_eq.mp hc]; exact canonical_mark _ ⟨rfl, rfl⟩ ⟨rfl, rfl⟩
  | case15 =>
      rename_i t hsingle
      rintro _ ⟨⟩
      obtain ⟨htext, hword⟩ := text?_of_single? c t hsingle
      exact .ofMark htext hword
  | case16 => simp [Piece.Canonical]

/-- The pieces of a text are canonical, by induction over their number: the first one is, and the rest of the
text is cut in the same way. -/
theorem canonical_take (n : Nat) (cs : List Char) : ∀ p ∈ take n cs, p.Canonical := by
  fun_induction take n cs with
  | case1 => simp
  | case2 => simp
  | case3 n c cs ih => simpa using ⟨canonical_next c cs, ih⟩

end Piece

/-- **The lexemes of every text are canonical.** -/
theorem Lexing.canonical_ofText (source : String) : ∀ l ∈ (Lexing.ofText source).lexemes, Canonical l.bare := by
  intro l hl
  have hpiece := Piece.canonical_take _ _ _ (Lexing.mem_ofPieces hl) l.token rfl
  rwa [String.ofList_toList] at hpiece

/-! ## Readings and what they take

`Consumes` has the shape of a Hoare triple: if nothing is posted then the value and the lexemes taken stand in
the wanted relation. The rule for sequences concatenates the lexemes. -/

open Parse Surface
open Spelled (key commas)

/-- From this cursor on a reading that posts no problem takes lexemes that belong to its value. -/
def ConsumesAt {α : Type} (p : Parse α) (c : Cursor) (P : α → List Symbol → Prop) : Prop :=
  (∀ u ∈ c.view, Canonical u) → (p c).problems = [] →
    ∃ ts, c.view = ts ++ (p c).cursor.view ∧ P (p c).value ts

/-- From every cursor on a reading that posts no problem takes lexemes that belong to its value. -/
def Consumes {α : Type} (p : Parse α) (P : α → List Symbol → Prop) : Prop := ∀ c, ConsumesAt p c P

section Rules

variable {α β : Type} {p : Parse α} {f : α → Parse β} {c : Cursor} {P Q : α → List Symbol → Prop}
  {R : β → List Symbol → Prop}

/-- What the second reading takes stands behind what the first one took. -/
theorem ConsumesAt.bindAt (h : ConsumesAt p c P)
    (hf : ∀ a ts c', P a ts → c.view = ts ++ c'.view → ConsumesAt (f a) c' fun b us => R b (ts ++ us)) :
    ConsumesAt (p >>= f) c R := by
  intro hc hnone
  obtain ⟨hp, hq⟩ := List.append_eq_nil_iff.mp hnone
  obtain ⟨ts, hts, ha⟩ := h hc hp
  have hc' : ∀ u ∈ (p c).cursor.view, Canonical u := by
    rw [hts] at hc
    exact fun u hu => hc u (List.mem_append_right _ hu)
  obtain ⟨us, hus, hb⟩ := hf _ ts _ ha hts hc' hq
  refine ⟨ts ++ us, ?_, hb⟩
  rw [hts, hus, List.append_assoc]
  rfl

theorem ConsumesAt.bind (h : ConsumesAt p c P)
    (hf : ∀ a ts, P a ts → Consumes (f a) fun b us => R b (ts ++ us)) : ConsumesAt (p >>= f) c R :=
  h.bindAt fun a ts c' ha _ => hf a ts ha c'

theorem Consumes.bind (h : Consumes p P) (hf : ∀ a ts, P a ts → Consumes (f a) fun b us => R b (ts ++ us)) :
    Consumes (p >>= f) R :=
  fun c => (h c).bind hf

/-- Some readings only look. -/
theorem ConsumesAt.peek {a : α} (hp : p c = ⟨a, c, []⟩) (h : ConsumesAt (f a) c R) : ConsumesAt (p >>= f) c R := by
  intro hc hnone
  have heq : (p >>= f) c = ⟨(f a c).value, (f a c).cursor, [] ++ (f a c).problems⟩ := by
    show Parse.andThen p f c = _
    unfold Parse.andThen
    rw [hp]
  rw [heq] at hnone ⊢
  exact h hc hnone

theorem ConsumesAt.mono (h : ConsumesAt p c P) (hPQ : ∀ a ts, P a ts → Q a ts) : ConsumesAt p c Q := by
  intro hc hnone
  obtain ⟨ts, hts, ha⟩ := h hc hnone
  exact ⟨ts, hts, hPQ _ _ ha⟩

theorem Consumes.mono (h : Consumes p P) (hPQ : ∀ a ts, P a ts → Q a ts) : Consumes p Q :=
  fun c => (h c).mono hPQ

theorem Consumes.pure {a : α} (h : P a []) : Consumes (pure a) P := fun _ _ _ => ⟨[], rfl, h⟩

theorem ConsumesAt.map {g : α → β} (h : ConsumesAt p c P) (hg : ∀ a ts, P a ts → R (g a) ts) :
    ConsumesAt (g <$> p) c R := by
  show ConsumesAt (p >>= fun a => Pure.pure (g a)) c R
  refine h.bind fun a ts ha => .pure ?_
  rw [List.append_nil]
  exact hg a ts ha

/-- After a problem nothing is promised. -/
theorem Consumes.report {fault : Fault} {f : Unit → Parse β} : Consumes (Parse.report fault >>= f) R := by
  intro c _ hnone
  exact absurd (List.append_eq_nil_iff.mp hnone).1 (by simp [Parse.report])

theorem Consumes.mismatch {expected : String} {P : Option α → List Symbol → Prop} :
    Consumes (Parse.mismatch expected) P := Consumes.report

end Rules

section Elementary

variable {t : Token} {c : Cursor}

/-- A cursor before a token sees that token with its text and then what the next cursor sees. -/
theorem Cursor.view_of_token? (h : c.token? = some t) :
    ∃ l ls, c.rest = l :: ls ∧ c.view = (t, l.text) :: c.next.view := by
  obtain ⟨l, hl, ht⟩ := Option.map_eq_some_iff.mp h
  obtain ⟨ls, hls⟩ := List.head?_eq_some_iff.mp hl
  refine ⟨l, ls, hls, ?_⟩
  unfold Cursor.view Cursor.next
  rw [hls, ← ht]
  rfl

theorem ConsumesAt.advance (h : c.token? = some t) :
    ConsumesAt Parse.advance c fun _ ts => ∃ w, ts = [(t, w)] ∧ Canonical (t, w) := by
  intro hc _
  obtain ⟨l, _, _, hview⟩ := Cursor.view_of_token? h
  exact ⟨[(t, l.text)], hview, l.text, rfl, hc _ (by rw [hview]; exact .head _)⟩

theorem ConsumesAt.lexeme? (h : c.token? = some t) :
    ConsumesAt Parse.lexeme? c fun o ts => ∃ l : Lexeme, o = some l ∧ ts = [(t, l.text)] ∧ Canonical (t, l.text) := by
  intro hc _
  obtain ⟨l, ls, hrest, hview⟩ := Cursor.view_of_token? h
  refine ⟨[(t, l.text)], hview, l, ?_, rfl, hc _ (by rw [hview]; exact .head _)⟩
  show c.rest.head? = some l
  rw [hrest]
  rfl

/-- Either nothing is given and nothing taken, or one lexeme of the class is given and taken. -/
theorem Consumes.eat : Consumes (Parse.eat t) fun o ts => (o = none ∧ ts = []) ∨
    ∃ l : Lexeme, o = some l ∧ ts = [(t, l.text)] ∧ Canonical (t, l.text) := by
  intro c hc hnone
  by_cases hat : c.isAt t = true
  · have htoken : c.token? = some t := by simpa [Cursor.isAt] using hat
    have heat : Parse.eat t c = Parse.lexeme? c := if_pos hat
    rw [heat] at hnone ⊢
    obtain ⟨ts, hts, h⟩ := ConsumesAt.lexeme? htoken hc hnone
    exact ⟨ts, hts, .inr h⟩
  · have heat : Parse.eat t c = ⟨none, c, []⟩ := if_neg hat
    rw [heat]
    exact ⟨[], rfl, .inl ⟨rfl, rfl⟩⟩

theorem Consumes.expect {expected : String} : Consumes (Parse.expect t expected) fun o ts =>
    ∃ l : Lexeme, o = some l ∧ ts = [(t, l.text)] ∧ Canonical (t, l.text) := by
  unfold Parse.expect
  refine Consumes.eat.bind ?_
  rintro _ ts (⟨rfl, rfl⟩ | ⟨l, rfl, rfl, hl⟩)
  · exact .report
  · exact .pure ⟨l, rfl, rfl, hl⟩

theorem consumes_spanFrom_pure {β : Type} {first : Location} {g : Span → β} {R : β → List Symbol → Prop}
    (h : ∀ span, R (g span) []) : Consumes (Parse.spanFrom first >>= fun span => Pure.pure (g span)) R :=
  fun c => ConsumesAt.peek rfl (Consumes.pure (h _) c)

end Elementary

/-! ## Names

The lexemes of a name are given back by the functions that spell names, so what is read is a name that the
printer could have written. -/

/-- The lexemes taken are the dots and words that spell the rest of the name. The induction follows the recursion
of the reading. -/
theorem Consumes.dottedTail :
    Consumes Parse.dottedTail fun more ts => ts = tailLexemes (more.map String.toList) := by
  have hgo : ∀ (c : Cursor) (ls : List Lexeme), (∀ l ∈ ls, Canonical l.bare) →
      ls.map Lexeme.bare = tailLexemes ((Parse.dottedTail.go c ls).value.map String.toList) ++
        (Parse.dottedTail.go c ls).cursor.view := by
    intro c ls h
    fun_induction Parse.dottedTail.go c ls with
    | case1 _ d w ls hword _ ih =>
        simp only [Bool.and_eq_true, beq_iff_eq] at hword
        have hdot : d.bare = (.dot, ".") := by
          refine Eq.trans ?_ ((hword.1 ▸ h d (.head _) : Canonical (.dot, d.text)).eq rfl)
          rw [← hword.1]
          rfl
        have hw : wordLexeme w.text.toList = w.bare := (h w (.tail _ (.head _))).word hword.2
        rw [List.map_cons, List.map_cons, ih fun l hl => h l (.tail _ (.tail _ hl)), hdot, ← hw]
        rfl
    | case2 => rfl
    | case3 => rfl
  intro c hc _
  refine ⟨_, hgo c c.rest fun l hl => hc _ (List.mem_map_of_mem hl), rfl⟩

/-- The name of something declared. -/
theorem Consumes.declName :
    Consumes Parse.declName fun o ts => ∃ d, o = some d ∧ ts = d.name.lexemes := by
  unfold Parse.declName
  intro c
  refine .peek rfl (Consumes.eat.bind ?_ c)
  rintro _ ts (⟨rfl, rfl⟩ | ⟨l, rfl, rfl, hl⟩)
  · refine Consumes.expect.bind ?_
    rintro _ ts ⟨l, rfl, rfl, hl⟩
    refine Consumes.dottedTail.bind ?_
    rintro more ts rfl
    exact consumes_spanFrom_pure fun span => ⟨_, rfl, by simp [Name.lexemes]⟩
  · exact .pure ⟨_, rfl, rfl⟩

/-- A name behind the dot of a qualifier. -/
theorem Consumes.member :
    Consumes Parse.member fun o ts => ∃ n, o = some n ∧ ts = n.memberLexemes := by
  unfold Parse.member
  intro c
  refine .peek rfl ?_
  split
  · rename_i ht
    refine (ConsumesAt.lexeme? ht).bind ?_
    rintro _ ts ⟨l, rfl, rfl, hl⟩
    exact .pure ⟨_, rfl, rfl⟩
  · rename_i t _ ht
    split
    · rename_i hword
      refine (ConsumesAt.lexeme? ht).bind ?_
      rintro _ ts ⟨l, rfl, rfl, hl⟩
      refine Consumes.dottedTail.bind ?_
      rintro more ts rfl
      refine .pure ⟨_, rfl, ?_⟩
      rw [Name.memberLexemes, hl.word hword, List.append_nil]
      rfl
    · exact Consumes.mismatch c
  · exact Consumes.mismatch c

theorem Parse.token_of_qualifier? {o : Option Token} {q : Qualifier} (h : qualifier? o = some q) :
    o = some (.keyword q.keyword) := by
  unfold qualifier? at h
  split at h <;> cases h <;> rfl

/-- A use of a name. -/
theorem Consumes.reference :
    Consumes Parse.reference fun o ts => ∃ r : Reference, o = some r ∧ r.IsWhole ∧ ts = r.lexemes := by
  unfold Parse.reference
  intro c
  refine .peek rfl (.peek rfl ?_)
  split
  · rename_i q hq
    refine (ConsumesAt.advance (Parse.token_of_qualifier? hq)).bind ?_
    rintro _ ts ⟨w, rfl, hw⟩
    refine Consumes.expect.bind ?_
    rintro _ ts ⟨l, rfl, rfl, hl⟩
    refine Consumes.member.bind ?_
    rintro _ ts ⟨n, rfl, rfl⟩
    refine consumes_spanFrom_pure fun span => ⟨_, rfl, trivial, ?_⟩
    rw [hw.eq rfl, hl.eq rfl, List.append_nil]
    rfl
  · refine Consumes.expect.bind ?_ c
    rintro _ ts ⟨l, rfl, rfl, hl⟩
    refine Consumes.dottedTail.bind ?_
    rintro more ts rfl
    refine consumes_spanFrom_pure fun span => ⟨_, rfl, trivial, ?_⟩
    rw [List.append_nil]
    rfl

/-! ## Expressions

The strata are numbered as in the derivations, from 2 for primary expressions up to 10 for whole ones. A level
takes what is known of the level below it and puts its own operators on top. -/

/-- An expression of a stratum was derived from these lexemes. -/
def SomeDerived (k : Nat) (o : Option Expression) (ts : List Symbol) : Prop :=
  ∃ e, o = some e ∧ e.Derives k ts

/-- An expression that is read without problems is derived at a stratum. -/
abbrev ConsumesExpression (k : Nat) (p : ExpressionParse) : Prop := Consumes p (SomeDerived k)

theorem SomeDerived.looser {j k : Nat} {o : Option Expression} {ts : List Symbol} (h : SomeDerived j o ts)
    (hjk : j ≤ k) : SomeDerived k o ts := by
  obtain ⟨e, rfl, he⟩ := h
  exact ⟨e, rfl, .looser hjk he⟩

theorem ConsumesExpression.looser {j k : Nat} {p : ExpressionParse} (h : ConsumesExpression j p) (hjk : j ≤ k) :
    ConsumesExpression k p := h.mono fun _ _ h => h.looser hjk

theorem Canonical.eq_lexeme {o : Operator} {w : String} (h : Canonical (o.token, w)) : (o.token, w) = o.lexeme :=
  h.eq (by cases o <;> rfl)

/-- The operators of a table belong to a stratum of their own. -/
def TableOf (p : Nat) (table : OperatorTable) : Prop :=
  ∀ t o, table t = some o → t = o.token ∧ o.precedence = p ∧ o ≠ .power

section Expressions

variable {expr operand : ExpressionParse} {k : Nat}

/-- Operators with their right operands, behind a left operand that was derived before. -/
theorem consumes_operatorChain {table : OperatorTable} (htable : TableOf (k + 1) table)
    (h : ConsumesExpression k operand) (first : Location) (n : Nat) :
    ∀ lhs ls, lhs.Derives (k + 1) ls →
      Consumes (operatorChain table operand first n lhs) fun e ts => e.Derives (k + 1) (ls ++ ts) := by
  induction n with
  | zero =>
      intro lhs ls hl
      exact .pure (by rwa [List.append_nil])
  | succ n ih =>
      intro lhs ls hl c
      unfold operatorChain
      refine .peek rfl ?_
      split
      · exact Consumes.pure (by rwa [List.append_nil]) c
      · rename_i o ho
        obtain ⟨t, ht, hto⟩ := Option.bind_eq_some_iff.mp ho
        obtain ⟨rfl, hprec, hpower⟩ := htable t o hto
        refine (ConsumesAt.advance ht).bind ?_
        rintro _ _ ⟨w, rfl, hw⟩
        refine h.bind ?_
        rintro _ rs ⟨rhs, rfl, hr⟩
        intro c'
        refine .peek rfl ?_
        have hbinary : (Expression.binary o lhs rhs (c'.spanFrom first)).Derives (k + 1) (ls ++ o.lexeme :: rs) := by
          rw [← hprec] at hl ⊢
          exact .binary hpower hl (by rwa [hprec])
        refine (ih _ _ hbinary c').mono fun e ts he => ?_
        rw [hw.eq_lexeme]
        simpa using he

/-- A level of operators that group to the left derives at its stratum if the level below derives one stratum
tighter. -/
theorem ConsumesExpression.binaryLevel (h : ConsumesExpression k operand) {table : OperatorTable}
    (htable : TableOf (k + 1) table) : ConsumesExpression (k + 1) (Parse.binaryLevel table operand) := by
  unfold Parse.binaryLevel
  intro c
  refine .peek rfl (h.bind ?_ c)
  rintro _ ls ⟨lhs, rfl, hl⟩
  intro c'
  refine .peek rfl ?_
  refine (consumes_operatorChain htable h _ _ lhs ls (.looser (Nat.le_succ k) hl)).bind ?_ c'
  exact fun e ts he => .pure ⟨e, rfl, by rwa [List.append_nil]⟩

/-- Powers group to the right: the base is derived one stratum tighter than the power, and the exponent at the
stratum of powers itself. The induction is over the number of powers that may still come. -/
theorem ConsumesExpression.power (h : ConsumesExpression 2 operand) : ConsumesExpression 3 (Parse.power operand) := by
  have hwithin : ∀ n, ConsumesExpression 3 (powerWithin operand n) := by
    intro n
    induction n with
    | zero => exact .mismatch
    | succ n ih =>
        intro c
        unfold powerWithin
        refine .peek rfl (h.bind ?_ c)
        rintro _ ls ⟨lhs, rfl, hl⟩
        refine Consumes.eat.bind ?_
        rintro _ _ (⟨rfl, rfl⟩ | ⟨l, rfl, rfl, hw⟩)
        · exact .pure ⟨lhs, rfl, by simpa using Expression.Derives.looser (by omega) hl⟩
        · refine ih.bind ?_
          rintro _ rs ⟨rhs, rfl, hr⟩
          refine consumes_spanFrom_pure fun span => ⟨_, rfl, ?_⟩
          rw [hw.eq rfl, List.append_nil]
          exact .power hl hr
  exact fun c => .peek rfl (hwithin _ c)

/-- A negation takes its keyword and derives what is behind it at its own stratum, so negations nest. The budget
does not run out, since each negation takes a lexeme. -/
theorem ConsumesExpression.notLevel (h : ConsumesExpression 7 operand) :
    ConsumesExpression 8 (Parse.notLevel operand) := by
  have hplain : ConsumesExpression 8 operand := h.looser (by omega)
  have hwithin : ∀ n, ConsumesExpression 8 (notWithin operand n) := by
    intro n
    induction n with
    | zero => exact hplain
    | succ n ih =>
        intro c
        unfold notWithin
        refine .peek rfl ?_
        split
        · rename_i hat
          have ht : c.token? = some (.keyword .not) := by simpa [Cursor.isAt] using hat
          refine .peek rfl ((ConsumesAt.advance ht).bind ?_)
          rintro _ _ ⟨w, rfl, hw⟩
          refine ih.bind ?_
          rintro _ ts ⟨e, rfl, he⟩
          refine consumes_spanFrom_pure fun span => ⟨_, rfl, ?_⟩
          rw [hw.eq rfl, List.append_nil]
          exact .not he
        · exact hplain c
  exact fun c => .peek rfl (hwithin _ c)

/-- An expression behind a lexeme that has to stand before it. -/
theorem ConsumesExpression.expressionAfter (h : ConsumesExpression k expr) {t : Token} {u : Symbol}
    {expected : String} (hu : ∀ w, Canonical (t, w) → (t, w) = u) :
    Consumes (Parse.expressionAfter expr t expected) fun e ts => ∃ us, ts = u :: us ∧ e.Derives k us := by
  unfold Parse.expressionAfter
  refine Consumes.expect.bind ?_
  rintro _ _ ⟨l, rfl, rfl, hl⟩
  refine h.bind ?_
  rintro _ us ⟨e, rfl, he⟩
  refine .pure ⟨us, ?_, he⟩
  rw [hu _ hl, List.append_nil]
  rfl

/-- From the word `if` on, a conditional that posts nothing has found `then` and `else`, and its three parts are
derived as whole expressions. -/
theorem ConsumesExpression.conditional (h : ConsumesExpression 10 expr) {c : Cursor}
    (ht : c.token? = some (.keyword .if_)) : ConsumesAt (Parse.conditional expr) c (SomeDerived 2) := by
  unfold Parse.conditional
  refine .peek rfl ((ConsumesAt.advance ht).bind ?_)
  rintro _ _ ⟨w, rfl, hw⟩
  refine h.bind ?_
  rintro _ cs ⟨e, rfl, hc⟩
  refine (h.expressionAfter fun _ hw => hw.eq_key).bind ?_
  rintro t _ ⟨ts, rfl, ht⟩
  refine (h.expressionAfter fun _ hw => hw.eq_key).bind ?_
  rintro f _ ⟨fs, rfl, hf⟩
  refine consumes_spanFrom_pure fun span => ⟨_, rfl, ?_⟩
  rw [hw.eq_key]
  simpa [orMissing] using Expression.Derives.conditional hc ht hf

/-- Items with commas between them, at least one. -/
def DerivedItems (es : List Expression) (ts : List Symbol) : Prop :=
  ∃ items : List (Expression × List Symbol), es = items.map Prod.fst ∧ items ≠ [] ∧
    (∀ a ∈ items, a.1.Derives 10 a.2) ∧ ts = commas (items.map Prod.snd)

theorem DerivedItems.singleton {e : Expression} {ts : List Symbol} (h : e.Derives 10 ts) :
    DerivedItems [e] ts :=
  ⟨[(e, ts)], rfl, by simp, by simpa using h, rfl⟩

theorem DerivedItems.cons {e : Expression} {es : List Expression} {ts us : List Symbol}
    (h : e.Derives 10 ts) (hs : DerivedItems es us) : DerivedItems (e :: es) (ts ++ (.comma, ",") :: us) := by
  obtain ⟨items, rfl, hne, hitems, rfl⟩ := hs
  obtain ⟨a, items, rfl⟩ := List.exists_cons_of_ne_nil hne
  refine ⟨(e, ts) :: a :: items, rfl, by simp, ?_, rfl⟩
  intro b hb
  rcases List.mem_cons.mp hb with rfl | hb
  · exact h
  · exact hitems b hb

/-- The items of a call, if the budget is larger than the number of lexemes left. -/
theorem ConsumesExpression.callItems (h : ConsumesExpression 10 expr) (n : Nat) :
    ∀ c : Cursor, c.view.length < n → ConsumesAt (Parse.callItems expr n) c DerivedItems := by
  induction n with
  | zero => exact fun c hn => absurd hn (by omega)
  | succ n ih =>
      intro c hn
      unfold Parse.callItems
      refine (h c).bindAt ?_
      rintro _ ts c₁ ⟨e, rfl, he⟩ hview
      refine (Consumes.eat c₁).bindAt ?_
      rintro _ _ c₂ (⟨rfl, rfl⟩ | ⟨l, rfl, rfl, hl⟩) hview'
      · exact Consumes.pure (by simpa using DerivedItems.singleton he) c₂
      · have hlen : c₂.view.length < n := by
          have := congrArg List.length hview
          have := congrArg List.length hview'
          simp at *
          omega
        refine (ih c₂ hlen).bind fun es us hes => .pure ?_
        rw [hl.eq rfl, List.append_nil]
        exact .cons he hes

/-- From an opening parenthesis on, the arguments of a call are whole expressions with commas between them, and
the closing parenthesis is there. -/
theorem ConsumesExpression.callArguments (h : ConsumesExpression 10 expr) {c : Cursor}
    (ht : c.token? = some .leftParen) : ConsumesAt (Parse.callArguments expr) c fun es ts =>
      ∃ items : List (Expression × List Symbol), es = items.map Prod.fst ∧
        (∀ a ∈ items, a.1.Derives 10 a.2) ∧
        ts = (.leftParen, "(") :: commas (items.map Prod.snd) ++ [(.rightParen, ")")] := by
  unfold Parse.callArguments
  refine (ConsumesAt.advance ht).bind ?_
  rintro _ _ ⟨w, rfl, hw⟩
  refine Consumes.eat.bind ?_
  rintro _ _ (⟨rfl, rfl⟩ | ⟨l, rfl, rfl, hl⟩)
  · intro c'
    refine .peek rfl ((h.callItems _ c' (by rw [c'.length_rest]; omega)).bind ?_)
    rintro _ _ ⟨items, rfl, _, hitems, rfl⟩
    refine Consumes.expect.bind ?_
    rintro _ _ ⟨l, rfl, rfl, hl⟩
    refine .pure ⟨items, rfl, hitems, ?_⟩
    rw [hw.eq rfl, hl.eq rfl]
    simp
  · refine .pure ⟨[], rfl, by simp, ?_⟩
    rw [hw.eq rfl, hl.eq rfl]
    rfl

/-- A use of a name alone, or with the arguments that it is called with. -/
theorem ConsumesExpression.nameOrCall (h : ConsumesExpression 10 expr) :
    ConsumesExpression 2 (Parse.nameOrCall expr) := by
  unfold Parse.nameOrCall
  intro c
  refine .peek rfl (Consumes.reference.bind ?_ c)
  rintro _ _ ⟨r, rfl, hr, rfl⟩
  intro c'
  refine .peek rfl ?_
  split
  · rename_i hat
    have ht : c'.token? = some .leftParen := by simpa [Cursor.isAt] using hat
    refine (h.callArguments ht).bind ?_
    rintro _ _ ⟨items, rfl, hitems, rfl⟩
    refine consumes_spanFrom_pure fun span => ⟨_, rfl, ?_⟩
    simpa using Expression.Derives.call hr hitems
  · exact consumes_spanFrom_pure (fun span => ⟨_, rfl, by simpa using Expression.Derives.name hr⟩) c'

/-- A constant of one lexeme. -/
theorem consumesAt_constant {c : Cursor} {t : Token} {value : String → Literal} (ht : c.token? = some t)
    (h : ∀ w, Canonical (t, w) → (value w).lexemes = [(t, w)]) :
    ConsumesAt (Parse.constant value) c (SomeDerived 2) := by
  unfold Parse.constant
  refine .peek rfl ((ConsumesAt.lexeme? ht).bind ?_)
  rintro _ _ ⟨l, rfl, rfl, hl⟩
  refine consumes_spanFrom_pure fun span => ⟨_, rfl, ?_⟩
  rw [List.append_nil, ← h l.text hl]
  exact .literal

/-- One case for each token that an expression can begin with. Where no expression begins a problem is posted, so
nothing has to be shown there. -/
theorem ConsumesExpression.primary (h : ConsumesExpression 10 expr) :
    ConsumesExpression 2 (Parse.primary expr) := by
  unfold Parse.primary
  intro c
  refine .peek rfl ?_
  split
  · rename_i ht
    exact consumesAt_constant ht fun _ _ => rfl
  · rename_i ht
    split
    · rename_i hsecond
      refine (ConsumesAt.advance ht).bindAt ?_
      rintro _ _ c' ⟨w, rfl, hw⟩ hview
      have ht' : c'.token? = some .number := by
        have htail : c.second? = some .number := by simpa using hsecond
        rw [Cursor.second?_eq, hview] at htail
        rw [Cursor.token?_eq]
        exact htail
      refine (ConsumesAt.lexeme? ht').bind ?_
      rintro _ _ ⟨l, rfl, rfl, hl⟩
      refine consumes_spanFrom_pure fun span => ⟨_, rfl, ?_⟩
      rw [hw.eq rfl]
      exact .literal
    · exact Consumes.mismatch c
  · rename_i ht
    exact consumesAt_constant ht fun _ _ => rfl
  · rename_i ht
    exact consumesAt_constant ht fun w hw => by rw [hw.eq rfl]; rfl
  · rename_i ht
    exact consumesAt_constant ht fun w hw => by rw [hw.eq rfl]; rfl
  · rename_i ht
    refine (ConsumesAt.advance ht).bind ?_
    rintro _ _ ⟨w, rfl, hw⟩
    refine h.bind ?_
    rintro _ ts ⟨e, rfl, he⟩
    refine Consumes.expect.bind ?_
    rintro _ _ ⟨l, rfl, rfl, hl⟩
    refine consumes_spanFrom_pure fun span => ⟨_, rfl, ?_⟩
    rw [hw.eq rfl, hl.eq rfl]
    exact .group he
  · rename_i ht
    exact h.conditional ht
  · exact h.nameOrCall c
  · exact h.nameOrCall c
  · exact h.nameOrCall c
  · exact h.nameOrCall c
  · exact Consumes.mismatch c

/-- The tables of the levels hold each operator at the stratum of its precedence and at no other. -/
theorem tableOf_levelTable (p : Nat) : TableOf p (levelTable p) := by
  intro t o h
  unfold levelTable at h
  split at h
  · unfold multiplicativeOperator at h; split at h <;> cases h <;> exact ⟨rfl, rfl, nofun⟩
  · unfold additiveOperator at h; split at h <;> cases h <;> exact ⟨rfl, rfl, nofun⟩
  · unfold comparisonOperator at h; split at h <;> cases h <;> exact ⟨rfl, rfl, nofun⟩
  · unfold andOperator at h; split at h <;> cases h; exact ⟨rfl, rfl, nofun⟩
  · unfold orOperator at h; split at h <;> cases h; exact ⟨rfl, rfl, nofun⟩
  · cases h

theorem ConsumesExpression.operators (h : ConsumesExpression 10 expr) :
    ConsumesExpression 10 (Parse.operators expr) := by
  have h4 : ConsumesExpression 4 (Parse.power (Parse.primary expr)) := h.primary.power.looser (by omega)
  have h7 := ((h4.binaryLevel (tableOf_levelTable 5)).binaryLevel (tableOf_levelTable 6)).binaryLevel
    (tableOf_levelTable 7)
  exact (h7.notLevel.binaryLevel (tableOf_levelTable 9)).binaryLevel (tableOf_levelTable 10)

/-- Whole expressions, by induction over the budget of nested ones. With a budget of nothing a problem is posted.
-/
theorem consumesExpression_within (n : Nat) : ConsumesExpression 10 (expressionWithin n) := by
  induction n with
  | zero => exact .mismatch
  | succ n ih =>
      intro c
      unfold expressionWithin
      refine .peek rfl ?_
      split
      · rename_i hat
        have ht : c.token? = some (.keyword .if_) := by simpa [Cursor.isAt] using hat
        exact (ih.conditional ht).mono fun _ _ h => h.looser (by omega)
      · exact ih.operators c

/-- **An expression that is read without problems is derived from the lexemes it takes.** The levels of operators are
the strata of the grammar, since their tables hold each operator at the stratum of its precedence, and the induction
is over the budget of nested expressions. -/
theorem consumes_expression : ConsumesExpression 10 expression :=
  fun c => .peek rfl (consumesExpression_within _ c)

/-- The items of a list of arguments, each of which is read. -/
theorem consumes_listItems (n : Nat) : Consumes (listItems n) fun o ts => ∀ es, o = some es → DerivedItems es ts := by
  induction n with
  | zero => exact .pure nofun
  | succ n ih =>
      unfold listItems
      refine consumes_expression.bind ?_
      rintro _ ts ⟨e, rfl, he⟩
      refine Consumes.eat.bind ?_
      rintro _ _ (⟨rfl, rfl⟩ | ⟨l, rfl, rfl, hl⟩)
      · refine .pure ?_
        rintro _ ⟨⟩
        simpa using DerivedItems.singleton he
      · refine ih.bind fun o us ho => .pure ?_
        intro es hes
        obtain ⟨more, rfl, rfl⟩ := Option.map_eq_some_iff.mp hes
        rw [hl.eq rfl, List.append_nil]
        exact .cons he (ho more rfl)

/-- A list of arguments in parentheses. -/
theorem consumes_argumentList : Consumes argumentList fun o ts => ∀ es, o = some es → (Arguments.list es).Derives ts := by
  unfold argumentList
  refine Consumes.expect.bind ?_
  rintro _ _ ⟨l, rfl, rfl, hl⟩
  refine Consumes.eat.bind ?_
  rintro _ _ (⟨rfl, rfl⟩ | ⟨l', rfl, rfl, hl'⟩)
  · intro c
    refine .peek rfl ((consumes_listItems _).bind ?_ c)
    intro o ts ho
    cases o with
    | none => exact .pure nofun
    | some es =>
        obtain ⟨items, rfl, _, hitems, rfl⟩ := ho es rfl
        refine Consumes.expect.bind ?_
        rintro _ _ ⟨l', rfl, rfl, hl'⟩
        refine .pure ?_
        rintro _ ⟨⟩
        rw [hl.eq rfl, hl'.eq rfl]
        simpa using Arguments.Derives.list hitems
  · refine .pure ?_
    rintro _ ⟨⟩
    rw [hl.eq rfl, hl'.eq rfl]
    exact @Arguments.Derives.list [] (by simp)

end Expressions

end FlightScript
