import FlightScript.Proofs.Spelling
import FlightScript.Surface.Names

/-!
# `Proofs.Reading` — what readings do with given lexemes

What a reading does depends on the lexemes before it and not on their places. `Reads` says what it does with given
lexemes: it posts no problem, it leaves certain lexemes, and its value is as wanted. `Refuses` says that it posts a
problem. Both go through a sequence of readings, so that each reading is described once, in terms of the readings
that it is made of.

## Contents

* `Cursor.view`, the lexemes still to read without their places;
* `Reads`, `Refuses`, `ReadsIf` and their rules for sequences;
* the elementary readings;
* the lexemes of names; `Reads.declName`, `Reference.IsWhole.reads`, `Reads.parameters`: names read back.
-/

namespace FlightScript

/-- The token that lexemes begin with. -/
def headToken (us : List Symbol) : Option Token := us.head?.map Prod.fst

@[simp] theorem headToken_nil : headToken [] = none := rfl

@[simp] theorem headToken_cons (t : Token) (w : String) (us : List Symbol) :
    headToken ((t, w) :: us) = some t := rfl

namespace Cursor

/-- The lexemes still to read, without their places. -/
def view (c : Cursor) : List Symbol := c.rest.map Lexeme.bare

theorem token?_eq (c : Cursor) : c.token? = headToken c.view := by
  unfold token? headToken view
  cases c.rest <;> rfl

theorem second?_eq (c : Cursor) : c.second? = headToken c.view.tail := by
  unfold second? headToken view
  match c.rest with
  | [] => rfl
  | [_] => rfl
  | _ :: _ :: _ => rfl

theorem isAt_eq (c : Cursor) (t : Token) : c.isAt t = (headToken c.view == some t) := by
  rw [isAt, token?_eq]

theorem length_rest (c : Cursor) : c.rest.length = c.view.length := by
  simp [view]

theorem view_next (c : Cursor) : c.next.view = c.view.tail := by
  unfold next view
  split <;> simp_all

/-- Lexemes that begin with a token begin with a lexeme of that token. -/
theorem rest_of_view {c : Cursor} {t : Token} {w : String} {us : List Symbol}
    (h : c.view = (t, w) :: us) :
    ∃ l ls, c.rest = l :: ls ∧ l.token = t ∧ l.text = w ∧ ls.map Lexeme.bare = us := by
  unfold view at h
  cases hr : c.rest with
  | nil => simp [hr] at h
  | cons l ls =>
      simp only [hr, List.map_cons, List.cons.injEq, Lexeme.bare, Prod.mk.injEq] at h
      exact ⟨l, ls, rfl, h.1.1, h.1.2, h.2⟩

end Cursor

/-! ## Readings of given lexemes

The rules are for forward reasoning. `Reads` is about a reading that succeeds, `Refuses` about one that posts a
problem, and `ReadsIf` about one that does either, depending on a condition on what it is given. -/

section Rules

variable {α β : Type} {p : Parse α} {f : α → Parse β} {us vs ws : List Symbol}
  {Q Q' : α → Prop} {R : β → Prop}

/-- Before these lexemes a reading posts nothing, leaves those, and gives a value as wanted. -/
def Reads (p : Parse α) (us vs : List Symbol) (Q : α → Prop) : Prop :=
  ∀ c : Cursor, c.view = us → (p c).problems = [] ∧ (p c).cursor.view = vs ∧ Q (p c).value

/-- Before these lexemes a reading posts a problem. -/
def Refuses (p : Parse α) (us : List Symbol) : Prop :=
  ∀ c : Cursor, c.view = us → (p c).problems ≠ []

theorem Reads.mono (h : Reads p us vs Q) (hQ : ∀ a, Q a → Q' a) : Reads p us vs Q' := by
  intro c hc
  obtain ⟨hp, hv, hq⟩ := h c hc
  exact ⟨hp, hv, hQ _ hq⟩

/-- **The rule for sequences.** The second reading begins before the lexemes that the first one leaves. -/
theorem Reads.bind (h : Reads p us vs Q) (hf : ∀ a, Q a → Reads (f a) vs ws R) :
    Reads (p >>= f) us ws R := by
  intro c hc
  obtain ⟨hp, hv, hq⟩ := h c hc
  obtain ⟨hp', hv', hr⟩ := hf _ hq _ hv
  refine ⟨?_, hv', hr⟩
  show (p c).problems ++ _ = []
  rw [hp, hp', List.append_nil]

/-- A problem of the first reading stays. -/
theorem Refuses.bind (h : Refuses p us) : Refuses (p >>= f) us := by
  intro c hc hnil
  exact h c hc (List.append_eq_nil_iff.mp hnil).1

/-- A problem of the second reading stays. -/
theorem Reads.bind_refuses (h : Reads p us vs Q) (hf : ∀ a, Q a → Refuses (f a) vs) :
    Refuses (p >>= f) us := by
  intro c hc hnil
  obtain ⟨_, hv, hq⟩ := h c hc
  exact hf _ hq _ hv (List.append_eq_nil_iff.mp hnil).2

theorem Reads.pure {a : α} (h : Q a) : Reads (pure a) us us Q := fun _ hc => ⟨rfl, hc, h⟩

theorem Reads.map {g : α → β} (h : Reads p us vs Q) (hg : ∀ a, Q a → R (g a)) :
    Reads (g <$> p) us vs R := by
  show Reads (p >>= fun a => Pure.pure (g a)) us vs R
  exact h.bind fun a ha => .pure (hg a ha)

theorem Refuses.map {g : α → β} (h : Refuses p us) : Refuses (g <$> p) us := by
  show Refuses (p >>= fun a => Pure.pure (g a)) us
  exact h.bind

/-- Before these lexemes a reading does as wanted if something holds, and posts a problem otherwise. -/
structure ReadsIf (ok : Prop) (p : Parse α) (us vs : List Symbol) (Q : α → Prop) : Prop where
  reads : ok → Reads p us vs Q
  refuses : ¬ ok → Refuses p us

/-- If both readings depend on a condition then the sequence depends on both conditions, and it does not matter
which of the two posts the problem. -/
theorem ReadsIf.bind {ok ok' : Prop} (h : ReadsIf ok p us vs Q) (hf : ∀ a, Q a → ReadsIf ok' (f a) vs ws R) :
    ReadsIf (ok ∧ ok') (p >>= f) us ws R where
  reads hok := (h.reads hok.1).bind fun a ha => (hf a ha).reads hok.2
  refuses hok := by
    by_cases hp : ok
    · exact (h.reads hp).bind_refuses fun a ha => (hf a ha).refuses fun hq => hok ⟨hp, hq⟩
    · exact (h.refuses hp).bind

theorem Reads.bind_readsIf {ok : Prop} (h : Reads p us vs Q) (hf : ∀ a, Q a → ReadsIf ok (f a) vs ws R) :
    ReadsIf ok (p >>= f) us ws R where
  reads hok := h.bind fun a ha => (hf a ha).reads hok
  refuses hok := h.bind_refuses fun a ha => (hf a ha).refuses hok

theorem ReadsIf.bind_reads {ok : Prop} (h : ReadsIf ok p us vs Q) (hf : ∀ a, Q a → Reads (f a) vs ws R) :
    ReadsIf ok (p >>= f) us ws R where
  reads hok := (h.reads hok).bind hf
  refuses hok := (h.refuses hok).bind

theorem ReadsIf.mono {ok : Prop} (h : ReadsIf ok p us vs Q) (hQ : ∀ a, Q a → Q' a) : ReadsIf ok p us vs Q' :=
  ⟨fun hok => (h.reads hok).mono hQ, h.refuses⟩

theorem ReadsIf.congr {ok ok' : Prop} (h : ReadsIf ok p us vs Q) (hiff : ok ↔ ok') : ReadsIf ok' p us vs Q :=
  ⟨fun hok => h.reads (hiff.mpr hok), fun hok => h.refuses fun h' => hok (hiff.mp h')⟩

theorem Reads.readsIf {ok : Prop} (h : Reads p us vs Q) (hok : ok) : ReadsIf ok p us vs Q :=
  ⟨fun _ => h, fun hn => absurd hok hn⟩

end Rules

/-! ## Elementary readings

What they do is told by the first lexeme and nothing else. -/

section Elementary

variable {t : Token} {w : String} {us : List Symbol}

theorem Reads.start : Reads Parse.start us us fun _ => True := fun _ hc => ⟨rfl, hc, trivial⟩

theorem Reads.spanFrom {first : Location} : Reads (Parse.spanFrom first) us us fun _ => True :=
  fun _ hc => ⟨rfl, hc, trivial⟩

theorem Reads.cursor : Reads Parse.cursor us us fun c => c.view = us := fun _ hc => ⟨rfl, hc, hc⟩

theorem Reads.token? : Reads Parse.token? us us (· = headToken us) :=
  fun c hc => ⟨rfl, hc, by rw [← hc]; exact c.token?_eq⟩

theorem Reads.isAt : Reads (Parse.isAt t) us us (· = (headToken us == some t)) :=
  fun c hc => ⟨rfl, hc, by rw [← hc]; exact c.isAt_eq t⟩

theorem Reads.remaining : Reads Parse.remaining us us (· = us.length) :=
  fun c hc => ⟨rfl, hc, by rw [← hc]; exact c.length_rest⟩

theorem Reads.advance : Reads Parse.advance us us.tail fun _ => True :=
  fun c hc => ⟨rfl, by rw [← hc]; exact c.view_next, trivial⟩

/-- The next lexeme is read, whatever it is, and the others are left. -/
theorem Reads.lexeme? : Reads Parse.lexeme? ((t, w) :: us) us
    fun o => ∃ l : Lexeme, o = some l ∧ l.token = t ∧ l.text = w := by
  intro c hc
  refine ⟨rfl, ?_, ?_⟩
  · show c.next.view = us
    rw [c.view_next, hc, List.tail_cons]
  · obtain ⟨l, ls, hr, ht, hw, _⟩ := Cursor.rest_of_view hc
    exact ⟨l, by show c.rest.head? = _; rw [hr]; rfl, ht, hw⟩

theorem Reads.eat : Reads (Parse.eat t) ((t, w) :: us) us
    fun o => ∃ l : Lexeme, o = some l ∧ l.token = t ∧ l.text = w := by
  intro c hc
  have hat : c.isAt t = true := by rw [c.isAt_eq, hc]; simp
  unfold Parse.eat
  rw [if_pos hat]
  exact Reads.lexeme? c hc

theorem Reads.eat_none (h : headToken us ≠ some t) : Reads (Parse.eat t) us us (· = none) := by
  intro c hc
  have hat : ¬ c.isAt t = true := by rw [c.isAt_eq, hc]; simpa using h
  unfold Parse.eat
  rw [if_neg hat]
  exact ⟨rfl, hc, rfl⟩

theorem Reads.expect {expected : String} : Reads (Parse.expect t expected) ((t, w) :: us) us
    fun o => ∃ l : Lexeme, o = some l ∧ l.token = t ∧ l.text = w := by
  unfold Parse.expect
  refine Reads.eat.bind ?_
  rintro _ ⟨l, rfl, hl⟩
  exact .pure ⟨l, rfl, hl⟩

theorem Refuses.report {f : Fault} : Refuses (Parse.report f) us := by
  intro c _ h
  simp [Parse.report] at h

theorem Refuses.expect {expected : String} (h : headToken us ≠ some t) :
    Refuses (Parse.expect t expected) us := by
  unfold Parse.expect
  refine (Reads.eat_none h).bind_refuses ?_
  rintro _ rfl
  exact Refuses.report.bind

/-- Passing over line ends leaves what stands behind them. -/
theorem view_skipNewlines (c : Cursor) :
    (Parse.skipNewlines c).cursor.view = c.view.dropWhile fun u => u.1 == .newline := by
  have hgo : ∀ (ls : List Lexeme) (c : Cursor), (Parse.skipNewlines.go c ls).view =
      (ls.map Lexeme.bare).dropWhile fun u => u.1 == .newline := by
    intro ls
    induction ls with
    | nil => intro c; rfl
    | cons l ls ih =>
        intro c
        unfold Parse.skipNewlines.go
        by_cases hl : (l.token == Token.newline) = true
        · simp only [hl, if_true, ih, List.map_cons, List.dropWhile_cons, Lexeme.bare]
        · simp [hl, Cursor.view, Lexeme.bare]
  exact hgo c.rest c

end Elementary

/-! ## Names

The tree of a name is read back from its lexemes, in front of lexemes that do not go on with a dot. What the printer
spells are the lexemes of such trees. -/

/-- The lexemes of the words behind the first word of a name. -/
def tailLexemes (ws : List (List Char)) : List Symbol :=
  ws.flatMap fun w => [(.dot, "."), wordLexeme w]

/-- The lexemes of a dotted name are its first word and then each further word behind its dot. -/
theorem dottedLexemes_cons (w : List Char) (ws : List (List Char)) :
    dottedLexemes (w :: ws) = wordLexeme w :: tailLexemes ws := by
  induction ws generalizing w with
  | nil => rfl
  | cons v ws ih => rw [dottedLexemes, ih]; rfl

theorem isWordLike_wordToken (w : List Char) : (Piece.wordToken w).isWordLike = true := by
  unfold Piece.wordToken
  split <;> rfl

namespace Surface

/-- The words of a name that begins with a word, or a literal. -/
def Name.lexemes : Name → List Symbol
  | words d => (.word, d.first) :: tailLexemes (d.more.map String.toList)
  | quoted literal => [(.string, literal)]

/-- The same behind a dot, where keywords serve as words. -/
def Name.memberLexemes : Name → List Symbol
  | words d => wordLexeme d.first.toList :: tailLexemes (d.more.map String.toList)
  | quoted literal => [(.string, literal)]

def Parameters.lexemes (p : Parameters) : List Symbol :=
  (.leftParen, "(") :: Spelled.commas (p.names.map fun d => d.name.lexemes) ++ [(.rightParen, ")")]

def parameterLexemes (parameters : Option Parameters) : List Symbol :=
  (parameters.map Parameters.lexemes).getD []

/-- The keyword of a qualifier. -/
def Qualifier.keyword : Qualifier → Keyword
  | this => .this
  | var => .var
  | local_ => .local_

def Reference.lexemes (r : Reference) : List Symbol :=
  match r.qualifier with
  | none => (r.member.map Name.lexemes).getD []
  | some q => Spelled.key q.keyword :: (.dot, ".") :: (r.member.map Name.memberLexemes).getD []

/-- A use of a name has one, and a name without a qualifier is made of words. -/
def Reference.IsWhole (r : Reference) : Prop :=
  match r.qualifier, r.member with
  | none, some (.words _) => True
  | some _, some _ => True
  | _, _ => False

/-- The text of a dotted name has a dot between each two of its words. -/
theorem Dotted.toList_text (d : Dotted) :
    d.text.toList = ['.'].intercalate (d.first.toList :: d.more.map String.toList) := by
  obtain ⟨first, more⟩ := d
  unfold Dotted.text
  induction more generalizing first with
  | nil => simp
  | cons w more ih =>
      rw [List.foldl_cons, ih, List.map_cons, List.intercalate_cons_cons]
      cases more with
      | nil => simp
      | cons v more => simp [List.intercalate_cons_cons]

theorem Dotted.text_parts {name : String} {w : List Char} {ws : List (List Char)}
    (h : Text.parts '.' name.toList = w :: ws) :
    Dotted.text ⟨String.ofList w, ws.map String.ofList⟩ = name := by
  have hwords : (ws.map String.ofList).map String.toList = ws := by simp
  rw [← String.toList_inj, toList_text, hwords, String.toList_ofList, ← h, Text.intercalate_parts]

/-- The first word of a bare name is no keyword. -/
theorem wordToken_of_isBare {name : String} {w : List Char} {ws : List (List Char)}
    (hb : Text.isBare name = true) (h : Text.parts '.' name.toList = w :: ws) :
    Piece.wordToken w = .word := by
  simp only [Text.isBare_eq, Text.firstWord, h, List.headD_cons, Bool.and_eq_true, Option.isNone_iff_eq_none]
    at hb
  simp [Piece.wordToken, hb.2]

/-- A name cut at its dots has the lexemes of its words: behind a qualifier in any case, and elsewhere if the first
word is no keyword. -/
theorem Dotted.exists_parts (name : String) : ∃ d : Dotted, d.text = name ∧
    (Name.words d).memberLexemes = dottedLexemes (Text.parts '.' name.toList) ∧
    (Text.isBare name = true → (Name.words d).lexemes = dottedLexemes (Text.parts '.' name.toList)) := by
  obtain ⟨w, ws, hws⟩ := List.exists_cons_of_ne_nil (Text.parts_ne_nil '.' name.toList)
  refine ⟨⟨String.ofList w, ws.map String.ofList⟩, text_parts hws, ?_, fun hb => ?_⟩
  · simp [hws, dottedLexemes_cons, Name.memberLexemes]
  · simp [hws, dottedLexemes_cons, Name.lexemes, wordLexeme, wordToken_of_isBare hb hws]

/-- What the printer spells for a declared name are the lexemes of a name. If it needs no quotes these are words with
dots, the first of which is no keyword, and otherwise a string literal. -/
theorem Name.exists_spelled (name : String) : ∃ n : Name, n.lexemes = Spelled.name name ∧ n.value = name := by
  unfold Spelled.name
  split
  · rename_i hb
    obtain ⟨d, hd, _, hlexemes⟩ := Dotted.exists_parts name
    exact ⟨.words d, hlexemes hb, hd⟩
  · exact ⟨.quoted (Text.Quoted.write name), rfl, Text.Quoted.value_write name⟩

/-- Behind a qualifier a name may be spelt as words or as a literal, whichever of them the printer chooses. -/
theorem Name.exists_member (name : String) (plain : Bool) : ∃ n : Name, n.memberLexemes =
    (if plain then dottedLexemes (Text.parts '.' name.toList) else [(.string, Text.Quoted.write name)]) ∧
    n.value = name := by
  split
  · obtain ⟨d, hd, hlexemes, _⟩ := Dotted.exists_parts name
    exact ⟨.words d, hlexemes, hd⟩
  · exact ⟨.quoted (Text.Quoted.write name), rfl, Text.Quoted.value_write name⟩

/-- The parameters that the printer spells are the lexemes of parameters. -/
theorem exists_parameters (names : List String) : ∃ ps : Option Parameters,
    parameterLexemes ps = Spelled.arguments (names.map Spelled.name) ∧ parameterNames ps = names := by
  choose f hlexemes hvalue using Name.exists_spelled
  by_cases hne : names = []
  · exact ⟨none, by simp [parameterLexemes, Spelled.arguments, hne], hne.symm⟩
  · refine ⟨some ⟨names.map fun name => ⟨f name, .synthetic⟩, .synthetic⟩, ?_, ?_⟩
    · simp [parameterLexemes, Parameters.lexemes, Spelled.arguments, hne, hlexemes, Function.comp_def]
    · simp [parameterNames, hvalue, Function.comp_def]

end Surface

section Names

open Surface

variable {rest : List Symbol}

/-- The words behind the first word of a name, each behind its dot. -/
theorem Reads.dottedTail (ws : List (List Char)) (hrest : headToken rest ≠ some .dot) :
    Reads Parse.dottedTail (tailLexemes ws ++ rest) rest (· = ws.map String.ofList) := by
  have hgo : ∀ (ws : List (List Char)) (ls : List Lexeme) (c : Cursor),
      ls.map Lexeme.bare = tailLexemes ws ++ rest →
      (Parse.dottedTail.go c ls).problems = [] ∧ (Parse.dottedTail.go c ls).cursor.view = rest ∧
        (Parse.dottedTail.go c ls).value = ws.map String.ofList := by
    intro ws
    induction ws with
    | nil =>
        intro ls c hls
        -- the rest begins with no dot, so that nothing is read
        fun_cases Parse.dottedTail.go c ls with
        | case1 d w ls hd =>
            simp only [Bool.and_eq_true, beq_iff_eq] at hd
            rw [← show _ = rest from hls] at hrest
            exact absurd (by simp [Lexeme.bare, hd.1]) hrest
        | case2 d w ls _ => exact ⟨rfl, hls, rfl⟩
        | case3 ls _ => exact ⟨rfl, hls, rfl⟩
    | cons w ws ih =>
        intro ls c hls
        obtain _ | ⟨d, _ | ⟨v, ls⟩⟩ := ls
        · simp [tailLexemes] at hls
        · simp [tailLexemes] at hls
        · simp only [tailLexemes, List.flatMap_cons, List.cons_append, List.nil_append, List.map_cons,
            List.cons.injEq, Lexeme.bare, wordLexeme, Prod.mk.injEq] at hls
          obtain ⟨⟨hd, _⟩, ⟨hv, hw⟩, hls⟩ := hls
          have hword : (d.token == .dot && v.token.isWordLike) = true := by
            rw [hd, hv, isWordLike_wordToken]
            rfl
          obtain ⟨hp, hview, hvalue⟩ := ih ls { c with rest := ls, lastEnd := v.span.stop } hls
          simp only [Parse.dottedTail.go, hword, if_true, List.map_cons, hw, hvalue]
          exact ⟨hp, hview, trivial⟩
  intro c hc
  exact hgo ws c.rest c hc

/-- A declared name is read up to what does not go on with a dot. -/
theorem Surface.Name.reads_declName (n : Name) (hrest : headToken rest ≠ some .dot) :
    Reads Parse.declName (n.lexemes ++ rest) rest fun o => ∃ d, o = some d ∧ d.name = n := by
  unfold Parse.declName
  refine Reads.start.bind fun first _ => ?_
  cases n with
  | quoted literal =>
      refine Reads.eat.bind ?_
      rintro _ ⟨l, rfl, _, hl⟩
      exact .pure ⟨_, rfl, congrArg Name.quoted hl⟩
  | words d =>
      refine (Reads.eat_none (by simp [Name.lexemes])).bind ?_
      rintro _ rfl
      refine Reads.expect.bind ?_
      rintro _ ⟨l, rfl, _, hl⟩
      refine (Reads.dottedTail _ hrest).bind ?_
      rintro _ rfl
      exact Reads.spanFrom.bind fun span _ => .pure ⟨_, rfl, by simp [hl]⟩

/-- **A declared name is read back** from the spelling that the printer gives it. -/
theorem Reads.declName (name : String) (hrest : headToken rest ≠ some .dot) :
    Reads Parse.declName (Spelled.name name ++ rest) rest
      fun o => ∃ d, o = some d ∧ d.name.value = name := by
  obtain ⟨n, hn, hvalue⟩ := Name.exists_spelled name
  rw [← hn]
  refine (n.reads_declName hrest).mono ?_
  rintro _ ⟨d, rfl, rfl⟩
  exact ⟨d, rfl, hvalue⟩

/-- What stands behind the qualifier of a name is read up to what does not belong to it. -/
theorem Surface.Name.reads_member (n : Name) (hrest : headToken rest ≠ some .dot) :
    Reads Parse.member (n.memberLexemes ++ rest) rest (· = some n) := by
  unfold Parse.member
  cases n with
  | quoted literal =>
      refine Reads.token?.bind ?_
      rintro _ rfl
      refine Reads.lexeme?.bind ?_
      rintro _ ⟨l, rfl, _, hl⟩
      exact .pure (congrArg (some ∘ Name.quoted) hl)
  | words d =>
      have hlike := isWordLike_wordToken d.first.toList
      show Reads _ (wordLexeme d.first.toList :: (tailLexemes (d.more.map String.toList) ++ rest)) rest _
      refine Reads.token?.bind ?_
      rintro _ rfl
      rw [wordLexeme, headToken_cons]
      split
      · -- the first word is no literal
        rename_i heq
        rw [Option.some.inj heq] at hlike
        exact absurd hlike (by decide)
      · rename_i t _ heq
        rw [← Option.some.inj heq, if_pos hlike]
        refine Reads.lexeme?.bind ?_
        rintro _ ⟨l, rfl, _, hl⟩
        refine (Reads.dottedTail _ hrest).bind ?_
        rintro _ rfl
        exact .pure (by simp [hl])
      · rename_i heq
        exact absurd heq (by simp)

/-- A use of a name is read up to what does not belong to it. -/
theorem Surface.Reference.IsWhole.reads {r : Reference} (h : r.IsWhole) (hrest : headToken rest ≠ some .dot) :
    Reads Parse.reference (r.lexemes ++ rest) rest
      fun o => ∃ r', o = some r' ∧ r'.qualifier = r.qualifier ∧ r'.member = r.member := by
  obtain ⟨qualifier, member, span⟩ := r
  cases qualifier with
  | none =>
      obtain _ | (d | literal) := member
      · exact h.elim
      · unfold Parse.reference
        refine Reads.start.bind fun first _ => Reads.token?.bind ?_
        rintro _ rfl
        refine Reads.expect.bind ?_
        rintro _ ⟨l, rfl, _, hl⟩
        refine (Reads.dottedTail _ hrest).bind ?_
        rintro _ rfl
        exact Reads.spanFrom.bind fun span _ => .pure ⟨_, rfl, rfl, by simp [hl]⟩
      · exact h.elim
  | some q =>
      cases member with
      | none => exact h.elim
      | some n =>
          show Reads _ (Spelled.key q.keyword :: (.dot, ".") :: n.memberLexemes ++ rest) _ _
          have hq : Parse.qualifier? (headToken (Spelled.key q.keyword :: (.dot, ".") :: n.memberLexemes ++ rest)) =
              some q := by
            cases q <;> rfl
          unfold Parse.reference
          refine Reads.start.bind fun first _ => Reads.token?.bind ?_
          rintro _ rfl
          rw [hq]
          refine Reads.advance.bind fun _ _ => Reads.expect.bind ?_
          rintro _ ⟨l, rfl, _⟩
          refine (n.reads_member hrest).bind ?_
          rintro _ rfl
          exact Reads.spanFrom.bind fun span _ => .pure ⟨_, rfl, rfl, rfl⟩

/-- Names with commas between them are read back, if the budget is larger than the number of lexemes left and
what follows goes on neither with a dot nor with a comma. The induction is over the names. -/
theorem Reads.declNames {ns : List Name} (hne : ns ≠ []) (hdot : headToken rest ≠ some .dot)
    (hcomma : headToken rest ≠ some .comma) {m : Nat}
    (hm : (Spelled.commas (ns.map Name.lexemes) ++ rest).length < m) :
    Reads (Parse.declNames m) (Spelled.commas (ns.map Name.lexemes) ++ rest) rest (·.map DeclName.name = ns) := by
  induction ns generalizing m with
  | nil => exact absurd rfl hne
  | cons a ns ih =>
      obtain ⟨m, rfl⟩ : ∃ k, m = k + 1 := ⟨m - 1, by omega⟩
      unfold Parse.declNames
      cases ns with
      | nil =>
          refine (a.reads_declName hdot).bind ?_
          rintro _ ⟨d, rfl, hd⟩
          refine (Reads.eat_none hcomma).bind ?_
          rintro _ rfl
          exact .pure (by simp [hd])
      | cons b ns =>
          have hview : Spelled.commas ((a :: b :: ns).map Name.lexemes) ++ rest = a.lexemes ++
              ((.comma, ",") :: (Spelled.commas ((b :: ns).map Name.lexemes) ++ rest)) := by
            simp [Spelled.commas]
          rw [hview] at hm ⊢
          simp only [List.length_append, List.length_cons] at hm
          refine (a.reads_declName (by simp)).bind ?_
          rintro _ ⟨d, rfl, hd⟩
          refine Reads.eat.bind ?_
          rintro _ ⟨l, rfl, _⟩
          -- a name and its comma are gone, so a round less is enough for the rest
          refine (ih (by simp) (by rw [List.length_append]; omega)).bind ?_
          intro more hmore
          exact .pure (by simp [hd, hmore])

/-- A declared name begins with a word or is a literal. -/
theorem Surface.Name.headToken_lexemes (n : Name) (us : List Symbol) :
    headToken (n.lexemes ++ us) = some .word ∨ headToken (n.lexemes ++ us) = some .string := by
  cases n with
  | words d => exact .inl rfl
  | quoted literal => exact .inr rfl

theorem headToken_name (name : String) (us : List Symbol) :
    headToken (Spelled.name name ++ us) = some .word ∨ headToken (Spelled.name name ++ us) = some .string := by
  obtain ⟨n, hn, _⟩ := Name.exists_spelled name
  rw [← hn]
  exact n.headToken_lexemes us

/-- Names in a row do not begin with the parenthesis that closes them. -/
theorem headToken_commas_names {ns : List Name} (hne : ns ≠ []) (us : List Symbol) :
    headToken (Spelled.commas (ns.map Name.lexemes) ++ us) ≠ some .rightParen := by
  obtain ⟨a, ns, rfl⟩ := List.exists_cons_of_ne_nil hne
  obtain ⟨vs, hvs⟩ : ∃ vs, Spelled.commas ((a :: ns).map Name.lexemes) ++ us = a.lexemes ++ vs := by
    cases ns with
    | nil => exact ⟨us, by simp [Spelled.commas]⟩
    | cons b ns =>
        exact ⟨(.comma, ",") :: (Spelled.commas ((b :: ns).map Name.lexemes) ++ us), by simp [Spelled.commas]⟩
  rw [hvs]
  rcases a.headToken_lexemes vs with h | h <;> rw [h] <;> decide

/-- The names between the parentheses of a declaration are read back. The first of them does not look like the
closing parenthesis, which may also follow at once. -/
theorem Reads.parameterNames (ns : List Name) :
    Reads (do
        if ← Parse.isAt .rightParen then Pure.pure []
        else
          let budget ← Parse.remaining
          Parse.declNames (budget + 1))
      (Spelled.commas (ns.map Name.lexemes) ++ (.rightParen, ")") :: rest) ((.rightParen, ")") :: rest)
      (·.map DeclName.name = ns) := by
  refine Reads.isAt.bind ?_
  rintro _ rfl
  by_cases hne : ns = []
  · subst hne
    exact .pure rfl
  · rw [if_neg (by simpa using headToken_commas_names hne ((.rightParen, ")") :: rest))]
    refine Reads.remaining.bind ?_
    rintro _ rfl
    exact .declNames hne (by simp) (by simp) (Nat.lt_succ_self _)

/-- The parameters of a declaration are read back. Without parameters nothing is written, so what follows must not
be an opening parenthesis. -/
theorem Surface.reads_parameters (ps : Option Parameters) (hrest : headToken rest ≠ some .leftParen) :
    Reads Parse.parameters (parameterLexemes ps ++ rest) rest (parameterNames · = parameterNames ps) := by
  unfold Parse.parameters
  refine Reads.isAt.bind ?_
  rintro _ rfl
  cases ps with
  | none =>
      have hat : (headToken rest == some Token.leftParen) = false := by simpa using hrest
      show Reads (if headToken rest == some Token.leftParen then _ else _) rest rest _
      rw [hat]
      exact .pure rfl
  | some ps =>
      have hview : parameterLexemes (some ps) ++ rest = (.leftParen, "(") ::
          (Spelled.commas ((ps.names.map DeclName.name).map Name.lexemes) ++ (.rightParen, ")") :: rest) := by
        simp [parameterLexemes, Parameters.lexemes, Function.comp_def]
      rw [hview]
      refine Reads.start.bind fun first _ => Reads.advance.bind fun _ _ => ?_
      refine (Reads.parameterNames _).bind fun ds hds => Reads.expect.bind ?_
      rintro _ ⟨l, rfl, _⟩
      refine Reads.spanFrom.bind fun span _ => .pure ?_
      simpa [Surface.parameterNames, Function.comp_def] using congrArg (List.map Name.value) hds

theorem Reads.parameters (names : List String) (hrest : headToken rest ≠ some .leftParen) :
    Reads Parse.parameters (Spelled.arguments (names.map Spelled.name) ++ rest) rest
      (Surface.parameterNames · = names) := by
  obtain ⟨ps, hps, hnames⟩ := exists_parameters names
  rw [← hps]
  exact (reads_parameters ps hrest).mono fun _ h => h.trans hnames

end Names

end FlightScript
