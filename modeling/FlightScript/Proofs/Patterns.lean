import FlightScript.Proofs.Consumption

/-!
# `Proofs.Patterns` — the longest match

Every class of tokens has a pattern, and a text is cut behind the longest match of any of them at its front. Among
matches of the same length a keyword wins over a word. Where nothing matches, one character is given up, or a string
literal that does not close with everything it could still have held.

## Contents

* `Token.Matches`, the patterns;
* `Piece.matches_next`: a token that is cut off matches its pattern;
* `Piece.prefers_next`: nothing that matches at the front is longer;
* `Piece.Longest`, `Piece.longest_next`: what is cut off the front of a text.
-/

namespace FlightScript

/-! ## Patterns

The patterns are stated as relations on whole texts, in the words of the token table, and without reference to
how a text is cut. -/

namespace Scan

/-- Digits, and nothing else. -/
def AllDigits (ds : List Char) : Prop := ∀ d ∈ ds, isDigit d = true

/-- The exponent of a number, or nothing. -/
inductive IsExponent : List Char → Prop where
  | none : IsExponent []
  | plain {e : Char} {ds : List Char} (he : e = 'e' ∨ e = 'E') (hne : ds ≠ []) (hds : AllDigits ds) :
      IsExponent (e :: ds)
  | signed {e s : Char} {ds : List Char} (he : e = 'e' ∨ e = 'E') (hs : s = '+' ∨ s = '-') (hne : ds ≠ [])
      (hds : AllDigits ds) : IsExponent (e :: s :: ds)

/-- A number: digits, perhaps with a fraction, or a fraction alone, which then has a digit. -/
inductive IsNumber : List Char → Prop where
  | whole {ws es : List Char} (hne : ws ≠ []) (hws : AllDigits ws) (hes : IsExponent es) : IsNumber (ws ++ es)
  | fraction {ws fs es : List Char} (hws : AllDigits ws) (hfs : AllDigits fs) (hne : ws ≠ [] ∨ fs ≠ [])
      (hes : IsExponent es) : IsNumber (ws ++ '.' :: (fs ++ es))

/-- What a string literal may hold: characters other than its quote, a backslash and a line feed, and pairs of a
backslash and any character but a line feed. -/
inductive Elements (quote : Char) : List Char → Prop where
  | nil : Elements quote []
  | plain {c : Char} {cs : List Char} (hquote : c ≠ quote) (hescape : c ≠ '\\') (hline : c ≠ '\n')
      (h : Elements quote cs) : Elements quote (c :: cs)
  | escaped {c : Char} {cs : List Char} (hline : c ≠ '\n') (h : Elements quote cs) :
      Elements quote ('\\' :: c :: cs)

/-- The two quotes. -/
def IsQuote (c : Char) : Prop := c = '\x22' ∨ c = '\x27'

end Scan

/-- A text matches the pattern of a token. -/
inductive Token.Matches : Token → List Char → Prop where
  | fixed {t : Token} {s : String} (h : t.text? = some s) : Matches t s.toList
  | word {w : List Char} (h : Text.isWord w = true) : Matches .word w
  | number {w : List Char} (h : Scan.IsNumber w) : Matches .number w
  | string {quote : Char} {cs : List Char} (hq : Scan.IsQuote quote) (h : Scan.Elements quote cs) :
      Matches .string (quote :: (cs ++ [quote]))
  | comment {cs : List Char} (h : '\n' ∉ cs) : Matches .comment ('/' :: '/' :: cs)

/-! ## What is cut off matches

Soundness: each way in which a piece is cut off gives a text that matches the pattern of its token. -/

namespace Scan

theorem allDigits_takeWhile (cs : List Char) : AllDigits (cs.takeWhile isDigit) :=
  fun _ hd => List.mem_takeWhile_imp hd

/-- What is taken as an exponent is one, or nothing: the letter is taken only with a digit behind it, or behind a
sign. -/
theorem isExponent_exponent (cs : List Char) : IsExponent (exponent cs).1 := by
  fun_cases exponent cs with
  | case1 => exact .none
  | case2 => exact .none
  | case3 => exact .none
  | case4 e he s ds hs hds =>
      simp only [Bool.or_eq_true, beq_iff_eq] at he hs
      exact .signed he hs (by simpa using hds) (allDigits_takeWhile ds)
  | case5 e he s ds hs hd =>
      simp only [Bool.or_eq_true, beq_iff_eq] at he
      exact .plain he (by simp [hd]) (allDigits_takeWhile _)
  | case6 => exact .none
  | case7 => exact .none

/-- A number that begins with a digit, or with a dot before one, matches the pattern. -/
theorem isNumber_number {c : Char} {cs : List Char}
    (h : isDigit c = true ∨ c = '.' ∧ ∃ d ds, cs = d :: ds ∧ isDigit d = true) : IsNumber (number (c :: cs)).1 := by
  show IsNumber (((c :: cs).takeWhile isDigit ++ (fraction ((c :: cs).dropWhile isDigit)).1) ++
    (exponent (fraction ((c :: cs).dropWhile isDigit)).2).1)
  have hexponent := isExponent_exponent (fraction ((c :: cs).dropWhile isDigit)).2
  have hwhole := allDigits_takeWhile (c :: cs)
  generalize (exponent (fraction ((c :: cs).dropWhile isDigit)).2).1 = es at hexponent
  have hstart : (c :: cs).takeWhile isDigit ≠ [] ∨
      ∃ d ds, (c :: cs).dropWhile isDigit = '.' :: d :: ds ∧ isDigit d = true := by
    rcases h with hc | ⟨rfl, d, ds, rfl, hd⟩
    · exact .inl (by simp [hc])
    · exact .inr ⟨d, ds, by simp [show isDigit '.' = false by decide], hd⟩
  -- from here on only the shape of the three parts matters: digits, fraction, exponent
  generalize (c :: cs).takeWhile isDigit = ws at hwhole hstart
  generalize (c :: cs).dropWhile isDigit = rest at hstart
  fun_cases fraction rest with
  | case1 =>
      rw [List.append_nil]
      rcases hstart with hne | ⟨d, ds, hrest, _⟩
      · exact .whole hne hwhole hexponent
      · cases hrest
  | case2 dot fs hdot =>
      have hne : ws ≠ [] ∨ fs.takeWhile isDigit ≠ [] := by
        rcases hstart with hne | ⟨d, ds, hrest, hd⟩
        · exact .inl hne
        · obtain ⟨_, rfl⟩ := List.cons.inj hrest
          exact .inr (by simp [hd])
      rw [beq_iff_eq.mp hdot, List.append_assoc, List.cons_append]
      exact .fraction hwhole (allDigits_takeWhile fs) hne hexponent
  | case3 dot fs hdot =>
      rw [List.append_nil]
      rcases hstart with hne | ⟨d, ds, hrest, _⟩
      · exact .whole hne hwhole hexponent
      · obtain ⟨rfl, _⟩ := List.cons.inj hrest
        exact absurd rfl hdot

/-- Where the elements of a literal end although it is not closed: before a line feed, the end of the text, or a
backslash before one of them. -/
inductive Breaks : List Char → Prop where
  | finish : Breaks []
  | backslash : Breaks ['\\']
  | line (rest : List Char) : Breaks ('\n' :: rest)
  | escapedLine (rest : List Char) : Breaks ('\\' :: '\n' :: rest)

/-- A literal is read up to its quote, or as far as it has elements. -/
theorem literal_elements (quote : Char) (cs : List Char) :
    ((literal quote cs).2.1 = true ∧ ∃ es, Elements quote es ∧ (literal quote cs).1 = es ++ [quote]) ∨
    ((literal quote cs).2.1 = false ∧ Elements quote (literal quote cs).1 ∧ Breaks (literal quote cs).2.2) := by
  fun_induction literal quote cs with
  | case1 => exact .inr ⟨rfl, .nil, .finish⟩
  | case2 c hc => exact .inl ⟨rfl, [], .nil, by rw [beq_iff_eq.mp hc]; rfl⟩
  | case3 c hc hbreak =>
      simp only [Bool.or_eq_true, beq_iff_eq] at hbreak
      rcases hbreak with rfl | rfl
      · exact .inr ⟨rfl, .nil, .backslash⟩
      · exact .inr ⟨rfl, .nil, .line []⟩
  | case4 c hc hbreak =>
      simp only [Bool.or_eq_true, beq_iff_eq, not_or] at hc hbreak
      exact .inr ⟨rfl, .plain hc hbreak.1 hbreak.2 .nil, .finish⟩
  | case5 c d cs hc => exact .inl ⟨rfl, [], .nil, by rw [beq_iff_eq.mp hc]; rfl⟩
  | case6 c d cs _ hc => exact .inr ⟨rfl, .nil, by rw [beq_iff_eq.mp hc]; exact .line _⟩
  | case7 c d cs _ _ hc hd =>
      exact .inr ⟨rfl, .nil, by rw [beq_iff_eq.mp hc, beq_iff_eq.mp hd]; exact .escapedLine _⟩
  | case8 c d cs _ _ hc hd r ih =>
      simp only [beq_iff_eq] at hc hd
      subst hc
      rcases ih with ⟨hclosed, es, hes, htaken⟩ | ⟨hopen, hes, hbreaks⟩
      · exact .inl ⟨hclosed, _, .escaped hd hes, by simp [r, htaken]⟩
      · exact .inr ⟨hopen, .escaped hd hes, hbreaks⟩
  | case9 c d cs hquote hline hescape r ih =>
      simp only [beq_iff_eq] at hquote hline hescape
      rcases ih with ⟨hclosed, es, hes, htaken⟩ | ⟨hopen, hes, hbreaks⟩
      · exact .inl ⟨hclosed, _, .plain hquote hescape hline hes, by simp [r, htaken]⟩
      · exact .inr ⟨hopen, .plain hquote hescape hline hes, hbreaks⟩

end Scan

/-- A word matches the pattern of the keyword that it spells, or of a word if it spells none. -/
theorem Token.matches_wordToken {w : List Char} (hw : Text.isWord w = true) :
    (Piece.wordToken w).Matches w := by
  unfold Piece.wordToken
  split
  · rename_i k hk
    have htext : (k.text == String.ofList w) = true :=
      List.find?_some (p := fun k : Keyword => k.text == String.ofList w) hk
    have hfixed : (Token.keyword k).Matches k.text.toList := .fixed rfl
    rwa [beq_iff_eq.mp htext, String.toList_ofList] at hfixed
  · exact .word hw

/-- A piece that is a token matches its pattern. -/
def Piece.Matches (p : Piece) : Prop := ∀ t, p.kind = .token t → t.Matches p.text

namespace Piece

theorem matches_single {c : Char} {t : Token} (h : t.text? = some (String.ofList [c])) :
    Piece.Matches ⟨.token t, [c]⟩ := by
  rintro _ ⟨⟩
  simpa using Token.Matches.fixed h

/-- A mark of one or two characters matches the pattern of its token. -/
theorem matches_mark {c d : Char} {one two : Token} (cs : List Char) (hone : one.text? = some (String.ofList [c]))
    (htwo : two.text? = some (String.ofList [c, d])) : (mark c one d two cs).1.Matches := by
  fun_cases mark c one d two cs with
  | case1 => exact matches_single hone
  | case2 e cs he =>
      rintro _ ⟨⟩
      rw [beq_iff_eq.mp he]
      simpa using Token.Matches.fixed htwo
  | case3 => exact matches_single hone

/-- A token that is cut off matches its pattern. -/
theorem matches_next (c : Char) (cs : List Char) : (next c cs).1.Matches := by
  fun_cases next c cs with
  | case1 => rintro _ ⟨⟩
  | case2 _ _ hc =>
      rintro _ ⟨⟩
      have hword : Text.isWord (c :: cs.takeWhile Scan.isWordPart) = true := by
        simp [Text.isWord_cons, hc, List.all_takeWhile]
      exact Token.matches_wordToken hword
  | case3 _ _ _ hc => rintro _ ⟨⟩; exact .number (Scan.isNumber_number (.inl hc))
  | case4 _ _ _ hc => rw [beq_iff_eq.mp hc]; exact matches_single rfl
  | case5 _ _ _ hc d ds hd =>
      rintro _ ⟨⟩
      exact .number (Scan.isNumber_number (.inr ⟨beq_iff_eq.mp hc, d, ds, rfl, hd⟩))
  | case6 _ _ _ hc => rw [beq_iff_eq.mp hc]; exact matches_single rfl
  | case7 _ _ _ _ _ hc =>
      have hquote : Scan.IsQuote c := by simpa [Scan.IsQuote] using hc
      intro t ht
      replace ht : (if (Scan.literal c cs).2.1 = true then Kind.token .string else .unknown) = .token t := ht
      show t.Matches (c :: (Scan.literal c cs).1)
      rcases Scan.literal_elements c cs with ⟨hclosed, es, hes, htaken⟩ | ⟨hopen, _⟩
      · rw [if_pos hclosed] at ht
        cases ht
        rw [htaken]
        exact .string hquote hes
      · simp [hopen] at ht
  | case8 _ _ _ _ _ hc => rw [beq_iff_eq.mp hc]; exact matches_single rfl
  | case9 _ _ _ _ _ hc d ds hd =>
      rintro _ ⟨⟩
      rw [beq_iff_eq.mp hc, beq_iff_eq.mp hd]
      refine .comment fun hmem => ?_
      simpa using List.mem_takeWhile_imp hmem
  | case10 _ _ _ _ _ hc => rw [beq_iff_eq.mp hc]; exact matches_single rfl
  | case11 _ _ _ _ _ _ _ hc => rw [beq_iff_eq.mp hc]; exact matches_mark cs rfl rfl
  | case12 _ _ _ _ _ _ _ _ hc => rw [beq_iff_eq.mp hc]; exact matches_mark cs rfl rfl
  | case13 _ _ _ _ _ _ _ _ _ hc => rw [beq_iff_eq.mp hc]; exact matches_mark cs rfl rfl
  | case14 _ _ _ _ _ _ _ _ _ _ hc => rw [beq_iff_eq.mp hc]; exact matches_mark cs rfl rfl
  | case15 =>
      rename_i t hsingle
      exact matches_single (text?_of_single? c t hsingle).1
  | case16 => rintro _ ⟨⟩

end Piece

/-- A lexeme of a text matches the pattern of its class. -/
theorem Lexing.matches_ofText {text : String} {t : Token} {w : String}
    (h : (t, w) ∈ (Lexing.ofText text).lexemes.map Lexeme.bare) : t.Matches w.toList := by
  have hpieces : ∀ p ∈ Piece.ofText text.toList, p.Matches := by
    induction text.toList using Piece.cutInduction with
    | nil => simp [Piece.ofText, Piece.take]
    | cut c cs ih =>
        rw [Piece.ofText_cons, List.forall_mem_cons]
        exact ⟨Piece.matches_next c cs, ih⟩
  obtain ⟨l, hl, heq⟩ := List.mem_map.mp h
  cases heq
  exact hpieces _ (Lexing.mem_ofPieces hl) _ rfl

/-! ## Nothing that matches is longer

Completeness: whatever matches at the front of a text begins with a character that decides how the piece there is
cut off, and the piece is then at least as long. -/

/-- Characters of a class at the front of a text are part of the longest run of the class. -/
theorem length_le_takeWhile {p : Char → Bool} {w cs : List Char} (hw : ∀ c ∈ w, p c = true) (h : w <+: cs) :
    w.length ≤ (cs.takeWhile p).length := by
  obtain ⟨rest, rfl⟩ := h
  rw [List.takeWhile_append_of_pos hw, List.length_append]
  omega

namespace Scan

/-- Neither digits nor a fraction stand at the front of an exponent. -/
theorem takeWhile_exponent {es : List Char} (hes : IsExponent es) (hne : es ≠ []) (rest : List Char) :
    (es ++ rest).takeWhile isDigit = [] ∧ (es ++ rest).dropWhile isDigit = es ++ rest ∧
      fraction (es ++ rest) = ([], es ++ rest) := by
  obtain ⟨e, ds, rfl, he⟩ : ∃ e ds, es = e :: ds ∧ (e = 'e' ∨ e = 'E') := by
    cases hes with
    | none => exact absurd rfl hne
    | plain he => exact ⟨_, _, rfl, he⟩
    | signed he => exact ⟨_, _, rfl, he⟩
  rcases he with rfl | rfl
  · exact ⟨rfl, rfl, rfl⟩
  · exact ⟨rfl, rfl, rfl⟩

/-- A number begins with a digit, or with a dot before one. -/
theorem IsNumber.head {w : List Char} (h : IsNumber w) :
    ∃ c cs, w = c :: cs ∧ (isDigit c = true ∨ c = '.' ∧ ∃ d ds, cs = d :: ds ∧ isDigit d = true) := by
  cases h with
  | @whole ws es hne hws hes =>
      obtain ⟨d, ds, rfl⟩ := List.exists_cons_of_ne_nil hne
      exact ⟨d, ds ++ es, rfl, .inl (hws d List.mem_cons_self)⟩
  | @fraction ws fs es hws hfs hne hes =>
      rcases ws with _ | ⟨d, ds⟩
      · obtain ⟨d, ds, rfl⟩ := List.exists_cons_of_ne_nil (hne.resolve_left (by simp))
        exact ⟨'.', _, rfl, .inr ⟨rfl, d, ds ++ es, rfl, hfs d List.mem_cons_self⟩⟩
      · exact ⟨d, _, rfl, .inl (hws d List.mem_cons_self)⟩

/-- An exponent at the front of a text is at most as long as the one that is taken there. -/
theorem length_exponent {es cs : List Char} (hes : IsExponent es) (h : es <+: cs) :
    es.length ≤ (exponent cs).1.length := by
  obtain ⟨rest, rfl⟩ := h
  cases hes with
  | none => simp
  | @plain e ds he hne hds =>
      obtain ⟨d, ds, rfl⟩ := List.exists_cons_of_ne_nil hne
      have hd : isDigit d = true := hds d List.mem_cons_self
      have hsign : (d == '+' || d == '-') = false := by
        by_contra hs
        simp only [Bool.not_eq_false, Bool.or_eq_true, beq_iff_eq] at hs
        rcases hs with rfl | rfl <;> exact absurd hd (by decide)
      have hrun := length_le_takeWhile hds (List.prefix_append (d :: ds) rest)
      have hresult : exponent (e :: d :: ds ++ rest) =
          (e :: (d :: (ds ++ rest)).takeWhile isDigit, (d :: (ds ++ rest)).dropWhile isDigit) := by
        simp [exponent, he, hsign, hd]
      rw [hresult]
      simpa using hrun
  | @signed e s ds he hs hne hds =>
      -- a sign is taken only with a digit behind it, and there is one
      have hrun := length_le_takeWhile hds (List.prefix_append ds rest)
      have hsome : ((ds ++ rest).takeWhile isDigit).isEmpty = false := by
        cases htake : (ds ++ rest).takeWhile isDigit with
        | nil =>
            rw [htake] at hrun
            exact absurd (List.eq_nil_of_length_eq_zero (Nat.le_zero.mp hrun)) hne
        | cons d ds => rfl
      have hresult : exponent (e :: s :: ds ++ rest) =
          (e :: s :: (ds ++ rest).takeWhile isDigit, (ds ++ rest).dropWhile isDigit) := by
        simp [exponent, he, hs, hsome]
      rw [hresult]
      simpa using hrun

/-- Digits with an exponent are at most as long as the digits and the exponent that are read. -/
theorem length_digits_exponent {ds es cs : List Char} (hds : AllDigits ds) (hes : IsExponent es)
    (h : ds ++ es <+: cs) :
    (ds ++ es).length ≤ (cs.takeWhile isDigit).length + (exponent (cs.dropWhile isDigit)).1.length := by
  obtain ⟨rest, rfl⟩ := h
  rw [List.append_assoc, List.takeWhile_append_of_pos hds, List.dropWhile_append_of_pos hds, List.length_append,
    List.length_append]
  by_cases hne : es = []
  · subst hne
    simp only [List.length_nil]
    omega
  · obtain ⟨htake, hdrop, _⟩ := takeWhile_exponent hes hne rest
    rw [htake, hdrop]
    have hle := length_exponent hes (List.prefix_append es rest)
    simp only [List.length_nil]
    omega

/-- **A number at the front of a text is at most as long as the one that is taken there.** The cases are those of
the pattern: with a fraction or without one, and with or without an exponent behind it. -/
theorem length_number {w cs : List Char} (hw : IsNumber w) (h : w <+: cs) : w.length ≤ (number cs).1.length := by
  have hlength : (number cs).1.length = (cs.takeWhile isDigit).length +
      (fraction (cs.dropWhile isDigit)).1.length +
        (exponent (fraction (cs.dropWhile isDigit)).2).1.length := by
    simp [number, run, Nat.add_assoc]
  rw [hlength]
  cases hw with
  | @whole ws es hne hws hes =>
      -- behind an exponent no fraction can be taken; without one the scan may go on with a fraction of its own
      by_cases hexponent : es = []
      · subst hexponent
        rw [List.append_nil] at h ⊢
        have hle := length_le_takeWhile hws h
        omega
      · obtain ⟨rest, rfl⟩ := h
        obtain ⟨htake, hdrop, hfraction⟩ := takeWhile_exponent hes hexponent rest
        have hle := length_exponent hes (List.prefix_append es rest)
        rw [List.append_assoc, List.takeWhile_append_of_pos hws, List.dropWhile_append_of_pos hws, htake, hdrop,
          hfraction, List.append_nil, List.length_append]
        dsimp only
        omega
  | @fraction ws fs es hws hfs hne hes =>
      obtain ⟨rest, rfl⟩ := h
      have hle := length_digits_exponent hfs hes (List.prefix_append (fs ++ es) rest)
      have hdot : ∀ ds, ('.' :: ds).takeWhile isDigit = [] ∧ ('.' :: ds).dropWhile isDigit = '.' :: ds ∧
          fraction ('.' :: ds) = ('.' :: ds.takeWhile isDigit, ds.dropWhile isDigit) :=
        fun _ => ⟨rfl, rfl, rfl⟩
      obtain ⟨htake, hdrop, hfraction⟩ := hdot (fs ++ es ++ rest)
      rw [List.append_assoc, List.cons_append, List.takeWhile_append_of_pos hws, List.dropWhile_append_of_pos hws,
        htake, hdrop, hfraction, List.append_nil, List.length_append]
      simp only [List.length_cons]
      omega

/-- What matches the pattern of numbers is taken whole when it stands alone. -/
theorem IsNumber.numeral {w : List Char} (h : IsNumber w) : Numeral w where
  start := h.head
  whole := by
    have hle := length_number h (List.prefix_refl w)
    have happend := number_append w
    have hlength := congrArg List.length happend
    rw [List.length_append] at hlength
    have hrest : (number w).2 = [] := List.eq_nil_of_length_eq_zero (by omega)
    rw [hrest, List.append_nil] at happend
    exact Prod.ext happend hrest

/-- A literal that closes is read up to its quote. -/
theorem literal_of_elements {quote : Char} (hq : IsQuote quote) {es : List Char} (hes : Elements quote es)
    (rest : List Char) : literal quote (es ++ quote :: rest) = (es ++ [quote], true, rest) := by
  induction hes with
  | nil => cases rest <;> simp [literal]
  | @plain c cs hquote hescape hline _ ih =>
      obtain ⟨d, ds, hds⟩ := List.exists_cons_of_ne_nil (show cs ++ quote :: rest ≠ [] by simp)
      rw [List.cons_append, hds]
      rw [hds] at ih
      simp [literal, hquote, hescape, hline, ih]
  | @escaped c cs hline _ ih =>
      have hne : '\\' ≠ quote := by
        rcases hq with rfl | rfl <;> decide
      simp [literal, hne, hline, ih]

end Scan

namespace Piece

theorem length_pos_next (c : Char) (cs : List Char) : 0 < (next c cs).1.text.length := by
  have happend := congrArg List.length (next_append c cs)
  have hrest := next_length c cs
  simp only [List.length_append, List.length_cons] at happend
  omega

/-- The token that is cut off is preferred to a match: it is longer, or of the same length and class, or a keyword where
the match is a word. -/
def Prefers (p : Piece) (t : Token) (w : List Char) : Prop :=
  ∃ u, p.kind = .token u ∧ (w.length < p.text.length ∨
    w.length = p.text.length ∧ (u = t ∨ u.isKeyword = true ∧ t = .word))

theorem next_of_isWordStart {c : Char} (cs : List Char) (hc : Scan.isWordStart c = true) :
    next c cs = (⟨.token (wordToken (c :: cs.takeWhile Scan.isWordPart)), c :: cs.takeWhile Scan.isWordPart⟩,
      cs.dropWhile Scan.isWordPart) := by
  simp [next, isGap_of_isWordStart hc, hc]

/-- Where a number begins the piece is a number. -/
theorem next_number {c : Char} {cs : List Char}
    (h : Scan.isDigit c = true ∨ c = '.' ∧ ∃ d ds, cs = d :: ds ∧ Scan.isDigit d = true) :
    next c cs = (⟨.token .number, (Scan.number (c :: cs)).1⟩, (Scan.number (c :: cs)).2) := by
  rcases h with hc | ⟨rfl, d, ds, rfl, hd⟩
  · have hgap : Scan.isGap c = false := by
      by_contra hg
      simp only [Bool.not_eq_false, Scan.isGap, Bool.or_eq_true, beq_iff_eq] at hg
      rcases hg with ((rfl | rfl) | rfl) | rfl <;> exact absurd hc (by decide)
    have hword : Scan.isWordStart c = false := by
      by_contra hw
      rw [Bool.not_eq_false] at hw
      rw [Spells.isDigit_of_isWordStart hw] at hc
      exact absurd hc (by decide)
    simp [next, hgap, hword, hc]
  · simp [next, show Scan.isGap '.' = false by decide, show Scan.isWordStart '.' = false by decide,
      show Scan.isDigit '.' = false by decide, hd]

theorem next_quote {c : Char} (hc : Scan.IsQuote c) (cs : List Char) :
    next c cs = (⟨if (Scan.literal c cs).2.1 then .token .string else .unknown, c :: (Scan.literal c cs).1⟩,
      (Scan.literal c cs).2.2) := by
  rcases hc with rfl | rfl
  · rfl
  · rfl

/-- A mark of one character is cut off, or one of two that begins with it. -/
theorem prefers_mark (c : Char) (one : Token) (second : Char) (two : Token) (cs : List Char) :
    (mark c one second two cs).1.Prefers one [c] := by
  fun_cases mark c one second two cs with
  | case1 => exact ⟨one, rfl, .inr ⟨rfl, .inl rfl⟩⟩
  | case2 => exact ⟨two, rfl, .inl Nat.one_lt_two⟩
  | case3 => exact ⟨one, rfl, .inr ⟨rfl, .inl rfl⟩⟩

theorem kind_mark (c : Char) (one : Token) (second : Char) (two : Token) (cs : List Char) :
    ∃ t, (mark c one second two cs).1.kind = .token t := by
  obtain ⟨t, ht, _⟩ := prefers_mark c one second two cs
  exact ⟨t, ht⟩

/-- A dot is cut off, unless a number begins with it. -/
theorem prefers_dot (cs : List Char) : (next '.' cs).1.Prefers .dot ['.'] := by
  rcases cs with _ | ⟨d, ds⟩
  · exact ⟨.dot, rfl, .inr ⟨rfl, .inl rfl⟩⟩
  · -- before a digit the dot begins a number, and that is longer
    by_cases hd : Scan.isDigit d = true
    · have hnumber : Scan.IsNumber ['.', d] :=
        @Scan.IsNumber.fraction [] [d] [] (by simp [Scan.AllDigits]) (by simpa [Scan.AllDigits] using hd)
          (.inr (by simp)) .none
      rw [next_number (.inr ⟨rfl, d, ds, rfl, hd⟩)]
      refine ⟨.number, rfl, .inl ?_⟩
      exact Scan.length_number hnumber (List.prefix_append ['.', d] ds)
    · have hnext : next '.' (d :: ds) = (⟨.token .dot, ['.']⟩, d :: ds) := by
        simp [next, hd, show Scan.isGap '.' = false by decide, show Scan.isWordStart '.' = false by decide,
          show Scan.isDigit '.' = false by decide]
      rw [hnext]
      exact ⟨.dot, rfl, .inr ⟨rfl, .inl rfl⟩⟩

/-- A slash is cut off, unless a comment begins with it. -/
theorem prefers_slash (cs : List Char) : (next '/' cs).1.Prefers .slash ['/'] := by
  rcases cs with _ | ⟨d, ds⟩
  · exact ⟨.slash, rfl, .inr ⟨rfl, .inl rfl⟩⟩
  · by_cases hd : d = '/'
    · subst hd
      refine ⟨.comment, rfl, .inl ?_⟩
      show 1 < ('/' :: '/' :: ds.takeWhile (· != '\n')).length
      simp
    · have hnext : next '/' (d :: ds) = (⟨.token .slash, ['/']⟩, d :: ds) := by
        simp [next, hd, show Scan.isGap '/' = false by decide, show Scan.isWordStart '/' = false by decide,
          show Scan.isDigit '/' = false by decide]
      rw [hnext]
      exact ⟨.slash, rfl, .inr ⟨rfl, .inl rfl⟩⟩

/-- A fixed text other than a keyword's has one or two characters. -/
theorem prefers_fixed {t : Token} {s : String} {c : Char} {cs : List Char} (ht : t.text? = some s)
    (hkeyword : t.isKeyword = false) (h : s.toList <+: c :: cs) : (next c cs).1.Prefers t s.toList := by
  have hone : ∀ d : Char, s.toList = [d] → (next d cs).1.Prefers t [d] → (next c cs).1.Prefers t s.toList := by
    intro d hd hprefers
    rw [hd] at h ⊢
    obtain ⟨rfl, _⟩ := List.cons_prefix_cons.mp h
    exact hprefers
  -- every fixed text of two characters ends with the sign of equality, and the mark of one gives way to it
  have htwo : ∀ (d : Char) {one : Token}, s.toList = [d, '='] → (∀ ds, next d ds = mark d one '=' t ds) →
      (next c cs).1.Prefers t s.toList := by
    intro d one hd hmark
    rw [hd] at h ⊢
    obtain ⟨rfl, hcs⟩ := List.cons_prefix_cons.mp h
    obtain ⟨ds, rfl⟩ := hcs
    rw [hmark]
    exact ⟨t, rfl, .inr ⟨rfl, .inl rfl⟩⟩
  cases t with
  | keyword k => cases hkeyword
  | word => cases ht
  | number => cases ht
  | string => cases ht
  | comment => cases ht
  | dot => cases ht; exact hone '.' rfl (prefers_dot cs)
  | slash => cases ht; exact hone '/' rfl (prefers_slash cs)
  | assign => cases ht; exact hone '=' rfl (prefers_mark ..)
  | plus => cases ht; exact hone '+' rfl (prefers_mark ..)
  | greater => cases ht; exact hone '>' rfl (prefers_mark ..)
  | less => cases ht; exact hone '<' rfl (prefers_mark ..)
  | equal => cases ht; exact htwo '=' rfl fun _ => rfl
  | plusAssign => cases ht; exact htwo '+' rfl fun _ => rfl
  | greaterEqual => cases ht; exact htwo '>' rfl fun _ => rfl
  | lessEqual => cases ht; exact htwo '<' rfl fun _ => rfl
  | newline => cases ht; exact hone '\n' rfl ⟨_, rfl, .inr ⟨rfl, .inl rfl⟩⟩
  | hash => cases ht; exact hone '#' rfl ⟨_, rfl, .inr ⟨rfl, .inl rfl⟩⟩
  | leftParen => cases ht; exact hone '(' rfl ⟨_, rfl, .inr ⟨rfl, .inl rfl⟩⟩
  | rightParen => cases ht; exact hone ')' rfl ⟨_, rfl, .inr ⟨rfl, .inl rfl⟩⟩
  | leftBrace => cases ht; exact hone '\x7b' rfl ⟨_, rfl, .inr ⟨rfl, .inl rfl⟩⟩
  | rightBrace => cases ht; exact hone '\x7d' rfl ⟨_, rfl, .inr ⟨rfl, .inl rfl⟩⟩
  | comma => cases ht; exact hone ',' rfl ⟨_, rfl, .inr ⟨rfl, .inl rfl⟩⟩
  | colon => cases ht; exact hone ':' rfl ⟨_, rfl, .inr ⟨rfl, .inl rfl⟩⟩
  | minus => cases ht; exact hone '-' rfl ⟨_, rfl, .inr ⟨rfl, .inl rfl⟩⟩
  | star => cases ht; exact hone '*' rfl ⟨_, rfl, .inr ⟨rfl, .inl rfl⟩⟩
  | percent => cases ht; exact hone '%' rfl ⟨_, rfl, .inr ⟨rfl, .inl rfl⟩⟩
  | caret => cases ht; exact hone '^' rfl ⟨_, rfl, .inr ⟨rfl, .inl rfl⟩⟩

/-- A word at the front is part of the word that is cut off. -/
theorem prefers_isWord {t : Token} {w : List Char} {c : Char} {cs : List Char} (hw : Text.isWord w = true)
    (ht : t = .word ∨ t = wordToken w) (h : w <+: c :: cs) : (next c cs).1.Prefers t w := by
  rcases w with _ | ⟨d, ds⟩
  · cases hw
  obtain ⟨rfl, hds⟩ := List.cons_prefix_cons.mp h
  simp only [Text.isWord_cons, Bool.and_eq_true, List.all_eq_true] at hw
  have hle := length_le_takeWhile hw.2 hds
  rw [next_of_isWordStart cs hw.1]
  refine ⟨_, rfl, ?_⟩
  rcases Nat.lt_or_eq_of_le hle with hlt | heq
  · exact .inl (Nat.succ_lt_succ hlt)
  · -- words of the same length are the same word
    have hsame : ds = cs.takeWhile Scan.isWordPart :=
      List.prefix_of_prefix_length_le hds (List.takeWhile_prefix _) hle |>.eq_of_length heq
    refine .inr ⟨congrArg Nat.succ heq, ?_⟩
    rcases ht with rfl | rfl
    · unfold wordToken
      split
      · exact .inr ⟨rfl, rfl⟩
      · exact .inl rfl
    · exact .inl (by rw [← hsame])

/-- **What is cut off is preferred** to everything that matches at the front of a text. -/
theorem prefers_next {t : Token} {w : List Char} {c : Char} {cs : List Char} (hw : t.Matches w) (h : w <+: c :: cs) :
    (next c cs).1.Prefers t w := by
  cases hw with
  | @fixed _ s hfixed =>
      cases t with
      | keyword k =>
          cases hfixed
          exact prefers_isWord (Spelled.isWord_text k) (.inr (Spelled.wordToken_text k).symm) h
      | _ => exact prefers_fixed hfixed rfl h
  | word hword => exact prefers_isWord hword (.inl rfl) h
  | number hnumber =>
      obtain ⟨d, ds, rfl, hstart⟩ := hnumber.head
      obtain ⟨rfl, hds⟩ := List.cons_prefix_cons.mp h
      -- the text begins as the number does, so the scan takes it for one
      have hstart' : Scan.isDigit d = true ∨ d = '.' ∧ ∃ e es, cs = e :: es ∧ Scan.isDigit e = true := by
        rcases hstart with hd | ⟨hd, e, es, rfl, he⟩
        · exact .inl hd
        · obtain ⟨rest, rfl⟩ := hds
          exact .inr ⟨hd, e, es ++ rest, rfl, he⟩
      rw [next_number hstart']
      refine ⟨.number, rfl, ?_⟩
      rcases Nat.lt_or_eq_of_le (Scan.length_number hnumber h) with hlt | heq
      · exact .inl hlt
      · exact .inr ⟨heq, .inl rfl⟩
  | @string quote es hq hes =>
      obtain ⟨rest, hrest⟩ := h
      rw [List.cons_append, List.append_assoc] at hrest
      obtain ⟨rfl, rfl⟩ := List.cons.inj hrest
      rw [next_quote hq, List.singleton_append, Scan.literal_of_elements hq hes]
      exact ⟨.string, rfl, .inr ⟨rfl, .inl rfl⟩⟩
  | @comment ds hds =>
      obtain ⟨rest, hrest⟩ := h
      obtain ⟨rfl, rfl⟩ := List.cons.inj hrest
      have htext : ∀ c ∈ ds, (c != '\n') = true := by
        intro c hc
        simpa using fun he : c = '\n' => hds (he ▸ hc)
      have hle := length_le_takeWhile htext (List.prefix_append ds rest)
      refine ⟨.comment, rfl, ?_⟩
      show ('/' :: '/' :: ds).length < ('/' :: '/' :: (ds ++ rest).takeWhile (· != '\n')).length ∨ _ ∧ _
      rcases Nat.lt_or_eq_of_le hle with hlt | heq
      · exact .inl (Nat.succ_lt_succ (Nat.succ_lt_succ hlt))
      · exact .inr ⟨congrArg (· + 2) heq, .inl rfl⟩

/-! ## What is cut off the front

Both together describe the piece at the front without saying how it was found. -/

/-- What is cut off the front of a text: blanks as far as they go, the preferred token, a character that nothing begins
with, or a literal that does not close with all its elements. -/
inductive Longest (cs : List Char) : Piece → Prop where
  | gap {text : List Char} (hgap : ∀ c ∈ text, Scan.isGap c = true)
      (hstop : ∀ c ∈ (cs.drop text.length).head?, Scan.isGap c = false)
      (hnone : ∀ u w, Token.Matches u w → ¬ w <+: cs) : Longest cs ⟨.gap, text⟩
  | token {t : Token} {text : List Char} (hmatch : t.Matches text)
      (hprefers : ∀ u w, Token.Matches u w → w <+: cs → Prefers ⟨.token t, text⟩ u w) : Longest cs ⟨.token t, text⟩
  | character {c : Char} (hgap : Scan.isGap c = false) (hquote : ¬ Scan.IsQuote c)
      (hnone : ∀ u w, Token.Matches u w → ¬ w <+: cs) : Longest cs ⟨.unknown, [c]⟩
  | unclosed {quote : Char} {es : List Char} (hquote : Scan.IsQuote quote) (hes : Scan.Elements quote es)
      (hbreaks : Scan.Breaks (cs.drop (es.length + 1))) (hnone : ∀ u w, Token.Matches u w → ¬ w <+: cs) :
      Longest cs ⟨.unknown, quote :: es⟩

/-- A stretch that is no token is cut off only where nothing matches. -/
theorem not_matches_of_kind {c : Char} {cs : List Char} (h : ∀ t, (next c cs).1.kind ≠ .token t) (u : Token)
    (w : List Char) (hw : u.Matches w) : ¬ w <+: c :: cs := by
  intro hbegins
  obtain ⟨t, ht, _⟩ := prefers_next hw hbegins
  exact h t ht

theorem longest_of_token {c : Char} {cs : List Char} {t : Token} (h : (next c cs).1.kind = .token t) :
    Longest (c :: cs) (next c cs).1 := by
  have hmatch := matches_next c cs t h
  have hprefers := fun u w (hw : Token.Matches u w) (hbegins : w <+: c :: cs) => prefers_next hw hbegins
  generalize (next c cs).1 = p at h hmatch hprefers
  obtain ⟨kind, text⟩ := p
  cases h
  exact .token hmatch hprefers

/-- What is cut off is a token, blanks, a literal that does not close, or a single character. -/
theorem next_cases (c : Char) (cs : List Char) :
    (∃ t, (next c cs).1.kind = .token t) ∨
      (Scan.isGap c = true ∧ (next c cs).1 = ⟨.gap, c :: cs.takeWhile Scan.isGap⟩) ∨
      (Scan.IsQuote c ∧ (Scan.literal c cs).2.1 = false ∧ (next c cs).1 = ⟨.unknown, c :: (Scan.literal c cs).1⟩) ∨
      (Scan.isGap c = false ∧ ¬ Scan.IsQuote c ∧ (next c cs).1 = ⟨.unknown, [c]⟩) := by
  fun_cases next c cs with
  | case1 _ hc => exact .inr (.inl ⟨hc, rfl⟩)
  | case7 _ _ _ _ _ hc =>
      have hquote : Scan.IsQuote c := by simpa [Scan.IsQuote] using hc
      cases hclosed : (Scan.literal c cs).2.1 with
      | true => exact .inl ⟨.string, rfl⟩
      | false => exact .inr (.inr (.inl ⟨hquote, rfl, rfl⟩))
  | case11 => exact .inl (kind_mark ..)
  | case12 => exact .inl (kind_mark ..)
  | case13 => exact .inl (kind_mark ..)
  | case14 => exact .inl (kind_mark ..)
  | case16 _ hgap _ _ _ hquote =>
      exact .inr (.inr (.inr ⟨by simpa using hgap, by simpa [Scan.IsQuote] using hquote, rfl⟩))
  | _ => exact .inl ⟨_, rfl⟩

/-- **Every piece is the longest** that can be cut off the front of what is left. A token is longest because it is
preferred to all others that match; a blank, an open literal and a character that begins nothing are cut off only
where no token matches. -/
theorem longest_next (c : Char) (cs : List Char) : Longest (c :: cs) (next c cs).1 := by
  have hdrop : ∀ {taken rest : List Char}, taken ++ rest = cs → (c :: cs).drop (taken.length + 1) = rest := by
    rintro taken rest rfl
    exact List.drop_left
  -- a piece is a token, white space, a literal that is not closed, or a character that begins nothing
  rcases next_cases c cs with ⟨t, ht⟩ | ⟨hgap, hnext⟩ | ⟨hquote, hopen, hnext⟩ | ⟨hgap, hquote, hnext⟩
  · exact longest_of_token ht
  · have hnone := @not_matches_of_kind c cs (by simp [hnext])
    rw [hnext]
    refine .gap ?_ ?_ hnone
    · intro d hd
      rcases List.mem_cons.mp hd with rfl | hd
      · exact hgap
      · exact List.mem_takeWhile_imp hd
    · rw [List.length_cons, hdrop List.takeWhile_append_dropWhile]
      intro d hd
      have hne := List.ne_nil_of_mem (List.mem_of_mem_head? hd)
      have hhead := List.head_dropWhile_not Scan.isGap hne
      rw [List.head?_eq_some_head hne, Option.mem_some_iff] at hd
      rw [← hd]
      exact hhead
  · have hnone := @not_matches_of_kind c cs (by simp [hnext])
    rw [hnext]
    rcases Scan.literal_elements c cs with ⟨hclosed, _⟩ | ⟨_, hes, hbreaks⟩
    · rw [hclosed] at hopen
      cases hopen
    · refine .unclosed hquote hes ?_ hnone
      rw [hdrop (Scan.literal_append c cs)]
      exact hbreaks
  · have hnone := @not_matches_of_kind c cs (by simp [hnext])
    rw [hnext]
    exact .character hgap hquote hnone

end Piece

end FlightScript
