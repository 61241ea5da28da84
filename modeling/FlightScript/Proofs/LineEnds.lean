import FlightScript.Proofs.Acceptance
import FlightScript.Proofs.Layout

/-!
# `Proofs.LineEnds` — line ends with carriage returns

A carriage return is a blank between tokens, so a line may end with one before its line feed. But a comment goes on up
to the line feed and takes the carriage return with it, and only the white space before its words is trimmed. So a text
with other line ends has the same tree except that each comment that has words has a carriage return more.

## Contents

* `Text.crlf`, and `Spells.crlf`: the lexemes of a text with other line ends;
* `Surface.Program.mem_dropLast_lexemes`: a comment is not the last lexeme of a program;
* `Node.mapComments_eq_self_iff`, `Node.complaints_mapComments`: trees with other words in their comments;
* `treeOfText_crlf`, and the main theorem `line_ends_reach_comments`.
-/

namespace FlightScript

open Blurry (blur)

/-! ## Characters

A carriage return is put before every line feed. Runs of characters that hold neither of the two are not touched.
-/

namespace Text

/-- The characters with a carriage return before each line feed. -/
def crlfChars (cs : List Char) : List Char := cs.flatMap fun c => if c = '\n' then ['\r', '\n'] else [c]

/-- The text with a carriage return before each line feed. -/
def crlf (s : String) : String := String.ofList (crlfChars s.toList)

@[simp] theorem crlfChars_nil : crlfChars [] = [] := rfl

@[simp] theorem crlfChars_newline (cs : List Char) : crlfChars ('\n' :: cs) = '\r' :: '\n' :: crlfChars cs := rfl

theorem crlfChars_cons {c : Char} (h : c ≠ '\n') (cs : List Char) : crlfChars (c :: cs) = c :: crlfChars cs := by
  simp [crlfChars, h]

section Runs

variable {p : Char → Bool}

/-- A run of characters that holds neither of the two ends where it did. -/
theorem takeWhile_crlfChars (hn : p '\n' = false) (hr : p '\r' = false) (cs : List Char) :
    (crlfChars cs).takeWhile p = cs.takeWhile p := by
  induction cs with
  | nil => rfl
  | cons c cs ih =>
      by_cases hc : c = '\n'
      · subst hc
        simp [hn, hr]
      · rw [crlfChars_cons hc, List.takeWhile_cons, List.takeWhile_cons, ih]

/-- What is left behind such a run is the changed rest. -/
theorem dropWhile_crlfChars (hn : p '\n' = false) (hr : p '\r' = false) (cs : List Char) :
    (crlfChars cs).dropWhile p = crlfChars (cs.dropWhile p) := by
  induction cs with
  | nil => rfl
  | cons c cs ih =>
      by_cases hc : c = '\n'
      · subst hc
        simp [hn, hr]
      · rw [crlfChars_cons hc, List.dropWhile_cons, List.dropWhile_cons, ih]
        split
        · rfl
        · rw [crlfChars_cons hc]

end Runs

/-- The rest of a line takes the carriage return, if the line ends. -/
theorem line_crlfChars (cs : List Char) :
    (∃ rest, cs.dropWhile (· != '\n') = '\n' :: rest ∧
      (crlfChars cs).takeWhile (· != '\n') = cs.takeWhile (· != '\n') ++ ['\r'] ∧
      (crlfChars cs).dropWhile (· != '\n') = '\n' :: crlfChars rest) ∨
    cs.dropWhile (· != '\n') = [] ∧ (crlfChars cs).takeWhile (· != '\n') = cs.takeWhile (· != '\n') ∧
      (crlfChars cs).dropWhile (· != '\n') = [] := by
  induction cs with
  | nil => exact .inr ⟨rfl, rfl, rfl⟩
  | cons c cs ih =>
      by_cases hc : c = '\n'
      · subst hc
        exact .inl ⟨cs, by simp, by simp, by simp⟩
      · have htrue : (c != '\n') = true := by simpa using hc
        simp only [crlfChars_cons hc, List.dropWhile_cons, List.takeWhile_cons, htrue, if_true]
        rcases ih with ⟨rest, hdrop, htake, hrest⟩ | ⟨hdrop, htake, hrest⟩
        · exact .inl ⟨rest, hdrop, by rw [htake, List.cons_append], hrest⟩
        · exact .inr ⟨hdrop, by rw [htake], hrest⟩

end Text

/-! ## Tokens

Whatever is cut off the front of a text is cut off the changed text too, and what is left is the changed rest.
Comments are the one exception. -/

open Text (crlfChars crlfChars_cons takeWhile_crlfChars dropWhile_crlfChars)

namespace Scan

/-- A fraction has only digits and a dot in it, so it ends where it did. -/
theorem fraction_crlf (cs : List Char) : fraction (crlfChars cs) = ((fraction cs).1, crlfChars (fraction cs).2) := by
  cases cs with
  | nil => rfl
  | cons c cs =>
      by_cases hc : c = '\n'
      · subst hc
        rfl
      · rw [crlfChars_cons hc, fraction, fraction, takeWhile_crlfChars (by decide) (by decide),
          dropWhile_crlfChars (by decide) (by decide)]
        split
        · rfl
        · rw [crlfChars_cons hc]

/-- An exponent has a letter, perhaps a sign, and digits in it, so it ends where it did. The cases are those of
its definition. -/
theorem exponent_crlf (cs : List Char) : exponent (crlfChars cs) = ((exponent cs).1, crlfChars (exponent cs).2) := by
  rcases cs with _ | ⟨e, _ | ⟨s, ds⟩⟩
  · rfl
  · by_cases he : e = '\n'
    · subst he
      rfl
    · simp only [crlfChars_cons he, Text.crlfChars_nil, exponent]
      split <;> simp [crlfChars_cons he]
  · by_cases he : e = '\n'
    · subst he
      rfl
    by_cases hs : s = '\n'
    · subst hs
      have hn : isDigit '\n' = false := by decide
      have hr : isDigit '\r' = false := by decide
      simp [crlfChars_cons he, exponent, hn, hr]
    · -- what is taken ends with a digit, and the rest begins behind the last one
      have htake : ∀ cs, (crlfChars cs).takeWhile isDigit = cs.takeWhile isDigit :=
        takeWhile_crlfChars (by decide) (by decide)
      have hdrop : ∀ cs, (crlfChars cs).dropWhile isDigit = crlfChars (cs.dropWhile isDigit) :=
        dropWhile_crlfChars (by decide) (by decide)
      have hboth := htake (s :: ds)
      have hrest := hdrop (s :: ds)
      rw [crlfChars_cons hs] at hboth hrest
      simp only [crlfChars_cons he, crlfChars_cons hs, exponent, htake, hdrop, hboth, hrest]
      repeat' split
      all_goals simp [crlfChars_cons he, crlfChars_cons hs]

theorem number_crlf (cs : List Char) : number (crlfChars cs) = ((number cs).1, crlfChars (number cs).2) := by
  simp only [number, run, takeWhile_crlfChars (p := isDigit) (by decide) (by decide),
    dropWhile_crlfChars (p := isDigit) (by decide) (by decide), fraction_crlf, exponent_crlf]

theorem number_cons_crlf {c : Char} (hc : c ≠ '\n') (cs : List Char) :
    number (c :: crlfChars cs) = ((number (c :: cs)).1, crlfChars (number (c :: cs)).2) := by
  rw [← crlfChars_cons hc, number_crlf]

theorem literal_cons {quote c : Char} (cs : List Char) (hc : (c == quote) = false) (hn : (c == '\n') = false)
    (hb : (c == '\\') = false) : literal quote (c :: cs) = (c :: (literal quote cs).1, (literal quote cs).2) := by
  cases cs with
  | nil => simp [literal, hc, hn, hb]
  | cons d cs => simp [literal, hc, hn, hb]

/-- A literal that closes holds no line end. -/
theorem literal_crlf {quote : Char} (hquote : quote ≠ '\n') {cs : List Char} (h : (literal quote cs).2.1 = true) :
    literal quote (crlfChars cs) = ((literal quote cs).1, true, crlfChars (literal quote cs).2.2) := by
  have hclose : ∀ {c : Char}, (c == quote) = true → ∀ cs, literal quote (c :: cs) = ([c], true, cs) := by
    intro c hc cs
    cases cs <;> simp [literal, hc]
  fun_induction literal quote cs with
  | case1 => cases h
  | case2 c hc =>
      have hne : c ≠ '\n' := by rwa [show c = quote by simpa using hc]
      rw [crlfChars_cons hne, hclose hc]
  | case3 c hc hother => cases h
  | case4 c hc hother => cases h
  | case5 c d cs hc =>
      have hne : c ≠ '\n' := by rwa [show c = quote by simpa using hc]
      rw [crlfChars_cons hne, hclose hc]
  | case6 c d cs hc hn => cases h
  | case7 c d cs hc hn hb hd => cases h
  | case8 c d cs hc hn hb hd r ih =>
      rw [crlfChars_cons (by simpa using hn), crlfChars_cons (by simpa using hd)]
      simp [literal, hc, hn, hb, hd, ih h, r]
  | case9 c d cs hc hn hb r ih =>
      rw [crlfChars_cons (by simpa using hn),
        literal_cons _ (by simpa using hc) (by simpa using hn) (by simpa using hb), ih h]

end Scan

namespace Piece

theorem mark_crlf (c : Char) (one : Token) {second : Char} (two : Token) (cs : List Char) (hn : second ≠ '\n')
    (hr : second ≠ '\r') : mark c one second two (crlfChars cs) =
      ((mark c one second two cs).1, crlfChars (mark c one second two cs).2) := by
  rcases cs with _ | ⟨d, ds⟩
  · rfl
  by_cases hd : d = '\n'
  · subst hd
    simp [mark, hn.symm, hr.symm]
  · rw [crlfChars_cons hd, mark, mark]
    split
    · rfl
    · rw [crlfChars_cons hd]

/-- A token other than a comment ends where it did. -/
theorem next_crlf {c : Char} {cs : List Char} (hc : c ≠ '\n') {t : Token} (h : (next c cs).1.kind = .token t)
    (ht : t ≠ .comment) : next c (crlfChars cs) = ((next c cs).1, crlfChars (next c cs).2) := by
  have htake := takeWhile_crlfChars (p := Scan.isWordPart) (by decide) (by decide)
  have hdrop := dropWhile_crlfChars (p := Scan.isWordPart) (by decide) (by decide)
  revert h
  fun_cases next c cs with
  | case1 =>
      intro h
      cases h
  | case2 => simp +zetaDelta [next, *]
  | case3 => simp +zetaDelta [next, Scan.number_cons_crlf hc, *]
  | case4 => simp [next, *]
  | case5 _ _ _ _ d ds hd =>
      have hne : d ≠ '\n' := by
        rintro rfl
        exact absurd hd (by decide)
      have hnumber := Scan.number_cons_crlf hc (d :: ds)
      rw [crlfChars_cons hne] at hnumber ⊢
      simp +zetaDelta [next, *]
  | case6 _ _ _ _ d ds hd =>
      -- what stands behind the character is seen but not taken, so it may be a line feed
      by_cases hne : d = '\n'
      · subst hne
        simp [next, show Scan.isDigit '\r' = false by decide, *]
      · rw [crlfChars_cons hne]
        simp [next, *]
  | case7 _ _ _ _ _ _ r =>
      -- a literal that stays open is no token
      intro h
      have hclosed : (Scan.literal c cs).2.1 = true := by
        by_contra hopen
        simp [r, hopen] at h
      simp +zetaDelta [next, Scan.literal_crlf hc hclosed, *]
  | case8 => simp [next, *]
  | case9 =>
      intro h
      exact absurd (Kind.token.inj h).symm ht
  | case10 _ _ _ _ _ _ d ds hd =>
      by_cases hne : d = '\n'
      · subst hne
        simp [next, *]
      · rw [crlfChars_cons hne]
        simp [next, *]
  | case11 => simp [next, mark_crlf, *]
  | case12 => simp [next, mark_crlf, *]
  | case13 => simp [next, mark_crlf, *]
  | case14 => simp [next, mark_crlf, *]
  | case15 => simp [next, *]
  | case16 => simp [next, *]

theorem isGap_of_next {c : Char} {cs : List Char} (h : (next c cs).1.kind = .gap) : Scan.isGap c = true := by
  have hmark : ∀ {one two : Token} (d : Char), (mark c one d two cs).1.kind ≠ .gap := by
    intro one two d
    fun_cases mark c one d two cs <;> simp
  revert h
  fun_cases next c cs with
  | case1 =>
      rename_i hgap
      exact fun _ => hgap
  | case7 =>
      intro h
      split at h <;> cases h
  | case11 => exact fun h => absurd h (hmark _)
  | case12 => exact fun h => absurd h (hmark _)
  | case13 => exact fun h => absurd h (hmark _)
  | case14 => exact fun h => absurd h (hmark _)
  | _ =>
      intro h
      cases h

/-- Only two slashes begin a comment, since the pattern of comments has them at its front. -/
theorem slashes_of_comment {c : Char} {cs : List Char} (h : (next c cs).1.kind = .token .comment) :
    ∃ ds, c = '/' ∧ cs = '/' :: ds := by
  have happend := next_append c cs
  have hmatches := matches_next c cs _ h
  generalize (next c cs).1.text = w at happend hmatches
  cases hmatches with
  | fixed hs => cases hs
  | @comment ds _ =>
      obtain ⟨hc, hcs⟩ := List.cons.inj happend
      exact ⟨ds ++ (next c cs).2, hc.symm, hcs.symm⟩

/-- A comment takes the carriage return, if its line ends. -/
theorem next_comment_crlf {c : Char} {cs : List Char} {w rest : List Char}
    (h : next c cs = (⟨.token .comment, w⟩, rest)) :
    (∃ more, rest = '\n' :: more ∧ next c (crlfChars cs) = (⟨.token .comment, w ++ ['\r']⟩, '\n' :: crlfChars more)) ∨
      rest = [] ∧ next c (crlfChars cs) = (⟨.token .comment, w⟩, []) := by
  obtain ⟨ds, rfl, rfl⟩ := slashes_of_comment (congrArg (fun r => r.1.kind) h)
  have hnext : ∀ ds, next '/' ('/' :: ds) = (⟨.token .comment, '/' :: '/' :: ds.takeWhile (· != '\n')⟩,
      ds.dropWhile (· != '\n')) := fun _ => rfl
  rw [hnext] at h
  cases h
  rw [crlfChars_cons (by decide), hnext]
  rcases Text.line_crlfChars ds with ⟨more, hdrop, htake, hrest⟩ | ⟨hdrop, htake, hrest⟩
  · exact .inl ⟨more, hdrop, by rw [htake, hrest, List.cons_append, List.cons_append]⟩
  · exact .inr ⟨hdrop, by rw [htake, hrest]⟩

end Piece

/-! ## Lexemes

The statement about pieces becomes one about lexemes, by going through the text from its front. -/

/-- The lexemes with a carriage return behind each comment but one that ends them. -/
def returnComments : List Symbol → List Symbol
  | [] => []
  | [u] => [u]
  | u :: v :: us => (if u.1 = .comment then (u.1, u.2 ++ "\r") else u) :: returnComments (v :: us)

theorem returnComments_cons {u : Symbol} (hu : u.1 ≠ .comment) (us : List Symbol) :
    returnComments (u :: us) = u :: returnComments us := by
  cases us with
  | nil => rfl
  | cons v us => rw [returnComments, if_neg hu]

namespace Spells

variable {depth : Nat} {cs rest : List Char} {ts : List Symbol}

/-- Line ends and comments inside parentheses count for nothing. -/
theorem hidden {c : Char} {t : Token} {w : List Char} (hnext : Piece.next c cs = (⟨.token t, w⟩, rest))
    (ht : (Lexing.isLayout t && decide (0 < depth)) = true) (h : Spells (Lexing.depthAfter depth t) rest ts) :
    Spells depth (c :: cs) ts := by
  intro index start
  rw [Piece.ofText_cons, hnext]
  simp only [Lexing.ofPieces, ht, if_true]
  exact h _ _

/-- What a text begins with. -/
theorem front {c : Char} (h : Spells depth (c :: cs) ts) :
    (Scan.isGap c = true ∧ Spells depth cs ts) ∨
      ∃ t w rest, Piece.next c cs = (⟨.token t, w⟩, rest) ∧
        ((Lexing.isLayout t && decide (0 < depth)) = true ∧ Spells (Lexing.depthAfter depth t) rest ts ∨
          (Lexing.isLayout t && decide (0 < depth)) = false ∧
            ∃ us, ts = (t, String.ofList w) :: us ∧ Spells (Lexing.depthAfter depth t) rest us) := by
  by_cases hgap : Scan.isGap c = true
  · left
    have hdrop := h.dropWhile_gap
    rw [List.dropWhile_cons_of_pos hgap] at hdrop
    exact ⟨hgap, hdrop.of_dropWhile_gap⟩
  right
  obtain ⟨⟨⟨kind, w⟩, rest⟩, hnext⟩ : ∃ r, Piece.next c cs = r := ⟨_, rfl⟩
  -- where a text starts changes places only
  have hstart : ∀ {d : Nat} {us : List Symbol}, (∃ index start,
      (Lexing.ofPieces index start d (Piece.ofText rest)).lexemes.map Lexeme.bare = us ∧
        (Lexing.ofPieces index start d (Piece.ofText rest)).problems = []) → Spells d rest us := by
    rintro d us ⟨index, start, hlexemes, hproblems⟩ index' start'
    have hsame := Lexing.ofPieces_start index' index start' start d (Piece.ofText rest)
    exact ⟨hsame.1.trans hlexemes, hsame.2.mpr hproblems⟩
  have hfirst := h (.ofText "") 0
  rw [Piece.ofText_cons, hnext] at hfirst
  cases kind with
  | gap => exact absurd (Piece.isGap_of_next (congrArg (fun r => r.1.kind) hnext)) hgap
  | unknown => cases hfirst.2
  | token t =>
      refine ⟨t, w, rest, hnext, ?_⟩
      simp only [Lexing.ofPieces] at hfirst
      by_cases hlayout : (Lexing.isLayout t && decide (0 < depth)) = true
      · rw [if_pos hlayout] at hfirst
        exact .inl ⟨hlayout, hstart ⟨_, _, hfirst⟩⟩
      · rw [if_neg hlayout] at hfirst
        exact .inr ⟨by simpa using hlayout, _, hfirst.1.symm, hstart ⟨_, _, rfl, hfirst.2⟩⟩

theorem eq_nil (h : Spells depth [] ts) : ts = [] := (h (.ofText "") 0).1.symm

theorem newline_ne_nil (h : Spells depth ('\n' :: cs) ts) (hdepth : depth = 0) : ts ≠ [] := by
  rcases h.front with ⟨hgap, _⟩ | ⟨t, w, rest, _, ⟨hlayout, _⟩ | ⟨_, us, rfl, _⟩⟩
  · cases hgap
  · simp [hdepth] at hlayout
  · simp

/-- A line feed is not a comment's, so it has a carriage return of its own. -/
theorem newline_crlf
    (ih : ∀ {us : List Symbol}, Spells depth cs us → Spells depth (crlfChars cs) (returnComments us))
    (h : Spells depth ('\n' :: cs) ts) : Spells depth ('\n' :: crlfChars cs) (returnComments ts) := by
  have hnewline : ∀ cs, Piece.next '\n' cs = (⟨.token .newline, ['\n']⟩, cs) := fun _ => rfl
  rcases h.front with ⟨hgap, _⟩ | ⟨t, w, rest, hnext, hrest⟩
  · cases hgap
  rw [hnewline] at hnext
  cases hnext
  rcases hrest with ⟨hlayout, hrest⟩ | ⟨hlayout, us, rfl, hrest⟩
  · exact hidden (hnewline _) hlayout (ih hrest)
  · rw [returnComments_cons (by simp)]
    exact token (hnewline _) hlayout (ih hrest)

/-- **Carriage returns before line feeds** change no lexeme, except that comments take theirs. A carriage return is a
blank. But a comment goes up to the line feed, so it takes the carriage return in front of it; a comment that ends the
text gets none. -/
theorem crlf (h : Spells depth cs ts) : Spells depth (crlfChars cs) (returnComments ts) := by
  -- a piece is cut off the front of both texts, so the induction is on the length
  obtain ⟨n, hn⟩ : ∃ n, cs.length = n := ⟨_, rfl⟩
  induction n using Nat.strong_induction_on generalizing depth cs ts with
  | _ n ih =>
      rcases cs with _ | ⟨c, cs⟩
      · rw [h.eq_nil]
        exact nil
      have hshorter : ∀ {d : Nat} {ds : List Char} {us : List Symbol}, ds.length ≤ cs.length →
          Spells d ds us → Spells d (crlfChars ds) (returnComments us) := by
        intro d ds us hle hds
        exact ih ds.length (by rw [← hn, List.length_cons]; omega) hds rfl
      by_cases hc : c = '\n'
      · subst hc
        exact (newline_crlf (hshorter (le_refl _)) h).gap (by decide)
      rw [crlfChars_cons hc]
      rcases h.front with ⟨hgap, hcs⟩ | ⟨t, w, rest, hnext, hrest⟩
      · exact (hshorter (le_refl _) hcs).gap hgap
      have hlength : rest.length ≤ cs.length := by
        have hle := Piece.next_length c cs
        rwa [hnext] at hle
      by_cases ht : t = .comment
      · subst ht
        rcases Piece.next_comment_crlf hnext with ⟨more, rfl, hcomment⟩ | ⟨rfl, hcomment⟩
        · -- the line feed is left to the next piece without its carriage return
          have hline : ∀ {us : List Symbol}, Spells depth ('\n' :: more) us →
              Spells depth ('\n' :: crlfChars more) (returnComments us) :=
            newline_crlf (hshorter (Nat.le_of_succ_le hlength))
          rcases hrest with ⟨hlayout, hrest⟩ | ⟨hlayout, us, rfl, hrest⟩
          · exact hidden hcomment hlayout (hline hrest)
          · have hdepth : depth = 0 := by simpa [Lexing.isLayout] using hlayout
            obtain ⟨v, us, rfl⟩ := List.exists_cons_of_ne_nil (hrest.newline_ne_nil hdepth)
            have hreturn : String.ofList w ++ "\r" = String.ofList (w ++ ['\r']) := String.ofList_append.symm
            rw [returnComments, if_pos rfl, hreturn]
            exact token hcomment hlayout (hline hrest)
        · -- the text ends with the comment, which gets no carriage return
          rcases hrest with ⟨hlayout, hrest⟩ | ⟨hlayout, us, rfl, hrest⟩
          · rw [hrest.eq_nil]
            exact hidden hcomment hlayout nil
          · rw [hrest.eq_nil]
            exact token hcomment hlayout nil
      · have htoken := Piece.next_crlf hc (congrArg (fun r => r.1.kind) hnext) ht
        rw [hnext] at htoken
        rcases hrest with ⟨hlayout, hrest⟩ | ⟨hlayout, us, rfl, hrest⟩
        · exact hidden htoken hlayout (hshorter hlength hrest)
        · rw [returnComments_cons ht]
          exact token htoken hlayout (hshorter hlength hrest)

end Spells

/-- Every lexeme was cut off somewhere in the text. -/
theorem Spells.exists_next {depth : Nat} {cs : List Char} {ts : List Symbol} (h : Spells depth cs ts) :
    ∀ u ∈ ts, ∃ c ds rest, (c :: ds) <:+ cs ∧ Piece.next c ds = (⟨.token u.1, u.2.toList⟩, rest) := by
  obtain ⟨n, hn⟩ : ∃ n, cs.length = n := ⟨_, rfl⟩
  induction n using Nat.strong_induction_on generalizing depth cs ts with
  | _ n ih =>
      rcases cs with _ | ⟨c, cs⟩
      · rw [h.eq_nil]
        simp
      have hbehind : ∀ {d : Nat} {ds : List Char} {us : List Symbol}, ds.length ≤ cs.length →
          ds <:+ c :: cs → Spells d ds us →
            ∀ u ∈ us, ∃ c' ds' rest,
              (c' :: ds') <:+ c :: cs ∧ Piece.next c' ds' = (⟨.token u.1, u.2.toList⟩, rest) := by
        intro d ds us hle hsuffix hds u hu
        obtain ⟨c', ds', rest, hfront, hnext⟩ := ih ds.length (by rw [← hn, List.length_cons]; omega) hds rfl u hu
        exact ⟨c', ds', rest, hfront.trans hsuffix, hnext⟩
      rcases h.front with ⟨_, hcs⟩ | ⟨t, w, rest, hnext, hrest⟩
      · exact hbehind (le_refl _) (List.suffix_cons c cs) hcs
      have happend := Piece.next_append c cs
      have hlength := Piece.next_length c cs
      rw [hnext] at happend hlength
      rcases hrest with ⟨_, hrest⟩ | ⟨_, us, rfl, hrest⟩
      · exact hbehind hlength ⟨w, happend⟩ hrest
      · intro u hu
        rcases List.mem_cons.mp hu with rfl | hu
        · exact ⟨c, cs, rest, List.suffix_rfl, by rw [String.toList_ofList]; exact hnext⟩
        · exact hbehind hlength ⟨w, happend⟩ hrest u hu

/-- A character that is not in a text is in none of its lexemes. -/
theorem Spells.notMem_text {depth : Nat} {cs : List Char} {ts : List Symbol} (h : Spells depth cs ts)
    {c : Char} (hc : c ∉ cs) : ∀ u ∈ ts, c ∉ u.2.toList := by
  intro u hu hmem
  obtain ⟨d, ds, rest, hsuffix, hnext⟩ := h.exists_next u hu
  have happend := Piece.next_append d ds
  rw [hnext] at happend
  apply hc
  apply hsuffix.subset
  rw [← happend]
  exact List.mem_append_left _ hmem

theorem Spells.comment_text {depth : Nat} {cs : List Char} {ts : List Symbol} (h : Spells depth cs ts)
    {w : String} (hw : (.comment, w) ∈ ts) : ∃ ds, w.toList = '/' :: '/' :: ds := by
  obtain ⟨c, cs, rest, _, hnext⟩ := h.exists_next _ hw
  obtain ⟨ds, rfl, rfl⟩ := Piece.slashes_of_comment (congrArg (fun r => r.1.kind) hnext)
  exact ⟨_, (congrArg (fun r => r.1.text) hnext).symm⟩

/-- A lexeme with other line ends is one that was there before, or a comment with a carriage return behind it. -/
theorem mem_returnComments {u : Symbol} {ts : List Symbol} (hu : u ∈ returnComments ts) :
    u ∈ ts ∨ ∃ w, (.comment, w) ∈ ts ∧ u = (.comment, w ++ "\r") := by
  fun_induction returnComments ts with
  | case1 => cases hu
  | case2 v => exact .inl hu
  | case3 v v' ts ih =>
      rcases List.mem_cons.mp hu with rfl | hu
      · split
        · rename_i hv
          exact .inr ⟨v.2, by rw [← hv]; exact List.mem_cons_self, by rw [hv]⟩
        · exact .inl List.mem_cons_self
      · rcases ih hu with hmem | ⟨w, hw, rfl⟩
        · exact .inl (List.mem_cons_of_mem _ hmem)
        · exact .inr ⟨w, List.mem_cons_of_mem _ hw, rfl⟩

/-- A comment that is not the last lexeme has its carriage return. -/
theorem comment_of_mem_dropLast {u : Symbol} {ts : List Symbol}
    (hu : u ∈ (returnComments ts).dropLast) (hcomment : u.1 = .comment) :
    ∃ w, (.comment, w) ∈ ts ∧ u = (.comment, w ++ "\r") := by
  fun_induction returnComments ts with
  | case1 => cases hu
  | case2 v => cases hu
  | case3 v v' ts ih =>
      have hne : returnComments (v' :: ts) ≠ [] := by
        cases ts <;> simp [returnComments]
      rw [List.dropLast_cons_of_ne_nil hne] at hu
      rcases List.mem_cons.mp hu with rfl | hu
      · split at hcomment
        · rename_i hv
          rw [if_pos hv]
          exact ⟨v.2, by rw [← hv]; exact List.mem_cons_self, by rw [hv]⟩
        · rename_i hv
          exact absurd hcomment hv
      · obtain ⟨w, hw, rfl⟩ := ih hu
        exact ⟨w, List.mem_cons_of_mem _ hw, rfl⟩

/-- What does not look at the ends of comments is the same for both. -/
theorem map_returnComments {β : Type} {g : Symbol → β}
    (hg : ∀ w, g (.comment, w ++ "\r") = g (.comment, w)) (ts : List Symbol) :
    (returnComments ts).map g = ts.map g := by
  fun_induction returnComments ts with
  | case1 => rfl
  | case2 v => rfl
  | case3 v v' ts ih =>
      rw [List.map_cons, ih, List.map_cons]
      congr 1
      split
      · rename_i hv
        obtain ⟨t, w⟩ := v
        cases hv
        exact hg w
      · rfl

/-! ## Comments of a program

Whether a comment has got a carriage return depends on whether a line feed stands behind it, which it does in a
program. -/

namespace Surface

theorem essentialFrom_sublist (depth : Nat) (named : Bool) (ts : List Symbol) :
    (essentialFrom depth named ts).Sublist ts := by
  fun_induction essentialFrom depth named ts <;> simp_all

theorem ne_comment_of_inline {us : List Symbol} (h : Inline us) : ∀ u ∈ us.getLast?, u.1 ≠ .comment := by
  intro u hu hcomment
  have hends := h u (List.mem_of_mem_getLast? hu)
  rw [hcomment] at hends
  cases hends

/-- A block ends with its brace, and a missing block adds nothing, so that the last lexeme is no comment. -/
theorem Block.getLast?_lexemes (us : List Symbol) (k : Block) (h : Inline us) :
    ∀ u ∈ (us ++ k.lexemes).getLast?, u.1 ≠ .comment := by
  cases k with
  | missing =>
      rw [Block.lexemes, List.append_nil]
      exact ne_comment_of_inline h
  | braces statements span =>
      intro u hu
      rw [Block.lexemes, List.getLast?_append, List.getLast?_append] at hu
      cases hu
      simp

/-- An item ends with a brace, or has no comments. -/
theorem Item.getLast?_lexemes (x : Item) : ∀ u ∈ x.lexemes.getLast?, u.1 ≠ .comment := by
  have hname : ∀ name : Option DeclName, Inline ((name.map fun d => d.name.lexemes).getD []) := by
    intro name
    cases name <;> simp +decide [Name.inline]
  have hparameters : ∀ ps : Option Parameters, Inline (parameterLexemes ps) := by
    intro ps
    cases ps <;> simp +decide [parameterLexemes, Parameters.lexemes, Inline.commas, Name.inline]
  -- only statements hold comments, and they stand between braces
  cases x with
  | directive name value span =>
      apply ne_comment_of_inline
      cases name <;> cases value <;> simp +decide [Item.lexemes, Inline.word]
  | var isList name span =>
      apply ne_comment_of_inline
      simp +decide [Item.lexemes, Spelled.key, endsStatement_keyword, hname]
  | event name parameters body span =>
      apply Block.getLast?_lexemes
      rcases name with _ | _ | _ <;> simp +decide [Spelled.key, EventName.lexeme, hparameters]
  | instruction name parameters body span =>
      apply Block.getLast?_lexemes
      simp +decide [Spelled.key, hname, hparameters]
  | expression name parameters value span =>
      apply ne_comment_of_inline
      simp +decide [Item.lexemes, Spelled.key, hname, hparameters, Expression.inline]
  | block statements span =>
      intro u hu
      rw [Item.lexemes, List.getLast?_append] at hu
      cases hu
      simp

/-- A program does not end with a comment. -/
theorem Program.mem_dropLast_lexemes (p : Program) {u : Symbol} (hu : u ∈ p.lexemes)
    (hcomment : u.1 = .comment) : u ∈ p.lexemes.dropLast := by
  apply List.mem_dropLast_of_mem_of_ne_getLast? hu
  intro hlast
  rw [Program.lexemes, List.getLast?_flatMap] at hlast
  obtain ⟨x, _, hx⟩ := List.exists_of_findSome?_eq_some hlast.symm
  exact Item.getLast?_lexemes x u hx hcomment

end Surface

/-! ## Trees

The trees of both texts differ in the words of comments, which resolving and checking do not look at. -/

/-- Takes carriage returns out of texts and looks at no messages. -/
def Blur.returns : Blur := ⟨fun t => String.ofList (t.toList.filter (· != '\r')), fun _ => "", fun _ _ => rfl⟩

theorem Blur.returns_append (t : String) : returns.text (t ++ "\r") = returns.text t := by
  simp [returns]

/-- A text without carriage returns is as it was when they are taken out. -/
theorem Blur.returns_of_notMem {t : String} (h : '\r' ∉ t.toList) : returns.text t = t := by
  have hfilter : t.toList.filter (· != '\r') = t.toList := by
    rw [List.filter_eq_self]
    intro c hc
    simp only [bne_iff_ne]
    rintro rfl
    exact h hc
  show String.ofList (t.toList.filter (· != '\r')) = t
  rw [hfilter, String.ofList_toList]

/-- The words of a comment with a carriage return, if there are any. -/
def addReturn (words : String) : String := if words = "" then "" else words ++ "\r"

/-- White space before the words of a comment is trimmed, and a carriage return is white space. -/
theorem Surface.commentText_return {w : String} {ds : List Char} (hw : w.toList = '/' :: '/' :: ds) :
    commentText (w ++ "\r") = addReturn (commentText w) := by
  have htext : commentText w = String.ofList (Text.trimStart ds) := by
    rw [commentText, hw]
    rfl
  have hreturn : commentText (w ++ "\r") = String.ofList (Text.trimStart (ds ++ ['\r'])) := by
    rw [commentText, String.toList_append, hw]
    rfl
  rw [htext, hreturn, addReturn, Text.trimStart, Text.trimStart, List.dropWhile_append]
  by_cases hempty : ds.dropWhile Text.isBlank = []
  · rw [hempty]
    rfl
  · rw [if_neg (by simpa using hempty), if_neg (by simpa using hempty), String.ofList_append]

namespace Node

/-- The words of a comment. -/
def words? : Node → Option String
  | comment text _ => some text
  | _ => none

/-- The words of a comment stay as they are. -/
def KeepsWords (f : String → String) (n : Node) : Prop := ∀ text ∈ n.words?, f text = text

instance (f : String → String) : DecidablePred (KeepsWords f) :=
  fun n => inferInstanceAs (Decidable (∀ text ∈ n.words?, f text = text))

theorem keepsWords_clearMetadata (f : String → String) (n : Node) : n.clearMetadata.KeepsWords f ↔ n.KeepsWords f := by
  cases n <;> rfl

/-- Every node keeps its words exactly if every comment does. -/
theorem everywhere_keepsWords_iff {f : String → String} {n : Node} :
    n.Everywhere (KeepsWords f) ↔ ∀ text loc, .comment text loc ∈ n.walk → f text = text := by
  constructor
  · intro h text loc hmem
    exact h _ hmem text rfl
  · intro h m hm text htext
    cases m with
    | comment words loc =>
        obtain rfl := Option.mem_some_iff.mp htext
        exact h _ loc hm
    | _ => cases htext

section Comments

variable {f : String → String}

/-- A tree stays as it is exactly if the words of its comments do. -/
theorem mapComments_eq_self_iff (n : Node) : n.mapComments f = n ↔ n.Everywhere (KeepsWords f) := by
  have hmap : ∀ ns : List Node, ns.map (mapComments f) = ns ↔ ∀ m ∈ ns, m.mapComments f = m := by
    intro ns
    conv_lhs => rw [← List.map_id ns, List.map_map]
    exact List.map_inj_left
  induction n using childInduction with
  | h n ih =>
      have hroot : n.mapComments f = n ↔ n.KeepsWords f ∧ ∀ m ∈ n.children, m.mapComments f = m := by
        cases n <;> simp [mapComments, KeepsWords, words?, children, hmap, or_imp, forall_and]
      rw [hroot, everywhere_iff]
      exact and_congr_right fun _ => forall₂_congr ih

theorem mapComments_id (n : Node) : n.mapComments id = n :=
  (mapComments_eq_self_iff n).mpr (everywhere_keepsWords_iff.mpr fun _ _ _ => rfl)

theorem walk_mapComments (n : Node) : (n.mapComments f).walk = n.walk.map (mapComments f) := by
  refine walk_map (fun n => ?_) n
  cases n <;> simp [mapComments, children]

end Comments

end Node

theorem Globals.ofProgram_mapComments (f : String → String) (vars : List VariableDeclaration) (body : List Node) :
    ofProgram vars (body.map (Node.mapComments f)) = ofProgram vars body := by
  refine ofProgram_map (fun g n => ?_) vars body
  cases n <;> rfl

namespace Scope

variable (s : Scope) (f : String → String)

/-- Comments declare nothing, so behind the changed tree the same is known. -/
@[simp] theorem after_mapComments (n : Node) : s.after (n.mapComments f) = s.after n := by
  have hmeet : ∀ (g : Globals) (n : Node), g.meet (n.mapComments f) = g.meet n := by
    intro g n
    cases n with
    | program _ vars body _ =>
        rw [Node.mapComments, Node.mapCommentsAll_eq_map]
        exact Globals.ofProgram_mapComments f vars body
    | _ => rfl
  simp only [after, Node.walk_mapComments, List.foldl_map, hmeet]

@[simp] theorem afterAll_mapComments (ns : List Node) : s.afterAll (ns.map (Node.mapComments f)) = s.afterAll ns := by
  simp only [afterAll, List.foldl_map, after_mapComments]

@[simp] theorem within_mapComments (vars : List VariableDeclaration) (body : List Node) :
    s.within vars (body.map (Node.mapComments f)) = s.within vars body := by
  rw [within, Globals.ofProgram_mapComments, within]

end Scope

namespace Node

section Complaints

variable {f : String → String}

attribute [local simp] mapComments complaints

mutual

/-- What a comment says is nothing to complain about. -/
theorem complaints_mapComments (s : Scope) : (n : Node) → (n.mapComments f).complaints s = n.complaints s
  | error .. => rfl
  | variableDeclaration _ => rfl
  | comment .. => rfl
  | breakLoop _ => rfl
  | constant .. => rfl
  | program _ _ body _ => by simp [complaintsAll_mapComments _ body]
  | instructionDeclaration _ body => by simp [complaintsAll_mapComments _ body]
  | expressionDeclaration _ value => by simp [complaints_mapComments _ value]
  | event _ body => by simp [complaintsAll_mapComments _ body]
  | detached _ body _ => by simp [complaintsAll_mapComments _ body]
  | instruction _ arguments => by simp [complaintsAll_mapComments _ arguments]
  | assignment _ target value _ => by simp [complaints_mapComments _ target, complaints_mapComments _ value]
  | wait _ condition _ => by simp [complaints_mapComments _ condition]
  | ifElse condition consequent alternative _ => by
      simp [complaints_mapComments _ condition, complaintsAll_mapComments _ consequent,
        complaintsAll_mapComments _ alternative]
  | whileLoop condition body _ => by simp [complaints_mapComments _ condition, complaintsAll_mapComments _ body]
  | forLoop _ first last step body => by
      simp [complaints_mapComments _ first, complaints_mapComments _ last, complaints_mapComments _ step,
        complaintsAll_mapComments _ body]
  | repeatLoop count body _ => by simp [complaints_mapComments _ count, complaintsAll_mapComments _ body]
  | identifier _ arguments => by simp [complaintsAll_mapComments _ arguments]
  | binary _ lhs rhs _ => by simp [complaints_mapComments _ lhs, complaints_mapComments _ rhs]
  | unary _ operand _ => by simp [complaints_mapComments _ operand]
  | conditional condition consequent alternative _ => by
      simp [complaints_mapComments _ condition, complaints_mapComments _ consequent,
        complaints_mapComments _ alternative]

/-- The same for several trees, each in the scope behind the one before it. -/
theorem complaintsAll_mapComments (s : Scope) : (ns : List Node) →
    complaintsAll s (ns.map (mapComments f)) = complaintsAll s ns
  | [] => rfl
  | n :: ns => by
      rw [List.map_cons, complaintsAll, complaintsAll, complaints_mapComments s n, Scope.after_mapComments,
        complaintsAll_mapComments _ ns]

end

end Complaints

end Node

/-! ## Texts with other line ends

The reading of the changed lexemes follows that of the others, by looking away from carriage returns. -/

section LineEnds

variable {s : String}

theorem Spells.ofText (h : (Lexing.ofText s).problems = []) :
    Spells 0 s.toList ((Lexing.ofText s).lexemes.map Lexeme.bare) := by
  intro index start
  have hsame := Lexing.ofPieces_start index (.ofText s) start 0 0 (Piece.ofText s.toList)
  exact ⟨hsame.1, hsame.2.mpr h⟩

/-- The lexemes of a text with other line ends. -/
theorem Lexing.ofText_crlf (h : (Lexing.ofText s).problems = []) :
    (Lexing.ofText (Text.crlf s)).problems = [] ∧ (Lexing.ofText (Text.crlf s)).lexemes.map Lexeme.bare =
      returnComments ((Lexing.ofText s).lexemes.map Lexeme.bare) := by
  obtain ⟨hlexemes, hproblems⟩ := (Spells.ofText h).crlf (.ofText (Text.crlf s)) 0
  rw [← String.toList_ofList (l := crlfChars s.toList)] at hlexemes hproblems
  exact ⟨hproblems, hlexemes⟩

/-- A program that is read without problems keeps its lexemes from the text, in their order. -/
theorem Surface.Program.lexemes_sublist (h : (Program.ofLexemes (Lexing.ofText s).lexemes).problems = []) :
    (Program.ofLexemes (Lexing.ofText s).lexemes).value.lexemes.Sublist
      ((Lexing.ofText s).lexemes.map Lexeme.bare) := by
  rw [(derives_of_ofLexemes (Lexing.canonical_ofText s) h).lexemes_eq]
  exact essentialFrom_sublist 0 false _

/-- A text without carriage returns has nothing to take out. -/
theorem Blur.keeps_returns (hs : '\r' ∉ s.toList) (hlexing : (Lexing.ofText s).problems = [])
    {us : List Symbol} (hus : us.Sublist ((Lexing.ofText s).lexemes.map Lexeme.bare)) : returns.Keeps id us := by
  intro u hu
  have hsame : returns.text u.2 = u.2 := returns_of_notMem ((Spells.ofText hlexing).notMem_text hs u (hus.subset hu))
  split
  · rw [hsame, id]
  · exact hsame

/-- The comments of a program are followed by a line end, so each of them has got a carriage return. -/
theorem Blur.keeps_addReturn (hs : '\r' ∉ s.toList) (hlexing : (Lexing.ofText s).problems = []) {p : Surface.Program}
    (hp : p.lexemes.Sublist (returnComments ((Lexing.ofText s).lexemes.map Lexeme.bare))) :
    returns.Keeps addReturn p.lexemes := by
  have hspells := Spells.ofText hlexing
  have hsame : ∀ v ∈ (Lexing.ofText s).lexemes.map Lexeme.bare, returns.text v.2 = v.2 :=
    fun v hv => returns_of_notMem (hspells.notMem_text hs v hv)
  intro u hu
  split
  · rename_i hcomment
    have hdrop : p.lexemes.dropLast.Sublist (returnComments ((Lexing.ofText s).lexemes.map Lexeme.bare)).dropLast := by
      have htail := hp.reverse.tail
      rwa [List.tail_reverse, List.tail_reverse, List.reverse_sublist] at htail
    have hlast := hdrop.subset (p.mem_dropLast_lexemes hu hcomment)
    obtain ⟨w, hw, rfl⟩ := comment_of_mem_dropLast hlast hcomment
    obtain ⟨ds, hds⟩ := hspells.comment_text hw
    rw [returns_append, hsame _ hw, Surface.commentText_return hds]
  · rename_i hcomment
    rcases mem_returnComments (hp.subset hu) with hmem | ⟨w, _, rfl⟩
    · exact hsame u hmem
    · exact absurd rfl hcomment

/-- The tree of a text with other line ends. -/
theorem treeOfText_crlf (hs : '\r' ∉ s.toList) (h : (treeOfText s).problems = []) :
    (treeOfText (Text.crlf s)).problems = [] ∧ (treeOfText (Text.crlf s)).result.clearMetadata =
      (treeOfText s).result.clearMetadata.mapComments addReturn := by
  obtain ⟨hlexing, hreading⟩ := List.append_eq_nil_iff.mp h
  obtain ⟨hlexing', hbare⟩ := Lexing.ofText_crlf hlexing
  have hblur : blur Blur.returns (Lexing.ofText (Text.crlf s)).lexemes =
      blur Blur.returns (Lexing.ofText s).lexemes := by
    rw [Lexeme.blur_eq, Lexeme.blur_eq, hbare]
    apply map_returnComments
    intro w
    rw [Blur.returns_append]
  obtain ⟨hvalue, hsaid⟩ := Surface.Program.blurs_ofLexemes hblur
  have hreading' : (Surface.Program.ofLexemes (Lexing.ofText (Text.crlf s)).lexemes).problems = [] := by
    rw [hreading] at hsaid
    exact List.map_eq_nil_iff.mp hsaid
  constructor
  · exact List.append_eq_nil_iff.mpr ⟨hlexing', hreading'⟩
  · have hkeeps := Blur.keeps_returns hs hlexing (Surface.Program.lexemes_sublist hreading)
    have hkeeps' := Blur.keeps_addReturn hs hlexing (hbare ▸ Surface.Program.lexemes_sublist hreading')
    have htree := Surface.Program.node_blur hkeeps
    rw [Node.mapComments_id] at htree
    calc (treeOfText (Text.crlf s)).result.clearMetadata
        = (blur Blur.returns (Surface.Program.ofLexemes _).value).node.clearMetadata.mapComments addReturn :=
          Surface.Program.node_blur hkeeps'
      _ = (treeOfText s).result.clearMetadata.mapComments addReturn := by
          rw [hvalue, ← htree]
          rfl

/-- Words stay as they are only if there are none. -/
theorem addReturn_eq_self_iff {words : String} : addReturn words = words ↔ words = "" := by
  constructor
  · intro h
    by_contra hwords
    rw [addReturn, if_neg hwords] at h
    have hlength := congrArg String.length h
    rw [String.length_append] at hlength
    exact absurd hlength (by simp)
  · rintro rfl
    rfl

/-- Validation says the same about the changed text, but for places. -/
theorem problems_crlf (hs : '\r' ∉ s.toList) (h : (treeOfText s).problems = []) :
    (resolvedTreeOfText (Text.crlf s)).problems.map Problem.bare =
      (resolvedTreeOfText s).problems.map Problem.bare := by
  obtain ⟨hproblems, htree⟩ := treeOfText_crlf hs h
  show ((treeOfText (Text.crlf s)).problems ++ _).map Problem.bare = ((treeOfText s).problems ++ _).map Problem.bare
  rw [hproblems, h, List.nil_append, List.nil_append]
  calc (treeOfText (Text.crlf s)).result.problems.map Problem.bare
      = (treeOfText (Text.crlf s)).result.clearMetadata.problems.map Problem.bare :=
        (Node.problems_clearMetadata _).symm
    _ = (treeOfText s).result.clearMetadata.problems.map Problem.bare := by
        rw [htree, Node.problems, Node.complaints_mapComments, Node.problems]
    _ = (treeOfText s).result.problems.map Problem.bare := Node.problems_clearMetadata _

theorem tree_crlf_eq_iff (hs : '\r' ∉ s.toList) (h : (treeOfText s).problems = []) :
    (treeOfText (Text.crlf s)).result.clearMetadata = (treeOfText s).result.clearMetadata ↔
      ∀ text loc, .comment text loc ∈ (treeOfText s).result.walk → text = "" := by
  rw [(treeOfText_crlf hs h).2, Node.mapComments_eq_self_iff,
    Node.everywhere_clearMetadata (Node.keepsWords_clearMetadata addReturn), Node.everywhere_keepsWords_iff]
  simp only [addReturn_eq_self_iff]

/-- **Line ends matter to comments only.** A text that is read without problems is so with carriage returns before its
line feeds too. The tree is then the same except that each comment with words has a carriage return after them, and
validation has the same to say. So the two texts have the same tree and are the same program exactly if no comment in
the tree has words. -/
theorem line_ends_reach_comments (s : String) (hs : '\r' ∉ s.toList) (h : (treeOfText s).problems = []) :
    (treeOfText (Text.crlf s)).problems = [] ∧
    (treeOfText (Text.crlf s)).result.clearMetadata = (treeOfText s).result.clearMetadata.mapComments addReturn ∧
    (resolvedTreeOfText (Text.crlf s)).problems.map Problem.bare = (resolvedTreeOfText s).problems.map Problem.bare ∧
    ((treeOfText (Text.crlf s)).result.clearMetadata = (treeOfText s).result.clearMetadata ∧
      SameProgram (Text.crlf s) s ↔
      ∀ text loc, .comment text loc ∈ (treeOfText s).result.walk → text = "") := by
  obtain ⟨hproblems, htree⟩ := treeOfText_crlf hs h
  have hsame := tree_crlf_eq_iff hs h
  refine ⟨hproblems, htree, problems_crlf hs h, ?_⟩
  constructor
  · rintro ⟨heq, _⟩
    exact hsame.mp heq
  · intro hwords
    exact ⟨hsame.mpr hwords, .of_tree (hsame.mpr hwords) (by rw [hproblems, h])⟩

/-- A comment outside all blocks, one between arguments and one without words in a block reach no tree with words. -/
theorem line_ends_of_call :
    let s := "#program \"p\"\n// outside\nvar n\n\x7b\n  //\n  Launch(n,\n    // between\n    2)\n\x7d\n"
    '\r' ∉ s.toList ∧ (treeOfText s).problems = [] ∧
      (∀ text loc, .comment text loc ∈ (treeOfText s).result.walk → text = "") ∧ SameProgram (Text.crlf s) s := by
  intro s
  have hs : '\r' ∉ s.toList := by
    rw [← Text.chars_eq_toList]
    decide +kernel
  have h : (treeOfText s).problems = [] := by
    rw [treeOfText_eq_chars]
    decide +kernel
  have hwords : ∀ text loc, .comment text loc ∈ (treeOfText s).result.walk → text = "" := by
    have hall : ((treeOfText s).result.walk.all fun n => decide (n.KeepsWords addReturn)) = true := by
      rw [treeOfText_eq_chars]
      decide +kernel
    intro text loc hmem
    have hkeeps : (Node.comment text loc).KeepsWords addReturn := of_decide_eq_true (List.all_eq_true.mp hall _ hmem)
    exact addReturn_eq_self_iff.mp (hkeeps text rfl)
  exact ⟨hs, h, hwords, ((line_ends_reach_comments s hs h).2.2.2.mpr hwords).2⟩

/-- A comment in a block takes the carriage return along, into the tree, the canonical form and the document. -/
theorem line_ends_change_comment :
    let s := "#program \"program\"\n\n\n\x7b\n  // hi\n\x7d\n"
    '\r' ∉ s.toList ∧ (treeOfText s).problems = [] ∧
      (treeOfText (Text.crlf s)).result.clearMetadata ≠ (treeOfText s).result.clearMetadata ∧
      (formatText s).result = s ∧
      (formatText (Text.crlf s)).result = "#program \"program\"\n\n\n\x7b\n  // hi\r\n\x7d\n" ∧
      (documentOfText (Text.crlf s)).result.toOption ≠ (documentOfText s).result.toOption := by
  intro s
  have hcomments : (treeOfText (Text.crlf s)).result.clearMetadata.walk.filterMap Node.words? ≠
      (treeOfText s).result.clearMetadata.walk.filterMap Node.words? := by decide +kernel
  refine ⟨by decide +kernel, by decide +kernel, ?_, by decide +kernel, by decide +kernel, by decide +kernel⟩
  intro heq
  rw [heq] at hcomments
  exact hcomments rfl

end LineEnds

end FlightScript
