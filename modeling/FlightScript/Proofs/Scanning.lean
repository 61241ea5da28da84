import FlightScript.Text.Quoted
import FlightScript.Text.Word
import FlightScript.Token.Scan
import Mathlib.Data.List.TakeWhile

/-!
# `Proofs.Scanning` — which lexemes a text has

A text is cut at its front again and again, so what lexemes it has is said piece by piece: `Spells` relates
characters to lexemes without their places, and each of its lemmas puts one piece in front of a text that is
already understood. What a piece is may depend on the character behind it; `Stops` says that nothing there can
become part of it.

## Contents

* `Piece.next_append`, `Piece.ofText_cons`: pieces make up the text, and cutting goes on behind the first one;
* `Spells`, `Spells.gap`, `Spells.token`;
* `Spells.word`, `Spells.dotted`, `Spells.quoted`, `Spells.numeral`, `Spells.comment`: the pieces that texts are
  written with.
-/

namespace FlightScript

/-! ## Pieces make up a text

Nothing is lost when a text is cut, and something is always cut off, so cutting comes to the end of the text. -/

namespace Scan

theorem run_append (p : Char → Bool) (cs : List Char) : (run p cs).1 ++ (run p cs).2 = cs :=
  List.takeWhile_append_dropWhile

theorem fraction_append (cs : List Char) : (fraction cs).1 ++ (fraction cs).2 = cs := by
  unfold fraction
  repeat' split
  all_goals simp [List.takeWhile_append_dropWhile]

theorem exponent_append (cs : List Char) : (exponent cs).1 ++ (exponent cs).2 = cs := by
  unfold exponent
  repeat' split
  all_goals simp [List.takeWhile_append_dropWhile]

theorem number_append (cs : List Char) : (number cs).1 ++ (number cs).2 = cs := by
  simp only [number, List.append_assoc]
  rw [exponent_append, fraction_append, run_append]

theorem literal_append (quote : Char) (cs : List Char) :
    (literal quote cs).1 ++ (literal quote cs).2.2 = cs := by
  fun_induction literal quote cs with
  | case8 _ _ _ _ _ _ _ r ih => simpa [r] using ih
  | case9 _ _ _ _ _ _ r ih => simpa [r] using ih
  | _ => simp_all

end Scan

namespace Piece

theorem mark_append (c : Char) (one : Token) (second : Char) (two : Token) (cs : List Char) :
    (mark c one second two cs).1.text ++ (mark c one second two cs).2 = c :: cs := by
  fun_cases mark c one second two cs <;> simp

theorem mark_ne_nil (c : Char) (one : Token) (second : Char) (two : Token) (cs : List Char) :
    (mark c one second two cs).1.text ≠ [] := by
  fun_cases mark c one second two cs <;> simp

/-- The first piece and what is left make up the text. -/
theorem next_append (c : Char) (cs : List Char) : (next c cs).1.text ++ (next c cs).2 = c :: cs := by
  fun_cases next c cs
  all_goals
    simp +zetaDelta [mark_append, List.takeWhile_append_dropWhile, Scan.number_append,
      Scan.literal_append, *]

/-- Something is always cut off. -/
theorem next_length (c : Char) (cs : List Char) : (next c cs).2.length ≤ cs.length := by
  have happ := next_append c cs
  have hne : (next c cs).1.text ≠ [] := by
    fun_cases next c cs
    all_goals simp +zetaDelta [mark_ne_nil, Scan.number, Scan.run, Scan.fraction, *]
  have hpos : 0 < (next c cs).1.text.length := List.length_pos_iff.mpr hne
  have hlen := congrArg List.length happ
  simp only [List.length_append, List.length_cons] at hlen
  omega

/-- More steps than characters change nothing. -/
theorem take_of_le {n : Nat} {cs : List Char} (h : cs.length ≤ n) : take n cs = ofText cs := by
  have key : ∀ (k : Nat) (cs : List Char), cs.length ≤ k → ∀ n, cs.length ≤ n → take n cs = take k cs := by
    intro k
    induction k with
    | zero =>
        intro cs hk n _
        have : cs = [] := List.eq_nil_of_length_eq_zero (by omega)
        subst this
        cases n <;> rfl
    | succ k ih =>
        intro cs hk n hn
        match cs, n with
        | [], 0 => rfl
        | [], n + 1 => rfl
        | c :: cs, n + 1 =>
            have hl := next_length c cs
            simp only [List.length_cons] at hk hn
            simp only [take]
            rw [ih _ (by omega) n (by omega)]
  exact key cs.length cs (le_refl _) n h

/-- Behind the first piece cutting goes on with what is left. -/
theorem ofText_cons (c : Char) (cs : List Char) :
    ofText (c :: cs) = (next c cs).1 :: ofText (next c cs).2 := by
  show take (cs.length + 1) (c :: cs) = _
  simp only [take]
  rw [take_of_le (next_length c cs)]

/-- What holds of a text if it holds of what is left behind its first piece holds of every text. -/
theorem cutInduction {motive : List Char → Prop} (nil : motive [])
    (cut : ∀ c cs, motive (next c cs).2 → motive (c :: cs)) (cs : List Char) : motive cs := by
  obtain ⟨n, hn⟩ : ∃ n, cs.length = n := ⟨_, rfl⟩
  induction n using Nat.strong_induction_on generalizing cs with
  | _ n ih =>
      rcases cs with _ | ⟨c, cs⟩
      · exact nil
      · have hle := next_length c cs
        rw [List.length_cons] at hn
        exact cut c cs (ih _ (by omega) _ rfl)

theorem flatMap_text_ofText (cs : List Char) : (ofText cs).flatMap Piece.text = cs := by
  induction cs using cutInduction with
  | nil => rfl
  | cut c cs ih => rw [ofText_cons, List.flatMap_cons, ih, next_append]

end Piece

/-! ## Characters and their lexemes

Two readings of one text differ in places only. So lexemes are compared without them, and the start, the index
and the text around are left open. -/

/-- A symbol of the grammar: a token with its spelling, wherever it stands. -/
abbrev Symbol : Type := Token × String

/-- A lexeme without its place. -/
def Lexeme.bare (l : Lexeme) : Symbol := (l.token, l.text)

/-- Where pieces start, and in which text, changes the places of lexemes and nothing else. -/
theorem Lexing.ofPieces_start (index₁ index₂ : LineIndex) (start₁ start₂ depth : Nat) (ps : List Piece) :
    (ofPieces index₁ start₁ depth ps).lexemes.map Lexeme.bare =
        (ofPieces index₂ start₂ depth ps).lexemes.map Lexeme.bare ∧
      ((ofPieces index₁ start₁ depth ps).problems = [] ↔ (ofPieces index₂ start₂ depth ps).problems = []) := by
  induction ps generalizing start₁ start₂ depth with
  | nil => exact ⟨rfl, Iff.rfl⟩
  | cons p ps ih =>
      obtain ⟨kind, text⟩ := p
      cases kind with
      | gap => exact ih _ _ _
      | unknown => exact ⟨(ih _ _ _).1, by simp [ofPieces]⟩
      | token t =>
          simp only [ofPieces]
          split
          · exact ih _ _ _
          · have hrest := ih (start₁ + Text.byteSize text) (start₂ + Text.byteSize text) (depthAfter depth t)
            simp only [List.map_cons, Lexeme.bare, hrest.1, hrest.2, and_self]

/-- A lexeme is a piece. -/
theorem Lexing.mem_ofPieces {index : LineIndex} {start depth : Nat} {ps : List Piece} {l : Lexeme}
    (h : l ∈ (ofPieces index start depth ps).lexemes) : ⟨.token l.token, l.text.toList⟩ ∈ ps := by
  induction ps generalizing start depth with
  | nil => cases h
  | cons p ps ih =>
      obtain ⟨kind, text⟩ := p
      cases kind with
      | gap => exact .tail _ (ih h)
      | unknown => exact .tail _ (ih h)
      | token t =>
          simp only [ofPieces] at h
          split at h
          · exact .tail _ (ih h)
          · rcases List.mem_cons.mp h with rfl | h
            · rw [String.toList_ofList]
              exact .head _
            · exact .tail _ (ih h)

/-- Inside `depth` open parentheses the characters are these lexemes, and every stretch of them is one. -/
def Spells (depth : Nat) (cs : List Char) (ts : List Symbol) : Prop :=
  ∀ index start, (Lexing.ofPieces index start depth (Piece.ofText cs)).lexemes.map Lexeme.bare = ts ∧
    (Lexing.ofPieces index start depth (Piece.ofText cs)).problems = []

namespace Spells

variable {depth : Nat} {cs rest : List Char} {ts : List Symbol}

theorem nil : Spells depth [] [] := fun _ _ => ⟨rfl, rfl⟩

/-- A token at the front. Inside parentheses line ends and comments are none. -/
theorem token {c : Char} {t : Token} {w : List Char} (hnext : Piece.next c cs = (⟨.token t, w⟩, rest))
    (ht : (Lexing.isLayout t && decide (0 < depth)) = false) (h : Spells (Lexing.depthAfter depth t) rest ts) :
    Spells depth (c :: cs) ((t, String.ofList w) :: ts) := by
  intro index start
  obtain ⟨hl, hp⟩ := h index (start + Text.byteSize w)
  rw [Piece.ofText_cons, hnext]
  simp only [Lexing.ofPieces, ht, Bool.false_eq_true, if_false, List.map_cons, hl, hp, Lexeme.bare,
    and_self]

/-- Blanks at the front count for nothing. -/
theorem of_dropWhile_gap (h : Spells depth (cs.dropWhile Scan.isGap) ts) : Spells depth cs ts := by
  cases cs with
  | nil => exact h
  | cons c cs =>
      by_cases hc : Scan.isGap c = true
      · intro index start
        rw [List.dropWhile_cons_of_pos hc] at h
        have hnext : Piece.next c cs =
            (⟨.gap, c :: cs.takeWhile Scan.isGap⟩, cs.dropWhile Scan.isGap) := by
          simp [Piece.next, hc]
        rw [Piece.ofText_cons, hnext]
        exact h _ _
      · rwa [List.dropWhile_cons_of_neg hc] at h

/-- The lexemes of a text are those of the text without the blanks at its front. -/
theorem dropWhile_gap (h : Spells depth cs ts) : Spells depth (cs.dropWhile Scan.isGap) ts := by
  cases cs with
  | nil => exact h
  | cons c cs =>
      by_cases hc : Scan.isGap c = true
      · rw [List.dropWhile_cons_of_pos hc]
        have hnext : Piece.next c cs =
            (⟨.gap, c :: cs.takeWhile Scan.isGap⟩, cs.dropWhile Scan.isGap) := by
          simp [Piece.next, hc]
        intro index start
        have hs := h index start
        rw [Piece.ofText_cons, hnext] at hs
        have hgo := Lexing.ofPieces_start index index start
          (start + Text.byteSize (c :: cs.takeWhile Scan.isGap)) depth (Piece.ofText (cs.dropWhile Scan.isGap))
        exact ⟨hgo.1.trans hs.1, hgo.2.mpr hs.2⟩
      · rwa [List.dropWhile_cons_of_neg hc]

/-- A blank at the front. -/
theorem gap {c : Char} (hc : Scan.isGap c = true) (h : Spells depth cs ts) : Spells depth (c :: cs) ts := by
  refine of_dropWhile_gap ?_
  rw [List.dropWhile_cons_of_pos hc]
  exact h.dropWhile_gap

theorem space (h : Spells depth cs ts) : Spells depth (' ' :: cs) ts := h.gap (by decide)

/-- The lexemes of a whole text. -/
theorem lexing {text : String} (h : Spells 0 text.toList ts) :
    (Lexing.ofText text).lexemes.map Lexeme.bare = ts ∧ (Lexing.ofText text).problems = [] := h (.ofText text) 0

end Spells

/-! ## What may stand behind a piece

The writer puts one of six characters behind everything it writes, and none of these goes on with a piece. -/

/-- A character that becomes part of no piece before it. -/
def isStop (c : Char) : Bool :=
  c == ' ' || c == '\n' || c == '(' || c == ')' || c == ',' || c == ':'

/-- Nothing behind a piece can become part of it. -/
def Stops (rest : List Char) : Prop := ∀ c ∈ rest.head?, isStop c = true

theorem Stops.nil : Stops [] := by simp [Stops]

theorem Stops.cons {c : Char} {cs : List Char} (h : isStop c = true) : Stops (c :: cs) := by
  simpa [Stops] using h

theorem isStop_cases {c : Char} (h : isStop c = true) :
    c = ' ' ∨ c = '\n' ∨ c = '(' ∨ c = ')' ∨ c = ',' ∨ c = ':' := by
  simpa [isStop, or_assoc] using h

/-- A class without any of the stopping characters takes none of the rest. -/
theorem Stops.takeWhile {rest : List Char} (h : Stops rest) {p : Char → Bool}
    (hp : ∀ c, isStop c = true → p c = false) : rest.takeWhile p = [] ∧ rest.dropWhile p = rest := by
  cases rest with
  | nil => exact ⟨rfl, rfl⟩
  | cons c cs =>
      have hc : p c = false := hp c (h c (by simp))
      simp [hc]

theorem isWordPart_of_isStop {c : Char} (h : isStop c = true) : Scan.isWordPart c = false := by
  rcases isStop_cases h with rfl | rfl | rfl | rfl | rfl | rfl <;> decide

theorem isDigit_of_isStop {c : Char} (h : isStop c = true) : Scan.isDigit c = false := by
  rcases isStop_cases h with rfl | rfl | rfl | rfl | rfl | rfl <;> decide

/-- A run of a class is taken whole and no more. -/
theorem takeWhile_append_stops {p : Char → Bool} {w rest : List Char} (hw : ∀ c ∈ w, p c = true)
    (hr : rest.takeWhile p = [] ∧ rest.dropWhile p = rest) :
    (w ++ rest).takeWhile p = w ∧ (w ++ rest).dropWhile p = rest := by
  rw [List.takeWhile_append_of_pos hw, List.dropWhile_append_of_pos hw, hr.1, hr.2, List.append_nil]
  exact ⟨rfl, rfl⟩

/-! ## Words and names

Whether a name needs quotes is decided by a list of keywords and classes of characters that belong to names. They are the
keywords and classes that a text is cut by, so the two agree on what a word is. -/

namespace Text

/-- The words that names must not begin with are the keywords. -/
theorem keywords_eq : keywords = Keyword.all.map Keyword.text := rfl

theorem contains_keywords (w : String) : keywords.contains w = (Keyword.ofText? w).isSome := by
  rw [keywords_eq, Keyword.ofText?, Bool.eq_iff_iff, List.find?_isSome]
  simp

theorem isNameStart_eq (c : Char) : isNameStart c = Scan.isWordStart c := by
  have hupper : c.isUpper = (decide ('A' ≤ c) && decide (c ≤ 'Z')) := Bool.decide_and _ _
  show (c.isUpper || c.isLower || c == '_') = Scan.isWordStart c
  rw [hupper, Bool.or_comm (_ && _)]
  rfl

theorem isNamePart_eq (c : Char) : isNamePart c = Scan.isWordPart c := by
  rw [Scan.isWordPart, ← isNameStart_eq]
  exact Bool.or_right_comm c.isAlpha c.isDigit (c == '_')

theorem isWord_cons (c : Char) (cs : List Char) :
    isWord (c :: cs) = (Scan.isWordStart c && cs.all Scan.isWordPart) := by
  rw [isWord, isNameStart_eq, funext isNamePart_eq]

/-- A name needs no quotes if it is words joined by dots and the first of them is cut off as a word. -/
theorem isBare_eq (name : String) :
    isBare name = (isDotted name && (Keyword.ofText? (firstWord name)).isNone) := by
  rw [isBare, contains_keywords, Option.not_isSome]

end Text

theorem isGap_of_isWordStart {c : Char} (h : Scan.isWordStart c = true) : Scan.isGap c = false := by
  by_contra hg
  rw [Bool.not_eq_false] at hg
  simp only [Scan.isGap, Bool.or_eq_true, beq_iff_eq] at hg
  rcases hg with ((rfl | rfl) | rfl) | rfl <;> exact absurd h (by decide)

/-- A word is one piece if no further character of a word follows. -/
theorem Piece.next_word {w rest : List Char} (hw : Text.isWord w = true)
    (hr : rest.takeWhile Scan.isWordPart = [] ∧ rest.dropWhile Scan.isWordPart = rest) :
    ∃ c cs, w = c :: cs ∧ Piece.next c (cs ++ rest) = (⟨.token (Piece.wordToken w), w⟩, rest) := by
  cases w with
  | nil => cases hw
  | cons c cs =>
      simp only [Text.isWord_cons, Bool.and_eq_true, List.all_eq_true] at hw
      obtain ⟨ht, hd⟩ := takeWhile_append_stops hw.2 hr
      exact ⟨c, cs, rfl, by simp [Piece.next, isGap_of_isWordStart hw.1, hw.1, ht, hd]⟩

namespace Spells

variable {depth : Nat} {w rest : List Char} {ts : List Symbol}

theorem isLayout_wordToken (w : List Char) : Lexing.isLayout (Piece.wordToken w) = false := by
  unfold Piece.wordToken
  split <;> rfl

theorem depthAfter_wordToken (w : List Char) : Lexing.depthAfter depth (Piece.wordToken w) = depth := by
  unfold Piece.wordToken
  split <;> rfl

/-- A word at the front. -/
theorem word (hw : Text.isWord w = true)
    (hr : rest.takeWhile Scan.isWordPart = [] ∧ rest.dropWhile Scan.isWordPart = rest)
    (h : Spells depth rest ts) :
    Spells depth (w ++ rest) ((Piece.wordToken w, String.ofList w) :: ts) := by
  obtain ⟨c, cs, rfl, hnext⟩ := Piece.next_word hw hr
  exact token hnext (by simp [isLayout_wordToken]) (by rwa [depthAfter_wordToken])

end Spells

/-- Between its parts a text has the character at which it was cut. -/
theorem Text.intercalate_parts (sep : Char) (cs : List Char) : [sep].intercalate (parts sep cs) = cs := by
  induction cs with
  | nil => rfl
  | cons c cs ih =>
      obtain ⟨p, ps, hps⟩ := List.exists_cons_of_ne_nil (parts_ne_nil sep cs)
      unfold parts
      split
      · rename_i hc
        rw [hps] at ih ⊢
        rw [List.intercalate_cons_cons, ih, hc]
        rfl
      · rw [hps] at ih ⊢
        cases ps with
        | nil => simpa using ih
        | cons q ps =>
            rw [List.intercalate_cons_cons] at ih ⊢
            rw [List.cons_append, List.cons_append, ih]

/-- The lexeme of a word. -/
def wordLexeme (w : List Char) : Symbol := (Piece.wordToken w, String.ofList w)

/-- The lexemes of words joined by dots. -/
def dottedLexemes : List (List Char) → List Symbol
  | [] => []
  | [w] => [wordLexeme w]
  | w :: v :: ws => wordLexeme w :: (.dot, ".") :: dottedLexemes (v :: ws)

namespace Spells

variable {depth : Nat} {rest : List Char} {ts : List Symbol}

/-- A dot before a word. -/
theorem dot {c : Char} {cs : List Char} (hc : Scan.isDigit c = false) (h : Spells depth (c :: cs) ts) :
    Spells depth ('.' :: c :: cs) ((.dot, ".") :: ts) := by
  have hnext : Piece.next '.' (c :: cs) = (⟨.token .dot, ['.']⟩, c :: cs) := by
    simp [Piece.next, hc, show Scan.isGap '.' = false by decide,
      show Scan.isWordStart '.' = false by decide, show Scan.isDigit '.' = false by decide]
  exact token hnext rfl h

/-- A character that begins a word is no digit, so that a dot before it does not begin a number. -/
theorem isDigit_of_isWordStart {c : Char} (h : Scan.isWordStart c = true) : Scan.isDigit c = false := by
  by_contra hd
  simp only [Bool.not_eq_false, Scan.isDigit, Bool.and_eq_true, decide_eq_true_eq] at hd
  simp only [Scan.isWordStart, Bool.or_eq_true, Bool.and_eq_true, decide_eq_true_eq,
    beq_iff_eq] at h
  have h9 : c.toNat ≤ 57 := hd.2
  rcases h with (⟨ha, _⟩ | ⟨hA, _⟩) | rfl
  · exact absurd (show 97 ≤ c.toNat from ha) (by omega)
  · exact absurd (show 65 ≤ c.toNat from hA) (by omega)
  · exact absurd hd.2 (by decide)

/-- Words joined by dots at the front. -/
theorem words {ws : List (List Char)} (hws : ∀ w ∈ ws, Text.isWord w = true) (hne : ws ≠ [])
    (hr : rest.takeWhile Scan.isWordPart = [] ∧ rest.dropWhile Scan.isWordPart = rest)
    (h : Spells depth rest ts) :
    Spells depth (['.'].intercalate ws ++ rest) (dottedLexemes ws ++ ts) := by
  induction ws with
  | nil => exact absurd rfl hne
  | cons w ws ih =>
      have hw := hws w List.mem_cons_self
      cases ws with
      | nil =>
          show Spells depth ([w].flatten ++ rest) _
          rw [List.flatten_singleton]
          exact h.word hw hr
      | cons v ws =>
          have hvs : ∀ w ∈ v :: ws, Text.isWord w = true :=
            fun x hx => hws x (List.mem_cons_of_mem _ hx)
          have htail := ih hvs (by simp)
          rw [List.intercalate_cons_cons, List.append_assoc, List.append_assoc]
          obtain ⟨c, cs, hv⟩ : ∃ c cs, ['.'].intercalate (v :: ws) ++ rest = c :: cs ∧
              Scan.isWordStart c = true := by
            have hv := hvs v List.mem_cons_self
            cases v with
            | nil => cases hv
            | cons c cs =>
                simp only [Text.isWord_cons, Bool.and_eq_true] at hv
                cases ws with
                | nil => exact ⟨c, cs ++ rest, by simp [List.intercalate], hv.1⟩
                | cons x xs => exact ⟨c, _, by rw [List.intercalate_cons_cons]; rfl, hv.1⟩
          rw [hv.1] at htail ⊢
          refine word hw ?_ (dot (isDigit_of_isWordStart hv.2) htail)
          exact ⟨rfl, rfl⟩

/-- A name that is words joined by dots at the front. -/
theorem dotted {name : String} (hn : Text.isDotted name = true)
    (hr : rest.takeWhile Scan.isWordPart = [] ∧ rest.dropWhile Scan.isWordPart = rest)
    (h : Spells depth rest ts) :
    Spells depth (name.toList ++ rest) (dottedLexemes (Text.parts '.' name.toList) ++ ts) := by
  have hws : ∀ w ∈ Text.parts '.' name.toList, Text.isWord w = true := by
    simpa [Text.isDotted] using hn
  have hsp := words hws (Text.parts_ne_nil _ _) hr h
  rwa [Text.intercalate_parts] at hsp

end Spells

/-! ## Literals

A literal ends at its own quote, so nothing behind it matters. -/

/-- Reading a written literal takes exactly what was written. -/
theorem Scan.literal_escape {quote : Char} (hq : quote = '\x22' ∨ quote = '\x27') (cs rest : List Char) :
    Scan.literal quote (Text.Quoted.escape quote cs ++ quote :: rest) =
      (Text.Quoted.escape quote cs ++ [quote], true, rest) := by
  have hqb : quote ≠ '\\' := by rcases hq with rfl | rfl <;> decide
  induction cs with
  | nil =>
      show Scan.literal quote (quote :: rest) = _
      cases rest <;> simp [Scan.literal, Text.Quoted.escape]
  | cons c cs ih =>
      -- a character is written as itself or as a backslash and one other, and neither ends the literal
      have hone : ∀ d : Char, d ≠ quote → d ≠ '\\' → d ≠ '\n' → Scan.literal quote
          (d :: (Text.Quoted.escape quote cs ++ quote :: rest)) =
            (d :: (Text.Quoted.escape quote cs ++ [quote]), true, rest) := by
        intro d h₁ h₂ h₃
        obtain ⟨e, es, he⟩ := List.exists_cons_of_ne_nil
          (show Text.Quoted.escape quote cs ++ quote :: rest ≠ [] by simp)
        rw [he] at ih ⊢
        simp [Scan.literal, h₁, h₂, h₃, ih]
      have htwo : ∀ d : Char, d ≠ '\n' → Scan.literal quote
          ('\\' :: d :: (Text.Quoted.escape quote cs ++ quote :: rest)) =
            ('\\' :: d :: (Text.Quoted.escape quote cs ++ [quote]), true, rest) := by
        intro d h₃
        simp [Scan.literal, hqb.symm, h₃, ih]
      have hq' : c = quote → c ≠ '\n' := by
        rintro rfl
        rcases hq with rfl | rfl <;> decide
      have hstep : Text.Quoted.escape quote (c :: cs) =
          Text.Quoted.escapeChar quote c ++ Text.Quoted.escape quote cs := rfl
      rw [hstep]
      fun_cases Text.Quoted.escapeChar quote c with
      | case1 _ => exact htwo 't' (by decide)
      | case2 _ _ => exact htwo 'r' (by decide)
      | case3 _ _ _ => exact htwo 'n' (by decide)
      | case4 _ _ _ _ => exact htwo '\\' (by decide)
      | case5 _ _ _ _ hc => exact htwo c (hq' hc)
      | case6 _ _ hn hb hc => exact hone c hc hb hn

theorem Text.Quoted.delimiter_cases (cs : List Char) :
    Text.Quoted.delimiter cs = '\x22' ∨ Text.Quoted.delimiter cs = '\x27' := by
  unfold delimiter
  split
  · exact .inr rfl
  · exact .inl rfl

/-- Reading the content of a written literal gives the text back. -/
theorem Text.Quoted.unescape_escape {quote : Char} (hq : quote = '\x22' ∨ quote = '\x27')
    (cs : List Char) : unescape (escape quote cs) = cs := by
  induction cs with
  | nil => rfl
  | cons c cs ih =>
      have hone : ∀ d : Char, d ≠ '\\' → unescape (d :: escape quote cs) = d :: cs := by
        intro d hd
        cases he : escape quote cs with
        | nil =>
            rw [he] at ih
            rw [← ih]
            rfl
        | cons e es => rw [unescape, if_neg hd, ← he, ih]
      have htwo : ∀ d e : Char, escaped? d = some e →
          unescape ('\\' :: d :: escape quote cs) = e :: cs := by
        intro d e hd
        simp [unescape, hd, ih]
      have hstep : escape quote (c :: cs) = escapeChar quote c ++ escape quote cs := rfl
      rw [hstep]
      fun_cases escapeChar quote c with
      | case1 hc => exact hc ▸ htwo 't' '\t' rfl
      | case2 _ hc => exact hc ▸ htwo 'r' '\r' rfl
      | case3 _ _ hc => exact hc ▸ htwo 'n' '\n' rfl
      | case4 _ _ _ hc => exact hc ▸ htwo '\\' '\\' rfl
      | case5 _ _ _ _ hc =>
          subst hc
          rcases hq with rfl | rfl
          · exact htwo _ _ rfl
          · exact htwo _ _ rfl
      | case6 _ _ _ hb _ => exact hone c hb

/-- The value of a written literal is the text that was written. -/
@[simp] theorem Text.Quoted.value_write (s : String) : value (write s) = s := by
  have hq := delimiter_cases s.toList
  simp [value, write, unescape_escape hq]

/-- A written literal is one piece, whatever stands behind it. -/
theorem Piece.next_quoted (text : String) (rest : List Char) :
    ∃ c cs, (Text.Quoted.write text).toList = c :: cs ∧
      Piece.next c (cs ++ rest) = (⟨.token .string, (Text.Quoted.write text).toList⟩, rest) := by
  have hq := Text.Quoted.delimiter_cases text.toList
  have hlit := Scan.literal_escape hq text.toList rest
  have hwrite : (Text.Quoted.write text).toList = Text.Quoted.delimiter text.toList ::
      (Text.Quoted.escape (Text.Quoted.delimiter text.toList) text.toList ++
        [Text.Quoted.delimiter text.toList]) := by simp [Text.Quoted.write]
  refine ⟨_, _, hwrite, ?_⟩
  rw [hwrite, List.append_assoc]
  generalize Text.Quoted.delimiter text.toList = quote at hq hlit ⊢
  rcases hq with rfl | rfl
  · simp [Piece.next, hlit, show Scan.isGap '\x22' = false by decide,
      show Scan.isWordStart '\x22' = false by decide, show Scan.isDigit '\x22' = false by decide]
  · simp [Piece.next, hlit, show Scan.isGap '\x27' = false by decide,
      show Scan.isWordStart '\x27' = false by decide, show Scan.isDigit '\x27' = false by decide]

namespace Spells

variable {depth : Nat} {rest : List Char} {ts : List Symbol}

/-- A text between quotes at the front. -/
theorem quoted (text : String) (h : Spells depth rest ts) :
    Spells depth ((Text.Quoted.write text).toList ++ rest) ((.string, Text.Quoted.write text) :: ts) := by
  obtain ⟨c, cs, hwrite, hnext⟩ := Piece.next_quoted text rest
  have htok := token hnext rfl h
  rw [String.ofList_toList] at htok
  rwa [hwrite, List.cons_append]

end Spells

/-! ## Numbers

A number takes digits, a dot and an exponent as far as they go. A stopping character is none of these. -/

/-- A whole number literal without a sign: it begins as a number does and nothing is left of it. -/
structure Numeral (cs : List Char) : Prop where
  start : ∃ c ds, cs = c :: ds ∧
    (Scan.isDigit c = true ∨ c = '.' ∧ ∃ d es, ds = d :: es ∧ Scan.isDigit d = true)
  whole : Scan.number cs = (cs, [])

/-- Behind a text that goes on with a stopping character, a class takes what it takes of the text alone. -/
theorem Stops.run_append {rest : List Char} (h : Stops rest) {p : Char → Bool}
    (hp : ∀ c, isStop c = true → p c = false) (cs : List Char) :
    (cs ++ rest).takeWhile p = cs.takeWhile p ∧ (cs ++ rest).dropWhile p = cs.dropWhile p ++ rest := by
  induction cs with
  | nil => simpa using h.takeWhile hp
  | cons c cs ih =>
      by_cases hc : p c = true
      · simp [hc, ih.1, ih.2]
      · simp [hc]

namespace Scan

/-- A stopping character changes nothing about the fraction before it. -/
theorem fraction_append_stops {rest : List Char} (h : Stops rest) (cs : List Char) :
    fraction (cs ++ rest) = ((fraction cs).1, (fraction cs).2 ++ rest) := by
  cases cs with
  | nil =>
      cases rest with
      | nil => rfl
      | cons c cs =>
          have hc : (c == '.') = false := by
            rcases isStop_cases (h c (by simp)) with rfl | rfl | rfl | rfl | rfl | rfl <;> decide
          simp [fraction, hc]
  | cons c cs =>
      have hrun := h.run_append (fun _ => isDigit_of_isStop) cs
      by_cases hc : (c == '.') = true
      · simp [fraction, hc, hrun.1, hrun.2]
      · simp [fraction, hc]

/-- A stopping character changes nothing about the exponent before it. The cases are those of the definition: no
letter, a letter with or without a sign, and digits behind it or none. -/
theorem exponent_append_stops {rest : List Char} (h : Stops rest) (cs : List Char) :
    exponent (cs ++ rest) = ((exponent cs).1, (exponent cs).2 ++ rest) := by
  match cs with
  | [] =>
      cases rest with
      | nil => rfl
      | cons c cs =>
          have hc : (c == 'e' || c == 'E') = false := by
            rcases isStop_cases (h c (by simp)) with rfl | rfl | rfl | rfl | rfl | rfl <;> decide
          simp [exponent, hc]
  | [e] =>
      by_cases he : (e == 'e' || e == 'E') = true
      · cases rest with
        | nil => simp [exponent]
        | cons c cs =>
            have hc : (c == '+' || c == '-') = false ∧ isDigit c = false := by
              rcases isStop_cases (h c (by simp)) with rfl | rfl | rfl | rfl | rfl | rfl <;> decide
            simp [exponent, he, hc.1, hc.2]
      · simp [exponent, he]
  | e :: c :: ds =>
      have hrun := h.run_append (fun _ => isDigit_of_isStop) ds
      by_cases he : (e == 'e' || e == 'E') = true
      · by_cases hs : (c == '+' || c == '-') = true
        · by_cases hd : (ds.takeWhile isDigit).isEmpty = true
          · simp [exponent, he, hs, hrun.1, hd]
          · simp [exponent, he, hs, hrun.1, hrun.2, hd]
        · by_cases hc : isDigit c = true
          · simp [exponent, he, hs, hc, hrun.1, hrun.2]
          · simp [exponent, he, hs, hc]
      · simp [exponent, he]

/-- A stopping character changes nothing about the number before it. -/
theorem number_append_stops {rest : List Char} (h : Stops rest) (cs : List Char) :
    number (cs ++ rest) = ((number cs).1, (number cs).2 ++ rest) := by
  have hrun := h.run_append (fun _ => isDigit_of_isStop) cs
  simp only [number, run, hrun.1, hrun.2, fraction_append_stops h, exponent_append_stops h]

end Scan

/-- A numeral is one piece if it stops. -/
theorem Piece.next_numeral {cs rest : List Char} (hc : Numeral cs) (hr : Stops rest) :
    ∃ c ds, cs = c :: ds ∧ Piece.next c (ds ++ rest) = (⟨.token .number, cs⟩, rest) := by
  obtain ⟨c, ds, rfl, hstart⟩ := hc.start
  have hnum : Scan.number (c :: (ds ++ rest)) = (c :: ds, rest) := by
    rw [← List.cons_append, Scan.number_append_stops hr, hc.whole]
    rfl
  refine ⟨c, ds, rfl, ?_⟩
  rcases hstart with hd | ⟨rfl, d, es, rfl, hd⟩
  · have hg : Scan.isGap c = false := by
      by_contra hg
      rw [Bool.not_eq_false] at hg
      simp only [Scan.isGap, Bool.or_eq_true, beq_iff_eq] at hg
      rcases hg with ((rfl | rfl) | rfl) | rfl <;> exact absurd hd (by decide)
    have hw : Scan.isWordStart c = false := by
      by_contra hw
      rw [Bool.not_eq_false] at hw
      rw [Spells.isDigit_of_isWordStart hw] at hd
      exact absurd hd (by decide)
    simp [Piece.next, hg, hw, hd, hnum]
  · simp only [List.cons_append] at hnum
    simp [Piece.next, show Scan.isGap '.' = false by decide,
      show Scan.isWordStart '.' = false by decide, show Scan.isDigit '.' = false by decide, hd, hnum]

namespace Spells

variable {depth : Nat} {rest : List Char} {ts : List Symbol}

/-- A number at the front. -/
theorem numeral {cs : List Char} (hc : Numeral cs) (hr : Stops rest) (h : Spells depth rest ts) :
    Spells depth (cs ++ rest) ((.number, String.ofList cs) :: ts) := by
  obtain ⟨c, ds, rfl, hnext⟩ := Piece.next_numeral hc hr
  exact token hnext rfl h

/-! ## Marks, line ends and comments -/

theorem leftParen (h : Spells (depth + 1) rest ts) : Spells depth ('(' :: rest) ((.leftParen, "(") :: ts) :=
  token rfl rfl h

theorem rightParen (h : Spells depth rest ts) :
    Spells (depth + 1) (')' :: rest) ((.rightParen, ")") :: ts) :=
  token rfl rfl h

theorem leftBrace (h : Spells depth rest ts) :
    Spells depth ('\x7b' :: rest) ((.leftBrace, "\x7b") :: ts) :=
  token rfl rfl h

theorem rightBrace (h : Spells depth rest ts) :
    Spells depth ('\x7d' :: rest) ((.rightBrace, "\x7d") :: ts) :=
  token rfl rfl h

theorem comma (h : Spells depth rest ts) : Spells depth (',' :: rest) ((.comma, ",") :: ts) :=
  token rfl rfl h

theorem colon (h : Spells depth rest ts) : Spells depth (':' :: rest) ((.colon, ":") :: ts) :=
  token rfl rfl h

theorem hash (h : Spells depth rest ts) : Spells depth ('#' :: rest) ((.hash, "#") :: ts) :=
  token rfl rfl h

theorem minus (h : Spells depth rest ts) : Spells depth ('-' :: rest) ((.minus, "-") :: ts) :=
  token rfl rfl h

theorem newline (h : Spells 0 rest ts) : Spells 0 ('\n' :: rest) ((.newline, "\n") :: ts) :=
  token rfl rfl h

/-- A comment up to the end of its line. -/
theorem comment {text : List Char} (ht : '\n' ∉ text) (h : Spells 0 ('\n' :: rest) ts) :
    Spells 0 ('/' :: '/' :: (text ++ '\n' :: rest)) ((.comment, String.ofList ('/' :: '/' :: text)) :: ts) := by
  have htake : ∀ c ∈ text, (c != '\n') = true := by
    intro c hc
    simpa using fun he : c = '\n' => ht (he ▸ hc)
  have hnext : Piece.next '/' ('/' :: (text ++ '\n' :: rest)) =
      (⟨.token .comment, '/' :: '/' :: text⟩, '\n' :: rest) := by
    simp [Piece.next, List.takeWhile_append_of_pos htake, List.dropWhile_append_of_pos htake,
      show Scan.isGap '/' = false by decide, show Scan.isWordStart '/' = false by decide,
      show Scan.isDigit '/' = false by decide]
  exact token hnext rfl h

end Spells

end FlightScript
