import FlightScript.Node.Render
import FlightScript.Proofs.Legible

/-!
# `Proofs.Spelling` — the lexemes of canonical texts

The canonical text of a tree is put together from names, constants, marks and words of its parts. `Spelled` says
which lexemes a part of a text has wherever it stands: whatever comes behind it, as long as that stops the last
piece. It is closed under the ways in which parts are put together, so the lexemes of a text are found along the
way in which it is written.

## Contents

* `Spelled` and its composition: `Spelled.append`, `Spelled.spaced`, `Spelled.grouped`, `Spelled.parenthesized`;
* the lexemes of words, names, constants and operators;
* `Spelled.line`, `Spelled.directive`: what stands on lines of its own.
-/

namespace FlightScript

/-- Inside `depth` open parentheses a text has these lexemes, whatever stands behind it and stops it. -/
def Spelled (depth : Nat) (text : String) (ts : List Symbol) : Prop :=
  ∀ rest us, Stops rest → Spells depth rest us → Spells depth (text.toList ++ rest) (ts ++ us)

/-- A text that may stand right behind another one. -/
theorem Stops.append {cs rest : List Char} (h : Stops cs) (hr : Stops rest) : Stops (cs ++ rest) := by
  cases cs with
  | nil => exact hr
  | cons c cs => exact h

namespace Spelled

variable {depth : Nat} {a b : String} {ts us : List Symbol}

/-! ## Putting texts together

A text stops its last piece where a character follows that cannot belong to it. Blanks, line ends, parentheses,
commas and colons stop everything, so the parts of a canonical text can be looked at one by one. -/

theorem empty : Spelled depth "" [] := fun _ _ _ h => h

/-- The lexemes of two texts one behind the other, if the second one stops the first. -/
theorem append (ha : Spelled depth a ts) (hb : Spelled depth b us) (hstop : Stops b.toList) :
    Spelled depth (a ++ b) (ts ++ us) := by
  intro rest vs hrest h
  rw [String.toList_append, List.append_assoc, List.append_assoc]
  exact ha _ _ (hstop.append hrest) (hb _ _ hrest h)

/-- A blank counts for nothing. -/
theorem space (h : Spelled depth a ts) : Spelled depth (" " ++ a) ts := by
  intro rest vs hrest hs
  simpa using (h rest vs hrest hs).space

theorem stops_space (a : String) : Stops (" " ++ a).toList := by
  simp [Stops, isStop]

/-- Two texts with a blank between them. -/
theorem spaced (ha : Spelled depth a ts) (hb : Spelled depth b us) :
    Spelled depth (a ++ " " ++ b) (ts ++ us) := by
  rw [String.append_assoc]
  exact ha.append hb.space (stops_space b)

theorem indent (d : Nat) (h : Spelled depth a ts) : Spelled depth (Text.indent d ++ a) ts := by
  induction d with
  | zero => simpa [Text.indent] using h
  | succ d ih =>
      rw [Text.indent, String.append_assoc]
      simpa [← String.append_assoc] using ih.space.space

/-- A text in parentheses. -/
theorem grouped (h : Spelled (depth + 1) a ts) :
    Spelled depth ("(" ++ a ++ ")") ((.leftParen, "(") :: ts ++ [(.rightParen, ")")]) := by
  intro rest vs _ hs
  have hclose : Stops (')' :: rest) := Stops.cons (by decide)
  have htext : ("(" ++ a ++ ")").toList ++ rest = '(' :: (a.toList ++ ')' :: rest) := by simp
  rw [htext, List.append_assoc]
  exact (h _ _ hclose hs.rightParen).leftParen

/-- The lexemes of items with commas between them. -/
def commas : List (List Symbol) → List Symbol
  | [] => []
  | [ts] => ts
  | ts :: us :: rest => ts ++ (.comma, ",") :: commas (us :: rest)

theorem mem_commas {u : Symbol} {tss : List (List Symbol)} :
    u ∈ commas tss → u = (.comma, ",") ∨ ∃ ts ∈ tss, u ∈ ts := by
  fun_induction commas tss <;> grind

theorem mem_commas_of_mem {u : Symbol} {ts : List Symbol} {tss : List (List Symbol)}
    (hts : ts ∈ tss) (hu : u ∈ ts) : u ∈ commas tss := by
  fun_induction commas tss <;> grind

/-- The lexemes of texts with commas between them, by induction over the texts. A comma stops whatever stands
before it. -/
theorem intercalate {items : List String} {tss : List (List Symbol)}
    (h : List.Forall₂ (Spelled depth) items tss) : Spelled depth (", ".intercalate items) (commas tss) := by
  induction h with
  | nil => exact empty
  | cons h hs ih =>
      cases hs with
      | nil => simpa [commas, String.intercalate_singleton] using h
      | @cons b us items tss hb hs =>
          rw [String.intercalate_cons_cons, String.append_assoc]
          refine h.append ?_ (by simp [Stops, isStop])
          intro rest vs hrest hv
          simpa using (ih rest vs hrest hv).space.comma

/-- The lexemes of items in parentheses, none for no item. -/
def arguments (tss : List (List Symbol)) : List Symbol :=
  if tss.isEmpty then [] else (.leftParen, "(") :: commas tss ++ [(.rightParen, ")")]

theorem parenthesized {items : List String} {tss : List (List Symbol)}
    (h : List.Forall₂ (Spelled (depth + 1)) items tss) :
    Spelled depth (Render.parenthesized items) (arguments tss) := by
  cases h with
  | nil => exact empty
  | cons h hs => exact (intercalate (.cons h hs)).grouped

theorem stops_parenthesized (items : List String) : Stops (Render.parenthesized items).toList := by
  cases items with
  | nil => exact Stops.nil
  | cons a items =>
      simp [Render.parenthesized, Stops, isStop]

/-! ## Words and names -/

/-- Words with dots between them are one lexeme for each word and each dot. -/
theorem dotted {name : String} (h : Text.isDotted name = true) :
    Spelled depth name (dottedLexemes (Text.parts '.' name.toList)) := by
  intro rest vs hrest hs
  exact hs.dotted h (hrest.takeWhile fun _ => isWordPart_of_isStop)

/-- A written string literal is one lexeme: its quotes and escapes keep everything inside of it. -/
theorem quoted (text : String) : Spelled depth (Text.Quoted.write text) [(.string, Text.Quoted.write text)] := by
  intro rest vs _ hs
  exact hs.quoted text

theorem isWord_text (k : Keyword) : Text.isWord k.text.toList = true := by cases k <;> decide

theorem wordToken_text (k : Keyword) : Piece.wordToken k.text.toList = .keyword k := by cases k <;> decide

/-- The lexeme of a keyword. -/
def key (k : Keyword) : Symbol := (.keyword k, k.text)

theorem keyword (k : Keyword) : Spelled depth k.text [key k] := by
  intro rest vs hrest hs
  have hword := hs.word (isWord_text k) (hrest.takeWhile fun _ => isWordPart_of_isStop)
  rwa [wordToken_text, String.ofList_toList] at hword

/-- A text behind a keyword and a blank. -/
theorem lead {text : String} (k : Keyword) (htext : text = k.text ++ " ") (h : Spelled depth a ts) :
    Spelled depth (text ++ a) (key k :: ts) := by
  rw [htext]
  exact (keyword k).spaced h

/-- A text behind a keyword and a dot. -/
theorem qualified {text : String} (k : Keyword) (htext : text = k.text ++ ".") {c : Char} {cs : List Char}
    (ha : a.toList = c :: cs) (hc : Scan.isDigit c = false) (h : Spelled depth a ts) :
    Spelled depth (text ++ a) (key k :: (.dot, ".") :: ts) := by
  intro rest vs hrest hs
  have hdot : Spells depth ('.' :: (a.toList ++ rest)) ((.dot, ".") :: (ts ++ vs)) := by
    have hmember := h rest vs hrest hs
    rw [ha, List.cons_append] at hmember ⊢
    exact Spells.dot hc hmember
  have hword := hdot.word (isWord_text k) ⟨rfl, rfl⟩
  rw [wordToken_text, String.ofList_toList] at hword
  simpa [htext, key] using hword

/-- The lexemes of a name where keywords are not allowed. -/
def name (s : String) : List Symbol :=
  if Text.isBare s then dottedLexemes (Text.parts '.' s.toList) else [(.string, Text.Quoted.write s)]

/-- The lexemes of a name where keywords are allowed. -/
def member (s : String) : List Symbol :=
  if Text.isDotted s then dottedLexemes (Text.parts '.' s.toList) else [(.string, Text.Quoted.write s)]

theorem isDotted_of_isBare {s : String} (h : Text.isBare s = true) : Text.isDotted s = true := by
  simp only [Text.isBare, Bool.and_eq_true] at h
  exact h.1

theorem renderName (s : String) : Spelled depth (Render.name s) (name s) := by
  unfold Render.name name
  split
  · exact dotted (isDotted_of_isBare ‹_›)
  · exact quoted s

/-- The printer writes a name behind a qualifier so that it has the lexemes of a member, where keywords may
stand. -/
theorem renderMember (s : String) : Spelled depth (Render.member s) (member s) := by
  unfold Render.member member
  split
  · exact dotted ‹_›
  · exact quoted s

/-- Words joined by dots begin with no digit. -/
theorem dotted_start {s : String} (hd : Text.isDotted s = true) :
    ∃ c cs, s.toList = c :: cs ∧ Scan.isDigit c = false := by
  obtain ⟨w, ws, hws⟩ := List.exists_cons_of_ne_nil (Text.parts_ne_nil '.' s.toList)
  have hw : Text.isWord w = true := by
    simp only [Text.isDotted, hws, List.all_cons, Bool.and_eq_true] at hd
    exact hd.1
  have hs := Text.intercalate_parts '.' s.toList
  rw [hws] at hs
  cases w with
  | nil => cases hw
  | cons c cs =>
      simp only [Text.isWord_cons, Bool.and_eq_true] at hw
      have hc := Spells.isDigit_of_isWordStart hw.1
      cases ws with
      | nil => exact ⟨c, cs, by simpa using hs.symm, hc⟩
      | cons v ws =>
          rw [List.intercalate_cons_cons] at hs
          exact ⟨c, _, hs.symm, hc⟩

theorem quoted_start (s : String) :
    ∃ c cs, (Text.Quoted.write s).toList = c :: cs ∧ Scan.isDigit c = false := by
  refine ⟨Text.Quoted.delimiter s.toList, _, by simp [Text.Quoted.write]; rfl, ?_⟩
  rcases Text.Quoted.delimiter_cases s.toList with hq | hq <;> rw [hq] <;> decide

/-- A name behind a qualifier begins with no digit, so the dot before it is not taken for a fraction. -/
theorem member_start (s : String) :
    ∃ c cs, (Render.member s).toList = c :: cs ∧ Scan.isDigit c = false := by
  unfold Render.member
  split
  · exact dotted_start ‹_›
  · exact quoted_start s

theorem name_start (s : String) :
    ∃ c cs, (Render.name s).toList = c :: cs ∧ Scan.isDigit c = false := by
  unfold Render.name
  split
  · exact dotted_start (isDotted_of_isBare ‹_›)
  · exact quoted_start s

/-! ## Constants and operators

Signs are lexemes of their own: a negative number is two of them, and it is the reading that puts them together.
-/

theorem numeral {s : String} (h : Numeral s.toList) : Spelled depth s [(.number, s)] := by
  intro rest vs hrest hs
  simpa using hs.numeral h hrest

theorem negative {s : String} {cs : List Char} (hs : s.toList = '-' :: cs) (h : Numeral cs) :
    Spelled depth s [(.minus, "-"), (.number, String.ofList cs)] := by
  intro rest vs hrest hv
  rw [hs]
  exact (hv.numeral h hrest).minus

end Spelled

/-- The class of the spelling of an operator. -/
def Operator.token : Operator → Token
  | add => .plus
  | subtract => .minus
  | multiply => .star
  | divide => .slash
  | remainder => .percent
  | power => .caret
  | equal => .equal
  | greater => .greater
  | greaterEqual => .greaterEqual
  | less => .less
  | lessEqual => .lessEqual
  | and => .keyword .and
  | or => .keyword .or

/-- The class of the spelling of an assignment. -/
def AssignOperator.token : AssignOperator → Token
  | set => .assign
  | change => .plusAssign

namespace Spelled

variable {depth : Nat} {a b : String} {ts us : List Symbol}

/-- Each operator is spelt by the lexeme of its token. What stops a text does not lengthen a mark, so `<` is not
taken for the beginning of `<=`. -/
theorem operator (o : Operator) : Spelled depth o.spelling [(o.token, o.spelling)] := by
  intro rest vs hrest hs
  -- only a second mark could extend the first one, and a stopping character is none
  have hmark : ∀ (c : Char) (one : Token) (d : Char) (two : Token), isStop d = false →
      Piece.mark c one d two rest = (⟨.token one, [c]⟩, rest) := by
    intro c one d two hd
    cases rest with
    | nil => rfl
    | cons e es =>
        have he : (e == d) = false := by
          have := hrest e (by simp)
          by_contra hne
          rw [Bool.not_eq_false, beq_iff_eq] at hne
          rw [hne, hd] at this
          exact absurd this (by decide)
        simp [Piece.mark, he]
  cases o with
  | and => exact keyword .and rest vs hrest hs
  | or => exact keyword .or rest vs hrest hs
  | divide =>
      have hnext : Piece.next '/' rest = (⟨.token .slash, ['/']⟩, rest) := by
        cases rest with
        | nil => rfl
        | cons e es =>
            have he := hrest e (by simp)
            rcases isStop_cases he with rfl | rfl | rfl | rfl | rfl | rfl <;> rfl
      exact Spells.token hnext rfl hs
  | add => exact Spells.token (hmark '+' .plus '=' .plusAssign rfl) rfl hs
  | greater => exact Spells.token (hmark '>' .greater '=' .greaterEqual rfl) rfl hs
  | less => exact Spells.token (hmark '<' .less '=' .lessEqual rfl) rfl hs
  | subtract => exact Spells.token rfl rfl hs
  | multiply => exact Spells.token rfl rfl hs
  | remainder => exact Spells.token rfl rfl hs
  | power => exact Spells.token rfl rfl hs
  | equal => exact Spells.token rfl rfl hs
  | greaterEqual => exact Spells.token rfl rfl hs
  | lessEqual => exact Spells.token rfl rfl hs

/-- Both signs of assignments are spelt by the lexemes of their tokens. -/
theorem assignOperator (o : AssignOperator) : Spelled depth o.text [(o.token, o.text)] := by
  intro rest vs hrest hs
  cases o with
  | set =>
      have hnext : Piece.next '=' rest = (⟨.token .assign, ['=']⟩, rest) := by
        cases rest with
        | nil => rfl
        | cons e es =>
            have he := hrest e (by simp)
            rcases isStop_cases he with rfl | rfl | rfl | rfl | rfl | rfl <;> rfl
      exact Spells.token hnext rfl hs
  | change => exact Spells.token rfl rfl hs

end Spelled

/-! ## Lines

A comment goes up to the end of its line, so what has comments in it is spelt only before a line end. `Line` is
`Spelled` with that restriction. -/

/-- A text has these lexemes if a line end stands behind it. -/
def Line (text : String) (ts : List Symbol) : Prop :=
  ∀ rest us, Spells 0 ('\n' :: rest) us → Spells 0 (text.toList ++ '\n' :: rest) (ts ++ us)

theorem Spelled.line {a : String} {ts : List Symbol} (h : Spelled 0 a ts) : Line a ts :=
  fun rest us hs => h ('\n' :: rest) us (Stops.cons (by decide)) hs

namespace Line

variable {a b : String} {ts us : List Symbol}

theorem append (ha : Spelled 0 a ts) (hb : Line b us) (hstop : Stops b.toList) :
    Line (a ++ b) (ts ++ us) := by
  intro rest vs hs
  rw [String.toList_append, List.append_assoc, List.append_assoc]
  exact ha _ _ (hstop.append (Stops.cons (by decide))) (hb _ _ hs)

theorem space (h : Line a ts) : Line (" " ++ a) ts := by
  intro rest vs hs
  simpa using (h rest vs hs).space

theorem newline (h : Line a ts) : Line ("\n" ++ a) ((.newline, "\n") :: ts) := by
  intro rest vs hs
  simpa using (h rest vs hs).newline

theorem indent (d : Nat) (h : Line a ts) : Line (Text.indent d ++ a) ts := by
  induction d with
  | zero => simpa [Text.indent] using h
  | succ d ih =>
      intro rest vs hs
      simpa [Text.indent] using (ih rest vs hs).space.space

/-- The line of a comment is one lexeme, if its words hold no line end. They may begin or end with anything. -/
theorem comment {text : String} (h : '\n' ∉ text.toList) :
    Line ("// " ++ Render.commentLine text) [(.comment, "// " ++ text)] := by
  have hline : Render.commentLine text = text := by
    have hmap : (text.toList.flatMap fun c => if c = '\n' then ['\\', 'n'] else [c]) = text.toList := by
      rw [List.flatMap_congr (g := fun c => [c])]
      · simp
      · intro c hc
        rw [if_neg]
        rintro rfl
        exact h hc
    rw [Render.commentLine, hmap, String.ofList_toList]
  intro rest vs hs
  have hspace : '\n' ∉ ' ' :: text.toList := by simpa using h
  have hlex : String.ofList ('/' :: '/' :: ' ' :: text.toList) = "// " ++ text := by
    rw [← String.toList_inj]
    simp
  have hc := Spells.comment hspace hs
  rw [hlex] at hc
  simpa [hline] using hc

/-- Lines one below the other. -/
theorem below (ha : Line a ts) (hb : Line b us) (hstart : b = "" ∨ ∃ b', b = "\n" ++ b') :
    Line (a ++ b) (ts ++ us) := by
  intro rest vs hs
  have htail := hb rest vs hs
  rw [String.toList_append, List.append_assoc, List.append_assoc]
  rcases hstart with rfl | ⟨b', rfl⟩
  · exact ha _ _ htail
  · rw [String.toList_append] at htail ⊢
    exact ha _ _ htail

end Line

/-- The text of a block: lines between braces. -/
def blockText (depth : Nat) (lines : String) : String :=
  "\x7b" ++ lines ++ "\n" ++ Text.indent depth ++ "\x7d"

/-- The lexemes of a block. -/
def blockLexemes (ts : List Symbol) : List Symbol :=
  (.leftBrace, "\x7b") :: ts ++ [(.newline, "\n"), (.rightBrace, "\x7d")]

/-- The lexemes of a block are braces around the lexemes of its lines. The closing brace is on a line of its own.
-/
theorem Spelled.block {lines : String} {ts : List Symbol} (h : Line lines ts) (d : Nat) :
    Spelled 0 (blockText d lines) (blockLexemes ts) := by
  intro rest vs hrest hs
  have hclose : Spelled 0 (Text.indent d ++ "\x7d") [(.rightBrace, "\x7d")] :=
    Spelled.indent d fun rest us _ h => h.rightBrace
  have hlines := (h _ _ (hclose rest vs hrest hs).newline).leftBrace
  have htext : (blockText d lines).toList ++ rest =
      '\x7b' :: (lines.toList ++ '\n' :: ((Text.indent d ++ "\x7d").toList ++ rest)) := by
    simp [blockText]
  rw [htext]
  simpa [blockLexemes] using hlines

end FlightScript
