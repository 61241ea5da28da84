import FlightScript.Proofs.CallFormat
import FlightScript.Proofs.Cuts
import FlightScript.Proofs.Recovery

/-!
# `Proofs.NameText` — literals and names read back

A text between quotes is one lexeme and stands for the text. A name is written as it is where that is read as the
name, and between quotes everywhere else. The writer looks at the characters of a name and at the keywords, and the
reader at lexemes and the dots between them; both come to the same.

## Contents

* `literal_reads_back`: a written literal is one lexeme on one line, and its value is the text;
* `Lexing.length_lexemes_le`: the lexemes of a text are no longer than the text;
* `ReadsText.isBare`, `ReadsText.isDotted`: only names that need no quotes are read without them;
* `names_read_back`.
-/

namespace FlightScript

/-! ## Literals

The writer chooses the quote and escapes what would end the literal, so that reading takes exactly what was
written. -/

/-- Without a line feed a text stays on its line. -/
theorem Location.after_of_notMem (l : Location) {cs : List Char} (h : '\n' ∉ cs) :
    l.after cs = ⟨l.line, l.column + cs.length⟩ := by
  induction cs generalizing l with
  | nil => rfl
  | cons c cs ih =>
      rw [List.mem_cons, not_or] at h
      rw [after_cons, ih _ h.2, advance, if_neg (Ne.symm h.1), List.length_cons, Nat.add_assoc, Nat.add_comm 1]

namespace Text.Quoted

/-- A line feed is written as two other characters. -/
theorem newline_notMem_write (text : String) : '\n' ∉ (write text).toList := by
  have hquote : '\n' ≠ delimiter text.toList := by
    rcases delimiter_cases text.toList with h | h <;> rw [h] <;> decide
  have hescape : '\n' ∉ escape (delimiter text.toList) text.toList := by
    rw [escape, List.mem_flatMap]
    rintro ⟨c, -, hc⟩
    revert hc
    fun_cases escapeChar (delimiter text.toList) c with
    | case6 _ _ hn _ _ => simpa using Ne.symm hn
    | case5 _ _ hn _ _ => simpa using Ne.symm hn
    | _ => decide
  simp [write, hquote, hescape]

/-- Reading the content of a literal adds nothing. -/
theorem length_unescape_le (cs : List Char) : (unescape cs).length ≤ cs.length := by
  fun_induction unescape cs with
  | case1 => simp
  | case2 => simp
  | case3 => simp; omega
  | case4 => simp; omega
  | case5 => simp; omega

theorem length_value_le (literal : String) : (value literal).length ≤ literal.length - 2 := by
  have h := length_unescape_le (literal.toList.drop 1).dropLast
  simp only [List.length_dropLast, List.length_drop, String.length_toList] at h
  simp only [value, String.length_ofList]
  omega

end Text.Quoted

/-- **A written literal reads back.** It is one lexeme that covers the whole text, on one line, nothing is wrong with
it, and its value is the text that was written. -/
theorem literal_reads_back (text : String) :
    Lexing.ofText (Text.Quoted.write text) =
        ⟨[⟨.string, Text.Quoted.write text, ⟨⟨1, 1⟩, ⟨1, 1 + (Text.Quoted.write text).length⟩⟩⟩], []⟩ ∧
      Text.Quoted.value (Text.Quoted.write text) = text := by
  refine ⟨?_, Text.Quoted.value_write text⟩
  obtain ⟨c, cs, hwrite, hnext⟩ := Piece.next_quoted text []
  have hpieces : Piece.ofText (Text.Quoted.write text).toList =
      [⟨.token .string, (Text.Quoted.write text).toList⟩] := by
    rw [List.append_nil] at hnext
    rw [hwrite, Piece.ofText_cons, hnext, hwrite]
    rfl
  have hstop : Location.origin.after (Text.Quoted.write text).toList = ⟨1, 1 + (Text.Quoted.write text).length⟩ := by
    rw [Location.after_of_notMem _ (Text.Quoted.newline_notMem_write text), String.length_toList]
    rfl
  rw [Lexing.ofText_eq_walk, hpieces]
  simp only [Lexing.walk, hstop, String.ofList_toList]
  rfl

/-! ## The lexemes of a text

What is known of the pieces of a text is used for a text that is read whole. -/

section Lexemes

variable {text : String} {t : Token} {w : String}

/-- A text that matches the pattern of a keyword or of a word is a word. -/
theorem Token.Matches.isWord {cs : List Char} (h : t.Matches cs) (ht : t.isWordLike = true) :
    Text.isWord cs = true := by
  cases h with
  | word hw => exact hw
  | fixed hs =>
      cases t with
      | keyword k => cases hs; exact Spelled.isWord_text k
      | word => cases hs
      | _ => cases ht
  | _ => cases ht

/-- A literal has its two quotes. -/
theorem Token.Matches.two_le_length {cs : List Char} (h : Token.Matches .string cs) : 2 ≤ cs.length := by
  cases h with
  | fixed hs => cases hs
  | string _ _ => simp

/-- The lexemes of a text are no longer than the text. -/
theorem Lexing.length_lexemes_le (text : String) :
    (((Lexing.ofText text).lexemes.map Lexeme.bare).flatMap fun u => u.2.toList).length ≤ text.length := by
  have hpieces : ∀ (index : LineIndex) (ps : List Piece) (start depth : Nat),
      (((Lexing.ofPieces index start depth ps).lexemes.map Lexeme.bare).flatMap fun u => u.2.toList).length ≤
        (ps.flatMap Piece.text).length := by
    intro index ps
    induction ps with
    | nil => intro start depth; exact Nat.zero_le _
    | cons p ps ih =>
        intro start depth
        obtain ⟨kind, w⟩ := p
        rw [List.flatMap_cons, List.length_append]
        cases kind with
        | gap => exact Nat.le_add_left_of_le (ih _ _)
        | unknown => exact Nat.le_add_left_of_le (ih _ _)
        | token t =>
            -- layout between parentheses is left out, any other lexeme has the text of its piece
            simp only [Lexing.ofPieces]
            split
            · exact Nat.le_add_left_of_le (ih _ _)
            · rw [List.map_cons, List.flatMap_cons, List.length_append]
              exact Nat.add_le_add (by simp [Lexeme.bare]) (ih _ _)
  have h := hpieces (.ofText text) (Piece.ofText text.toList) 0 0
  rwa [Piece.flatMap_text_ofText, String.length_toList] at h

end Lexemes

/-! ## Names without quotes

The converse: whatever is read as a name without quotes is a name that needs none. -/

/-- What is read is a declared name, and it is this one. -/
def Surface.Declares (name : String) (o : Option DeclName) : Prop := ∃ d, o = some d ∧ d.name.value = name

/-- What is read is a use of this name with this qualifier. -/
def Surface.Mentions (q : Qualifier) (name : String) (o : Option Reference) : Prop :=
  ∃ r, o = some r ∧ r.qualifier = some q ∧ r.value = name

/-- Texts without a character are the parts of what they make up with it between them. -/
theorem Text.parts_intercalate {sep : Char} {ws : List (List Char)} (hne : ws ≠ []) (h : ∀ w ∈ ws, sep ∉ w) :
    parts sep ([sep].intercalate ws) = ws := by
  induction ws with
  | nil => exact absurd rfl hne
  | cons w ws ih =>
      have hw := h w List.mem_cons_self
      cases ws with
      | nil => simpa using parts_of_notMem hw
      | cons v ws =>
          rw [List.intercalate_cons_cons, List.append_assoc, List.singleton_append,
            CallFormat.parts_append_cons hw, ih (by simp) fun x hx => h x (List.mem_cons_of_mem _ hx)]

theorem Text.dot_notMem_of_isWord {w : List Char} (h : isWord w = true) : '.' ∉ w := by
  cases w with
  | nil => simp
  | cons c cs =>
      simp only [isWord_cons, Bool.and_eq_true, List.all_eq_true] at h
      intro hdot
      rcases List.mem_cons.mp hdot with rfl | hdot
      · exact absurd h.1 (by decide)
      · exact absurd (h.2 _ hdot) (by decide)

section Words

variable {d : Surface.Dotted}

/-- The words of a dotted name are its parts. -/
theorem Surface.Dotted.parts_text (h : ∀ w ∈ d.first :: d.more, Text.isWord w.toList = true) :
    Text.parts '.' d.text.toList = d.first.toList :: d.more.map String.toList := by
  rw [Dotted.toList_text]
  refine Text.parts_intercalate (by simp) fun w hw => ?_
  obtain ⟨v, hv, rfl⟩ := List.mem_map.mp (show w ∈ (d.first :: d.more).map String.toList from hw)
  exact Text.dot_notMem_of_isWord (h v hv)

theorem Surface.Dotted.isDotted_text (h : ∀ w ∈ d.first :: d.more, Text.isWord w.toList = true) :
    Text.isDotted d.text = true := by
  rw [Text.isDotted, parts_text h, List.all_eq_true]
  intro w hw
  obtain ⟨v, hv, rfl⟩ := List.mem_map.mp (show w ∈ (d.first :: d.more).map String.toList from hw)
  exact h v hv

/-- What stands in a text as the words of a name are words. -/
theorem Surface.Dotted.isWord_of_lexemes {text : String}
    (h : ∀ u ∈ (Name.words d).memberLexemes, u ∈ (Lexing.ofText text).lexemes.map Lexeme.bare) :
    ∀ w ∈ d.first :: d.more, Text.isWord w.toList = true := by
  intro w hw
  have hmem : wordLexeme w.toList ∈ (Name.words d).memberLexemes := by
    rcases List.mem_cons.mp hw with rfl | hw
    · exact .head _
    · exact .tail _ (List.mem_flatMap.mpr ⟨w.toList, List.mem_map_of_mem hw, by simp⟩)
  have hmatch := Lexing.matches_ofText (h _ hmem)
  rw [String.toList_ofList] at hmatch
  exact hmatch.isWord (isWordLike_wordToken _)

end Words

/-- A literal is longer than the text it stands for, so that no name is the literal that it is read as. -/
theorem Text.Quoted.value_ne_of_lexemes {lead name literal : String} {ts : List Symbol}
    (h : (Lexing.ofText (lead ++ name)).lexemes.map Lexeme.bare = ts ++ [(.string, literal)])
    (hts : (ts.flatMap fun u => u.2.toList) = lead.toList) : value literal ≠ name := by
  rintro rfl
  have hmem : (.string, literal) ∈ (Lexing.ofText (lead ++ value literal)).lexemes.map Lexeme.bare := by
    rw [h]
    simp
  have hliteral := (Lexing.matches_ofText hmem).two_le_length
  have hvalue := length_value_le literal
  have hle := Lexing.length_lexemes_le (lead ++ value literal)
  rw [h, List.flatMap_append, hts, List.flatMap_singleton, List.length_append, String.length_append] at hle
  simp only [String.length_toList] at hle hliteral
  omega

/-- Only a bare name is read as a declared name without quotes. -/
theorem ReadsText.isBare {name : String} (h : ReadsText Parse.declName name (Surface.Declares name)) :
    Text.isBare name = true := by
  obtain ⟨d, hd, hvalue⟩ := h.value
  obtain ⟨_, hd', hlexemes⟩ := h.consumes Consumes.declName
  obtain rfl := Option.some.inj (hd.symm.trans hd')
  obtain ⟨words | literal, span⟩ := d
  · have hfirst : (Token.word, words.first) ∈ (Lexing.ofText name).lexemes.map Lexeme.bare := by
      rw [hlexemes]
      exact .head _
    -- the class of the first lexeme says that it is no keyword
    have hword : wordLexeme words.first.toList = (.word, words.first) := by
      obtain ⟨l, hl, heq⟩ := List.mem_map.mp hfirst
      exact (heq ▸ Lexing.canonical_ofText name l hl).word rfl
    have hmember : (Lexing.ofText name).lexemes.map Lexeme.bare = (Surface.Name.words words).memberLexemes := by
      rw [hlexemes, Surface.Name.memberLexemes, hword]
      rfl
    have hwords := words.isWord_of_lexemes fun u hu => hmember ▸ hu
    have hkeyword : Keyword.ofText? words.first = none := by
      have htoken := congrArg Prod.fst hword
      rw [wordLexeme, Piece.wordToken, String.ofList_toList] at htoken
      cases hk : Keyword.ofText? words.first with
      | none => rfl
      | some k => simp [hk] at htoken
    rw [← show words.text = name from hvalue, Text.isBare_eq, Surface.Dotted.isDotted_text hwords, Text.firstWord,
      Surface.Dotted.parts_text hwords, List.headD_cons, String.ofList_toList, hkeyword]
    rfl
  · -- a name with quotes around it is read as something shorter
    have hliteral : (Lexing.ofText ("" ++ name)).lexemes.map Lexeme.bare = [] ++ [(.string, literal)] := by
      rw [String.empty_append, hlexemes]
      rfl
    exact absurd hvalue (Text.Quoted.value_ne_of_lexemes hliteral rfl)

/-- Only a dotted name is read behind a qualifier without quotes. -/
theorem ReadsText.isDotted {q : Surface.Qualifier} {name : String}
    (h : ReadsText Parse.reference (q.keyword.text ++ "." ++ name) (Surface.Mentions q name)) :
    Text.isDotted name = true := by
  obtain ⟨r, hr, hq, hvalue⟩ := h.value
  obtain ⟨_, hr', hwhole, hlexemes⟩ := h.consumes Consumes.reference
  obtain rfl := Option.some.inj (hr.symm.trans hr')
  obtain ⟨_, _ | words | literal, span⟩ := r <;> cases hq
  · exact hwhole.elim
  · have hmember : ∀ u ∈ (Surface.Name.words words).memberLexemes,
        u ∈ (Lexing.ofText (q.keyword.text ++ "." ++ name)).lexemes.map Lexeme.bare := by
      intro u hu
      rw [hlexemes]
      exact .tail _ (.tail _ hu)
    rw [← show words.text = name from hvalue]
    exact Surface.Dotted.isDotted_text (words.isWord_of_lexemes hmember)
  · have hliteral : (Lexing.ofText (q.keyword.text ++ "." ++ name)).lexemes.map Lexeme.bare =
        [Spelled.key q.keyword, (.dot, ".")] ++ [(.string, literal)] := hlexemes
    exact absurd hvalue (Text.Quoted.value_ne_of_lexemes hliteral (by simp [Spelled.key]))

/-! ## Names

Both directions together, for the two places at which a name can stand. -/

/-- The text of a reference is read whole as that reference. -/
theorem WritesReference.readsText {text : String} {P : Surface.Reference → Prop} (h : WritesReference text P) :
    ReadsText Parse.reference text fun o => ∃ r, o = some r ∧ P r := by
  obtain ⟨t, w, us, hspelled, -, hreads⟩ := h
  have hwhole := hreads [] (by simp)
  rw [List.append_nil] at hwhole
  exact .of_spelled (hspelled 0) hwhole

/-- **Names read back.** Where a name is declared or stands behind a qualifier, its text is read without a problem and
to the end as that name; and it has quotes only if it is not so read without them. -/
theorem names_read_back (name : String) :
    ReadsText Parse.declName (Render.name name) (Surface.Declares name) ∧
    (∀ q : Surface.Qualifier,
      ReadsText Parse.reference (q.keyword.text ++ "." ++ Render.member name) (Surface.Mentions q name) ∧
      ReadsText Parse.reference (q.keyword.text ++ "." ++ Render.name name) (Surface.Mentions q name)) ∧
    (Text.isBare name = true ↔ ReadsText Parse.declName name (Surface.Declares name)) ∧
    ∀ q : Surface.Qualifier, Text.isDotted name = true ↔
      ReadsText Parse.reference (q.keyword.text ++ "." ++ name) (Surface.Mentions q name) := by
  have hdeclared : ReadsText Parse.declName (Render.name name) (Surface.Declares name) := by
    have hreads : Reads Parse.declName (Spelled.name name ++ []) [] (Surface.Declares name) :=
      .declName name (by simp)
    rw [List.append_nil] at hreads
    exact .of_spelled (.renderName name) hreads
  have hmember (q : Surface.Qualifier) :
      ReadsText Parse.reference (q.keyword.text ++ "." ++ Render.member name) (Surface.Mentions q name) :=
    (writesReference_qualified q rfl (fun _ => .renderMember name) (Spelled.member_start name)
      (Surface.Name.exists_member name _) fun r hq hr => ⟨hq, hr⟩).readsText
  have hname (q : Surface.Qualifier) :
      ReadsText Parse.reference (q.keyword.text ++ "." ++ Render.name name) (Surface.Mentions q name) :=
    (writesReference_qualified q rfl (fun _ => .renderName name) (Spelled.name_start name)
      (Surface.Name.exists_member name _) fun r hq hr => ⟨hq, hr⟩).readsText
  refine ⟨hdeclared, fun q => ⟨hmember q, hname q⟩, ⟨fun hbare => ?_, ReadsText.isBare⟩,
    fun q => ⟨fun hdotted => ?_, ReadsText.isDotted⟩⟩
  · -- such a name is its own text
    rwa [Render.name, if_pos hbare] at hdeclared
  · have hplain := hmember q
    rwa [Render.member, if_pos hdotted] at hplain

end FlightScript
