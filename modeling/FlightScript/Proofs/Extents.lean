import FlightScript.Proofs.Bytes
import FlightScript.Proofs.Cuts
import FlightScript.Proofs.ProgramParts

/-!
# `Proofs.Extents` — how far the parts of a program extend

The span of a part runs from the start of the first lexeme taken for it to the end of the last one, with one exception.
A header that no block follows is looked past for a brace, over line ends, and these are given back; but the end of the
last read lexeme stays behind them. So a headed part that does not end with a brace reaches over the line ends that
come next.

## Contents

* `InOrder`: the lexemes of a text lie one behind the other;
* `Span.Covers`, `Surface.Part.ReadFrom`, `Surface.Part.Overhangs`;
* `Surface.Program.covers_iff`: which parts have the span of their lexemes, and which span the others have.
-/

namespace FlightScript

/-! ## Lexemes of a text

The lexemes of a text are cut off one behind the other, so their spans are in order. Lexemes that are put
together by hand need not be. -/

namespace Location

variable {a b c : Location}

theorem before_of_not_before (hba : b.before a = false) (hbc : b.before c = true) : a.before c = true := by
  simp only [before, Bool.or_eq_true, Bool.and_eq_true, decide_eq_true_eq, Bool.or_eq_false_iff,
    Bool.and_eq_false_iff, decide_eq_false_iff_not] at *
  omega

theorem not_before_of_before (h : a.before b = true) : b.before a = false := by
  cases hba : b.before a with
  | false => rfl
  | true =>
      have hself := before_trans h hba
      rw [not_before_self] at hself
      cases hself

theorem later_of_before (h : b.before a = true) : a.later b = a := by
  rw [later, not_before_of_before h]
  rfl

end Location

/-- Lexemes that lie one behind the other: none is empty, and none begins before an earlier one has ended. -/
structure InOrder (ls : List Lexeme) : Prop where
  nonempty : ∀ l ∈ ls, l.span.start.before l.span.stop = true
  pairwise : ls.Pairwise fun a b => b.span.start.before a.span.stop = false

namespace InOrder

variable {ls ms : List Lexeme} {a b : Lexeme}

theorem of_sublist (h : InOrder ms) (hsub : ls.Sublist ms) : InOrder ls :=
  ⟨fun l hl => h.nonempty l (hsub.subset hl), h.pairwise.sublist hsub⟩

theorem not_before (h : InOrder (ls ++ ms)) (ha : a ∈ ls) (hb : b ∈ ms) : b.span.start.before a.span.stop = false :=
  (List.pairwise_append.mp h.pairwise).2.2 a ha b hb

/-- Later lexemes end later. -/
theorem stop_before (h : InOrder (ls ++ ms)) (ha : a ∈ ls) (hb : b ∈ ms) :
    a.span.stop.before b.span.stop = true :=
  Location.before_of_not_before (h.not_before ha hb) (h.nonempty b (List.mem_append_right _ hb))

/-- The first lexeme starts before the last one ends. -/
theorem start_before (h : InOrder ls) (ha : ls.head? = some a) (hb : ls.getLast? = some b) :
    a.span.start.before b.span.stop = true := by
  obtain ⟨ls, rfl⟩ := List.head?_eq_some_iff.mp ha
  have hnonempty := h.nonempty a List.mem_cons_self
  rcases List.mem_cons.mp (List.mem_of_getLast? hb) with rfl | hmem
  · exact hnonempty
  · have happend : InOrder ([a] ++ ls) := h
    exact Location.before_trans hnonempty (happend.stop_before List.mem_cons_self hmem)

end InOrder

/-- **The lexemes of a text lie one behind the other.** They are some of the stretches that the text is cut into.
These lie side by side and are not empty, and a later offset is a later place. -/
theorem Lexing.inOrder (source : String) : InOrder (Lexing.ofText source).lexemes := by
  have hadjacent := Cut.adjacent_ofText source.toList
  rw [Lexing.ofText_eq_cuts]
  refine ⟨fun l hl => ?_, ?_⟩
  · obtain ⟨cut, hcut, hl⟩ := List.mem_filterMap.mp hl
    obtain ⟨_, hlt, hstop⟩ := hadjacent.bounds cut hcut
    rw [(Cut.text_of_lexeme? hl).2]
    exact Location.before_ofOffset hlt hstop
  · refine List.pairwise_filterMap.mpr (hadjacent.pairwise.imp_of_mem fun {x y} hx hy hxy => ?_)
    intro a ha b hb
    rw [(Cut.text_of_lexeme? ha).2, (Cut.text_of_lexeme? hb).2]
    have hbounds := hadjacent.bounds y hy
    rcases Nat.eq_or_lt_of_le hxy with heq | hlt
    · show (Location.ofOffset _ y.start).before (.ofOffset _ x.stop) = false
      rw [heq]
      exact Location.not_before_self _
    · exact Location.not_before_of_before (Location.before_ofOffset hlt (by omega))

/-! ## Spans of parts

What is known of the cursors that a part was read between is turned into a statement about lexemes. -/

/-- A span runs from the start of the first of some lexemes to the end of the last. -/
def Span.Covers (span : Span) (ls : List Lexeme) : Prop :=
  ∃ first last, ls.head? = some first ∧ ls.getLast? = some last ∧ span = ⟨first.span.start, last.span.stop⟩

namespace Surface.Part

/-- A part was read, somewhere in the lexemes of a text, from the lexemes `taken`, with `rest` still to read. -/
def ReadFrom (x : Part) (lexemes taken rest : List Lexeme) : Prop :=
  ∃ c d, x.ReadBy c d ∧ c.rest = taken ++ rest ∧ d.rest = rest ∧ taken ++ rest <:+ lexemes

/-- A headed part does not end with a closing brace, and a line end is still to read. -/
def Overhangs (x : Part) (taken rest : List Lexeme) : Prop :=
  x.isHeaded = true ∧ taken.getLast?.map Lexeme.token ≠ some .rightBrace ∧ rest.head?.map Lexeme.token = some .newline

instance (x : Part) (taken rest : List Lexeme) : Decidable (x.Overhangs taken rest) :=
  inferInstanceAs (Decidable (_ ∧ _ ∧ _))

end Surface.Part

open Surface

theorem lastStop_of_getLast? {ls : List Lexeme} {last : Lexeme} (h : ls.getLast? = some last) (start : Location) :
    lastStop start ls = last.span.stop := by
  obtain ⟨front, rfl⟩ := List.getLast?_eq_some_iff.mp h
  rw [lastStop_append]
  rfl

variable {x : Part} {taken rest lexemes : List Lexeme}

/-- What a part overhangs: the line ends that come next. -/
theorem overhang_eq_of_overhangs (h : x.Overhangs taken rest) :
    Cursor.overhang x.isHeaded taken rest = rest.takeWhile Lexeme.isNewline := if_pos ⟨h.1, h.2.1⟩

/-- A part that does not overhang has nothing between its last lexeme and its end. -/
theorem overhang_eq_nil (h : ¬ x.Overhangs taken rest) : Cursor.overhang x.isHeaded taken rest = [] := by
  unfold Cursor.overhang
  split
  · rename_i hopen
    cases rest with
    | nil => rfl
    | cons l ls =>
        have hl : ¬ l.isNewline = true := fun hl => h ⟨hopen.1, hopen.2, congrArg some (beq_iff_eq.mp hl)⟩
        exact List.takeWhile_cons_of_neg hl
  · rfl

theorem overhang_append (headed : Bool) (taken rest : List Lexeme) :
    ∃ more, rest = Cursor.overhang headed taken rest ++ more := by
  unfold Cursor.overhang
  split
  · exact ⟨_, List.takeWhile_append_dropWhile.symm⟩
  · exact ⟨rest, rfl⟩

/-- **The span of a part covers the lexemes taken for it** together with those that it overhangs. -/
theorem covers_of_located {c : Cursor} (h : x.Located c) (horder : InOrder c.rest) :
    ∃ taken rest span, x.ReadFrom c.rest taken rest ∧ taken ≠ [] ∧ x.span? = some span ∧
      span.Covers (taken ++ Cursor.overhang x.isHeaded taken rest) := by
  obtain ⟨b, d, hsuffix, hread, ⟨taken, hne, hrest, hlast⟩, ⟨start, stop⟩, hspan, rfl, hstop⟩ := h
  refine ⟨taken, d.rest, _, ⟨b, d, hread, hrest, rfl, hrest ▸ hsuffix⟩, hne, hspan, ?_⟩
  obtain ⟨first, front, rfl⟩ := List.exists_cons_of_ne_nil hne
  -- the end of the last read lexeme belongs to the last of those taken and overhung together
  generalize hall : first :: front ++ Cursor.overhang x.isHeaded (first :: front) d.rest = all at hlast
  have hhead : all.head? = some first := by
    rw [← hall]
    rfl
  obtain ⟨last, hgetLast⟩ : ∃ last, all.getLast? = some last :=
    ⟨_, List.getLast?_eq_some_getLast (by rw [← hall]; simp)⟩
  have hinOrder : InOrder all := by
    obtain ⟨more, hmore⟩ := overhang_append x.isHeaded (first :: front) d.rest
    have hsplit : b.rest = all ++ more := by
      rw [hrest, ← hall, List.append_assoc, ← hmore]
    exact (horder.of_sublist hsuffix.sublist).of_sublist (hsplit ▸ List.sublist_append_left all more)
  have hbegin : b.start = first.span.start := by
    rw [Cursor.start, hrest]
    rfl
  have hend : d.lastEnd = last.span.stop := hlast.trans (lastStop_of_getLast? hgetLast _)
  -- the end is later than the start, so it makes no difference that the later of the two is taken
  have hlater := Location.later_of_before (hinOrder.start_before hhead hgetLast)
  refine ⟨first, last, hhead, hgetLast, ?_⟩
  rcases hstop with hstop | hstop
  · rw [hbegin, show stop = d.lastEnd from hstop, hend]
  · rw [show stop = d.lastEnd.later b.start from hstop, hbegin, hend, hlater]

/-- A span that covers the lexemes taken reaches over none of the others. -/
theorem Span.Covers.not_before {span : Span} (h : span.Covers taken) (horder : InOrder (taken ++ rest)) :
    ∀ l ∈ rest, l.span.start.before span.stop = false := by
  obtain ⟨first, last, _, hlast, rfl⟩ := h
  exact fun l hl => horder.not_before (List.mem_of_getLast? hlast) hl

/-- A span that covers the line ends which come next reaches over the first of them. -/
theorem Span.Covers.exists_before {span : Span} (h : span.Covers (taken ++ rest.takeWhile Lexeme.isNewline))
    (horder : InOrder (taken ++ rest)) (hline : rest.head?.map Lexeme.token = some .newline) :
    ∃ l ∈ rest, l.span.start.before span.stop = true := by
  obtain ⟨line, hhead, hnewline⟩ := Option.map_eq_some_iff.mp hline
  obtain ⟨others, rfl⟩ := List.head?_eq_some_iff.mp hhead
  have hlines : (line :: others).takeWhile Lexeme.isNewline = line :: others.takeWhile Lexeme.isNewline :=
    List.takeWhile_cons_of_pos (beq_iff_eq.mpr hnewline)
  obtain ⟨first, last, _, hlast, rfl⟩ := h
  obtain ⟨k, hk⟩ : ∃ k, (line :: others.takeWhile Lexeme.isNewline).getLast? = some k :=
    ⟨_, List.getLast?_eq_some_getLast (by simp)⟩
  rw [hlines, List.getLast?_append, hk, Option.some_or] at hlast
  cases hlast
  have hsublist : (line :: others.takeWhile Lexeme.isNewline).Sublist (taken ++ line :: others) := by
    rw [← hlines]
    exact (List.takeWhile_sublist _).trans (List.sublist_append_right _ _)
  exact ⟨line, List.mem_cons_self, (horder.of_sublist hsublist).start_before rfl hk⟩

/-- **Which parts have the span of their lexemes.** Every part was read from some lexemes of the text. Its span runs from
the start of the first of them to the end of the last, and reaches over no lexeme still to read, unless the part has a
header, does not end with a closing brace, and a line end comes next; then it reaches to the end of the line ends. -/
theorem Surface.Program.covers_iff (source : String) (x : Part) (hx : x ∈ (Program.ofText source).1.parts) :
    ∃ taken rest span, x.ReadFrom (Lexing.ofText source).lexemes taken rest ∧ taken ≠ [] ∧ x.span? = some span ∧
      (span.Covers taken ↔ ¬ x.Overhangs taken rest) ∧
      ((∀ l ∈ rest, l.span.start.before span.stop = false) ↔ ¬ x.Overhangs taken rest) ∧
      (x.Overhangs taken rest → span.Covers (taken ++ rest.takeWhile Lexeme.isNewline)) := by
  have hlocated := (reads_program (Cursor.ofLexemes (Lexing.ofText source).lexemes)).2.2 x hx
  obtain ⟨taken, rest, span, hread, hne, hspan, hall⟩ := covers_of_located hlocated (Lexing.inOrder source)
  have horder : InOrder (taken ++ rest) := by
    obtain ⟨c, d, _, _, _, hsuffix⟩ := hread
    exact (Lexing.inOrder source).of_sublist hsuffix.sublist
  have hexact : ¬ x.Overhangs taken rest → span.Covers taken := by
    intro h
    rw [overhang_eq_nil h, List.append_nil] at hall
    exact hall
  have hlines : x.Overhangs taken rest → span.Covers (taken ++ rest.takeWhile Lexeme.isNewline) :=
    fun h => overhang_eq_of_overhangs h ▸ hall
  have hover : x.Overhangs taken rest → ¬ ∀ l ∈ rest, l.span.start.before span.stop = false := by
    intro h hnone
    obtain ⟨l, hl, hbefore⟩ := (hlines h).exists_before horder h.2.2
    rw [hnone l hl] at hbefore
    cases hbefore
  refine ⟨taken, rest, span, hread, hne, hspan, ⟨?_, hexact⟩, ⟨?_, ?_⟩, hlines⟩
  · exact fun hcovers h => hover h (hcovers.not_before horder)
  · exact fun hnone h => hover h hnone
  · exact fun h => (hexact h).not_before horder

/-- The lexemes of a loop without a block, in a block. -/
def looseLoop : List Lexeme :=
  [⟨.leftBrace, "\x7b", ⟨⟨1, 1⟩, ⟨1, 2⟩⟩⟩, ⟨.newline, "\n", ⟨⟨1, 2⟩, ⟨2, 1⟩⟩⟩,
    ⟨.keyword .while_, "while", ⟨⟨2, 1⟩, ⟨2, 6⟩⟩⟩, ⟨.keyword .true_, "true", ⟨⟨2, 7⟩, ⟨2, 11⟩⟩⟩,
    ⟨.newline, "\n", ⟨⟨2, 11⟩, ⟨3, 1⟩⟩⟩, ⟨.rightBrace, "\x7d", ⟨⟨3, 1⟩, ⟨3, 2⟩⟩⟩]

theorem lexemes_looseLoop : (Lexing.ofText "\x7b\nwhile true\n\x7d").lexemes = looseLoop := by
  rw [Lexing.ofText_eq_chars]
  decide +kernel

/-- A loop without a block, in a block: its span reaches over the line end that the block reads next. -/
theorem Surface.Program.covers_iff_looseLoop :
    ∃ x ∈ (Program.ofText "\x7b\nwhile true\n\x7d").1.parts, x.span? = some ⟨⟨2, 1⟩, ⟨3, 1⟩⟩ ∧
      ∃ taken rest span, x.ReadFrom (Lexing.ofText "\x7b\nwhile true\n\x7d").lexemes taken rest ∧
        taken ≠ [] ∧ x.span? = some span ∧ (span.Covers taken ↔ ¬ x.Overhangs taken rest) ∧
        ((∀ l ∈ rest, l.span.start.before span.stop = false) ↔ ¬ x.Overhangs taken rest) ∧
        (x.Overhangs taken rest → span.Covers (taken ++ rest.takeWhile Lexeme.isNewline)) := by
  have hparts : (Program.ofText "\x7b\nwhile true\n\x7d").1.parts = (Program.ofLexemes looseLoop).value.parts := by
    rw [← lexemes_looseLoop]
    rfl
  have hmem : Part.statement (.whileLoop (.literal (.bool true) ⟨⟨2, 7⟩, ⟨2, 11⟩⟩) .missing ⟨⟨2, 1⟩, ⟨3, 1⟩⟩) ∈
      (Program.ofText "\x7b\nwhile true\n\x7d").1.parts := by
    rw [hparts]
    exact List.mem_cons_of_mem _ List.mem_cons_self
  exact ⟨_, hmem, rfl, covers_iff _ _ hmem⟩

/-- The lexemes of a header, and two line ends. -/
def bareHeader : List Lexeme :=
  [⟨.keyword .on, "on", ⟨⟨1, 1⟩, ⟨1, 3⟩⟩⟩, ⟨.word, "started", ⟨⟨1, 4⟩, ⟨1, 11⟩⟩⟩,
    ⟨.newline, "\n", ⟨⟨1, 11⟩, ⟨2, 1⟩⟩⟩, ⟨.newline, "\n", ⟨⟨2, 1⟩, ⟨3, 1⟩⟩⟩]

theorem lexemes_bareHeader : (Lexing.ofText "on started\n\n").lexemes = bareHeader := by
  rw [Lexing.ofText_eq_chars]
  decide +kernel

/-- A header without a block: two lexemes were taken for the event handler, and its span reaches over the two line ends
that are still to read. -/
theorem Surface.Program.bareHeader_overhangs :
    ∃ x ∈ (Program.ofText "on started\n\n").1.parts, ∃ taken rest span,
      x.ReadFrom (Lexing.ofText "on started\n\n").lexemes taken rest ∧ x.span? = some span ∧
      taken.map Lexeme.text = ["on", "started"] ∧ span = ⟨⟨1, 1⟩, ⟨3, 1⟩⟩ ∧ ¬ span.Covers taken ∧
      ∀ l ∈ rest, l.span.start.before span.stop = true := by
  have hparts : (Program.ofText "on started\n\n").1.parts = (Program.ofLexemes bareHeader).value.parts := by
    rw [← lexemes_bareHeader]
    rfl
  rw [hparts, lexemes_bareHeader]
  refine ⟨.item (.event (some (.word "started")) none .missing ⟨⟨1, 1⟩, ⟨3, 1⟩⟩), List.mem_cons_self,
    bareHeader.take 2, bareHeader.drop 2, ⟨⟨1, 1⟩, ⟨3, 1⟩⟩, ?_, rfl, rfl, rfl, ?_, by decide⟩
  · exact ⟨Cursor.ofLexemes bareHeader, _, .item rfl rfl rfl, rfl, rfl, List.suffix_rfl⟩
  · rintro ⟨first, last, hfirst, hlast, hspan⟩
    cases hfirst
    cases hlast
    exact absurd hspan (by decide)

end FlightScript
