import FlightScript.Proofs.LineIndex
import FlightScript.Proofs.Patterns

/-!
# `Proofs.Cuts` — every character is accounted for

Lexemes and problems come with places, and places are lines and columns that an index has found for byte offsets. Here
they are led back to offsets of characters: a text of `n` characters is cut into stretches that lie side by side from 0
to `n`, and each stretch is a lexeme, a problem, blanks, or a line end or comment inside parentheses.

## Contents

* `Location.before_ofOffset`, `Location.ofOffset_injective`: an offset has its place to itself;
* `Cut`: a stretch by its offsets; `Adjacent`: stretches side by side; `openParens`: the running count of parentheses;
* `Accounts`: what it means that a text is accounted for; `Lexing.ofText_accounts`.
-/

namespace FlightScript

/-! ## The order of places

Places are ordered by line and then by column, and reading a character always leads to a later one. -/

namespace Location

/-- The place behind a character is later than the place before it, whether or not the character ends a line. -/
theorem before_advance (l : Location) (c : Char) : l.before (l.advance c) = true := by
  unfold before advance
  by_cases hc : c = '\n'
  · simp [hc]
  · simp [hc]

theorem before_trans {a b c : Location} (hab : a.before b = true) (hbc : b.before c = true) : a.before c = true := by
  simp only [before, Bool.or_eq_true, Bool.and_eq_true, decide_eq_true_eq] at *
  omega

theorem not_before_self (l : Location) : l.before l = false := by
  simp [before]

/-- Reading on leads to a later place. -/
theorem before_after (l : Location) {cs : List Char} (hne : cs ≠ []) : l.before (l.after cs) = true := by
  induction cs generalizing l with
  | nil => exact absurd rfl hne
  | cons c cs ih =>
      rw [after_cons]
      rcases cs with _ | ⟨d, ds⟩
      · exact before_advance l c
      · exact before_trans (before_advance l c) (ih (l.advance c) (by simp))

/-- A greater offset has a later place. The text between the two is not empty, and reading it leads on. -/
theorem before_ofOffset {cs : List Char} {i j : Nat} (hij : i < j) (hj : j ≤ cs.length) :
    (ofOffset cs i).before (ofOffset cs j) = true := by
  -- what stands before the later offset is what stands before the earlier one, read on
  have hsplit : cs.take j = cs.take i ++ (cs.drop i).take (j - i) := by
    rw [← List.take_add, Nat.add_sub_cancel' (Nat.le_of_lt hij)]
  have hne : (cs.drop i).take (j - i) ≠ [] := by
    apply List.ne_nil_of_length_pos
    rw [List.length_take, List.length_drop]
    omega
  unfold ofOffset
  rw [hsplit, ← after_behind]
  exact before_after _ hne

/-- A place is that of one offset only. -/
theorem ofOffset_injective {cs : List Char} {i j : Nat} (hi : i ≤ cs.length) (hj : j ≤ cs.length)
    (h : ofOffset cs i = ofOffset cs j) : i = j := by
  rcases Nat.lt_trichotomy i j with hlt | heq | hgt
  · have hbefore := before_ofOffset hlt hj
    rw [h, not_before_self] at hbefore
    cases hbefore
  · exact heq
  · have hbefore := before_ofOffset hgt hi
    rw [h, not_before_self] at hbefore
    cases hbefore

end Location

/-! ## Stretches of a text

A stretch is given by character offsets. Its places and its text are computed from the text of the whole. -/

/-- A stretch of a text from one offset to another, and whether the reader is not shown it. -/
structure Cut where
  kind : Piece.Kind
  start : Nat
  stop : Nat
  hidden : Bool

namespace Cut

/-- The characters of a stretch. -/
def slice (cs : List Char) (c : Cut) : List Char := cs.extract c.start c.stop

/-- The places of a stretch. -/
def span (cs : List Char) (c : Cut) : Span := ⟨.ofOffset cs c.start, .ofOffset cs c.stop⟩

/-- The lexeme that a stretch is, if it is shown. -/
def lexeme? (cs : List Char) (c : Cut) : Option Lexeme :=
  match c.kind with
  | .token t => if c.hidden then none else some ⟨t, String.ofList (c.slice cs), c.span cs⟩
  | _ => none

/-- The problem about a stretch that is no token. -/
def problem? (cs : List Char) (c : Cut) : Option Problem :=
  match c.kind with
  | .unknown => some (.errorAt (Lexing.unknownMessage (c.slice cs)) (c.span cs))
  | _ => none

/-- Whether a stretch becomes a lexeme or a problem. -/
def isSeen (c : Cut) : Bool :=
  match c.kind with
  | .gap => false
  | .unknown => true
  | .token _ => !c.hidden

/-- Whether an offset lies in a stretch. -/
def Holds (c : Cut) (k : Nat) : Prop := c.start ≤ k ∧ k < c.stop

/-- The number of open parentheses behind a stretch. -/
def openAfter (depth : Nat) (c : Cut) : Nat :=
  match c.kind with
  | .token t => Lexing.depthAfter depth t
  | _ => depth

/-- Whether a stretch is a line end or a comment. -/
def IsLayout (c : Cut) : Prop := c.kind = .token .newline ∨ c.kind = .token .comment

end Cut

/-- The running count of parentheses: an opening one counts up and a closing one down, but never below zero. -/
def openParens (cuts : List Cut) : Nat := cuts.foldl Cut.openAfter 0

/-- Stretches that lie side by side from one offset to another, none of them empty. -/
inductive Adjacent : Nat → List Cut → Nat → Prop where
  | nil {k : Nat} : Adjacent k [] k
  | cons {c : Cut} {cuts : List Cut} {n : Nat} (hne : c.start < c.stop) (h : Adjacent c.stop cuts n) :
      Adjacent c.start (c :: cuts) n

namespace Adjacent

variable {k n : Nat} {cuts : List Cut}

theorem le (h : Adjacent k cuts n) : k ≤ n := by
  induction h with
  | nil => exact le_refl _
  | cons hne _ ih => omega

theorem bounds (h : Adjacent k cuts n) : ∀ c ∈ cuts, k ≤ c.start ∧ c.start < c.stop ∧ c.stop ≤ n := by
  induction h with
  | nil => simp
  | @cons c cuts n hne h ih =>
      intro d hd
      rcases List.mem_cons.mp hd with rfl | hd
      · exact ⟨le_refl _, hne, h.le⟩
      · obtain ⟨hstart, hlt, hstop⟩ := ih d hd
        exact ⟨by omega, hlt, hstop⟩

/-- Each stretch ends before the next one begins. -/
theorem pairwise (h : Adjacent k cuts n) : cuts.Pairwise fun a b => a.stop ≤ b.start := by
  induction h with
  | nil => exact .nil
  | cons hne h ih => exact .cons (fun d hd => (h.bounds d hd).1) ih

/-- Every offset lies in a stretch. -/
theorem exists_holds (h : Adjacent k cuts n) {i : Nat} (hk : k ≤ i) (hn : i < n) :
    ∃ before c after, cuts = before ++ c :: after ∧ c.Holds i := by
  induction h with
  | nil => omega
  | @cons c cuts n hne h ih =>
      by_cases hi : i < c.stop
      · exact ⟨[], c, cuts, rfl, hk, hi⟩
      · obtain ⟨before, d, after, rfl, hholds⟩ := ih (by omega) hn
        exact ⟨c :: before, d, after, rfl, hholds⟩

end Adjacent

/-- **A text is accounted for** by stretches that lie side by side. -/
structure Accounts (source : String) (lexing : Lexing) (cuts : List Cut) : Prop where
  /-- The stretches run from the beginning of the text to its end. -/
  adjacent : Adjacent 0 cuts source.toList.length
  /-- From the bytes before an offset the index of the text finds the line by the line feeds before it, and the column by
  the characters since the last of them. -/
  places : ∀ i ≤ source.toList.length,
    (LineIndex.ofText source).location? (Text.byteOffset source.toList i) = some (.ofOffset source.toList i)
  /-- The bytes of a stretch are its characters. -/
  slices : ∀ c ∈ cuts,
    Text.slice? source (Text.byteOffset source.toList c.start) (Text.byteOffset source.toList c.stop) =
      some (String.ofList (c.slice source.toList))
  /-- Lexemes are the shown tokens, with the characters and the places of their stretches. -/
  lexemes : lexing.lexemes = cuts.filterMap (Cut.lexeme? source.toList)
  /-- Problems are the stretches that are no tokens. -/
  problems : lexing.problems = cuts.filterMap (Cut.problem? source.toList)
  /-- What becomes a lexeme or a problem does so in order and without overlap. -/
  ordered : (cuts.filter Cut.isSeen).Pairwise fun a b => a.stop ≤ b.start
  /-- The text of a lexeme is what stands between its places, whichever offsets have them. -/
  text : ∀ l ∈ lexing.lexemes, ∀ i j, i ≤ source.toList.length → j ≤ source.toList.length →
    l.span = ⟨.ofOffset source.toList i, .ofOffset source.toList j⟩ → l.text = String.ofList (source.toList.extract i j)
  /-- Line ends and comments are not shown exactly where parentheses are open, and nothing else is hidden. -/
  hidden : ∀ before c after, cuts = before ++ c :: after → (c.hidden = true ↔ c.IsLayout ∧ 0 < openParens before)
  /-- Each stretch is the longest that can be cut off there. -/
  longest : ∀ c ∈ cuts, Piece.Longest (source.toList.drop c.start) ⟨c.kind, c.slice source.toList⟩
  /-- Every other character is a blank, or belongs to a line end or comment inside parentheses. -/
  characters : ∀ k c, source.toList[k]? = some c →
    (∃ cut ∈ cuts, cut.isSeen = true ∧ cut.Holds k) ∨ c ∈ [' ', '\t', '\r', '\x0c'] ∨
      ∃ before cut after, cuts = before ++ cut :: after ∧ cut.Holds k ∧ cut.IsLayout ∧ 0 < openParens before

/-! ## The stretches of pieces

Pieces have only lengths, so their offsets are found by adding these up, and the depth of parentheses is counted
along the way. -/

namespace Cut

/-- Whether a piece is not shown inside `depth` open parentheses. -/
def hides (depth : Nat) : Piece.Kind → Bool
  | .token t => Lexing.isLayout t && decide (0 < depth)
  | _ => false

/-- The stretch of a piece at an offset. -/
def ofPiece (offset depth : Nat) (p : Piece) : Cut := ⟨p.kind, offset, offset + p.text.length, hides depth p.kind⟩

/-- The stretches of pieces from an offset on, inside `depth` open parentheses. -/
def ofPieces (offset depth : Nat) : List Piece → List Cut
  | [] => []
  | p :: ps =>
    ofPiece offset depth p ::
      ofPieces (offset + p.text.length) ((ofPiece offset depth p).openAfter depth) ps

/-- The stretches of pieces lie side by side if no piece is empty, and end where the text of the pieces ends. The
induction is over the pieces. -/
theorem adjacent_ofPieces (offset depth : Nat) {ps : List Piece} (hne : ∀ p ∈ ps, p.text ≠ []) :
    Adjacent offset (ofPieces offset depth ps) (offset + (ps.flatMap Piece.text).length) := by
  induction ps generalizing offset depth with
  | nil => exact .nil
  | cons p ps ih =>
      have hp := List.length_pos_iff.mpr (hne p List.mem_cons_self)
      have hps := ih (offset + p.text.length) ((ofPiece offset depth p).openAfter depth)
        fun q hq => hne q (List.mem_cons_of_mem _ hq)
      rw [List.flatMap_cons, List.length_append, ← Nat.add_assoc]
      exact .cons (c := ofPiece offset depth p) (Nat.lt_add_of_pos_right hp) hps

/-- A line end or a comment is hidden exactly inside parentheses, and nothing else is hidden. -/
theorem hides_iff (depth : Nat) (c : Cut) (h : c.hidden = hides depth c.kind) :
    c.hidden = true ↔ c.IsLayout ∧ 0 < depth := by
  obtain ⟨kind, start, stop, hidden⟩ := c
  rw [h]
  unfold IsLayout
  cases kind with
  | gap => simp [hides]
  | unknown => simp [hides]
  | token t => cases t <;> simp [hides, Lexing.isLayout]

/-- Whether a stretch is hidden depends on the parentheses that are open behind the stretches before it. The
depth at which the pieces begin is generalised, so that the induction can go through them. -/
theorem hidden_ofPieces (offset depth : Nat) (ps : List Piece) (before : List Cut) (c : Cut) (after : List Cut)
    (h : ofPieces offset depth ps = before ++ c :: after) :
    c.hidden = true ↔ c.IsLayout ∧ 0 < before.foldl openAfter depth := by
  induction ps generalizing offset depth before with
  | nil => simp [ofPieces] at h
  | cons p ps ih =>
      rcases before with _ | ⟨b, before⟩
      · obtain ⟨rfl, _⟩ := List.cons.inj h
        exact hides_iff depth _ rfl
      · obtain ⟨rfl, hrest⟩ := List.cons.inj h
        exact ih _ _ before hrest

/-- The characters of the piece at the front of what is left. -/
theorem slice_ofPiece (done rest : List Char) (depth : Nat) (p : Piece) :
    (ofPiece done.length depth p).slice (done ++ (p.text ++ rest)) = p.text := by
  simp [slice, ofPiece]

theorem span_ofPiece (done rest : List Char) (depth : Nat) (p : Piece) :
    (ofPiece done.length depth p).span (done ++ (p.text ++ rest)) =
      ⟨.behind done, (Location.behind done).after p.text⟩ := by
  have hstop : (done ++ (p.text ++ rest)).take (done.length + p.text.length) = done ++ p.text := by
    rw [← List.append_assoc, ← List.length_append]
    exact List.take_left
  simp [span, ofPiece, Location.ofOffset, hstop, Location.after_behind]

end Cut

/-- Lexemes and problems are those of the stretches. -/
theorem Lexing.walk_eq_cuts (ps : List Piece) (done : List Char) (depth : Nat) :
    walk (.behind done) depth ps =
      ⟨(Cut.ofPieces done.length depth ps).filterMap (Cut.lexeme? (done ++ ps.flatMap Piece.text)),
        (Cut.ofPieces done.length depth ps).filterMap (Cut.problem? (done ++ ps.flatMap Piece.text))⟩ := by
  induction ps generalizing done depth with
  | nil => rfl
  | cons p ps ih =>
      have hslice := Cut.slice_ofPiece done (ps.flatMap Piece.text) depth p
      have hspan := Cut.span_ofPiece done (ps.flatMap Piece.text) depth p
      have hrest := ih (done ++ p.text) ((Cut.ofPiece done.length depth p).openAfter depth)
      rw [← Location.after_behind, List.append_assoc, List.length_append] at hrest
      obtain ⟨kind, text⟩ := p
      simp only [Cut.ofPieces, List.flatMap_cons]
      cases kind with
      | gap =>
          rw [List.filterMap_cons_none rfl, List.filterMap_cons_none rfl]
          exact hrest
      | unknown =>
          have hproblem : (Cut.ofPiece done.length depth ⟨.unknown, text⟩).problem?
              (done ++ (text ++ ps.flatMap Piece.text)) = some (.errorAt (unknownMessage text)
                ⟨.behind done, (Location.behind done).after text⟩) := by
            rw [← hspan]
            show some (Problem.errorAt (unknownMessage (Cut.slice _ _)) _) = _
            rw [hslice]
          replace hrest : walk ((Location.behind done).after text) depth ps = _ := hrest
          rw [List.filterMap_cons_none rfl, List.filterMap_cons_some hproblem, walk, hrest]
      | token t =>
          replace hrest : walk ((Location.behind done).after text) (depthAfter depth t) ps = _ := hrest
          rw [walk, hrest, List.filterMap_cons_none (f := Cut.problem? _) rfl]
          -- a hidden token gives no lexeme, but it is a stretch like the others
          by_cases hhidden : (isLayout t && decide (0 < depth)) = true
          · have hlexeme : (Cut.ofPiece done.length depth ⟨.token t, text⟩).lexeme?
                (done ++ (text ++ ps.flatMap Piece.text)) = none := if_pos hhidden
            rw [if_pos hhidden, List.filterMap_cons_none hlexeme]
          · have hlexeme : (Cut.ofPiece done.length depth ⟨.token t, text⟩).lexeme?
                (done ++ (text ++ ps.flatMap Piece.text)) =
                  some ⟨t, String.ofList text, ⟨.behind done, (Location.behind done).after text⟩⟩ := by
              rw [← hspan]
              refine (if_neg hhidden).trans ?_
              rw [hslice]
            rw [if_neg hhidden, List.filterMap_cons_some hlexeme]

namespace Piece

theorem text_ne_nil_of_mem_ofText (cs : List Char) : ∀ p ∈ ofText cs, p.text ≠ [] := by
  induction cs using cutInduction with
  | nil => simp [ofText, take]
  | cut c cs ih =>
      intro p hp
      rw [ofText_cons] at hp
      rcases List.mem_cons.mp hp with rfl | hp
      · exact List.length_pos_iff.mp (length_pos_next c cs)
      · exact ih p hp

end Piece

/-- Each stretch of a text is the longest that can be cut off there. -/
theorem Cut.longest_ofPieces (done rest : List Char) (depth : Nat) :
    ∀ c ∈ ofPieces done.length depth (Piece.ofText rest),
      Piece.Longest ((done ++ rest).drop c.start) ⟨c.kind, c.slice (done ++ rest)⟩ := by
  induction rest using Piece.cutInduction generalizing done depth with
  | nil =>
      intro cut hcut
      cases hcut
  | cut c cs ih =>
      have happend := Piece.next_append c cs
      have hbehind := ih (done ++ (Piece.next c cs).1.text)
        ((ofPiece done.length depth (Piece.next c cs).1).openAfter depth)
      rw [List.append_assoc, happend, List.length_append] at hbehind
      rw [Piece.ofText_cons]
      intro cut hcut
      rcases List.mem_cons.mp hcut with rfl | hcut
      · have hslice := slice_ofPiece done (Piece.next c cs).2 depth (Piece.next c cs).1
        rw [happend] at hslice
        rw [hslice]
        show Piece.Longest ((done ++ c :: cs).drop done.length) (Piece.next c cs).1
        rw [List.drop_left]
        exact Piece.longest_next c cs
      · exact hbehind cut hcut

/-! ## Texts

All of it put together, for the pieces that a text is cut into. -/

theorem Cut.mem_slice {cs : List Char} {cut : Cut} {k : Nat} {c : Char} (hk : cs[k]? = some c) (h : cut.Holds k) :
    c ∈ cut.slice cs := by
  obtain ⟨hstart, hstop⟩ := h
  rw [slice, List.extract_eq_take_drop]
  apply List.mem_of_getElem? (i := k - cut.start)
  rw [List.getElem?_take_of_lt (by omega), List.getElem?_drop, Nat.add_sub_cancel' hstart]
  exact hk

theorem Scan.isGap_iff (c : Char) : isGap c = true ↔ c ∈ [' ', '\t', '\r', '\x0c'] := by
  simp [isGap, or_assoc]

theorem Cut.text_of_lexeme? {cs : List Char} {c : Cut} {l : Lexeme} (h : c.lexeme? cs = some l) :
    l.text = String.ofList (c.slice cs) ∧ l.span = c.span cs := by
  unfold lexeme? at h
  split at h
  · split at h
    · cases h
    · cases h
      exact ⟨rfl, rfl⟩
  · cases h

namespace Accounts

variable {cs : List Char} {lexing : Lexing} {cuts : List Cut}

/-- An offset determines its place and the other way round, so that the places of a lexeme give its characters. -/
theorem text_of_adjacent (hadjacent : Adjacent 0 cuts cs.length)
    (hlexemes : lexing.lexemes = cuts.filterMap (Cut.lexeme? cs)) :
    ∀ l ∈ lexing.lexemes, ∀ i j, i ≤ cs.length → j ≤ cs.length →
      l.span = ⟨.ofOffset cs i, .ofOffset cs j⟩ → l.text = String.ofList (cs.extract i j) := by
  intro l hl i j hi hj hspan
  rw [hlexemes] at hl
  obtain ⟨cut, hcut, hl⟩ := List.mem_filterMap.mp hl
  obtain ⟨_, hlt, hstop⟩ := hadjacent.bounds cut hcut
  obtain ⟨htext, hplaces⟩ := Cut.text_of_lexeme? hl
  rw [hplaces, Cut.span, Span.mk.injEq] at hspan
  have hstart := Location.ofOffset_injective (by omega) hi hspan.1
  have hend := Location.ofOffset_injective hstop hj hspan.2
  rw [htext, Cut.slice, hstart, hend]

/-- A character outside what is shown is a blank, or hidden. -/
theorem characters_of_adjacent (hadjacent : Adjacent 0 cuts cs.length)
    (hhidden : ∀ before c after, cuts = before ++ c :: after → (c.hidden = true ↔ c.IsLayout ∧ 0 < openParens before))
    (hlongest : ∀ c ∈ cuts, Piece.Longest (cs.drop c.start) ⟨c.kind, c.slice cs⟩) :
    ∀ k c, cs[k]? = some c →
      (∃ cut ∈ cuts, cut.isSeen = true ∧ cut.Holds k) ∨ c ∈ [' ', '\t', '\r', '\x0c'] ∨
        ∃ before cut after, cuts = before ++ cut :: after ∧ cut.Holds k ∧ cut.IsLayout ∧ 0 < openParens before := by
  intro k c hk
  have hlt : k < cs.length := (List.getElem?_eq_some_iff.mp hk).1
  obtain ⟨before, cut, after, hsplit, hholds⟩ := hadjacent.exists_holds (Nat.zero_le k) hlt
  have hmem : cut ∈ cuts := by
    rw [hsplit]
    exact List.mem_append_right _ List.mem_cons_self
  by_cases hseen : cut.isSeen = true
  · exact .inl ⟨cut, hmem, hseen, hholds⟩
  cases hkind : cut.kind with
  | gap =>
      have hgap := hlongest cut hmem
      rw [hkind] at hgap
      cases hgap with
      | gap hgap _ _ => exact .inr (.inl ((Scan.isGap_iff c).mp (hgap c (Cut.mem_slice hk hholds))))
  | unknown => exact absurd (by rw [Cut.isSeen, hkind]) hseen
  | token t =>
      have hhides : cut.hidden = true := by
        rw [Cut.isSeen, hkind] at hseen
        simpa using hseen
      exact .inr (.inr ⟨before, cut, after, hsplit, hholds, (hhidden before cut after hsplit).mp hhides⟩)

end Accounts

/-- The stretches of a text lie side by side from its beginning to its end. -/
theorem Cut.adjacent_ofText (cs : List Char) : Adjacent 0 (Cut.ofPieces 0 0 (Piece.ofText cs)) cs.length := by
  have hadjacent := adjacent_ofPieces 0 0 (Piece.text_ne_nil_of_mem_ofText cs)
  rw [Piece.flatMap_text_ofText, Nat.zero_add] at hadjacent
  exact hadjacent

/-- Lexemes and problems of a text are those of its stretches, in order. -/
theorem Lexing.ofText_eq_cuts (source : String) :
    Lexing.ofText source =
      ⟨(Cut.ofPieces 0 0 (Piece.ofText source.toList)).filterMap (Cut.lexeme? source.toList),
        (Cut.ofPieces 0 0 (Piece.ofText source.toList)).filterMap (Cut.problem? source.toList)⟩ := by
  have hcuts := walk_eq_cuts (Piece.ofText source.toList) [] 0
  rw [Piece.flatMap_text_ofText] at hcuts
  rw [ofText_eq_walk]
  exact hcuts

/-- **Tokenizing accounts for every character** of a text. The pieces that it is cut into are stretches that lie side
by side from the beginning to the end, so each character is in one of them. Lexemes and problems are read off the
stretches; a character is in none of these only if it is a blank, or part of a line end or a comment inside
parentheses. -/
theorem Lexing.ofText_accounts (source : String) :
    ∃ cuts, Accounts source (Lexing.ofText source) cuts := by
  have hadjacent := Cut.adjacent_ofText source.toList
  have hcuts := Lexing.ofText_eq_cuts source
  have hhidden := Cut.hidden_ofPieces 0 0 (Piece.ofText source.toList)
  have hlongest := Cut.longest_ofPieces [] source.toList 0
  have hlexemes := congrArg Lexing.lexemes hcuts
  have hproblems := congrArg Lexing.problems hcuts
  refine ⟨Cut.ofPieces 0 0 (Piece.ofText source.toList), ?_⟩
  exact {
    adjacent := hadjacent
    places := fun i _ => LineIndex.location?_byteOffset source i
    slices := fun c hc => Text.slice?_byteOffset source (Nat.le_of_lt (hadjacent.bounds c hc).2.1)
    lexemes := hlexemes
    problems := hproblems
    ordered := hadjacent.pairwise.filter _
    text := Accounts.text_of_adjacent hadjacent hlexemes
    hidden := hhidden
    longest := hlongest
    characters := Accounts.characters_of_adjacent hadjacent hhidden hlongest }

end FlightScript
