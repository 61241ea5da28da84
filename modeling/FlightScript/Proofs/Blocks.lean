import FlightScript.Proofs.Expressions
import FlightScript.Proofs.ReadBack
import FlightScript.Surface.Statements

/-!
# `Proofs.Blocks` — lines and blocks read back

A statement stands on a line of its own, between line ends, and a block is lines between braces. `Stated` says how
one statement of a block is read together with what comes after it, and `Blocked` how all of them are. A statement
whose text cannot be read back makes the reading of everything around it post a problem.

## Contents

* `LineEnd`, and the readings of blocks and of lines one after another;
* `Stated`, `Lined`, `Blocked`: the lexemes of a statement, of lines, and of a block;
* `exists_blocked`: the lexemes of a block from those of its statements.
-/

namespace FlightScript

open Parse

/-! ## Ends of statements

A statement in a canonical text ends at a line end that begins a new line or a closing brace. `LineEnd` says a
little more: an `else` on the next line would still belong to the statement. -/

/-- A line end follows, and behind it neither another one nor an `else`. -/
def LineEnd (rest : List Symbol) : Prop :=
  ∃ w us, rest = (.newline, w) :: us ∧ headToken us ≠ some (.keyword .else_) ∧ headToken us ≠ some .newline

theorem LineEnd.ends {rest : List Symbol} (h : LineEnd rest) (k : Nat) : Ends k rest := by
  obtain ⟨w, us, rfl, _⟩ := h
  exact Ends.cons fun l hl => by cases hl

theorem LineEnd.headToken {rest : List Symbol} (h : LineEnd rest) :
    FlightScript.headToken rest = some .newline := by
  obtain ⟨w, us, rfl, _⟩ := h
  rfl

/-- A statement may end where a token like this follows. -/
def Token.endsStatement : Token → Bool
  | .newline | .rightBrace | .comment => true
  | _ => false

/-- A statement may end before these lexemes. -/
def AtEnd (rest : List Symbol) : Prop := ∀ t, headToken rest = some t → t.endsStatement = true

theorem LineEnd.atEnd {rest : List Symbol} (h : LineEnd rest) : AtEnd rest := by
  intro t ht
  cases h.headToken.symm.trans ht
  rfl

theorem Cursor.atStatementEnd_eq (c : Cursor) {t : Token} (h : headToken c.view = some t) :
    c.atStatementEnd = t.endsStatement := by
  rw [← c.token?_eq] at h
  unfold Cursor.atStatementEnd
  rw [h]
  cases t <;> rfl

/-- A statement may end before a line end, a comment, a closing brace, or where nothing follows. -/
theorem Cursor.atStatementEnd_iff (c : Cursor) : c.atStatementEnd = true ↔ AtEnd c.view := by
  cases ht : FlightScript.headToken c.view with
  | none =>
      have hend : c.atStatementEnd = true := by
        unfold Cursor.atStatementEnd
        rw [c.token?_eq, ht]
      exact ⟨fun _ t h => (nomatch ht.symm.trans h), fun _ => hend⟩
  | some t =>
      rw [c.atStatementEnd_eq ht]
      exact ⟨fun hend u hu => Option.some.inj (ht.symm.trans hu) ▸ hend, fun h => h t ht⟩

section Elementary

variable {α : Type} {us vs ws rest : List Symbol}

theorem Reads.expectLineEnd {inBlock : Bool} (h : AtEnd rest) :
    Reads (Parse.expectLineEnd inBlock) rest rest fun _ => True := by
  unfold Parse.expectLineEnd
  refine Reads.cursor.bind fun c hc => ?_
  rw [if_pos (c.atStatementEnd_iff.mpr (by rwa [hc]))]
  exact .pure trivial

theorem Refuses.expectLineEnd {inBlock : Bool} {t : Token} (h : headToken rest = some t)
    (ht : t.endsStatement = false) : Refuses (Parse.expectLineEnd inBlock) rest := by
  unfold Parse.expectLineEnd
  refine Reads.cursor.bind_refuses fun c hc => ?_
  have hend : c.atStatementEnd = false := by rw [c.atStatementEnd_eq (by rw [hc]; exact h), ht]
  rw [if_neg (by simp [hend])]
  exact Refuses.report.bind

/-- The first reading counts only if it is clean and ends a statement. -/
theorem firstClean_cases {α : Type} (p : Parse (Option α)) (q : Parse α) (c : Cursor) :
    (∃ a, (p c).value = some a ∧ (p c).problems = [] ∧ (p c).cursor.atStatementEnd = true ∧
      firstClean p q c = ⟨a, (p c).cursor, []⟩) ∨ firstClean p q c = q c := by
  unfold firstClean
  cases ha : (p c).value with
  | none => exact .inr (by simp only [ha])
  | some a =>
      by_cases hclean : ((p c).problems.isEmpty && (p c).cursor.atStatementEnd) = true
      · simp only [Bool.and_eq_true, List.isEmpty_iff] at hclean
        exact .inl ⟨a, rfl, hclean.1, hclean.2, by simp [ha, hclean.1, hclean.2]⟩
      · exact .inr (by simp only [ha, hclean]; rfl)

/-- The first reading counts if it ends a statement. -/
theorem Reads.firstClean_left {p : Parse (Option α)} {q : Parse α} {Q : α → Prop}
    (h : Reads p us rest fun o => ∃ a, o = some a ∧ Q a) (hend : AtEnd rest) :
    Reads (firstClean p q) us rest Q := by
  intro c hc
  obtain ⟨hp, hv, a, ha, hQ⟩ := h c hc
  have hat : (p c).cursor.atStatementEnd = true := (Cursor.atStatementEnd_iff _).mpr (by rwa [hv])
  simp only [firstClean, ha, hp, List.isEmpty_nil, hat, Bool.and_self, if_true]
  exact ⟨trivial, hv, hQ⟩

/-- Where the first reading does not end a statement, the second one counts. -/
theorem firstClean_right {p : Parse (Option α)} {q : Parse α} {P : Option α → Prop} {t : Token}
    (h : Reads p us ws P) (ht : headToken ws = some t) (hend : t.endsStatement = false) {c : Cursor}
    (hc : c.view = us) : firstClean p q c = q c := by
  obtain ⟨_, hv, _⟩ := h c hc
  have hat : (p c).cursor.atStatementEnd = false := by
    rw [Cursor.atStatementEnd_eq _ (by rw [hv]; exact ht), hend]
  cases hval : (p c).value with
  | none => simp [firstClean, hval]
  | some a => simp [firstClean, hval, hat]

/-! ## Blocks

Before the brace of a block, and before `else`, line ends may stand. They have to be passed over, or the reading
has to go back to them. -/

/-- Line ends that may stand before a block are passed over. -/
theorem blockAfterHeader_eq (block : Parse Surface.Block) {w : String} {c : Cursor}
    (hc : c.view.dropWhile (fun u => u.1 == .newline) = (.leftBrace, w) :: us) :
    ∃ c' : Cursor, c'.view = (.leftBrace, w) :: us ∧ blockAfterHeader block c = block c' := by
  have hview : (skipNewlines c).cursor.view = (.leftBrace, w) :: us := by rw [view_skipNewlines, hc]
  have hat : (skipNewlines c).cursor.isAt .leftBrace = true := by
    rw [Cursor.isAt_eq, hview]
    rfl
  exact ⟨_, hview, by unfold blockAfterHeader; simp only [hat, if_true]⟩

theorem Reads.blockAfterHeader {block : Parse Surface.Block} {w : String} {Q : Surface.Block → Prop}
    (h : Reads block ((.leftBrace, w) :: us) vs Q) :
    Reads (Parse.blockAfterHeader block) ((.leftBrace, w) :: us) vs Q := by
  intro c hc
  have hskip : c.view.dropWhile (fun u => u.1 == .newline) = (.leftBrace, w) :: us := by rw [hc]; rfl
  obtain ⟨c', hview, heq⟩ := blockAfterHeader_eq block hskip
  rw [heq]
  exact h c' hview

/-- A block right behind its header is refused if its reading refuses it. -/
theorem Refuses.blockAfterHeader {block : Parse Surface.Block} {w : String}
    (h : Refuses block ((.leftBrace, w) :: us)) :
    Refuses (Parse.blockAfterHeader block) ((.leftBrace, w) :: us) := by
  intro c hc
  have hskip : c.view.dropWhile (fun u => u.1 == .newline) = (.leftBrace, w) :: us := by rw [hc]; rfl
  obtain ⟨c', hview, heq⟩ := blockAfterHeader_eq block hskip
  rw [heq]
  exact h c' hview

/-- Line ends that may stand before `else` are passed over. -/
theorem Reads.elseWord {w : String} (h : us.dropWhile (fun u => u.1 == .newline) = (.keyword .else_, w) :: vs) :
    Reads Parse.elseWord us vs (· = true) := by
  intro c hc
  have hview : (skipNewlines c).cursor.view = (.keyword .else_, w) :: vs := by rw [view_skipNewlines, hc, h]
  have hat : (skipNewlines c).cursor.isAt (.keyword .else_) = true := by
    rw [Cursor.isAt_eq, hview]
    rfl
  unfold Parse.elseWord
  simp only [hat, if_true]
  exact ⟨trivial, by rw [Cursor.view_next, hview]; rfl, trivial⟩

/-- No `else` follows, not even behind line ends. -/
def NoElse (rest : List Symbol) : Prop :=
  headToken (rest.dropWhile fun u => u.1 == .newline) ≠ some (.keyword .else_)

theorem LineEnd.noElse (h : LineEnd rest) : NoElse rest := by
  obtain ⟨w, us, rfl, helse, hnl⟩ := h
  unfold NoElse
  rw [List.dropWhile_cons_of_pos rfl]
  cases us with
  | nil => exact nofun
  | cons u us =>
      rw [List.dropWhile_cons_of_neg]
      · exact helse
      · simpa [FlightScript.headToken] using hnl

/-- Where no `else` follows the line ends that were passed over are left to be read. -/
theorem Reads.elseWord_none (h : NoElse rest) : Reads Parse.elseWord rest rest (· = false) := by
  intro c hc
  have hat : (skipNewlines c).cursor.isAt (.keyword .else_) = false := by
    rw [Cursor.isAt_eq, view_skipNewlines, hc]
    exact beq_eq_false_iff_ne.mpr h
  unfold Parse.elseWord
  simp only [hat, Bool.false_eq_true, if_false]
  exact ⟨trivial, hc, trivial⟩

/-! ## Lines of a block

The loop over the lines of a block, one line at a time. A budget of one more than the lines is enough. -/

variable {one : Parse (Option Surface.Statement)} {m : Nat} {w : String}
  {R : List Surface.Statement → Prop}

theorem Reads.statements_newline (h : Reads (statements one m) us vs R) :
    Reads (statements one (m + 1)) ((.newline, w) :: us) vs R := by
  unfold statements
  refine Reads.cursor.bind fun c hc => ?_
  obtain ⟨l, ls, hr, ht, _⟩ := Cursor.rest_of_view hc
  simp only [hr, ht]
  exact Reads.advance.bind fun _ _ => h

theorem Refuses.statements_newline (h : Refuses (statements one m) us) :
    Refuses (statements one (m + 1)) ((.newline, w) :: us) := by
  unfold statements
  refine Reads.cursor.bind_refuses fun c hc => ?_
  obtain ⟨l, ls, hr, ht, _⟩ := Cursor.rest_of_view hc
  simp only [hr, ht]
  exact Reads.advance.bind_refuses fun _ _ => h

theorem Reads.statements_close : Reads (statements one (m + 1)) ((.rightBrace, w) :: us) us (· = []) := by
  unfold statements
  refine Reads.cursor.bind fun c hc => ?_
  obtain ⟨l, ls, hr, ht, _⟩ := Cursor.rest_of_view hc
  simp only [hr, ht]
  exact Reads.advance.bind fun _ _ => .pure rfl

/-- A statement was read before others, and its tree is as wanted. -/
def FirstTree (P : Node → Prop) (R : List Surface.Statement → Prop) (ss : List Surface.Statement) : Prop :=
  ∃ x xs, ss = x :: xs ∧ P x.node ∧ R xs

/-- A comment is a statement of its own, and its words are kept. -/
theorem Reads.statements_comment {P : Node → Prop} (h : Reads (statements one m) us vs R)
    (hP : ∀ span, P (.comment (Surface.commentText w) span)) :
    Reads (statements one (m + 1)) ((.comment, w) :: us) vs (FirstTree P R) := by
  unfold statements
  refine Reads.cursor.bind fun c hc => ?_
  obtain ⟨l, ls, hr, ht, hw, _⟩ := Cursor.rest_of_view hc
  simp only [hr, ht, hw]
  refine Reads.advance.bind fun _ _ => h.bind fun more hmore => ?_
  exact .pure ⟨_, more, rfl, hP _, hmore⟩

theorem Refuses.statements_comment (h : Refuses (statements one m) us) :
    Refuses (statements one (m + 1)) ((.comment, w) :: us) := by
  unfold statements
  refine Reads.cursor.bind_refuses fun c hc => ?_
  obtain ⟨l, ls, hr, ht, hw, _⟩ := Cursor.rest_of_view hc
  simp only [hr, ht]
  exact Reads.advance.bind_refuses fun _ _ => h.bind

/-- The tokens that a statement begins with. -/
def Token.startsStatement : Token → Bool
  | .leftParen | .word => true
  | .keyword .if_ | .keyword .while_ | .keyword .repeat_ | .keyword .for_ | .keyword .break_ => true
  | .keyword .wait | .keyword .this | .keyword .var | .keyword .local_ => true
  | _ => false

/-- A statement was read, and its tree is as wanted. -/
def SomeStatement (P : Node → Prop) (o : Option Surface.Statement) : Prop := ∃ x, o = some x ∧ P x.node

/-- Before a token that a statement begins with, the loop reads one statement, asks for the end of its line and
goes on. -/
theorem statements_dispatch {t : Token} (ht : t.startsStatement = true) {c : Cursor}
    (hc : c.view = (t, w) :: us) : statements one (m + 1) c =
      (do
        match ← one with
        | some s =>
          Parse.expectLineEnd true
          let more ← statements one m
          pure (s :: more)
        | none =>
          recover true
          statements one m : Parse (List Surface.Statement)) c := by
  obtain ⟨l, ls, hr, rfl, _⟩ := Cursor.rest_of_view hc
  obtain ⟨rest, lastEnd, finish⟩ := c
  obtain ⟨t, text, span⟩ := l
  cases hr
  cases t with
  | leftParen => rfl
  | word => rfl
  | keyword k => rfl
  | _ => cases ht

theorem Reads.statements_one {t : Token} {P : Node → Prop} (ht : t.startsStatement = true)
    (h : Reads one ((t, w) :: us) rest (SomeStatement P)) (hend : AtEnd rest)
    (hmore : Reads (statements one m) rest vs R) :
    Reads (statements one (m + 1)) ((t, w) :: us) vs (FirstTree P R) := by
  intro c hc
  rw [statements_dispatch ht hc]
  refine Reads.bind h ?_ c hc
  rintro _ ⟨x, rfl, hx⟩
  refine (Reads.expectLineEnd hend).bind fun _ _ => hmore.bind fun more hmore => ?_
  exact .pure ⟨x, more, rfl, hx, hmore⟩

/-- A problem of a statement, of what stands behind it on its line, or of what comes after it, stays. -/
theorem Refuses.statements_one {t : Token} (ht : t.startsStatement = true)
    (h : Refuses one ((t, w) :: us) ∨ ∃ rest P, Reads one ((t, w) :: us) rest (SomeStatement P) ∧
      ((∃ t', headToken rest = some t' ∧ t'.endsStatement = false) ∨
        LineEnd rest ∧ Refuses (statements one m) rest)) :
    Refuses (statements one (m + 1)) ((t, w) :: us) := by
  intro c hc
  rw [statements_dispatch ht hc]
  rcases h with h | ⟨rest, P, h, htail⟩
  · exact Refuses.bind h c hc
  · refine Reads.bind_refuses h ?_ c hc
    rintro _ ⟨x, rfl, hx⟩
    rcases htail with ⟨t', hhead, ht'⟩ | ⟨hend, htail⟩
    · exact (Refuses.expectLineEnd hhead ht').bind
    · exact (Reads.expectLineEnd hend.atEnd).bind_refuses fun _ _ => htail.bind

end Elementary

/-! ## Statements in a block

What is known of single statements is put together to lines, and lines to blocks. -/

/-- The lexemes of a chain of conditions are read as one. -/
structure Branched (s : Scope) (n : Node) (ts : List Symbol) : Prop where
  starts : headToken ts = some (.keyword .if_)
  reads : n.Readable → ∀ b m rest, LineEnd rest → (ts ++ rest).length < b → (ts ++ rest).length < m →
    Reads (branchWithin (blockWithin b) m) (ts ++ rest) rest fun r =>
      Node.Same s (.ifElse r.condition.node r.consequent.nodes r.alternative.nodes (some r.span)) n.readBack
  refuses : ¬ n.Readable → ∀ b m rest, LineEnd rest → (ts ++ rest).length < b → (ts ++ rest).length < m →
    Refuses (branchWithin (blockWithin b) m) (ts ++ rest)

/-- The lexemes of a statement, and how they are read in a block. -/
structure Stated (s : Scope) (depth : Nat) (n : Node) (ts : List Symbol) : Prop where
  line : Line (n.render s depth looseCeiling) ts
  starts : ∃ t, headToken ts = some t ∧ (t.startsStatement = true ∨ t = .comment)
  reads : n.Readable → ∀ b m rest vs R, LineEnd rest → (ts ++ rest).length < b →
    Reads (statements (statement (blockWithin b)) m) rest vs R →
    Reads (statements (statement (blockWithin b)) (m + 1)) (ts ++ rest) vs
      (FirstTree (Node.Same s · n.readBack) R)
  refuses : ¬ n.Readable → ∀ b m rest, LineEnd rest → (ts ++ rest).length < b →
    Refuses (statements (statement (blockWithin b)) (m + 1)) (ts ++ rest)
  /-- What comes after it cannot be read. -/
  tail : n.Readable → ∀ b m rest, LineEnd rest → (ts ++ rest).length < b →
    Refuses (statements (statement (blockWithin b)) m) rest →
    Refuses (statements (statement (blockWithin b)) (m + 1)) (ts ++ rest)
  /-- A chain of conditions is read as one wherever a chain is asked. -/
  branch : n.isIfElse = true → Branched s n ts

/-- The lexemes of the lines of a block, and how the block is read. -/
structure Blocked (s : Scope) (depth : Nat) (ns : List Node) (ts : List Symbol) : Prop where
  lines : Line (Node.statements s depth ns) ts
  reads : (∀ n ∈ ns, n.Readable) → ∀ b rest, (blockLexemes ts ++ rest).length < b →
    Reads (blockWithin b) (blockLexemes ts ++ rest) rest fun blk =>
      List.Forall₂ (Node.Same s) blk.nodes (ns.map Node.readBack)
  refuses : ¬ (∀ n ∈ ns, n.Readable) → ∀ b rest, (blockLexemes ts ++ rest).length < b →
    Refuses (blockWithin b) (blockLexemes ts ++ rest)

section Blocks

variable {s : Scope} {depth : Nat} {n : Node} {ns : List Node} {ts : List Symbol}

/-- A statement that is read as a statement, and is no comment. -/
theorem Stated.ofReading (hline : Line (n.render s depth looseCeiling) ts)
    (hstarts : ∃ t w us, ts = (t, w) :: us ∧ t.startsStatement = true)
    (hbranch : n.isIfElse = true → Branched s n ts)
    (hreads : n.Readable → ∀ b rest, LineEnd rest → (ts ++ rest).length < b →
      Reads (statement (blockWithin b)) (ts ++ rest) rest (SomeStatement (Node.Same s · n.readBack)))
    (hrefuses : ¬ n.Readable → ∀ b rest, LineEnd rest → (ts ++ rest).length < b →
      Refuses (statement (blockWithin b)) (ts ++ rest) ∨ ∃ rest' P,
        Reads (statement (blockWithin b)) (ts ++ rest) rest' (SomeStatement P) ∧
          ∃ t, headToken rest' = some t ∧ t.endsStatement = false) : Stated s depth n ts := by
  obtain ⟨t, w, us, rfl, ht⟩ := hstarts
  refine ⟨hline, ⟨t, rfl, .inl ht⟩, ?_, ?_, ?_, hbranch⟩
  · intro hok b m rest vs R hend hb hmore
    exact Reads.statements_one ht (hreads hok b rest hend hb) hend.atEnd hmore
  · intro hok b m rest hend hb
    rcases hrefuses hok b rest hend hb with h | ⟨rest', P, h, hout⟩
    · exact Refuses.statements_one ht (.inl h)
    · exact Refuses.statements_one ht (.inr ⟨rest', P, h, .inl hout⟩)
  · intro hok b m rest hend hb hmore
    exact Refuses.statements_one ht (.inr ⟨rest, _, hreads hok b rest hend hb, .inr ⟨hend, hmore⟩⟩)

/-- The lexemes of the lines of a block up to its closing brace, and how they are read. -/
structure Lined (s : Scope) (depth : Nat) (ns : List Node) (ts : List Symbol) : Prop where
  lines : Line (Node.statements s depth ns) ts
  lineEnd : ∀ rest, LineEnd (ts ++ (.newline, "\n") :: (.rightBrace, "\x7d") :: rest)
  reads : (∀ n ∈ ns, n.Readable) → ∀ b m rest,
    (ts ++ (.newline, "\n") :: (.rightBrace, "\x7d") :: rest).length < b →
    (ts ++ (.newline, "\n") :: (.rightBrace, "\x7d") :: rest).length < m →
    Reads (statements (statement (blockWithin b)) m)
      (ts ++ (.newline, "\n") :: (.rightBrace, "\x7d") :: rest) rest
      fun ss => List.Forall₂ (Node.Same s) (ss.map (·.node)) (ns.map Node.readBack)
  refuses : ¬ (∀ n ∈ ns, n.Readable) → ∀ b m rest,
    (ts ++ (.newline, "\n") :: (.rightBrace, "\x7d") :: rest).length < b →
    (ts ++ (.newline, "\n") :: (.rightBrace, "\x7d") :: rest).length < m →
    Refuses (statements (statement (blockWithin b)) m)
      (ts ++ (.newline, "\n") :: (.rightBrace, "\x7d") :: rest)

theorem Lined.nil : Lined s depth [] [] := by
  refine ⟨Spelled.empty.line, ?_, ?_, fun h => absurd (by simp) h⟩
  · intro rest
    exact ⟨_, _, rfl, by simp, by simp⟩
  · intro _ b m rest _ hm
    obtain ⟨m, rfl⟩ : ∃ k, m = k + 2 := ⟨m - 2, by simp at hm; omega⟩
    refine Reads.statements_newline (Reads.statements_close.mono ?_)
    rintro _ rfl
    exact .nil

theorem Node.statements_start (s : Scope) (depth : Nat) (ns : List Node) :
    Node.statements s depth ns = "" ∨ ∃ text, Node.statements s depth ns = "\n" ++ text := by
  cases ns with
  | nil => exact .inl rfl
  | cons n ns => exact .inr ⟨_, by rw [Node.statements, String.append_assoc, String.append_assoc]⟩

/-- One more statement in front. Its line is read, whatever comes behind it as long as that is a line end, and
the other lines are read as before. If its text cannot be read back, or that of a later one, then the lines are
refused. -/
theorem Lined.cons {us : List Symbol} (hn : Stated s depth n ts) (hs : Lined s depth ns us) :
    Lined s depth (n :: ns) ((.newline, "\n") :: ts ++ us) := by
  have hview : ∀ rest, (Token.newline, "\n") :: ts ++ us ++ (.newline, "\n") :: (.rightBrace, "\x7d") :: rest =
      (.newline, "\n") :: (ts ++ (us ++ (.newline, "\n") :: (.rightBrace, "\x7d") :: rest)) := by simp
  obtain ⟨t, ht, hstart⟩ := hn.starts
  have hlen : 0 < ts.length := by
    cases ts with
    | nil => cases ht
    | cons u ts => simp
  refine ⟨?_, ?_, ?_, ?_⟩
  · rw [Node.statements, String.append_assoc, String.append_assoc]
    have hbelow := hn.line.below hs.lines (Node.statements_start s depth ns)
    simpa using (hbelow.indent depth).newline
  · intro rest
    rw [hview]
    obtain ⟨u, ts', rfl⟩ := List.exists_cons_of_length_pos hlen
    have hhead : headToken (u :: ts' ++ (us ++ (Token.newline, "\n") :: (.rightBrace, "\x7d") :: rest)) =
        some t := ht
    refine ⟨_, _, rfl, ?_, ?_⟩
    · rw [hhead]
      rintro ⟨⟩
      rcases hstart with h | h <;> cases h
    · rw [hhead]
      rintro ⟨⟩
      rcases hstart with h | h <;> cases h
  · intro hok b m rest hb hm
    rw [hview] at hb hm ⊢
    simp only [List.length_cons, List.length_append] at hb hm
    obtain ⟨m, rfl⟩ : ∃ k, m = k + 2 := ⟨m - 2, by omega⟩
    have hmore := hs.reads (fun x hx => hok x (List.mem_cons_of_mem _ hx)) b m rest (by simp; omega)
      (by simp; omega)
    refine Reads.statements_newline ((hn.reads (hok n List.mem_cons_self) b m _ rest _ (hs.lineEnd rest)
      (by simp; omega) hmore).mono ?_)
    rintro _ ⟨x, xs, rfl, hx, hxs⟩
    exact .cons hx hxs
  · intro hok b m rest hb hm
    rw [hview] at hb hm ⊢
    simp only [List.length_cons, List.length_append] at hb hm
    obtain ⟨m, rfl⟩ : ∃ k, m = k + 2 := ⟨m - 2, by omega⟩
    refine Refuses.statements_newline ?_
    -- the lines are refused at the first statement that cannot be read back
    by_cases hn' : n.Readable
    · refine hn.tail hn' b m _ (hs.lineEnd rest) (by simp; omega) ?_
      refine hs.refuses (fun hall => hok ?_) b m rest (by simp; omega) (by simp; omega)
      simpa using ⟨hn', hall⟩
    · exact hn.refuses hn' b m _ (hs.lineEnd rest) (by simp; omega)

/-- Lines between braces are a block. The budget of the loop is the number of lexemes, which is more than the
number of lines. -/
theorem Lined.blocked (h : Lined s depth ns ts) : Blocked s depth ns ts := by
  have hview : ∀ rest, blockLexemes ts ++ rest =
      (.leftBrace, "\x7b") :: (ts ++ (.newline, "\n") :: (.rightBrace, "\x7d") :: rest) := by
    intro rest
    simp [blockLexemes]
  refine ⟨h.lines, ?_, ?_⟩
  · intro hok b rest hb
    rw [hview] at hb ⊢
    obtain ⟨b, rfl⟩ : ∃ k, b = k + 1 := ⟨b - 1, by omega⟩
    unfold blockWithin
    refine Reads.start.bind fun first _ => Reads.advance.bind fun _ _ => Reads.remaining.bind ?_
    rintro _ rfl
    refine (h.reads hok b _ rest (by simp at hb ⊢; omega) (Nat.lt_succ_self _)).bind fun ss hss => ?_
    refine Reads.spanFrom.bind fun span _ => .pure ?_
    simpa [Surface.Block.nodes] using hss
  · intro hok b rest hb
    rw [hview] at hb ⊢
    obtain ⟨b, rfl⟩ : ∃ k, b = k + 1 := ⟨b - 1, by omega⟩
    unfold blockWithin
    refine Reads.start.bind_refuses fun first _ => Reads.advance.bind_refuses fun _ _ =>
      Reads.remaining.bind_refuses ?_
    rintro _ rfl
    exact (h.refuses hok b _ rest (by simp at hb ⊢; omega) (Nat.lt_succ_self _)).bind

/-- The lines of a block from its statements. -/
theorem exists_blocked (h : ∀ n ∈ ns, ∃ ts, Stated s depth n ts) : ∃ ts, Blocked s depth ns ts := by
  have hlined : ∃ ts, Lined s depth ns ts := by
    induction ns with
    | nil => exact ⟨[], .nil⟩
    | cons n ns ih =>
        obtain ⟨ts, hts⟩ := h n List.mem_cons_self
        obtain ⟨us, hus⟩ := ih fun m hm => h m (List.mem_cons_of_mem _ hm)
        exact ⟨_, .cons hts hus⟩
  obtain ⟨ts, hts⟩ := hlined
  exact ⟨ts, hts.blocked⟩

end Blocks

end FlightScript
