import FlightScript.Proofs.Reading
import FlightScript.Surface.Programs

/-!
# `Proofs.Movement` — how readings move a cursor

A reading takes lexemes off the front of those still to read, and the end of the last read lexeme follows. What is said
here of a reading holds for malformed lexemes too: it is about where the reading comes to, not about problems.

Readings are given to readings: that of a sum gets that of its operands. So two readings are looked at together, one
made with a given reading and one made with the true one, and it is enough that the given one is right where it is
asked.

## Contents

* `Cursor.Passes`: exactly these lexemes are taken; `Cursor.Steps`, `Cursor.Advances`: no closing brace is among them;
* `Cursor.Ends`: where something ends, headers without a block included;
* `Tracks`: a reading does at a cursor what another one does, and its rule for sequences;
* the elementary readings;
* `Tracks.knot`: a reading that is defined by a budget does not depend on the budget.
-/

namespace FlightScript

/-! ## Lexemes taken

A cursor moves only forwards, so the lexemes between two cursors are a list. The relations below say what is
known of that list, and they compose as the lists are put together. -/

/-- Where the last of some lexemes ends, or a given place if there are none. -/
def lastStop (start : Location) (ls : List Lexeme) : Location := ls.foldl (fun _ l => l.span.stop) start

theorem lastStop_append (start : Location) (ls ms : List Lexeme) :
    lastStop start (ls ++ ms) = lastStop (lastStop start ls) ms :=
  List.foldl_append

theorem lastStop_of_ne_nil {ls : List Lexeme} (h : ls ≠ []) (s t : Location) : lastStop s ls = lastStop t ls := by
  cases ls with
  | nil => exact absurd rfl h
  | cons l ls => rfl

/-- Whether a lexeme is a line end. -/
def Lexeme.isNewline (l : Lexeme) : Bool := l.token == .newline

namespace Cursor

variable {c d e : Cursor} {taken more : List Lexeme} {t : Token}

/-- Taking these lexemes leads from one cursor to the other. -/
structure Passes (c d : Cursor) (taken : List Lexeme) : Prop where
  rest : c.rest = taken ++ d.rest
  lastEnd : d.lastEnd = lastStop c.lastEnd taken

theorem Passes.refl (c : Cursor) : c.Passes c [] := ⟨rfl, rfl⟩

theorem Passes.trans (h : c.Passes d taken) (h' : d.Passes e more) : c.Passes e (taken ++ more) where
  rest := by rw [h.rest, h'.rest, List.append_assoc]
  lastEnd := by rw [h'.lastEnd, h.lastEnd, lastStop_append]

theorem Passes.suffix (h : c.Passes d taken) : d.rest <:+ c.rest := ⟨taken, h.rest.symm⟩

/-- A cursor before a token stands before a lexeme of that token. -/
theorem exists_of_token? (h : c.token? = some t) : ∃ l, l.token = t ∧ c.rest = l :: c.next.rest ∧ c.Passes c.next [l] := by
  obtain ⟨l, hl, ht⟩ := Option.map_eq_some_iff.mp h
  obtain ⟨ls, hls⟩ := List.head?_eq_some_iff.mp hl
  have hnext : c.next = { c with rest := ls, lastEnd := l.span.stop } := by
    unfold next
    rw [hls]
  refine ⟨l, ht, ?_, ?_⟩
  · rw [hls, hnext]
  · rw [hnext]
    exact ⟨hls, rfl⟩

theorem token?_next (h : c.token? = some t) : c.next.token? = c.second? := by
  obtain ⟨l, _, hrest, _⟩ := exists_of_token? h
  rw [second?, hrest]
  rfl

/-- Lexemes are taken, and no closing brace is among them. -/
def Steps (c d : Cursor) : Prop := ∃ taken, c.Passes d taken ∧ ∀ l ∈ taken, l.token ≠ .rightBrace

/-- At least one lexeme is taken, and no closing brace is among them. -/
def Advances (c d : Cursor) : Prop := ∃ taken, c.Passes d taken ∧ (∀ l ∈ taken, l.token ≠ .rightBrace) ∧ taken ≠ []

theorem Steps.refl (c : Cursor) : c.Steps c := ⟨[], .refl c, by simp⟩

theorem Steps.trans (h : c.Steps d) (h' : d.Steps e) : c.Steps e := by
  obtain ⟨taken, hpass, hbrace⟩ := h
  obtain ⟨more, hpass', hbrace'⟩ := h'
  exact ⟨taken ++ more, hpass.trans hpass', List.forall_mem_append.mpr ⟨hbrace, hbrace'⟩⟩

theorem Advances.steps (h : c.Advances d) : c.Steps d := by
  obtain ⟨taken, hpass, hbrace, _⟩ := h
  exact ⟨taken, hpass, hbrace⟩

theorem Steps.trans_advances (h : c.Steps d) (h' : d.Advances e) : c.Advances e := by
  obtain ⟨taken, hpass, hbrace⟩ := h
  obtain ⟨more, hpass', hbrace', hne⟩ := h'
  exact ⟨taken ++ more, hpass.trans hpass', List.forall_mem_append.mpr ⟨hbrace, hbrace'⟩, by simp [hne]⟩

theorem Advances.trans_steps (h : c.Advances d) (h' : d.Steps e) : c.Advances e := by
  obtain ⟨taken, hpass, hbrace, hne⟩ := h
  obtain ⟨more, hpass', hbrace'⟩ := h'
  exact ⟨taken ++ more, hpass.trans hpass', List.forall_mem_append.mpr ⟨hbrace, hbrace'⟩, by simp [hne]⟩

theorem Advances.trans (h : c.Advances d) (h' : d.Advances e) : c.Advances e := h.trans_steps h'.steps

theorem Steps.suffix (h : c.Steps d) : d.rest <:+ c.rest := by
  obtain ⟨taken, hpass, _⟩ := h
  exact hpass.suffix

theorem Advances.suffix (h : c.Advances d) : d.rest <:+ c.rest := h.steps.suffix

theorem Advances.length_lt (h : c.Advances d) : d.rest.length < c.rest.length := by
  obtain ⟨taken, hpass, _, hne⟩ := h
  have hpos := List.length_pos_iff.mpr hne
  rw [hpass.rest, List.length_append]
  omega

theorem advances_next (h : c.token? = some t) (ht : t ≠ .rightBrace) : c.Advances c.next := by
  obtain ⟨l, rfl, _, hpass⟩ := exists_of_token? h
  exact ⟨[l], hpass, by simpa using ht, by simp⟩

/-- Line ends still to read that the end of the last read lexeme has already passed: those after a header that is not
followed by a block. A header that is followed by one ends with a closing brace. -/
def overhang (headed : Bool) (taken rest : List Lexeme) : List Lexeme :=
  if headed = true ∧ taken.getLast?.map Lexeme.token ≠ some .rightBrace then rest.takeWhile Lexeme.isNewline else []

/-- Where something that begins at a cursor ends: at least one lexeme is taken, and the end of the last read lexeme is
that of the last one taken, or of the line ends that a header overhangs. -/
def Ends (headed : Bool) (c d : Cursor) : Prop :=
  ∃ taken, taken ≠ [] ∧ c.rest = taken ++ d.rest ∧
    d.lastEnd = lastStop c.lastEnd (taken ++ overhang headed taken d.rest)

theorem Ends.of_passes (h : c.Passes d taken) (hne : taken ≠ []) : c.Ends false d :=
  ⟨taken, hne, h.rest, by simpa [overhang] using h.lastEnd⟩

theorem Advances.ends (h : c.Advances d) : c.Ends false d := by
  obtain ⟨taken, hpass, _, hne⟩ := h
  exact .of_passes hpass hne

/-- What ends after something else was taken ends the whole. -/
theorem Passes.trans_ends {headed : Bool} (h : c.Passes d taken) (h' : d.Ends headed e) : c.Ends headed e := by
  obtain ⟨more, hne, hrest, hlast⟩ := h'
  have hover : overhang headed (taken ++ more) e.rest = overhang headed more e.rest := by
    unfold overhang
    rw [List.getLast?_append, List.getLast?_eq_some_getLast hne, Option.some_or]
  refine ⟨taken ++ more, by simp [hne], ?_, ?_⟩
  · rw [h.rest, hrest, List.append_assoc]
  · rw [hover, hlast, h.lastEnd, List.append_assoc, lastStop_append _ taken]

end Cursor

/-! ## Readings side by side

The rule for sequences is the one of a Hoare logic with the cursor as the state: what is known of the value and
the cursor of one reading is the assumption under which the next is looked at. -/

instance : LawfulMonad Parse :=
  LawfulMonad.mk' Parse
    (fun p => funext fun c => by
      show (⟨(p c).value, (p c).cursor, (p c).problems ++ []⟩ : Reading _) = p c
      rw [List.append_nil])
    (fun _ _ => rfl)
    (fun p f g => funext fun c => by
      show (⟨_, _, _ ++ _ ++ _⟩ : Reading _) = ⟨_, _, _ ++ (_ ++ _)⟩
      rw [List.append_assoc]
      rfl)

theorem Parse.cursor_bind {α : Type} (f : Cursor → Parse α) (c : Cursor) : (cursor >>= f) c = f c c := rfl

section Rules

variable {α β : Type} {p q : Parse α} {f g : α → Parse β} {c : Cursor} {Q R : α → Cursor → Prop}
  {S : β → Cursor → Prop}

/-- From a cursor on a reading does what another one does, and the other one's value and the cursor that it comes to are
as wanted. -/
def Tracks (p q : Parse α) (c : Cursor) (Q : α → Cursor → Prop) : Prop := p c = q c ∧ Q (q c).value (q c).cursor

namespace Tracks

/-- **The rule for sequences.** If two readings agree at a cursor, and at every value and cursor that they may
come to the readings behind them agree as well, then the sequences agree. -/
theorem bind (h : Tracks p q c Q) (hf : ∀ a d, Q a d → Tracks (f a) (g a) d S) :
    Tracks (p >>= f) (q >>= g) c S := by
  obtain ⟨heq, hq⟩ := h
  obtain ⟨heq', hs⟩ := hf _ _ hq
  refine ⟨?_, hs⟩
  show (⟨(f (p c).value (p c).cursor).value, (f (p c).value (p c).cursor).cursor,
      (p c).problems ++ (f (p c).value (p c).cursor).problems⟩ : Reading β) =
    ⟨(g (q c).value (q c).cursor).value, (g (q c).value (q c).cursor).cursor,
      (q c).problems ++ (g (q c).value (q c).cursor).problems⟩
  rw [heq, heq']

theorem mono (h : Tracks p q c Q) (hQ : ∀ a d, Q a d → R a d) : Tracks p q c R := ⟨h.1, hQ _ _ h.2⟩

theorem pure {a : α} (h : Q a c) : Tracks (pure a) (pure a) c Q := ⟨rfl, h⟩

theorem map {k : α → β} (h : Tracks p q c Q) (hk : ∀ a d, Q a d → S (k a) d) : Tracks (k <$> p) (k <$> q) c S :=
  h.bind fun a _ ha => pure (hk a _ ha)

/-- What a reading gives stays known, whatever else is shown of it. -/
theorem strengthen (h : Tracks p q c Q)
    (hR : ∀ a d ps, q c = ⟨a, d, ps⟩ → Q a d → R a d) : Tracks p q c R :=
  ⟨h.1, hR _ _ _ rfl h.2⟩

/-- Two readings may be replaced by others that do the same where they are looked at, perhaps from another
cursor. -/
theorem of_eq {p' q' : Parse α} {c' : Cursor} (h : Tracks p q c Q) (hp : p' c' = p c) (hq : q' c' = q c) :
    Tracks p' q' c' Q := by
  refine ⟨?_, ?_⟩
  · rw [hp, hq, h.1]
  · rw [hq]
    exact h.2

/-- A reading that only looks. -/
theorem peek {a : α} (hp : p c = ⟨a, c, []⟩) (h : Tracks (f a) (g a) c S) : Tracks (p >>= f) (p >>= g) c S :=
  bind (Q := fun b d => b = a ∧ d = c) ⟨rfl, by rw [hp]; exact ⟨rfl, rfl⟩⟩ (by rintro _ _ ⟨rfl, rfl⟩; exact h)

theorem cursor {f g : Cursor → Parse β} (h : Tracks (f c) (g c) c S) :
    Tracks (Parse.cursor >>= f) (Parse.cursor >>= g) c S := peek rfl h

theorem token? {f g : Option Token → Parse β} (h : Tracks (f c.token?) (g c.token?) c S) :
    Tracks (Parse.token? >>= f) (Parse.token? >>= g) c S := peek rfl h

theorem isAt {t : Token} {f g : Bool → Parse β} (h : Tracks (f (c.isAt t)) (g (c.isAt t)) c S) :
    Tracks (Parse.isAt t >>= f) (Parse.isAt t >>= g) c S := peek rfl h

theorem start {f g : Location → Parse β} (h : Tracks (f c.start) (g c.start) c S) :
    Tracks (Parse.start >>= f) (Parse.start >>= g) c S := peek rfl h

theorem spanFrom {first : Location} {f g : Span → Parse β} (h : Tracks (f (c.spanFrom first)) (g (c.spanFrom first)) c S) :
    Tracks (Parse.spanFrom first >>= f) (Parse.spanFrom first >>= g) c S := peek rfl h

theorem remaining {f g : Nat → Parse β} (h : Tracks (f c.rest.length) (g c.rest.length) c S) :
    Tracks (Parse.remaining >>= f) (Parse.remaining >>= g) c S := peek rfl h

/-- A problem does not move the cursor. -/
theorem report {fault : Fault} {f g : Unit → Parse β} (h : Tracks (f ()) (g ()) c S) :
    Tracks (Parse.report fault >>= f) (Parse.report fault >>= g) c S :=
  bind (Q := fun _ d => d = c) ⟨rfl, rfl⟩ (by rintro _ _ rfl; exact h)

theorem mismatch {expected : String} {Q : Option α → Cursor → Prop} (h : Q none c) :
    Tracks (Parse.mismatch expected) (Parse.mismatch expected) c Q :=
  report (pure h)

theorem advance {t : Token} {f g : Unit → Parse β} (hc : c.token? = some t) (ht : t ≠ .rightBrace)
    (h : c.Advances c.next → Tracks (f ()) (g ()) c.next S) :
    Tracks (Parse.advance >>= f) (Parse.advance >>= g) c S :=
  bind (Q := fun _ d => d = c.next) ⟨rfl, rfl⟩ (by rintro _ _ rfl; exact h (Cursor.advances_next hc ht))

/-- Before a token that is no closing brace the next lexeme is read, and it is the first of those left. -/
theorem lexeme? {t : Token} (hc : c.token? = some t) (ht : t ≠ .rightBrace) :
    Tracks Parse.lexeme? Parse.lexeme? c fun o d =>
      ∃ l, o = some l ∧ c.rest.head? = some l ∧ d = c.next ∧ c.Advances d := by
  obtain ⟨l, _, hrest, _⟩ := Cursor.exists_of_token? hc
  have hhead : c.rest.head? = some l := by
    rw [hrest]
    rfl
  exact ⟨rfl, l, hhead, hhead, rfl, Cursor.advances_next hc ht⟩

end Tracks

end Rules

/-! ## Elementary readings

What they take of the lexemes is at most a few, and a closing brace only if it is asked for by name. -/

namespace Tracks

variable {c : Cursor} {t : Token}

/-- A lexeme that may be there. -/
theorem eat (ht : t ≠ .rightBrace) : Tracks (Parse.eat t) (Parse.eat t) c fun o d =>
    (o = none ∧ d = c) ∨ ∃ l, o = some l ∧ c.rest.head? = some l ∧ d = c.next ∧ c.Advances d := by
  by_cases hat : c.isAt t = true
  · have htoken : c.token? = some t := by simpa [Cursor.isAt] using hat
    have heat : Parse.eat t c = Parse.lexeme? c := if_pos hat
    exact ((lexeme? htoken ht).of_eq heat heat).mono fun _ _ h => .inr h
  · have heat : Parse.eat t c = ⟨none, c, []⟩ := if_neg hat
    refine ⟨rfl, ?_⟩
    rw [heat]
    exact .inl ⟨rfl, rfl⟩

/-- A lexeme that has to be there. -/
theorem expect (ht : t ≠ .rightBrace) {expected : String} :
    Tracks (Parse.expect t expected) (Parse.expect t expected) c fun o d =>
      (o = none ∧ d = c) ∨ ∃ l, o = some l ∧ c.rest.head? = some l ∧ d = c.next ∧ c.Advances d := by
  refine (eat ht).bind ?_
  rintro _ d (⟨rfl, rfl⟩ | ⟨l, rfl, hl, hd, hadv⟩)
  · exact report (pure (.inl ⟨rfl, rfl⟩))
  · exact pure (.inr ⟨l, rfl, hl, hd, hadv⟩)

/-- Whether a lexeme is there or not, nothing but it is taken. -/
theorem steps_of_expect {d : Cursor} {o : Option Lexeme}
    (h : (o = none ∧ d = c) ∨ ∃ l, o = some l ∧ c.rest.head? = some l ∧ d = c.next ∧ c.Advances d) :
    c.Steps d := by
  rcases h with ⟨_, rfl⟩ | ⟨_, _, _, _, hadv⟩
  · exact .refl d
  · exact hadv.steps

/-- The words behind dots are taken two lexemes at a time, and a closing brace is neither a dot nor a word. The
induction follows the recursion of the reading, by the lexemes that are left. -/
theorem dottedTail : Tracks Parse.dottedTail Parse.dottedTail c fun _ d => c.Steps d := by
  have hgo : ∀ (c : Cursor) (ls : List Lexeme), c.rest = ls → c.Steps (Parse.dottedTail.go c ls).cursor := by
    intro c ls
    fun_induction Parse.dottedTail.go c ls with
    | case1 c d w ls hwords r ih =>
        -- a dot and a word after it
        intro hrest
        simp only [Bool.and_eq_true, beq_iff_eq] at hwords
        have hword : w.token ≠ .rightBrace := by
          intro hbrace
          rw [hbrace] at hwords
          cases hwords.2
        have hfirst : c.Passes { c with rest := ls, lastEnd := w.span.stop } [d, w] := ⟨hrest, rfl⟩
        exact Cursor.Steps.trans ⟨[d, w], hfirst, by simp [hwords.1, hword]⟩ (ih rfl)
    | case2 c d w ls _ =>
        intro hrest
        exact ⟨[], ⟨hrest, rfl⟩, by simp⟩
    | case3 c ls _ =>
        intro hrest
        exact ⟨[], ⟨hrest, rfl⟩, by simp⟩
  exact ⟨rfl, hgo c c.rest rfl⟩

end Tracks

/-- The line ends that the lexemes still to read begin with are passed over. -/
theorem Cursor.passes_skipNewlines (c : Cursor) :
    c.Passes (Parse.skipNewlines c).cursor (c.rest.takeWhile Lexeme.isNewline) ∧
      (Parse.skipNewlines c).cursor.rest = c.rest.dropWhile Lexeme.isNewline := by
  have hgo : ∀ (c : Cursor) (ls : List Lexeme), c.rest = ls →
      c.Passes (Parse.skipNewlines.go c ls) (ls.takeWhile Lexeme.isNewline) ∧
        (Parse.skipNewlines.go c ls).rest = ls.dropWhile Lexeme.isNewline := by
    intro c ls
    fun_induction Parse.skipNewlines.go c ls with
    | case1 c =>
        intro hrest
        exact ⟨⟨hrest, rfl⟩, rfl⟩
    | case2 c l ls hl ih =>
        intro hrest
        obtain ⟨hpass, hdrop⟩ := ih rfl
        have hnewline : l.isNewline = true := hl
        rw [List.takeWhile_cons_of_pos hnewline, List.dropWhile_cons_of_pos hnewline]
        have hfirst : c.Passes { c with rest := ls, lastEnd := l.span.stop } [l] := ⟨hrest, rfl⟩
        exact ⟨hfirst.trans hpass, hdrop⟩
    | case3 c l ls hl =>
        intro hrest
        have hnewline : ¬ l.isNewline = true := hl
        rw [List.takeWhile_cons_of_neg hnewline, List.dropWhile_cons_of_neg hnewline]
        exact ⟨⟨hrest, rfl⟩, rfl⟩
  exact hgo c c.rest rfl

/-- What is passed over up to the end of a line; it is something unless a line end, or a brace that stops it, comes
first. -/
theorem Cursor.passes_recover (c : Cursor) (stopAtBrace : Bool) :
    ∃ taken, c.Passes (Parse.recover stopAtBrace c).cursor taken ∧
      (taken = [] → ∀ l ∈ c.rest.head?, l.token = .newline ∨ l.token = .rightBrace) := by
  have hgo : ∀ (depth : Nat) (c : Cursor) (ls : List Lexeme), c.rest = ls →
      ∃ taken, c.Passes (Parse.recover.go stopAtBrace depth c ls) taken ∧
        (taken = [] → ∀ l ∈ ls.head?, l.token = .newline ∨ l.token = .rightBrace) := by
    intro depth c ls
    fun_induction Parse.recover.go stopAtBrace depth c ls with
    | case1 =>
        intro hrest
        exact ⟨[], ⟨hrest, rfl⟩, by simp⟩
    | case2 depth c l ls hl =>
        intro hrest
        simp only [Bool.and_eq_true, beq_iff_eq] at hl
        exact ⟨[], ⟨hrest, rfl⟩, by simp [hl.1]⟩
    | case3 depth c l ls _ hl =>
        intro hrest
        simp only [Bool.and_eq_true, beq_iff_eq] at hl
        exact ⟨[], ⟨hrest, rfl⟩, by simp [hl.1.1]⟩
    | case4 depth c l ls _ _ depth' ih =>
        intro hrest
        obtain ⟨taken, hpass, _⟩ := ih rfl
        have hfirst : c.Passes { c with rest := ls, lastEnd := l.span.stop } [l] := ⟨hrest, rfl⟩
        exact ⟨[l] ++ taken, hfirst.trans hpass, by simp⟩
  exact hgo 0 c c.rest rfl

/-! ## Readings with a budget

The budgets of the readings are there for their recursion. What follows shows, once for all of them, that they
never run out. -/

/-- A reading that hands one part of its budget to the readings inside it does the same with every budget that is
greater than the number of lexemes left, if those readings begin later. It is then as if there were no budget.

The reading `within` may be made with given readings, `within'` is made with the true ones; they are looked at where
the given ones are right, and `hfile` adds what is known of a value because it is the whole reading that gave it. -/
theorem Tracks.knot {α : Type} (region : Cursor → Prop) {Q Q₀ : Cursor → α → Cursor → Prop}
    (within within' : Nat → Parse α) (body body' : Parse α → Parse α) (whole : Parse α)
    (hwithin : ∀ n, within (n + 1) = body (within n)) (hwithin' : ∀ n, within' (n + 1) = body' (within' n))
    (hwhole : ∀ c, whole c = within' (c.rest.length + 1) c)
    (hbody : ∀ c p, region c → (∀ d, region d → d.rest.length < c.rest.length → Tracks p whole d (Q d)) →
      Tracks (body p) (body' whole) c (Q₀ c))
    (hbody' : ∀ c p, region c → (∀ d, region d → d.rest.length < c.rest.length → Tracks p whole d (Q d)) →
      Tracks (body' p) (body' whole) c (Q₀ c))
    (hfile : ∀ c a d ps, region c → whole c = ⟨a, d, ps⟩ → Q₀ c a d → Q c a d) (c : Cursor) (hc : region c) :
    whole c = body' whole c ∧ ∀ n, c.rest.length < n →
      Tracks (within n) whole c (Q c) ∧ Tracks (within' n) whole c (Q c) := by
  -- on the number of lexemes left: with any budget the readings inside are the whole one, by the hypothesis
  induction hlength : c.rest.length using Nat.strongRecOn generalizing c with
  | ind length ih =>
      subst hlength
      have hbehind : ∀ n, c.rest.length < n + 1 → ∀ d, region d → d.rest.length < c.rest.length →
          Tracks (within n) whole d (Q d) ∧ Tracks (within' n) whole d (Q d) :=
        fun n hn d hd hlt => (ih d.rest.length hlt d hd rfl).2 n (by omega)
      have hstep' : ∀ n, c.rest.length < n + 1 → Tracks (within' (n + 1)) (body' whole) c (Q₀ c) := by
        intro n hn
        rw [hwithin']
        exact hbody' c (within' n) hc fun d hd hlt => (hbehind n hn d hd hlt).2
      have hunfold : whole c = body' whole c := (hwhole c).trans (hstep' c.rest.length (by omega)).1
      refine ⟨hunfold, fun n hn => ?_⟩
      obtain ⟨n, rfl⟩ : ∃ k, n = k + 1 := ⟨n - 1, by omega⟩
      have hstep : Tracks (within (n + 1)) (body' whole) c (Q₀ c) := by
        rw [hwithin]
        exact hbody c (within n) hc fun d hd hlt => (hbehind n hn d hd hlt).1
      constructor
      · exact (hstep.of_eq rfl hunfold).strengthen fun a d ps heq h => hfile c a d ps hc heq h
      · exact ((hstep' n hn).of_eq rfl hunfold).strengthen fun a d ps heq h => hfile c a d ps hc heq h

end FlightScript
