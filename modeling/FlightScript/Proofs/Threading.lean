import FlightScript.Proofs.Blurring
import Mathlib.Tactic.Choose

/-!
# `Proofs.Threading` — reading with a log at hand

The readings of this library give their problems back. A reading can as well be handed a log and post to it as it goes.
Then the log is part of what it works on: to find out whether an attempt went well it compares the length of the log
with what it was before, and to give the attempt up it cuts the log back. `Threads p f` says that `f` makes the steps
of `p` and works on a log in this way; every reading of the library has such an `f`, and whatever it is, the log takes
no part in what is read.

## Contents

* `LogParse` and its steps `quietly`, `report`, `attempt`;
* `Threads`, and `Threads.run_eq`: the same is read, and what is posted comes after what the log holds;
* `Threadable`: a reading that can be given a log; `InStep.threadable`, `Threadable.program`.
-/

namespace FlightScript

/-! ## Readings that post to a log

The log is an accumulator here, and a reading may look at its length. `Threads` lists the only steps that there
are: a quiet reading, a posted fault, two readings one after the other, and an attempt. -/

/-- The log with only its first problems. -/
def Log.truncate (log : Log) (count : Nat) : Log := ⟨log.problems.take count⟩

/-- Where a reading stands, and the log it posts to. -/
structure ParserState where
  cursor : Cursor
  log : Log

/-- A way to read that works on a log. -/
abbrev LogParse (α : Type) : Type := StateM ParserState α

namespace LogParse

variable {α : Type}

/-- Makes a reading that finds no problems. -/
def quietly (p : Parse α) : LogParse α := fun state =>
  ((p state.cursor).value, { state with cursor := (p state.cursor).cursor })

/-- Posts a problem about the next lexeme. -/
def report (fault : Fault) : LogParse Unit := fun state =>
  ((), { state with log := state.log.post (.errorAt (fault.message state.cursor.found) state.cursor.here) })

/-- Tries the first reading. It stands if it gives something, ends where a statement may end, and the log is as long as
it was. Otherwise the cursor goes back, the log is cut back to its length, and the second reading is made. -/
def attempt (first : LogParse (Option α)) (second : LogParse α) : LogParse α := fun state =>
  let mark := state.log.problems.length
  let tried := first state
  match tried.1 with
  | some a =>
    if tried.2.cursor.atStatementEnd && tried.2.log.problems.length == mark then (a, tried.2)
    else second ⟨state.cursor, tried.2.log.truncate mark⟩
  | none => second ⟨state.cursor, tried.2.log.truncate mark⟩

/-- An attempt goes well: it gives something, posts nothing, and ends where a statement may end. -/
def Succeeds (first : LogParse (Option α)) (state : ParserState) : Prop :=
  (first state).1.isSome ∧ (first state).2.log = state.log ∧ (first state).2.cursor.atStatementEnd = true

end LogParse

/-- The second reading makes the steps of the first one and works on a log. -/
inductive Threads : {α : Type} → Parse α → LogParse α → Prop where
  | ret {α : Type} (a : α) : Threads (pure a) (pure a)
  | bind {α β : Type} {p : Parse α} {f : LogParse α} {q : α → Parse β} {g : α → LogParse β} :
      Threads p f → (∀ a, Threads (q a) (g a)) → Threads (p >>= q) (f >>= g)
  | quiet {α : Type} {p : Parse α} : (∀ c, (p c).problems = []) → Threads p (LogParse.quietly p)
  | report (fault : Fault) : Threads (Parse.report fault) (LogParse.report fault)
  | attempt {α : Type} {p : Parse (Option α)} {f : LogParse (Option α)} {q : Parse α} {g : LogParse α} :
      Threads p f → Threads q g → Threads (Parse.firstClean p q) (LogParse.attempt f g)

/-! ## The log takes no part

Along every reading the log only grows at its end. This is what makes the two tricks of an attempt work: the
length of the log tells whether something was posted, and cutting it back takes away just that. -/

namespace Log

theorem append_nil (log : Log) : log.append [] = log := by
  rw [append, List.append_nil]

theorem append_append (log : Log) (ps qs : List Problem) : (log.append ps).append qs = log.append (ps ++ qs) := by
  rw [append, append, append, List.append_assoc]

/-- A log that only grew is cut back to what it was. -/
theorem truncate_append (log : Log) (ps : List Problem) : (log.append ps).truncate log.problems.length = log := by
  rw [truncate, append, List.take_left]

/-- Its length tells whether anything was posted. -/
theorem length_append_beq (log : Log) (ps : List Problem) :
    ((log.append ps).problems.length == log.problems.length) = ps.isEmpty := by
  cases ps <;> simp [append]

end Log

section Attempt

variable {α : Type} {p : Parse (Option α)} {f : LogParse (Option α)} {q : Parse α} {g : LogParse α}

/-- An attempt on a log that only grows is an attempt without a log. -/
theorem LogParse.attempt_eq {c : Cursor} {log : Log}
    (hf : f ⟨c, log⟩ = ((p c).value, ⟨(p c).cursor, log.append (p c).problems⟩))
    (hg : g ⟨c, log⟩ = ((q c).value, ⟨(q c).cursor, log.append (q c).problems⟩)) :
    attempt f g ⟨c, log⟩ = ((Parse.firstClean p q c).value,
      ⟨(Parse.firstClean p q c).cursor, log.append (Parse.firstClean p q c).problems⟩) := by
  unfold attempt Parse.firstClean
  -- the length tells only whether the attempt posted anything, and the cut takes away only what it posted
  simp only [hf, Log.length_append_beq, Log.truncate_append, Bool.and_comm]
  cases (p c).value with
  | none => exact hg
  | some a =>
      dsimp only
      split
      · rename_i hclean
        have hnone := List.isEmpty_iff.mp ((Bool.and_eq_true _ _).mp hclean).1
        rw [hnone]
      · exact hg

end Attempt

/-- **Reading with a log at hand** gives the same value, ends at the same place, and puts the problems after those that
the log holds. -/
theorem Threads.run_eq {α : Type} {p : Parse α} {f : LogParse α} (h : Threads p f) (c : Cursor) (log : Log) :
    f ⟨c, log⟩ = ((p c).value, ⟨(p c).cursor, log.append (p c).problems⟩) := by
  -- on the steps, for any cursor and log, since a step begins with those that the one before it left
  induction h generalizing c log with
  | ret a =>
      show (a, (⟨c, log⟩ : ParserState)) = (a, ⟨c, log.append []⟩)
      rw [Log.append_nil]
  | @bind α β p f q g _ _ ihp ihq =>
      calc (f >>= g) ⟨c, log⟩ = g (f ⟨c, log⟩).1 (f ⟨c, log⟩).2 := rfl
        _ = g (p c).value ⟨(p c).cursor, log.append (p c).problems⟩ := by rw [ihp]
        _ = _ := by
            rw [ihq, Log.append_append]
            rfl
  | quiet hquiet =>
      rw [hquiet, Log.append_nil]
      rfl
  | report fault => rfl
  | attempt _ _ ihp ihq => exact LogParse.attempt_eq (ihp c log) (ihq c log)

/-- An attempt that does not go well leaves no trace. -/
theorem Threads.attempt_of_not_succeeds {α : Type} {p : Parse (Option α)} {f : LogParse (Option α)} (hf : Threads p f)
    (g : LogParse α) {state : ParserState} (h : ¬ f.Succeeds state) : LogParse.attempt f g state = g state := by
  obtain ⟨c, log⟩ := state
  unfold LogParse.Succeeds at h
  unfold LogParse.attempt
  rw [hf.run_eq] at h ⊢
  simp only [Log.length_append_beq, Log.truncate_append] at h ⊢
  cases hvalue : (p c).value with
  | none => rfl
  | some a =>
      rw [hvalue] at h
      dsimp only
      split
      · rename_i hclean
        obtain ⟨hend, hnone⟩ := (Bool.and_eq_true _ _).mp hclean
        rw [List.isEmpty_iff.mp hnone, Log.append_nil] at h
        exact absurd ⟨rfl, rfl, hend⟩ h
      · rfl

/-! ## Every reading can be given a log

The steps that keep two readings together are the steps that a log can be handed through. -/

/-- There is a way to make the steps of a reading and work on a log. -/
def Threadable {α : Type} (p : Parse α) : Prop := ∃ f, Threads p f

/-- What is made of steps can be given a log: two readings one after the other have a log that goes from the first to
the second, and an attempt is the one step that looks at the log and that cuts it. -/
theorem InStep.threadable {b : Blur} {α : Type} [Blurry α] {p q : Parse α} (h : InStep b p q) : Threadable p := by
  induction h with
  | ret => exact ⟨_, .ret _⟩
  | bind _ _ ihp ihf =>
      obtain ⟨r, hr⟩ := ihp
      choose g hg using ihf
      exact ⟨r >>= g, .bind hr hg⟩
  | quiet hp _ => exact ⟨_, .quiet hp⟩
  | report fault => exact ⟨_, .report fault⟩
  | attempt _ _ ihfirst ihp =>
      obtain ⟨f, hf⟩ := ihfirst
      obtain ⟨g, hg⟩ := ihp
      exact ⟨_, .attempt hf hg⟩

/-- **The reading of programs can be given a log.** Its steps are those of any blur, also of the one that changes no
text. -/
theorem Threadable.program : Threadable Parse.program :=
  (InStep.program (b := ⟨id, id, fun _ _ => rfl⟩)).threadable

end FlightScript
