import FlightScript.Proofs.Completeness
import FlightScript.Surface.Programs

/-!
# `Proofs.Blurring` — what reading does not look at

Reading goes by the classes of lexemes. Their places and their texts are carried into the written tree and into the
messages of problems, but they decide nothing. A `Blur` looks away from places and does something to texts. To blur
lexemes and read them is the same as to read them and blur what was read: the reading of a blurred cursor goes the same
way, since every step of it does.

## Contents

* `Blur`, and `Blurry`: the things in which texts and places stand;
* `Follows`: a reading that goes the way of another one on a blurred cursor;
* `InStep`: two readings made of the same steps, and `InStep.follows`;
* `InStep.program`: the reading of programs keeps in step with itself.
-/

namespace FlightScript

/-! ## Blurring

A blurred thing keeps its shape: every text in it is replaced and every place in it becomes one fixed place.
Classes of lexemes, operators and the way a tree is nested stay as they are. -/

/-- A way to look at lexemes without their places. It does something to their texts, and looks at messages in such a way
that it makes no difference whether they show a text or what was done to it. -/
structure Blur where
  text : String → String
  message : String → String
  message_shown (fault : Fault) (s : String) :
    message (fault.message ("'" ++ text s ++ "'")) = message (fault.message ("'" ++ s ++ "'"))

/-- What is left of a problem. -/
def Blur.said (b : Blur) (p : Problem) : Level × String := (p.level, b.message p.message)

/-- Things that can be blurred. -/
class Blurry (α : Type) where
  blur : Blur → α → α

open Blurry (blur)

instance : Blurry Unit := ⟨fun _ u => u⟩
instance : Blurry Bool := ⟨fun _ a => a⟩
instance : Blurry Nat := ⟨fun _ n => n⟩
instance : Blurry Token := ⟨fun _ t => t⟩
instance : Blurry String := ⟨fun b s => b.text s⟩
instance : Blurry Location := ⟨fun _ _ => .origin⟩
instance : Blurry Span := ⟨fun _ _ => .synthetic⟩
instance {α : Type} [Blurry α] : Blurry (Option α) := ⟨fun b o => o.map (blur b)⟩
instance {α : Type} [Blurry α] : Blurry (List α) := ⟨fun b as => as.map (blur b)⟩

instance : Blurry Lexeme := ⟨fun b l => ⟨l.token, blur b l.text, blur b l.span⟩⟩
instance : Blurry Cursor := ⟨fun b c => ⟨blur b c.rest, blur b c.lastEnd, blur b c.finish⟩⟩

namespace Surface

instance : Blurry Dotted := ⟨fun b d => ⟨blur b d.first, blur b d.more⟩⟩

instance : Blurry Name where
  blur b
    | .words d => .words (blur b d)
    | .quoted literal => .quoted (blur b literal)

instance : Blurry DeclName := ⟨fun b d => ⟨blur b d.name, blur b d.span⟩⟩
instance : Blurry Parameters := ⟨fun b p => ⟨blur b p.names, blur b p.span⟩⟩

instance : Blurry EventName where
  blur b
    | .word text => .word (blur b text)
    | .message literal => .message (blur b literal)

instance : Blurry Reference := ⟨fun b r => ⟨r.qualifier, blur b r.member, blur b r.span⟩⟩

instance : Blurry Literal where
  blur b
    | .number negative digits => .number negative (blur b digits)
    | .string literal => .string (blur b literal)
    | .bool value => .bool value

mutual

/-- An expression with its texts and places blurred. -/
def Expression.blurred (b : Blur) : Expression → Expression
  | missing => .missing
  | literal value span => .literal (blur b value) (blur b span)
  | name reference span => .name (blur b reference) (blur b span)
  | call reference arguments span => .call (blur b reference) (Expression.blurredAll b arguments) (blur b span)
  | group inner span => .group (inner.blurred b) (blur b span)
  | binary operator lhs rhs span => .binary operator (lhs.blurred b) (rhs.blurred b) (blur b span)
  | not operand span => .not (operand.blurred b) (blur b span)
  | conditional condition consequent alternative span =>
    .conditional (condition.blurred b) (consequent.blurred b) (alternative.blurred b) (blur b span)

def Expression.blurredAll (b : Blur) : List Expression → List Expression
  | [] => []
  | e :: es => e.blurred b :: Expression.blurredAll b es

end

instance : Blurry Expression := ⟨Expression.blurred⟩

/-- Expressions are blurred one by one; the list in the mutual recursion is there for the recursion only. -/
@[simp] theorem Expression.blurredAll_eq_map (b : Blur) (es : List Expression) :
    Expression.blurredAll b es = es.map (Expression.blurred b) := by
  induction es with
  | nil => rfl
  | cons e es ih => rw [Expression.blurredAll, ih, List.map_cons]

instance : Blurry Arguments where
  blur b
    | .none => .none
    | .list items => .list (blur b items)
    | .single item => .single (blur b item)

instance : Blurry Target where
  blur b
    | .reference r => .reference (blur b r)
    | .group inner => .group (blur b inner)

mutual

/-- A statement with its texts and places blurred. -/
def Statement.blurred (b : Blur) : Statement → Statement
  | .comment text span => .comment (blur b text) (blur b span)
  | .ifElse condition consequent alternative span =>
    .ifElse (blur b condition) (consequent.blurred b) (alternative.blurred b) (blur b span)
  | .whileLoop condition body span => .whileLoop (blur b condition) (body.blurred b) (blur b span)
  | .repeatLoop count body span => .repeatLoop (blur b count) (body.blurred b) (blur b span)
  | .forLoop var first last step body span =>
    .forLoop (blur b var) (blur b first) (blur b last) (blur b step) (body.blurred b) (blur b span)
  | .breakLoop span => .breakLoop (blur b span)
  | .wait isUntil condition span => .wait isUntil (blur b condition) (blur b span)
  | .assign target operator value span => .assign (blur b target) operator (blur b value) (blur b span)
  | .instruction reference arguments span => .instruction (blur b reference) (blur b arguments) (blur b span)

def Block.blurred (b : Blur) : Block → Block
  | .missing => .missing
  | .braces statements span => .braces (Statement.blurredAll b statements) (blur b span)

def Alternative.blurred (b : Blur) : Alternative → Alternative
  | .none => .none
  | .elseIf condition consequent alternative span =>
    .elseIf (blur b condition) (consequent.blurred b) (alternative.blurred b) (blur b span)
  | .otherwise body => .otherwise (body.blurred b)

def Statement.blurredAll (b : Blur) : List Statement → List Statement
  | [] => []
  | s :: ss => s.blurred b :: Statement.blurredAll b ss

end

instance : Blurry Statement := ⟨Statement.blurred⟩
instance : Blurry Block := ⟨Block.blurred⟩
instance : Blurry Alternative := ⟨Alternative.blurred⟩

@[simp] theorem Statement.blurredAll_eq_map (b : Blur) (ss : List Statement) :
    Statement.blurredAll b ss = ss.map (Statement.blurred b) := by
  induction ss with
  | nil => rfl
  | cons s ss ih => rw [Statement.blurredAll, ih, List.map_cons]

instance : Blurry Item where
  blur b
    | .directive name value span => .directive (blur b name) (blur b value) (blur b span)
    | .var isList name span => .var isList (blur b name) (blur b span)
    | .event name parameters body span => .event (blur b name) (blur b parameters) (blur b body) (blur b span)
    | .instruction name parameters body span =>
      .instruction (blur b name) (blur b parameters) (blur b body) (blur b span)
    | .expression name parameters value span =>
      .expression (blur b name) (blur b parameters) (blur b value) (blur b span)
    | .block statements span => .block (blur b statements) (blur b span)

instance : Blurry Program := ⟨fun b p => ⟨blur b p.items⟩⟩

end Surface

instance : Blurry Parse.Branch :=
  ⟨fun b r => ⟨blur b r.condition, blur b r.consequent, blur b r.alternative, blur b r.span⟩⟩

/-! ## Cursors

All that a reading asks a cursor about which way to go is the same on the blurred cursor. What it asks for a
place is answered there with the fixed place. -/

namespace Cursor

variable (b : Blur) (c : Cursor)

@[simp] theorem token?_blur : (blur b c).token? = c.token? := by
  obtain ⟨rest, _, _⟩ := c
  cases rest <;> rfl

@[simp] theorem second?_blur : (blur b c).second? = c.second? := by
  obtain ⟨rest, _, _⟩ := c
  rcases rest with _ | ⟨l, _ | ⟨m, rest⟩⟩ <;> rfl

@[simp] theorem isAt_blur (t : Token) : (blur b c).isAt t = c.isAt t := by
  rw [isAt, isAt, token?_blur]

@[simp] theorem atStatementEnd_blur : (blur b c).atStatementEnd = c.atStatementEnd := by
  rw [atStatementEnd, atStatementEnd, token?_blur]

theorem next_blur : (blur b c).next = blur b c.next := by
  obtain ⟨rest, _, _⟩ := c
  cases rest <;> rfl

theorem start_blur : (blur b c).start = .origin := by
  obtain ⟨rest, _, _⟩ := c
  cases rest <;> rfl

theorem here_blur : (blur b c).here = .synthetic := by
  obtain ⟨rest, _, _⟩ := c
  cases rest <;> rfl

/-- Looking away from texts, a problem says the same about a lexeme and about the blurred one. -/
theorem message_found_blur (fault : Fault) :
    b.message (fault.message (blur b c).found) = b.message (fault.message c.found) := by
  obtain ⟨rest, _, _⟩ := c
  cases rest with
  | nil => rfl
  | cons l rest =>
      show b.message (fault.message (if l.token == .newline then "'\\n'" else "'" ++ b.text l.text ++ "'")) =
        b.message (fault.message (if l.token == .newline then "'\\n'" else "'" ++ l.text ++ "'"))
      split
      · rfl
      · exact b.message_shown fault l.text

end Cursor

/-! ## Readings that follow others

A reading is made of a few kinds of steps: a quiet reading, a posted fault, an attempt, and two readings one after
the other. `InStep` goes through the steps of two readings at once, and what holds for each step holds for both of
them. -/

/-- What the second reading gives is what the first one gives, blurred. -/
structure Blurs {α : Type} [Blurry α] (b : Blur) (r s : Reading α) : Prop where
  value : s.value = blur b r.value
  cursor : s.cursor = blur b r.cursor
  problems : s.problems.map b.said = r.problems.map b.said

/-- The second reading goes the way of the first one, on a blurred cursor. -/
def Follows {α : Type} [Blurry α] (b : Blur) (p q : Parse α) : Prop := ∀ c, Blurs b (p c) (q (blur b c))

/-- The second reading makes the steps of the first one. A quiet step finds no problems, and a value reaches the
second reading blurred. -/
inductive InStep (b : Blur) : {α : Type} → [Blurry α] → Parse α → Parse α → Prop where
  | ret {α : Type} [Blurry α] {a a' : α} : a' = blur b a → InStep b (pure a) (pure a')
  | bind {α β : Type} [Blurry α] [Blurry β] {p q : Parse α} {f g : α → Parse β} :
      InStep b p q → (∀ a, InStep b (f a) (g (blur b a))) → InStep b (p >>= f) (q >>= g)
  | quiet {α : Type} [Blurry α] {p q : Parse α} : (∀ c, (p c).problems = []) → Follows b p q → InStep b p q
  | report (fault : Fault) : InStep b (Parse.report fault) (Parse.report fault)
  | attempt {α : Type} [Blurry α] {first first' : Parse (Option α)} {p q : Parse α} :
      InStep b first first' → InStep b p q → InStep b (Parse.firstClean first p) (Parse.firstClean first' q)

namespace Follows

variable {b : Blur} {α β : Type} [Blurry α] [Blurry β] {p q : Parse α}

/-- Two readings one after the other follow if the first one does and the second one does for every value of it,
which reaches the followed reading blurred. The problems of both are put together in the same order. -/
theorem bind {f g : α → Parse β} (hp : Follows b p q) (hf : ∀ a, Follows b (f a) (g (blur b a))) :
    Follows b (p >>= f) (q >>= g) := by
  intro c
  obtain ⟨hvalue, hcursor, hproblems⟩ := hp c
  have hnext := hf (p c).value (p c).cursor
  rw [← hvalue, ← hcursor] at hnext
  constructor
  · exact hnext.value
  · exact hnext.cursor
  · show ((q (blur b c)).problems ++ _).map b.said = ((p c).problems ++ _).map b.said
    rw [List.map_append, List.map_append, hproblems, hnext.problems]

/-- A fault is shown with the text of the next lexeme. The blur looks at messages in such a way that it does not
matter which text is shown. -/
theorem report (fault : Fault) : Follows b (Parse.report fault) (Parse.report fault) := by
  intro c
  refine ⟨rfl, rfl, ?_⟩
  show [(Level.error, b.message (fault.message (blur b c).found))] = [(Level.error, b.message (fault.message c.found))]
  rw [Cursor.message_found_blur]

/-- Whether the first reading is kept depends on whether it gave something, whether it found problems and whether
a statement may end behind it. None of the three is changed by blurring, so both sides keep it or both give it
up. -/
theorem firstClean {first first' : Parse (Option α)} (hfirst : Follows b first first') (hp : Follows b p q) :
    Follows b (Parse.firstClean first p) (Parse.firstClean first' q) := by
  intro c
  obtain ⟨hvalue, hcursor, hproblems⟩ := hfirst c
  have hempty : (first' (blur b c)).problems.isEmpty = (first c).problems.isEmpty := by
    rw [← List.isEmpty_map, hproblems, List.isEmpty_map]
  unfold Parse.firstClean
  simp only [hvalue, hcursor, hempty, Cursor.atStatementEnd_blur]
  cases (first c).value with
  | none => exact hp c
  | some a =>
      show Blurs b (if _ then _ else _) (if _ then _ else _)
      split
      · exact ⟨rfl, rfl, rfl⟩
      · exact hp c

end Follows

/-- **What is made of the same steps goes the same way.** -/
theorem InStep.follows {b : Blur} {α : Type} [Blurry α] {p q : Parse α} (h : InStep b p q) : Follows b p q := by
  induction h with
  | ret ha => exact fun _ => ⟨ha, rfl, rfl⟩
  | bind _ _ ihp ihf => exact ihp.bind ihf
  | quiet _ hp => exact hp
  | report fault => exact .report fault
  | attempt _ _ ihfirst ihp => exact ihfirst.firstClean ihp

/-! ## Every reading keeps in step

One lemma for each step that is used, and then one for each reading, in the order in which they are defined; the
proof of each has the shape of its definition. A reading that takes another one as a parameter keeps in step if that
one does. -/

namespace Parse

/-- Passes over line ends before a brace and tells whether there is one; otherwise the cursor stays, but for the end of
the last read lexeme. -/
def blockFollows : Parse Bool := fun c =>
  let skipped := (skipNewlines c).cursor
  if skipped.isAt .leftBrace then ⟨true, skipped, []⟩ else ⟨false, { c with lastEnd := skipped.lastEnd }, []⟩

/-- The block after a header in two steps. -/
theorem blockAfterHeader_eq (block : Parse Surface.Block) :
    blockAfterHeader block = (do
      if ← blockFollows then block
      else
        let _ ← expect .leftBrace "'\x7b'"
        pure .missing) := by
  funext c
  unfold blockAfterHeader
  show _ = andThen blockFollows _ c
  unfold andThen blockFollows
  dsimp only
  split
  · rfl
  · rfl

end Parse

namespace InStep

variable {b : Blur}

section Steps

variable {α β : Type} [Blurry α] [Blurry β] {p p' q q' : Parse α}

theorem map {f g : α → β} (hp : InStep b p q) (hf : ∀ a, g (blur b a) = blur b (f a)) :
    InStep b (f <$> p) (g <$> q) := hp.bind fun a => ret (hf a)

/-- Both ways of a choice keep in step, so the choice does, if the condition is the same on both sides. -/
theorem ite {condition : Prop} [Decidable condition] (hp : InStep b p q) (hp' : InStep b p' q') :
    InStep b (if condition then p else p') (if condition then q else q') := by
  split
  · exact hp
  · exact hp'

theorem cursor : InStep b Parse.cursor Parse.cursor := quiet (fun _ => rfl) fun _ => ⟨rfl, rfl, rfl⟩

theorem blur_token (t : Option Token) : blur b t = t := by
  cases t <;> rfl

theorem token? : InStep b Parse.token? Parse.token? := by
  refine quiet (fun _ => rfl) fun c => ⟨?_, rfl, rfl⟩
  exact (Cursor.token?_blur b c).trans (blur_token _).symm

theorem isAt (t : Token) : InStep b (Parse.isAt t) (Parse.isAt t) :=
  quiet (fun _ => rfl) fun c => ⟨Cursor.isAt_blur b c t, rfl, rfl⟩

theorem start : InStep b Parse.start Parse.start := quiet (fun _ => rfl) fun c => ⟨Cursor.start_blur b c, rfl, rfl⟩

theorem spanFrom (first : Location) : InStep b (Parse.spanFrom first) (Parse.spanFrom (blur b first)) :=
  quiet (fun _ => rfl) fun _ => ⟨rfl, rfl, rfl⟩

theorem remaining : InStep b Parse.remaining Parse.remaining :=
  quiet (fun _ => rfl) fun _ => ⟨List.length_map (blur b), rfl, rfl⟩

theorem advance : InStep b Parse.advance Parse.advance :=
  quiet (fun _ => rfl) fun c => ⟨rfl, Cursor.next_blur b c, rfl⟩

/-- The next lexeme, whatever its class, is read as the blurred lexeme; at the end both readings find nothing. -/
theorem lexeme? : InStep b Parse.lexeme? Parse.lexeme? := by
  refine quiet (fun _ => rfl) fun c => ⟨?_, Cursor.next_blur b c, rfl⟩
  obtain ⟨rest, _, _⟩ := c
  cases rest <;> rfl

/-- Whether there is a lexeme of the class is the same on both sides, and so the same one is taken. -/
theorem eat (t : Token) : InStep b (Parse.eat t) (Parse.eat t) := by
  refine quiet (fun c => ?_) fun c => ?_
  · unfold Parse.eat
    split <;> rfl
  · unfold Parse.eat
    rw [Cursor.isAt_blur]
    split
    · exact lexeme?.follows c
    · exact ⟨rfl, rfl, rfl⟩

/-- A lexeme that is missed is missed on both sides, with the same words about what was expected. -/
theorem expect (t : Token) (expected : String) : InStep b (Parse.expect t expected) (Parse.expect t expected) := by
  apply bind (eat t)
  intro l
  cases l with
  | some l => exact ret rfl
  | none => exact bind (report _) fun _ => ret rfl

theorem mismatch (expected : String) :
    InStep b (Parse.mismatch expected : Parse (Option α)) (Parse.mismatch expected) :=
  bind (report _) fun _ => ret rfl

/-- Passing over the rest of a line counts braces, and those are classes of lexemes. The induction is over the
lexemes that are left, at any depth of open braces. -/
theorem recover (stopAtBrace : Bool) : InStep b (Parse.recover stopAtBrace) (Parse.recover stopAtBrace) := by
  -- braces are counted by class, and the cursor is blurred wherever it stops
  have hgo : ∀ (ls : List Lexeme) (depth : Nat) (c : Cursor),
      Parse.recover.go stopAtBrace depth (blur b c) (blur b ls) = blur b (Parse.recover.go stopAtBrace depth c ls) := by
    intro ls
    induction ls with
    | nil =>
        intro depth c
        rfl
    | cons l ls ih =>
        intro depth c
        show Parse.recover.go stopAtBrace depth (blur b c) (blur b l :: blur b ls) = _
        unfold Parse.recover.go
        rw [apply_ite (blur b), apply_ite (blur b), ← ih]
        rfl
  exact quiet (fun _ => rfl) fun c => ⟨rfl, hgo c.rest 0 c, rfl⟩

/-- Both sides are at the end of a statement or both post that something follows it and pass over it. -/
theorem expectLineEnd (inBlock : Bool) : InStep b (Parse.expectLineEnd inBlock) (Parse.expectLineEnd inBlock) := by
  apply bind cursor
  intro c
  rw [Cursor.atStatementEnd_blur]
  exact ite (ret rfl) (bind (report _) fun _ => recover _)

end Steps

/-! ### Names

Names carry the texts of their lexemes, so what is read on a blurred cursor is the blurred name. -/

/-- Two lexemes are taken in each round, a dot and a word. The texts of the words are all that differs on the two
sides. The induction follows the recursion of the reading, by the lexemes that are left. -/
theorem dottedTail : InStep b Parse.dottedTail Parse.dottedTail := by
  have hgo : ∀ (c : Cursor) (ls : List Lexeme),
      Blurs b (Parse.dottedTail.go c ls) (Parse.dottedTail.go (blur b c) (blur b ls)) := by
    intro c ls
    fun_induction Parse.dottedTail.go c ls with
    | case1 c d w ls h r ih =>
        have hblurred : ((blur b d).token == .dot && (blur b w).token.isWordLike) = true := h
        show Blurs b _ (Parse.dottedTail.go (blur b c) (blur b d :: blur b w :: blur b ls))
        rw [Parse.dottedTail.go, if_pos hblurred]
        exact ⟨congrArg (b.text w.text :: ·) ih.value, ih.cursor, ih.problems⟩
    | case2 c d w ls h =>
        have hblurred : ¬ ((blur b d).token == .dot && (blur b w).token.isWordLike) = true := h
        show Blurs b _ (Parse.dottedTail.go (blur b c) (blur b d :: blur b w :: blur b ls))
        rw [Parse.dottedTail.go, if_neg hblurred]
        exact ⟨rfl, rfl, rfl⟩
    | case3 c ls h =>
        rcases ls with _ | ⟨d, _ | ⟨w, ls⟩⟩
        · exact ⟨rfl, rfl, rfl⟩
        · exact ⟨rfl, rfl, rfl⟩
        · exact absurd rfl (h d w ls)
  have hquiet : ∀ (c : Cursor) (ls : List Lexeme), (Parse.dottedTail.go c ls).problems = [] := by
    intro c ls
    fun_induction Parse.dottedTail.go c ls with
    | case1 c d w ls _ r ih => exact ih
    | case2 => rfl
    | case3 => rfl
  exact quiet (fun c => hquiet c c.rest) fun c => hgo c c.rest

/-- A declared name is a string literal or dotted words, and which of the two is told by the class of its first
lexeme. -/
theorem declName : InStep b Parse.declName Parse.declName := by
  apply bind start
  intro first
  apply bind (eat _)
  intro l
  cases l with
  | some l => exact ret rfl
  | none =>
      apply bind (expect _ _)
      intro l
      cases l with
      | none => exact ret rfl
      | some l => exact bind dottedTail fun _ => bind (spanFrom _) fun _ => ret rfl

theorem blur_toList_append {α : Type} [Blurry α] (o : Option α) (as : List α) :
    (blur b o).toList ++ blur b as = blur b (o.toList ++ as) := by
  cases o <;> rfl

theorem blur_toList {α : Type} [Blurry α] (o : Option α) : (blur b o).toList = blur b o.toList := by
  cases o <;> rfl

/-- A list of names goes on exactly where a comma follows, on both sides. The induction is over the number of
names that may still come. -/
theorem declNames (n : Nat) : InStep b (Parse.declNames n) (Parse.declNames n) := by
  induction n with
  | zero => exact ret rfl
  | succ n ih =>
      apply bind declName
      intro name
      apply bind (eat _)
      intro comma
      cases comma with
      | some _ => exact bind ih fun _ => ret (blur_toList_append name _)
      | none => exact ret (blur_toList name)

/-- Parentheses open a list of parameters on both sides. An empty list is told by the closing parenthesis behind
the opening one. -/
theorem parameters : InStep b Parse.parameters Parse.parameters := by
  apply bind (isAt _)
  intro opened
  refine ite ?_ (ret rfl)
  -- there may be no names between the parentheses
  have hnames : InStep b
      (do
        if ← Parse.isAt .rightParen then pure []
        else
          let budget ← Parse.remaining
          Parse.declNames (budget + 1))
      (do
        if ← Parse.isAt .rightParen then pure []
        else
          let budget ← Parse.remaining
          Parse.declNames (budget + 1)) :=
    bind (isAt _) fun _ => ite (ret rfl) (bind remaining fun _ => declNames _)
  exact bind start fun _ => bind advance fun _ => bind hnames fun _ => bind (expect _ _) fun _ =>
    bind (spanFrom _) fun _ => ret rfl

/-- Behind the dot of a qualifier any word may stand, keywords included, or a string literal. -/
theorem member : InStep b Parse.member Parse.member := by
  apply bind token?
  intro t
  rw [blur_token]
  split
  · refine bind lexeme? fun l => ret ?_
    cases l <;> rfl
  · refine ite (bind lexeme? fun l => ?_) (mismatch _)
    cases l with
    | none => exact ret rfl
    | some l => exact bind dottedTail fun _ => ret rfl
  · exact mismatch _

/-- A use of a name is qualified on both sides or on none, since a qualifier is a keyword. -/
theorem reference : InStep b Parse.reference Parse.reference := by
  apply bind start
  intro first
  apply bind token?
  intro t
  rw [blur_token]
  split
  · refine bind advance fun _ => bind (expect _ _) fun dot => ?_
    cases dot with
    | none => exact ret rfl
    | some _ => exact bind member fun _ => bind (spanFrom _) fun _ => ret rfl
  · apply bind (expect _ _)
    intro l
    cases l with
    | none => exact ret rfl
    | some l => exact bind dottedTail fun _ => bind (spanFrom _) fun _ => ret rfl

/-! ### Expressions

The loops of these readings are counted down by a budget, and the budget is the number of lexemes left, which
blurring does not change. So both readings have the same number of rounds, and the induction is over them. -/

section Expressions

variable {operand operand' expr expr' : Parse.ExpressionParse}

theorem blur_orMissing (e : Option Surface.Expression) : Parse.orMissing (blur b e) = blur b (Parse.orMissing e) := by
  cases e <;> rfl

/-- A chain of operators of one level. The operators are found in the table by their tokens, the operand on the
left grows by one operation in each round, and it is the blurred one throughout. -/
theorem operatorChain (table : Parse.OperatorTable) (h : InStep b operand operand') (first : Location) (n : Nat)
    (lhs : Surface.Expression) : InStep b (Parse.operatorChain table operand first n lhs)
      (Parse.operatorChain table operand' (blur b first) n (blur b lhs)) := by
  induction n generalizing lhs with
  | zero => exact ret rfl
  | succ n ih =>
      apply bind token?
      intro t
      rw [blur_token]
      split
      · exact ret rfl
      · refine bind advance fun _ => bind h fun rhs => bind (spanFrom _) fun _ => ?_
        rw [blur_orMissing]
        exact ih _

theorem binaryLevel (table : Parse.OperatorTable) (h : InStep b operand operand') :
    InStep b (Parse.binaryLevel table operand) (Parse.binaryLevel table operand') := by
  refine bind start fun first => bind h fun lhs => ?_
  cases lhs with
  | none => exact ret rfl
  | some lhs => exact bind remaining fun _ => bind (operatorChain table h _ _ _) fun _ => ret rfl

/-- Powers group to the right, so the induction is over the number of powers that may still come, and the operand
on the right is the one that the induction is applied to. -/
theorem powerWithin (h : InStep b operand operand') (n : Nat) :
    InStep b (Parse.powerWithin operand n) (Parse.powerWithin operand' n) := by
  induction n with
  | zero => exact mismatch _
  | succ n ih =>
      refine bind start fun first => bind h fun lhs => ?_
      cases lhs with
      | none => exact ret rfl
      | some lhs =>
          apply bind (eat _)
          intro caret
          cases caret with
          | none => exact ret rfl
          | some _ =>
              refine bind ih fun rhs => bind (spanFrom _) fun _ => ret ?_
              rw [blur_orMissing]
              rfl

theorem power (h : InStep b operand operand') : InStep b (Parse.power operand) (Parse.power operand') :=
  bind remaining fun _ => powerWithin h _

/-- Negations nest, and each takes its keyword. Without one the level below is read. -/
theorem notWithin (h : InStep b operand operand') (n : Nat) :
    InStep b (Parse.notWithin operand n) (Parse.notWithin operand' n) := by
  induction n with
  | zero => exact h
  | succ n ih =>
      refine bind (isAt _) fun _ => ite (bind start fun _ => bind advance fun _ => bind ih fun e =>
        bind (spanFrom _) fun _ => ret ?_) h
      rw [blur_orMissing]
      rfl

theorem notLevel (h : InStep b operand operand') : InStep b (Parse.notLevel operand) (Parse.notLevel operand') :=
  bind remaining fun _ => notWithin h _

/-- An expression behind a keyword or a sign. If that is missed then nothing is read behind it, on both sides. -/
theorem expressionAfter (h : InStep b expr expr') (t : Token) (expected : String) :
    InStep b (Parse.expressionAfter expr t expected) (Parse.expressionAfter expr' t expected) := by
  apply bind (expect _ _)
  intro l
  cases l with
  | none => exact ret rfl
  | some _ => exact bind h fun e => ret (blur_orMissing e)

/-- The three parts of a conditional expression are read one after the other, whether or not a keyword is missed.
-/
theorem conditional (h : InStep b expr expr') : InStep b (Parse.conditional expr) (Parse.conditional expr') := by
  refine bind start fun _ => bind advance fun _ => bind h fun _ => bind (expressionAfter h _ _) fun _ =>
    bind (expressionAfter h _ _) fun _ => bind (spanFrom _) fun _ => ret ?_
  rw [blur_orMissing]
  rfl

/-- Arguments that cannot be read are left out, and a comma leads on to the next. The induction is over the
number of arguments that may still come. -/
theorem callItems (h : InStep b expr expr') (n : Nat) :
    InStep b (Parse.callItems expr n) (Parse.callItems expr' n) := by
  induction n with
  | zero => exact ret rfl
  | succ n ih =>
      refine bind h fun e => bind (eat _) fun comma => ?_
      cases comma with
      | some _ => exact bind ih fun _ => ret (blur_toList_append e _)
      | none => exact ret (blur_toList e)

/-- The arguments of a call, of which there are none if the parenthesis is closed at once. -/
theorem callArguments (h : InStep b expr expr') :
    InStep b (Parse.callArguments expr) (Parse.callArguments expr') := by
  refine bind advance fun _ => bind (eat _) fun closed => ?_
  cases closed with
  | some _ => exact ret rfl
  | none => exact bind remaining fun _ => bind (callItems h _) fun _ => bind (expect _ _) fun _ => ret rfl

/-- A name is a call if a parenthesis follows, which is told by a class. The arguments of a blurred call are the
blurred arguments. -/
theorem nameOrCall (h : InStep b expr expr') : InStep b (Parse.nameOrCall expr) (Parse.nameOrCall expr') := by
  refine bind start fun first => bind reference fun r => ?_
  cases r with
  | none => exact ret rfl
  | some r =>
      refine bind (isAt _) fun _ => ite (bind (callArguments h) fun arguments => bind (spanFrom _) fun _ => ret ?_)
        (bind (spanFrom _) fun _ => ret rfl)
      show some _ = some (Surface.Expression.call _ (Surface.Expression.blurredAll b arguments) _)
      rw [Surface.Expression.blurredAll_eq_map]
      rfl

/-- A constant of one lexeme is made from its text, so the function that makes it has to commute with blurring.
The constants that do not look at the text do so trivially. -/
theorem constant {value : String → Surface.Literal} (h : ∀ text, value (blur b text) = blur b (value text)) :
    InStep b (Parse.constant value) (Parse.constant value) := by
  refine bind start fun first => bind lexeme? fun l => ?_
  cases l with
  | none => exact ret rfl
  | some l =>
      refine bind (spanFrom _) fun _ => ret ?_
      exact congrArg (fun value => some (Surface.Expression.literal value .synthetic)) (h l.text)

/-- What begins an expression decides what is read. There is one case for each such token, and none of them looks
at a text. -/
theorem primary (h : InStep b expr expr') : InStep b (Parse.primary expr) (Parse.primary expr') := by
  apply bind cursor
  intro c
  rw [Cursor.token?_blur, Cursor.second?_blur, Cursor.start_blur]
  -- one case for each token that an expression can begin with
  split
  · exact constant fun _ => rfl
  · refine ite (bind advance fun _ => bind lexeme? fun l => ?_) (mismatch _)
    cases l with
    | none => exact ret rfl
    | some l => exact bind (spanFrom _) fun _ => ret rfl
  · exact constant fun _ => rfl
  · exact constant fun _ => rfl
  · exact constant fun _ => rfl
  · refine bind advance fun _ => bind h fun _ => bind (expect _ _) fun _ => bind (spanFrom _) fun _ => ret ?_
    rw [blur_orMissing]
    rfl
  · exact conditional h
  · exact nameOrCall h
  · exact nameOrCall h
  · exact nameOrCall h
  · exact nameOrCall h
  · exact mismatch _

theorem operators (h : InStep b expr expr') : InStep b (Parse.operators expr) (Parse.operators expr') :=
  binaryLevel _ <| binaryLevel _ <| notLevel <| binaryLevel _ <| binaryLevel _ <| binaryLevel _ <| power <| primary h

/-- Whole expressions, by induction over the budget of nested ones: the levels are functions of the reading of
nested expressions, and those follow with a smaller budget. -/
theorem expressionWithin (n : Nat) : InStep b (Parse.expressionWithin n) (Parse.expressionWithin n) := by
  induction n with
  | zero => exact mismatch _
  | succ n ih => exact bind (isAt _) fun _ => ite (conditional ih) (operators ih)

theorem expression : InStep b Parse.expression Parse.expression := bind remaining fun _ => expressionWithin _

/-- Unlike `callItems` this list is given up at the first expression that cannot be read. -/
theorem listItems (n : Nat) : InStep b (Parse.listItems n) (Parse.listItems n) := by
  induction n with
  | zero => exact ret rfl
  | succ n ih =>
      apply bind expression
      intro e
      cases e with
      | none => exact ret rfl
      | some e =>
          apply bind (eat _)
          intro comma
          cases comma with
          | none => exact ret rfl
          | some _ =>
              refine bind ih fun more => ret ?_
              cases more <;> rfl

/-- A list of arguments in parentheses is found on both sides or on none. -/
theorem argumentList : InStep b Parse.argumentList Parse.argumentList := by
  apply bind (expect _ _)
  intro opened
  cases opened with
  | none => exact ret rfl
  | some _ =>
      apply bind (eat _)
      intro closed
      cases closed with
      | some _ => exact ret rfl
      | none =>
          refine bind remaining fun _ => bind (listItems _) fun items => ?_
          cases items with
          | none => exact ret rfl
          | some items =>
              apply bind (expect _ _)
              intro closed
              cases closed with
              | none => exact ret rfl
              | some _ => exact ret rfl

end Expressions

/-! ### Statements

The same for statements, as functions of the reading of blocks. The one place at which a reading is tried and
given up is that of the arguments of an instruction. -/

section Statements

variable {block block' : Parse Surface.Block}

/-- Which of the two assignments it is, is told by the sign. The place and the target that come from before are
blurred on the side that follows. -/
theorem assignment (first : Location) (target : Surface.Target) :
    InStep b (Parse.assignment first target) (Parse.assignment (blur b first) (blur b target)) := by
  have hrest : ∀ operator, InStep b (Parse.assignment.rest first target operator)
      (Parse.assignment.rest (blur b first) (blur b target) operator) := by
    intro operator
    refine bind advance fun _ => bind expression fun _ => bind (spanFrom _) fun _ => ret ?_
    rw [blur_orMissing]
    rfl
  apply bind token?
  intro t
  rw [blur_token]
  split
  · exact hrest _
  · exact hrest _
  · exact mismatch _

theorem singleArgument : InStep b Parse.singleArgument Parse.singleArgument := by
  apply bind expression
  intro e
  cases e with
  | some e => exact ret rfl
  | none => exact ret rfl

/-- Whether an attempt is given up does not depend on what is looked away from. -/
theorem instructionArguments : InStep b Parse.instructionArguments Parse.instructionArguments := by
  apply bind cursor
  intro c
  rw [Cursor.atStatementEnd_blur, Cursor.isAt_blur]
  refine ite (ret rfl) <| ite (attempt (bind argumentList fun items => ret ?_) singleArgument) singleArgument
  cases items <;> rfl

/-- A statement that begins with a name is an assignment if its sign follows, and otherwise an instruction. -/
theorem namedStatement : InStep b Parse.namedStatement Parse.namedStatement := by
  refine bind start fun first => bind reference fun r => ?_
  cases r with
  | none => exact ret rfl
  | some r =>
      apply bind cursor
      intro c
      rw [Cursor.isAt_blur, Cursor.isAt_blur]
      exact ite (assignment _ _) (bind instructionArguments fun _ => bind (spanFrom _) fun _ => ret rfl)

theorem groupAssignment : InStep b Parse.groupAssignment Parse.groupAssignment := by
  refine bind start fun first => bind advance fun _ => bind expression fun inner => bind (expect _ _) fun _ => ?_
  rw [blur_orMissing]
  exact assignment first _

/-- Whether `until` was read, and whether anything follows it, is the same on both sides. -/
theorem waitStatement : InStep b Parse.waitStatement Parse.waitStatement := by
  refine bind start fun first => bind advance fun _ => bind (eat _) fun word => bind cursor fun c => ?_
  have hwait : ∀ condition, Surface.Statement.wait (blur b word).isSome (Parse.orMissing (blur b condition)) .synthetic =
      blur b (Surface.Statement.wait word.isSome (Parse.orMissing condition) .synthetic) := by
    intro condition
    rw [blur_orMissing]
    cases word <;> rfl
  have hnone : (blur b word).isNone = word.isNone := by cases word <;> rfl
  rw [Cursor.atStatementEnd_blur, hnone]
  exact ite (bind (ret rfl) fun _ => bind (spanFrom _) fun _ => ret (hwait _))
    (bind expression fun _ => bind (spanFrom _) fun _ => ret (hwait _))

/-- Line ends are passed over by their class. The induction is over the lexemes that are left, for any cursor. -/
theorem skipNewlines_blur (c : Cursor) : (Parse.skipNewlines (blur b c)).cursor = blur b (Parse.skipNewlines c).cursor := by
  have hgo : ∀ (ls : List Lexeme) (c : Cursor),
      Parse.skipNewlines.go (blur b c) (blur b ls) = blur b (Parse.skipNewlines.go c ls) := by
    intro ls
    induction ls with
    | nil =>
        intro c
        rfl
    | cons l ls ih =>
        intro c
        show Parse.skipNewlines.go (blur b c) (blur b l :: blur b ls) = _
        unfold Parse.skipNewlines.go
        rw [apply_ite (blur b), ← ih]
        rfl
  exact hgo c.rest c

/-- Line ends before the brace of a block are passed over on both sides, and if no brace follows both go back. -/
theorem blockAfterHeader (h : InStep b block block') :
    InStep b (Parse.blockAfterHeader block) (Parse.blockAfterHeader block') := by
  rw [Parse.blockAfterHeader_eq, Parse.blockAfterHeader_eq]
  have hfound : InStep b Parse.blockFollows Parse.blockFollows := by
    refine quiet (fun c => ?_) fun c => ?_
    · unfold Parse.blockFollows
      dsimp only
      split <;> rfl
    · unfold Parse.blockFollows
      simp only [skipNewlines_blur, Cursor.isAt_blur]
      split <;> exact ⟨rfl, rfl, rfl⟩
  exact bind hfound fun _ => ite h (bind (expect _ _) fun _ => ret rfl)

/-- The word `else` may stand behind line ends, and both sides look for it behind the same ones. -/
theorem elseWord : InStep b Parse.elseWord Parse.elseWord := by
  refine quiet (fun c => ?_) fun c => ?_
  · unfold Parse.elseWord
    dsimp only
    split <;> rfl
  · unfold Parse.elseWord
    simp only [skipNewlines_blur, Cursor.isAt_blur]
    split
    · exact ⟨rfl, Cursor.next_blur b _, rfl⟩
    · exact ⟨rfl, rfl, rfl⟩

/-- A chain of conditions, by induction over the number of `else if` that may still come. -/
theorem branchWithin (h : InStep b block block') (n : Nat) :
    InStep b (Parse.branchWithin block n) (Parse.branchWithin block' n) := by
  induction n with
  | zero => exact bind start fun _ => bind (report _) fun _ => bind (spanFrom _) fun _ => ret rfl
  | succ n ih =>
      refine bind start fun first => bind advance fun _ => bind expression fun condition => bind (eat _) fun _ =>
        bind (blockAfterHeader h) fun consequent => bind ?_ fun _ => bind (spanFrom _) fun _ => ret ?_
      · -- after `else` the chain goes on with `if`, or ends with a block
        refine bind elseWord fun _ => ite (bind (isAt _) fun _ => ite (bind ih fun _ => ret rfl)
          (bind (blockAfterHeader h) fun body => ret ?_)) (ret rfl)
        cases body <;> rfl
      · rw [blur_orMissing]
        rfl

theorem branch (h : InStep b block block') : InStep b (Parse.branch block) (Parse.branch block') :=
  bind remaining fun _ => bind (branchWithin h _) fun _ => ret rfl

/-- A loop with one expression before its block. Which loop it is comes in as the function that makes it, which
has to commute with blurring. -/
theorem loop (h : InStep b block block') {make : Surface.Expression → Surface.Block → Span → Surface.Statement}
    (hmake : ∀ head body span, make (blur b head) (blur b body) (blur b span) = blur b (make head body span)) :
    InStep b (Parse.loop block make) (Parse.loop block' make) := by
  refine bind start fun _ => bind advance fun _ => bind expression fun _ => bind (blockAfterHeader h) fun _ =>
    bind (spanFrom _) fun _ => ret ?_
  rw [blur_orMissing]
  exact hmake _ _ _

/-- A counting loop. Its step is read if the word `step` stands there, and otherwise left out on both sides. -/
theorem forLoop (h : InStep b block block') : InStep b (Parse.forLoop block) (Parse.forLoop block') := by
  refine bind start fun first => bind advance fun _ => bind declName fun _ => bind (expressionAfter expression _ _) fun _ =>
    bind (expressionAfter expression _ _) fun _ => bind (bind (eat _) fun word => ?_) fun _ =>
      bind (blockAfterHeader h) fun _ => bind (spanFrom _) fun _ => ret ?_
  · cases word with
    | some _ => exact expression
    | none => exact ret rfl
  · rw [blur_orMissing]
    rfl

/-- What begins a statement decides what is read, and there is one case for each such token. -/
theorem statement (h : InStep b block block') : InStep b (Parse.statement block) (Parse.statement block') := by
  apply bind cursor
  intro c
  rw [Cursor.token?_blur, Cursor.here_blur]
  -- one case for each token that a statement can begin with
  split
  · exact ret rfl
  · exact map (branch h) fun _ => rfl
  · exact map (loop h fun _ _ _ => rfl) fun _ => rfl
  · exact map (loop h fun _ _ _ => rfl) fun _ => rfl
  · exact map (forLoop h) fun _ => rfl
  · exact bind advance fun _ => ret rfl
  · exact map waitStatement fun _ => rfl
  · exact groupAssignment
  · exact namedStatement
  · exact namedStatement
  · exact namedStatement
  · exact namedStatement
  · exact bind (report _) fun _ => ret rfl

/-- Every round of this loop looks at the class of the next lexeme: it ends at a closing brace, passes over a
line end, keeps a comment, or reads one statement. The text of a comment is kept blurred. -/
theorem statements {one one' : Parse (Option Surface.Statement)} (h : InStep b one one') (n : Nat) :
    InStep b (Parse.statements one n) (Parse.statements one' n) := by
  induction n with
  | zero => exact ret rfl
  | succ n ih =>
      apply bind cursor
      rintro ⟨rest, _, _⟩
      cases rest with
      | nil => exact bind (report _) fun _ => ret rfl
      | cons l rest =>
          have hrest : ∀ first last, (blur b (⟨l :: rest, first, last⟩ : Cursor)).rest = blur b l :: blur b rest :=
            fun _ _ => rfl
          have htoken : (blur b l).token = l.token := rfl
          simp only [hrest, htoken]
          split
          · exact bind advance fun _ => ret rfl
          · exact bind advance fun _ => ih
          · exact bind advance fun _ => bind ih fun _ => ret rfl
          · apply bind h
            intro s
            cases s with
            | some s => exact bind (expectLineEnd _) fun _ => bind ih fun _ => ret rfl
            -- the rest of the line is passed over
            | none => exact bind (recover _) fun _ => ih

/-- Blocks, by induction over the budget of nested ones, as with expressions. -/
theorem blockWithin (n : Nat) : InStep b (Parse.blockWithin n) (Parse.blockWithin n) := by
  induction n with
  | zero => exact bind (report _) fun _ => ret rfl
  | succ n ih =>
      refine bind start fun _ => bind advance fun _ => bind remaining fun _ => bind (statements (statement ih) _) fun body =>
        bind (spanFrom _) fun _ => ret ?_
      show _ = Surface.Block.braces (Surface.Statement.blurredAll b body) _
      rw [Surface.Statement.blurredAll_eq_map]
      rfl

end Statements

theorem block : InStep b Parse.block Parse.block := bind remaining fun _ => blockWithin _

/-! ### Programs

An item is chosen by its first two tokens, which are not blurred. -/

/-- The name of a directive is any word, and its value the string literal behind it, if there is one. -/
theorem directiveItem : InStep b Parse.directiveItem Parse.directiveItem := by
  refine bind start fun first => bind advance fun _ => bind (bind token? fun t => ?_) fun _ => bind (eat _) fun value =>
    bind (spanFrom _) fun _ => ret ?_
  · cases t with
    | none => exact mismatch _
    | some t =>
        refine ite (bind lexeme? fun l => ret ?_) (mismatch _)
        cases l <;> rfl
  · cases value <;> rfl

theorem varItem (isList : Bool) : InStep b (Parse.varItem isList) (Parse.varItem isList) :=
  bind start fun _ => bind advance fun _ => bind declName fun _ => bind (spanFrom _) fun _ => ret rfl

/-- An event is named by a word or by a string literal; which of the two it is decides between events and
messages only later. -/
theorem eventName : InStep b Parse.eventName Parse.eventName := by
  apply bind token?
  intro t
  rw [blur_token]
  split
  · refine bind lexeme? fun l => ret ?_
    cases l <;> rfl
  · refine bind lexeme? fun l => ret ?_
    cases l <;> rfl
  · exact mismatch _

theorem eventItem : InStep b Parse.eventItem Parse.eventItem :=
  bind start fun _ => bind advance fun _ => bind eventName fun _ => bind parameters fun _ =>
    bind (blockAfterHeader block) fun _ => bind (spanFrom _) fun _ => ret rfl

theorem instructionItem : InStep b Parse.instructionItem Parse.instructionItem :=
  bind start fun _ => bind advance fun _ => bind declName fun _ => bind parameters fun _ =>
    bind (blockAfterHeader block) fun _ => bind (spanFrom _) fun _ => ret rfl

theorem expressionItem : InStep b Parse.expressionItem Parse.expressionItem :=
  bind start fun _ => bind advance fun _ => bind advance fun _ => bind declName fun _ => bind parameters fun _ =>
    bind (expressionAfter expression _ _) fun _ => bind (spanFrom _) fun _ => ret rfl

/-- A block at the top of a program is read as any other block. -/
theorem blockItem : InStep b Parse.blockItem Parse.blockItem := by
  apply bind block
  intro body
  cases body with
  | missing => exact bind start fun _ => bind (spanFrom _) fun _ => ret rfl
  | braces statements span =>
      apply ret
      show Surface.Item.block (Surface.Statement.blurredAll b statements) _ = _
      rw [Surface.Statement.blurredAll_eq_map]
      rfl

/-- The item that two tokens begin keeps in step with itself, whichever it is. -/
theorem item {t : Token} {second : Option Token} {one : Parse Surface.Item} (h : Parse.item? t second = some one) :
    InStep b one one := by
  unfold Parse.item? at h
  split at h
  · exact Option.some.inj h ▸ directiveItem
  · exact Option.some.inj h ▸ varItem false
  · exact Option.some.inj h ▸ varItem true
  · exact Option.some.inj h ▸ eventItem
  · split at h
    · exact Option.some.inj h ▸ expressionItem
    · exact Option.some.inj h ▸ instructionItem
  · exact Option.some.inj h ▸ blockItem
  · cases h

/-- The items of a text, by induction over the number of rounds. A line that begins no item is passed over on
both sides after the same problem. -/
theorem items (n : Nat) : InStep b (Parse.items n) (Parse.items n) := by
  induction n with
  | zero => exact ret rfl
  | succ n ih =>
      apply bind cursor
      intro c
      rw [Cursor.token?_blur, Cursor.second?_blur]
      split
      · exact ret rfl
      · refine ite (bind advance fun _ => ih) ?_
        split
        · rename_i one hone
          exact bind (item hone) fun _ => bind (expectLineEnd _) fun _ => bind ih fun _ => ret rfl
        · exact bind (report _) fun _ => bind advance fun _ => bind (recover _) fun _ => ih

/-- **The reading of programs keeps in step with itself**: it looks at no place and at no text. The number of rounds
is the same on both sides because blurring leaves the number of lexemes. -/
theorem program : InStep b Parse.program Parse.program := bind remaining fun _ => bind (items _) fun _ => ret rfl

end InStep

end FlightScript
