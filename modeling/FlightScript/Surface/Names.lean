import FlightScript.Surface.Cursor

/-!
# `Surface.Names` — reading names

A declared name is a string literal or words joined by dots, the first of which is no keyword. A use of a
name may be qualified; after the qualifier's dot, and after every other dot, keywords serve as words too.
-/

namespace FlightScript.Parse

open Surface

/-- The words that follow the first word of a name, each after a dot. -/
def dottedTail : Parse (List String) := fun c => go c c.rest
where
  /-- The dotted words that the rest begins with. -/
  go (c : Cursor) : List Lexeme → Reading (List String)
    | d :: w :: ls =>
      if d.token == .dot && w.token.isWordLike then
        let r := go { c with rest := ls, lastEnd := w.span.stop } ls
        ⟨w.text :: r.value, r.cursor, r.problems⟩
      else ⟨[], { c with rest := d :: w :: ls }, []⟩
    | ls => ⟨[], { c with rest := ls }, []⟩

/-- The name of something declared. -/
def declName : Parse (Option DeclName) := do
  let first ← start
  match ← eat .string with
  | some l => pure (some ⟨.quoted l.text, l.span⟩)
  | none =>
    match ← expect .word "a name" with
    | none => pure none
    | some l =>
      let more ← dottedTail
      let span ← spanFrom first
      pure (some ⟨.words ⟨l.text, more⟩, span⟩)

/-- At most `n` names with commas between them. -/
def declNames : Nat → Parse (List DeclName)
  | 0 => pure []
  | n + 1 => do
    let name ← declName
    match ← eat .comma with
    | some _ =>
      let more ← declNames n
      pure (name.toList ++ more)
    | none => pure name.toList

/-- The parameters of a declaration, if parentheses follow. Each name but the first has its comma, so there
are no more names than lexemes left. -/
def parameters : Parse (Option Parameters) := do
  if ← isAt .leftParen then
    let first ← start
    advance
    let names ← (do
      if ← isAt .rightParen then pure []
      else
        let budget ← remaining
        declNames (budget + 1))
    let _ ← expect .rightParen "')'"
    let span ← spanFrom first
    pure (some ⟨names, span⟩)
  else pure none

/-- The qualifier that a token is. -/
def qualifier? : Option Token → Option Qualifier
  | some (.keyword .this) => some .this
  | some (.keyword .var) => some .var
  | some (.keyword .local_) => some .local_
  | _ => none

/-- The name after a qualifier's dot. -/
def member : Parse (Option Name) := do
  match ← token? with
  | some .string =>
    let l ← lexeme?
    pure (l.map fun l => .quoted l.text)
  | some t =>
    if t.isWordLike then
      match ← lexeme? with
      | none => pure none
      | some l =>
        let more ← dottedTail
        pure (some (.words ⟨l.text, more⟩))
    else mismatch "member name"
  | none => mismatch "member name"

/-- A use of a name, qualified or not. -/
def reference : Parse (Option Reference) := do
  let first ← start
  match qualifier? (← token?) with
  | some q =>
    advance
    match ← expect .dot "'.'" with
    | none => pure none
    | some _ =>
      let name ← member
      let span ← spanFrom first
      pure (some ⟨some q, name, span⟩)
  | none =>
    match ← expect .word "identifier" with
    | none => pure none
    | some l =>
      let more ← dottedTail
      let span ← spanFrom first
      pure (some ⟨none, some (.words ⟨l.text, more⟩), span⟩)

end FlightScript.Parse
