import FlightScript.Surface.Expressions

/-!
# `Surface.Statements` — reading statements and blocks

A block is a pair of braces with statements on lines of their own. A statement that cannot be read is
passed over up to the end of its line or the closing brace of its block. As with expressions, the readings of
single statements are functions of the reading of blocks, and `blockWithin` ties the knot by a budget of
nested blocks: every block begins with a brace of its own.

## Contents

* `assignment`, `instructionArguments`, `waitStatement` and the headed statements;
* `statement`, one statement, and `statements`, those up to a closing brace;
* `block`, a whole block.
-/

namespace FlightScript.Parse

open Surface

/-! ## Statements without blocks -/

/-- The rest of an assignment after its target. -/
def assignment (first : Location) (target : Target) : Parse (Option Statement) := do
  match ← token? with
  | some .assign => rest .set
  | some .plusAssign => rest .change
  | _ => mismatch "'=' or '+='"
where
  /-- The operator and the value. -/
  rest (operator : AssignOperator) : Parse (Option Statement) := do
    advance
    let value ← expression
    let span ← spanFrom first
    pure (some (.assign target operator (orMissing value) span))

/-- One expression as the only argument of an instruction. -/
def singleArgument : Parse Arguments := do
  match ← expression with
  | some e => pure (.single e)
  | none => pure .none

/-- The arguments of an instruction. A parenthesis begins a list of arguments if the whole rest of the
statement reads as one, and otherwise a single expression. -/
def instructionArguments : Parse Arguments := do
  let c ← cursor
  if c.atStatementEnd then pure .none
  else if c.isAt .leftParen then
    firstClean (do
      let items ← argumentList
      pure (items.map .list)) singleArgument
  else singleArgument

/-- A statement that begins with a name: an assignment or an instruction. -/
def namedStatement : Parse (Option Statement) := do
  let first ← start
  match ← reference with
  | none => pure none
  | some r =>
    let c ← cursor
    if c.isAt .assign || c.isAt .plusAssign then assignment first (.reference r)
    else
      let arguments ← instructionArguments
      let span ← spanFrom first
      pure (some (.instruction r arguments span))

/-- An assignment to an expression in parentheses. -/
def groupAssignment : Parse (Option Statement) := do
  let first ← start
  advance
  let inner ← expression
  let _ ← expect .rightParen "')'"
  assignment first (.group (orMissing inner))

/-- A wait for a time or for a condition. -/
def waitStatement : Parse Statement := do
  let first ← start
  advance
  let word ← eat (.keyword .until_)
  let c ← cursor
  -- `wait` by itself is complete, `wait until` is not
  let condition ←
    if word.isNone && c.atStatementEnd then pure none
    else expression
  let span ← spanFrom first
  pure (.wait word.isSome (orMissing condition) span)

/-! ## Statements with blocks -/

/-- The block after a header. Line ends may stand before its brace. If there is none the cursor goes back to
the end of the header, except that the end of the last read lexeme is that of the last line end passed. -/
def blockAfterHeader (block : Parse Block) : Parse Block := fun c =>
  let skipped := (skipNewlines c).cursor
  if skipped.isAt .leftBrace then block skipped
  else
    (do
      let _ ← expect .leftBrace "'\x7b'"
      pure Block.missing : Parse Block) { c with lastEnd := skipped.lastEnd }

/-- Reads `else`, before which line ends may stand; otherwise reads nothing. -/
def elseWord : Parse Bool := fun c =>
  let skipped := (skipNewlines c).cursor
  if skipped.isAt (.keyword .else_) then ⟨true, skipped.next, []⟩ else ⟨false, c, []⟩

/-- A condition with its block and what stands after `else`. -/
structure Branch where
  condition : Expression
  consequent : Block
  alternative : Alternative
  span : Span

/-- The alternative that a block after `else` is. -/
def otherwise : Block → Alternative
  | .missing => .none
  | .braces statements span => .otherwise (.braces statements span)

/-- A chain of at most `n` conditions, from the keyword `if` on. -/
def branchWithin (block : Parse Block) : Nat → Parse Branch
  | 0 => do
    let first ← start
    report .notStatement
    let span ← spanFrom first
    pure ⟨.missing, .missing, .none, span⟩
  | n + 1 => do
    let first ← start
    advance
    let condition ← expression
    -- before a block `then` may be left out
    let _ ← eat (.keyword .then_)
    let consequent ← blockAfterHeader block
    let alternative ← (do
      if ← elseWord then
        if ← isAt (.keyword .if_) then
          let rung ← branchWithin block n
          pure (.elseIf rung.condition rung.consequent rung.alternative rung.span)
        else
          let body ← blockAfterHeader block
          pure (otherwise body)
      else pure Alternative.none)
    let span ← spanFrom first
    pure ⟨orMissing condition, consequent, alternative, span⟩

/-- A chain of conditions. Each after the first comes after an `else` of its own. -/
def branch (block : Parse Block) : Parse Statement := do
  let budget ← remaining
  let b ← branchWithin block (budget + 1)
  pure (.ifElse b.condition b.consequent b.alternative b.span)

/-- A loop with an expression before its block. -/
def loop (block : Parse Block) (make : Expression → Block → Span → Statement) : Parse Statement := do
  let first ← start
  advance
  let head ← expression
  let body ← blockAfterHeader block
  let span ← spanFrom first
  pure (make (orMissing head) body span)

/-- A counting loop. -/
def forLoop (block : Parse Block) : Parse Statement := do
  let first ← start
  advance
  let var ← declName
  let low ← expressionAfter expression .assign "'='"
  let high ← expressionAfter expression (.keyword .to_) "'to'"
  let step ← (do
    match ← eat (.keyword .step) with
    | some _ => expression
    | none => pure none)
  -- without a step the loop counts by one
  let body ← blockAfterHeader block
  let span ← spanFrom first
  pure (.forLoop var low high (orMissing step) body span)

/-! ## Blocks -/

/-- One statement, or nothing if it cannot be read. -/
def statement (block : Parse Block) : Parse (Option Statement) := do
  let c ← cursor
  match c.token? with
  | none => pure none
  | some (.keyword .if_) => some <$> branch block
  | some (.keyword .while_) => some <$> loop block .whileLoop
  | some (.keyword .repeat_) => some <$> loop block .repeatLoop
  | some (.keyword .for_) => some <$> forLoop block
  | some (.keyword .break_) =>
    advance
    pure (some (.breakLoop c.here))
  | some (.keyword .wait) => some <$> waitStatement
  | some .leftParen => groupAssignment
  | some .word => namedStatement
  | some (.keyword .this) => namedStatement
  | some (.keyword .var) => namedStatement
  | some (.keyword .local_) => namedStatement
  | some _ =>
    report .notStatement
    pure none

/-- The statements up to a closing brace, the brace included, in at most `n` steps. Every step reads a
lexeme, so one more than the lexemes left are enough. -/
def statements (one : Parse (Option Statement)) : Nat → Parse (List Statement)
  | 0 => pure []
  | n + 1 => do
    let c ← cursor
    match c.rest with
    | [] =>
      report .missingBrace
      pure []
    | l :: _ =>
      match l.token with
      | .rightBrace =>
        advance
        pure []
      | .newline =>
        advance
        statements one n
      | .comment =>
        advance
        let more ← statements one n
        pure (.comment l.text l.span :: more)
      | _ =>
        match ← one with
        | some s =>
          expectLineEnd true
          let more ← statements one n
          pure (s :: more)
        | none =>
          -- why it could not be read has been said already
          recover true
          statements one n

/-- A block, from its brace on, in which others nest at most `n` deep. -/
def blockWithin : Nat → Parse Block
  | 0 => do
    report .missingBrace
    pure .missing
  | n + 1 => do
    let first ← start
    advance
    let budget ← remaining
    let body ← statements (statement (blockWithin n)) (budget + 1)
    let span ← spanFrom first
    pure (.braces body span)

/-- A whole block, from its brace on. -/
def block : Parse Block := do
  let budget ← remaining
  blockWithin (budget + 1)

end FlightScript.Parse
