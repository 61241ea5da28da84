import FlightScript.Surface.Names

/-!
# `Surface.Expressions` — reading expressions

The grammar is stratified: `or`, then `and`, then `not`, comparisons, sums, products, powers and last the
primary expressions, in which whole expressions stand again after a parenthesis, a comma or a keyword of a
conditional. Each level is a function of the reading of whole expressions, `expr`, and the knot is tied in
`expressionWithin` by a budget of nested expressions. Every nested expression comes after a lexeme of its
own, so the number of lexemes left is budget enough.

## Contents

* `binaryLevel`, a level of operators that group to the left, and `power`, which groups to the right;
* `primary`, `conditional`, `callArguments`, `argumentList`;
* `expression`, the reading of a whole expression.
-/

namespace FlightScript.Parse

open Surface

/-- A reading that may find no expression. -/
abbrev ExpressionParse : Type := Parse (Option Expression)

/-- The expression read, or the constructor that stands for none. -/
def orMissing (e : Option Expression) : Expression := e.getD .missing

/-! ## Operators -/

/-- The tokens of a level with the operators they stand for. -/
abbrev OperatorTable : Type := Token → Option Operator

/-- The level of `or`. -/
def orOperator : OperatorTable
  | .keyword .or => some .or
  | _ => none

/-- The level of `and`. -/
def andOperator : OperatorTable
  | .keyword .and => some .and
  | _ => none

/-- The level of comparisons. -/
def comparisonOperator : OperatorTable
  | .equal => some .equal
  | .greater => some .greater
  | .greaterEqual => some .greaterEqual
  | .less => some .less
  | .lessEqual => some .lessEqual
  | _ => none

/-- The level of sums. -/
def additiveOperator : OperatorTable
  | .plus => some .add
  | .minus => some .subtract
  | _ => none

/-- The level of products. -/
def multiplicativeOperator : OperatorTable
  | .star => some .multiply
  | .slash => some .divide
  | .percent => some .remainder
  | _ => none

/-- At most `n` operators of a level, each with its right operand, after the left operand `lhs`. -/
def operatorChain (table : OperatorTable) (operand : ExpressionParse) (first : Location) :
    Nat → Expression → Parse Expression
  | 0, lhs => pure lhs
  | n + 1, lhs => do
    match (← token?).bind table with
    | none => pure lhs
    | some op =>
      advance
      let rhs ← operand
      let span ← spanFrom first
      operatorChain table operand first n (.binary op lhs (orMissing rhs) span)

/-- A level of operators that group to the left. -/
def binaryLevel (table : OperatorTable) (operand : ExpressionParse) : ExpressionParse := do
  let first ← start
  match ← operand with
  | none => pure none
  | some lhs =>
    let budget ← remaining
    let e ← operatorChain table operand first budget lhs
    pure (some e)

/-- At most `n` powers, which group to the right. -/
def powerWithin (base : ExpressionParse) : Nat → ExpressionParse
  | 0 => mismatch "expression"
  | n + 1 => do
    let first ← start
    match ← base with
    | none => pure none
    | some lhs =>
      match ← eat .caret with
      | none => pure (some lhs)
      | some _ =>
        let rhs ← powerWithin base n
        let span ← spanFrom first
        pure (some (.binary .power lhs (orMissing rhs) span))

/-- The level of powers. -/
def power (base : ExpressionParse) : ExpressionParse := do
  let budget ← remaining
  powerWithin base (budget + 1)

/-- At most `n` negations. -/
def notWithin (operand : ExpressionParse) : Nat → ExpressionParse
  | 0 => operand
  | n + 1 => do
    if ← isAt (.keyword .not) then
      let first ← start
      advance
      let e ← notWithin operand n
      let span ← spanFrom first
      pure (some (.not (orMissing e) span))
    else operand

/-- The level of negations. -/
def notLevel (operand : ExpressionParse) : ExpressionParse := do
  let budget ← remaining
  notWithin operand budget

/-! ## Primary expressions -/

/-- An expression after a lexeme that has to stand before it. -/
def expressionAfter (expr : ExpressionParse) (t : Token) (expected : String) : Parse Expression := do
  match ← expect t expected with
  | none => pure .missing
  | some _ =>
    let e ← expr
    pure (orMissing e)

/-- A conditional expression. -/
def conditional (expr : ExpressionParse) : ExpressionParse := do
  let first ← start
  advance
  let condition ← expr
  let consequent ← expressionAfter expr (.keyword .then_) "'then'"
  let alternative ← expressionAfter expr (.keyword .else_) "'else'"
  let span ← spanFrom first
  pure (some (.conditional (orMissing condition) consequent alternative span))

/-- At most `n` expressions with commas between them; those that cannot be read are left out. -/
def callItems (expr : ExpressionParse) : Nat → Parse (List Expression)
  | 0 => pure []
  | n + 1 => do
    let e ← expr
    match ← eat .comma with
    | some _ =>
      -- an argument that is missing does not end the list
      let more ← callItems expr n
      pure (e.toList ++ more)
    | none => pure e.toList

/-- The arguments of a call, from the opening parenthesis on. -/
def callArguments (expr : ExpressionParse) : Parse (List Expression) := do
  advance
  match ← eat .rightParen with
  | some _ => pure []
  | none =>
    let budget ← remaining
    let items ← callItems expr (budget + 1)
    let _ ← expect .rightParen "')'"
    pure items

/-- A use of a name in an expression, with its arguments if it is a call. -/
def nameOrCall (expr : ExpressionParse) : ExpressionParse := do
  let first ← start
  match ← reference with
  | none => pure none
  | some r =>
    if ← isAt .leftParen then
      let arguments ← callArguments expr
      let span ← spanFrom first
      pure (some (.call r arguments span))
    else
      let span ← spanFrom first
      pure (some (.name r span))

/-- A constant of one lexeme. -/
def constant (value : String → Literal) : ExpressionParse := do
  let first ← start
  match ← lexeme? with
  | none => pure none
  | some l =>
    let span ← spanFrom first
    pure (some (.literal (value l.text) span))

/-- An expression that no operator stands beside. -/
def primary (expr : ExpressionParse) : ExpressionParse := do
  let c ← cursor
  match c.token? with
  | some .number => constant fun digits => .number false digits
  -- a sign belongs to the number behind it; nothing else is negated like this
  | some .minus =>
    if c.second? == some .number then
      advance
      match ← lexeme? with
      | none => pure none
      | some l =>
        let span ← spanFrom c.start
        pure (some (.literal (.number true l.text) span))
    else mismatch "expression"
  | some .string => constant fun text => .string text
  | some (.keyword .true_) => constant fun _ => .bool true
  | some (.keyword .false_) => constant fun _ => .bool false
  | some .leftParen =>
    advance
    let inner ← expr
    let _ ← expect .rightParen "')'"
    let span ← spanFrom c.start
    pure (some (.group (orMissing inner) span))
  | some (.keyword .if_) => conditional expr
  | some .word => nameOrCall expr
  | some (.keyword .this) => nameOrCall expr
  | some (.keyword .var) => nameOrCall expr
  | some (.keyword .local_) => nameOrCall expr
  | _ => mismatch "expression"

/-! ## Whole expressions -/

/-- The stratified levels, from sums of alternatives down to primary expressions. -/
def operators (expr : ExpressionParse) : ExpressionParse :=
  binaryLevel orOperator <|
    binaryLevel andOperator <|
      notLevel <|
        binaryLevel comparisonOperator <|
          binaryLevel additiveOperator <|
            binaryLevel multiplicativeOperator <|
              power <| primary expr

/-- An expression in which others nest at most `n` deep. -/
def expressionWithin : Nat → ExpressionParse
  | 0 => mismatch "expression"
  | n + 1 => do
    if ← isAt (.keyword .if_) then conditional (expressionWithin n)
    else operators (expressionWithin n)

/-- A whole expression. -/
def expression : ExpressionParse := do
  let budget ← remaining
  expressionWithin (budget + 1)

/-- At most `n` expressions with commas between them, or nothing if one of them cannot be read. -/
def listItems : Nat → Parse (Option (List Expression))
  | 0 => pure none
  | n + 1 => do
    match ← expression with
    | none => pure none
    | some e =>
      match ← eat .comma with
      | none => pure (some [e])
      | some _ =>
        let more ← listItems n
        pure (more.map (e :: ·))

/-- A list of arguments in parentheses, or nothing if some part of it cannot be read. -/
def argumentList : Parse (Option (List Expression)) := do
  match ← expect .leftParen "'('" with
  | none => pure none
  | some _ =>
    match ← eat .rightParen with
    | some _ => pure (some [])
    | none =>
      let budget ← remaining
      match ← listItems (budget + 1) with
      | none => pure none
      | some items =>
        match ← expect .rightParen "')'" with
        | none => pure none
        | some _ => pure (some items)

end FlightScript.Parse
