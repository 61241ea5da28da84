import FlightScript.Catalog.Definition
import FlightScript.Operator

/-!
# `Catalog.Operator` — operators in documents

The element and the style of each binary operator.
-/

namespace FlightScript

namespace Operator

/-- The element that an operator becomes. -/
def element : Operator → String
  | add | subtract | multiply | divide | remainder | power => "BinaryOp"
  | equal | greater | greaterEqual | less | lessEqual => "Comparison"
  | and | or => "BoolOp"

/-- The style of an operator's element. -/
def style : Operator → String
  | add => "op-add"
  | subtract => "op-sub"
  | multiply => "op-mul"
  | divide => "op-div"
  | remainder => "op-mod"
  | power => "op-exp"
  | equal => "op-eq"
  | greater => "op-gt"
  | greaterEqual => "op-gte"
  | less => "op-lt"
  | lessEqual => "op-lte"
  | and => "op-and"
  | or => "op-or"

/-- The definition of an operator. -/
def definition (o : Operator) : Definition :=
  .plain o.symbol o.element 2 [("style", o.style)]

end Operator

/-- The definition of the operator with a symbol. -/
def Catalog.operator? (symbol : String) : Option Definition :=
  (Operator.ofSymbol? symbol).map Operator.definition

end FlightScript
