import ScriptSemantics.Node
import ScriptSemantics.Value

/-!
# Operators

Binary operators.  Equality works on any two values; the other operators need an integer on the
left, and strings can be joined.

## Main Definitions

* `Word.ofInt?` — the integers of 64 bits with sign
* `BinaryOp.eval` — the value of an operator, or why it has none
-/

namespace ScriptSemantics

namespace Word

/-- The largest integer. -/
def max : Int := 9223372036854775807

/-- The smallest integer. -/
def min : Int := -9223372036854775808

/-- The integer itself when 64 bits hold it. -/
def ofInt? (n : Int) : Option Int :=
  if min ≤ n ∧ n ≤ max then some n else none

end Word

/-- How messages name an operand that does not fit. -/
def Value.operandText : Value → String
  | nil => "nil"
  | bool true => "true"
  | bool false => "false"
  | other => other.typeName

namespace BinaryOp

/-- An arithmetic result, which must fit into 64 bits. -/
def checked (operation : String) (result : Int) : Except ErrorCause Value :=
  match Word.ofInt? result with
  | some n => .ok (.int n)
  | none => .error (.integerOverflow operation)

/-- An operator on two integers. -/
def evalInt (a b : Int) : BinaryOp → Except ErrorCause Value
  | add => checked "addition" (a + b)
  | sub => checked "subtraction" (a - b)
  | mul => checked "multiplication" (a * b)
  | lt => .ok (.bool (decide (a < b)))
  | le => .ok (.bool (decide (a ≤ b)))
  | gt => .ok (.bool (decide (a > b)))
  | ge => .ok (.bool (decide (a ≥ b)))
  | eq => .ok (.bool (a == b))
  | ne => .ok (.bool (a != b))

/-- An operator that is not an equality test. -/
def evalOrdered (op : BinaryOp) : Value → Value → Except ErrorCause Value
  | .int a, .int b => evalInt a b op
  | .int _, right => .error (.operandCoercion right.operandText "Integer")
  | .str a, right =>
    if op = add then
      match right with
      | .str b => .ok (.str (a ++ b))
      | other => .error (.operandCoercion other.operandText "String")
    else .error (.undefinedMethod op.spelling (Value.str a).receiverText)
  | left, _ => .error (.undefinedMethod op.spelling left.receiverText)

/-- The value of an operator on two values. -/
def eval (op : BinaryOp) (left right : Value) : Except ErrorCause Value :=
  match op with
  | eq => .ok (.bool (left.same right))
  | ne => .ok (.bool (!left.same right))
  | op => evalOrdered op left right

end BinaryOp

end ScriptSemantics
