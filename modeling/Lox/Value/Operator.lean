/-
  Lox.Value.Operator
  ──────────────────
  **OPERATORS ON VALUES.**

  What the unary and the binary operators do once their operands have been
  evaluated.  A token of any kind may stand as an operator; most kinds are
  none.
-/
import Lox.Value.Basic

namespace Lox.Value

/-! ## §1. One operand. -/

/-- Apply a unary operator. -/
def unary (operator : TokenKind) (right : Value) : Except RuntimeFault Value :=
  match operator, right with
  | .minus, number x => .ok (number (-x))
  | .minus, _ => .error .operandNotNumber
  | .bang, v => .ok (bool (!v.truthy))
  | _, _ => .error .unaryOperator

/-! ## §2. Two operands. -/

/-- Add numbers, or put strings together. -/
def add : Value → Value → Except RuntimeFault Value
  | number a, number b => .ok (number (a + b))
  | string a, string b => .ok (string (a ++ b))
  | _, _ => .error .operandsNotAddable

/-- Apply a function of two numbers. -/
def onNumbers (f : Float → Float → Value) : Value → Value → Except RuntimeFault Value
  | number a, number b => .ok (f a b)
  | _, _ => .error .operandsNotNumbers

/-- Apply a binary operator.  Division by zero is no failure: it gives an
infinity, or no number. -/
def binary (operator : TokenKind) (left right : Value) : Except RuntimeFault Value :=
  match operator with
  | .plus => add left right
  | .minus => onNumbers (fun a b => number (a - b)) left right
  | .star => onNumbers (fun a b => number (a * b)) left right
  | .slash => onNumbers (fun a b => number (a / b)) left right
  | .greater => onNumbers (fun a b => bool (a > b)) left right
  | .greaterEqual => onNumbers (fun a b => bool (a ≥ b)) left right
  | .less => onNumbers (fun a b => bool (a < b)) left right
  | .lessEqual => onNumbers (fun a b => bool (a ≤ b)) left right
  | .equalEqual => .ok (bool (left.same right))
  | .bangEqual => .ok (bool (!left.same right))
  | _ => .error .binaryOperator

/-- Whether a logical operator leaves its right operand alone: `or` does
after a true left operand, every other operator after a false one. -/
def shortCircuits (operator : TokenKind) (left : Value) : Bool :=
  match operator with
  | .kwOr => left.truthy
  | _ => !left.truthy

end Lox.Value
