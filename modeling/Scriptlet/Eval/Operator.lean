import Scriptlet.Eval.Basic

/-!
# Operators

Equality is defined for all values, a sum for two numbers and for two strings, and everything else
for two numbers. Arithmetic is that of doubles; a division by zero has an infinite quotient or
none.
-/

namespace Scriptlet.Operator

/-- The negative, or the opposite of a truth value. Any operator but `!` means the negative. -/
def unary (op : Token) (a : Value) : Except Stop Value :=
  if op.kind = .mark .bang then .ok (.bool !a.isTruthy)
  else
    match a with
    | .number x => .ok (.number (-x))
    | _ => .error (.crash ⟨op, .operandNotNumber⟩)

/-- A sum of numbers or strings. -/
def plus (op : Token) : Value → Value → Except Stop Value
  | .number x, .number y => .ok (.number (x + y))
  | .string s, .string t => .ok (.string (s ++ t))
  | _, _ => .error (.crash ⟨op, .operandsMixed⟩)

/-- What is left of the operators when both operands are numbers. -/
def arithmetic (op : Token) (x y : Float) : Except Stop Value :=
  match op.kind with
  | .mark .minus => .ok (.number (x - y))
  | .mark .star => .ok (.number (x * y))
  | .mark .slash => .ok (.number (x / y))
  | .mark .greater => .ok (.bool (x > y))
  | .mark .greaterEqual => .ok (.bool (x ≥ y))
  | .mark .less => .ok (.bool (x < y))
  | .mark .lessEqual => .ok (.bool (x ≤ y))
  | kind => .error (.fault (.unknownOperator kind))

/-- An operator with two operands. -/
def binary (op : Token) (a b : Value) : Except Stop Value :=
  match op.kind with
  | .mark .equalEqual => .ok (.bool (a.equals b))
  | .mark .bangEqual => .ok (.bool !(a.equals b))
  | .mark .plus => plus op a b
  | _ =>
    match a, b with
    | .number x, .number y => arithmetic op x y
    | _, _ => .error (.crash ⟨op, .operandsNotNumbers⟩)

/-- Whether the left operand alone decides: the true one of a disjunction, and the false one of
anything else. -/
def decides (op : Token) (a : Value) : Bool :=
  if op.kind = .word .kwOr then a.isTruthy else !a.isTruthy

end Scriptlet.Operator
