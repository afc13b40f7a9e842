import Scriptlet.Text.Digit

/-!
# Reading decimals

The number that decimal digits stand for is the nearest double, a tie going to the even one; what
is too large is infinite. `Float.ofScientific` rounds so, once, from the exact decimal.

A whole number may have a sign, and its digits may be of any script:

    integer → ( "+" | "-" )? digits
    digits → DIGIT ( "_"? DIGIT )*
-/

namespace Scriptlet.Decimal

/-- The natural number that is written with these digits. -/
def natural (digits : List Nat) : Nat := digits.foldl (fun n d => 10 * n + d) 0

/-- The number with these digits before and behind its point, times a power of ten. -/
def ofDigits (whole fraction : List Nat) (exponent : Int) : Float :=
  let scale := exponent - fraction.length
  Float.ofScientific (natural (whole ++ fraction)) (scale < 0) scale.natAbs

/-- The values of digits in a row. A single underscore may stand between two of them. -/
def digits? : List Char → Option (List Nat)
  | [] => none
  | [c] => (Text.digit? c).map ([·])
  | c :: '_' :: rest => do return (← Text.digit? c) :: (← digits? rest)
  | c :: rest => do return (← Text.digit? c) :: (← digits? rest)

/-- Whether a minus sign stands in front, and what is behind the sign. -/
def sign : List Char → Bool × List Char
  | '-' :: rest => (true, rest)
  | '+' :: rest => (false, rest)
  | cs => (false, cs)

/-- The whole number that digits behind an optional sign stand for. -/
def integer? (cs : List Char) : Option Int :=
  let (negative, rest) := sign cs
  (digits? rest).map fun digits => if negative then -(natural digits : Int) else natural digits

end Scriptlet.Decimal
