import Scriptlet.Decimal.Layout
import Scriptlet.Tree.Basic

/-!
# Values

What expressions have for values: nothing, truth values, numbers, strings and functions.

**Functions.** A function made by a program is a closure: its declaration, the frame in which it
was declared, and an identity, so that each execution of a declaration makes a function different
from all others. Native functions are provided from outside and known by name.
-/

namespace Scriptlet

/-- What a program says about a function. -/
structure Declaration where
  name : Token
  params : List Token
  body : List Stmt

/-- A function that is provided from outside. -/
structure Native where
  name : String
  arity : Nat
deriving DecidableEq, Repr

/-- Values. -/
inductive Value where
  | nil
  | bool (b : Bool)
  | number (x : Float)
  | string (s : String)
  | closure (identity : Nat) (declaration : Declaration) (home : Nat)
  | native (n : Native)

namespace Value

/-- The value that a literal stands for. -/
def ofLiteral : Literal → Value
  | .nil => nil
  | .bool b => bool b
  | .number x => number x
  | .string s => string s

/-- Whether a value counts as true: all do but nothing and the false. -/
def isTruthy : Value → Bool
  | nil => false
  | bool b => b
  | _ => true

/-- Whether two values are equal. Values of different kinds never are. -/
def equals : Value → Value → Bool
  | nil, nil => true
  | bool a, bool b => a == b
  | number x, number y => x == y
  | string s, string t => s == t
  | closure i _ _, closure j _ _ => i == j
  | native m, native n => m == n
  | _, _ => false

/-- How printed numbers look, whole numbers up to twenty-one digits apart: without a fraction if
they are whole. -/
def printedNumber : Decimal.Layout where
  least := -4
  greatest := 15
  wholeFraction := false
  exponentWidth := 2

/-- The number that is too large to be printed with all its digits. -/
def tooLong : Nat := Nat.pow 10 21

/-- The text of a number: all digits of a whole number that is not zero nor too long, and else the
fewest digits that read back. -/
def numberText (x : Float) : String :=
  match Decimal.Binary.ofFloat x with
  | .finite negative m q =>
    match Decimal.Binary.natural? m q with
    | some n =>
      if 0 < n ∧ n < tooLong then (if negative then "-" else "") ++ toString n
      else printedNumber.render x
    | none => printedNumber.render x
  | _ => printedNumber.render x

/-- The text of a value, as it is printed. -/
def text : Value → String
  | nil => "nil"
  | bool b => if b then "true" else "false"
  | number x => numberText x
  | string s => s
  | closure _ declaration _ => "<fn " ++ declaration.name.lexeme ++ ">"
  | native _ => "<native fn>"

end Value

end Scriptlet
