/-!
# What the bits of a number say

A double is a sign and either one of the two special values or an exact multiple `m · 2 ^ q` of a
power of two. All decimal text is derived from `m` and `q` in exact arithmetic, so nothing is
rounded twice.
-/

namespace Scriptlet.Decimal

/-- The value of a double, read off its bits. -/
inductive Binary where
  /-- The number `±m · 2 ^ q`. -/
  | finite (negative : Bool) (m : Nat) (q : Int)
  | infinite (negative : Bool)
  | nan

namespace Binary

/-- The least exponent of a double: subnormal numbers are multiples of `2 ^ leastExponent`. -/
def leastExponent : Int := -1074

/-- How many fractions there are: they have 52 bits. -/
def fractions : Nat := Nat.pow 2 52

/-- How many exponents there are: they have 11 bits. -/
def exponents : Nat := Nat.pow 2 11

/-- Takes a double apart: a bit of sign, then the exponent, then the fraction. -/
def ofFloat (x : Float) : Binary :=
  let bits := x.toBits.toNat
  let negative := bits / fractions / exponents = 1
  let exponent : Nat := bits / fractions % exponents
  let fraction := bits % fractions
  if exponent + 1 = exponents then
    if fraction = 0 then .infinite negative else .nan
  else if exponent = 0 then .finite negative fraction leastExponent
  else .finite negative (fractions + fraction) (leastExponent + (exponent : Int) - 1)

/-- The magnitude of `m · 2 ^ q` as a natural number, if it is one. -/
def natural? (m : Nat) (q : Int) : Option Nat :=
  if 0 ≤ q then some (m * Nat.pow 2 q.toNat)
  else if m % Nat.pow 2 (-q).toNat = 0 then some (m / Nat.pow 2 (-q).toNat)
  else none

end Binary

end Scriptlet.Decimal
