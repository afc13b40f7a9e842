import Scriptlet.Decimal.Shortest

/-!
# How a number is laid out as text

The digits of a number come from `shortest`; a `Layout` decides how they are written: where
positional notation ends, whether a whole number shows a fraction, and how an exponent looks.
-/

namespace Scriptlet.Decimal

/-- The decisions of a number format. -/
structure Layout where
  /-- The exponents of the leading digit that are written positionally, from … -/
  least : Int
  /-- … to … -/
  greatest : Int
  /-- … and whether a whole number then ends in `.0`. -/
  wholeFraction : Bool
  /-- The exponent has at least so many digits. -/
  exponentWidth : Nat

namespace Layout

/-- So many zeros. -/
def zeros (n : Nat) : String := String.ofList (List.replicate n '0')

/-- The digits of a natural number, with zeros in front up to a width. -/
def padded (width n : Nat) : String :=
  let text := toString n
  zeros (width - text.length) ++ text

/-- Digits with a point after the first `whole` of them; digits that lack are zeros. -/
def positional (l : Layout) (digits : String) (exponent : Int) : String :=
  let count := digits.length
  if exponent < 0 then "0." ++ zeros (-exponent - 1).toNat ++ digits
  else
    let whole := exponent.toNat + 1
    if count ≤ whole then
      digits ++ zeros (whole - count) ++ (if l.wholeFraction then ".0" else "")
    else
      String.ofList (digits.toList.take whole) ++ "." ++ String.ofList (digits.toList.drop whole)

/-- One digit, the others after a point, and a signed exponent. -/
def scientific (l : Layout) (digits : String) (exponent : Int) : String :=
  let mantissa :=
    match digits.toList with
    | [] => digits
    | [d] => String.ofList [d]
    | d :: rest => String.ofList (d :: '.' :: rest)
  mantissa ++ (if exponent < 0 then "e-" else "e+") ++ padded l.exponentWidth exponent.natAbs

/-- The text of a decimal that is not zero. -/
def magnitude (l : Layout) (s : Scaled) : String :=
  let digits := toString s.digits
  let exponent := s.scale + digits.length - 1
  if l.least ≤ exponent ∧ exponent ≤ l.greatest then l.positional digits exponent
  else l.scientific digits exponent

/-- The text of a number: the fewest digits that read back as it. -/
def render (l : Layout) (x : Float) : String :=
  match Binary.ofFloat x with
  | .nan => "nan"
  | .infinite negative => if negative then "-inf" else "inf"
  | .finite negative m q =>
    (if negative then "-" else "") ++
      (if m = 0 then l.positional "0" 0 else l.magnitude (shortest m q))

end Layout

end Scriptlet.Decimal
