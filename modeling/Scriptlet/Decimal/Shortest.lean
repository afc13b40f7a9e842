import Scriptlet.Decimal.Binary

/-!
# The fewest digits that read back

A reader of decimal text rounds to the nearest double, a tie going to the double with the even
`m`. So all decimals in an interval around `m · 2 ^ q` read back as that double, and the interval
contains its ends exactly if `m` is even. The text of a number is the decimal in this interval
with the fewest digits, and among those the one nearest to the number.

**Grids.** The decimals `d · 10 ^ k` with one `k` form a grid, and the grid of `k + 1` is part of
the grid of `k`. The search goes from coarse to fine and stops at the first grid that meets the
interval. If any point of a grid does, so does one of the two neighbours of the number on that
grid, and only these are tried.

**Exactness.** All comparisons are between natural numbers. With every quantity multiplied by
four, the number is `4m`, its upper end `4m + 2` and its lower end `4m - 2`, or `4m - 1` where the
doubles below are twice as dense.
-/

namespace Scriptlet.Decimal

/-- The decimal `digits · 10 ^ scale`. -/
structure Scaled where
  digits : Nat
  scale : Int
deriving Repr, DecidableEq

namespace Scaled

/-- Moves zeros at the end of the digits into the scale, at most `fuel` of them. -/
def trim : Nat → Scaled → Scaled
  | 0, s => s
  | fuel + 1, s =>
    if s.digits % 10 = 0 ∧ s.digits ≠ 0 then trim fuel ⟨s.digits / 10, s.scale + 1⟩ else s

end Scaled

/-- The decimals that read back as one double, four times enlarged and in units of `2 ^ q`. -/
structure Interval where
  low : Nat
  middle : Nat
  high : Nat
  closed : Bool
  q : Int

namespace Interval

/-- The interval of `m · 2 ^ q`. Below a power of two the neighbour is half as far away. -/
def around (m : Nat) (q : Int) : Interval where
  low := if m = Binary.fractions ∧ Binary.leastExponent < q then 4 * m - 1 else 4 * m - 2
  middle := 4 * m
  high := 4 * m + 2
  closed := m % 2 = 0
  q := q - 2

/-- What one step of the grid `10 ^ k` is worth in units of `2 ^ q`, as a fraction. -/
def step (i : Interval) (k : Int) : Nat × Nat :=
  (Nat.pow 10 k.toNat * Nat.pow 2 (-i.q).toNat, Nat.pow 10 (-k).toNat * Nat.pow 2 i.q.toNat)

/-- Whether `a / b` lies in the interval. -/
def holds (i : Interval) (a b : Nat) : Bool :=
  if i.closed then i.low * b ≤ a ∧ a ≤ i.high * b else i.low * b < a ∧ a < i.high * b

/-- The point of the grid `10 ^ k` in the interval that is nearest to its middle, a tie going to
the even one; nothing if the grid misses the interval. -/
def nearestOn (i : Interval) (k : Int) : Option Nat :=
  let (a, b) := i.step k
  let below := i.middle * b / a
  let above := below + 1
  match i.holds (below * a) b, i.holds (above * a) b with
  | false, false => none
  | true, false => some below
  | false, true => some above
  | true, true =>
    let left := i.middle * b - below * a
    let right := above * a - i.middle * b
    if left < right ∨ (left = right ∧ below % 2 = 0) then some below else some above

/-- Tries the grids of `k`, `k - 1`, … in turn, `fuel` of them, and settles for the last. -/
def coarsest (i : Interval) : Nat → Int → Scaled
  | 0, k => let (a, b) := i.step k; ⟨i.middle * b / a, k⟩
  | fuel + 1, k =>
    match i.nearestOn k with
    | some d => ⟨d, k⟩
    | none => coarsest i fuel (k - 1)

end Interval

/-- The least decimal exponent that is surely too coarse for a number below `2 ^ bits`. -/
def tooCoarse (bits : Int) : Int := bits * 30103 / 100000 + 2

/-- The decimal with the fewest digits that reads back as `m · 2 ^ q`, for `0 < m`. Twenty-one
grids reach from one that is too coarse to seventeen digits, which always suffice. -/
def shortest (m : Nat) (q : Int) : Scaled :=
  ((Interval.around m q).coarsest 21 (tooCoarse (Nat.log2 m + 1 + q))).trim 20

end Scriptlet.Decimal
