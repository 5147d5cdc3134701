/-
# The shortest decimal that reads back

Every number of double precision is the nearest one to a whole interval of
decimals. Of these the one with the fewest digits is its shortest decimal; among
several of that length the nearest is taken, and of two that are equally near
the one with an even last digit.

The search goes down the grids of multiples of a power of ten. If a grid has a
point in the interval, then one of the two points around the number itself is
such a point, so two candidates suffice on each grid.
-/

import Vendoring.Decimal.Binary64

namespace Vendoring.Decimal

/-- A positive decimal, `digits · 10 ^ power`. -/
structure Shortest where
  /-- The digits as a whole number. -/
  digits : Nat
  /-- The power of ten that the last digit counts. -/
  power : Int
  deriving DecidableEq, Repr

namespace Binary64

/-- Whether `digits · 10 ^ power` is nearer to the number than to any other. The
ends of the interval belong to a number with an even mantissa. -/
def readsBack (x : Binary64) (digits : Nat) (power : Int) : Bool :=
  -- Both sides are scaled by four, so that half the distance to a neighbour is whole.
  let below := if x.mantissa = pow2 52 && x.exponent > minExponent then 1 else 2
  let (unit, unitDen) := shiftDown 1 1 (-x.exponent)
  let (ten, tenDen) :=
    if power < 0 then (1, pow10 power.natAbs) else (pow10 power.toNat, 1)
  let point := 4 * digits * ten * unitDen
  let low := (4 * x.mantissa - below) * unit * tenDen
  let high := (4 * x.mantissa + 2) * unit * tenDen
  if x.mantissa % 2 = 0 then low ≤ point && point ≤ high else low < point && point < high

/-- The point nearest to the number on the grid of multiples of a power of ten,
if it reads back. -/
def onGrid? (x : Binary64) (power : Int) : Option Shortest :=
  let (num, den) := x.toRatio
  let (n, d) :=
    if power < 0 then (num * pow10 power.natAbs, den) else (num, den * pow10 power.toNat)
  let floor := n / d
  let nearest := roundQuotient n d
  let other := if nearest = floor then floor + 1 else floor
  if nearest ≠ 0 && x.readsBack nearest power then some ⟨nearest, power⟩
  else if other ≠ 0 && x.readsBack other power then some ⟨other, power⟩
  else none

/-- The first grid with a hit among `count` grids from `power` downwards. -/
def searchGrids (x : Binary64) : Nat → Int → Option Shortest
  | 0, _ => none
  | count + 1, power => (x.onGrid? power).orElse fun _ => x.searchGrids count (power - 1)

/-- The shortest decimal of a number that is not zero. The search starts above
the number and ends where seventeen digits have been tried, which always suffice. -/
def shortest? (x : Binary64) : Option Shortest :=
  if x.mantissa = 0 then none
  else
    let binary : Int := (x.mantissa.log2 : Int) + x.exponent + 1
    x.searchGrids 24 (Int.fdiv (binary * 30103) 100000 + 2)

end Binary64

end Vendoring.Decimal
