import Conform.Binary64.Basic

/-!
# The shortest decimal of a double

The decimal with the fewest digits among those that lie nearer to a finite
number than to its neighbours, and of several with so few digits the one nearest
to the number. A decimal exactly between two numbers counts for the one with the
even significand.

The search goes through the decimal grids from coarse to fine: on the grid of
`n` digits only the two grid points around the number have to be looked at.
-/

namespace Conform

/-- A decimal: `digits * 10 ^ exponent`. -/
structure Decimal where
  digits : Nat
  exponent : Int
deriving DecidableEq

namespace Binary64

/-- The position of the leading decimal digit of a positive magnitude, counted
from 10^-324, which is at most as large as every positive number. -/
def leadingPlace (magnitude : Nat) : Nat :=
  (Nat.toDigits 10 (magnitude * Nat.pow 10 324 / unitsOfOne)).length - 1

/-- The size of the grid step in units of `2^-1074 * 10^-341`, for `n` digits
of a number whose leading digit has the given place. -/
def gridStep (place n : Nat) : Nat :=
  Nat.pow 10 (place + 18 - n) * unitsOfOne

/-- Whether the `multiple`-th point of a grid reads back as the number of this
rank. Twice the units are compared, so that the bounds of the interval, half
way to the neighbours, are whole. -/
def readsBack (rank step multiple : Nat) : Bool :=
  let low := (units (rank - 1) + units rank) * Nat.pow 10 341
  let high := (units rank + units (rank + 1)) * Nat.pow 10 341
  let point := 2 * multiple * step
  if rank % 2 = 0 then low ≤ point && point ≤ high else low < point && point < high

/-- The point of a grid that reads back as the number of this rank and is
nearest to it, the even one on a tie. -/
def nearestOnGrid? (rank step : Nat) : Option Nat :=
  let exact := units rank * Nat.pow 10 341
  let below := exact / step
  let above := below + 1
  match readsBack rank step below, readsBack rank step above with
  | true, false => some below
  | false, true => some above
  | false, false => none
  | true, true =>
    let toBelow := exact - below * step
    let toAbove := above * step - exact
    if toBelow < toAbove then some below
    else if toAbove < toBelow then some above
    else some (if below % 2 = 0 then below else above)

/-- The first of the grids with `n`, `n + 1`, ... digits that has a point which
reads back, for at most `fuel` grids. -/
def searchGrids (rank place : Nat) : Nat → Nat → Option Decimal
  | 0, _ => none
  | fuel + 1, n =>
    match nearestOnGrid? rank (gridStep place n) with
    | some d => some ⟨d, (place : Int) + 1 - n - 324⟩
    | none => searchGrids rank place fuel (n + 1)

/-- The shortest decimal that reads back as the number of a positive rank.
Seventeen digits always suffice; failing that, the exact decimal is given. -/
def shortest (rank : Nat) : Decimal :=
  if rank = 0 then ⟨0, 0⟩
  else
    (searchGrids rank (leadingPlace (units rank)) 17 1).getD
      ⟨units rank * Nat.pow 5 unitBits, -unitBits⟩

end Binary64

end Conform
