import OpenLocation.Binary64.Basic

/-!
# Shortest decimals

`shortest` is the decimal of fewest digits among those that round to a given
positive number of units, and the nearest such decimal when there are several.
A unit is a whole number of `10 ^ -1074`, so the search runs over the grids of
step `10 ^ power` in whole numbers, the coarsest first. On each grid only the two
neighbours of the number can be the nearest point.
-/

namespace OpenLocation

-- Powers are those of the core library, whatever else a reader of them imports.
attribute [local instance (high)] instPowNat

/-- The number `coefficient * 10 ^ exponent`. -/
structure Decimal where
  coefficient : Nat
  exponent : Int
  deriving DecidableEq, Repr

namespace Decimal

/-- Which of two equally near decimals is taken. -/
inductive Tie where
  | toEven
  | upward
  deriving DecidableEq, Repr

/-- One unit counted in `10 ^ -unitShift`. -/
def stepsPerUnit : Nat := 5 ^ unitShift

/--
The numbers that round to some units, as bounds in quarters of
`10 ^ -unitShift`. The bounds belong to it when the significand is even.
-/
structure Interval where
  low : Nat
  high : Nat
  closed : Bool
  deriving DecidableEq, Repr

/-- Half a step up, and half a step down, which is shorter under a power of two. -/
def Interval.around (units : Nat) : Interval :=
  let step := 2 ^ (units.log2 - 52)
  let below := if 1 < step ∧ units = 2 ^ (52 : Nat) * step then step else 2 * step
  { low := (4 * units - below) * stepsPerUnit
    high := (4 * units + 2 * step) * stepsPerUnit
    closed := units / step % 2 = 0 }

/-- Whether a count of `10 ^ -unitShift` lies in the interval. -/
def Interval.has (interval : Interval) (steps : Nat) : Bool :=
  if interval.closed then decide (interval.low ≤ 4 * steps ∧ 4 * steps ≤ interval.high)
  else decide (interval.low < 4 * steps ∧ 4 * steps < interval.high)

/-- The nearer of `below * grid` and its upper neighbour. -/
def nearer (tie : Tie) (steps grid below : Nat) : Nat :=
  if 2 * steps < (2 * below + 1) * grid then below
  else if (2 * below + 1) * grid < 2 * steps then below + 1
  else match tie with
    | .upward => below + 1
    | .toEven => if below % 2 = 0 then below else below + 1

/-- The point of a grid that is in the interval and nearest to the number. -/
def gridPoint? (tie : Tie) (interval : Interval) (steps grid : Nat) : Option Nat :=
  let below := steps / grid
  match interval.has (below * grid), interval.has ((below + 1) * grid) with
  | true, true => some (nearer tie steps grid below)
  | true, false => some below
  | false, true => some (below + 1)
  | false, false => none

/-- The point of the coarsest grid up to `10 ^ power`; the number itself is on the finest. -/
def coarsest (tie : Tie) (interval : Interval) (steps : Nat) : Nat → Decimal
  | 0 => ⟨steps, -unitShift⟩
  | power + 1 =>
    match gridPoint? tie interval steps (10 ^ (power + 1)) with
    | some point => ⟨point, (power + 1 : Nat) - (unitShift : Int)⟩
    | none => coarsest tie interval steps power

/-- A power of ten above `n`; `2 ^ 100` is below `10 ^ 31`. -/
def powerAbove (n : Nat) : Nat := (n.log2 + 1) * 31 / 100 + 1

def shortest (tie : Tie) (units : Nat) : Decimal :=
  coarsest tie (.around units) (units * stepsPerUnit) (powerAbove (units * stepsPerUnit))

end Decimal

end OpenLocation
