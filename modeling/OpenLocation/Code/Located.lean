import OpenLocation.Code.Basic
import OpenLocation.Grid.Cell
import OpenLocation.Location

/-!
# The code of a location

`Code.ofLocation` places a location on the grid and keeps as many digits as are
asked for, at least two and at most fifteen. Below ten digits come in pairs, so an
odd count is raised by one. `Code.ofLocations` does the same for many locations.
-/

namespace OpenLocation

/-- Fewest digits that a code is given. -/
def leastDigits : Nat := 2

/-- Digits given when no number is asked for. -/
def defaultDigits : Nat := pairDigits

/-- The number of digits that a code is given when so many are asked for. -/
def effectiveDigits (requested : Nat) : Nat :=
  let count := max leastDigits (min requested mostDigits)
  if count < pairDigits ∧ count % 2 = 1 then count + 1 else count

/-- Whether a full code can have so many digits. -/
def FullCount (count : Nat) : Prop :=
  0 < count ∧ count ≠ 9 ∧ (count < 8 → count % 2 = 0)

theorem fullCount_effectiveDigits (requested : Nat) : FullCount (effectiveDigits requested) := by
  simp only [FullCount, effectiveDigits]
  split <;> simp only [leastDigits, mostDigits, pairDigits, refinementDigits] at * <;> omega

theorem effectiveDigits_le (requested : Nat) : effectiveDigits requested ≤ mostDigits := by
  simp only [effectiveDigits]
  split <;> simp only [leastDigits, mostDigits, pairDigits, refinementDigits] at * <;> omega

namespace GridPoint

/-- The row of an adjusted latitude. -/
def rowAt (latitude : Binary64) : Int :=
  (90 * .ofNat rowsPerDegree + latitude * .ofNat rowsPerDegree).truncate

/-- The column of a wrapped longitude. -/
def columnAt (longitude : Binary64) : Int :=
  (180 * .ofNat columnsPerDegree + longitude * .ofNat columnsPerDegree).truncate

/-- The grid point of a location seen with so many digits. -/
def ofLocation (location : Location) (digitCount : Nat) : GridPoint where
  row := (rowAt (adjustLatitude location.latitude digitCount)).toNat
  column := (columnAt (wrapLongitude location.longitude)).toNat

end GridPoint

namespace Code

theorem shape_of_fullCount {count : Nat} (h : FullCount count) :
    Shape (min separatorPosition count) (separatorPosition - count)
      (count - separatorPosition) := by
  simp only [FullCount] at h
  simp only [Shape, separatorPosition]
  omega

/-- The code with these digits, padded up to the separator. -/
def ofDigits (digits : List Digit) (h : FullCount digits.length) : Code where
  lead := digits.take separatorPosition
  padding := separatorPosition - digits.length
  tail := digits.drop separatorPosition
  shape := by simpa using shape_of_fullCount h

/-- The code of the cell around a grid point. -/
def ofGridPoint (p : GridPoint) (requested : Nat) : Code :=
  ofDigits (p.digits.take (effectiveDigits requested)) (by
    rw [List.length_take, GridPoint.length_digits, Nat.min_eq_left (effectiveDigits_le requested)]
    exact fullCount_effectiveDigits requested)

def ofLocation (location : Location) (requested : Nat) : Code :=
  ofGridPoint (.ofLocation location (effectiveDigits requested)) requested

def ofLocations (locations : List Location) (requested : Nat) : List Code :=
  locations.map (ofLocation · requested)

end Code

end OpenLocation
