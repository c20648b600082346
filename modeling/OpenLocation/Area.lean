import OpenLocation.Code.Basic
import OpenLocation.Error
import OpenLocation.Grid.Cell
import OpenLocation.Location

/-!
# Areas

The part of the globe that a full code names, with its edges in degrees. Each edge
is computed from the cell of the digits and rounded to fourteen decimal places.
-/

namespace OpenLocation

-- Powers are those of the core library, whatever else a reader of them imports.
attribute [local instance (high)] instPowNat

structure Area where
  south : Binary64
  west : Binary64
  north : Binary64
  east : Binary64
  /-- Digits that the area was read from. -/
  digitCount : Nat
  deriving DecidableEq, Repr

/-- Drops what the conversion of whole numbers leaves behind the fourteenth place. -/
def roundPlaces (degrees : Binary64) : Binary64 := (degrees * 1e14).round / 1e14

/--
Degrees from the origin to the row or column `index`, when a cell of ten digits has
`steps` of them and the origin is `origin` degrees after the first. Whole cells and
the rest are divided apart.
-/
def degreesOf (steps origin index : Nat) : Binary64 :=
  let cells : Int := (index / steps : Nat) - (origin * GridPoint.cellsPerDegree : Nat)
  .ofInt cells / .ofNat GridPoint.cellsPerDegree +
    .ofNat (index % steps) / .ofNat (GridPoint.cellsPerDegree * steps)

namespace Cell

def southDegrees (c : Cell) : Binary64 :=
  degreesOf (refinementRows ^ refinementDigits) 90 c.south

def westDegrees (c : Cell) : Binary64 :=
  degreesOf (refinementColumns ^ refinementDigits) 180 c.west

def heightDegrees (c : Cell) : Binary64 := .ofNat c.height / .ofNat GridPoint.rowsPerDegree

def widthDegrees (c : Cell) : Binary64 := .ofNat c.width / .ofNat GridPoint.columnsPerDegree

end Cell

namespace Area

def ofCell (c : Cell) (digitCount : Nat) : Area where
  south := roundPlaces c.southDegrees
  west := roundPlaces c.westDegrees
  north := roundPlaces (c.southDegrees + c.heightDegrees)
  east := roundPlaces (c.westDegrees + c.widthDegrees)
  digitCount := digitCount

/-- The area that digits name, on the globe or not. -/
def ofDigits (digits : List Digit) : Area :=
  ofCell (.ofDigits digits) (min mostDigits digits.length)

/-- The middle, kept within 90 and 180 degrees. -/
def center (a : Area) : Location where
  latitude := (a.south + (a.north - a.south) / 2).lesser 90
  longitude := (a.west + (a.east - a.west) / 2).lesser 180

/-- Whether a location lies inside or on an edge. -/
def contains (a : Area) (l : Location) : Bool :=
  a.south ≤ l.latitude && l.latitude ≤ a.north && (a.west ≤ l.longitude && l.longitude ≤ a.east)

end Area

namespace Code

/-- The area of a code that was read from `text`, which an error names. -/
def areaFrom (c : Code) (text : List Char) : Except Error Area :=
  if c.isShort then .error (.notFullCode text)
  else if c.isOnGlobe then .ok (.ofDigits c.digits)
  else .error (.invalidCode text)

def area (c : Code) : Except Error Area := c.areaFrom c.text

/-- Reads the area that a text names. -/
def areaOfText (text : List Char) : Except Error Area :=
  match ofText? text with
  | none => .error (.invalidCode text)
  | some c => c.areaFrom text

end Code

end OpenLocation
