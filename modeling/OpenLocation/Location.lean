import OpenLocation.Binary64.Arithmetic
import OpenLocation.Grid.Cell

/-!
# Locations

A location is a latitude and a longitude in degrees, of any size. Before it is
placed on the grid its latitude is brought between the poles and its longitude
into the circle from the antimeridian on.
-/

namespace OpenLocation

-- Powers are those of the core library, whatever else a reader of them imports.
attribute [local instance (high)] instPowNat

structure Location where
  latitude : Binary64
  longitude : Binary64
  deriving DecidableEq, Repr

/-- A point of the plane: `x` to the east, `y` to the north. -/
structure Point where
  x : Binary64
  y : Binary64
  deriving DecidableEq, Repr

namespace Location

def toPoint (l : Location) : Point := ⟨l.longitude, l.latitude⟩

def ofPoint (p : Point) : Location := ⟨p.y, p.x⟩

/-- Equal in both coordinates as numbers. -/
def equal (a b : Location) : Bool :=
  a.latitude.equal b.latitude && a.longitude.equal b.longitude

end Location

/--
Height in degrees of the cell of a code with so many digits. Up to ten digits
each pair divides by twenty, after that each digit by five. The count of digits
after the tenth is a signed number of 32 bits.
-/
def precision (digitCount : Nat) : Binary64 :=
  if digitCount ≤ pairDigits then .power 20 (2 - (digitCount / 2 : Nat))
  else .power 20 (-3) / .power 5 (Int.bmod (digitCount - pairDigits : Nat) (2 ^ (32 : Nat)))

/-- Latitude between the poles; the north pole moves into the last row of cells. -/
def adjustLatitude (latitude : Binary64) (digitCount : Nat) : Binary64 :=
  let clamped := latitude.clamp (-90) 90
  if clamped < 90 then clamped else clamped - precision digitCount / 2

/-- Longitude from -180 up to 180, not included; NaN for what is not finite. -/
def wrapLongitude (longitude : Binary64) : Binary64 :=
  if !longitude.isFinite then .nan
  else if -180 ≤ longitude ∧ longitude < 180 then longitude
  else
    let wrapped := (longitude + 180).euclideanRem 360 - 180
    if 180 ≤ wrapped then -180 else wrapped

end OpenLocation
