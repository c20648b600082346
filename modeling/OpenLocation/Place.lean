import OpenLocation.Code.Located
import OpenLocation.Json.Forms

/-!
# Places

A place keeps its coordinates as they were given, together with the text of its
code, found once when the place is made.
-/

namespace OpenLocation

structure Place where
  location : Location
  codeText : List Char
  deriving DecidableEq, Repr

namespace Place

/-- Stands for a code that could not be read back. -/
def notValid : List Char := "Not Valid".toList

def ofLocation (l : Location) : Place where
  location := l
  codeText :=
    let text := (Code.ofLocation l defaultDigits).text
    if (Code.kind text).isValid then text else notValid

/-- The coordinates with six places. -/
def coordinates (p : Place) : List Char :=
  "Latitude: ".toList ++ Decimal.fixed 6 p.location.latitude ++
    " Longitude: ".toList ++ Decimal.fixed 6 p.location.longitude

/-- Coordinates equal as numbers, and the same code. -/
def equal (a b : Place) : Bool := a.location.equal b.location && a.codeText == b.codeText

def json [Json.Codec] (p : Place) : List Char :=
  Json.Codec.writeObject [
    ("latitude".toList, Json.Codec.writeNumber p.location.latitude),
    ("longitude".toList, Json.Codec.writeNumber p.location.longitude),
    ("plus_code".toList, Json.Codec.writeString p.codeText)]

end Place

end OpenLocation
