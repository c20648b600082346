import OpenLocation.Area
import OpenLocation.Json.Reader

/-!
# Outlines of areas

An area as a rectangle of the plane, as the closed ring of its corners, and as the
texts that map tools exchange: well-known text, a geometry object, and an object
with the edges and the digit count. Rectangles, polygons and their texts come from
outside of the project and are a parameter.
-/

namespace OpenLocation

structure Rectangle where
  low : Point
  high : Point
  deriving DecidableEq, Repr

/-- Rectangles as polygons, and polygons as the texts that map tools exchange. -/
class Polygons where
  /-- The rectangle between two opposite corners. -/
  rectangle : Point → Point → Rectangle
  /-- The outline of a rectangle. -/
  ring : Rectangle → List Point
  /-- The polygon with this outline in well-known text. -/
  wellKnownText : List Point → List Char
  /-- The polygon with this outline as a JSON geometry object. -/
  geometry : List Point → List Char

namespace Area

section Polygons

variable [Polygons]

def rectangle (a : Area) : Rectangle :=
  Polygons.rectangle ⟨a.west, a.south⟩ ⟨a.east, a.north⟩

def ring (a : Area) : List Point := Polygons.ring a.rectangle

def wellKnownText (a : Area) : List Char := Polygons.wellKnownText a.ring

def geometry (a : Area) : List Char := Polygons.geometry a.ring

end Polygons

/-- The edges and the digit count as a JSON object. -/
def json [Json.Codec] (a : Area) : List Char :=
  Json.Codec.writeObject [
    ("latitude_lo".toList, Json.Codec.writeNumber a.south),
    ("longitude_lo".toList, Json.Codec.writeNumber a.west),
    ("latitude_hi".toList, Json.Codec.writeNumber a.north),
    ("longitude_hi".toList, Json.Codec.writeNumber a.east),
    ("code_length".toList, Json.Codec.writeCount a.digitCount)]

end Area

/-! ## Polygons of doubles -/

namespace Rectangle

/-- The rectangle between two opposite corners, each axis put in order. -/
def ofCorners (a b : Point) : Rectangle where
  low := ⟨if a.x < b.x then a.x else b.x, if a.y < b.y then a.y else b.y⟩
  high := ⟨if a.x < b.x then b.x else a.x, if a.y < b.y then b.y else a.y⟩

/-- The corners from the south-east on against the clock, the first one again at the end. -/
def ring (r : Rectangle) : List Point :=
  [⟨r.high.x, r.low.y⟩, ⟨r.high.x, r.high.y⟩, ⟨r.low.x, r.high.y⟩, ⟨r.low.x, r.low.y⟩,
    ⟨r.high.x, r.low.y⟩]

end Rectangle

namespace Point

/-- Two numbers with a space between them, with the fewest digits that read back. -/
def plainText (p : Point) : List Char := Decimal.plain.text p.x ++ ' ' :: Decimal.plain.text p.y

def json (p : Point) : List Char :=
  Json.array [Json.numberLayout.text p.x, Json.numberLayout.text p.y]

end Point

instance compactPolygons : Polygons where
  rectangle := Rectangle.ofCorners
  ring := Rectangle.ring
  wellKnownText ring :=
    "POLYGON((".toList ++ Json.separated [','] (ring.map Point.plainText) ++ "))".toList
  geometry ring :=
    Json.object [
      (Json.string "type".toList, Json.string "Polygon".toList),
      (Json.string "coordinates".toList, Json.array [Json.array (ring.map Point.json)])]

end OpenLocation
