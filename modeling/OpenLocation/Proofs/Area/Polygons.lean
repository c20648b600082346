import OpenLocation.Area.Outline
import OpenLocation.Proofs.Binary64.Order
import OpenLocation.Proofs.Json.Lawful

/-!
# What is known of polygons

`LawfulPolygons` says what rectangles, polygons and their texts are documented to do. A rectangle
that is not flat is made from any two of its opposite corners. Its ring runs through the
corners in some order, and every ring is closed by its first vertex if the last one is another
(`closing`). The texts hold the vertices in order, each coordinate a number that is read back as
it is. The project's own polygons obey the laws (`compact_lawfulPolygons`).
-/

namespace OpenLocation

/-! ## Points and rectangles -/

namespace Point

/-- Both coordinates are finite. -/
def IsFinite (p : Point) : Prop := p.x.isFinite = true ∧ p.y.isFinite = true

/-- Equal in both coordinates as numbers. -/
def equal (p q : Point) : Bool := (Location.ofPoint p).equal (.ofPoint q)

theorem equal_comm (p q : Point) : p.equal q = q.equal p := by
  simp only [equal, Location.equal, Binary64.equal_comm (Location.ofPoint p).latitude,
    Binary64.equal_comm (Location.ofPoint p).longitude]

/-- The text joins those of two numbers, the one to the east first. -/
def Spelling (join : List Char → List Char → List Char) (p : Point) (text : List Char) : Prop :=
  ∃ x y, Decimal.Spelling p.x x ∧ Decimal.Spelling p.y y ∧ text = join x y

/-- Two numbers with a space between them. -/
def spaced (x y : List Char) : List Char := x ++ ' ' :: y

/-- A list of two numbers. -/
def listed (x y : List Char) : List Char := Json.array [x, y]

end Point

namespace Rectangle

/-- The rectangle is not flat. -/
def IsProper (r : Rectangle) : Prop := r.low.x < r.high.x ∧ r.low.y < r.high.y

/-- The corners, from the low one on against the clock. -/
def corners (r : Rectangle) : List Point :=
  [r.low, ⟨r.high.x, r.low.y⟩, r.high, ⟨r.low.x, r.high.y⟩]

/-- The pairs of opposite corners. -/
def diagonals (r : Rectangle) : List (Point × Point) :=
  [(r.low, r.high), (r.high, r.low), (⟨r.high.x, r.low.y⟩, ⟨r.low.x, r.high.y⟩),
    (⟨r.low.x, r.high.y⟩, ⟨r.high.x, r.low.y⟩)]

end Rectangle

/-! ## Rings -/

/-- The vertices with the first one again at the end, unless the last one equals it. -/
def closing : List Point → List Point
  | [] => []
  | first :: rest =>
    if first.equal ((first :: rest).getLast (List.cons_ne_nil _ _)) then first :: rest
    else first :: (rest ++ [first])

/-- A closed outline in finite coordinates. -/
structure IsRing (ring : List Point) : Prop where
  ne_nil : ring ≠ []
  closed : ring.getLast? = ring.head?
  isFinite : ∀ p ∈ ring, p.IsFinite

/-! ## Laws -/

structure LawfulPolygons [Polygons] : Prop where
  rectangle {r : Rectangle} (hr : r.IsProper) {p q : Point} (h : (p, q) ∈ r.diagonals) :
    Polygons.rectangle p q = r
  ring {r : Rectangle} (hr : r.IsProper) :
    ∃ vertices, vertices.Perm r.corners ∧ Polygons.ring r = closing vertices
  wellKnownText {ring : List Point} (h : IsRing ring) :
    ∃ texts, List.Forall₂ (Point.Spelling Point.spaced) ring texts ∧
      Polygons.wellKnownText ring =
        "POLYGON((".toList ++ (Json.separated [','] texts ++ "))".toList)
  /-- An object of two members, in either order. -/
  geometry {ring : List Point} (h : IsRing ring) :
    ∃ type polygon coordinates texts members, Json.Spelling "type".toList type ∧
      Json.Spelling "Polygon".toList polygon ∧ Json.Spelling "coordinates".toList coordinates ∧
      List.Forall₂ (Point.Spelling Point.listed) ring texts ∧
      members.Perm [(Json.quoted type, Json.quoted polygon),
        (Json.quoted coordinates, Json.array [Json.array texts])] ∧
      Polygons.geometry ring = Json.object members

/-! ## The project's own polygons -/

theorem Rectangle.ofCorners_of_mem {r : Rectangle} (hr : r.IsProper) {p q : Point}
    (h : (p, q) ∈ r.diagonals) : ofCorners p q = r := by
  have hx := Binary64.not_lt_of_le (Binary64.le_of_lt hr.1)
  have hy := Binary64.not_lt_of_le (Binary64.le_of_lt hr.2)
  simp only [diagonals, List.mem_cons, Prod.mk.injEq, List.not_mem_nil, or_false] at h
  rcases h with ⟨rfl, rfl⟩ | ⟨rfl, rfl⟩ | ⟨rfl, rfl⟩ | ⟨rfl, rfl⟩ <;>
    simp only [ofCorners, if_pos hr.1, if_pos hr.2, if_neg hx, if_neg hy]

theorem Rectangle.exists_closing {r : Rectangle} (hr : r.IsProper) :
    ∃ vertices, vertices.Perm r.corners ∧ r.ring = closing vertices := by
  refine ⟨[⟨r.high.x, r.low.y⟩, r.high, ⟨r.low.x, r.high.y⟩, r.low], ?_, ?_⟩
  · exact List.perm_append_singleton _ [_, _, _]
  · have hapart : Point.equal ⟨r.high.x, r.low.y⟩ r.low = false := by
      simp [Point.equal, Location.equal, Location.ofPoint, Binary64.equal_eq_false_of_lt hr.1]
    rw [closing, List.getLast_cons (List.cons_ne_nil _ _), List.getLast_cons (List.cons_ne_nil _ _),
      List.getLast_cons (List.cons_ne_nil _ _), List.getLast_singleton, hapart]
    rfl

theorem forall₂_spelling {ring : List Point} (h : ∀ p ∈ ring, p.IsFinite)
    {join : List Char → List Char → List Char} (layout : Decimal.Layout)
    {text : Point → List Char} (htext : ∀ p, text p = join (layout.text p.x) (layout.text p.y)) :
    List.Forall₂ (Point.Spelling join) ring (ring.map text) :=
  List.forall₂_map_right_iff.2 (List.forall₂_same.2 fun p hp =>
    ⟨_, _, Decimal.spelling_text layout (h p hp).1, Decimal.spelling_text layout (h p hp).2,
      htext p⟩)

theorem compact_lawfulPolygons : LawfulPolygons where
  rectangle := Rectangle.ofCorners_of_mem
  ring := Rectangle.exists_closing
  wellKnownText {ring} h :=
    ⟨ring.map Point.plainText, forall₂_spelling h.isFinite Decimal.plain fun _ => rfl,
      List.append_assoc ..⟩
  geometry {ring} h :=
    ⟨_, _, _, ring.map Point.json, _, Json.spelling_flatMap_charText _,
      Json.spelling_flatMap_charText _, Json.spelling_flatMap_charText _,
      forall₂_spelling h.isFinite Json.numberLayout fun _ => rfl, List.Perm.refl _, rfl⟩

end OpenLocation
