import OpenLocation.Proofs.Area.Polygons
import OpenLocation.Proofs.Binary64.NotANumber
import OpenLocation.Proofs.Code.Decoded
import OpenLocation.Proofs.Json.Value

/-!
# Exports of areas

Readers beside the texts of areas: the edges and the digit count from a JSON object, and the ring
of a polygon from a JSON geometry and from well-known text. Whatever writes the texts, as long as
it obeys its laws, an area whose edges are in order is its own rectangle, with four corners apart
from each other, and each of its texts is read back as what it was written from
(`Ordered.exportsAgree`). The area of every full code is one.
-/

namespace OpenLocation

open Binary64

/-! ## Readers -/

namespace Json

/-- A list of two numbers, the one to the east first. -/
def Value.point? : Value → Option Point
  | .list [x, y] => do return ⟨← x.double?, ← y.double?⟩
  | _ => none

/-- The outline of a polygon geometry without holes. -/
def polygon? (text : List Char) : Option (List Point) := do
  let value ← readValue text
  match ← value.member? "type".toList, ← value.member? "coordinates".toList with
  | .string kind, .list [.list ring] =>
    if kind = "Polygon".toList then ring.mapM Value.point? else none
  | _, _ => none

end Json

namespace WellKnownText

/-- Two numbers with a space between them. -/
def point? (text : List Char) : Option Point :=
  match text.splitOn ' ' with
  | [x, y] => do return ⟨← Decimal.double? x, ← Decimal.double? y⟩
  | _ => none

/-- The outline of a polygon without holes. -/
def polygon? (text : List Char) : Option (List Point) := do
  let ring ← (← text.dropPrefix? "POLYGON((".toList).dropSuffix? "))".toList
  (ring.splitOn ',').mapM point?

end WellKnownText

namespace Area

/-- An area from the members of an object, in whatever order. -/
def ofJson? (text : List Char) : Option Area := do
  let value ← Json.readValue text
  return {
    south := ← (← value.member? "latitude_lo".toList).double?
    west := ← (← value.member? "longitude_lo".toList).double?
    north := ← (← value.member? "latitude_hi".toList).double?
    east := ← (← value.member? "longitude_hi".toList).double?
    digitCount := ← (← value.member? "code_length".toList).count? }

end Area

/-! ## Texts of points -/

theorem mapM_of_forall₂ {α β : Type} {read : β → Option α} {xs : List α} {ys : List β}
    (h : List.Forall₂ (fun x y => read y = some x) xs ys) : ys.mapM read = some xs := by
  induction h with
  | nil => rfl
  | cons hy _ ih =>
    rw [List.mapM_cons, hy, ih]
    rfl

namespace Json

theorem exists_point {p : Point} (hp : p.IsFinite) {text : List Char}
    (h : Point.Spelling Point.listed p text) :
    ∃ v : Value, v.point? = some p ∧ Reads text v := by
  obtain ⟨xText, yText, hxText, hyText, rfl⟩ := h
  obtain ⟨x, hx, hreadsX⟩ := Reads.exists_number hp.1 hxText
  obtain ⟨y, hy, hreadsY⟩ := Reads.exists_number hp.2 hyText
  refine ⟨.list [x, y], ?_, .array (.cons hreadsX (.cons hreadsY .nil))⟩
  rw [Value.point?, hx, hy]
  rfl

theorem exists_points {ring : List Point} {texts : List (List Char)}
    (h : List.Forall₂ (Point.Spelling Point.listed) ring texts) (hring : ∀ p ∈ ring, p.IsFinite) :
    ∃ vs : List Value, List.Forall₂ (fun p v => v.point? = some p) ring vs ∧
      List.Forall₂ Reads texts vs := by
  induction h with
  | nil => exact ⟨[], .nil, .nil⟩
  | cons hpoint _ ih =>
    obtain ⟨hp, hring⟩ := List.forall_mem_cons.1 hring
    obtain ⟨v, hv, hreads⟩ := exists_point hp hpoint
    obtain ⟨vs, hvs, hreadsAll⟩ := ih hring
    exact ⟨v :: vs, .cons hv hvs, .cons hreads hreadsAll⟩

/-- A geometry is read back as the outline that it was written from. -/
theorem polygon?_geometry [Polygons] (hpolygons : LawfulPolygons) {ring : List Point}
    (h : IsRing ring) : polygon? (Polygons.geometry ring) = some ring := by
  obtain ⟨type, polygon, coordinates, texts, members, htype, hpolygon, hcoordinates, htexts,
    hmembers, htext⟩ := hpolygons.geometry h
  obtain ⟨vs, hvs, hreads⟩ := exists_points htexts h.isFinite
  have hkind : Reads.Member (quoted type, quoted polygon)
      ("type".toList, .string "Polygon".toList) := ⟨⟨type, rfl, htype⟩, .quoted hpolygon⟩
  have hlist : Reads.Member (quoted coordinates, array [array texts])
      ("coordinates".toList, .list [.list vs]) :=
    ⟨⟨coordinates, rfl, hcoordinates⟩, .array (.cons (.array hreads) .nil)⟩
  rw [polygon?, htext]
  rcases List.perm_pair.1 hmembers with rfl | rfl
  · rw [readValue_of_reads (.object (.cons hkind (.cons hlist .nil)))]
    exact mapM_of_forall₂ hvs
  · rw [readValue_of_reads (.object (.cons hlist (.cons hkind .nil)))]
    exact mapM_of_forall₂ hvs

end Json

namespace WellKnownText

/-- No number has a space or a comma in it. -/
theorem not_mem_of_spelling {x : Binary64} {text : List Char} (h : Decimal.Spelling x text)
    {c : Char} (hc : c = ' ' ∨ c = ',') : c ∉ text := by
  intro hmem
  rcases h.mem_text hmem with hdigit | hmark
  · rcases hc with rfl | rfl <;> cases hdigit
  · rcases hc with rfl | rfl <;> simp at hmark

variable {p : Point} {text : List Char}

theorem point?_of_spelling (h : Point.Spelling Point.spaced p text) : point? text = some p := by
  obtain ⟨x, y, hx, hy, rfl⟩ := h
  have hspace : ∀ text ∈ [x, y], ' ' ∉ text := by
    simp [not_mem_of_spelling hx, not_mem_of_spelling hy]
  have hsplit : (Point.spaced x y).splitOn ' ' = [x, y] := by
    rw [← List.splitOn_intercalate ' ' hspace (List.cons_ne_nil _ _)]
    simp [Point.spaced, List.intercalate]
  rw [point?, hsplit]
  dsimp only
  rw [hx.double?_eq, hy.double?_eq]
  rfl

theorem not_mem_of_point (h : Point.Spelling Point.spaced p text) : ',' ∉ text := by
  obtain ⟨x, y, hx, hy, rfl⟩ := h
  rw [Point.spaced, List.mem_append, List.mem_cons]
  simp [not_mem_of_spelling hx, not_mem_of_spelling hy]

theorem not_mem_of_points {ring : List Point} {texts : List (List Char)}
    (h : List.Forall₂ (Point.Spelling Point.spaced) ring texts) : ∀ text ∈ texts, ',' ∉ text := by
  induction h with
  | nil => exact List.forall_mem_nil _
  | cons hp _ ih => exact List.forall_mem_cons.2 ⟨not_mem_of_point hp, ih⟩

/-- Well-known text is read back as the outline that it was written from. -/
theorem polygon?_wellKnownText [Polygons] (hpolygons : LawfulPolygons) {ring : List Point}
    (h : IsRing ring) : polygon? (Polygons.wellKnownText ring) = some ring := by
  obtain ⟨texts, htexts, htext⟩ := hpolygons.wellKnownText h
  have hsplit : (Json.separated [','] texts).splitOn ',' = texts := by
    refine List.splitOn_intercalate ',' (not_mem_of_points htexts) fun hnil => h.ne_nil ?_
    rw [hnil] at htexts
    exact List.forall₂_nil_right_iff.1 htexts
  rw [htext, polygon?, List.dropPrefix?_eq_some_iff.2 ⟨_, rfl, BEq.rfl⟩, Option.bind_eq_bind,
    Option.bind_some, List.dropSuffix?_eq_some_iff.2 ⟨_, rfl, BEq.rfl⟩, Option.bind_some,
    hsplit]
  exact mapM_of_forall₂ (htexts.imp fun _ _ => point?_of_spelling)

end WellKnownText

namespace Area

theorem ofJson?_json [Json.Codec] (hwriter : Json.LawfulWriter) {a : Area}
    (hsouth : a.south.isFinite = true) (hwest : a.west.isFinite = true)
    (hnorth : a.north.isFinite = true) (heast : a.east.isFinite = true) :
    ofJson? a.json = some a := by
  have hmember (name : List Char) {text : List Char} {v : Json.Value} (h : Json.Reads text v) :
      Json.Reads.Member (Json.Codec.writeString name, text) (name, v) := ⟨hwriter.string name, h⟩
  have hcount : Json.Reads (Json.Codec.writeCount a.digitCount)
      (.number false ⟨a.digitCount, 0⟩) := by
    rw [hwriter.count]
    exact .count a.digitCount
  obtain ⟨south, hsouth, hreadsSouth⟩ :=
    Json.Reads.exists_number hsouth (hwriter.number hsouth)
  obtain ⟨west, hwest, hreadsWest⟩ := Json.Reads.exists_number hwest (hwriter.number hwest)
  obtain ⟨north, hnorth, hreadsNorth⟩ := Json.Reads.exists_number hnorth (hwriter.number hnorth)
  obtain ⟨east, heast, hreadsEast⟩ := Json.Reads.exists_number heast (hwriter.number heast)
  have hvalue : Json.readValue a.json = some (.object [
      ("latitude_lo".toList, south), ("longitude_lo".toList, west),
      ("latitude_hi".toList, north), ("longitude_hi".toList, east),
      ("code_length".toList, .number false ⟨a.digitCount, 0⟩)]) := by
    rw [json, hwriter.object]
    exact Json.readValue_of_reads (.object
      (.cons (hmember _ hreadsSouth) (.cons (hmember _ hreadsWest) (.cons (hmember _ hreadsNorth)
        (.cons (hmember _ hreadsEast) (.cons (hmember _ hcount) .nil))))))
  rw [ofJson?, hvalue]
  change (do
    return Area.mk (← south.double?) (← west.double?) (← north.double?) (← east.double?)
      a.digitCount : Option Area) = some a
  rw [hsouth, hwest, hnorth, heast]
  rfl

end Area

/-! ## Rings -/

/-- A ring of vertices that are apart is closed by the first one. -/
theorem closing_eq {first second : Point} {rest : List Point}
    (h : (first :: second :: rest).Pairwise fun p q => p.equal q = false) :
    closing (first :: second :: rest) = first :: second :: (rest ++ [first]) := by
  have hlast : first.equal ((second :: rest).getLast (List.cons_ne_nil _ _)) = false :=
    List.rel_of_pairwise_cons h (List.getLast_mem _)
  rw [closing, List.getLast_cons (List.cons_ne_nil _ _), hlast]
  rfl

namespace Area

/-- The corners, from the south-western one on against the clock. -/
def corners (a : Area) : List Point :=
  [⟨a.west, a.south⟩, ⟨a.east, a.south⟩, ⟨a.east, a.north⟩, ⟨a.west, a.north⟩]

/-- What the exports of an area say is the area itself. -/
structure ExportsAgree [Polygons] [Json.Codec] (a : Area) : Prop where
  /-- The object holds the edges to the bit, and the digit count. -/
  json : ofJson? a.json = some a
  rectangle : a.rectangle = ⟨⟨a.west, a.south⟩, ⟨a.east, a.north⟩⟩
  length : a.ring.length = 5
  closed : a.ring.getLast? = a.ring.head?
  /-- Each corner is visited once before the ring closes. -/
  corners : a.ring.dropLast.Perm a.corners
  apart : a.corners.Pairwise fun p q => p.equal q = false
  inside : ∀ p ∈ a.ring, a.contains (.ofPoint p) = true
  wellKnownText : WellKnownText.polygon? a.wellKnownText = some a.ring
  geometry : Json.polygon? a.geometry = some a.ring

/-- Edges in order, none of them infinite. -/
structure Ordered (a : Area) : Prop where
  rows : a.south < a.north
  columns : a.west < a.east
  isFinite_low : Point.IsFinite ⟨a.west, a.south⟩
  isFinite_high : Point.IsFinite ⟨a.east, a.north⟩

theorem isFinite_of_bounds {edge low high : Binary64} {n : ℚ} (hedge : Near edge n 0)
    (hlow : -edge ≤ low) (h : low < high) (hhigh : high ≤ edge) :
    low.isFinite = true ∧ high.isFinite = true :=
  have hfinite := hedge.isFinite
  have hfinite' := hedge.neg.isFinite
  ⟨isFinite_of_le_of_le hfinite' hfinite hlow
      (Binary64.le_trans (Binary64.le_of_lt h) hhigh),
    isFinite_of_le_of_le hfinite' hfinite (Binary64.le_trans hlow (Binary64.le_of_lt h)) hhigh⟩

theorem WellFormed.ordered {a : Area} (h : a.WellFormed) : a.Ordered := by
  have hrows := Binary64.lt_of_lt_of_le h.south.2 (Binary64.le_of_lt h.north.1)
  have hcolumns := Binary64.lt_of_lt_of_le h.west.2 (Binary64.le_of_lt h.east.1)
  obtain ⟨hsouth, hnorth⟩ := isFinite_of_bounds near_ninety h.south.1 hrows h.north.2
  obtain ⟨hwest, heast⟩ := isFinite_of_bounds near_halfTurn h.west.1 hcolumns h.east.2
  exact ⟨hrows, hcolumns, ⟨hwest, hsouth⟩, ⟨heast, hnorth⟩⟩

namespace Ordered

variable {a : Area}

theorem apart (h : a.Ordered) : a.corners.Pairwise fun p q => p.equal q = false := by
  have hrows := equal_eq_false_of_lt h.rows
  have hcolumns := equal_eq_false_of_lt h.columns
  simp [Area.corners, Point.equal, Location.equal, Location.ofPoint, hrows, hcolumns]

/-- What is true of the four corners is true of all of them. -/
theorem forall_mem_corners {P : Point → Prop} (hlow : P ⟨a.west, a.south⟩)
    (heast : P ⟨a.east, a.south⟩) (hhigh : P ⟨a.east, a.north⟩) (hnorth : P ⟨a.west, a.north⟩) :
    ∀ p ∈ a.corners, P p := by
  simp [Area.corners, *]

theorem isFinite_corners (h : a.Ordered) : ∀ p ∈ a.corners, p.IsFinite :=
  forall_mem_corners h.isFinite_low ⟨h.isFinite_high.1, h.isFinite_low.2⟩ h.isFinite_high
    ⟨h.isFinite_low.1, h.isFinite_high.2⟩

theorem contains_corners (h : a.Ordered) : ∀ p ∈ a.corners, a.contains (.ofPoint p) = true := by
  obtain ⟨hsouth, hnorth⟩ := isNaN_of_lt h.rows
  obtain ⟨hwest, heast⟩ := isNaN_of_lt h.columns
  have hrows := Binary64.le_of_lt h.rows
  have hcolumns := Binary64.le_of_lt h.columns
  refine forall_mem_corners ?_ ?_ ?_ ?_ <;>
    simp [contains, Location.ofPoint, hrows, hcolumns, Binary64.le_self, hsouth, hnorth, hwest,
      heast]

section

variable [Polygons]

theorem rectangle_eq (hpolygons : LawfulPolygons) (h : a.Ordered) :
    a.rectangle = ⟨⟨a.west, a.south⟩, ⟨a.east, a.north⟩⟩ :=
  hpolygons.rectangle ⟨h.columns, h.rows⟩ List.mem_cons_self

/-- The ring visits the corners in some order, and comes back to the first one of them. -/
theorem exists_ring (hpolygons : LawfulPolygons) (h : a.Ordered) :
    ∃ first rest, a.ring = first :: (rest ++ [first]) ∧ (first :: rest).Perm a.corners := by
  obtain ⟨vertices, hperm, hring⟩ :=
    hpolygons.ring (r := ⟨⟨a.west, a.south⟩, ⟨a.east, a.north⟩⟩) ⟨h.columns, h.rows⟩
  have hapart : vertices.Pairwise fun p q => p.equal q = false :=
    (hperm.pairwise_iff fun hpq => (Point.equal_comm _ _).trans hpq).2 h.apart
  rw [← h.rectangle_eq hpolygons] at hring
  match vertices, hperm, hapart, hring with
  | [], hperm, _, _ => cases hperm.length_eq
  | [_], hperm, _, _ => cases hperm.length_eq
  | first :: second :: rest, hperm, hapart, hring =>
    exact ⟨first, second :: rest, hring.trans (closing_eq hapart), hperm⟩

end

theorem exportsAgree [Polygons] [Json.Codec] (hpolygons : LawfulPolygons)
    (hwriter : Json.LawfulWriter) (h : a.Ordered) : a.ExportsAgree := by
  obtain ⟨first, rest, hring, hperm⟩ := h.exists_ring hpolygons
  have hmem : ∀ p ∈ a.ring, p ∈ a.corners := by
    intro p hp
    rw [hring, ← List.cons_append, List.mem_append, List.mem_singleton] at hp
    exact hperm.mem_iff.1 (hp.elim id fun heq => heq ▸ List.mem_cons_self)
  have hclosed : a.ring.getLast? = a.ring.head? := by
    rw [hring, ← List.cons_append, List.getLast?_concat]
    rfl
  have hisRing : IsRing a.ring :=
    ⟨by rw [hring]; exact List.cons_ne_nil _ _, hclosed,
      fun p hp => h.isFinite_corners p (hmem p hp)⟩
  exact {
    json := ofJson?_json hwriter h.isFinite_low.2 h.isFinite_low.1 h.isFinite_high.2
      h.isFinite_high.1
    rectangle := h.rectangle_eq hpolygons
    length := by
      have hlength := hperm.length_eq
      rw [hring, ← List.cons_append, List.length_append, hlength]
      rfl
    closed := hclosed
    corners := by
      rw [hring, ← List.cons_append, List.dropLast_concat]
      exact hperm
    apart := h.apart
    inside := fun p hp => h.contains_corners p (hmem p hp)
    wellKnownText := WellKnownText.polygon?_wellKnownText hpolygons hisRing
    geometry := Json.polygon?_geometry hpolygons hisRing }

end Ordered

end Area

/-! ## Full codes -/

/--
Every full code has an area whose exports agree. The object and both polygons are read back to
the bit, the rectangle has the edges as its corners, and the ring visits the four corners, which
are apart from each other and in the area, once each and closes. So it is with all polygons and
codecs that obey their laws.
-/
theorem Code.exportsAgree_of_isFull [Polygons] [Json.Codec] (hpolygons : LawfulPolygons)
    (hwriter : Json.LawfulWriter) {s : List Char} (h : (kind s).isFull = true) :
    ∃ a, areaOfText s = .ok a ∧ a.ExportsAgree := by
  obtain ⟨c, hc, hfull⟩ := exists_isFull h
  -- Digits after the fifteenth name the same area.
  have hdigits := digits_firstDigits (isShort_of_isFull hfull)
  have hwell := wellFormed_of_isFull (c := c.firstDigits) hfull
    (hdigits ▸ List.length_take_le _ _)
  rw [hdigits, Area.ofDigits_take_most] at hwell
  exact ⟨_, areaOfText_of_isFull hc hfull, hwell.ordered.exportsAgree hpolygons hwriter⟩

/-- The smallest area at the origin, with two edges at zero and the others near it. -/
theorem Code.exportsAgree_of_isFull_origin :
    (kind "6FG22222+2222222".toList).isFull = true ∧
      ∃ a, areaOfText "6FG22222+2222222".toList = .ok a ∧ a.ExportsAgree :=
  ⟨by decide, exportsAgree_of_isFull compact_lawfulPolygons Json.compact_lawfulWriter (by decide)⟩

/-- Its edges are written with exponents in the one text, and without in the other. -/
example : (Code.areaOfText "6FG22222+2222222".toList).toOption.map
    (fun a => (a.json, a.wellKnownText)) =
      some (
        "\x7b\"latitude_lo\":0.0,\"longitude_lo\":0.0,\"latitude_hi\":4e-8,".toList ++
          "\"longitude_hi\":1.2207031e-7,\"code_length\":15\x7d".toList,
        "POLYGON((0.00000012207031 0,0.00000012207031 0.00000004,".toList ++
          "0 0.00000004,0 0,0.00000012207031 0))".toList) := by
  decide +kernel

end OpenLocation
