import OpenLocation.Code.Located
import OpenLocation.Proofs.Area.Accuracy
import OpenLocation.Proofs.Grid.PlaceValues

/-!
# Areas are well formed

The edges of an area on the globe are in order, with the center strictly between them, and none
lies beyond a pole or the antimeridian. An edge that is a step or more inside the globe stays
inside, since it is accurate to far less than a step (`NearAxis.ordered`). The edges that lie on
the edge of the globe are settled by computation: the first row and column begin alike for all
cells, and there is a last row and column for each number of digits (`firstEdges_le`,
`le_lastEdges`).
-/

namespace OpenLocation

open Binary64

/-- The edges in order, around the center and on the globe. -/
structure Area.WellFormed (a : Area) : Prop where
  south : -90 ≤ a.south ∧ a.south < a.center.latitude
  north : a.center.latitude < a.north ∧ a.north ≤ 90
  west : -180 ≤ a.west ∧ a.west < a.center.longitude
  east : a.center.longitude < a.east ∧ a.east ≤ 180

/-! ## One axis -/

/-- Edges inside the globe are in order; on the edge of the globe they must not be beyond it. -/
theorem NearAxis.ordered {low high edge center : Binary64} {perDegree origin start size : Nat}
    (h : NearAxis low high perDegree origin start size) (hedge : Near edge origin 0)
    (hcenter : center = (low + (high - low) / 2).lesser edge) (hpos : 0 < perDegree)
    (hp : perDegree ≤ 5 * 10 ^ 7) (hsize : 0 < size) (hend : start + size ≤ 2 * origin * perDegree)
    (hfirst : start = 0 → -edge ≤ low)
    (hlast : start + size = 2 * origin * perDegree → high ≤ edge) :
    (-edge ≤ low ∧ low < center) ∧ center < high ∧ high ≤ edge := by
  have hpos' : (0 : ℚ) < perDegree := Nat.cast_pos.2 hpos
  have hstep : 1 / (5 * 10 ^ 7) ≤ 1 / (perDegree : ℚ) :=
    one_div_le_one_div_of_le hpos' (by exact_mod_cast hp)
  have hwidth : 1 / (perDegree : ℚ) ≤ size / perDegree := by
    have : (1 : ℚ) ≤ size := by exact_mod_cast hsize
    gcongr
  have hhalf := middleAt_eq perDegree origin start size
  have hwhole := degreesAt_add perDegree origin start size
  have hinside := (abs_le.1 (abs_middleAt_le hpos hsize hend)).2
  have hmiddle : Near center (middleAt perDegree origin start size) (1 / 10 ^ 12) :=
    hcenter ▸ h.nearMiddle.lesser hedge (by linarith)
  refine ⟨⟨?_, h.nearLow.lt_of_add_lt hmiddle (by linarith)⟩,
    hmiddle.lt_of_add_lt h.nearHigh (by linarith), ?_⟩
  · rcases Nat.eq_zero_or_pos start with hzero | hstart
    · exact hfirst hzero
    · have hinside : 1 / (perDegree : ℚ) ≤ start / perDegree := by
        have : (1 : ℚ) ≤ start := by exact_mod_cast hstart
        gcongr
      have hlow : degreesAt perDegree origin start = start / perDegree - origin := rfl
      rw [le_iff hedge.neg.isFinite h.nearLow.isFinite, hedge.neg.value_eq]
      linarith [h.nearLow.le_value]
  · rcases Nat.eq_or_lt_of_le hend with heq | hlt
    · exact hlast heq
    · have hinside : ((start + size : Nat) : ℚ) / perDegree + 1 / perDegree ≤ 2 * origin := by
        rw [← add_div, div_le_iff₀ hpos']
        exact_mod_cast hlt
      have hhigh : degreesAt perDegree origin (start + size) =
          (start + size : Nat) / perDegree - origin := rfl
      rw [le_iff h.nearHigh.isFinite hedge.isFinite, hedge.value_eq]
      linarith [h.nearHigh.value_le]

/-! ## The edge of the globe -/

/-- What is computed of the first row and the first column. -/
theorem firstEdges_le :
    -90 ≤ roundPlaces (degreesOf (refinementRows ^ refinementDigits) 90 0) ∧
      -180 ≤ roundPlaces (degreesOf (refinementColumns ^ refinementDigits) 180 0) := by
  decide +kernel

/-- What is computed of the ends of the last row and the last column, for each size of cells. -/
theorem le_lastEdges : ∀ count < mostDigits + 1, leastDigits ≤ count → Cell.IsCount count →
    roundPlaces (degreesOf (refinementRows ^ refinementDigits) 90
        (180 * GridPoint.rowsPerDegree - Cell.heightOf count) +
      ofNat (Cell.heightOf count) / ofNat GridPoint.rowsPerDegree) ≤ 90 ∧
    roundPlaces (degreesOf (refinementColumns ^ refinementDigits) 180
        (360 * GridPoint.columnsPerDegree - Cell.widthOf count) +
      ofNat (Cell.widthOf count) / ofNat GridPoint.columnsPerDegree) ≤ 180 := by
  decide +kernel

namespace Area

/-- A cell on the globe has a well formed area if cells of some number of digits are as large. -/
theorem wellFormed_ofCell {c : Cell} (hglobe : c.OnGlobe) {count : Nat}
    (hleast : leastDigits ≤ count) (hcount : Cell.IsCount count)
    (hheight : c.height = Cell.heightOf count) (hwidth : c.width = Cell.widthOf count) (n : Nat) :
    (ofCell c n).WellFormed := by
  obtain ⟨hrow, hcolumn⟩ := le_lastEdges count (Nat.lt_succ_of_le hcount.1) hleast hcount
  have hfirstRow (hzero : c.south = 0) : -90 ≤ (ofCell c n).south := by
    simp only [ofCell, Cell.southDegrees, hzero]
    exact firstEdges_le.1
  have hlastRow (hlast : c.south + c.height = 2 * 90 * GridPoint.rowsPerDegree) :
      (ofCell c n).north ≤ 90 := by
    rw [← hheight, ← hlast, Nat.add_sub_cancel] at hrow
    exact hrow
  have hfirstColumn (hzero : c.west = 0) : -180 ≤ (ofCell c n).west := by
    simp only [ofCell, Cell.westDegrees, hzero]
    exact firstEdges_le.2
  have hlastColumn (hlast : c.west + c.width = 2 * 180 * GridPoint.columnsPerDegree) :
      (ofCell c n).east ≤ 180 := by
    rw [← hwidth, ← hlast, Nat.add_sub_cancel] at hcolumn
    exact hcolumn
  obtain ⟨hrows, hcolumns⟩ := nearAxes_of_onGlobe hglobe n
  obtain ⟨hsouth, hnorth⟩ := hrows.ordered near_ninety (center_latitude _) (by decide) (by decide)
    hglobe.height_pos hglobe.rows hfirstRow hlastRow
  obtain ⟨hwest, heast⟩ := hcolumns.ordered near_halfTurn (center_longitude _) (by decide)
    (by decide) hglobe.width_pos hglobe.columns hfirstColumn hlastColumn
  exact ⟨hsouth, hnorth, hwest, heast⟩

end Area

/-! ## Exact edges -/

namespace PlaceSums

/-- Degrees to the southern edge: whole cells of ten digits and what the further digits add. -/
def southDegrees (s : PlaceSums) : ℚ :=
  s.normalRow / GridPoint.cellsPerDegree + s.extraRow / GridPoint.rowsPerDegree

/-- Degrees to the western edge, in the same way. -/
def westDegrees (s : PlaceSums) : ℚ :=
  s.normalColumn / GridPoint.cellsPerDegree + s.extraColumn / GridPoint.columnsPerDegree

def northDegrees (s : PlaceSums) : ℚ := s.southDegrees + s.height / GridPoint.rowsPerDegree

def eastDegrees (s : PlaceSums) : ℚ := s.westDegrees + s.width / GridPoint.columnsPerDegree

/-- A sum of cells and steps in degrees is the one of the steps that both are. -/
theorem degreesAt_eq_sum {cells : ℤ} {steps origin extra index : Nat} (hsteps : 0 < steps)
    (h : (cells + (origin * GridPoint.cellsPerDegree : Nat)) * steps + extra = index) :
    (cells : ℚ) / GridPoint.cellsPerDegree + extra / (GridPoint.cellsPerDegree * steps : Nat) =
      degreesAt (GridPoint.cellsPerDegree * steps) origin index := by
  have hindex : (index : ℚ) =
      (cells + (origin * GridPoint.cellsPerDegree : Nat)) * steps + extra := by
    exact_mod_cast h.symm
  have hsteps' : (steps : ℚ) ≠ 0 := Nat.cast_ne_zero.2 hsteps.ne'
  have hcells : (GridPoint.cellsPerDegree : ℚ) ≠ 0 := by decide
  rw [degreesAt, hindex]
  push_cast
  field_simp
  ring

namespace Describes

variable {s : PlaceSums} {c : Cell}

theorem southDegrees_eq (h : s.Describes c) :
    s.southDegrees = degreesAt GridPoint.rowsPerDegree 90 c.south :=
  degreesAt_eq_sum (by decide) h.1

theorem westDegrees_eq (h : s.Describes c) :
    s.westDegrees = degreesAt GridPoint.columnsPerDegree 180 c.west :=
  degreesAt_eq_sum (by decide) h.2.1

theorem northDegrees_eq (h : s.Describes c) :
    s.northDegrees = degreesAt GridPoint.rowsPerDegree 90 (c.south + c.height) := by
  rw [northDegrees, h.southDegrees_eq, h.2.2.1, degreesAt_add]

theorem eastDegrees_eq (h : s.Describes c) :
    s.eastDegrees = degreesAt GridPoint.columnsPerDegree 180 (c.west + c.width) := by
  rw [eastDegrees, h.westDegrees_eq, h.2.2.2, degreesAt_add]

end Describes

end PlaceSums

/-- What is computed of the heights of cells differs little from them. -/
theorem close_precision : ∀ count < mostDigits + 1, leastDigits ≤ count → Cell.IsCount count →
    (precision count).isFinite = true ∧
      |(precision count).value - (Cell.heightOf count / GridPoint.rowsPerDegree : ℚ)| ≤
        1 / 2 ^ 52 := by
  decide +kernel

theorem near_precision {count : Nat} (hleast : leastDigits ≤ count) (hcount : Cell.IsCount count) :
    Near (precision count) (Cell.heightOf count / GridPoint.rowsPerDegree) (1 / 2 ^ 52) :=
  let h := close_precision count (Nat.lt_succ_of_le hcount.1) hleast hcount
  ⟨h.1, h.2⟩

end OpenLocation
