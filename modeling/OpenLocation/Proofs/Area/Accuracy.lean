import OpenLocation.Area
import OpenLocation.Proofs.Binary64.Near
import OpenLocation.Proofs.Grid.Partition

/-!
# Edges and centers are accurate

The edges of an area are computed with at most ten roundings, and the center with four
more. All of them stay within 10⁻¹² degrees of the exact edges and centers of the cell, on
the globe and a little beyond it, up to 200 degrees from the origin (`NearAxis`). That is less
than a ten thousandth part of the smallest cell.
-/

namespace OpenLocation

/-- Degrees from the origin to a row or column, exactly. -/
def degreesAt (perDegree origin index : Nat) : ℚ := index / perDegree - origin

/-- The middle between a row or column and the one `size` further on. -/
def middleAt (perDegree origin start size : Nat) : ℚ :=
  (degreesAt perDegree origin start + degreesAt perDegree origin (start + size)) / 2

namespace Cell

def middleLatitude (c : Cell) : ℚ := middleAt GridPoint.rowsPerDegree 90 c.south c.height

def middleLongitude (c : Cell) : ℚ := middleAt GridPoint.columnsPerDegree 180 c.west c.width

end Cell

theorem degreesAt_add (perDegree origin index size : Nat) :
    degreesAt perDegree origin (index + size) =
      degreesAt perDegree origin index + size / perDegree := by
  rw [degreesAt, degreesAt, Nat.cast_add, add_div]
  ring

/-- No edge is farther from the origin than the last one, nor than the first. -/
theorem abs_degreesAt_le {perDegree origin reach index : Nat} (hp : 0 < perDegree)
    (hreach : origin ≤ reach) (h : index ≤ (origin + reach) * perDegree) :
    |degreesAt perDegree origin index| ≤ reach := by
  have hp' : (0 : ℚ) < perDegree := Nat.cast_pos.2 hp
  have hreach' : (origin : ℚ) ≤ reach := by exact_mod_cast hreach
  have hle : (index : ℚ) / perDegree ≤ origin + reach := by
    rw [div_le_iff₀ hp']
    exact_mod_cast h
  have hpos : (0 : ℚ) ≤ index / perDegree := by positivity
  rw [degreesAt, abs_le]
  constructor <;> linarith

theorem middleAt_eq (perDegree origin start size : Nat) :
    middleAt perDegree origin start size =
      degreesAt perDegree origin start + size / perDegree / 2 := by
  rw [middleAt, degreesAt_add]
  ring

/-- The middle of a section on the globe is at least half a step inside. -/
theorem abs_middleAt_le {perDegree origin start size : Nat} (hp : 0 < perDegree) (hsize : 0 < size)
    (h : start + size ≤ 2 * origin * perDegree) :
    |middleAt perDegree origin start size| ≤ origin - 1 / perDegree / 2 := by
  rw [Nat.two_mul] at h
  have hlow := abs_le.1 (abs_degreesAt_le hp le_rfl ((Nat.le_add_right start size).trans h))
  have hhigh := abs_le.1 (abs_degreesAt_le hp le_rfl h)
  have hstep : (1 : ℚ) / perDegree ≤ size / perDegree := by
    have : (1 : ℚ) ≤ size := by exact_mod_cast hsize
    gcongr
  have hmiddle := middleAt_eq perDegree origin start size
  rw [degreesAt_add] at hhigh
  rw [hmiddle, abs_le]
  constructor <;> linarith

/-- The middle of a cell on the globe is at least half a step inside. -/
theorem Cell.OnGlobe.abs_middle_le {c : Cell} (h : c.OnGlobe) :
    |c.middleLatitude| ≤ 90 - 1 / 10 ^ 8 ∧ |c.middleLongitude| ≤ 180 - 1 / 10 ^ 8 := by
  have hlatitude := @abs_middleAt_le _ 90 _ _ (by decide) h.height_pos h.rows
  have hlongitude := @abs_middleAt_le _ 180 _ _ (by decide) h.width_pos h.columns
  have hrow : (1 : ℚ) / 10 ^ 8 ≤ 1 / GridPoint.rowsPerDegree / 2 := by
    norm_num [GridPoint.rowsPerDegree, GridPoint.cellsPerDegree, refinementRows, refinementDigits]
  have hcolumn : (1 : ℚ) / 10 ^ 8 ≤ 1 / GridPoint.columnsPerDegree / 2 := by
    norm_num [GridPoint.columnsPerDegree, GridPoint.cellsPerDegree, refinementColumns,
      refinementDigits]
  push_cast at hlatitude hlongitude
  unfold Cell.middleLatitude Cell.middleLongitude
  constructor <;> linarith

open Binary64

/-! ## Roundings of one axis -/

/-- Whole numbers of steps divided by the steps of a degree. -/
theorem near_div_steps {x : Binary64} {v A : ℚ} {perDegree : Nat} (hx : Near x v 0)
    (hpos : 0 < perDegree) (hp : perDegree ≤ 2 ^ 53) (hv : |v| ≤ A * perDegree) (h1 : 1 ≤ A)
    (h2 : A ≤ 2 ^ 200) : Near (x / ofNat perDegree) (v / perDegree) (A / 2 ^ 52) := by
  have hpos' : (0 : ℚ) < perDegree := Nat.cast_pos.2 hpos
  have hdiv := hx.div (Near.ofNat hp) hpos' (by rwa [add_zero, div_le_iff₀ hpos']) h1 h2
  rwa [zero_div, add_zero] at hdiv

/-- Whole cells and the rest of an index, in degrees. -/
theorem degreesAt_eq {steps : Nat} (hs : 0 < steps) (perDegree origin index : Nat)
    (hp : 0 < perDegree) :
    degreesAt (perDegree * steps) origin index =
      ((index / steps : Nat) - origin * perDegree) / perDegree +
        (index % steps : Nat) / (perDegree * steps : Nat) := by
  have hindex : (index : ℚ) = (index / steps : Nat) * steps + (index % steps : Nat) := by
    exact_mod_cast (Nat.div_add_mod' index steps).symm
  have hs' : (steps : ℚ) ≠ 0 := Nat.cast_ne_zero.2 hs.ne'
  have hp' : (perDegree : ℚ) ≠ 0 := Nat.cast_ne_zero.2 hp.ne'
  rw [degreesAt, hindex]
  push_cast
  field_simp
  ring

theorem near_degreesOf {steps origin index : Nat} (hs : 0 < steps) (hsteps : steps ≤ 10000)
    (ho : origin ≤ 180) (hi : index ≤ (origin + 200) * (GridPoint.cellsPerDegree * steps)) :
    Near (degreesOf steps origin index)
      (degreesAt (GridPoint.cellsPerDegree * steps) origin index) (1 / 10 ^ 13) := by
  have hbound := abs_degreesAt_le (Nat.mul_pos (by decide) hs) (ho.trans (by decide)) hi
  have heq := degreesAt_eq hs GridPoint.cellsPerDegree origin index (by decide)
  have hmod := Nat.mod_lt index hs
  simp only [degreesOf, GridPoint.cellsPerDegree] at *
  have hcells : index / steps ≤ (origin + 200) * 8000 := by
    rw [Nat.div_le_iff_le_mul_add_pred hs, Nat.mul_comm steps, Nat.mul_assoc]
    omega
  generalize index / steps = cells at *
  generalize index % steps = rest at *
  have ho' : (origin : ℚ) ≤ 180 := by exact_mod_cast ho
  have hcell : Near (ofInt ((cells : Int) - (origin * 8000 : Nat)) / ofNat 8000)
      ((cells - origin * 8000) / (8000 : Nat)) (200 / 2 ^ 52) := by
    have hwhole := @Near.ofInt ((cells : Int) - (origin * 8000 : Nat)) (by omega)
    push_cast at hwhole
    refine near_div_steps (by exact_mod_cast hwhole) (by decide) (by decide) ?_ (by norm_num)
      (by norm_num)
    have : (cells : ℚ) ≤ (origin + 200) * 8000 := by exact_mod_cast hcells
    have : (0 : ℚ) ≤ cells := Nat.cast_nonneg _
    rw [abs_le]
    push_cast
    constructor <;> linarith
  have hrest : Near (ofNat rest / ofNat (8000 * steps)) (rest / (8000 * steps : Nat))
      (1 / 2 ^ 52) := by
    refine near_div_steps (Near.ofNat (by omega)) (by omega) (by omega) ?_ le_rfl (by norm_num)
    rw [Nat.abs_cast, one_mul]
    exact_mod_cast (by omega : rest ≤ 8000 * steps)
  push_cast at hbound
  rw [heq] at hbound ⊢
  exact (hcell.add hrest (A := 201) (by linarith) (by norm_num)).weaken (by norm_num)

/-- The size of a cell that is hardly larger than the globe. -/
theorem near_size {size perDegree : Nat} (hpos : 0 < perDegree) (hp : perDegree ≤ 2 ^ 30)
    (h : size ≤ 380 * perDegree) :
    Near (ofNat size / ofNat perDegree) (size / perDegree) (1 / 10 ^ 13) := by
  have hbound : |(size : ℚ)| ≤ 380 * perDegree := by
    rw [Nat.abs_cast]
    exact_mod_cast h
  exact (near_div_steps (Near.ofNat (by omega)) hpos (by omega) hbound (by norm_num)
    (by norm_num)).weaken (by norm_num)

/-- Rounding to fourteen places adds less than 10⁻¹³ degrees twice. -/
theorem near_roundPlaces {x : Binary64} {v e : ℚ} (h : Near x v e) (hv : |v| ≤ 200)
    (he : e ≤ 1 / 10 ^ 12) : Near (roundPlaces x) v (e + 2 / 10 ^ 13) := by
  have hscale : Near 1e14 (10 ^ 14) 0 := by
    exact_mod_cast @Near.scientific 1 14 (by decide) (by decide) (by decide)
  have hpower : |(10 : ℚ) ^ 14| = 10 ^ 14 := abs_of_pos (by norm_num)
  have hmul := h.mul hscale (A := 3 * 10 ^ 16) (by rw [abs_mul, hpower]; linarith) (by norm_num)
    (by norm_num)
  rw [hpower] at hmul
  have hround := hmul.round (A := 3 * 10 ^ 16) (by rw [abs_mul, hpower]; linarith) (by norm_num)
  have hdiv := hround.div hscale (by norm_num) (A := 201)
    (by rw [abs_mul, hpower, div_le_iff₀ (by norm_num)]; linarith) (by norm_num) (by norm_num)
  rw [mul_div_cancel_right₀ v (by norm_num)] at hdiv
  exact hdiv.weaken (by linarith)

/-- The middle of two edges. -/
theorem near_middle {low high : Binary64} {v w : ℚ} (hlow : Near low v (3 / 10 ^ 13))
    (hhigh : Near high w (5 / 10 ^ 13)) (hv : |v| ≤ 200) (hw : |w| ≤ 200) :
    Near (low + (high - low) / 2) ((v + w) / 2) (1 / 10 ^ 12) := by
  rw [abs_le] at hv hw
  have hsize := hhigh.sub hlow (A := 401)
    (abs_add_le_of_bounds (by linarith) (by linarith)) (by norm_num)
  have hhalf := hsize.div near_two two_pos (A := 201)
    ((div_le_iff₀ two_pos).2 (abs_add_le_of_bounds (by linarith) (by linarith))) (by norm_num)
    (by norm_num)
  have hsum := hlow.add hhalf (A := 201)
    (abs_add_le_of_bounds (by linarith) (by linarith)) (by norm_num)
  have hvalue : v + (w - v) / 2 = (v + w) / 2 := by ring
  rw [hvalue] at hsum
  exact hsum.weaken (by norm_num)

/-- The edges of one axis and the middle of them. -/
structure NearAxis (low high : Binary64) (perDegree origin start size : Nat) : Prop where
  nearLow : Near low (degreesAt perDegree origin start) (3 / 10 ^ 13)
  nearHigh : Near high (degreesAt perDegree origin (start + size)) (5 / 10 ^ 13)
  nearMiddle : Near (low + (high - low) / 2) (middleAt perDegree origin start size) (1 / 10 ^ 12)

theorem nearAxis {steps origin start size : Nat} (hs : 0 < steps) (hsteps : steps ≤ 10000)
    (ho : origin ≤ 180) (h : start + size ≤ (origin + 200) * (GridPoint.cellsPerDegree * steps)) :
    NearAxis (roundPlaces (degreesOf steps origin start))
      (roundPlaces (degreesOf steps origin start +
        ofNat size / ofNat (GridPoint.cellsPerDegree * steps)))
      (GridPoint.cellsPerDegree * steps) origin start size := by
  have hperDegree : 0 < GridPoint.cellsPerDegree * steps := Nat.mul_pos (by decide) hs
  have ho' : origin ≤ 200 := ho.trans (by decide)
  have hstart := near_degreesOf hs hsteps ho (by omega : start ≤ _)
  have hlowBound := abs_degreesAt_le hperDegree ho' (by omega : start ≤ _)
  have hhighBound := abs_degreesAt_le hperDegree ho' h
  push_cast at hlowBound hhighBound
  have hsize : size ≤ 380 * (GridPoint.cellsPerDegree * steps) := by
    have : (origin + 200) * (GridPoint.cellsPerDegree * steps) ≤
        380 * (GridPoint.cellsPerDegree * steps) := Nat.mul_le_mul_right _ (by omega)
    omega
  have hsize' := near_size hperDegree (by simp only [GridPoint.cellsPerDegree]; omega) hsize
  have hend := hstart.add hsize' (A := 201)
    (by rw [← degreesAt_add]; linarith) (by norm_num)
  rw [← degreesAt_add] at hend
  have hlow := (near_roundPlaces hstart hlowBound (by norm_num)).weaken (f := 3 / 10 ^ 13)
    (by norm_num)
  have hhigh := (near_roundPlaces hend hhighBound (by norm_num)).weaken (f := 5 / 10 ^ 13)
    (by norm_num)
  exact ⟨hlow, hhigh, near_middle hlow hhigh hlowBound hhighBound⟩

namespace Area

variable {c : Cell} {n : Nat}

/-! ## Areas on the globe and beyond -/

theorem nearAxis_latitude (h : c.south + c.height ≤ 290 * GridPoint.rowsPerDegree) :
    NearAxis (ofCell c n).south (ofCell c n).north GridPoint.rowsPerDegree 90
      c.south c.height :=
  nearAxis (by decide) (by decide) (by decide) h

theorem nearAxis_longitude (h : c.west + c.width ≤ 380 * GridPoint.columnsPerDegree) :
    NearAxis (ofCell c n).west (ofCell c n).east GridPoint.columnsPerDegree 180
      c.west c.width :=
  nearAxis (by decide) (by decide) (by decide) h

theorem nearAxes_of_onGlobe (h : c.OnGlobe) (n : Nat) :
    NearAxis (ofCell c n).south (ofCell c n).north GridPoint.rowsPerDegree 90
        c.south c.height ∧
      NearAxis (ofCell c n).west (ofCell c n).east GridPoint.columnsPerDegree 180
        c.west c.width :=
  ⟨nearAxis_latitude (h.rows.trans (by decide)), nearAxis_longitude (h.columns.trans (by decide))⟩

theorem center_latitude (a : Area) :
    a.center.latitude = (a.south + (a.north - a.south) / 2).lesser 90 := rfl

theorem center_longitude (a : Area) :
    a.center.longitude = (a.west + (a.east - a.west) / 2).lesser 180 := rfl

/-- The center of an area differs from the one of its cell by at most 10⁻¹² degrees. -/
theorem near_center (h : c.OnGlobe) :
    Near (ofCell c n).center.latitude c.middleLatitude (1 / 10 ^ 12) ∧
      Near (ofCell c n).center.longitude c.middleLongitude (1 / 10 ^ 12) := by
  obtain ⟨hlatitude, hlongitude⟩ := nearAxes_of_onGlobe h n
  obtain ⟨hmiddle, hmiddle'⟩ := h.abs_middle_le
  rw [Cell.middleLatitude] at hmiddle ⊢
  rw [Cell.middleLongitude] at hmiddle' ⊢
  rw [center_latitude, center_longitude]
  constructor
  · exact hlatitude.nearMiddle.lesser near_ninety (by linarith [(abs_le.1 hmiddle).2])
  · exact hlongitude.nearMiddle.lesser near_halfTurn (by linarith [(abs_le.1 hmiddle').2])

end Area

end OpenLocation
