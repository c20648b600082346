import OpenLocation.Code.Located
import OpenLocation.Proofs.Area.Accuracy
import OpenLocation.Proofs.Code.Cells
import OpenLocation.Proofs.Location.Range

/-!
# Locations on the grid

The row and the column of a location in range are its distances from the south pole and
from the antimeridian, up to a small part of a step (`fallsOn_ofLocation`). So a location
near the middle of the cell of a full code has that code (`ofLocation_of_near`).
-/

namespace OpenLocation

open Binary64

/-! ## Rows and columns -/

/-- Up to a tolerance, in steps, a place lies between a row or column and the next one. -/
def FallsOn (perDegree origin index : Nat) (place tolerance : ℚ) : Prop :=
  index ≤ (place + origin) * perDegree + tolerance ∧
    (place + origin) * perDegree - tolerance < index + 1

/-- The fixed-point value of an axis, cut to a whole number, is the step of the place. -/
theorem fallsOn_truncate {o x : Binary64} {v e : ℚ} {perDegree origin : Nat} (ho : Near o origin 0)
    (hx : Near x v e) (horigin : origin ≤ 180) (hv : |v| ≤ origin) (he : e ≤ 1 / 10 ^ 9)
    (hp : perDegree ≤ 25000000) :
    FallsOn perDegree origin (o * ofNat perDegree + x * ofNat perDegree).truncate.toNat v
      (perDegree * e + 1 / 10 ^ 5) := by
  have hperDegree : Near (ofNat perDegree) perDegree 0 := Near.ofNat (by omega)
  have horigin' : (origin : ℚ) ≤ 180 := by exact_mod_cast horigin
  have hp' : (perDegree : ℚ) ≤ 25000000 := by exact_mod_cast hp
  have hp0 : (0 : ℚ) ≤ perDegree := Nat.cast_nonneg _
  have hsteps : |v * perDegree| ≤ 180 * 25000000 := by
    rw [abs_mul, Nat.abs_cast]
    exact mul_le_mul (hv.trans horigin') hp' hp0 (by norm_num)
  have hstart : |(origin : ℚ) * perDegree| ≤ 180 * 25000000 := by
    rw [abs_mul, Nat.abs_cast, Nat.abs_cast]
    exact mul_le_mul horigin' hp' hp0 (by norm_num)
  have herror : perDegree * e ≤ 25000000 * (1 / 10 ^ 9) := mul_le_mul hp' he hx.nonneg (by norm_num)
  have hnonneg : 0 ≤ (origin : ℚ) * perDegree + v * perDegree := by
    rw [← add_mul]
    exact mul_nonneg (by linarith [(abs_le.1 hv).1]) hp0
  have horiginSteps := ho.mul hperDegree (A := 46 * 10 ^ 8) (by linarith) (by norm_num)
    (by norm_num)
  have hplaceSteps := hx.mul hperDegree (A := 46 * 10 ^ 8) (by rw [Nat.abs_cast]; linarith)
    (by norm_num) (by norm_num)
  rw [Nat.abs_cast] at hplaceSteps
  have hsum := horiginSteps.add hplaceSteps (A := 92 * 10 ^ 8)
    (by linarith [abs_add_le ((origin : ℚ) * perDegree) (v * perDegree)]) (by norm_num)
  have hfixed := hsum.weaken (f := perDegree * e + 1 / 10 ^ 5) (by linarith)
  unfold FallsOn
  rw [add_comm v, add_mul]
  exact hfixed.truncate hnonneg
    (by linarith [le_abs_self ((origin : ℚ) * perDegree), le_abs_self (v * perDegree)])

/-- The row of a latitude below the pole is the step that its degrees fall on. -/
theorem fallsOn_row {l : Location} (hsouth : -90 ≤ l.latitude) (hnorth : l.latitude < 90)
    (digitCount : Nat) :
    FallsOn GridPoint.rowsPerDegree 90 (GridPoint.ofLocation l digitCount).row l.latitude.value
      (1 / 10 ^ 5) := by
  obtain ⟨hlatitude, hlow, hhigh⟩ := near_of_le_of_lt near_ninety.neg near_ninety hsouth hnorth
  have hrow := @fallsOn_truncate 90 l.latitude _ _ GridPoint.rowsPerDegree 90
    (Near.literal (n := 90) (by norm_num)) hlatitude (by norm_num)
    (abs_le.2 ⟨by push_cast; linarith, by push_cast; linarith⟩) (by norm_num) (by decide)
  rw [mul_zero, zero_add] at hrow
  simp only [GridPoint.ofLocation, GridPoint.rowAt,
    adjustLatitude_of_near hlatitude (by linarith) (by linarith)]
  exact hrow

/-- The column of a longitude is the step that its degrees fall on. -/
theorem fallsOn_column {l : Location} (hwest : -180 ≤ l.longitude) (heast : l.longitude < 180)
    (digitCount : Nat) :
    FallsOn GridPoint.columnsPerDegree 180 (GridPoint.ofLocation l digitCount).column
      l.longitude.value (1 / 10 ^ 5) := by
  obtain ⟨hlongitude, hlow, hhigh⟩ :=
    near_of_le_of_lt near_halfTurn.neg near_halfTurn hwest heast
  have hcolumn := @fallsOn_truncate 180 l.longitude _ _ GridPoint.columnsPerDegree 180
    (Near.literal (n := 180) (by norm_num)) hlongitude (by norm_num)
    (abs_le.2 ⟨by push_cast; linarith, by push_cast; linarith⟩) (by norm_num) (by decide)
  rw [mul_zero, zero_add] at hcolumn
  simp only [GridPoint.ofLocation, GridPoint.columnAt, wrapLongitude_of_inRange hwest heast]
  exact hcolumn

/-- The grid point of a location in range lies on the steps that its degrees fall on. -/
theorem fallsOn_ofLocation {l : Location} (h : l.InRange) (digitCount : Nat) :
    FallsOn GridPoint.rowsPerDegree 90 (GridPoint.ofLocation l digitCount).row l.latitude.value
        (1 / 10 ^ 5) ∧
      FallsOn GridPoint.columnsPerDegree 180 (GridPoint.ofLocation l digitCount).column
        l.longitude.value (1 / 10 ^ 5) :=
  ⟨fallsOn_row h.1.1 h.1.2 digitCount, fallsOn_column h.2.1 h.2.2 digitCount⟩

/-- Near the middle of a section the step lies in the section. -/
theorem index_of_near_middle {o x : Binary64} {e : ℚ} {perDegree origin start size : Nat}
    (hpos : 0 < perDegree) (hp : perDegree ≤ 25000000) (horigin : origin ≤ 180)
    (hsize : 0 < size) (h : start + size ≤ 2 * origin * perDegree) (ho : Near o origin 0)
    (hx : Near x (middleAt perDegree origin start size) e) (he : e ≤ 1 / 10 ^ 9) :
    let index := (o * ofNat perDegree + x * ofNat perDegree).truncate.toNat
    start ≤ index ∧ index < start + size := by
  have hp' : (0 : ℚ) < perDegree := Nat.cast_pos.2 hpos
  have hmiddle := abs_middleAt_le hpos hsize h
  have hstep : (0 : ℚ) ≤ 1 / perDegree / 2 := by positivity
  have hsteps : (middleAt perDegree origin start size + origin) * perDegree = start + size / 2 := by
    rw [middleAt_eq, degreesAt]
    field_simp
    ring
  have herror : perDegree * e ≤ 25000000 * (1 / 10 ^ 9) :=
    mul_le_mul (by exact_mod_cast hp) he hx.nonneg (by norm_num)
  have hsize' : (1 : ℚ) ≤ size := by exact_mod_cast hsize
  obtain ⟨hle, hlt⟩ := fallsOn_truncate ho hx horigin (by linarith) he hp
  rw [hsteps] at hle hlt
  intro index
  have hbelow : (index : ℚ) < (start + size : Nat) := by push_cast; linarith
  have habove : (start : ℚ) < (index + 1 : Nat) := by push_cast; linarith
  exact ⟨Nat.lt_succ_iff.1 (by exact_mod_cast habove), by exact_mod_cast hbelow⟩

/-- A location near the middle of a cell lies in it, with whatever number of digits it is seen. -/
theorem GridPoint.ofLocation_mem_of_near {c : Cell} (hglobe : c.OnGlobe) {l : Location} {e f : ℚ}
    (hlatitude : Near l.latitude c.middleLatitude e) (he : e ≤ 1 / 10 ^ 9)
    (hlongitude : Near (wrapLongitude l.longitude) c.middleLongitude f) (hf : f ≤ 1 / 10 ^ 9)
    (digitCount : Nat) : GridPoint.ofLocation l digitCount ∈ c := by
  have hmiddle := abs_le.1 hglobe.abs_middle_le.1
  have hadjust := adjustLatitude_of_near hlatitude (by linarith) (by linarith) digitCount
  have hrowIn := index_of_near_middle (by decide) (by decide) (by decide) hglobe.height_pos
    hglobe.rows (Near.literal (n := 90) (by norm_num)) hlatitude he
  have hcolumnIn := index_of_near_middle (by decide) (by decide) (by decide) hglobe.width_pos
    hglobe.columns (Near.literal (n := 180) (by norm_num)) hlongitude hf
  rw [GridPoint.ofLocation, hadjust, Cell.mem_iff]
  simp only [GridPoint.rowAt, GridPoint.columnAt]
  exact ⟨hrowIn, hcolumnIn⟩

namespace Code

/-- A location in the cell of a full code has that code. -/
theorem ofLocation_of_mem {c : Code} (hfull : c.isFull = true)
    (hle : c.digits.length ≤ mostDigits) {l : Location}
    (h : GridPoint.ofLocation l c.digits.length ∈ Cell.ofDigits c.digits) :
    ofLocation l c.digits.length = c := by
  rw [ofLocation, effectiveDigits_of_fullCount (fullCount_of_isFull hfull) hle]
  exact (onGlobe_of_mem hfull hle h).2

/-- A location near the middle of the cell of a full code has that code. -/
theorem ofLocation_of_near {c : Code} (hfull : c.isFull = true)
    (hle : c.digits.length ≤ mostDigits) {l : Location} {e f : ℚ}
    (hlatitude : Near l.latitude (Cell.ofDigits c.digits).middleLatitude e) (he : e ≤ 1 / 10 ^ 9)
    (hlongitude : Near (wrapLongitude l.longitude) (Cell.ofDigits c.digits).middleLongitude f)
    (hf : f ≤ 1 / 10 ^ 9) : ofLocation l c.digits.length = c := by
  apply ofLocation_of_mem hfull hle
  exact GridPoint.ofLocation_mem_of_near (cell_onGlobe hfull hle) hlatitude he hlongitude hf
    c.digits.length

end Code

end OpenLocation
