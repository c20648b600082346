import OpenLocation.Area
import OpenLocation.Proofs.Code.Cells
import OpenLocation.Proofs.Location.Edge

/-!
# Codes of locations are full

Whatever the location and the number of digits asked for, the code that is given is full
and names an area, but for the last doubles before the pole and the antimeridian, which are
rounded to the edge and begin with a digit that lies off the globe
(`isFull_ofLocation_iff`, `kind_text_ofLocation`).
-/

namespace OpenLocation.Code

open Binary64

/-- Each location lies in the square that digits divide. -/
theorem ofLocation_mem_whole (l : Location) {digitCount : Nat} (h : digitCount ≤ mostDigits) :
    GridPoint.ofLocation l digitCount ∈ Cell.whole := by
  have hrow := rowAt_adjustLatitude_le h l.latitude
  have hcolumn := columnAt_wrapLongitude_le l.longitude
  have hheight : 180 * GridPoint.rowsPerDegree < Cell.whole.height := by decide
  have hwidth : 360 * GridPoint.columnsPerDegree < Cell.whole.width := by decide
  have hsouth : Cell.whole.south = 0 := rfl
  have hwest : Cell.whole.west = 0 := rfl
  rw [Cell.mem_iff]
  simp only [GridPoint.ofLocation]
  omega

/-- A location is on the globe unless one of its coordinates is rounded to the edge. -/
theorem onGlobe_ofLocation_iff (l : Location) {digitCount : Nat} (h : digitCount ≤ mostDigits) :
    (GridPoint.ofLocation l digitCount).OnGlobe ↔
      l.latitude ∉ roundedToPole ∧ l.longitude ≠ roundedToAntimeridian := by
  have hrows : 0 < 180 * GridPoint.rowsPerDegree := by decide
  have hcolumns : 0 < 360 * GridPoint.columnsPerDegree := by decide
  rw [← rowAt_adjustLatitude_lt_iff h, ← columnAt_wrapLongitude_lt_iff]
  simp only [GridPoint.OnGlobe, GridPoint.ofLocation]
  omega

theorem isFull_ofLocation_iff (l : Location) (requested : Nat) :
    (ofLocation l requested).isFull = true ↔
      l.latitude ∉ roundedToPole ∧ l.longitude ≠ roundedToAntimeridian := by
  have hle := effectiveDigits_le requested
  rw [ofLocation, isFull_ofGridPoint (ofLocation_mem_whole l hle), onGlobe_ofLocation_iff l hle]

theorem areaOfText_of_isFull {s : List Char} {c : Code} (h : ofText? s = some c)
    (hfull : c.isFull = true) : areaOfText s = .ok (.ofDigits c.digits) := by
  have hshort := isShort_of_isFull hfull
  have hglobe : c.isOnGlobe = true := by
    unfold isFull at hfull
    exact (Bool.and_eq_true_iff.1 hfull).2
  unfold areaOfText areaFrom
  simp only [h, hshort, hglobe, Bool.false_eq_true, if_false, if_true]

/-- The area of a text can be read exactly if the text is a full code. -/
theorem exists_areaOfText_iff (s : List Char) :
    (∃ a, areaOfText s = .ok a) ↔ (kind s).isFull = true := by
  unfold areaOfText
  cases hc : ofText? s with
  | none => simp [kind, hc]
  | some c =>
    rw [kind_of_ofText? hc]
    dsimp only
    unfold areaFrom isFull
    cases c.isShort <;> cases c.isOnGlobe <;> simp

/--
The code of a location is full, and its area can be read, exactly if the latitude is none of
the last two doubles below 90 and the longitude is not the last one below 180.
-/
theorem kind_text_ofLocation (l : Location) (requested : Nat) :
    let text := (ofLocation l requested).text
    ((kind text).isFull = true ↔
        l.latitude ∉ roundedToPole ∧ l.longitude ≠ roundedToAntimeridian) ∧
      ((∃ a, areaOfText text = .ok a) ↔
        l.latitude ∉ roundedToPole ∧ l.longitude ≠ roundedToAntimeridian) := by
  intro text
  have hfull : (kind text).isFull = true ↔
      l.latitude ∉ roundedToPole ∧ l.longitude ≠ roundedToAntimeridian := by
    rw [kind_of_ofText? (ofText?_text _)]
    exact isFull_ofLocation_iff l requested
  exact ⟨hfull, (exists_areaOfText_iff text).trans hfull⟩

/-- The last latitude below the pole is given a code that lies off the globe. -/
theorem not_isFull_last_latitude :
    (ofLocation ⟨.ofBits 0x40567fffffffffff, 0⟩ 10).text = "FF222222+22".toList ∧
      (kind "FF222222+22".toList).isFull = false ∧
      areaOfText "FF222222+22".toList = .error (.invalidCode "FF222222+22".toList) := by
  decide +kernel

end OpenLocation.Code
