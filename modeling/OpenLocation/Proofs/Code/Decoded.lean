import OpenLocation.Proofs.Area.WellFormed
import OpenLocation.Proofs.Binary64.NotANumber
import OpenLocation.Proofs.Code.Ancestors
import OpenLocation.Proofs.Code.FirstDigits

/-!
# Decoded areas

Whatever full code an area is read from, it is well formed, its edges are those that the digits
add up to within 10⁻¹² degrees, and it is as high as cells of so many digits are
(`areaOfText_wellFormed`). The area that is read from the code of a location contains the
location, up to 10⁻⁹ degrees (`areaOfText_ofLocation`).
-/

namespace OpenLocation

open Binary64

/-! ## Accuracy on one axis -/

theorem Binary64.Near.abs_sub_lt {x : Binary64} {v e f : ℚ} (h : Near x v e) (hlt : e < f) :
    |x.value - v| < f :=
  h.close.trans_lt hlt

/-- The height of an area is the one of cells of so many digits, as numbers and when subtracted. -/
theorem NearAxis.height_close {low high : Binary64} {perDegree origin start size : Nat}
    (h : NearAxis low high perDegree origin start size) (hpos : 0 < perDegree)
    (hsize : size ≤ 20 * perDegree) {p : Binary64} (hp : Near p (size / perDegree) (1 / 2 ^ 52)) :
    |high.value - low.value - p.value| < 1 / 10 ^ 11 ∧
      |(high - low).value - p.value| < 1 / 10 ^ 11 := by
  have hpos' : (0 : ℚ) < perDegree := Nat.cast_pos.2 hpos
  have hwhole := degreesAt_add perDegree origin start size
  have hheight : (size : ℚ) / perDegree ≤ 20 := by
    rw [div_le_iff₀ hpos']
    exact_mod_cast hsize
  have hnonneg : 0 ≤ (size : ℚ) / perDegree := by positivity
  have hdifference := h.nearHigh.sub h.nearLow (A := 21)
    (abs_add_le_of_bounds (by linarith) (by linarith)) (by norm_num)
  rw [hwhole, add_sub_cancel_left] at hdifference
  have hlow := And.intro h.nearLow.le_value h.nearLow.value_le
  have hhigh := And.intro h.nearHigh.le_value h.nearHigh.value_le
  rw [hwhole] at hhigh
  have hexact := And.intro hp.le_value hp.value_le
  have hrounded := And.intro hdifference.le_value hdifference.value_le
  constructor <;> rw [abs_lt] <;> constructor <;> linarith

/-! ## Places between edges -/

/-- A place that falls on a step of a section lies between the ends of the section. -/
theorem FallsOn.between {perDegree origin index start size : Nat} {place tolerance : ℚ}
    (h : FallsOn perDegree origin index place tolerance) (hpos : 0 < perDegree)
    (hstart : start ≤ index) (hend : index < start + size) :
    degreesAt perDegree origin start - tolerance / perDegree ≤ place ∧
      place ≤ degreesAt perDegree origin (start + size) + tolerance / perDegree := by
  obtain ⟨hle, hlt⟩ := h
  have hpos' : (0 : ℚ) < perDegree := Nat.cast_pos.2 hpos
  have hstart' : (start : ℚ) ≤ index := by exact_mod_cast hstart
  have hend' : (index : ℚ) + 1 ≤ (start + size : Nat) := by exact_mod_cast hend
  rw [degreesAt, degreesAt]
  constructor
  · have hsteps : (start : ℚ) / perDegree ≤ place + origin + tolerance / perDegree := by
      rw [div_le_iff₀ hpos', add_mul _ (tolerance / _), div_mul_cancel₀ _ hpos'.ne']
      linarith
    linarith
  · have hsteps : place + origin ≤ ((start + size : Nat) + tolerance) / perDegree := by
      rw [le_div_iff₀ hpos']
      linarith
    rw [add_div] at hsteps
    linarith

/-- So it lies between the edges that are computed, up to a small part of a step. -/
theorem NearAxis.contains {low high : Binary64} {perDegree origin index start size : Nat}
    {place : ℚ} (h : NearAxis low high perDegree origin start size) (hp : 10 ^ 6 ≤ perDegree)
    (hplace : FallsOn perDegree origin index place (1 / 10 ^ 5)) (hstart : start ≤ index)
    (hend : index < start + size) :
    low.value - 1 / 10 ^ 9 ≤ place ∧ place ≤ high.value + 1 / 10 ^ 9 := by
  have htolerance : (1 / 10 ^ 5 : ℚ) / perDegree ≤ 1 / 10 ^ 5 / 10 ^ 6 := by
    have : (10 ^ 6 : ℚ) ≤ perDegree := by exact_mod_cast hp
    gcongr
  obtain ⟨hlow, hhigh⟩ := hplace.between (Nat.lt_of_lt_of_le (by norm_num) hp) hstart hend
  have := h.nearLow.value_le
  have := h.nearHigh.le_value
  constructor <;> linarith

/-- The edge of the globe lies on the edge of the last section. -/
theorem NearAxis.contains_last {low high : Binary64} {perDegree origin start size : Nat}
    (h : NearAxis low high perDegree origin start size) (hpos : 0 < perDegree)
    (hlast : start + size = 2 * origin * perDegree) :
    low.value - 1 / 10 ^ 9 ≤ origin ∧ (origin : ℚ) ≤ high.value + 1 / 10 ^ 9 := by
  have hpos' : (0 : ℚ) < perDegree := Nat.cast_pos.2 hpos
  have hwhole : degreesAt perDegree origin (start + size) = origin := by
    rw [degreesAt, hlast]
    push_cast
    field_simp
    ring
  have hsize : 0 ≤ (size : ℚ) / perDegree := by positivity
  have hadd := degreesAt_add perDegree origin start size
  have := h.nearLow.value_le
  have := h.nearHigh.le_value
  constructor <;> linarith

namespace Code

/-! ## Full codes -/

section Full

variable {c : Code}

theorem ofDigits_eq_ofCell (hle : c.digits.length ≤ mostDigits) :
    Area.ofDigits c.digits = Area.ofCell (Cell.ofDigits c.digits) c.digits.length := by
  rw [Area.ofDigits, Nat.min_eq_right hle]

theorem nearAxes_of_isFull (hfull : c.isFull = true) (hle : c.digits.length ≤ mostDigits) :
    let cell := Cell.ofDigits c.digits
    let area := Area.ofDigits c.digits
    NearAxis area.south area.north GridPoint.rowsPerDegree 90 cell.south cell.height ∧
      NearAxis area.west area.east GridPoint.columnsPerDegree 180 cell.west cell.width := by
  rw [ofDigits_eq_ofCell hle]
  exact Area.nearAxes_of_onGlobe (cell_onGlobe hfull hle) _

theorem wellFormed_of_isFull (hfull : c.isFull = true) (hle : c.digits.length ≤ mostDigits) :
    (Area.ofDigits c.digits).WellFormed := by
  have hisCount := isCount_of_isFull hfull hle
  obtain ⟨hheight, hwidth⟩ := Cell.size_ofDigits hisCount
  rw [ofDigits_eq_ofCell hle]
  exact Area.wellFormed_ofCell (cell_onGlobe hfull hle) (fullCount_of_isFull hfull).two_le hisCount
    hheight hwidth _

theorem edges_close_of_isFull (hfull : c.isFull = true) (hle : c.digits.length ≤ mostDigits) :
    let area := Area.ofDigits c.digits
    let sums := PlaceSums.ofDigits c.digits
    |area.south.value - sums.southDegrees| < 1 / 10 ^ 12 ∧
      |area.west.value - sums.westDegrees| < 1 / 10 ^ 12 ∧
      |area.north.value - sums.northDegrees| < 1 / 10 ^ 12 ∧
      |area.east.value - sums.eastDegrees| < 1 / 10 ^ 12 := by
  intro area sums
  have hdescribes : sums.Describes (Cell.ofDigits c.digits) :=
    describes_digits (fullCount_of_isFull hfull) hle
  obtain ⟨hlatitude, hlongitude⟩ := nearAxes_of_isFull hfull hle
  rw [hdescribes.southDegrees_eq, hdescribes.westDegrees_eq, hdescribes.northDegrees_eq,
    hdescribes.eastDegrees_eq]
  exact ⟨hlatitude.nearLow.abs_sub_lt (by norm_num), hlongitude.nearLow.abs_sub_lt (by norm_num),
    hlatitude.nearHigh.abs_sub_lt (by norm_num), hlongitude.nearHigh.abs_sub_lt (by norm_num)⟩

theorem height_close_of_isFull (hfull : c.isFull = true) (hle : c.digits.length ≤ mostDigits) :
    let area := Area.ofDigits c.digits
    |area.north.value - area.south.value - (precision c.digits.length).value| < 1 / 10 ^ 11 ∧
      |(area.north - area.south).value - (precision c.digits.length).value| < 1 / 10 ^ 11 := by
  have htwo := (fullCount_of_isFull hfull).two_le
  have hisCount := isCount_of_isFull hfull hle
  obtain ⟨hheight, -⟩ := Cell.size_ofDigits hisCount
  have hprecision := near_precision htwo hisCount
  have hsize : Cell.heightOf c.digits.length ≤ 20 * GridPoint.rowsPerDegree :=
    (Nat.le_of_dvd (Cell.heightOf_pos 2) (Cell.heightOf_dvd_heightOf htwo)).trans (by decide)
  rw [← hheight] at hprecision hsize
  exact (nearAxes_of_isFull hfull hle).1.height_close (by decide) hsize hprecision

end Full

/--
The area of a full code, of whatever length, is on the globe with its center strictly inside.
Each of its edges is less than 10⁻¹² degrees away from what the digits add up to, up to the
fifteenth, and its height is the one of cells of as many digits but for less than 10⁻¹¹ degrees.
-/
theorem areaOfText_wellFormed {s : List Char} (hfull : (kind s).isFull = true) :
    ∃ c a, ofText? s = some c ∧ areaOfText s = .ok a ∧ a.WellFormed ∧
      a.digitCount = min mostDigits (kind s).digitCount ∧
      let sums := PlaceSums.ofDigits (c.digits.take mostDigits)
      (|a.south.value - sums.southDegrees| < 1 / 10 ^ 12 ∧
        |a.west.value - sums.westDegrees| < 1 / 10 ^ 12 ∧
        |a.north.value - sums.northDegrees| < 1 / 10 ^ 12 ∧
        |a.east.value - sums.eastDegrees| < 1 / 10 ^ 12) ∧
      |a.north.value - a.south.value - (precision a.digitCount).value| < 1 / 10 ^ 11 ∧
      |(a.north - a.south).value - (precision a.digitCount).value| < 1 / 10 ^ 11 := by
  obtain ⟨c, hc, hcfull⟩ := exists_isFull hfull
  -- Digits after the fifteenth name the same area.
  have hdigits := digits_firstDigits (isShort_of_isFull hcfull)
  have hfirst : c.firstDigits.isFull = true := hcfull
  have hle : c.firstDigits.digits.length ≤ mostDigits := hdigits ▸ List.length_take_le _ _
  have harea : Area.ofDigits c.digits = Area.ofDigits c.firstDigits.digits := by
    rw [hdigits, Area.ofDigits_take_most]
  have hcount : (Area.ofDigits c.firstDigits.digits).digitCount = c.firstDigits.digits.length := by
    rw [ofDigits_eq_ofCell hle]
    rfl
  have hlength : c.firstDigits.digits.length = min mostDigits (kind s).digitCount := by
    rw [hdigits, List.length_take, kind_of_ofText? hc]
  refine ⟨c, _, hc, areaOfText_of_isFull hc hcfull, ?_⟩
  rw [harea, hcount, ← hdigits]
  exact ⟨wellFormed_of_isFull hfirst hle, hlength, edges_close_of_isFull hfirst hle,
    height_close_of_isFull hfirst hle⟩

/-- The last cell of all, with a digit that does not count, ends at the pole and at 180 degrees. -/
theorem areaOfText_wellFormed_corner :
    (kind "cvxxxxxx+xxxxxxxx".toList).isFull = true ∧
      ∃ a, areaOfText "cvxxxxxx+xxxxxxxx".toList = .ok a ∧ a.WellFormed ∧ a.digitCount = 15 ∧
        a.north = 90 ∧ a.east = 180 := by
  have hfull : (kind "cvxxxxxx+xxxxxxxx".toList).isFull = true := by decide
  have hedges : (areaOfText "cvxxxxxx+xxxxxxxx".toList).toOption.map (fun a => (a.north, a.east)) =
      some (90, 180) := by decide +kernel
  obtain ⟨c, a, hc, ha, hwell, hcount, -⟩ := areaOfText_wellFormed hfull
  rw [ha] at hedges
  obtain ⟨hnorth, heast⟩ := Prod.mk.inj (Option.some.inj hedges)
  exact ⟨hfull, a, ha, hwell, hcount.trans (by decide), hnorth, heast⟩

/-- These edges are the doubles nearest to the decimals that the digits add up to. -/
example : (areaOfText "8FVC9G8F+6W".toList).toOption.map (fun a => (a.south, a.west)) =
    some (47.3655, 8.52475) := by
  decide +kernel

/-! ## Codes of locations -/

/-- The cell of the code of a location is the one around its grid point. -/
theorem mem_cell_ofLocation (l : Location) (requested : Nat) :
    GridPoint.ofLocation l (effectiveDigits requested) ∈
      Cell.ofDigits (ofLocation l requested).digits := by
  have hle := effectiveDigits_le requested
  rw [digits_ofLocation, Cell.ofDigits_take (ofLocation_mem_whole l hle)
    ((fullCount_effectiveDigits requested).isCount hle)]
  exact Cell.mem_around _ (Cell.heightOf_pos _) (Cell.widthOf_pos _)

/-- At the pole the cell of a code ends at the pole. -/
theorem cell_ofLocation_pole {l : Location} (hpole : 90 ≤ l.latitude) (requested : Nat) :
    let cell := Cell.ofDigits (ofLocation l requested).digits
    cell.south + cell.height = 180 * GridPoint.rowsPerDegree := by
  have hle := effectiveDigits_le requested
  have hcount := fullCount_effectiveDigits requested
  have hrow := GridPoint.row_div_pole hpole hcount hcount (Nat.le_refl _) hle
  have hdvd := heightOf_dvd_globe hcount.two_le
  have hpos : 0 < 180 * GridPoint.rowsPerDegree / Cell.heightOf (effectiveDigits requested) :=
    Nat.div_pos (Nat.le_of_dvd (by decide) hdvd) (Cell.heightOf_pos _)
  rw [digits_ofLocation, Cell.ofDigits_take (ofLocation_mem_whole l hle) (hcount.isCount hle)]
  simp only [Cell.around, hrow]
  rw [← Nat.succ_mul, Nat.succ_eq_add_one, Nat.sub_add_cancel hpos, Nat.div_mul_cancel hdvd]

/-- A latitude of the range that is not below the pole is the one of the pole. -/
theorem at_pole {x : Binary64} (hx : -90 ≤ x ∧ x ≤ 90) (h : ¬ x < 90) :
    90 ≤ x ∧ x.value = (90 : Nat) := by
  have hedge := near_ninety.isFinite
  have hfinite := isFinite_of_le_of_le near_ninety.neg.isFinite hedge hx.1 hx.2
  rw [lt_iff hfinite hedge, not_lt] at h
  have hvalue := le_antisymm ((le_iff hfinite hedge).1 hx.2) h
  exact ⟨(le_iff hedge hfinite).2 h, hvalue.trans near_ninety.value_eq⟩

/--
The area that is read from the code of a location has as many digits as the code was given and
contains the location, up to 10⁻⁹ degrees on each side. It can be read unless the location is
rounded over the north pole or the antimeridian.
-/
theorem areaOfText_ofLocation {l : Location} (hlatitude : -90 ≤ l.latitude ∧ l.latitude ≤ 90)
    (hlongitude : -180 ≤ l.longitude ∧ l.longitude < 180) (requested : Nat) :
    let decoded := areaOfText (ofLocation l requested).text
    (l.latitude ∉ roundedToPole → l.longitude ≠ roundedToAntimeridian → ∃ a, decoded = .ok a) ∧
      ∀ a, decoded = .ok a → a.digitCount = effectiveDigits requested ∧
        (a.south.value - 1 / 10 ^ 9 ≤ l.latitude.value ∧
          l.latitude.value ≤ a.north.value + 1 / 10 ^ 9) ∧
        a.west.value - 1 / 10 ^ 9 ≤ l.longitude.value ∧
          l.longitude.value ≤ a.east.value + 1 / 10 ^ 9 := by
  intro decoded
  have hread := ofText?_text (ofLocation l requested)
  have hkind : (kind (ofLocation l requested).text).isFull = (ofLocation l requested).isFull := by
    rw [kind_of_ofText? hread]
  refine ⟨fun hpole hedge => ?_, fun a ha => ?_⟩
  · rw [exists_areaOfText_iff, hkind]
    exact (isFull_ofLocation_iff l requested).2 ⟨hpole, hedge⟩
  have hfull : (ofLocation l requested).isFull = true :=
    hkind ▸ (exists_areaOfText_iff _).1 ⟨a, ha⟩
  have hlength := length_digits_ofLocation l requested
  have hle := effectiveDigits_le requested
  obtain ⟨hrows, hcolumns⟩ := nearAxes_of_isFull hfull (hlength.trans_le hle)
  obtain ⟨⟨hsouth, hnorth⟩, hwest, heast⟩ := Cell.mem_iff.1 (mem_cell_ofLocation l requested)
  obtain rfl : Area.ofDigits (ofLocation l requested).digits = a :=
    Except.ok.inj ((areaOfText_of_isFull hread hfull).symm.trans ha)
  refine ⟨?_, ?_, hcolumns.contains (by decide) (fallsOn_column hlongitude.1 hlongitude.2 _)
    hwest heast⟩
  · rw [ofDigits_eq_ofCell (hlength.trans_le hle)]
    exact hlength
  · by_cases hbelow : l.latitude < 90
    · exact hrows.contains (by decide) (fallsOn_row hlatitude.1 hbelow _) hsouth hnorth
    · -- What is left of the range is the pole.
      obtain ⟨hpole, hvalue⟩ := at_pole hlatitude hbelow
      rw [hvalue]
      exact hrows.contains_last (by decide) (cell_ofLocation_pole hpole requested)

/-- The north pole lies in the area of its code, which has an even number of digits. -/
theorem areaOfText_ofLocation_pole :
    let l : Location := ⟨90, -180⟩
    (-90 ≤ l.latitude ∧ l.latitude ≤ 90) ∧ (-180 ≤ l.longitude ∧ l.longitude < 180) ∧
      ∃ a, areaOfText (ofLocation l 3).text = .ok a ∧ a.digitCount = 4 ∧
        l.latitude.value ≤ a.north.value + 1 / 10 ^ 9 ∧
        a.west.value - 1 / 10 ^ 9 ≤ l.longitude.value := by
  intro l
  have hlatitude : -90 ≤ l.latitude ∧ l.latitude ≤ 90 := by decide +kernel
  have hlongitude : -180 ≤ l.longitude ∧ l.longitude < 180 := by decide +kernel
  obtain ⟨hsucceeds, hcontains⟩ := areaOfText_ofLocation hlatitude hlongitude 3
  obtain ⟨a, ha⟩ := hsucceeds (by decide +kernel) (by decide +kernel)
  obtain ⟨hcount, ⟨-, hnorth⟩, hwest, -⟩ := hcontains a ha
  exact ⟨hlatitude, hlongitude, a, ha, hcount.trans (by decide), hnorth, hwest⟩

end Code

end OpenLocation
