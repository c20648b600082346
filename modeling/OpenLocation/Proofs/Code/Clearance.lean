import OpenLocation.Proofs.Code.Layout
import OpenLocation.Proofs.Code.Nearest

/-!
# Recovered codes are full

A short code is recovered from a candidate that the digits of the reference lead to, and both may
lie off the globe: the last doubles before the pole and the antimeridian are rounded onto the row
and the column beyond. That does no harm. Middles of candidates are whole cells apart from each
other, and none of them is at an edge of the globe, so neither is the place that `approach` moves
to, unless it is the edge itself where the center is kept to it (`apartFrom_approach`). Such a
place is never one of the doubles that are rounded to the edge. So whatever the reference, what is
recovered is full and can be decoded (`recoverText_isFull`).
-/

namespace OpenLocation

open Binary64

/-! ## Doubles apart from an edge -/

/-- The double is the edge itself or none of those next to it. -/
def ApartFrom (edge x : Binary64) : Prop := x = edge ∨ 1 / 10 ^ 9 ≤ |x.value - edge.value|

theorem rounded_near_edges :
    (∀ x ∈ roundedToPole, x ≠ 90 ∧ |x.value - (90 : Binary64).value| < 1 / 10 ^ 9) ∧
      roundedToAntimeridian ≠ 180 ∧
      |roundedToAntimeridian.value - (180 : Binary64).value| < 1 / 10 ^ 9 := by
  decide +kernel

theorem ApartFrom.not_mem_roundedToPole {x : Binary64} (h : ApartFrom 90 x) :
    x ∉ roundedToPole := by
  intro hx
  obtain ⟨hne, hlt⟩ := rounded_near_edges.1 x hx
  rcases h with heq | hle
  · exact hne heq
  · exact absurd hlt (not_lt.2 hle)

theorem ApartFrom.ne_roundedToAntimeridian {x : Binary64} (h : ApartFrom 180 x) :
    x ≠ roundedToAntimeridian := by
  intro hx
  rw [hx] at h
  obtain ⟨-, hne, hlt⟩ := rounded_near_edges
  rcases h with heq | hle
  · exact hne heq
  · exact absurd hlt (not_lt.2 hle)

namespace Binary64.Near

variable {x edge : Binary64} {v w e : ℚ}

theorem apartFrom (h : Near x v (2 / 10 ^ 12)) (hedge : Near edge w 0)
    (hv : 1 / 10 ^ 8 ≤ |v - w|) : ApartFrom edge x := by
  right
  rw [hedge.value_eq]
  have := abs_sub_le v x.value w
  have := abs_sub_comm v x.value
  linarith [h.close]

/-- The lesser of a number and an edge is the edge, or near the number, which is below. -/
theorem lesser_edge_cases (h : Near x v e) (hedge : Near edge w 0) (hv : e < |v - w|) :
    x.lesser edge = edge ∨ Near (x.lesser edge) v e ∧ v ≤ w := by
  rcases le_or_gt v w with hle | hgt
  · exact Or.inr ⟨h.lesser hedge hle, hle⟩
  · left
    rw [abs_of_pos (sub_pos.2 hgt)] at hv
    have hlt : edge < x := hedge.lt_of_add_lt h (by linarith)
    rw [Binary64.lesser, isNaN_eq_false h.isFinite, isNaN_eq_false hedge.isFinite,
      if_neg Bool.false_ne_true, if_neg Bool.false_ne_true, if_pos hlt]

end Binary64.Near

namespace Code

/-! ## The step toward the reference -/

/--
Less than half a step inside the first section, no place that is whole sections further on is at
the end of the last section.
-/
theorem le_abs_sub_edge {sections : Nat} {offset p w : ℚ} (hp : 0 < p)
    (hlow : -w + 1 / 10 ^ 8 ≤ offset) (hhigh : offset ≤ -w + p - 1 / 10 ^ 8)
    (hsections : sections * p = 2 * w) (k : ℤ) : 1 / 10 ^ 8 ≤ |offset + k * p - w| := by
  have hplace : offset + k * p - w = offset + w + (k - sections : ℤ) * p := by
    push_cast
    linear_combination hsections
  rw [hplace, le_abs]
  rcases lt_or_ge k sections with hlt | hge
  · right
    have hcells : ((k - sections : ℤ) : ℚ) * p ≤ -1 * p :=
      mul_le_mul_of_nonneg_right (by exact_mod_cast (by omega : k - sections ≤ -1)) hp.le
    linarith
  · left
    have hcells : 0 ≤ ((k - sections : ℤ) : ℚ) * p :=
      mul_nonneg (by exact_mod_cast sub_nonneg.2 hge) hp.le
    linarith

/-- `approach` stays where it is or moves by one cell. -/
theorem apartFrom_of_steps {edge center cell : Binary64} (hcenter : ApartFrom edge center)
    (hdown : ApartFrom edge (center - cell)) (hup : ApartFrom edge (center + cell))
    (reference : Binary64) (mayLower mayRaise : Bool) :
    ApartFrom edge (approach center reference cell mayLower mayRaise) := by
  unfold approach
  split
  · exact hdown
  · split
    · exact hup
    · exact hcenter

/-- From the edge itself, or from a place no whole cells from it, `approach` leads apart from it. -/
theorem apartFrom_step {edge center cell : Binary64} {z w p : ℚ} (hedge : Near edge w 0)
    (hw : |w| ≤ 180) (hcell : Near cell p (1 / 2 ^ 52)) (hp : 1 / 400 ≤ p) (hp' : p ≤ 20)
    (hcenter : center = edge ∨
      Near center z (1 / 10 ^ 12) ∧ |z| ≤ 180 ∧ ∀ k : ℤ, 1 / 10 ^ 8 ≤ |z + k * p - w|)
    (reference : Binary64) (mayLower mayRaise : Bool) :
    ApartFrom edge (approach center reference cell mayLower mayRaise) := by
  have hpos : |p| = p := abs_of_pos (by linarith)
  rcases hcenter with rfl | ⟨hcenter, hz, hplaces⟩
  · obtain ⟨hdown, hup⟩ := near_steps (hedge.weaken (by norm_num)) hcell hw (hpos.trans_le hp')
    refine apartFrom_of_steps (Or.inl rfl) (hdown.apartFrom hedge ?_) (hup.apartFrom hedge ?_)
      reference mayLower mayRaise
    · rw [sub_sub_cancel_left, abs_neg, hpos]
      linarith
    · rw [add_sub_cancel_left, hpos]
      linarith
  · obtain ⟨hdown, hup⟩ := near_steps hcenter hcell hz (hpos.trans_le hp')
    have hhere := hplaces 0
    have hbelow := hplaces (-1)
    have habove := hplaces 1
    rw [Int.cast_zero, zero_mul, add_zero] at hhere
    rw [Int.cast_neg, Int.cast_one, neg_one_mul, ← sub_eq_add_neg] at hbelow
    rw [Int.cast_one, one_mul] at habove
    exact apartFrom_of_steps ((hcenter.weaken (by norm_num)).apartFrom hedge hhere)
      (hdown.apartFrom hedge hbelow) (hup.apartFrom hedge habove) reference mayLower mayRaise

/--
From the middle of a section, kept to the edge, `approach` leads to the edge itself or apart from
it: on the globe or off it, wherever the reference is.
-/
theorem apartFrom_approach {count sections i : Nat} (hcount : LeadCount count)
    {edge middle : Binary64} {w offset : ℚ} (hedge : Near edge w 0) (hw : |w| ≤ 180)
    (hsections : sections * cellDegrees count = 2 * w) (hlow : -w + 1 / 10 ^ 8 ≤ offset)
    (hhigh : offset ≤ -w + cellDegrees count - 1 / 10 ^ 8)
    (hmiddle : Near middle (offset + i * cellDegrees count) (1 / 10 ^ 12)) (reference : Binary64)
    (mayLower mayRaise : Bool) :
    ApartFrom edge (approach (middle.lesser edge) reference (precision count) mayLower
      mayRaise) := by
  obtain ⟨hp, hp'⟩ := hcount.cellDegrees_bounds
  have hclear (k : ℤ) := le_abs_sub_edge (by linarith) hlow hhigh hsections k
  have hhere : 1 / 10 ^ 8 ≤ |offset + i * cellDegrees count - w| := by
    exact_mod_cast hclear i
  refine apartFrom_step hedge hw hcount.near_precision hp hp'
    (z := offset + i * cellDegrees count) ?_ reference mayLower mayRaise
  refine (hmiddle.lesser_edge_cases hedge (by linarith)).imp_right fun ⟨hnear, hbelow⟩ => ?_
  have hnonneg : 0 ≤ (i : ℚ) * cellDegrees count := mul_nonneg (Nat.cast_nonneg _) (by linarith)
  have hbound := (abs_le.1 hw).2
  refine ⟨hnear, abs_le.2 ⟨by linarith, by linarith⟩, fun k => ?_⟩
  have := hclear (i + k)
  push_cast at this
  rwa [add_mul, ← add_assoc] at this

/-! ## Recovery -/

section Recovery

variable {c : Code}

/-- The middle of a candidate is as accurate beyond the pole and the antimeridian. -/
theorem near_middle_candidate (hshort : c.isShort = true) {p : GridPoint} (hp : p ∈ Cell.whole)
    (hrow : p.row ≤ 180 * GridPoint.rowsPerDegree)
    (hcolumn : p.column ≤ 360 * GridPoint.columnsPerDegree) :
    let digits := p.digits.take c.missing ++ c.digits
    let area := Area.ofDigits digits
    Near (area.south + (area.north - area.south) / 2) (Cell.ofDigits digits).middleLatitude
        (1 / 10 ^ 12) ∧
      Near (area.west + (area.east - area.west) / 2) (Cell.ofDigits digits).middleLongitude
        (1 / 10 ^ 12) := by
  intro digits area
  obtain ⟨part, -, -, hrows, hcolumns, hpart⟩ := exists_part hshort
  have hcell : Cell.ofDigits digits = _ := hpart p hp
  have hheight : Cell.heightOf c.missing ≤ 20 * GridPoint.rowsPerDegree := by
    rcases leadCount_missing hshort with h | h | h | h <;> rw [h] <;> decide
  have hwidth : Cell.widthOf c.missing ≤ 20 * GridPoint.columnsPerDegree := by
    rcases leadCount_missing hshort with h | h | h | h <;> rw [h] <;> decide
  have hsouth := Nat.div_mul_le_self p.row (Cell.heightOf c.missing)
  have hwest := Nat.div_mul_le_self p.column (Cell.widthOf c.missing)
  constructor
  · refine (Area.nearAxis_latitude (n := min mostDigits digits.length) ?_).nearMiddle
    rw [hcell]
    simp only [Cell.shift]
    omega
  · refine (Area.nearAxis_longitude (n := min mostDigits digits.length) ?_).nearMiddle
    rw [hcell]
    simp only [Cell.shift]
    omega

/-- Whatever the reference, a full code is recovered. -/
theorem isFull_nearest (hshort : c.isShort = true) (r : Location) :
    (c.nearest r).isFull = true := by
  have hcount := leadCount_missing hshort
  obtain ⟨latitude, longitude, hspaced⟩ := exists_spaced hshort
  unfold nearest
  dsimp only
  rw [← missing, take_digits_ofLocation hcount.isCount.2.1, isFull_ofLocation_iff]
  generalize adjustLatitude r.latitude c.digits.length = x
  generalize wrapLongitude r.longitude = y
  have hmost : defaultDigits ≤ mostDigits := by decide
  have hwhole := ofLocation_mem_whole ⟨x, y⟩ hmost
  have hrow := rowAt_adjustLatitude_le hmost x
  have hcolumn := columnAt_wrapLongitude_le y
  obtain ⟨hmiddle, hmiddle'⟩ := hspaced.middles_of_mem hwhole
  obtain ⟨hnear, hnear'⟩ := near_middle_candidate hshort hwhole
    (by simp only [GridPoint.ofLocation]; omega) (by simp only [GridPoint.ofLocation]; omega)
  rw [hmiddle] at hnear
  rw [hmiddle'] at hnear'
  have hrows : rowsOf c.missing * cellDegrees c.missing = 2 * 90 := by
    rw [hcount.rowsOf_mul]
    norm_num
  have hcolumns : columnsOf c.missing * cellDegrees c.missing = 2 * 180 := by
    rw [hcount.columnsOf_mul]
    norm_num
  rw [Area.center_latitude, Area.center_longitude]
  constructor
  · exact (apartFrom_approach hcount near_ninety (by norm_num [abs_le]) hrows
      hspaced.latitude_low hspaced.latitude_high hnear x _ _).not_mem_roundedToPole
  · exact (apartFrom_approach hcount near_halfTurn (by norm_num [abs_le]) hcolumns
      hspaced.longitude_low hspaced.longitude_high hnear' y _ _).ne_roundedToAntimeridian

/-- A code is recovered with all its digits, up to fifteen with the missing ones. -/
theorem length_digits_nearest (hshort : c.isShort = true) (r : Location) :
    (c.nearest r).digits.length = min mostDigits (separatorPosition + c.tail.length) := by
  have hcount : (c.nearest r).digits.length = effectiveDigits (c.digits.length + c.missing) :=
    length_digits_ofLocation _ _
  have hlength := missing_add_length hshort
  have hshape := c.shape
  have hpadding := padding_of_isShort hshort
  rw [hcount, Nat.add_comm, hlength]
  simp only [Shape, hpadding] at hshape
  simp only [effectiveDigits]
  split <;> simp only [leastDigits, mostDigits, pairDigits, refinementDigits,
    separatorPosition] at * <;> omega

end Recovery

/--
Near whatever reference, a short code is recovered as a full code that can be decoded. It is in
upper case, its only separator stands at the ninth place, it has no padding, and all the digits
after the separator of the short code follow its own, up to the fifteenth.
-/
theorem recoverText_isFull {s : List Char} (hshort : (kind s).isShort = true) (r : Location) :
    let result := recoverText s r
    let after := s.drop (s.idxOf separator + 1)
    (kind result).isFull = true ∧ Text.upperCase result = result ∧
      (∀ i, result[i]? = some separator ↔ i = separatorPosition) ∧ paddingSymbol ∉ result ∧
      (kind result).digitCount = min mostDigits (separatorPosition + after.length) ∧
      ∃ a, areaOfText result = .ok a := by
  intro result after
  obtain ⟨c, hc, hshort⟩ := exists_isShort hshort
  have hresult : result = (c.nearest r).text := by
    simp only [result, recoverText, hc, recover, hshort, if_true]
  have hafter : after.length = c.tail.length := by
    have := length_of_ofText? hc
    rw [List.length_drop, idxOf_separator hc]
    omega
  have hread : ofText? result = some (c.nearest r) := hresult ▸ ofText?_text _
  have hfull := isFull_nearest hshort r
  have hlength := length_digits_nearest hshort r
  -- The digits fill the eight places before the separator.
  have hpadding : (c.nearest r).padding = 0 := by
    rw [(lead_and_padding (isShort_of_isFull hfull)).2, hlength]
    simp only [mostDigits, pairDigits, refinementDigits, separatorPosition]
    omega
  rw [exists_areaOfText_iff, kind_of_ofText? hread, upperCase_of_ofText? hread, hafter, hresult]
  dsimp only
  refine ⟨hfull, rfl, fun i => ?_, paddingSymbol_not_mem_text hpadding, hlength, hfull⟩
  rw [getElem?_text_eq_separator_iff, length_lead_add_padding (isShort_of_isFull hfull)]

/-- Even a reference that is rounded over the pole and has no longitude makes a full code. -/
theorem recoverText_isFull_beyond :
    let r : Location := ⟨.ofBits 0x40567fffffffffff, .nan⟩
    (kind "+2222222222".toList).isShort = true ∧
      recoverText "+2222222222".toList r = "C2X2X2X2+X2RRRRR".toList ∧
      (kind "C2X2X2X2+X2RRRRR".toList).isFull = true ∧
      (kind "C2X2X2X2+X2RRRRR".toList).digitCount = 15 ∧
      ∃ a, areaOfText "C2X2X2X2+X2RRRRR".toList = .ok a := by
  intro r
  have hshort : (kind "+2222222222".toList).isShort = true := by decide
  have hrecover : recoverText "+2222222222".toList r = "C2X2X2X2+X2RRRRR".toList := by
    decide +kernel
  obtain ⟨hfull, -, -, -, hcount, harea⟩ := recoverText_isFull hshort r
  rw [hrecover] at hfull hcount harea
  exact ⟨hshort, hrecover, hfull, hcount.trans (by decide), harea⟩

end Code

end OpenLocation
