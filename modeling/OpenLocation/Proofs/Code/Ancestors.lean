import OpenLocation.Proofs.Code.Fullness
import OpenLocation.Proofs.Code.Layout
import OpenLocation.Proofs.Code.Placement
import OpenLocation.Proofs.Grid.Nesting

/-!
# Codes of larger cells

The first digits of a code make the code of a larger cell around the same points. So the
codes of one location begin alike, whatever their numbers of digits
(`significant_text_ofLocation`), and so do the codes of the center of an area and the one
that the area was read from (`text_ofLocation_center`). The cells of two codes lie one inside
the other if the digits of one begin with those of the other, and are apart if not
(`points_subset_iff_digits`).
-/

namespace OpenLocation

open Binary64

/-! ## One location seen with several numbers of digits -/

/-- Half a cell south of the pole lies in the last row of cells. -/
theorem rowAt_pole : ∀ count < mostDigits + 1, FullCount count →
    (180 * GridPoint.rowsPerDegree : Nat) ≤
        GridPoint.rowAt (90 - precision count / 2) + Cell.heightOf count ∧
      GridPoint.rowAt (90 - precision count / 2) < (180 * GridPoint.rowsPerDegree : Nat) := by
  unfold FullCount
  decide +kernel

theorem heightOf_dvd_globe {count : Nat} (h : 2 ≤ count) :
    Cell.heightOf count ∣ 180 * GridPoint.rowsPerDegree :=
  (Cell.heightOf_dvd_heightOf h).trans (by decide)

/-- Numbers in the last section of a whole have the same index of their section. -/
theorem div_eq_of_last {size total n : Nat} (hdvd : size ∣ total) (hle : total ≤ n + size)
    (hlt : n < total) : n / size = total / size - 1 := by
  obtain ⟨count, rfl⟩ := hdvd
  have hsize : 0 < size := Nat.pos_of_mul_pos_right (Nat.zero_lt_of_lt hlt)
  rw [Nat.mul_div_cancel_left _ hsize]
  cases count with
  | zero => exact absurd hlt (Nat.not_lt_zero n)
  | succ count =>
    rw [Nat.mul_succ] at hle hlt
    apply Nat.div_eq_of_lt_le
    · rw [Nat.add_sub_cancel, Nat.mul_comm]
      omega
    · rw [Nat.add_sub_cancel, Nat.succ_mul, Nat.mul_comm]
      omega

namespace GridPoint

/-- At the pole a location seen with at least so many digits lies in the last row of cells. -/
theorem row_div_pole {l : Location} (hpole : 90 ≤ l.latitude) {count digitCount : Nat}
    (hcount : FullCount count) (hfull : FullCount digitCount) (hle : count ≤ digitCount)
    (hmost : digitCount ≤ mostDigits) :
    (ofLocation l digitCount).row / Cell.heightOf count =
      180 * rowsPerDegree / Cell.heightOf count - 1 := by
  obtain ⟨hlow, hhigh⟩ := rowAt_pole digitCount (Nat.lt_succ_of_le hmost) hfull
  have hsize : Cell.heightOf digitCount ≤ Cell.heightOf count :=
    Nat.le_of_dvd (Cell.heightOf_pos count) (Cell.heightOf_dvd_heightOf hle)
  have hrow : (ofLocation l digitCount).row = (rowAt (90 - precision digitCount / 2)).toNat := by
    rw [ofLocation, adjustLatitude_of_le hpole]
  have hpos : 0 < rowsPerDegree := by decide
  rw [hrow]
  apply div_eq_of_last (heightOf_dvd_globe hcount.two_le)
  · omega
  · omega

/-- Seen with more digits a location lies in the same row of cells. -/
theorem row_div_ofLocation (l : Location) {fewer more : Nat} (hfewer : FullCount fewer)
    (hmore : FullCount more) (hle : fewer ≤ more) (hmost : more ≤ mostDigits) :
    (ofLocation l fewer).row / Cell.heightOf fewer =
      (ofLocation l more).row / Cell.heightOf fewer := by
  by_cases hpole : 90 ≤ l.latitude
  · rw [row_div_pole hpole hfewer hfewer (Nat.le_refl fewer) (hle.trans hmost),
      row_div_pole hpole hfewer hmore hle hmost]
  · simp only [ofLocation, adjustLatitude_eq_of_not_le hpole fewer more]

/-- Seen with more digits a location begins with the same ones. -/
theorem take_digits_ofLocation (l : Location) {fewer more : Nat} (hfewer : FullCount fewer)
    (hmore : FullCount more) (hle : fewer ≤ more) (hmost : more ≤ mostDigits) :
    (ofLocation l fewer).digits.take fewer = (ofLocation l more).digits.take fewer := by
  have hmost' := hle.trans hmost
  -- Only the latitude depends on the number of digits, so the columns are the same.
  exact take_digits_eq (Code.ofLocation_mem_whole l hmost') (hfewer.isCount hmost')
    (row_div_ofLocation l hfewer hmore hle hmost) rfl

end GridPoint

/-- The center of the area of a cell lies in the cell, with whatever number of digits it is seen. -/
theorem Area.center_mem {c : Cell} (hglobe : c.OnGlobe) (n digitCount : Nat) :
    GridPoint.ofLocation (ofCell c n).center digitCount ∈ c := by
  obtain ⟨hlatitude, hlongitude⟩ := near_center (n := n) hglobe
  have hnone : c.middleLongitude + 360 * (0 : ℤ) = c.middleLongitude := by
    rw [Int.cast_zero, mul_zero, add_zero]
  have hmiddle := hglobe.abs_middle_le.2
  rw [← hnone] at hlongitude
  have hwrapped := near_wrapLongitude hlongitude hmiddle (by rw [hnone]; linarith) (by norm_num)
  exact GridPoint.ofLocation_mem_of_near hglobe hlatitude (by norm_num) hwrapped (by norm_num)
    digitCount

namespace Code

/-- The code of a location begins with the digits of each shorter one of that location. -/
theorem digits_ofLocation_eq_take (l : Location) {fewer more : Nat}
    (h : effectiveDigits fewer ≤ effectiveDigits more) :
    (ofLocation l fewer).digits = (ofLocation l more).digits.take (effectiveDigits fewer) := by
  rw [digits_ofLocation, digits_ofLocation, List.take_take, Nat.min_eq_left h]
  exact GridPoint.take_digits_ofLocation l (fullCount_effectiveDigits fewer)
    (fullCount_effectiveDigits more) h (effectiveDigits_le more)

/--
Of any location, at the poles and beyond them too, the digits of the code are as many as it is
given, and the first ones of each code of the location with at least as many.
-/
theorem significant_text_ofLocation (l : Location) {fewer more : Nat}
    (h : effectiveDigits fewer ≤ effectiveDigits more) :
    let digits := significant (ofLocation l fewer).text
    digits.length = effectiveDigits fewer ∧
      digits = (significant (ofLocation l more).text).take (effectiveDigits fewer) := by
  intro digits
  have hdigits : digits = Digit.text (ofLocation l fewer).digits := significant_text _
  constructor
  · rw [hdigits, Digit.text, List.length_map, length_digits_ofLocation]
  · rw [hdigits, significant_text, Digit.text, Digit.text, ← List.map_take,
      digits_ofLocation_eq_take l h]

theorem significant_text_ofLocation_pole :
    effectiveDigits 3 ≤ effectiveDigits 99 ∧
      (ofLocation ⟨.infinity false, 0.5⟩ 99).text = "CFX2XGX2+X2RRRRR".toList ∧
      significant (ofLocation ⟨.infinity false, 0.5⟩ 3).text = "CFX2".toList := by
  have hle : effectiveDigits 3 ≤ effectiveDigits 99 := by decide
  have htext : (ofLocation ⟨.infinity false, 0.5⟩ 99).text = "CFX2XGX2+X2RRRRR".toList := by
    decide +kernel
  obtain ⟨-, hdigits⟩ := significant_text_ofLocation ⟨.infinity false, 0.5⟩ hle
  rw [htext] at hdigits
  exact ⟨hle, htext, hdigits.trans (by decide)⟩

/-! ## The center of an area -/

/-- A location in the cell of a full code has the first digits of that code. -/
theorem digits_ofLocation_of_mem {c : Code} (hfull : c.isFull = true)
    (hle : c.digits.length ≤ mostDigits) {l : Location} {requested : Nat}
    (hmem : GridPoint.ofLocation l (effectiveDigits requested) ∈ Cell.ofDigits c.digits)
    (h : effectiveDigits requested ≤ c.digits.length) :
    (ofLocation l requested).digits = c.digits.take (effectiveDigits requested) := by
  have hdigits := Cell.eq_take_of_mem (isCount_of_isFull hfull hle) hmem
  have htake := congrArg (List.take (effectiveDigits requested)) hdigits
  rw [List.take_take, Nat.min_eq_left h] at htake
  rw [digits_ofLocation, htake]

/--
The area of a full code of at most fifteen digits can be read, and the code of its center is
made up of the first digits of that code in upper case, as many as it is given, and padding.
With as many digits as the code has it is the code itself.
-/
theorem text_ofLocation_center {s : List Char} (hfull : (kind s).isFull = true)
    (hle : (kind s).digitCount ≤ mostDigits) :
    ∃ a, areaOfText s = .ok a ∧
      (∀ requested, effectiveDigits requested ≤ (kind s).digitCount →
        let first := (significant (Text.upperCase s)).take (effectiveDigits requested)
        let text := (ofLocation a.center requested).text
        significant text = first ∧ text = layout first) ∧
      (ofLocation a.center (kind s).digitCount).text = Text.upperCase s := by
  obtain ⟨c, hc, hcfull⟩ := exists_isFull hfull
  rw [kind_of_ofText? hc] at hle ⊢
  have hmem (digitCount : Nat) := Area.center_mem (cell_onGlobe hcfull hle)
    (min mostDigits c.digits.length) digitCount
  rw [upperCase_of_ofText? hc, significant_text]
  refine ⟨_, areaOfText_of_isFull hc hcfull, ?_, ?_⟩
  · intro requested h first text
    have hdigits := digits_ofLocation_of_mem hcfull hle (hmem _) h
    have hfirst : Digit.text (ofLocation (Area.ofDigits c.digits).center requested).digits =
        first := by
      simp only [first, Digit.text, ← List.map_take]
      exact congrArg (List.map Digit.symbol) hdigits
    constructor
    · rw [← hfirst]
      exact significant_text _
    · rw [← hfirst]
      exact text_eq_layout (isShort_ofLocation ..)
  · exact congrArg text (ofLocation_of_mem hcfull hle (hmem _))

theorem text_ofLocation_center_corner :
    (kind "cvxxxxxx+xxxxxxx".toList).isFull = true ∧
      (kind "cvxxxxxx+xxxxxxx".toList).digitCount = 15 ∧
      ∃ a, areaOfText "cvxxxxxx+xxxxxxx".toList = .ok a ∧
        (ofLocation a.center 5).text = "CVXXXX00+".toList ∧
        (ofLocation a.center 15).text = "CVXXXXXX+XXXXXXX".toList := by
  have hfull : (kind "cvxxxxxx+xxxxxxx".toList).isFull = true := by decide
  have hcount : (kind "cvxxxxxx+xxxxxxx".toList).digitCount = 15 := by decide
  have hupper : Text.upperCase "cvxxxxxx+xxxxxxx".toList = "CVXXXXXX+XXXXXXX".toList := by
    decide +kernel
  obtain ⟨a, ha, hfirst, hsame⟩ := text_ofLocation_center hfull (by rw [hcount]; decide)
  rw [hcount, hupper] at hfirst hsame
  have hsix := (hfirst 5 (by decide)).2
  exact ⟨hfull, hcount, a, ha, hsix.trans (by decide), hsame⟩

/-! ## Cells of two codes -/

theorem significant_prefix_iff (a b : Code) :
    significant a.text <+: significant b.text ↔ a.digits <+: b.digits := by
  rw [significant_text, significant_text, Digit.text, Digit.text]
  exact List.prefix_map_iff_of_injective fun _ _ h => Digit.symbol_injective h

theorem points_of_isFull {c : Code} (hfull : c.isFull = true)
    (hle : c.digits.length ≤ mostDigits) :
    (PlaceSums.ofDigits c.digits).points =
      GridPoint.coordinates '' (Cell.ofDigits c.digits).points :=
  (describes_digits (fullCount_of_isFull hfull) hle).points_eq

/--
The cells of full codes of at most fifteen digits lie one inside the other exactly if the
digits of the outer one, in upper case, are the first digits of the inner one, and are apart
if the digits of neither begin with those of the other. Codes with the same cell differ at
most in the case of letters.
-/
theorem points_subset_iff_digits {s t : List Char} (hs : (kind s).isFull = true)
    (ht : (kind t).isFull = true) (hsle : (kind s).digitCount ≤ mostDigits)
    (htle : (kind t).digitCount ≤ mostDigits) :
    ∃ c d, ofText? s = some c ∧ ofText? t = some d ∧
      let outer := (PlaceSums.ofDigits c.digits).points
      let inner := (PlaceSums.ofDigits d.digits).points
      let first := significant (Text.upperCase s)
      let second := significant (Text.upperCase t)
      (inner ⊆ outer ↔ first <+: second) ∧
        (¬ first <+: second → ¬ second <+: first → Disjoint outer inner) ∧
        (outer = inner → s.map Char.toUpper = t.map Char.toUpper) := by
  obtain ⟨c, hc, hcfull⟩ := exists_isFull hs
  obtain ⟨d, hd, hdfull⟩ := exists_isFull ht
  rw [kind_of_ofText? hc] at hsle
  rw [kind_of_ofText? hd] at htle
  have hccount := isCount_of_isFull hcfull hsle
  have hdcount := isCount_of_isFull hdfull htle
  refine ⟨c, d, hc, hd, ?_⟩
  intro outer inner first second
  simp only [outer, inner, first, second, upperCase_of_ofText? hc, upperCase_of_ofText? hd,
    significant_prefix_iff, points_of_isFull hcfull hsle, points_of_isFull hdfull htle]
  refine ⟨?_, ?_, ?_⟩
  · rw [Set.image_subset_image_iff GridPoint.coordinates_injective]
    exact Cell.ofDigits_subset_iff hccount hdcount
  · intro hnot hnot'
    rw [Set.disjoint_image_iff GridPoint.coordinates_injective]
    exact (Cell.disjoint_ofDigits_iff hccount hdcount).2 ⟨hnot, hnot'⟩
  · intro hsame
    have hcells := GridPoint.coordinates_injective.image_injective hsame
    have hdigits := Cell.digits_eq_of_points_eq hccount hdcount hcells
    have hcodes := eq_of_digits_eq (isShort_of_isFull hcfull) (isShort_of_isFull hdfull) hdigits
    rw [ofText?_eq_some_iff.1 hc, ofText?_eq_some_iff.1 hd, hcodes]

theorem points_subset_iff_digits_padded :
    (kind "8fvc0000+".toList).isFull = true ∧ (kind "8FVC9g8f+6wg".toList).isFull = true ∧
      (kind "8fvc0000+".toList).digitCount = 4 ∧ (kind "8FVC9g8f+6wg".toList).digitCount = 11 ∧
      ∃ c d, ofText? "8fvc0000+".toList = some c ∧ ofText? "8FVC9g8f+6wg".toList = some d ∧
        (PlaceSums.ofDigits d.digits).points ⊆ (PlaceSums.ofDigits c.digits).points := by
  have hs : (kind "8fvc0000+".toList).isFull = true := by decide
  have ht : (kind "8FVC9g8f+6wg".toList).isFull = true := by decide
  have hscount : (kind "8fvc0000+".toList).digitCount = 4 := by decide
  have htcount : (kind "8FVC9g8f+6wg".toList).digitCount = 11 := by decide
  have hprefix : significant (Text.upperCase "8fvc0000+".toList) <+:
      significant (Text.upperCase "8FVC9g8f+6wg".toList) := by decide +kernel
  obtain ⟨c, d, hc, hd, hsubset, -⟩ := points_subset_iff_digits hs ht
    (by rw [hscount]; decide) (by rw [htcount]; decide)
  exact ⟨hs, ht, hscount, htcount, c, d, hc, hd, hsubset.2 hprefix⟩

end Code

end OpenLocation
