import OpenLocation.Proofs.Code.FirstDigits
import OpenLocation.Proofs.Code.Fullness
import OpenLocation.Proofs.Code.RoundTrip
import OpenLocation.Proofs.Location.Precision

/-!
# The distances that shortening depends on

A reference removes digits if it is near enough to the center both in latitude and in longitude.
Of the two distances the greater is compared with what the digits allow, and the greater of a
number and a NaN is the number. So a reference whose latitude is a NaN, or whose longitude is
not finite, is judged by its other coordinate alone, and removes nothing only if neither can be
used (`shortenText_distance`).
-/

namespace OpenLocation

open Binary64

/-! ## Latitudes and longitudes that are numbers -/

/-- A latitude that is a number is brought to one, whatever the number of digits. -/
theorem isNaN_adjustLatitude (x : Binary64) (digitCount : Nat) :
    (adjustLatitude x digitCount).isNaN = x.isNaN := by
  cases hnan : x.isNaN with
  | true =>
    cases x <;> cases hnan
    rw [adjustLatitude_nan]
    rfl
  | false =>
    have hpole := Near.isNaN_eq_false near_ninety.isFinite
    by_cases hlt : x < 90
    · rw [adjustLatitude_of_lt hlt]
      split
      · rw [isNaN_neg, hpole]
      · exact hnan
    · rw [adjustLatitude_of_le (Binary64.le_of_not_lt hnan hpole hlt),
        isNaN_sub near_ninety.isFinite,
        isNaN_div_right near_two.isFinite (by rw [near_two.value_eq]; norm_num),
        isNaN_precision]

/-- A finite longitude is wrapped to a number. -/
theorem isNaN_wrapLongitude (x : Binary64) : (wrapLongitude x).isNaN = !x.isFinite := by
  cases hfinite : x.isFinite with
  | false =>
    rw [wrapLongitude_of_not_isFinite hfinite]
    rfl
  | true =>
    by_cases hin : -180 ≤ x ∧ x < 180
    · rw [wrapLongitude_of_inRange hin.1 hin.2, Near.isNaN_eq_false hfinite]
      rfl
    · obtain ⟨k, hrest, -⟩ := Near.exists_euclideanRem (isFinite_add_halfTurn hfinite) near_turn
        (by norm_num) (by norm_num)
      have hwrapped : ((x + 180).euclideanRem 360 - 180).isNaN = false := by
        rw [isNaN_sub hrest.isFinite, Near.isNaN_eq_false near_halfTurn.isFinite]
      rw [wrapLongitude, hfinite, if_neg (by simp), if_neg hin]
      dsimp only
      split
      · rw [isNaN_neg, Near.isNaN_eq_false near_halfTurn.isFinite]
        rfl
      · exact hwrapped

namespace Code

/-! ## What is removed -/

/-- The first count that passes, where a lower one passes with any higher one. -/
theorem le_find_iff {p : Nat → Bool} (h8 : p 8 = true → p 6 = true) (h6 : p 6 = true → p 4 = true)
    {count : Nat} (hmem : count ∈ [4, 6, 8]) :
    count ≤ ([8, 6, 4].find? p).getD 0 ↔ p count = true := by
  simp only [List.mem_cons, List.not_mem_nil, or_false] at hmem
  unfold List.find? List.find? List.find?
  rcases hmem with rfl | rfl | rfl <;>
    cases hp8 : p 8 <;> cases hp6 : p 6 <;> cases hp4 : p 4 <;> simp_all

/-- Digits are removed up to those that the distance still allows; fewer allow more. -/
theorem le_removable_iff {c : Code} (hfull : c.isFull = true) (hpadding : c.padding = 0)
    (r : Location) {count : Nat} (hmem : count ∈ [4, 6, 8]) :
    count ≤ c.removable r ↔ count < c.digits.length ∧
      offset (Area.ofDigits c.digits).center (adjustLatitude r.latitude c.digits.length)
        (wrapLongitude r.longitude) < precision count * 0.3 := by
  have hlimits : precision 8 * 0.3 ≤ precision 6 * 0.3 ∧ precision 6 * 0.3 ≤ precision 4 * 0.3 := by
    decide +kernel
  unfold removable
  rw [if_pos ⟨hfull, hpadding⟩]
  dsimp only
  rw [le_find_iff ?_ ?_ hmem, decide_eq_true_iff]
  · intro h
    rw [decide_eq_true_iff] at h ⊢
    exact ⟨by omega, Binary64.lt_of_lt_of_le h.2 hlimits.1⟩
  · intro h
    rw [decide_eq_true_iff] at h ⊢
    exact ⟨by omega, Binary64.lt_of_lt_of_le h.2 hlimits.2⟩

/-- Of the two distances to a reference the one that is no number is passed over. -/
theorem offset_lt_iff {center : Location} (hlatitude : center.latitude.isFinite = true)
    (hlongitude : center.longitude.isFinite = true) (r : Location) (digitCount : Nat)
    {limit : Binary64} :
    offset center (adjustLatitude r.latitude digitCount) (wrapLongitude r.longitude) < limit ↔
      (r.latitude.isNaN = false ∨ r.longitude.isFinite = true) ∧
        (r.latitude.isNaN = false →
          (center.latitude - adjustLatitude r.latitude digitCount).abs < limit) ∧
        (r.longitude.isFinite = true →
          (center.longitude - wrapLongitude r.longitude).abs < limit) := by
  rw [offset, greater_lt_iff, isNaN_abs, isNaN_abs, isNaN_sub hlatitude, isNaN_sub hlongitude,
    isNaN_adjustLatitude, isNaN_wrapLongitude, Bool.not_eq_false']

/-! ## Texts -/

/--
A full text without padding loses four, six or eight characters exactly if it has more digits
than that and the center is near enough to the reference, in latitude if that of the reference is
a number and in longitude if that is finite. If neither can be used nothing is removed.
-/
theorem shortenText_distance {s : List Char} (hfull : (kind s).isFull = true)
    (hpadding : paddingSymbol ∉ s) (r : Location) :
    ∃ area, areaOfText s = .ok area ∧ ∃ removed ∈ [0, 4, 6, 8],
      shortenText s r = s.drop removed ∧ ∀ count ∈ [4, 6, 8], count ≤ removed ↔
        count < (kind s).digitCount ∧
          (r.latitude.isNaN = false ∨ r.longitude.isFinite = true) ∧
          (r.latitude.isNaN = false →
            (area.center.latitude - adjustLatitude r.latitude (kind s).digitCount).abs <
              precision count * 0.3) ∧
          (r.longitude.isFinite = true →
            (area.center.longitude - wrapLongitude r.longitude).abs < precision count * 0.3) := by
  obtain ⟨c, hc, hcfull⟩ := exists_isFull hfull
  have hcpadding := padding_of_not_mem hc hpadding
  have hshort := isShort_of_isFull hcfull
  have hglobe : c.isOnGlobe = true := by simpa [isFull, hshort] using hcfull
  have harea : areaOfText s = .ok (.ofDigits c.digits) := by
    rw [areaOfText, hc]
    dsimp only
    rw [areaFrom, hshort, hglobe]
    rfl
  have hshorten : shortenText s r = s.drop (c.removable r) := by rw [shortenText, hc]
  obtain ⟨hlatitude, hlongitude⟩ :=
    @Area.near_center _ (min mostDigits c.digits.length) (onGlobe_ofDigits hcfull)
  refine ⟨_, harea, c.removable r, removable_mem c r, hshorten, fun count hmem => ?_⟩
  rw [kind_of_ofText? hc, le_removable_iff hcfull hcpadding r hmem]
  exact and_congr_right fun _ =>
    offset_lt_iff hlatitude.isFinite hlongitude.isFinite r c.digits.length

/-- Near the latitude alone: the longitude is not looked at. -/
theorem shortenText_distance_latitude :
    let r : Location := ⟨51.3701125, .infinity false⟩
    (kind "9c3w9qcj+2vx".toList).isFull = true ∧ paddingSymbol ∉ "9c3w9qcj+2vx".toList ∧
      ∃ area, areaOfText "9c3w9qcj+2vx".toList = .ok area ∧ ∃ removed ∈ [0, 4, 6, 8],
        shortenText "9c3w9qcj+2vx".toList r = "9c3w9qcj+2vx".toList.drop removed ∧
        (8 ≤ removed ↔ (area.center.latitude - adjustLatitude r.latitude 11).abs <
          precision 8 * 0.3) := by
  intro r
  have hfull : (kind "9c3w9qcj+2vx".toList).isFull = true := by decide
  have hpadding : paddingSymbol ∉ "9c3w9qcj+2vx".toList := by decide
  have hcount : (kind "9c3w9qcj+2vx".toList).digitCount = 11 := by decide
  have hlatitude : r.latitude.isNaN = false := by decide +kernel
  have hlongitude : r.longitude.isFinite = false := rfl
  obtain ⟨area, harea, removed, hmem, hdrop, hiff⟩ := shortenText_distance hfull hpadding r
  have hiff := hiff 8 (by decide)
  rw [hcount, hlatitude, hlongitude] at hiff
  refine ⟨hfull, hpadding, area, harea, removed, hmem, hdrop, ?_⟩
  simpa using hiff

/-- A reference further away keeps more of the code. -/
example : shortenText "9C3W9QCJ+2VX".toList ⟨51.36, -1.2⟩ = "9QCJ+2VX".toList := by
  decide +kernel

/--
Without a longitude that can be used a code loses eight digits, although its distance in
longitude is no number that could be small enough, and they do not come back.
-/
theorem shortenText_without_longitude :
    let r : Location := ⟨51.3701125, .nan⟩
    (kind "9C3W9QCJ+2VX".toList).isFull = true ∧ paddingSymbol ∉ "9C3W9QCJ+2VX".toList ∧
      shortenText "9C3W9QCJ+2VX".toList r = "9C3W9QCJ+2VX".toList.drop 8 ∧
      recoverText ("9C3W9QCJ+2VX".toList.drop 8) r ≠ "9C3W9QCJ+2VX".toList ∧
      ∃ area, areaOfText "9C3W9QCJ+2VX".toList = .ok area ∧
        ¬ (area.center.longitude - wrapLongitude r.longitude).abs < precision 8 * 0.3 := by
  intro r
  have hfull : (kind "9C3W9QCJ+2VX".toList).isFull = true := by decide
  have hshorten : shortenText "9C3W9QCJ+2VX".toList r = "9C3W9QCJ+2VX".toList.drop 8 := by
    decide +kernel
  have hrecover : recoverText ("9C3W9QCJ+2VX".toList.drop 8) r ≠ "9C3W9QCJ+2VX".toList := by
    decide +kernel
  obtain ⟨area, harea⟩ := (exists_areaOfText_iff _).2 hfull
  refine ⟨hfull, by decide, hshorten, hrecover, area, harea, fun hlt => ?_⟩
  have hnan : (area.center.longitude - nan).isNaN = false := by
    rw [← isNaN_abs]
    exact (isNaN_of_lt hlt).1
  show False
  cases hx : area.center.longitude <;> rw [hx] at hnan <;> cases hnan

end Code

end OpenLocation
