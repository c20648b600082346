import OpenLocation.Location
import OpenLocation.Proofs.Binary64.Near

/-!
# Locations in range

From the south pole up to the north pole and once around from the antimeridian, latitude
and longitude are taken as they are. A longitude beyond comes back into range by whole
turns (`near_wrapLongitude`).
-/

namespace OpenLocation

/-! ## Degrees around the circle -/

/-- Degrees between two longitudes, the shorter way around the circle. -/
def circleDistance (a b : ℚ) : ℚ := |a - b - 360 * round ((a - b) / 360)|

theorem circleDistance_le (a b : ℚ) (n : ℤ) : circleDistance a b ≤ |a + 360 * n - b| := by
  have h := round_le ((a - b) / 360) (-n)
  have hleft : (a - b) / 360 - round ((a - b) / 360) =
      (a - b - 360 * round ((a - b) / 360)) / 360 := by ring
  have hright : (a - b) / 360 - (-n : ℤ) = (a + 360 * n - b) / 360 := by push_cast; ring
  rwa [hleft, hright, abs_div, abs_div, div_le_div_iff_of_pos_right (by norm_num)] at h

/-- The distance is that of some longitude a number of turns away. -/
theorem exists_circleDistance_eq (a b : ℚ) : ∃ n : ℤ, circleDistance a b = |a + 360 * n - b| :=
  ⟨-round ((a - b) / 360), by rw [circleDistance]; push_cast; congr 1; ring⟩

open Binary64

/-! ## Ranges of doubles -/

theorem isFinite_of_le_of_lt {x low high : Binary64} (hlow : low.isFinite = true)
    (hhigh : high.isFinite = true) (hle : low ≤ x) (hlt : x < high) : x.isFinite = true := by
  rcases low with _ | _ | ⟨a, m, hm⟩ <;> simp only [isFinite, Bool.false_eq_true] at hlow
  rcases high with _ | _ | ⟨b, n, hn⟩ <;> simp only [isFinite, Bool.false_eq_true] at hhigh
  rcases x with _ | negative | _
  · cases hle
  · have hm := hm.1
    have hn := hn.1
    rw [le_iff_atMost, atMost, rank, rank, decide_eq_true_iff] at hle
    rw [lt_iff_less, less, rank, rank, decide_eq_true_iff] at hlt
    cases negative <;> cases a <;> cases b <;>
      simp only [signed, if_true, if_false, Bool.false_eq_true] at hle hlt <;> omega
  · rfl

/-- What is in a half-open range of doubles is an exact number in that range. -/
theorem near_of_le_of_lt {x low high : Binary64} {v w : ℚ} (hlow : Near low v 0)
    (hhigh : Near high w 0) (hle : low ≤ x) (hlt : x < high) :
    Near x x.value 0 ∧ v ≤ x.value ∧ x.value < w := by
  have hfinite := isFinite_of_le_of_lt hlow.isFinite hhigh.isFinite hle hlt
  rw [le_iff hlow.isFinite hfinite, hlow.value_eq] at hle
  rw [lt_iff hfinite hhigh.isFinite, hhigh.value_eq] at hlt
  exact ⟨Near.self hfinite, hle, hlt⟩

/-! ## Latitude and longitude that are kept -/

theorem adjustLatitude_of_near {x : Binary64} {v e : ℚ} (h : Near x v e) (hlow : -90 ≤ v - e)
    (hhigh : v + e < 90) (digitCount : Nat) : adjustLatitude x digitCount = x := by
  have hclamp : x.clamp (-90) 90 = x := by
    rw [clamp, if_neg (h.not_lt_of_add_le near_ninety.neg (by linarith)),
      if_neg (near_ninety.not_lt_of_add_le h (by linarith))]
  rw [adjustLatitude, hclamp]
  exact if_pos (h.lt_of_add_lt near_ninety (by linarith))

theorem wrapLongitude_of_inRange {x : Binary64} (hwest : -180 ≤ x) (heast : x < 180) :
    wrapLongitude x = x := by
  have hfinite := isFinite_of_le_of_lt near_halfTurn.neg.isFinite near_halfTurn.isFinite hwest heast
  rw [wrapLongitude, hfinite, if_neg (by simp)]
  exact if_pos ⟨hwest, heast⟩

/-! ## Whole turns -/

/-- Whole turns that are together less than one turn are none. -/
theorem turns_eq_zero {n : ℤ} (hlow : -360 < 360 * (n : ℚ)) (hhigh : 360 * (n : ℚ) < 360) :
    n = 0 := by
  have hlow : (-1 : ℚ) < n := by linarith
  have hhigh : (n : ℚ) < 1 := by linarith
  have hlow : -1 < n := by exact_mod_cast hlow
  have hhigh : n < 1 := by exact_mod_cast hhigh
  omega

/-- A longitude near one in range, up to whole turns, is brought near that one. -/
theorem near_wrapLongitude {x : Binary64} {v e : ℚ} {n : ℤ} (h : Near x (v + 360 * n) e)
    (hv : |v| ≤ 180 - 1 / 10 ^ 8) (hfar : |v + 360 * n| ≤ 400) (he : e ≤ 1 / 10 ^ 9) :
    Near (wrapLongitude x) v (e + 1 / 10 ^ 12) := by
  rw [abs_le] at hv hfar
  have hvalue := And.intro h.le_value h.value_le
  rw [wrapLongitude, h.isFinite, if_neg (by simp)]
  split
  · next hin =>
    rw [le_iff near_halfTurn.neg.isFinite h.isFinite, near_halfTurn.neg.value_eq,
      lt_iff h.isFinite near_halfTurn.isFinite, near_halfTurn.value_eq] at hin
    obtain rfl : n = 0 := turns_eq_zero (by linarith) (by linarith)
    rw [Int.cast_zero, mul_zero, add_zero] at h
    exact h.weaken (by norm_num)
  · have hsum := h.add near_halfTurn (A := 600)
      (abs_add_le_of_bounds (by linarith) (by linarith)) (by norm_num)
    have hsumValue := And.intro hsum.le_value hsum.value_le
    obtain ⟨k, hrem, hlow, hhigh⟩ :=
      Near.exists_euclideanRem hsum.isFinite near_turn (by norm_num) (by norm_num)
    obtain rfl : n = k := by
      have : n - k = 0 := turns_eq_zero (by push_cast; linarith) (by push_cast; linarith)
      omega
    have hclose : |(x + 180).value - n * 360 - (v + 180)| ≤ 600 / 2 ^ 53 + (e + 0) := by
      rw [abs_le]
      constructor <;> linarith
    have hback := (hrem.shift hclose).sub near_halfTurn (A := 181)
      (abs_add_le_of_bounds (by linarith) (by linarith)) (by norm_num)
    rw [add_sub_cancel_right] at hback
    have hwrapped := hback.weaken (f := e + 1 / 10 ^ 12) (by linarith)
    have hbelow : ¬ 180 ≤ (x + 180).euclideanRem 360 - 180 := by
      rw [le_iff near_halfTurn.isFinite hwrapped.isFinite, near_halfTurn.value_eq]
      linarith [hwrapped.value_le]
    rw [if_neg hbelow]
    exact hwrapped

/-! ## Locations in range -/

namespace Location

/-- Latitude from the south pole up to the north pole, longitude once around. -/
def InRange (l : Location) : Prop :=
  (-90 ≤ l.latitude ∧ l.latitude < 90) ∧ -180 ≤ l.longitude ∧ l.longitude < 180

instance (l : Location) : Decidable l.InRange := inferInstanceAs (Decidable (_ ∧ _))

namespace InRange

variable {l : Location}

theorem near_latitude (h : l.InRange) :
    Near l.latitude l.latitude.value 0 ∧ -90 ≤ l.latitude.value ∧ l.latitude.value < 90 :=
  near_of_le_of_lt near_ninety.neg near_ninety h.1.1 h.1.2

theorem near_longitude (h : l.InRange) :
    Near l.longitude l.longitude.value 0 ∧ -180 ≤ l.longitude.value ∧ l.longitude.value < 180 :=
  near_of_le_of_lt near_halfTurn.neg near_halfTurn h.2.1 h.2.2

theorem adjustLatitude_eq (h : l.InRange) (digitCount : Nat) :
    adjustLatitude l.latitude digitCount = l.latitude := by
  obtain ⟨hnear, hsouth, hnorth⟩ := h.near_latitude
  exact adjustLatitude_of_near hnear (by linarith) (by linarith) digitCount

theorem wrapLongitude_eq (h : l.InRange) : wrapLongitude l.longitude = l.longitude :=
  wrapLongitude_of_inRange h.2.1 h.2.2

end InRange

end Location

end OpenLocation
