import OpenLocation.Proofs.Binary64.NotANumber
import OpenLocation.Proofs.Location.Edge

/-!
# Longitudes of any size

A finite longitude is wrapped by a sum, a remainder and a difference, each rounded. The
remainder is between zero and a whole turn, both included, so what is wrapped comes into range,
if only because a whole turn is taken back to the antimeridian. It is whole turns away from the
longitude up to the three roundings (`wrapLongitude_turns`).
-/

namespace OpenLocation

open Binary64

/-- The remainder by which a finite longitude is wrapped is finite and within one turn. -/
theorem near_restOfTurn {x : Binary64} (h : x.isFinite = true) :
    ∃ n : ℤ, Near ((x + 180).euclideanRem 360) (x.value + 180 + 360 * n)
        ((|x.value| + 540) / 2 ^ 53) ∧
      0 ≤ ((x + 180).euclideanRem 360).value ∧ ((x + 180).euclideanRem 360).value ≤ 360 := by
  have hsum := Near.add_of_isFinite h near_halfTurn.isFinite (isFinite_add_halfTurn h)
  rw [near_halfTurn.value_eq] at hsum
  have habs : |x.value + 180| / 2 ^ 53 ≤ (|x.value| + 180) / 2 ^ 53 := by
    have := abs_add_le x.value 180
    rw [abs_of_pos (by norm_num : (0 : ℚ) < 180)] at this
    gcongr
  obtain ⟨k, hrest, -, -⟩ :=
    Near.exists_euclideanRem hsum.isFinite near_turn (by norm_num) (by norm_num)
  have hzero : Near 0 0 0 := by exact_mod_cast Near.ofNat (Nat.zero_le (2 ^ 53))
  have hlow := zero_le_euclideanRem_turn hsum.isFinite
  have hhigh := euclideanRem_turn_le hsum.isFinite
  rw [le_iff hzero.isFinite hrest.isFinite, hzero.value_eq] at hlow
  rw [le_iff hrest.isFinite near_turn.isFinite, near_turn.value_eq] at hhigh
  refine ⟨-k, Near.of_bounds hrest.isFinite ?_ ?_, hlow, hhigh⟩ <;> push_cast
  · linarith [hrest.le_value, hsum.le_value]
  · linarith [hrest.value_le, hsum.value_le]

/--
Half a turn less it is whole turns away from the longitude, and at most half a turn up to the
roundings before.
-/
theorem near_unpatched {x : Binary64} (h : x.isFinite = true) :
    ∃ n : ℤ, Near ((x + 180).euclideanRem 360 - 180) (x.value + 360 * n)
        ((|x.value| + 720) / 2 ^ 53) ∧
      x.value + 360 * n ≤ 180 + (|x.value| + 540) / 2 ^ 53 := by
  obtain ⟨n, hrest, hlow, hhigh⟩ := near_restOfTurn h
  have hrestLow := hrest.le_value
  have hrestHigh := hrest.value_le
  have hwrapped := (Near.self hrest.isFinite).sub near_halfTurn (A := 180)
    (abs_add_le_of_bounds (by linarith) (by linarith)) (by norm_num)
  refine ⟨n, Near.of_bounds hwrapped.isFinite ?_ ?_, ?_⟩
  · linarith [hwrapped.le_value]
  · linarith [hwrapped.value_le]
  · linarith

theorem wrapLongitude_lt {x : Binary64} (h : x.isFinite = true) : wrapLongitude x < 180 := by
  by_cases hin : -180 ≤ x ∧ x < 180
  · rw [wrapLongitude_of_inRange hin.1 hin.2]
    exact hin.2
  · obtain ⟨n, hwrapped, -⟩ := near_unpatched h
    rw [wrapLongitude, h, if_neg (by simp), if_neg hin]
    dsimp only
    split
    · exact near_halfTurn.neg.lt_of_add_lt near_halfTurn (by norm_num)
    · next hbelow =>
      by_contra hnot
      exact hbelow (Binary64.le_of_not_lt (Near.isNaN_eq_false hwrapped.isFinite)
        (Near.isNaN_eq_false near_halfTurn.isFinite) hnot)

/-- What a finite longitude is wrapped to is whole turns away from it, up to three roundings. -/
theorem near_wrapLongitude_turns {x : Binary64} (h : x.isFinite = true) :
    ∃ n : ℤ, Near (wrapLongitude x) (x.value + 360 * n) ((|x.value| + 720) / 2 ^ 53) := by
  by_cases hin : -180 ≤ x ∧ x < 180
  · refine ⟨0, ?_⟩
    rw [wrapLongitude_of_inRange hin.1 hin.2, Int.cast_zero, mul_zero, add_zero]
    exact (Near.self h).weaken (by positivity)
  · obtain ⟨n, hwrapped, hmost⟩ := near_unpatched h
    rw [wrapLongitude, h, if_neg (by simp), if_neg hin]
    dsimp only
    split
    · -- Half a turn is reached by rounding, from a remainder just below a whole turn.
      next hpatched =>
      rw [le_iff near_halfTurn.isFinite hwrapped.isFinite, near_halfTurn.value_eq] at hpatched
      have hclose := hwrapped.value_le
      refine ⟨n - 1, Near.of_bounds near_halfTurn.neg.isFinite ?_ ?_⟩ <;>
        rw [near_halfTurn.neg.value_eq] <;> push_cast <;> linarith
    · exact ⟨n, hwrapped⟩

/--
A finite longitude is wrapped to one from the antimeridian on and below it, which is whole
turns away up to the rounding of sums as large as the longitude. One that is in range is
kept, so wrapping twice is wrapping once. Any other double has no longitude.
-/
theorem wrapLongitude_turns (x : Binary64) :
    (x.isFinite = true →
      (-180 ≤ wrapLongitude x ∧ wrapLongitude x < 180) ∧
      (-180 ≤ x ∧ x < 180 → wrapLongitude x = x) ∧
      wrapLongitude (wrapLongitude x) = wrapLongitude x ∧
      circleDistance (wrapLongitude x).value x.value ≤ (|x.value| + 360) / 2 ^ 52) ∧
    (x.isFinite = false → wrapLongitude x = nan) := by
  refine ⟨fun h => ?_, wrapLongitude_of_not_isFinite⟩
  obtain ⟨n, hturns⟩ := near_wrapLongitude_turns h
  have heast := wrapLongitude_lt h
  have hwest : -180 ≤ wrapLongitude x := by
    rcases le_wrapLongitude x with hnan | hle
    · rw [hnan] at heast
      exact absurd heast (not_nan_lt _)
    · exact hle
  have hdistance := circleDistance_le (wrapLongitude x).value x.value (-n)
  have hclose : |(wrapLongitude x).value + 360 * (-n : ℤ) - x.value| ≤
      (|x.value| + 720) / 2 ^ 53 := by
    convert hturns.close using 2
    push_cast
    ring
  refine ⟨⟨hwest, heast⟩, fun hin => wrapLongitude_of_inRange hin.1 hin.2,
    wrapLongitude_of_inRange hwest heast, ?_⟩
  linarith [abs_nonneg x.value]

/-- The first double west of the antimeridian, whose remainder is rounded to a whole turn. -/
theorem wrapLongitude_turns_west :
    let x : Binary64 := .ofBits 0xc066800000000001
    x.isFinite = true ∧ ¬ -180 ≤ x ∧ wrapLongitude x = -180 ∧
      circleDistance (wrapLongitude x).value x.value ≤ (|x.value| + 360) / 2 ^ 52 ∧
      (-180 ≤ wrapLongitude x ∧ wrapLongitude x < 180) ∧ wrapLongitude (-180) = -180 ∧
      (Binary64.infinity true).isFinite = false ∧ wrapLongitude (.infinity true) = nan := by
  intro x
  have hx : x.isFinite = true ∧ ¬ -180 ≤ x ∧ wrapLongitude x = -180 := by decide +kernel
  obtain ⟨hrange, -, -, hdistance⟩ := (wrapLongitude_turns x).1 hx.1
  obtain ⟨-, hkept, -⟩ := (wrapLongitude_turns (-180)).1 near_halfTurn.neg.isFinite
  have hwest := hkept ⟨columns_at_antimeridian.2.2,
    near_halfTurn.neg.lt_of_add_lt near_halfTurn (by norm_num)⟩
  exact ⟨hx.1, hx.2.1, hx.2.2, hdistance, hrange, hwest, rfl,
    (wrapLongitude_turns (.infinity true)).2 rfl⟩

end OpenLocation
