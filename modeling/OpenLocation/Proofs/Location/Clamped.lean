import OpenLocation.Proofs.Location.Edge
import OpenLocation.Proofs.Location.Precision

/-!
# Latitudes with any number of digits

Below the pole a latitude is brought into range whatever the number of digits. At the pole and
beyond it half a cell is taken off after that, and the height of the cell decides. If half of it is
more than the way from pole to pole the latitude leaves the globe, and if it is small the difference
is rounded to the pole itself. On the scale of cuts into five both bounds are exact
(`MovesIntoRange`), and as long as the count of digits does not wrap they leave the numbers of
digits from 2 to 24 (`inRange_adjustLatitude_iff`).
-/

namespace OpenLocation

open Binary64

/-! ## Half a cell from the pole -/

theorem half_le_half {a b : Binary64} (h : a ≤ b) : a / 2 ≤ b / 2 := by
  show a / ofNat 2 ≤ b / ofNat 2
  rw [ofNat_eq (by decide)]
  exact div_le_div_right h (Nat.mul_pos two_pos unitsPerOne_pos)

/-- Half of a higher cell leads farther south. -/
theorem pole_sub_half_le {a b : Binary64} (h : a ≤ b) : 90 - b / 2 ≤ 90 - a / 2 :=
  sub_le_sub_left (half_le_half h) near_ninety.isFinite

/-- Half of a cell that is cut less often is more than the way from pole to pole. -/
def leastPolarCuts : Int := -9

/-- Half of a cell that is cut more often is lost when it is taken off the pole. -/
def mostPolarCuts : Int := 14

/-- What is computed of half a cell at the pole. -/
theorem halfCells_at_pole :
    90 - finePrecision mostPolarCuts / 2 < 90 ∧
      (90 : Binary64) ≤ 90 - finePrecision (mostPolarCuts + 1) / 2 ∧
      -90 ≤ 90 - finePrecision leastPolarCuts / 2 ∧
      90 - finePrecision (leastPolarCuts - 1) / 2 < -90 ∧
      -90 ≤ 90 - precision leastDigits / 2 ∧
      ∀ digitCount < leastDigits, 90 - precision digitCount / 2 < -90 := by
  decide +kernel

theorem pairDigits_lt_of_fineness {digitCount : Nat} (h : mostPolarCuts < fineness digitCount) :
    pairDigits < digitCount := by
  by_contra hcoarse
  obtain ⟨-, -, -, hhigh⟩ :=
    coarse_bounds digitCount (Nat.lt_succ_of_le (Nat.le_of_not_lt hcoarse))
  unfold mostPolarCuts at h
  omega

theorem polarCuts_bounds :
    -(infiniteFives : Int) ≤ leastPolarCuts ∧ leastPolarCuts - 1 ≤ infiniteFives ∧
      -(infiniteFives : Int) ≤ mostPolarCuts + 1 ∧ mostPolarCuts ≤ infiniteFives := by
  decide

/-- Half a cell leads below the pole exactly if it is large enough not to be lost. -/
theorem pole_sub_half_lt_iff (digitCount : Nat) :
    90 - precision digitCount / 2 < 90 ↔ fineness digitCount ≤ mostPolarCuts := by
  obtain ⟨hmoved, hlost, -⟩ := halfCells_at_pole
  obtain ⟨-, -, hlow, hhigh⟩ := polarCuts_bounds
  constructor
  · intro hlt
    by_contra hfine
    have hfine : mostPolarCuts < fineness digitCount := Int.not_le.1 hfine
    have hle := precision_le_finePrecision (pairDigits_lt_of_fineness hfine) hlow hfine
    exact Binary64.not_lt_of_le (Binary64.le_trans hlost (pole_sub_half_le hle)) hlt
  · intro hfew
    have hle := finePrecision_le_precision hfew hhigh
    exact Binary64.lt_of_le_of_lt (pole_sub_half_le hle) hmoved

/-- It stays on the globe exactly if there are two digits and the cell is not too large. -/
theorem south_le_pole_sub_half_iff (digitCount : Nat) :
    -90 ≤ 90 - precision digitCount / 2 ↔
      leastDigits ≤ digitCount ∧ leastPolarCuts ≤ fineness digitCount := by
  obtain ⟨-, -, hleast, hbeyond, hpair, hfew⟩ := halfCells_at_pole
  obtain ⟨hlow, hhigh, -⟩ := polarCuts_bounds
  constructor
  · intro hle
    refine ⟨le_of_not_gt fun hlt => Binary64.not_lt_of_le hle (hfew digitCount hlt), ?_⟩
    by_contra hlarge
    have hheight := finePrecision_le_precision (Int.le_sub_one_of_lt (Int.not_le.1 hlarge)) hhigh
    have hlt := Binary64.lt_of_le_of_lt (pole_sub_half_le hheight) hbeyond
    exact Binary64.not_lt_of_le hle hlt
  · rintro ⟨htwo, hcuts⟩
    rcases Nat.lt_or_ge pairDigits digitCount with hfine | hcoarse
    · have hheight := precision_le_finePrecision hfine hlow hcuts
      exact Binary64.le_trans hleast (pole_sub_half_le hheight)
    · have hheight := precision_le_precision htwo (hcoarse.trans_lt (by decide))
      exact Binary64.le_trans hpair (pole_sub_half_le hheight)

/-! ## Numbers of digits that lead into range -/

/-- Half a cell is neither lost at the pole nor more than the way to the other one. -/
def MovesIntoRange (digitCount : Nat) : Prop :=
  leastDigits ≤ digitCount ∧ leastPolarCuts ≤ fineness digitCount ∧
    fineness digitCount ≤ mostPolarCuts

instance (digitCount : Nat) : Decidable (MovesIntoRange digitCount) :=
  inferInstanceAs (Decidable (_ ∧ _))

theorem movesIntoRange_iff {digitCount : Nat} (h : digitCount < pairDigits + 2 ^ 31) :
    MovesIntoRange digitCount ↔ leastDigits ≤ digitCount ∧ digitCount ≤ 24 := by
  unfold MovesIntoRange leastPolarCuts mostPolarCuts
  rcases Nat.lt_or_ge pairDigits digitCount with hfine | hcoarse
  · rw [fineness_eq hfine h]
    unfold pairDigits infiniteFives at *
    omega
  · obtain ⟨-, -, hlow, hhigh⟩ := coarse_bounds digitCount (Nat.lt_succ_of_le hcoarse)
    unfold pairDigits at hcoarse
    omega

/--
A latitude other than NaN is brought into range exactly if it is below the north pole or half a
cell is moved into range, and is left alone if it is in range already. As long as the count of
digits after the tenth does not wrap the numbers of digits from 2 to 24 do so, and no others.
-/
theorem inRange_adjustLatitude_iff {x : Binary64} (h : x.isNaN = false) (digitCount : Nat) :
    ((-90 ≤ adjustLatitude x digitCount ∧ adjustLatitude x digitCount < 90) ↔
        x < 90 ∨ MovesIntoRange digitCount) ∧
      (-90 ≤ x → x < 90 → adjustLatitude x digitCount = x) ∧
      (digitCount < pairDigits + 2 ^ 31 →
        (MovesIntoRange digitCount ↔ leastDigits ≤ digitCount ∧ digitCount ≤ 24)) := by
  have hpole := Near.isNaN_eq_false near_ninety.isFinite
  refine ⟨?_, fun hsouth hnorth => ?_, movesIntoRange_iff⟩
  · by_cases hlt : x < 90
    · refine iff_of_true ?_ (Or.inl hlt)
      rw [adjustLatitude_of_lt hlt]
      split
      · exact ⟨Binary64.le_self (Near.isNaN_eq_false near_ninety.neg.isFinite), south_lt_north⟩
      · next hsouth =>
        exact ⟨Binary64.le_of_not_lt h (Near.isNaN_eq_false near_ninety.neg.isFinite) hsouth, hlt⟩
    · rw [adjustLatitude_of_le (Binary64.le_of_not_lt h hpole hlt), or_iff_right hlt,
        south_le_pole_sub_half_iff, pole_sub_half_lt_iff, and_assoc]
      rfl
  · rw [adjustLatitude_of_lt hnorth, if_neg (Binary64.not_lt_of_le hsouth)]

/-- The last number of digits that moves an infinite latitude, and the first one that does not. -/
theorem inRange_adjustLatitude_infinity :
    (infinity false).isNaN = false ∧
      (-90 ≤ adjustLatitude (infinity false) 24 ∧ adjustLatitude (infinity false) 24 < 90) ∧
      ¬ (-90 ≤ adjustLatitude (infinity false) 25 ∧ adjustLatitude (infinity false) 25 < 90) := by
  have hlast := inRange_adjustLatitude_iff (rfl : (infinity false).isNaN = false) 24
  have hlost := inRange_adjustLatitude_iff (rfl : (infinity false).isNaN = false) 25
  have hnot : ¬ (infinity false < 90 ∨ MovesIntoRange 25) := by decide +kernel
  exact ⟨rfl, hlast.1.2 (Or.inr (by decide)), fun hrange => hnot (hlost.1.1 hrange)⟩

/--
The pole stays the pole with 25 digits, and leaves the globe with none, or with a count that has
wrapped.
-/
theorem adjustLatitude_pole_not_inRange :
    (90 : Binary64).isNaN = false ∧ adjustLatitude 90 25 = 90 ∧ ¬ adjustLatitude 90 25 < 90 ∧
      ¬ -90 ≤ adjustLatitude 90 0 ∧ ¬ -90 ≤ adjustLatitude 90 2147483658 := by
  decide +kernel

end OpenLocation
