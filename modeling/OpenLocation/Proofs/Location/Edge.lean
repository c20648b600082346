import OpenLocation.Code.Located
import OpenLocation.Proofs.Binary64.Order
import OpenLocation.Proofs.Location.Range

/-!
# The edges of the globe

The row of a latitude is a product and a sum, each rounded, before it is cut to a whole
number, and so is the column of a longitude. Both keep the order of doubles, so the last
row and the last column are settled by a few numbers: the last two doubles below 90 and
the last one below 180 are rounded up to the edge itself, and nothing else is
(`rowAt_adjustLatitude_lt_iff`, `columnAt_wrapLongitude_lt_iff`).
-/

namespace OpenLocation

open Binary64

/-- The last two latitudes below the north pole. -/
def roundedToPole : List Binary64 := [.ofBits 0x40567ffffffffffe, .ofBits 0x40567fffffffffff]

/-- The last longitude below 180 degrees. -/
def roundedToAntimeridian : Binary64 := .ofBits 0x40667fffffffffff

namespace GridPoint

/-! ## Rows and columns keep the order -/

theorem truncate_le_truncate_of_le {origin perDegree : Nat} (horigin : origin ≤ 180)
    (hpos : 0 < perDegree) (hle : perDegree ≤ 2 ^ 40) {x y : Binary64} (h : x ≤ y) :
    (ofNat origin * ofNat perDegree + x * ofNat perDegree).truncate ≤
      (ofNat origin * ofNat perDegree + y * ofNat perDegree).truncate := by
  have hproduct : origin * perDegree ≤ 2 ^ 53 :=
    (Nat.mul_le_mul horigin hle).trans (by decide)
  have hunits : 0 < perDegree * unitsPerOne := Nat.mul_pos hpos unitsPerOne_pos
  rw [ofNat_mul (by omega) (by omega) hproduct, ofNat_eq (n := perDegree) (by omega)]
  exact truncate_le_truncate
    (add_le_add_left (mul_le_mul_right h hunits) (Near.ofNat hproduct).isFinite)

theorem rowAt_le_rowAt {x y : Binary64} (h : x ≤ y) : rowAt x ≤ rowAt y :=
  truncate_le_truncate_of_le (by decide) (by decide) (by decide) h

theorem columnAt_le_columnAt {x y : Binary64} (h : x ≤ y) : columnAt x ≤ columnAt y :=
  truncate_le_truncate_of_le (by decide) (by decide) (by decide) h

theorem truncate_add_nan (a b : Binary64) : (a + nan * b).truncate = 0 := by
  have hproduct : nan * b = nan := by
    show mul nan b = nan
    rw [mul]
  rw [hproduct, Binary64.add_comm]
  show (add nan a).truncate = 0
  rw [add, truncate]

theorem rowAt_nan : rowAt nan = 0 := truncate_add_nan ..

theorem columnAt_nan : columnAt nan = 0 := truncate_add_nan ..

end GridPoint

/-! ## Latitudes -/

theorem adjustLatitude_nan (digitCount : Nat) : adjustLatitude nan digitCount = nan := by
  have hclamp : nan.clamp (-90) 90 = nan := by
    rw [clamp, if_neg (not_nan_lt _), if_neg (not_lt_nan _)]
  rw [adjustLatitude, hclamp, if_neg (not_nan_lt _), nan_sub]

theorem south_lt_north : (-90 : Binary64) < 90 :=
  near_ninety.neg.lt_of_add_lt near_ninety (by norm_num)

/-- Below the pole the latitude does not depend on the number of digits. -/
theorem adjustLatitude_of_lt {x : Binary64} (h : x < 90) (digitCount : Nat) :
    adjustLatitude x digitCount = if x < -90 then -90 else x := by
  have hclamp : x.clamp (-90) 90 = if x < -90 then -90 else x := by
    rw [clamp, if_neg (Binary64.not_lt_of_le (Binary64.le_of_lt h))]
  have hbelow : x.clamp (-90) 90 < 90 := by
    rw [hclamp]
    split
    · exact south_lt_north
    · exact h
  rw [adjustLatitude, if_pos hbelow, hclamp]

/-- Where the pole is not reached the number of digits does not matter. -/
theorem adjustLatitude_eq_of_not_le {x : Binary64} (h : ¬ 90 ≤ x) (m n : Nat) :
    adjustLatitude x m = adjustLatitude x n := by
  cases hnan : x.isNaN with
  | true =>
    cases x <;> cases hnan
    rw [adjustLatitude_nan, adjustLatitude_nan]
  | false =>
    have hlt : x < 90 := by
      by_contra hnot
      exact h (Binary64.le_of_not_lt hnan (Near.isNaN_eq_false near_ninety.isFinite) hnot)
    rw [adjustLatitude_of_lt hlt, adjustLatitude_of_lt hlt]

/-- At the pole and beyond it the latitude is half a cell south of the pole. -/
theorem adjustLatitude_of_le {x : Binary64} (h : 90 ≤ x) (digitCount : Nat) :
    adjustLatitude x digitCount = 90 - precision digitCount / 2 := by
  have hsouth : ¬ x < -90 :=
    Binary64.not_lt_of_le (Binary64.le_trans (Binary64.le_of_lt south_lt_north) h)
  have hclamp : x.clamp (-90) 90 = 90 := by
    rw [clamp, if_neg hsouth]
    split
    · rfl
    · next hle =>
      have hzero : Near 0 0 0 := by exact_mod_cast Near.ofNat (Nat.zero_le (2 ^ 53))
      have hpos : 0 < x :=
        Binary64.lt_of_lt_of_le (hzero.lt_of_add_lt near_ninety (by norm_num)) h
      by_contra hne
      exact hle (Binary64.lt_of_le_of_ne h hpos (Ne.symm hne))
  have hpole : ¬ (90 : Binary64) < 90 := near_ninety.not_lt_of_add_le near_ninety (by norm_num)
  rw [adjustLatitude, hclamp, if_neg hpole]

/--
What is computed of the last doubles below the pole. Half a cell south of it they are left
out, whatever the number of digits.
-/
theorem doubles_at_pole :
    (90 : Binary64) = .ofBits (0x40567fffffffffff + 1) ∧
      (∀ x ∈ roundedToPole, x < 90 ∧ ¬ x < -90 ∧
        GridPoint.rowAt x = (180 * GridPoint.rowsPerDegree : Nat)) ∧
      GridPoint.rowAt (.ofBits 0x40567ffffffffffd) < (180 * GridPoint.rowsPerDegree : Nat) ∧
      (-90 ≤ Binary64.ofBits 0x40567ffffffffffd ∧ Binary64.ofBits 0x40567ffffffffffd < 90) ∧
      ∀ digitCount < mostDigits + 1,
        90 - precision digitCount / 2 ≤ .ofBits 0x40567ffffffffffd := by
  decide +kernel

/-- What is left below the pole without the last two doubles. -/
theorem le_of_not_roundedToPole {x : Binary64} (h : x < 90) (hx : x ∉ roundedToPole) :
    x ≤ .ofBits 0x40567ffffffffffd := by
  simp only [roundedToPole, List.mem_cons, List.not_mem_nil, or_false, not_or] at hx
  have hlast := le_ofBits_of_lt (by decide) (by decide) (by decide) (doubles_at_pole.1 ▸ h)
  have hlast := @le_ofBits_of_ne _ 0x40567ffffffffffe (by decide) (by decide) (by decide)
    hlast hx.2
  exact @le_ofBits_of_ne _ 0x40567ffffffffffd (by decide) (by decide) (by decide) hlast hx.1

theorem adjustLatitude_le {x : Binary64} (hx : x ∉ roundedToPole) (hnan : x.isNaN = false)
    {digitCount : Nat} (h : digitCount ≤ mostDigits) :
    adjustLatitude x digitCount ≤ .ofBits 0x40567ffffffffffd := by
  obtain ⟨-, -, -, ⟨hsouth, -⟩, hpole⟩ := doubles_at_pole
  by_cases hlt : x < 90
  · rw [adjustLatitude_of_lt hlt]
    split
    · exact hsouth
    · exact le_of_not_roundedToPole hlt hx
  · rw [adjustLatitude_of_le
      (Binary64.le_of_not_lt hnan (Near.isNaN_eq_false near_ninety.isFinite) hlt)]
    exact hpole _ (Nat.lt_succ_of_le h)

/-- The last two latitudes below the pole lie on the row beyond the last one. -/
theorem rowAt_of_roundedToPole {x : Binary64} (hx : x ∈ roundedToPole) (digitCount : Nat) :
    GridPoint.rowAt (adjustLatitude x digitCount) = (180 * GridPoint.rowsPerDegree : Nat) := by
  obtain ⟨hpole, hnot, hrow⟩ := doubles_at_pole.2.1 x hx
  rw [adjustLatitude_of_lt hpole, if_neg hnot, hrow]

/-- All other latitudes lie on a row of the globe. -/
theorem rowAt_adjustLatitude_lt_iff {digitCount : Nat} (h : digitCount ≤ mostDigits)
    (x : Binary64) :
    GridPoint.rowAt (adjustLatitude x digitCount) < (180 * GridPoint.rowsPerDegree : Nat) ↔
      x ∉ roundedToPole := by
  constructor
  · intro hlt hx
    rw [rowAt_of_roundedToPole hx] at hlt
    exact lt_irrefl _ hlt
  · intro hx
    cases hnan : x.isNaN with
    | true =>
      cases x <;> cases hnan
      rw [adjustLatitude_nan, GridPoint.rowAt_nan]
      decide
    | false =>
      exact lt_of_le_of_lt (GridPoint.rowAt_le_rowAt (adjustLatitude_le hx hnan h))
        doubles_at_pole.2.2.1

theorem rowAt_adjustLatitude_le {digitCount : Nat} (h : digitCount ≤ mostDigits) (x : Binary64) :
    GridPoint.rowAt (adjustLatitude x digitCount) ≤ (180 * GridPoint.rowsPerDegree : Nat) := by
  by_cases hx : x ∈ roundedToPole
  · exact (rowAt_of_roundedToPole hx digitCount).le
  · exact ((rowAt_adjustLatitude_lt_iff h x).2 hx).le

/-- No latitude is brought to one of the last two below the pole, they themselves apart. -/
theorem adjustLatitude_not_mem {x : Binary64} (hx : x ∉ roundedToPole) {digitCount : Nat}
    (h : digitCount ≤ mostDigits) : adjustLatitude x digitCount ∉ roundedToPole := by
  intro hmem
  have hrow := (doubles_at_pole.2.1 _ hmem).2.2
  have hlt := (rowAt_adjustLatitude_lt_iff h x).2 hx
  rw [hrow] at hlt
  exact lt_irrefl _ hlt

/-- What is computed at the south pole, and south of the north pole by half a cell. -/
theorem rows_at_poles :
    GridPoint.rowAt (-90) = 0 ∧ ∀ digitCount < mostDigits + 1, leastDigits ≤ digitCount →
      0 ≤ GridPoint.rowAt (90 - precision digitCount / 2) := by
  decide +kernel

/-- No latitude lies on a row before the first, with two digits or more. -/
theorem rowAt_adjustLatitude_nonneg {digitCount : Nat} (hleast : leastDigits ≤ digitCount)
    (h : digitCount ≤ mostDigits) (x : Binary64) :
    0 ≤ GridPoint.rowAt (adjustLatitude x digitCount) := by
  obtain ⟨hsouth, hnorth⟩ := rows_at_poles
  cases hnan : x.isNaN with
  | true =>
    cases x <;> cases hnan
    rw [adjustLatitude_nan, GridPoint.rowAt_nan]
  | false =>
    by_cases hlt : x < 90
    · rw [adjustLatitude_of_lt hlt]
      split
      · exact hsouth.ge
      · next hle =>
        have hpole := Near.isNaN_eq_false near_ninety.neg.isFinite
        rw [← hsouth]
        exact GridPoint.rowAt_le_rowAt (Binary64.le_of_not_lt hnan hpole hle)
    · rw [adjustLatitude_of_le
        (Binary64.le_of_not_lt hnan (Near.isNaN_eq_false near_ninety.isFinite) hlt)]
      exact hnorth _ (Nat.lt_succ_of_le h) hleast

/-! ## Longitudes -/

theorem wrapLongitude_of_not_isFinite {x : Binary64} (h : x.isFinite = false) :
    wrapLongitude x = nan := by
  rw [wrapLongitude, h]
  rfl

theorem euclideanRem_of_not_isFinite {x : Binary64} (h : x.isFinite = false) (y : Binary64) :
    x.euclideanRem y = nan := by
  have hmod : x % y = nan := by
    show rem x y = nan
    rcases x with _ | _ | _
    · rfl
    · cases y <;> rfl
    · cases h
  rw [euclideanRem, hmod, if_neg (not_nan_lt _)]

/--
What is computed of the last doubles below half a turn. A whole turn goes back to the
antimeridian, and the number before it to the last but one below half a turn.
-/
theorem doubles_at_antimeridian :
    (180 : Binary64) = .ofBits (0x40667fffffffffff + 1) ∧
      (360 : Binary64) = .ofBits (0x40767fffffffffff + 1) ∧
      (360 : Binary64).abs = 360 ∧ (0 : Binary64) + 360 = 360 ∧ (180 : Binary64) ≤ 360 - 180 ∧
      Binary64.ofBits 0x40767fffffffffff - 180 ≤ .ofBits 0x40667ffffffffffe ∧
      -180 ≤ Binary64.ofBits 0x40667ffffffffffe ∧
      (-180 ≤ roundedToAntimeridian ∧ roundedToAntimeridian < 180) ∧
      GridPoint.columnAt roundedToAntimeridian = (360 * GridPoint.columnsPerDegree : Nat) ∧
      GridPoint.columnAt (.ofBits 0x40667ffffffffffe) <
        (360 * GridPoint.columnsPerDegree : Nat) := by
  decide +kernel

/-- The remainder of a division by a whole turn is at most a whole turn. -/
theorem euclideanRem_turn_le {x : Binary64} (h : x.isFinite = true) : x.euclideanRem 360 ≤ 360 := by
  obtain ⟨-, -, habs, hsum, -⟩ := doubles_at_antimeridian
  unfold euclideanRem
  split
  · next hneg =>
    have hle := add_le_add_right (Binary64.le_of_lt hneg) near_turn.isFinite
    rw [hsum] at hle
    rw [habs]
    exact hle
  · obtain ⟨k, hmod, hlt, -⟩ := Near.exists_mod h near_turn (by norm_num)
    rw [le_iff hmod.isFinite near_turn.isFinite, hmod.value_eq, near_turn.value_eq]
    exact (abs_lt.1 hlt).2.le

/-- It is not negative. -/
theorem zero_le_euclideanRem_turn {x : Binary64} (h : x.isFinite = true) :
    0 ≤ x.euclideanRem 360 := by
  have hzero : (0 : Binary64) ≤ -360 + (360 : Binary64).abs := by decide +kernel
  have hturn : (360 : Binary64).abs.isFinite = true := by decide +kernel
  obtain ⟨k, hmod, hlt, -⟩ := Near.exists_mod h near_turn (by norm_num)
  unfold euclideanRem
  split
  · next hneg =>
    have hle : -360 ≤ x % 360 := by
      rw [le_iff near_turn.neg.isFinite hmod.isFinite, hmod.value_eq, near_turn.neg.value_eq]
      exact (abs_lt.1 hlt).1.le
    exact Binary64.le_trans hzero (add_le_add_right hle hturn)
  · next hnot =>
    exact Binary64.le_of_not_lt (Near.isNaN_eq_false hmod.isFinite) (isNaN_of_rank rank_zero) hnot

/-- A remainder that is not taken back to half a turn is at most the last but one below it. -/
theorem sub_halfTurn_le {rest : Binary64} (hle : rest ≤ 360) (hbelow : ¬ 180 ≤ rest - 180) :
    rest - 180 ≤ .ofBits 0x40667ffffffffffe := by
  obtain ⟨-, hturn, -, -, hback, hlast, -⟩ := doubles_at_antimeridian
  have hne : rest ≠ 360 := by
    intro heq
    rw [heq] at hbelow
    exact hbelow hback
  have hrest := le_ofBits_of_ne (by decide) (by decide) (by decide) (hturn ▸ hle) (hturn ▸ hne)
  exact Binary64.le_trans (sub_le_sub_right hrest near_halfTurn.isFinite) hlast

/-- The last longitude below 180 degrees is none that another one is wrapped to. -/
theorem wrapLongitude_cases {x : Binary64} (hx : x ≠ roundedToAntimeridian) :
    wrapLongitude x = nan ∨ wrapLongitude x ≤ .ofBits 0x40667ffffffffffe := by
  obtain ⟨hhalf, -, -, -, -, -, hwest, -⟩ := doubles_at_antimeridian
  cases hfinite : x.isFinite with
  | false => exact Or.inl (wrapLongitude_of_not_isFinite hfinite)
  | true =>
    by_cases hin : -180 ≤ x ∧ x < 180
    · rw [wrapLongitude_of_inRange hin.1 hin.2]
      have hlast := le_ofBits_of_lt (by decide) (by decide) (by decide) (hhalf ▸ hin.2)
      exact Or.inr (@le_ofBits_of_ne _ 0x40667ffffffffffe (by decide) (by decide)
        (by decide) hlast hx)
    · rw [wrapLongitude, hfinite, if_neg (by simp), if_neg hin]
      cases hsum : (x + 180).isFinite with
      | false =>
        left
        rw [euclideanRem_of_not_isFinite hsum, nan_sub]
        exact if_neg (not_le_nan _)
      | true =>
        right
        have hle := euclideanRem_turn_le hsum
        generalize (x + 180).euclideanRem 360 = rest at hle ⊢
        dsimp only
        split
        · exact hwest
        · next hbelow => exact sub_halfTurn_le hle hbelow

/-- The last longitude below 180 degrees lies on the column beyond the last one. -/
theorem columnAt_roundedToAntimeridian :
    GridPoint.columnAt (wrapLongitude roundedToAntimeridian) =
      (360 * GridPoint.columnsPerDegree : Nat) := by
  obtain ⟨-, -, -, -, -, -, -, ⟨hwest, heast⟩, hcolumn, -⟩ := doubles_at_antimeridian
  rw [wrapLongitude_of_inRange hwest heast, hcolumn]

/-- All other longitudes lie on a column of the globe. -/
theorem columnAt_wrapLongitude_lt_iff (x : Binary64) :
    GridPoint.columnAt (wrapLongitude x) < (360 * GridPoint.columnsPerDegree : Nat) ↔
      x ≠ roundedToAntimeridian := by
  constructor
  · intro hlt hx
    rw [hx, columnAt_roundedToAntimeridian] at hlt
    exact lt_irrefl _ hlt
  · intro hx
    obtain ⟨-, -, -, -, -, -, -, -, -, hlast⟩ := doubles_at_antimeridian
    rcases wrapLongitude_cases hx with hnan | hle
    · rw [hnan, GridPoint.columnAt_nan]
      decide
    · exact lt_of_le_of_lt (GridPoint.columnAt_le_columnAt hle) hlast

theorem columns_at_antimeridian :
    GridPoint.columnAt (-180) = 0 ∧ (-180 : Binary64) ≤ 0 - 180 ∧ (-180 : Binary64) ≤ -180 := by
  decide +kernel

/-- A longitude is wrapped to one from the antimeridian on, if it is finite. -/
theorem le_wrapLongitude (x : Binary64) : wrapLongitude x = nan ∨ -180 ≤ wrapLongitude x := by
  obtain ⟨-, hfirst, hwest⟩ := columns_at_antimeridian
  cases hfinite : x.isFinite with
  | false => exact Or.inl (wrapLongitude_of_not_isFinite hfinite)
  | true =>
    by_cases hin : -180 ≤ x ∧ x < 180
    · rw [wrapLongitude_of_inRange hin.1 hin.2]
      exact Or.inr hin.1
    · rw [wrapLongitude, hfinite, if_neg (by simp), if_neg hin]
      cases hsum : (x + 180).isFinite with
      | false =>
        left
        rw [euclideanRem_of_not_isFinite hsum, nan_sub]
        exact if_neg (not_le_nan _)
      | true =>
        right
        have hle := sub_le_sub_right (zero_le_euclideanRem_turn hsum) near_halfTurn.isFinite
        generalize (x + 180).euclideanRem 360 = rest at hle ⊢
        dsimp only
        split
        · exact hwest
        · exact Binary64.le_trans hfirst hle

/-- No longitude lies on a column before the first. -/
theorem columnAt_wrapLongitude_nonneg (x : Binary64) :
    0 ≤ GridPoint.columnAt (wrapLongitude x) := by
  obtain ⟨hwest, -⟩ := columns_at_antimeridian
  rcases le_wrapLongitude x with hnan | hle
  · rw [hnan, GridPoint.columnAt_nan]
  · rw [← hwest]
    exact GridPoint.columnAt_le_columnAt hle

/-- No longitude is wrapped to the last one below 180 degrees, it itself apart. -/
theorem wrapLongitude_ne {x : Binary64} (hx : x ≠ roundedToAntimeridian) :
    wrapLongitude x ≠ roundedToAntimeridian := by
  obtain ⟨-, -, -, -, -, -, -, -, hcolumn, -⟩ := doubles_at_antimeridian
  intro heq
  have hlt := (columnAt_wrapLongitude_lt_iff x).2 hx
  rw [heq, hcolumn] at hlt
  exact lt_irrefl _ hlt

theorem columnAt_wrapLongitude_le (x : Binary64) :
    GridPoint.columnAt (wrapLongitude x) ≤ (360 * GridPoint.columnsPerDegree : Nat) := by
  by_cases hx : x = roundedToAntimeridian
  · rw [hx]
    exact columnAt_roundedToAntimeridian.le
  · exact ((columnAt_wrapLongitude_lt_iff x).2 hx).le

end OpenLocation
