import OpenLocation.Proofs.Code.Completion
import OpenLocation.Proofs.Code.Fullness

/-!
# The nearest code

The completion whose first digits are those of the reference lies less than one of the
missing cells away from it, and all others lie whole cells away from that one. `approach`
takes the step toward the reference where it is more than half a cell off, and no number of
steps leads nearer (`approach_nearest`). A step that is refused at a pole leads to no code.
So what is recovered is a completion and no other one is nearer to the reference, neither in
latitude nor around the circle (`isNearest_nearest`). A full code less than half a cell
from the reference is therefore the one that is recovered (`nearest_dropLead`).
-/

namespace OpenLocation.Code

open Binary64

/-! ## The step toward the reference -/

/-- One cell down from the center and one cell up. -/
theorem near_steps {center cell : Binary64} {z p : ℚ} (hcenter : Near center z (1 / 10 ^ 12))
    (hcell : Near cell p (1 / 2 ^ 52)) (hz : |z| ≤ 180) (hp : |p| ≤ 20) :
    Near (center - cell) (z - p) (2 / 10 ^ 12) ∧ Near (center + cell) (z + p) (2 / 10 ^ 12) := by
  rw [abs_le] at hz hp
  have hdown := hcenter.sub hcell (A := 201)
    (abs_add_le_of_bounds (by linarith) (by linarith)) (by norm_num)
  have hup := hcenter.add hcell (A := 201)
    (abs_add_le_of_bounds (by linarith) (by linarith)) (by norm_num)
  exact ⟨hdown.weaken (by norm_num), hup.weaken (by norm_num)⟩

/-- Wherever the reference is, `approach` goes at most one cell, and only where it may. -/
theorem exists_step {center cell : Binary64} {z p : ℚ} (hcenter : Near center z (1 / 10 ^ 12))
    (hcell : Near cell p (1 / 2 ^ 52)) (hz : |z| ≤ 180) (hp : |p| ≤ 20) (reference : Binary64)
    (mayLower mayRaise : Bool) :
    ∃ m : ℤ, (m = 0 ∨ m = -1 ∧ mayLower = true ∨ m = 1 ∧ mayRaise = true) ∧
      Near (approach center reference cell mayLower mayRaise) (z + m * p) (2 / 10 ^ 12) := by
  obtain ⟨hdown, hup⟩ := near_steps hcenter hcell hz hp
  unfold approach
  split
  · next hlower =>
    refine ⟨-1, Or.inr (Or.inl ⟨rfl, hlower.2⟩), ?_⟩
    rwa [Int.cast_neg, Int.cast_one, neg_one_mul, ← sub_eq_add_neg]
  · split
    · next hraise =>
      refine ⟨1, Or.inr (Or.inr ⟨rfl, hraise.2⟩), ?_⟩
      rwa [Int.cast_one, one_mul]
    · refine ⟨0, Or.inl rfl, ?_⟩
      rw [Int.cast_zero, zero_mul, add_zero]
      exact hcenter.weaken (by norm_num)

theorem approach_cases {center reference cell : Binary64} {z y p : ℚ}
    (hcenter : Near center z (1 / 10 ^ 12)) (hreference : Near reference y 0)
    (hcell : Near cell p (1 / 2 ^ 52)) (hz : |z| ≤ 180) (hy : |y| ≤ 180) (hp : |p| ≤ 20)
    (mayLower mayRaise : Bool) :
    let moved := approach center reference cell mayLower mayRaise
    y + p / 2 < z + 2 / 10 ^ 12 ∧ mayLower = true ∧ Near moved (z - p) (2 / 10 ^ 12) ∨
      z < y - p / 2 + 2 / 10 ^ 12 ∧ mayRaise = true ∧ Near moved (z + p) (2 / 10 ^ 12) ∨
      (z ≤ y + p / 2 + 2 / 10 ^ 12 ∨ mayLower = false) ∧
        (y - p / 2 ≤ z + 2 / 10 ^ 12 ∨ mayRaise = false) ∧ Near moved z (2 / 10 ^ 12) := by
  intro moved
  obtain ⟨hdown, hup⟩ := near_steps hcenter hcell hz hp
  have hhalf := hcell.div near_two two_pos (A := 11) (by linarith) (by norm_num) (by norm_num)
  rw [abs_le] at hz hy hp
  have hupper := hreference.add hhalf (A := 200)
    (abs_add_le_of_bounds (by linarith) (by linarith)) (by norm_num)
  have hlower := hreference.sub hhalf (A := 200)
    (abs_add_le_of_bounds (by linarith) (by linarith)) (by norm_num)
  simp only [moved, approach]
  split
  · next h =>
    have := hupper.sub_lt_add hcenter h.1
    exact Or.inl ⟨by linarith, h.2, hdown⟩
  · next hnot =>
    right
    split
    · next h =>
      have := hcenter.sub_lt_add hlower h.1
      exact Or.inl ⟨by linarith, h.2, hup⟩
    · next hnot' =>
      right
      refine ⟨?_, ?_, hcenter.weaken (by norm_num)⟩
      · rw [not_and_or, Bool.not_eq_true] at hnot
        refine hnot.imp_left fun h => ?_
        have := hupper.sub_le_add hcenter h
        linarith
      · rw [not_and_or, Bool.not_eq_true] at hnot'
        refine hnot'.imp_left fun h => ?_
        have := hcenter.sub_le_add hlower h
        linarith

/--
Whole cells away from a place that is at most half a cell beyond the reference no place is
nearer to the reference.
-/
theorem abs_sub_le_of_half {w y p e : ℚ} {k : ℤ} (hp : 0 ≤ p) (he : 0 ≤ e)
    (hlow : k < 0 → w ≤ y + p / 2 + e) (hhigh : 0 < k → y - p / 2 ≤ w + e) :
    |w - y| ≤ |w + k * p - y| + 2 * e := by
  have habove := le_abs_self (w + k * p - y)
  have hbelow := neg_abs_le (w + k * p - y)
  rcases lt_trichotomy k 0 with hk | rfl | hk
  · have hcells : (k : ℚ) * p ≤ -1 * p :=
      mul_le_mul_of_nonneg_right (by exact_mod_cast Int.le_sub_one_of_lt hk) hp
    have := hlow hk
    exact abs_le.2 ⟨by linarith, by linarith⟩
  · simp only [Int.cast_zero, zero_mul, add_zero]
    linarith
  · have hcells : 1 * p ≤ (k : ℚ) * p :=
      mul_le_mul_of_nonneg_right (by exact_mod_cast hk) hp
    have := hhigh hk
    exact abs_le.2 ⟨by linarith, by linarith⟩

/--
Less than a cell away from the reference, `approach` goes to the nearest of the places that
are whole cells away and may be gone to.
-/
theorem approach_nearest {center reference cell : Binary64} {z y p : ℚ}
    (hcenter : Near center z (1 / 10 ^ 12)) (hreference : Near reference y 0)
    (hcell : Near cell p (1 / 2 ^ 52)) (hz : |z| ≤ 180) (hy : |y| ≤ 180) (hp : 0 < p)
    (hp' : p ≤ 20) (hclose : |z - y| < p) (mayLower mayRaise : Bool) :
    ∃ m : ℤ, (m = 0 ∨ m = -1 ∧ mayLower = true ∨ m = 1 ∧ mayRaise = true) ∧
      Near (approach center reference cell mayLower mayRaise) (z + m * p) (2 / 10 ^ 12) ∧
      ∀ k : ℤ, (k < 0 → mayLower = true) → (0 < k → mayRaise = true) →
        |z + m * p - y| ≤ |z + k * p - y| + 4 / 10 ^ 12 := by
  have hnearest (m k : ℤ) (hlow : k < m → z + m * p ≤ y + p / 2 + 2 / 10 ^ 12)
      (hhigh : m < k → y - p / 2 ≤ z + m * p + 2 / 10 ^ 12) :
      |z + m * p - y| ≤ |z + k * p - y| + 4 / 10 ^ 12 := by
    have h := @abs_sub_le_of_half (z + m * p) y p (2 / 10 ^ 12) (k - m) hp.le (by norm_num)
      (fun hk => hlow (by omega)) (fun hk => hhigh (by omega))
    rw [show z + m * p + (k - m : ℤ) * p - y = z + k * p - y by push_cast; ring] at h
    linarith
  obtain ⟨hbelow, habove⟩ := abs_lt.1 hclose
  rcases approach_cases hcenter hreference hcell hz hy (by rwa [abs_of_pos hp]) mayLower
    mayRaise with ⟨hlt, hlower, hmoved⟩ | ⟨hlt, hraise, hmoved⟩ | ⟨hlower, hraise, hmoved⟩
  · refine ⟨-1, Or.inr (Or.inl ⟨rfl, hlower⟩), ?_, fun k _ _ => hnearest (-1) k ?_ ?_⟩
    · rwa [Int.cast_neg, Int.cast_one, neg_one_mul, ← sub_eq_add_neg]
    · intro _; push_cast; linarith
    · intro _; push_cast; linarith
  · refine ⟨1, Or.inr (Or.inr ⟨rfl, hraise⟩), ?_, fun k _ _ => hnearest 1 k ?_ ?_⟩
    · rwa [Int.cast_one, one_mul]
    · intro _; push_cast; linarith
    · intro _; push_cast; linarith
  · refine ⟨0, Or.inl rfl, ?_, fun k hk hk' => hnearest 0 k ?_ ?_⟩
    · rwa [Int.cast_zero, zero_mul, add_zero]
    · intro hneg
      rw [hk hneg] at hlower
      rcases hlower with h | h
      · push_cast; linarith
      · cases h
    · intro hpos
      rw [hk' hpos] at hraise
      rcases hraise with h | h
      · push_cast; linarith
      · cases h

/-! ## One axis -/

/--
Less than half a step inside a section, a place in the section around the step of another
place is less than one section away from that one.
-/
theorem abs_candidate_sub_lt {perDegree origin length index : Nat} {offset y : ℚ}
    (hp : 8000 ≤ perDegree) (hlength : 0 < length) (hlow : -(origin : ℚ) + 1 / 10 ^ 8 ≤ offset)
    (hhigh : offset ≤ -(origin : ℚ) + (length : ℚ) / perDegree - 1 / 10 ^ 8)
    (h : FallsOn perDegree origin index y (1 / 10 ^ 5)) :
    |offset + (index / length : Nat) * ((length : ℚ) / perDegree) - y| <
      (length : ℚ) / perDegree := by
  obtain ⟨hle, hlt⟩ := h
  have hp' : (8000 : ℚ) ≤ perDegree := by exact_mod_cast hp
  have hpos : (0 : ℚ) < perDegree := by linarith
  have hsection : ((index / length : Nat) : ℚ) * length ≤ index := by
    exact_mod_cast Nat.div_mul_le_self index length
  have hnext : (index : ℚ) + 1 ≤ ((index / length : Nat) : ℚ) * length + length := by
    exact_mod_cast Nat.lt_div_mul_add hlength (a := index)
  generalize ((index / length : Nat) : ℚ) = cells at *
  -- All bounds in steps, where the tolerance is small beside a step.
  have hsteps : offset + cells * ((length : ℚ) / perDegree) - y =
      ((offset + origin) * perDegree + cells * length - (y + origin) * perDegree) / perDegree := by
    field_simp
    ring
  have hsouth : 1 / 10 ^ 8 * perDegree ≤ (offset + origin) * perDegree :=
    mul_le_mul_of_nonneg_right (by linarith) hpos.le
  have hnorth : (offset + origin) * perDegree ≤ length - 1 / 10 ^ 8 * perDegree := by
    have := mul_le_mul_of_nonneg_right
      (by linarith : offset + origin ≤ (length : ℚ) / perDegree - 1 / 10 ^ 8) hpos.le
    rwa [sub_mul, div_mul_cancel₀ _ hpos.ne'] at this
  rw [hsteps, abs_div, abs_of_pos hpos, div_lt_div_iff_of_pos_right hpos, abs_lt]
  constructor <;> linarith

section Axis

variable {count : Nat} {center reference : Binary64} {offset place : ℚ} {i : Nat}

/-- A step beyond the first or the last row would cross a pole, so none leads there. -/
theorem row_of_step (hcount : LeadCount count) (hlow : -90 + 1 / 10 ^ 8 ≤ offset)
    (hhigh : offset ≤ -90 + cellDegrees count - 1 / 10 ^ 8) (hi : i < rowsOf count)
    (hcenter : Near center (offset + i * cellDegrees count) (1 / 10 ^ 12))
    (hz : |offset + i * cellDegrees count| ≤ 180) {m : ℤ}
    (hm : m = 0 ∨ m = -1 ∧ decide (-90 < center - precision count) = true ∨
      m = 1 ∧ decide (center + precision count < 90) = true) :
    ∃ j < rowsOf count, offset + j * cellDegrees count =
      offset + i * cellDegrees count + m * cellDegrees count := by
  obtain ⟨hp, hp'⟩ := hcount.cellDegrees_bounds
  have hrows := hcount.rowsOf_mul
  obtain ⟨hdown, hup⟩ := near_steps hcenter hcount.near_precision hz
    (by rw [abs_of_pos (by linarith)]; exact hp')
  have hrange : 0 ≤ (i : ℤ) + m ∧ (i : ℤ) + m < rowsOf count := by
    rcases hm with rfl | ⟨rfl, hlower⟩ | ⟨rfl, hraise⟩
    · omega
    · have hsouth := near_ninety.neg.sub_lt_add hdown (of_decide_eq_true hlower)
      have : i ≠ 0 := by
        rintro rfl
        rw [Nat.cast_zero, zero_mul] at hsouth
        linarith
      omega
    · have hnorth := hup.sub_lt_add near_ninety (of_decide_eq_true hraise)
      have : i + 1 ≠ rowsOf count := by
        intro heq
        rw [← heq] at hrows
        push_cast at hrows
        linarith
      omega
  obtain ⟨j, hj⟩ := Int.eq_ofNat_of_zero_le hrange.1
  have hsum : (i : ℚ) + m = j := by exact_mod_cast congrArg (Int.cast (R := ℚ)) hj
  exact ⟨j, by omega, by rw [← hsum]; ring⟩

/-- A column beyond the antimeridian is one on the other side of it, some turns away. -/
theorem column_of_step (hcount : LeadCount count) (hi : i < columnsOf count) (offset : ℚ) (m : ℤ) :
    ∃ j < columnsOf count, ∃ n : ℤ, offset + j * cellDegrees count + 360 * n =
      offset + i * cellDegrees count + m * cellDegrees count := by
  have hturn := hcount.columnsOf_mul
  have hpositive : (0 : ℤ) < columnsOf count := by omega
  obtain ⟨j, hj⟩ := Int.eq_ofNat_of_zero_le (Int.emod_nonneg (i + m) hpositive.ne')
  have hlt := Int.emod_lt_of_pos (i + m) hpositive
  have hcolumn : (j : ℚ) + columnsOf count * (((i : ℤ) + m) / columnsOf count : ℤ) = i + m := by
    have := Int.emod_add_mul_ediv (i + m) (columnsOf count)
    rw [hj] at this
    exact_mod_cast this
  refine ⟨j, by omega, (i + m) / columnsOf count, ?_⟩
  rw [← hturn]
  linear_combination cellDegrees count * hcolumn

/-- Latitude goes to the row of cells that is nearest to the reference. -/
theorem exists_row (hcount : LeadCount count) (hlow : -90 + 1 / 10 ^ 8 ≤ offset)
    (hhigh : offset ≤ -90 + cellDegrees count - 1 / 10 ^ 8) (hi : i < rowsOf count)
    (hcenter : Near center (offset + i * cellDegrees count) (1 / 10 ^ 12))
    (hreference : Near reference place 0) (hplace : |place| ≤ 180)
    (hclose : |offset + i * cellDegrees count - place| < cellDegrees count) :
    ∃ j < rowsOf count,
      Near (approach center reference (precision count) (-90 < center - precision count)
          (center + precision count < 90)) (offset + j * cellDegrees count) (2 / 10 ^ 12) ∧
      ∀ k < rowsOf count, |offset + j * cellDegrees count - place| ≤
        |offset + k * cellDegrees count - place| + 4 / 10 ^ 12 := by
  obtain ⟨hp, hp'⟩ := hcount.cellDegrees_bounds
  have hrows := hcount.rowsOf_mul
  generalize hP : cellDegrees count = p at *
  have hcells {a b : Nat} (h : a + 1 ≤ b) : (a : ℚ) * p + p ≤ b * p := by
    have : (a : ℚ) + 1 ≤ b := by exact_mod_cast h
    have := mul_le_mul_of_nonneg_right this (by linarith : 0 ≤ p)
    linarith
  have hnonneg : 0 ≤ (i : ℚ) * p := mul_nonneg (Nat.cast_nonneg _) (by linarith)
  have hlast := hcells hi
  have hz : |offset + i * p| ≤ 180 := abs_le.2 ⟨by linarith, by linarith⟩
  obtain ⟨hdown, hup⟩ := near_steps hcenter (hP ▸ hcount.near_precision) hz
    (by rw [abs_of_pos (by linarith)]; exact hp')
  obtain ⟨m, hm, hmoved, hnearest⟩ := approach_nearest hcenter hreference
    (hP ▸ hcount.near_precision) hz hplace (by linarith) hp' hclose
    (-90 < center - precision count) (center + precision count < 90)
  obtain ⟨j, hj, hmoves⟩ := row_of_step hcount hlow (hP ▸ hhigh) hi (hP ▸ hcenter) (hP ▸ hz) hm
  rw [hP] at hmoves
  have hplaces (k : Nat) :
      offset + k * p = offset + i * p + ((k : ℤ) - i : ℤ) * p := by push_cast; ring
  refine ⟨j, hj, ?_, fun k hk => ?_⟩
  · rw [hmoves]
    exact hmoved
  · rw [hmoves, hplaces k]
    refine hnearest _ (fun hneg => ?_) (fun hpos => ?_)
    · have := hcells (by omega : 0 + 1 ≤ i)
      rw [Nat.cast_zero, zero_mul] at this
      exact decide_eq_true (near_ninety.neg.lt_of_add_lt hdown (by linarith))
    · have := hcells (by omega : i + 1 + 1 ≤ rowsOf count)
      push_cast at this
      exact decide_eq_true (hup.lt_of_add_lt near_ninety (by linarith))

/-- Longitude goes to the column of cells that is nearest to the reference around the circle. -/
theorem exists_column (hcount : LeadCount count) (hlow : -180 + 1 / 10 ^ 8 ≤ offset)
    (hhigh : offset ≤ -180 + cellDegrees count - 1 / 10 ^ 8) (hi : i < columnsOf count)
    (hcenter : Near center (offset + i * cellDegrees count) (1 / 10 ^ 12))
    (hreference : Near reference place 0) (hplace : |place| ≤ 180)
    (hclose : |offset + i * cellDegrees count - place| < cellDegrees count) :
    ∃ j < columnsOf count, ∃ n : ℤ,
      Near (approach center reference (precision count) true true)
        (offset + j * cellDegrees count + 360 * n) (2 / 10 ^ 12) ∧
      ∀ k < columnsOf count, ∀ t : ℤ, |offset + j * cellDegrees count + 360 * n - place| ≤
        |offset + k * cellDegrees count + 360 * t - place| + 4 / 10 ^ 12 := by
  obtain ⟨hp, hp'⟩ := hcount.cellDegrees_bounds
  have hturn := hcount.columnsOf_mul
  generalize hP : cellDegrees count = p at *
  have hlast : (i : ℚ) * p + p ≤ columnsOf count * p := by
    have : (i : ℚ) + 1 ≤ columnsOf count := by exact_mod_cast hi
    have := mul_le_mul_of_nonneg_right this (by linarith : 0 ≤ p)
    linarith
  have hnonneg : 0 ≤ (i : ℚ) * p := mul_nonneg (Nat.cast_nonneg _) (by linarith)
  obtain ⟨m, -, hmoved, hnearest⟩ := approach_nearest hcenter hreference
    (hP ▸ hcount.near_precision) (abs_le.2 ⟨by linarith, by linarith⟩) hplace (by linarith) hp'
    hclose true true
  obtain ⟨j, hj, n, hmoves⟩ := column_of_step hcount hi offset m
  rw [hP] at hmoves
  have hplaces (k : Nat) (t : ℤ) : offset + k * p + 360 * t =
      offset + i * p + ((k : ℤ) + columnsOf count * t - i : ℤ) * p := by
    rw [← hturn]
    push_cast
    ring
  refine ⟨j, hj, n, ?_, fun k hk t => ?_⟩
  · rw [hmoves]
    exact hmoved
  · rw [hmoves, hplaces k t]
    exact hnearest _ (fun _ => rfl) (fun _ => rfl)

end Axis

/-! ## Recovery -/

theorem take_digits_ofLocation {count : Nat} (h : count ≤ defaultDigits) (l : Location) :
    (ofLocation l defaultDigits).digits.take count =
      (GridPoint.ofLocation l defaultDigits).digits.take count := by
  have heffective : effectiveDigits defaultDigits = defaultDigits := by decide
  rw [digits_ofLocation, heffective, List.take_take, Nat.min_eq_left h]

section Recovery

variable {c : Code} {r : Location}

/-- The first digits of a location on the globe complete a short code. -/
theorem exists_completes_here (hshort : c.isShort = true) {l : Location}
    (hglobe : (GridPoint.ofLocation l defaultDigits).OnGlobe) :
    ∃ d, Completes d c ∧
      d.digits = (ofLocation l defaultDigits).digits.take c.missing ++ c.digits ∧
      d.digits.take c.missing = (GridPoint.ofLocation l defaultDigits).digits.take c.missing := by
  obtain ⟨d, hd, htake⟩ := exists_completes hshort hglobe
  refine ⟨d, hd, ?_, htake⟩
  rw [take_digits_ofLocation (leadCount_missing hshort).isCount.2.1, ← htake, hd.take_append]

/-- The completion by the digits of the reference is less than one of their cells away from it. -/
theorem exists_candidate (hshort : c.isShort = true) (hr : r.InRange)
    (hhere : (ofLocation r defaultDigits).isFull = true) :
    ∃ d, Completes d c ∧
      d.digits = (ofLocation r defaultDigits).digits.take c.missing ++ c.digits ∧
      |(Cell.ofDigits d.digits).middleLatitude - r.latitude.value| < cellDegrees c.missing ∧
      |(Cell.ofDigits d.digits).middleLongitude - r.longitude.value| < cellDegrees c.missing := by
  have hcount := leadCount_missing hshort
  have hwidth := hcount.cellDegrees_eq_width
  obtain ⟨hrow, hcolumn⟩ := fallsOn_ofLocation hr defaultDigits
  have hglobe : (GridPoint.ofLocation r defaultDigits).OnGlobe :=
    (onGlobe_ofLocation_iff r (by decide)).2 ((isFull_ofLocation_iff r defaultDigits).1 hhere)
  obtain ⟨latitude, longitude, hspaced⟩ := exists_spaced hshort
  obtain ⟨d, hd, hdigits, htake⟩ := exists_completes_here hshort hglobe
  obtain ⟨hlatitude, hlongitude⟩ := hspaced.middles hd hglobe htake
  refine ⟨d, hd, hdigits, ?_, ?_⟩
  · rw [hlatitude]
    exact abs_candidate_sub_lt (by decide) (Cell.heightOf_pos _)
      (by exact_mod_cast hspaced.latitude_low) (by exact_mod_cast hspaced.latitude_high) hrow
  · rw [hlongitude, hwidth]
    exact abs_candidate_sub_lt (by decide) (Cell.widthOf_pos _)
      (by exact_mod_cast hspaced.longitude_low)
      (by rw [← hwidth]; exact_mod_cast hspaced.longitude_high) hcolumn

/--
A completion that has its middle at least as near to a place as any other one, up to the
errors of the computation: in latitude, and in longitude around the circle.
-/
structure IsNearest (d c : Code) (r : Location) : Prop where
  completes : Completes d c
  latitude : ∀ e, Completes e c →
    |(Cell.ofDigits d.digits).middleLatitude - r.latitude.value| ≤
      |(Cell.ofDigits e.digits).middleLatitude - r.latitude.value| + 4 / 10 ^ 12
  longitude : ∃ n : ℤ, ∀ e, Completes e c → ∀ t : ℤ,
    |(Cell.ofDigits d.digits).middleLongitude + 360 * n - r.longitude.value| ≤
      |(Cell.ofDigits e.digits).middleLongitude + 360 * t - r.longitude.value| + 4 / 10 ^ 12

/-- From the candidate `approach` goes to a completion that is nearest, up to whole turns. -/
theorem exists_isNearest (hshort : c.isShort = true)
    (hle : c.missing + c.digits.length ≤ mostDigits) (hr : r.InRange)
    (hhere : (ofLocation r defaultDigits).isFull = true) :
    let center :=
      (Area.ofDigits ((ofLocation r defaultDigits).digits.take c.missing ++ c.digits)).center
    let cell := precision c.missing
    ∃ d, IsNearest d c r ∧
      Near (approach center.latitude r.latitude cell (-90 < center.latitude - cell)
        (center.latitude + cell < 90)) (Cell.ofDigits d.digits).middleLatitude (2 / 10 ^ 12) ∧
      ∃ n : ℤ, |(Cell.ofDigits d.digits).middleLongitude + 360 * n| ≤ 400 ∧
        Near (approach center.longitude r.longitude cell true true)
          ((Cell.ofDigits d.digits).middleLongitude + 360 * n) (2 / 10 ^ 12) := by
  have hcount := leadCount_missing hshort
  obtain ⟨hp, hp'⟩ := hcount.cellDegrees_bounds
  obtain ⟨hy, hsouth, hnorth⟩ := hr.near_latitude
  obtain ⟨hx, hwest, heast⟩ := hr.near_longitude
  have hlength {d : Code} (hd : Completes d c) : d.digits.length ≤ mostDigits :=
    (hd.length_digits hshort).trans_le hle
  obtain ⟨here, hcompletes, hdigits, hclose, hclose'⟩ := exists_candidate hshort hr hhere
  obtain ⟨hcenter, hcenter'⟩ := @Area.near_center _
    (min mostDigits here.digits.length) (cell_onGlobe hcompletes.isFull (hlength hcompletes))
  intro center cell
  have hplace : (Area.ofCell (Cell.ofDigits here.digits)
      (min mostDigits here.digits.length)).center = center := by
    simp only [center, hdigits, Area.ofDigits]
  rw [hplace] at hcenter hcenter'
  clear_value center
  -- Rows and columns of cells take the place of completions.
  obtain ⟨latitude, longitude, hspaced⟩ := exists_spaced hshort
  obtain ⟨p, hglobe, htake⟩ := hcompletes.exists_onGlobe hshort (hlength hcompletes)
  obtain ⟨hlatitude, hlongitude⟩ := hspaced.middles hcompletes hglobe htake
  rw [hlatitude] at hcenter hclose
  rw [hlongitude] at hcenter' hclose'
  obtain ⟨hi, hi'⟩ := hcount.lt_of_onGlobe hglobe
  obtain ⟨row, hrow, hmoved, hnearest⟩ := exists_row hcount hspaced.latitude_low
    hspaced.latitude_high hi hcenter hy (abs_le.2 ⟨by linarith, by linarith⟩) hclose
  obtain ⟨column, hcolumn, n, hmoved', hnearest'⟩ := exists_column hcount hspaced.longitude_low
    hspaced.longitude_high hi' hcenter' hx (abs_le.2 ⟨by linarith, by linarith⟩) hclose'
  obtain ⟨q, hq, rfl, rfl⟩ := hcount.exists_onGlobe hrow hcolumn
  obtain ⟨d, hd, htake'⟩ := exists_completes hshort hq
  obtain ⟨hlatitude', hlongitude'⟩ := hspaced.middles hd hq htake'
  refine ⟨d, ⟨hd, fun e he => ?_, n, fun e he t => ?_⟩, hlatitude' ▸ hmoved, n, ?_,
    hlongitude' ▸ hmoved'⟩
  · obtain ⟨q', hq', htake⟩ := he.exists_onGlobe hshort (hlength he)
    rw [hlatitude', (hspaced.middles he hq' htake).1]
    exact hnearest _ (hcount.lt_of_onGlobe hq').1
  · obtain ⟨q', hq', htake⟩ := he.exists_onGlobe hshort (hlength he)
    rw [hlongitude', (hspaced.middles he hq' htake).2]
    exact hnearest' _ (hcount.lt_of_onGlobe hq').2 t
  · have hhere := hnearest' _ hi' 0
    rw [Int.cast_zero, mul_zero, add_zero] at hhere
    obtain ⟨hfar, hfar'⟩ := abs_le.1 (hhere.trans (add_le_add_left hclose'.le _))
    rw [hlongitude']
    exact abs_le.2 ⟨by linarith, by linarith⟩

/-- What is recovered is a nearest completion. -/
theorem isNearest_nearest (hshort : c.isShort = true)
    (hle : c.missing + c.digits.length ≤ mostDigits) (hr : r.InRange)
    (hhere : (ofLocation r defaultDigits).isFull = true) : IsNearest (c.nearest r) c r := by
  obtain ⟨d, hd, hmoved, n, hfar, hmoved'⟩ := exists_isNearest hshort hle hr hhere
  have hlength := hd.completes.length_digits hshort
  have hfull := hd.completes.isFull
  have hmiddle := (cell_onGlobe hfull (hlength.trans_le hle)).abs_middle_le.2
  have hwrapped := near_wrapLongitude hmoved' hmiddle hfar (by norm_num)
  have hnearest : c.nearest r = d := by
    unfold nearest
    simp only [hr.adjustLatitude_eq, hr.wrapLongitude_eq]
    rw [← missing, Nat.add_comm, ← hlength]
    exact ofLocation_of_near hfull (hlength.trans_le hle) hmoved (by norm_num) hwrapped
      (by norm_num)
  rw [hnearest]
  exact hd

end Recovery

/--
A full code whose cell has its middle less than half a cell of the missing digits from
the reference, around the circle, is recovered from its other digits.
-/
theorem nearest_dropLead {c : Code} (hfull : c.isFull = true) (hpadding : c.padding = 0)
    (hle : c.digits.length ≤ mostDigits) {count : Nat} (hcount : LeadCount count)
    (hlt : count < c.digits.length) {r : Location} (hr : r.InRange)
    (hhere : (ofLocation r defaultDigits).isFull = true)
    (hlatitude : |(Cell.ofDigits c.digits).middleLatitude - r.latitude.value| + 1 / 10 ^ 9 ≤
      cellDegrees count / 2) {n : ℤ}
    (hlongitude : |(Cell.ofDigits c.digits).middleLongitude + 360 * n - r.longitude.value| +
      1 / 10 ^ 9 ≤ cellDegrees count / 2) :
    (c.dropLead count).nearest r = c := by
  have hshort := isShort_dropLead (isShort_of_isFull hfull) hpadding hcount hlt
  have hcompletes := completes_dropLead hfull hpadding hcount hlt
  obtain ⟨-, hmissing⟩ := digits_dropLead (isShort_of_isFull hfull) hpadding hcount hlt
  have hle := (hcompletes.length_digits hshort).symm.trans_le hle
  have hnearest := isNearest_nearest hshort hle hr hhere
  have hcloser := hnearest.latitude c hcompletes
  obtain ⟨t, ht⟩ := hnearest.longitude
  have hcloser' := ht c hcompletes n
  generalize (c.dropLead count).nearest r = d at *
  refine hnearest.completes.eq_of_close hcompletes hshort hle ?_ (n := t) (t := n) ?_
  · rw [hmissing]
    have := abs_sub_le (Cell.ofDigits d.digits).middleLatitude r.latitude.value
      (Cell.ofDigits c.digits).middleLatitude
    rw [abs_sub_comm r.latitude.value] at this
    linarith
  · rw [hmissing]
    have := abs_sub_le ((Cell.ofDigits d.digits).middleLongitude + 360 * t) r.longitude.value
      ((Cell.ofDigits c.digits).middleLongitude + 360 * n)
    rw [abs_sub_comm r.longitude.value] at this
    linarith

end OpenLocation.Code
