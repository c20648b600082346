import OpenLocation.Proofs.Binary64.Near
import OpenLocation.Proofs.Binary64.Order

/-!
# Where a NaN comes from

A sum with a finite number is a NaN only if the other term is one, and so is a quotient by a
finite number other than zero. The greater of two doubles gives up a NaN, so it is below a bound
as soon as one of the two is a number and those that are numbers are below it (`greater_lt_iff`).
-/

namespace OpenLocation.Binary64

variable {a b c : Binary64}

theorem isNaN_neg (a : Binary64) : (-a).isNaN = a.isNaN := by
  cases a <;> rfl

theorem isNaN_abs (a : Binary64) : a.abs.isNaN = a.isNaN := by
  cases a <;> rfl

/-! ## Sums -/

theorem isNaN_sub (ha : a.isFinite = true) : (a - c).isNaN = c.isNaN := by
  show (a + -c).isNaN = _
  rw [Binary64.add_comm, isNaN_add ha, isNaN_neg]

/-- Between finite numbers there are only finite ones. -/
theorem isFinite_of_le_of_le (ha : a.isFinite = true) (hc : c.isFinite = true) (hab : a ≤ b)
    (hbc : b ≤ c) : b.isFinite = true := by
  rcases b with _ | negative | _
  · exact absurd hab (not_le_nan a)
  · cases negative with
    | false =>
      rw [eq_infinity_of_le hbc] at hc
      exact hc
    | true =>
      rw [eq_negInfinity_of_le hab] at ha
      exact ha
  · rfl

/-- Between a finite number and one that is larger too. -/
theorem isFinite_of_le_of_lt (ha : a.isFinite = true) (hab : a ≤ b) (hbc : b < c) :
    b.isFinite = true := by
  rcases b with _ | negative | _
  · exact absurd hab (not_le_nan a)
  · cases negative with
    | false => exact absurd hbc (Binary64.not_lt_of_le (le_infinity (isNaN_of_lt hbc).2))
    | true =>
      rw [eq_negInfinity_of_le hab] at ha
      exact ha
  · rfl

/-- The last double below infinity, that is of the largest exponent with all bits set. -/
theorem le_last {bits : Nat} (hexponent : bits / 2 ^ 52 = 2046)
    (hfraction : bits % 2 ^ 52 + 1 = 2 ^ 52) (h : a.isFinite = true) :
    -ofBits bits ≤ a ∧ a ≤ ofBits bits := by
  rcases a with _ | _ | ⟨negative, n, hn⟩ <;> simp only [isFinite, Bool.false_eq_true] at h
  rw [ofBits_eq_finite (by omega) (by omega)]
  have hkept : 2 ^ 52 + bits % 2 ^ 52 + 1 = 2 ^ 53 := by omega
  have hshift : limitShift = 53 + (bits / 2 ^ 52 - 1) := by rw [hexponent]; rfl
  have hlt : n < 2 ^ limitShift := hn.1
  rw [hshift, Nat.pow_add, ← hkept] at hlt
  have hle := le_mul_two_pow_of_lt hn (Nat.le_add_right _ _) hlt
  constructor
  · refine le_iff_rank.2 ⟨_, _, rfl, rfl, ?_⟩
    cases negative <;>
      simp only [signed, Bool.not_false, if_true, if_false, Bool.false_eq_true] <;> omega
  · refine le_iff_rank.2 ⟨_, _, rfl, rfl, ?_⟩
    cases negative <;> simp only [signed, if_true, if_false, Bool.false_eq_true] <;> omega

def greatest : Binary64 := .ofBits 0x7fefffffffffffff

/-- Half a turn is lost when it is added to the largest number. -/
theorem greatest_add_halfTurn :
    greatest.isFinite = true ∧ (-greatest).isFinite = true ∧ greatest + 180 ≤ greatest ∧
      -greatest ≤ -greatest + 180 ∧ (180 : Binary64).isFinite = true := by
  decide +kernel

/-- No finite number leaves the range when half a turn is added to it. -/
theorem isFinite_add_halfTurn (h : a.isFinite = true) : (a + 180).isFinite = true := by
  obtain ⟨hlow, hhigh⟩ := @le_last _ 0x7fefffffffffffff (by decide) (by decide) h
  obtain ⟨hfinite, hfinite', hsum, hsum', hturn⟩ := greatest_add_halfTurn
  exact isFinite_of_le_of_le hfinite' hfinite
    (Binary64.le_trans hsum' (add_le_add_right hlow hturn))
    (Binary64.le_trans (add_le_add_right hhigh hturn) hsum)

/-! ## Quotients -/

theorem isNaN_div_right (hc : c.isFinite = true) (hne : c.value ≠ 0) :
    (a / c).isNaN = a.isNaN := by
  rcases c with _ | _ | ⟨s, n, hn⟩ <;> simp only [isFinite, Bool.false_eq_true] at hc
  have hn0 : n ≠ 0 := by
    rintro rfl
    rw [value_finite, cast_signed, Nat.cast_zero, mul_zero, zero_div] at hne
    exact hne rfl
  show (div a _).isNaN = _
  rcases a with _ | _ | ⟨t, m, hm⟩
  · rfl
  · rfl
  · rw [div, if_neg hn0]
    exact isNaN_ofQuotient ..

/-! ## The greater of two -/

theorem greater_lt_iff {bound : Binary64} :
    a.greater b < bound ↔ (a.isNaN = false ∨ b.isNaN = false) ∧
      (a.isNaN = false → a < bound) ∧ (b.isNaN = false → b < bound) := by
  unfold greater
  cases ha : a.isNaN with
  | true =>
    simp only [if_true, Bool.true_eq_false, false_or, false_implies, true_and]
    exact ⟨fun h => ⟨(isNaN_of_lt h).1, fun _ => h⟩, fun h => h.2 h.1⟩
  | false =>
    cases hb : b.isNaN with
    | true => simp
    | false =>
      simp only [Bool.false_eq_true, if_false, true_or, true_and, forall_const]
      by_cases hlt : a < b
      · rw [if_pos hlt]
        exact ⟨fun h => ⟨Binary64.lt_of_le_of_lt (Binary64.le_of_lt hlt) h, h⟩, And.right⟩
      · rw [if_neg hlt]
        exact ⟨fun h => ⟨h, Binary64.lt_of_le_of_lt (Binary64.le_of_not_lt ha hb hlt) h⟩, And.left⟩

end OpenLocation.Binary64
