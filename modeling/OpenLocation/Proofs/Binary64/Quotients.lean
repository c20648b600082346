import OpenLocation.Proofs.Binary64.Powers

/-!
# Quotients in range

A number from 2⁻¹⁴ up to one half (`Moderate`) has quotients above zero and below infinity by all
doubles from 2⁻¹⁰²⁴ on, and so by the reciprocals of all doubles from one on. Such quotients do
not only keep the order: of two divisors, one at least twice the other, the larger one has the
smaller quotient after rounding too (`Moderate.div_lt_div`).
-/

namespace OpenLocation

/-! ## Roundings that stay apart -/

/-- Quotients far enough apart stay apart when they are rounded. -/
theorem mul_roundUnits_lt {num den num' den' k : Nat} (hden : 0 < den) (hden' : 0 < den')
    (h : (k + 1) * (num * den') ≤ num' * den) (hlarge : (k + 1) * (k + 3) * den' ≤ num')
    (hk : k ≤ 2 ^ 40) : k * roundUnits num den < roundUnits num' den' := by
  have hround := (abs_le.1 (Binary64.abs_roundUnits_sub_le num hden)).2
  have hround' := (abs_le.1 (Binary64.abs_roundUnits_sub_le num' hden')).1
  have hD : (0 : ℚ) < den := Nat.cast_pos.2 hden
  have hD' : (0 : ℚ) < den' := Nat.cast_pos.2 hden'
  have hk0 : (0 : ℚ) < k + 1 := by positivity
  -- Of `k + 1` parts of the larger quotient one is more than both errors.
  have hpart : (num : ℚ) / den ≤ num' / den' / (k + 1) := by
    rw [le_div_iff₀ hk0, div_mul_eq_mul_div, div_le_div_iff₀ hD hD', mul_comm (num : ℚ), mul_assoc]
    exact_mod_cast h
  have hleast : (k : ℚ) + 3 ≤ num' / den' / (k + 1) := by
    rw [le_div_iff₀ hk0, le_div_iff₀ hD', mul_comm (k + 3 : ℚ)]
    exact_mod_cast hlarge
  have hwhole : (num' : ℚ) / den' = (k + 1) * (num' / den' / (k + 1)) :=
    (mul_div_cancel₀ _ hk0.ne').symm
  generalize (num' : ℚ) / den' / (k + 1) = part at hpart hleast hwhole
  rw [hwhole] at hround'
  have herror : (2 * (k : ℚ) + 1) * part / 2 ^ 53 ≤ part / 4 := by
    have hk : (k : ℚ) ≤ 2 ^ 40 := by exact_mod_cast hk
    have hfew : (2 * (k : ℚ) + 1) / 2 ^ 53 ≤ 1 / 4 := by
      rw [div_le_div_iff₀ (by norm_num) (by norm_num)]
      linarith
    have := mul_le_mul_of_nonneg_right hfew (by linarith : (0 : ℚ) ≤ part)
    linarith
  have hscaled : (k : ℚ) * (roundUnits num den) ≤ k * (part + part / 2 ^ 53 + 1 / 2) := by
    gcongr
    linarith
  have : ((k * roundUnits num den : Nat) : ℚ) < roundUnits num' den' := by
    push_cast
    linarith
  exact_mod_cast this

/-- The range is wider on the side of the large numbers, by fifty bits. -/
theorem unitsPerOne_mul_self : unitsPerOne * unitsPerOne = 2 ^ 50 * unitLimit := by
  unfold unitsPerOne unitLimit
  rw [← Nat.pow_add, ← Nat.pow_add]
  congr 1

theorem two_pow_fifty_le : 2 ^ 50 ≤ unitsPerOne :=
  two_pow_le_unitsPerOne (by simp only [unitShift]; omega)

/-- From 2⁻¹⁴ up to one half. -/
structure Moderate (units : Nat) : Prop where
  least : unitsPerOne ≤ 2 ^ 14 * units
  most : 2 * units ≤ unitsPerOne

namespace Moderate

variable {m : Nat}

theorem eight_mul_le (h : Moderate m) {x : Nat} (hx : x ≤ unitLimit) :
    8 * x ≤ m * unitsPerOne := by
  refine Nat.le_of_mul_le_mul_left ?_ (Nat.two_pow_pos 14)
  calc 2 ^ 14 * (8 * x) ≤ 2 ^ 50 * x := by omega
    _ ≤ 2 ^ 50 * unitLimit := Nat.mul_le_mul_left _ hx
    _ = unitsPerOne * unitsPerOne := unitsPerOne_mul_self.symm
    _ ≤ 2 ^ 14 * m * unitsPerOne := Nat.mul_le_mul_right _ h.least
    _ = 2 ^ 14 * (m * unitsPerOne) := Nat.mul_assoc ..

theorem roundUnits_pos (h : Moderate m) {x : Nat} (hpos : 0 < x) (hx : x ≤ unitLimit) :
    0 < roundUnits (m * unitsPerOne) x := by
  have hthree : (0 + 1) * (0 + 3) * x ≤ 8 * x := by omega
  have hlt : 0 * roundUnits 0 1 < roundUnits (m * unitsPerOne) x :=
    mul_roundUnits_lt one_pos hpos (by omega) (hthree.trans (h.eight_mul_le hx)) (Nat.zero_le _)
  rwa [Nat.zero_mul] at hlt

theorem roundUnits_lt (h : Moderate m) {x : Nat} (hx : 2 ^ 50 ≤ x) :
    roundUnits (m * unitsPerOne) x < unitLimit := by
  have hlimit : roundUnits (unitsPerOne * unitsPerOne) (2 ^ 50) = unitLimit := by
    rw [unitsPerOne_mul_self, Nat.mul_comm]
    exact Binary64.roundUnits_mul_self (Nat.two_pow_pos 50) two_pow_log2_dvd_unitLimit
  have hratio : (1 + 1) * (m * unitsPerOne * 2 ^ 50) ≤ unitsPerOne * unitsPerOne * x :=
    calc (1 + 1) * (m * unitsPerOne * 2 ^ 50) = 2 * m * unitsPerOne * 2 ^ 50 := by
          simp only [Nat.mul_assoc]
      _ ≤ unitsPerOne * unitsPerOne * x := Nat.mul_le_mul (Nat.mul_le_mul_right _ h.most) hx
  have hlarge : (1 + 1) * (1 + 3) * 2 ^ 50 ≤ unitsPerOne * unitsPerOne :=
    Nat.mul_le_mul (le_trans (by norm_num) two_pow_fifty_le) two_pow_fifty_le
  have hlt := mul_roundUnits_lt (by omega) (Nat.two_pow_pos 50) hratio hlarge (by norm_num)
  rwa [hlimit, Nat.one_mul] at hlt

end Moderate

namespace Binary64

variable {m x y : Nat}

/-! ## Quotients -/

theorem rank_div (hm : Representable m) (hx : Representable x) (hpos : 0 < x) :
    (finite false m hm / finite false x hx).rank =
      some ((min (roundUnits (m * unitsPerOne) x) unitLimit : Nat) : Int) := by
  show (div _ _).rank = _
  rw [div, if_neg hpos.ne', rank_ofQuotient]
  rfl

theorem zero_eq : (0 : Binary64) = zero false := by
  show ofNat 0 = _
  rw [ofNat_eq (Nat.zero_le _)]
  simp only [Nat.zero_mul]
  rfl

theorem finite_div_infinity (hm : Representable m) : finite false m hm / infinity false = 0 := by
  rw [zero_eq]
  rfl

theorem finite_div_zero (hm : Representable m) (hpos : 0 < m) :
    finite false m hm / 0 = infinity false := by
  rw [zero_eq]
  show div _ (zero false) = _
  simp only [zero, div]
  rw [if_pos trivial, if_neg hpos.ne']
  rfl

theorem one_div_infinity : 1 / infinity false = 0 := by
  show ofNat 1 / _ = _
  rw [ofNat_eq (by decide), finite_div_infinity]

/-- The reciprocal of a finite number from one on. -/
theorem exists_reciprocal (hx : Representable x) (h : unitsPerOne ≤ x) :
    ∃ hr, 1 / finite false x hx = finite false (roundUnits (unitsPerOne * unitsPerOne) x) hr ∧
      2 ^ 50 ≤ roundUnits (unitsPerOne * unitsPerOne) x ∧
      roundUnits (unitsPerOne * unitsPerOne) x ≤ unitsPerOne := by
  have hx0 : 0 < x := unitsPerOne_pos.trans_le h
  have hleast : 2 ^ 50 ≤ roundUnits (unitsPerOne * unitsPerOne) x := by
    rw [unitsPerOne_mul_self]
    calc 2 ^ 50 = roundUnits (2 ^ 50 * unitLimit) unitLimit :=
          (roundUnits_mul_self unitLimit_pos (two_pow_log2_dvd_self 50)).symm
      _ ≤ roundUnits (2 ^ 50 * unitLimit) x :=
          roundUnits_le_roundUnits unitLimit_pos hx0 (Nat.mul_le_mul_left _ hx.1.le)
  have hmost : roundUnits (unitsPerOne * unitsPerOne) x ≤ unitsPerOne :=
    calc roundUnits (unitsPerOne * unitsPerOne) x
        ≤ roundUnits (unitsPerOne * unitsPerOne) unitsPerOne :=
          roundUnits_le_roundUnits hx0 unitsPerOne_pos (Nat.mul_le_mul_left _ h)
      _ = unitsPerOne := roundUnits_mul_self unitsPerOne_pos two_pow_log2_dvd_unitsPerOne
  have hlt : roundUnits (unitsPerOne * unitsPerOne) x < unitLimit :=
    (hmost.trans h).trans_lt hx.1
  refine ⟨⟨hlt, two_pow_log2_dvd_roundUnits _ _⟩, ?_, hleast, hmost⟩
  show div (ofNat 1) _ = _
  rw [ofNat_eq (by decide), div, if_neg hx0.ne', Nat.one_mul, ofQuotient, dif_pos hlt]
  rfl

/-- Reciprocals of numbers a factor of four apart are more than a factor of two apart. -/
theorem two_mul_reciprocal_lt (hx : unitsPerOne ≤ x) (hlimit : x ≤ unitLimit) (h : 4 * x ≤ y) :
    2 * roundUnits (unitsPerOne * unitsPerOne) y < roundUnits (unitsPerOne * unitsPerOne) x := by
  have hx0 : 0 < x := unitsPerOne_pos.trans_le hx
  refine mul_roundUnits_lt (by omega) hx0 ?_ ?_ (by norm_num)
  · rw [Nat.mul_left_comm]
    exact Nat.mul_le_mul_left _ (by omega)
  · rw [unitsPerOne_mul_self]
    calc (2 + 1) * (2 + 3) * x ≤ 2 ^ 50 * x := Nat.mul_le_mul_right _ (by norm_num)
      _ ≤ 2 ^ 50 * unitLimit := Nat.mul_le_mul_left _ hlimit

end Binary64

namespace Moderate

open Binary64

variable {m x y : Nat}

theorem units_pos (h : Moderate m) : 0 < m := by
  have := h.least
  have := unitsPerOne_pos
  omega

/-- Quotients by what is neither zero nor infinite are neither infinite nor zero. -/
theorem div_bounds (h : Moderate m) (hm : Representable m) (hx : Representable x)
    (hx50 : 2 ^ 50 ≤ x) :
    0 < finite false m hm / finite false x hx ∧
      finite false m hm / finite false x hx < infinity false := by
  have hrank := rank_div hm hx (by omega)
  have hpos := h.roundUnits_pos (by omega) hx.1.le
  exact ⟨(lt_iff_of_rank rank_zero hrank).2 (Int.ofNat_lt.2 (lt_min hpos unitLimit_pos)),
    (lt_iff_of_rank hrank rfl).2 (Int.ofNat_lt.2 (min_lt_of_left_lt (h.roundUnits_lt hx50)))⟩

/-- The larger one of two divisors a factor of two apart has the smaller quotient. -/
theorem div_lt_div (h : Moderate m) (hm : Representable m) (hx : Representable x)
    (hy : Representable y) (hpos : 0 < x) (hy50 : 2 ^ 50 ≤ y) (hxy : 2 * x ≤ y) :
    finite false m hm / finite false y hy < finite false m hm / finite false x hx := by
  have hratio : (1 + 1) * (m * unitsPerOne * x) ≤ m * unitsPerOne * y := by
    rw [Nat.mul_left_comm]
    exact Nat.mul_le_mul_left _ hxy
  have hlt := mul_roundUnits_lt (by omega) hpos hratio (h.eight_mul_le hx.1.le) (by norm_num)
  rw [Nat.one_mul] at hlt
  refine (lt_iff_of_rank (rank_div hm hy (by omega)) (rank_div hm hx hpos)).2 (Int.ofNat_lt.2 ?_)
  exact lt_min (min_lt_of_left_lt hlt) (min_lt_of_left_lt (h.roundUnits_lt hy50))

end Moderate

end OpenLocation
