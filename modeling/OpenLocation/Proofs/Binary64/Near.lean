import OpenLocation.Proofs.Binary64.Value

/-!
# Doubles near exact numbers

`Near x v e` says that a double is finite and differs from the exact result `v` by at
most `e`. Each operation has one lemma: the error of its terms carried through it, and
what one rounding adds. A comparison of doubles is decided by the exact numbers if these
are farther apart than the errors.
-/

namespace OpenLocation.Binary64

/-- A finite double that differs from a number by at most `e`. -/
structure Near (x : Binary64) (v e : ℚ) : Prop where
  isFinite : x.isFinite = true
  close : |x.value - v| ≤ e

/-- Bounds on both sides of a number that leave room for an error. -/
theorem abs_add_le_of_bounds {v e A : ℚ} (hlow : e - A ≤ v) (hhigh : v ≤ A - e) : |v| + e ≤ A := by
  have := abs_le.2 ⟨by linarith, hhigh⟩
  linarith

namespace Near

variable {x y : Binary64} {v w e f : ℚ}

theorem self (h : x.isFinite = true) : Near x x.value 0 :=
  ⟨h, by rw [sub_self, abs_zero]⟩

theorem value_eq (h : Near x v 0) : x.value = v :=
  sub_eq_zero.1 (abs_nonpos_iff.1 h.close)

theorem nonneg (h : Near x v e) : 0 ≤ e := le_trans (abs_nonneg _) h.close

theorem le_value (h : Near x v e) : v - e ≤ x.value := by
  have := (abs_le.1 h.close).1
  linarith

theorem value_le (h : Near x v e) : x.value ≤ v + e := by
  have := (abs_le.1 h.close).2
  linarith

theorem of_bounds (h : x.isFinite = true) (hle : v - e ≤ x.value) (hge : x.value ≤ v + e) :
    Near x v e := ⟨h, abs_le.2 ⟨by linarith, by linarith⟩⟩

theorem weaken (h : Near x v e) (hle : e ≤ f) : Near x v f := ⟨h.isFinite, h.close.trans hle⟩

/-- The exact number may be taken a little aside. -/
theorem shift (h : Near x v e) (hd : |v - w| ≤ f) : Near x w (e + f) := by
  have := abs_le.1 hd
  exact of_bounds h.isFinite (by linarith [h.le_value]) (by linarith [h.value_le])

theorem abs_value_le (h : Near x v e) : |x.value| ≤ |v| + e := by
  have := abs_sub_abs_le_abs_sub x.value v
  linarith [h.close]

/-! ## Order -/

theorem lt_of_add_lt (hx : Near x v e) (hy : Near y w f) (h : v + e < w - f) : x < y := by
  rw [lt_iff hx.isFinite hy.isFinite]
  linarith [hx.value_le, hy.le_value]

theorem not_lt_of_add_le (hx : Near x v e) (hy : Near y w f) (h : w + f ≤ v - e) : ¬ x < y := by
  rw [lt_iff hx.isFinite hy.isFinite, not_lt]
  linarith [hx.le_value, hy.value_le]

theorem sub_lt_add (hx : Near x v e) (hy : Near y w f) (h : x < y) : v - e < w + f := by
  rw [lt_iff hx.isFinite hy.isFinite] at h
  linarith [hx.le_value, hy.value_le]

theorem sub_le_add (hx : Near x v e) (hy : Near y w f) (h : ¬ x < y) : w - f ≤ v + e := by
  rw [lt_iff hx.isFinite hy.isFinite, not_lt] at h
  linarith [hx.value_le, hy.le_value]

/-! ## Whole numbers -/

theorem ofNat {n : Nat} (h : n ≤ 2 ^ 53) : Near (.ofNat n) n 0 := by
  refine ⟨by rw [ofNat_eq h]; rfl, ?_⟩
  rw [value_ofNat h, sub_self, abs_zero]

theorem ofInt {i : Int} (h : i.natAbs ≤ 2 ^ 53) : Near (.ofInt i) i 0 := by
  refine ⟨by rw [ofInt_eq h]; rfl, ?_⟩
  rw [value_ofInt h, sub_self, abs_zero]

theorem literal {n : Nat} (h : n ≤ 2 ^ 53) : Near (@OfNat.ofNat Binary64 n _) n 0 := ofNat h

/-- A literal with an exponent that is a whole number. -/
theorem scientific {coefficient above : Nat} (hc : coefficient ≠ 0) (habove : above ≤ 400)
    (h : coefficient * 10 ^ above ≤ 2 ^ 53) :
    Near (OfScientific.ofScientific coefficient false above)
      ((coefficient * 10 ^ above : Nat) : ℚ) 0 := by
  have hwhole : (OfScientific.ofScientific coefficient false above : Binary64) =
      .ofNat (coefficient * 10 ^ above) := by
    show ofDecimal _ _ _ = _
    simp only [ofDecimal, if_neg hc, Bool.false_eq_true, if_false, Int.toNat_natCast,
      Int.toNat_neg_natCast, pow_zero]
    rw [if_neg (by omega), if_neg (by omega)]
    rfl
  rw [hwhole]
  exact ofNat h

/-! ## Roundings -/

theorem ofQuotient {negative : Bool} {num den : Nat} (hden : 0 < den) {A : ℚ}
    (hA : |quotientValue negative num den| ≤ A) (h1 : 1 ≤ A) (h2 : A ≤ 2 ^ 200) :
    Near (.ofQuotient negative num den) (quotientValue negative num den) (A / 2 ^ 52) := by
  have hfinite := isFinite_ofQuotient hden (hA.trans h2)
  refine ⟨hfinite, (abs_value_ofQuotient_sub_le hden hfinite).trans ?_⟩
  have hhalf : (1 : ℚ) / (2 * unitsPerOne) ≤ 1 / 2 ^ 53 := by
    have : (2 : ℚ) ^ 52 ≤ unitsPerOne := by
      exact_mod_cast two_pow_le_unitsPerOne (by simp only [unitShift]; omega)
    exact one_div_le_one_div_of_le (by norm_num) (by linarith)
  have hpart : |quotientValue negative num den| / 2 ^ 53 ≤ A / 2 ^ 53 := by gcongr
  have hone : (1 : ℚ) / 2 ^ 53 ≤ A / 2 ^ 53 := by gcongr
  linarith

/-- A whole number of units is rounded by its 2⁵³rd part at most. -/
theorem ofUnits {negative : Bool} {units : Nat} {A : ℚ}
    (hA : |quotientValue negative units 1| ≤ A) (h2 : A ≤ 2 ^ 200) :
    Near (.ofQuotient negative units 1) (quotientValue negative units 1) (A / 2 ^ 53) := by
  have hfinite := isFinite_ofQuotient one_pos (hA.trans h2)
  exact ⟨hfinite, (abs_value_ofQuotient_one_sub_le hfinite).trans (by gcongr)⟩

/-- A literal with a fraction of `below` places. -/
theorem decimal {coefficient below : Nat} (hc : coefficient ≠ 0) (hbelow : below ≤ 400) {A : ℚ}
    (hA : (coefficient : ℚ) / 10 ^ below ≤ A) (h1 : 1 ≤ A) (h2 : A ≤ 2 ^ 200) :
    Near (OfScientific.ofScientific coefficient true below) (coefficient / 10 ^ below)
      (A / 2 ^ 52) := by
  have hvalue : quotientValue false (coefficient * unitsPerOne) (10 ^ below) =
      coefficient / 10 ^ below := by
    have hU := cast_unitsPerOne_pos.ne'
    rw [quotientValue, cast_signed, sign_false, one_mul, Nat.cast_mul, Nat.cast_pow,
      mul_div_mul_right _ _ hU, Nat.cast_ofNat]
  show Near (ofDecimal _ _ _) _ _
  simp only [ofDecimal, if_neg hc, if_true, neg_neg, Int.toNat_natCast,
    Int.toNat_neg_natCast, pow_zero, mul_one]
  rw [if_neg (by omega), if_neg (by omega), ← hvalue]
  refine ofQuotient (Nat.pow_pos (by decide)) ?_ h1 h2
  rw [hvalue, abs_of_nonneg (by positivity)]
  exact hA

/-! ## Operations -/

theorem neg (h : Near x v e) : Near (-x) (-v) e :=
  of_bounds (by rw [isFinite_neg, h.isFinite]) (by rw [value_neg]; linarith [h.value_le])
    (by rw [value_neg]; linarith [h.le_value])

theorem abs (h : Near x v e) : Near x.abs |v| e := by
  refine ⟨by rw [isFinite_abs, h.isFinite], ?_⟩
  rw [value_abs]
  exact (abs_abs_sub_abs_le_abs_sub _ _).trans h.close

theorem value_add_value (a b : Bool) {m n : Nat} (hm : Representable m) (hn : Representable n) :
    (finite a m hm).value + (finite b n hn).value =
      quotientValue (decide (signed a m + signed b n < 0)) (signed a m + signed b n).natAbs 1 := by
  rw [value_finite, value_finite, quotientValue_natAbs, Int.cast_add, add_div]

/-- The sum of two finite doubles, rounded once. -/
theorem add_values (hx : x.isFinite = true) (hy : y.isFinite = true) {A : ℚ}
    (hA : |x.value + y.value| ≤ A) (h2 : A ≤ 2 ^ 200) :
    Near (x + y) (x.value + y.value) (A / 2 ^ 53) := by
  rcases x with _ | _ | ⟨a, m, hm⟩ <;> simp only [Binary64.isFinite, Bool.false_eq_true] at hx
  rcases y with _ | _ | ⟨b, n, hn⟩ <;> simp only [Binary64.isFinite, Bool.false_eq_true] at hy
  have hsum := value_add_value a b hm hn
  show Near (Binary64.add _ _) _ _
  rw [Binary64.add, hsum]
  rw [hsum] at hA
  split
  · next hz =>
    refine ⟨rfl, ?_⟩
    rw [value_zero, quotientValue_natAbs, hz, Int.cast_zero, zero_div, sub_self, abs_zero]
    exact div_nonneg ((abs_nonneg _).trans hA) (by norm_num)
  · exact ofUnits hA h2

/-- A sum of any size, if it is finite, is rounded by its 2⁵³rd part at most. -/
theorem add_of_isFinite (hx : x.isFinite = true) (hy : y.isFinite = true)
    (h : (x + y).isFinite = true) :
    Near (x + y) (x.value + y.value) (|x.value + y.value| / 2 ^ 53) := by
  rcases x with _ | _ | ⟨a, m, hm⟩ <;> simp only [Binary64.isFinite, Bool.false_eq_true] at hx
  rcases y with _ | _ | ⟨b, n, hn⟩ <;> simp only [Binary64.isFinite, Bool.false_eq_true] at hy
  refine ⟨h, ?_⟩
  rw [value_add_value a b hm hn]
  have hadd : finite a m hm + finite b n hn = Binary64.add (finite a m hm) (finite b n hn) := rfl
  rw [hadd, Binary64.add] at h ⊢
  split at h
  · next hz =>
    rw [if_pos hz, value_zero, quotientValue_natAbs, hz, Int.cast_zero, zero_div, sub_self,
      abs_zero, zero_div]
  · next hne =>
    rw [if_neg hne]
    exact abs_value_ofQuotient_one_sub_le h

theorem add (hx : Near x v e) (hy : Near y w f) {A : ℚ} (hA : |v + w| + (e + f) ≤ A)
    (h2 : A ≤ 2 ^ 200) : Near (x + y) (v + w) (A / 2 ^ 53 + (e + f)) := by
  have hsum : |(x.value + y.value) - (v + w)| ≤ e + f := by
    rw [add_sub_add_comm]
    exact (abs_add_le _ _).trans (add_le_add hx.close hy.close)
  have hvalue : |x.value + y.value| ≤ A := by
    have := abs_sub_abs_le_abs_sub (x.value + y.value) (v + w)
    linarith
  exact (add_values hx.isFinite hy.isFinite hvalue h2).shift hsum

theorem sub (hx : Near x v e) (hy : Near y w f) {A : ℚ} (hA : |v - w| + (e + f) ≤ A)
    (h2 : A ≤ 2 ^ 200) : Near (x - y) (v - w) (A / 2 ^ 53 + (e + f)) := by
  rw [sub_eq_add_neg] at hA ⊢
  exact hx.add hy.neg hA h2

/-- The product of two finite doubles, rounded once. -/
theorem mul_values (hx : x.isFinite = true) (hy : y.isFinite = true) {A : ℚ}
    (hA : |x.value * y.value| ≤ A) (h1 : 1 ≤ A) (h2 : A ≤ 2 ^ 200) :
    Near (x * y) (x.value * y.value) (A / 2 ^ 52) := by
  rcases x with _ | _ | ⟨a, m, hm⟩ <;> simp only [Binary64.isFinite, Bool.false_eq_true] at hx
  rcases y with _ | _ | ⟨b, n, hn⟩ <;> simp only [Binary64.isFinite, Bool.false_eq_true] at hy
  have hproduct : (finite a m hm).value * (finite b n hn).value =
      quotientValue (a != b) (m * n) unitsPerOne := by
    rw [value_finite, value_finite, quotientValue, cast_signed, cast_signed, cast_signed,
      Nat.cast_mul, div_mul_div_comm, sign_bne, mul_mul_mul_comm]
  show Near (Binary64.mul _ _) _ _
  rw [Binary64.mul, hproduct]
  rw [hproduct] at hA
  exact ofQuotient unitsPerOne_pos hA h1 h2

theorem mul (hx : Near x v e) (hy : Near y w f) {A : ℚ}
    (hA : |v * w| + (|v| * f + |w| * e + e * f) ≤ A) (h1 : 1 ≤ A) (h2 : A ≤ 2 ^ 200) :
    Near (x * y) (v * w) (A / 2 ^ 52 + (|v| * f + |w| * e + e * f)) := by
  have hproduct : |x.value * y.value - v * w| ≤ |v| * f + |w| * e + e * f := by
    have hsplit : x.value * y.value - v * w =
        v * (y.value - w) + w * (x.value - v) + (x.value - v) * (y.value - w) := by ring
    calc |x.value * y.value - v * w|
        ≤ |v * (y.value - w)| + |w * (x.value - v)| + |(x.value - v) * (y.value - w)| := by
          rw [hsplit]; exact abs_add_three _ _ _
      _ = |v| * |y.value - w| + |w| * |x.value - v| + |x.value - v| * |y.value - w| := by
          rw [abs_mul, abs_mul, abs_mul]
      _ ≤ |v| * f + |w| * e + e * f := by
          gcongr
          exacts [hy.close, hx.close, hx.nonneg, hx.close, hy.close]
  have hvalue : |x.value * y.value| ≤ A := by
    have := abs_sub_abs_le_abs_sub (x.value * y.value) (v * w)
    linarith
  exact (mul_values hx.isFinite hy.isFinite hvalue h1 h2).shift hproduct

/-- The quotient of two finite doubles, rounded once. -/
theorem div_values (hx : x.isFinite = true) (hy : y.isFinite = true) (hne : y.value ≠ 0) {A : ℚ}
    (hA : |x.value / y.value| ≤ A) (h1 : 1 ≤ A) (h2 : A ≤ 2 ^ 200) :
    Near (x / y) (x.value / y.value) (A / 2 ^ 52) := by
  rcases x with _ | _ | ⟨a, m, hm⟩ <;> simp only [Binary64.isFinite, Bool.false_eq_true] at hx
  rcases y with _ | _ | ⟨b, n, hn⟩ <;> simp only [Binary64.isFinite, Bool.false_eq_true] at hy
  have hU := cast_unitsPerOne_pos
  have hzero : n ≠ 0 := by
    rintro rfl
    exact hne (by rw [value_finite, cast_signed, Nat.cast_zero, mul_zero, zero_div])
  have hquotient : (finite a m hm).value / (finite b n hn).value =
      quotientValue (a != b) (m * unitsPerOne) n := by
    have hn' : (n : ℚ) ≠ 0 := Nat.cast_ne_zero.2 hzero
    have hsign := sign_mul_self b
    have hb : sign b ≠ 0 := left_ne_zero_of_mul (hsign.symm ▸ one_ne_zero)
    rw [value_finite, value_finite, quotientValue, cast_signed, cast_signed, cast_signed,
      Nat.cast_mul, sign_bne, div_div_div_cancel_right₀ hU.ne', ← mul_assoc,
      mul_div_mul_right _ _ hU.ne', div_eq_div_iff (mul_ne_zero hb hn') hn']
    linear_combination (-(sign a * m * n)) * hsign
  show Near (Binary64.div _ _) _ _
  rw [Binary64.div, if_neg hzero, hquotient]
  rw [hquotient] at hA
  exact ofQuotient (Nat.pos_of_ne_zero hzero) hA h1 h2

/-- Division by a double that is known exactly. -/
theorem div (hx : Near x v e) (hy : Near y w 0) (hw : 0 < w) {A : ℚ} (hA : (|v| + e) / w ≤ A)
    (h1 : 1 ≤ A) (h2 : A ≤ 2 ^ 200) : Near (x / y) (v / w) (A / 2 ^ 52 + e / w) := by
  have hquotient : |x.value / w - v / w| ≤ e / w := by
    rw [← sub_div, abs_div, abs_of_pos hw]
    exact div_le_div_of_nonneg_right hx.close hw.le
  have hvalue : |x.value / y.value| ≤ A := by
    rw [hy.value_eq, abs_div, abs_of_pos hw]
    exact (div_le_div_of_nonneg_right hx.abs_value_le hw.le).trans hA
  have hround := div_values hx.isFinite hy.isFinite (by rw [hy.value_eq]; exact hw.ne') hvalue h1 h2
  rw [hy.value_eq] at hround
  exact hround.shift hquotient

/-- A whole power of a whole number is rounded once, where the reciprocal is taken. -/
theorem power {base : Nat} {exponent : ℤ} (hpos : 0 < base)
    (h : base ^ (2 * exponent.natAbs) ≤ 2 ^ 53) :
    Near (Binary64.power (.ofNat base) exponent) ((base : ℚ) ^ exponent) (1 / 2 ^ 52) := by
  have hle : base ^ exponent.natAbs ≤ 2 ^ 53 :=
    (Nat.pow_le_pow_right hpos (by omega)).trans h
  have hsquaring : squaring 1 (.ofNat base) exponent.natAbs = .ofNat (base ^ exponent.natAbs) := by
    have := @squaring_ofNat 1 base exponent.natAbs hpos (by rwa [Nat.one_mul]) h
    rwa [Nat.one_mul] at this
  have hpower : Near (.ofNat (base ^ exponent.natAbs)) ((base : ℚ) ^ exponent.natAbs) 0 := by
    exact_mod_cast ofNat hle
  have hone : (1 : ℚ) ≤ (base : ℚ) ^ exponent.natAbs := one_le_pow₀ (by exact_mod_cast hpos)
  rw [Binary64.power, hsquaring]
  split
  · next hneg =>
    have hreciprocal : ((base : ℚ) ^ exponent) = 1 / (base : ℚ) ^ exponent.natAbs := by
      rw [one_div, ← zpow_natCast, ← zpow_neg, Int.ofNat_natAbs_of_nonpos hneg.le, neg_neg]
    have hlit : Near 1 1 0 := by exact_mod_cast literal (n := 1) (by norm_num)
    have hdiv := hlit.div hpower (by linarith) (A := 1)
      (by rw [abs_one, add_zero, div_le_one (by linarith)]; exact hone) le_rfl (by norm_num)
    rw [zero_div, add_zero] at hdiv
    rwa [hreciprocal]
  · next hnonneg =>
    have hexact : ((base : ℚ) ^ exponent) = (base : ℚ) ^ exponent.natAbs := by
      rw [← zpow_natCast, Int.natAbs_of_nonneg (not_lt.1 hnonneg)]
    rw [hexact]
    exact hpower.weaken (by norm_num)

/-! ## The lesser and the greater -/

theorem isNaN_eq_false (h : x.isFinite = true) : x.isNaN = false := by
  rcases x with _ | _ | _
  · cases h
  · rfl
  · rfl

/-- The lesser of a double and a bound that the exact number keeps. -/
theorem lesser (hx : Near x v e) (hy : Near y w 0) (h : v ≤ w) : Near (x.lesser y) v e := by
  rw [Binary64.lesser, isNaN_eq_false hx.isFinite, isNaN_eq_false hy.isFinite,
    if_neg Bool.false_ne_true, if_neg Bool.false_ne_true]
  split
  · next hlt =>
    rw [lt_iff hy.isFinite hx.isFinite, hy.value_eq] at hlt
    have := hx.nonneg
    exact of_bounds hy.isFinite (by rw [hy.value_eq]; linarith)
      (by rw [hy.value_eq]; linarith [hx.value_le])
  · exact hx

/-- The greater of two doubles is below a bound only if both are. -/
theorem lt_of_greater_lt {z : Binary64} (hx : x.isFinite = true) (hy : y.isFinite = true)
    (hz : z.isFinite = true) (h : x.greater y < z) : x < z ∧ y < z := by
  rw [Binary64.greater, isNaN_eq_false hx, isNaN_eq_false hy, if_neg Bool.false_ne_true,
    if_neg Bool.false_ne_true] at h
  rw [lt_iff hx hz, lt_iff hy hz]
  split at h
  · next hlt =>
    rw [lt_iff hx hy] at hlt
    rw [lt_iff hy hz] at h
    exact ⟨hlt.trans h, h⟩
  · next hge =>
    rw [lt_iff hx hy, not_lt] at hge
    rw [lt_iff hx hz] at h
    exact ⟨h, hge.trans_lt h⟩

/-! ## Whole parts -/

/-- The nearest whole number, the larger of two equally near, is one half away at most. -/
theorem abs_nearest_sub_le (num : Nat) {den : Nat} (h : 0 < den) :
    |(((2 * num + den) / (2 * den) : Nat) : ℚ) - num / den| ≤ 1 / 2 := by
  have hden : (0 : ℚ) < den := Nat.cast_pos.2 h
  have hdiv := Nat.div_add_mod (2 * num + den) (2 * den)
  have hmod := Nat.mod_lt (2 * num + den) (by omega : 0 < 2 * den)
  generalize (2 * num + den) / (2 * den) = whole at *
  have hlow : (2 * den * whole : ℚ) ≤ 2 * num + den := by
    exact_mod_cast (by omega : 2 * den * whole ≤ 2 * num + den)
  have hhigh : (2 * num + den : ℚ) ≤ 2 * den * whole + 2 * den := by
    exact_mod_cast (by omega : 2 * num + den ≤ 2 * den * whole + 2 * den)
  have hle : (whole : ℚ) - 1 / 2 ≤ num / den := by
    rw [le_div_iff₀ hden]; linarith
  have hge : (num : ℚ) / den ≤ whole + 1 / 2 := by
    rw [div_le_iff₀ hden]; linarith
  rw [abs_le]
  constructor <;> linarith

theorem round (h : Near x v e) {A : ℚ} (hA : |v| + (1 / 2 + e) ≤ A) (h2 : A ≤ 2 ^ 200) :
    Near x.round v (A / 2 ^ 53 + (1 / 2 + e)) := by
  obtain ⟨hfinite, hsub⟩ := h
  rcases x with _ | _ | ⟨a, m, hm⟩ <;> simp only [Binary64.isFinite, Bool.false_eq_true] at hfinite
  have hnearest := abs_nearest_sub_le m unitsPerOne_pos
  rw [Binary64.round]
  generalize (2 * m + unitsPerOne) / (2 * unitsPerOne) = whole at *
  have hwhole : |quotientValue a (whole * unitsPerOne) 1 - v| ≤ 1 / 2 + e := by
    have hvalue : quotientValue a (whole * unitsPerOne) 1 - (finite a m hm).value =
        sign a * ((whole : ℚ) - m / unitsPerOne) := by
      rw [quotientValue, value_finite, cast_signed, cast_signed, Nat.cast_mul, Nat.cast_one,
        one_mul, ← mul_assoc, mul_div_cancel_right₀ _ cast_unitsPerOne_pos.ne', mul_sub,
        mul_div_assoc]
    calc |quotientValue a (whole * unitsPerOne) 1 - v|
        ≤ |quotientValue a (whole * unitsPerOne) 1 - (finite a m hm).value| +
            |(finite a m hm).value - v| := abs_sub_le _ _ _
      _ ≤ 1 / 2 + e := by
          rw [hvalue, abs_mul, abs_sign, one_mul]
          exact add_le_add hnearest hsub
  have hlimit : |quotientValue a (whole * unitsPerOne) 1| ≤ A := by
    have := abs_sub_abs_le_abs_sub (quotientValue a (whole * unitsPerOne) 1) v
    linarith
  exact (ofUnits hlimit h2).shift hwhole

/-- The whole part of a number that is not negative, up to the error. -/
theorem truncate (h : Near x v e) (hv : 0 ≤ v) (hlarge : v + e < 2 ^ 62) :
    (x.truncate.toNat : ℚ) ≤ v + e ∧ v - e < x.truncate.toNat + 1 := by
  have hle := h.le_value
  have hge := h.value_le
  have hnonneg := h.nonneg
  have hU := cast_unitsPerOne_pos
  obtain ⟨hfinite, -⟩ := h
  rcases x with _ | _ | ⟨a, m, hm⟩ <;> simp only [Binary64.isFinite, Bool.false_eq_true] at hfinite
  rw [value_finite, cast_signed] at hle hge
  cases a with
  | false =>
    rw [sign_false, one_mul] at hle hge
    have hwhole : ((m / unitsPerOne : Nat) : ℚ) ≤ m / unitsPerOne := Nat.cast_div_le
    have hnext : (m : ℚ) / unitsPerOne < (m / unitsPerOne : Nat) + 1 := by
      rw [div_lt_iff₀ hU]
      have := Nat.lt_div_mul_add unitsPerOne_pos (a := m)
      rw [← Nat.succ_mul] at this
      exact_mod_cast this
    have hsmall : m / unitsPerOne < 2 ^ 62 := by
      exact_mod_cast (by linarith : ((m / unitsPerOne : Nat) : ℚ) < 2 ^ 62)
    have htruncate : (finite false m hm).truncate.toNat = m / unitsPerOne := by
      simp only [Binary64.truncate, signed, Bool.false_eq_true, if_false]
      generalize m / unitsPerOne = whole at hsmall ⊢
      omega
    rw [htruncate]
    constructor <;> linarith
  | true =>
    have htruncate : (finite true m hm).truncate.toNat = 0 := by
      simp only [Binary64.truncate, signed, if_true]
      generalize m / unitsPerOne = whole
      omega
    have hvalue : (0 : ℚ) ≤ m / unitsPerOne := div_nonneg (Nat.cast_nonneg _) hU.le
    rw [sign_true, neg_one_mul, neg_div] at hle hge
    rw [htruncate, Nat.cast_zero]
    constructor <;> linarith

/-! ## Remainders -/

theorem exists_of_value_pos {x : Binary64} (h : x.isFinite = true) (hpos : 0 < x.value) :
    ∃ n hn, x = finite false n hn ∧ 0 < n := by
  have hU := cast_unitsPerOne_pos
  rcases x with _ | _ | ⟨negative, n, hn⟩ <;>
    simp only [Binary64.isFinite, Bool.false_eq_true] at h
  rw [value_finite, cast_signed] at hpos
  cases negative with
  | false =>
    refine ⟨n, hn, rfl, Nat.pos_of_ne_zero fun hzero => ?_⟩
    rw [hzero, Nat.cast_zero, mul_zero, zero_div] at hpos
    exact lt_irrefl _ hpos
  | true =>
    have : (0 : ℚ) ≤ n / unitsPerOne := div_nonneg (Nat.cast_nonneg _) hU.le
    rw [sign_true, neg_one_mul, neg_div] at hpos
    linarith

/-- A division toward zero leaves an exact number, which is on the side of the dividend. -/
theorem exists_mod (hx : x.isFinite = true) (hy : Near y w 0) (hw : 0 < w) :
    ∃ k : ℤ, Near (x % y) (x.value - k * w) 0 ∧ |x.value - k * w| < w ∧
      (x.value < 0 ∨ 0 ≤ x.value - k * w) := by
  have hU := cast_unitsPerOne_pos
  obtain rfl := hy.value_eq
  obtain ⟨n, hn, rfl, hn0⟩ := exists_of_value_pos hy.isFinite hw
  rcases x with _ | _ | ⟨a, m, hm⟩ <;> simp only [Binary64.isFinite, Bool.false_eq_true] at hx
  have hdivision : (m : ℚ) = n * (m / n : Nat) + (m % n : Nat) := by
    exact_mod_cast (Nat.div_add_mod m n).symm
  have hrest : (finite a m hm).value - (signed a (m / n) : ℤ) * (finite false n hn).value =
      (signed a (m % n) : ℤ) / unitsPerOne := by
    rw [value_finite, value_finite, cast_signed, cast_signed, cast_signed, cast_signed, hdivision,
      sign_false]
    ring
  refine ⟨signed a (m / n), ?_, ?_, ?_⟩
  · rw [hrest, finite_mod_finite hm hn hn0, ← value_finite _ _ (representable_mod hm hn hn0)]
    exact self rfl
  · rw [hrest, abs_div, abs_signed, abs_of_pos hU, value_finite, cast_signed,
      sign_false, one_mul]
    exact div_lt_div_of_pos_right (Nat.cast_lt.2 (Nat.mod_lt m hn0)) hU
  · rw [hrest, value_finite, cast_signed, cast_signed]
    cases a with
    | false =>
      right
      rw [sign_false, one_mul]
      exact div_nonneg (Nat.cast_nonneg _) hU.le
    | true =>
      rcases Nat.eq_zero_or_pos m with rfl | hpos
      · right
        rw [Nat.zero_mod, Nat.cast_zero, mul_zero, zero_div]
      · left
        rw [sign_true, neg_one_mul]
        exact div_neg_of_neg_of_pos (neg_lt_zero.2 (Nat.cast_pos.2 hpos)) hU

/-- The remainder moved to the positive side is rounded once. -/
theorem exists_euclideanRem (hx : x.isFinite = true) (hy : Near y w 0) (hw : 0 < w)
    (h2 : w ≤ 2 ^ 200) :
    ∃ k : ℤ, Near (x.euclideanRem y) (x.value - k * w) (w / 2 ^ 53) ∧
      0 ≤ x.value - k * w ∧ x.value - k * w < w := by
  obtain ⟨k, hmod, hlt, hside⟩ := exists_mod hx hy hw
  have hzero : Near 0 0 0 := by exact_mod_cast ofNat (Nat.zero_le (2 ^ 53))
  have hsmall : 0 ≤ w / 2 ^ 53 := div_nonneg hw.le (by norm_num)
  rw [abs_lt] at hlt
  unfold Binary64.euclideanRem
  split
  · next hneg =>
    have hneg := hmod.sub_lt_add hzero hneg
    have habs := hy.abs
    rw [abs_of_pos hw] at habs
    have hsum : |x.value - k * w + w| + (0 + 0) ≤ w := by
      rw [abs_of_pos (by linarith)]
      linarith
    refine ⟨k - 1, ?_, ?_, ?_⟩
    · have := hmod.add habs hsum h2
      rw [add_zero, add_zero] at this
      convert this using 1
      push_cast; ring
    · push_cast; linarith
    · push_cast; linarith
  · next hpos =>
    have hpos := hmod.sub_le_add hzero hpos
    exact ⟨k, hmod.weaken hsmall, by linarith, by linarith⟩

end Near

/-! ## Degrees that occur as literals -/

theorem near_two : Near 2 2 0 := by exact_mod_cast Near.literal (n := 2) (by norm_num)

theorem near_ninety : Near 90 90 0 := by exact_mod_cast Near.literal (n := 90) (by norm_num)

theorem near_halfTurn : Near 180 180 0 := by exact_mod_cast Near.literal (n := 180) (by norm_num)

theorem near_turn : Near 360 360 0 := by exact_mod_cast Near.literal (n := 360) (by norm_num)

end OpenLocation.Binary64
