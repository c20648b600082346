import OpenLocation.Binary64.Arithmetic
import Mathlib

/-!
# The numbers that doubles stand for

`Binary64.value` is the rational number of a finite double, and comparisons of
finite doubles are comparisons of these. One rounding moves a number by at most the
2⁻⁵³rd part of it and half a unit (`abs_value_ofQuotient_sub_le`), and leaves a
number alone that is a double already (`ofQuotient_of_representable`).
-/

namespace OpenLocation

theorem unitsPerOne_pos : 0 < unitsPerOne := Nat.two_pow_pos _

theorem cast_unitsPerOne_pos : (0 : ℚ) < unitsPerOne := Nat.cast_pos.2 unitsPerOne_pos

theorem two_pow_le_unitsPerOne {k : Nat} (h : k ≤ unitShift) : 2 ^ k ≤ unitsPerOne := by
  unfold unitsPerOne
  generalize unitShift = shift at h ⊢
  exact Nat.pow_le_pow_right two_pos h

/-- The sign of a number as a factor. -/
def sign (negative : Bool) : ℚ := if negative then -1 else 1

theorem sign_false : sign false = 1 := rfl

theorem sign_true : sign true = -1 := rfl

theorem sign_not (negative : Bool) : sign (!negative) = -sign negative := by
  cases negative <;> norm_num [sign]

theorem sign_bne (a b : Bool) : sign (a != b) = sign a * sign b := by
  cases a <;> cases b <;> norm_num [sign]

theorem abs_sign (negative : Bool) : |sign negative| = 1 := by
  cases negative <;> norm_num [sign]

theorem sign_mul_self (negative : Bool) : sign negative * sign negative = 1 := by
  cases negative <;> norm_num [sign]

theorem cast_signed (negative : Bool) (n : Nat) :
    ((signed negative n : Int) : ℚ) = sign negative * n := by
  cases negative <;> simp [signed, sign]

theorem abs_signed (negative : Bool) (n : Nat) : |((signed negative n : Int) : ℚ)| = n := by
  rw [cast_signed, abs_mul, abs_sign, one_mul, Nat.abs_cast]

theorem signed_natAbs (i : Int) : signed (decide (i < 0)) i.natAbs = i := by
  rcases lt_or_ge i 0 with hneg | hpos
  · rw [signed, decide_eq_true hneg, if_pos rfl, Int.ofNat_natAbs_of_nonpos hneg.le, Int.neg_neg]
  · rw [signed, decide_eq_false (Int.not_lt.2 hpos), if_neg Bool.false_ne_true,
      Int.natAbs_of_nonneg hpos]

theorem two_pow_mul_unitsPerOne_lt {k : Nat} (h : k < 1024) :
    2 ^ k * unitsPerOne < unitLimit := by
  rw [unitsPerOne, unitLimit, ← Nat.pow_add, limitShift]
  exact Nat.pow_lt_pow_right one_lt_two (Nat.add_lt_add_right h _)

namespace Binary64

/-- The number that a finite double stands for; zero for the others. -/
def value : Binary64 → ℚ
  | finite negative units _ => signed negative units / unitsPerOne
  | _ => 0

theorem value_finite (negative : Bool) (units : Nat) (h : Representable units) :
    (finite negative units h).value = signed negative units / unitsPerOne := rfl

/-! ## Order -/

theorem lt_iff_less {a b : Binary64} : a < b ↔ a.less b = true := Iff.rfl

theorem le_iff_atMost {a b : Binary64} : a ≤ b ↔ a.atMost b = true := Iff.rfl

theorem lt_iff {a b : Binary64} (ha : a.isFinite = true) (hb : b.isFinite = true) :
    a < b ↔ a.value < b.value := by
  cases a <;> cases b <;> simp only [isFinite, Bool.false_eq_true] at ha hb
  rw [value_finite, value_finite, div_lt_div_iff_of_pos_right cast_unitsPerOne_pos, Int.cast_lt]
  simp [lt_iff_less, less, rank]

theorem le_iff {a b : Binary64} (ha : a.isFinite = true) (hb : b.isFinite = true) :
    a ≤ b ↔ a.value ≤ b.value := by
  cases a <;> cases b <;> simp only [isFinite, Bool.false_eq_true] at ha hb
  rw [value_finite, value_finite, div_le_div_iff_of_pos_right cast_unitsPerOne_pos, Int.cast_le]
  simp [le_iff_atMost, atMost, rank]

/-! ## One rounding -/

/-- Rounding to a whole number moves a quotient by at most one half. -/
theorem abs_nearestEven_sub_le (num : Nat) {den : Nat} (h : 0 < den) :
    |(nearestEven num den : ℚ) - num / den| ≤ 1 / 2 := by
  have hden : (0 : ℚ) < den := Nat.cast_pos.2 h
  have hmod := Nat.mod_lt num h
  have hnum : (num : ℚ) = den * (num / den : Nat) + (num % den : Nat) := by
    exact_mod_cast (Nat.div_add_mod num den).symm
  have hquotient : (num : ℚ) / den = (num / den : Nat) + (num % den : Nat) / den := by
    rw [hnum, add_div, mul_div_cancel_left₀ _ hden.ne']
  have hpart : (num % den : Nat) / (den : ℚ) * den = (num % den : Nat) :=
    div_mul_cancel₀ _ hden.ne'
  rw [hquotient, abs_le]
  unfold nearestEven
  split
  · next hlow =>
    have hlow : 2 * ((num % den : Nat) : ℚ) ≤ den := by
      exact_mod_cast (by omega : 2 * (num % den) ≤ den)
    have : (num % den : Nat) / (den : ℚ) ≤ 1 / 2 := by
      rw [div_le_div_iff₀ hden two_pos]; linarith
    have : (0 : ℚ) ≤ (num % den : Nat) / (den : ℚ) := by positivity
    constructor <;> linarith
  · next hhigh =>
    have hhigh : (den : ℚ) ≤ 2 * ((num % den : Nat) : ℚ) := by
      exact_mod_cast (by omega : den ≤ 2 * (num % den))
    have : (1 : ℚ) / 2 ≤ (num % den : Nat) / (den : ℚ) := by
      rw [div_le_div_iff₀ two_pos hden]; linarith
    have : (num % den : Nat) / (den : ℚ) ≤ 1 := by
      rw [div_le_one hden]; exact_mod_cast hmod.le
    push_cast
    constructor <;> linarith

/-- A last bit kept that is worth more than one unit is at most the 2⁵²nd part. -/
theorem two_pow_shift_le {num den : Nat} (h : 0 < (num / den).log2 - 52) :
    (2 : ℚ) ^ ((num / den).log2 - 52) ≤ num / den / 2 ^ 52 := by
  have hne : num / den ≠ 0 := by
    intro h0; simp [h0] at h
  have hlog : 2 ^ ((num / den).log2 - 52) * 2 ^ 52 ≤ num / den := by
    rw [← Nat.pow_add, Nat.sub_add_cancel (by omega)]
    exact Nat.log2_self_le hne
  rw [le_div_iff₀ (by positivity)]
  calc (2 : ℚ) ^ ((num / den).log2 - 52) * 2 ^ 52 ≤ (num / den : Nat) := by exact_mod_cast hlog
    _ ≤ num / den := Nat.cast_div_le

/-- Rounding moves a quotient of units by at most half of the last bit kept. -/
theorem abs_roundUnits_sub_le_shift (num : Nat) {den : Nat} (h : 0 < den) :
    |(roundUnits num den : ℚ) - num / den| ≤ 2 ^ ((num / den).log2 - 52) / 2 := by
  have hpow : (0 : ℚ) < 2 ^ ((num / den).log2 - 52) := by positivity
  have hround := abs_nearestEven_sub_le num
    (Nat.mul_pos h (Nat.two_pow_pos ((num / den).log2 - 52)))
  unfold roundUnits
  generalize (num / den).log2 - 52 = shift at *
  push_cast at hround ⊢
  have hsplit : (nearestEven num (den * 2 ^ shift) : ℚ) * 2 ^ shift - num / den =
      (nearestEven num (den * 2 ^ shift) - num / (den * 2 ^ shift)) * 2 ^ shift := by
    field_simp
  rw [hsplit, abs_mul, abs_of_pos hpow]
  linarith [mul_le_mul_of_nonneg_right hround hpow.le]

theorem abs_roundUnits_sub_le (num : Nat) {den : Nat} (h : 0 < den) :
    |(roundUnits num den : ℚ) - num / den| ≤ num / den / 2 ^ 53 + 1 / 2 := by
  have hround := abs_roundUnits_sub_le_shift num h
  have hq : (0 : ℚ) ≤ num / den / 2 ^ 53 := by positivity
  rcases Nat.eq_zero_or_pos ((num / den).log2 - 52) with hz | hpos
  · rw [hz] at hround
    linarith
  · have := two_pow_shift_le hpos
    linarith

theorem nearestEven_of_dvd {num den : Nat} (hden : 0 < den) (h : den ∣ num) :
    nearestEven num den = num / den := by
  rw [nearestEven, Nat.mod_eq_zero_of_dvd h, if_pos (Or.inl (by omega))]

theorem nearestEven_mul_right {k : Nat} (hk : 0 < k) (num den : Nat) :
    nearestEven (num * k) (den * k) = nearestEven num den := by
  have hlt : 2 * (num % den * k) < den * k ↔ 2 * (num % den) < den := by
    rw [← Nat.mul_assoc]
    exact Nat.mul_lt_mul_right hk
  have heq : 2 * (num % den * k) = den * k ↔ 2 * (num % den) = den := by
    rw [← Nat.mul_assoc]
    exact Nat.mul_left_inj hk.ne'
  unfold nearestEven
  simp only [Nat.mul_mod_mul_right, Nat.mul_div_mul_right _ _ hk, hlt, heq]

/-- A quotient is rounded the same in any terms. -/
theorem roundUnits_mul_right {k : Nat} (hk : 0 < k) (num den : Nat) :
    roundUnits (num * k) (den * k) = roundUnits num den := by
  unfold roundUnits
  rw [Nat.mul_div_mul_right _ _ hk, Nat.mul_right_comm, nearestEven_mul_right hk]

/-- A whole number of units that is a double is its own rounding. -/
theorem roundUnits_mul_self {units den : Nat} (hden : 0 < den)
    (h : 2 ^ (units.log2 - 52) ∣ units) : roundUnits (units * den) den = units := by
  have hdvd : den * 2 ^ (units.log2 - 52) ∣ units * den := by
    rw [Nat.mul_comm units]
    exact Nat.mul_dvd_mul_left den h
  rw [roundUnits, Nat.mul_div_cancel _ hden,
    nearestEven_of_dvd (Nat.mul_pos hden (Nat.two_pow_pos _)) hdvd, ← Nat.div_div_eq_div_mul,
    Nat.mul_div_cancel _ hden, Nat.div_mul_cancel h]

theorem roundUnits_of_dvd {units : Nat} (h : 2 ^ (units.log2 - 52) ∣ units) :
    roundUnits units 1 = units := by
  simpa only [Nat.mul_one] using roundUnits_mul_self one_pos h

/-- A whole number of units is not rounded below its last unit. -/
theorem abs_roundUnits_one_sub_le (units : Nat) :
    |(roundUnits units 1 : ℚ) - units| ≤ units / 2 ^ 53 := by
  have hround := abs_roundUnits_sub_le_shift units one_pos
  rcases Nat.eq_zero_or_pos (units.log2 - 52) with hz | hpos
  · rw [roundUnits_of_dvd (by rw [hz]; exact one_dvd _), sub_self, abs_zero]
    positivity
  · have := @two_pow_shift_le units 1 (by rwa [Nat.div_one])
    simp only [Nat.cast_one, div_one, Nat.div_one] at hround this
    linarith

/-- The signed quotient of units that `ofQuotient` rounds. -/
def quotientValue (negative : Bool) (num den : Nat) : ℚ :=
  signed negative num / (den * unitsPerOne)

theorem abs_quotientValue (negative : Bool) (num den : Nat) :
    |quotientValue negative num den| = num / den / unitsPerOne := by
  rw [quotientValue, abs_div, abs_signed, abs_of_nonneg (by positivity), div_div]

theorem quotientValue_natAbs (i : Int) :
    quotientValue (decide (i < 0)) i.natAbs 1 = i / unitsPerOne := by
  rw [quotientValue, signed_natAbs, Nat.cast_one, one_mul]

theorem value_ofQuotient {negative : Bool} {num den : Nat}
    (h : (ofQuotient negative num den).isFinite = true) :
    (ofQuotient negative num den).value = signed negative (roundUnits num den) / unitsPerOne := by
  unfold ofQuotient at h ⊢
  split at h
  · next hlt =>
    rw [dif_pos hlt]
    exact value_finite ..
  · cases h

/-- What a rounding moves a number by, from what it moves the units by. -/
theorem abs_value_ofQuotient_sub {negative : Bool} {num den : Nat}
    (h : (ofQuotient negative num den).isFinite = true) :
    |(ofQuotient negative num den).value - quotientValue negative num den| =
      |(roundUnits num den : ℚ) - num / den| / unitsPerOne := by
  have hU := cast_unitsPerOne_pos
  have hsplit : ((signed negative (roundUnits num den) : Int) : ℚ) / unitsPerOne -
      quotientValue negative num den =
      sign negative * ((roundUnits num den : ℚ) - num / den) / unitsPerOne := by
    rw [quotientValue, cast_signed, cast_signed]
    field_simp
  rw [value_ofQuotient h, hsplit, abs_div, abs_mul, abs_sign, one_mul, abs_of_pos hU]

/-- One rounding moves a number by at most its 2⁵³rd part and half a unit. -/
theorem abs_value_ofQuotient_sub_le {negative : Bool} {num den : Nat} (hden : 0 < den)
    (h : (ofQuotient negative num den).isFinite = true) :
    |(ofQuotient negative num den).value - quotientValue negative num den| ≤
      |quotientValue negative num den| / 2 ^ 53 + 1 / (2 * unitsPerOne) := by
  have hU := cast_unitsPerOne_pos
  rw [abs_value_ofQuotient_sub h, abs_quotientValue, div_le_iff₀ hU]
  calc |(roundUnits num den : ℚ) - num / den|
      ≤ num / den / 2 ^ 53 + 1 / 2 := abs_roundUnits_sub_le num hden
    _ = (num / den / unitsPerOne / 2 ^ 53 + 1 / (2 * unitsPerOne)) * unitsPerOne := by
      field_simp

/-- The rounding of whole units moves a number by at most its 2⁵³rd part. -/
theorem abs_value_ofQuotient_one_sub_le {negative : Bool} {units : Nat}
    (h : (ofQuotient negative units 1).isFinite = true) :
    |(ofQuotient negative units 1).value - quotientValue negative units 1| ≤
      |quotientValue negative units 1| / 2 ^ 53 := by
  have hround := abs_roundUnits_one_sub_le units
  rw [abs_value_ofQuotient_sub h, abs_quotientValue, Nat.cast_one, div_one, div_right_comm]
  exact div_le_div_of_nonneg_right hround cast_unitsPerOne_pos.le

/-- Far below the limit a rounding is finite. -/
theorem isFinite_ofQuotient {negative : Bool} {num den : Nat} (hden : 0 < den)
    (h : |quotientValue negative num den| ≤ 2 ^ 200) :
    (ofQuotient negative num den).isFinite = true := by
  have hround := (abs_le.1 (abs_roundUnits_sub_le num hden)).2
  have hU : (1 : ℚ) ≤ unitsPerOne := Nat.one_le_cast.2 unitsPerOne_pos
  rw [abs_quotientValue, div_le_iff₀ (by linarith)] at h
  have hpart : (num : ℚ) / den / 2 ^ 53 ≤ num / den :=
    div_le_self (div_nonneg (Nat.cast_nonneg _) (Nat.cast_nonneg _)) (by norm_num)
  have hlimit : (2 : ℚ) ^ 202 * unitsPerOne < unitLimit := by
    exact_mod_cast two_pow_mul_unitsPerOne_lt (by norm_num : 202 < 1024)
  have hlt : (roundUnits num den : ℚ) < unitLimit := by linarith
  unfold ofQuotient
  rw [dif_pos (by exact_mod_cast hlt)]
  rfl

theorem ofQuotient_mul_right (negative : Bool) {k : Nat} (hk : 0 < k) (num den : Nat) :
    ofQuotient negative (num * k) (den * k) = ofQuotient negative num den := by
  unfold ofQuotient
  simp only [roundUnits_mul_right hk]

/-! ## Whole numbers -/

/-- A double is its own rounding. -/
theorem ofQuotient_mul_self (negative : Bool) {units den : Nat} (hden : 0 < den)
    (h : Representable units) :
    ofQuotient negative (units * den) den = finite negative units h := by
  have hround := roundUnits_mul_self hden h.2
  unfold ofQuotient
  rw [dif_pos (hround.symm ▸ h.1)]
  simp only [hround]

theorem ofQuotient_of_representable (negative : Bool) {units : Nat} (h : Representable units) :
    ofQuotient negative units 1 = finite negative units h := by
  simpa only [Nat.mul_one] using ofQuotient_mul_self negative one_pos h

theorem representable_mul_unitsPerOne {n : Nat} (h : n ≤ 2 ^ 53) :
    Representable (n * unitsPerOne) := by
  refine ⟨?_, two_pow_log2_dvd_mul h⟩
  calc n * unitsPerOne ≤ 2 ^ 53 * unitsPerOne := Nat.mul_le_mul_right _ h
    _ < unitLimit := two_pow_mul_unitsPerOne_lt (by norm_num)

theorem ofNat_eq {n : Nat} (h : n ≤ 2 ^ 53) :
    ofNat n = finite false (n * unitsPerOne) (representable_mul_unitsPerOne h) :=
  ofQuotient_of_representable false _

theorem ofInt_eq {i : Int} (h : i.natAbs ≤ 2 ^ 53) :
    ofInt i = finite (decide (i < 0)) (i.natAbs * unitsPerOne)
      (representable_mul_unitsPerOne h) :=
  ofQuotient_of_representable _ _

theorem ofInt_natCast (n : Nat) : ofInt n = ofNat n := by
  have hnonneg : ¬ (n : Int) < 0 := by omega
  rw [ofInt, ofNat, Int.natAbs_natCast, decide_eq_false hnonneg]

theorem value_ofNat {n : Nat} (h : n ≤ 2 ^ 53) : (ofNat n).value = n := by
  rw [ofNat_eq h, value_finite, signed]
  push_cast
  exact mul_div_cancel_right₀ _ cast_unitsPerOne_pos.ne'

theorem value_ofInt {i : Int} (h : i.natAbs ≤ 2 ^ 53) : (ofInt i).value = i := by
  have hsigned := cast_signed (decide (i < 0)) i.natAbs
  rw [signed_natAbs] at hsigned
  rw [ofInt_eq h, value_finite, cast_signed, Nat.cast_mul, ← mul_assoc, ← hsigned]
  exact mul_div_cancel_right₀ _ cast_unitsPerOne_pos.ne'

theorem ofNat_mul {m n : Nat} (hm : m ≤ 2 ^ 53) (hn : n ≤ 2 ^ 53) (h : m * n ≤ 2 ^ 53) :
    ofNat m * ofNat n = ofNat (m * n) := by
  have hunits : m * unitsPerOne * (n * unitsPerOne) = m * n * unitsPerOne * unitsPerOne := by
    rw [Nat.mul_mul_mul_comm, Nat.mul_assoc (m * n)]
  rw [ofNat_eq hm, ofNat_eq hn, ofNat_eq h]
  show mul _ _ = _
  rw [mul, hunits, bne_self_eq_false, ofQuotient_mul_self false unitsPerOne_pos]

/-- A quotient of whole numbers is the same in lower terms. -/
theorem ofNat_mul_div_ofNat_mul {a b k : Nat} (hk : 0 < k) (hb : 0 < b) (ha : a * k ≤ 2 ^ 53)
    (hb' : b * k ≤ 2 ^ 53) : ofNat (a * k) / ofNat (b * k) = ofNat a / ofNat b := by
  have hle (n : Nat) (h : n * k ≤ 2 ^ 53) : n ≤ 2 ^ 53 := (Nat.le_mul_of_pos_right n hk).trans h
  have hleft : b * k * unitsPerOne ≠ 0 := (Nat.mul_pos (Nat.mul_pos hb hk) unitsPerOne_pos).ne'
  have hright : b * unitsPerOne ≠ 0 := (Nat.mul_pos hb unitsPerOne_pos).ne'
  rw [ofNat_eq ha, ofNat_eq hb', ofNat_eq (hle a ha), ofNat_eq (hle b hb')]
  show div _ _ = div _ _
  simp only [div]
  rw [if_neg hleft, if_neg hright, Nat.mul_right_comm a, Nat.mul_right_comm b,
    Nat.mul_right_comm _ k, ofQuotient_mul_right _ hk]

/-- Powers of whole numbers are exact as long as the squares on the way are. -/
theorem squaring_ofNat {product base exponent : Nat} (hpos : 0 < base)
    (h : product * base ^ exponent ≤ 2 ^ 53) (hsquare : base ^ (2 * exponent) ≤ 2 ^ 53) :
    squaring (ofNat product) (ofNat base) exponent = ofNat (product * base ^ exponent) := by
  induction exponent using Nat.strong_induction_on generalizing product base with
  | _ exponent ih =>
    unfold squaring
    split
    · next hz => rw [hz, pow_zero, mul_one]
    · next hne =>
      have hbase : base ≤ base ^ (2 * exponent) := Nat.le_self_pow (by omega) base
      have hbases : base * base ≤ base ^ (2 * exponent) := by
        rw [← pow_two]
        exact Nat.pow_le_pow_right hpos (by omega)
      have hpow : base ^ exponent = base ^ (exponent % 2) * (base * base) ^ (exponent / 2) := by
        rw [← pow_two, ← pow_mul, ← pow_add, Nat.mod_add_div]
      have hhalf : 0 < (base * base) ^ (exponent / 2) := Nat.pow_pos (Nat.mul_pos hpos hpos)
      rw [hpow, ← mul_assoc] at h ⊢
      have hproduct := (Nat.le_mul_of_pos_right _ hhalf).trans h
      have hfirst := (Nat.le_mul_of_pos_right product (Nat.pow_pos hpos)).trans hproduct
      have hnext : (if exponent % 2 = 1 then ofNat product * ofNat base else ofNat product) =
          ofNat (product * base ^ (exponent % 2)) := by
        split
        · next hodd =>
          rw [hodd, pow_one] at hproduct ⊢
          exact ofNat_mul hfirst (hbase.trans hsquare) hproduct
        · next heven => rw [show exponent % 2 = 0 by omega, pow_zero, mul_one]
      have hsquares : (base * base) ^ (2 * (exponent / 2)) ≤ 2 ^ 53 := by
        rw [← pow_two, ← pow_mul]
        exact (Nat.pow_le_pow_right hpos (by omega)).trans hsquare
      rw [hnext, ofNat_mul (hbase.trans hsquare) (hbase.trans hsquare) (hbases.trans hsquare)]
      exact ih _ (by omega) (Nat.mul_pos hpos hpos) h hsquares

/-! ## Signs -/

theorem value_neg (x : Binary64) : (-x).value = -x.value := by
  show (neg x).value = -x.value
  rcases x with _ | negative | ⟨negative, units, h⟩
  · exact neg_zero.symm
  · exact neg_zero.symm
  · rw [neg, value_finite, value_finite, cast_signed, cast_signed, sign_not, neg_mul, neg_div]

theorem isFinite_neg (x : Binary64) : (-x).isFinite = x.isFinite := by
  cases x <;> rfl

theorem value_abs (x : Binary64) : x.abs.value = |x.value| := by
  rcases x with _ | negative | ⟨negative, units, h⟩
  · exact abs_zero.symm
  · exact abs_zero.symm
  · rw [abs, value_finite, value_finite, abs_div, abs_signed, abs_of_pos cast_unitsPerOne_pos]
    rfl

theorem isFinite_abs (x : Binary64) : x.abs.isFinite = x.isFinite := by
  cases x <;> rfl

theorem value_zero (negative : Bool) : (zero negative).value = 0 := by
  show (signed negative 0 : ℚ) / unitsPerOne = 0
  rw [cast_signed, Nat.cast_zero, mul_zero, zero_div]

/-! ## Remainders -/

theorem log2_le_log2 {m n : Nat} (h : m ≤ n) : m.log2 ≤ n.log2 := by
  rcases Nat.eq_zero_or_pos m with rfl | hm
  · rw [Nat.log2_zero]
    exact Nat.zero_le _
  · exact (Nat.le_log2 (by omega)).2 ((Nat.log2_self_le hm.ne').trans h)

/-- A remainder has no bit below the last ones of both numbers, so it is a double. -/
theorem representable_mod {m n : Nat} (hm : Representable m) (hn : Representable n)
    (hpos : 0 < n) : Representable (m % n) := by
  have hle := log2_le_log2 (Nat.mod_le m n)
  have hlt := log2_le_log2 (Nat.mod_lt m hpos).le
  refine ⟨(Nat.mod_le m n).trans_lt hm.1, ?_⟩
  rw [Nat.dvd_mod_iff ((Nat.pow_dvd_pow 2 (by omega)).trans hn.2)]
  exact (Nat.pow_dvd_pow 2 (by omega)).trans hm.2

theorem finite_mod_finite {a b : Bool} {m n : Nat} (hm : Representable m) (hn : Representable n)
    (hpos : 0 < n) :
    finite a m hm % finite b n hn = finite a (m % n) (representable_mod hm hn hpos) := by
  show rem _ _ = _
  rw [rem, if_neg hpos.ne', ofQuotient_of_representable]

end Binary64

end OpenLocation
