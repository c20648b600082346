import OpenLocation.Decimal.Numeral
import OpenLocation.Proofs.Binary64.Order

/-!
# Shortest decimals read back

The interval around a double holds just the numbers that round to it (`roundUnits_of_has`). The
shortest decimal is a point of that interval, whichever way ties go, and a decimal is rounded by
its value alone, however its digits are divided between coefficient and exponent. So every
decimal of that value is read as the double (`toBinary64_of_value_eq`).
-/

namespace OpenLocation

/-! ## Numbers that round to a double -/

/-- What is within one half of a whole number is rounded to it, at one half if it is even. -/
theorem nearestEven_eq {num den m : Nat} (hden : 0 < den) (hlow : 2 * (m * den) ≤ 2 * num + den)
    (hhigh : 2 * num ≤ 2 * (m * den) + den)
    (htie : 2 * (m * den) = 2 * num + den ∨ 2 * num = 2 * (m * den) + den → m % 2 = 0) :
    nearestEven num den = m := by
  have hnum := Nat.div_add_mod' num den
  have hrest := Nat.mod_lt num hden
  unfold nearestEven
  generalize num / den = q at *
  generalize num % den = r at *
  have hle : q ≤ m := by
    by_contra hlt
    have := Nat.mul_le_mul_right den (Nat.succ_le_of_lt (Nat.lt_of_not_le hlt))
    rw [Nat.succ_mul] at this
    omega
  have hge : m ≤ q + 1 := by
    by_contra hlt
    have := Nat.mul_le_mul_right den (Nat.succ_le_of_lt (Nat.lt_of_not_le hlt))
    rw [Nat.succ_mul, Nat.succ_mul] at this
    omega
  rcases Nat.lt_or_eq_of_le hge with hlt | rfl
  · obtain rfl : m = q := by omega
    rw [if_pos (by omega)]
  · have := Nat.add_one_mul q den
    rw [if_neg (by omega)]

theorem log2_sub_eq {n shift : Nat} (hlow : shift = 0 ∨ 2 ^ 52 * 2 ^ shift ≤ n)
    (hhigh : n < 2 ^ 53 * 2 ^ shift) : n.log2 - 52 = shift := by
  rw [← Nat.pow_add] at hlow hhigh
  rcases Nat.eq_zero_or_pos n with rfl | hpos
  · rcases hlow with rfl | hlow
    · rfl
    · exact absurd (Nat.two_pow_pos _) (Nat.not_lt.2 hlow)
  have hlt := (Nat.log2_lt hpos.ne').2 hhigh
  rcases hlow with rfl | hlow
  · omega
  · have := (Nat.le_log2 hpos.ne').2 hlow
    omega

/-- A quotient of units near a multiple of the last bit that is kept of it. -/
theorem roundUnits_eq {num den m shift : Nat} (hden : 0 < den)
    (hlow : shift = 0 ∨ 2 ^ 52 * (den * 2 ^ shift) ≤ num)
    (hhigh : num < 2 ^ 53 * (den * 2 ^ shift))
    (hnear : 2 * (m * (den * 2 ^ shift)) ≤ 2 * num + den * 2 ^ shift)
    (hnear' : 2 * num ≤ 2 * (m * (den * 2 ^ shift)) + den * 2 ^ shift)
    (htie : 2 * (m * (den * 2 ^ shift)) = 2 * num + den * 2 ^ shift ∨
      2 * num = 2 * (m * (den * 2 ^ shift)) + den * 2 ^ shift → m % 2 = 0) :
    roundUnits num den = m * 2 ^ shift := by
  have hshift : (num / den).log2 - 52 = shift := by
    refine log2_sub_eq (hlow.imp_right fun h => ?_) ?_
    · rw [Nat.le_div_iff_mul_le hden, Nat.mul_assoc, Nat.mul_comm _ den]
      exact h
    · rw [Nat.div_lt_iff_lt_mul hden, Nat.mul_assoc, Nat.mul_comm _ den]
      exact hhigh
  rw [roundUnits, hshift, nearestEven_eq (Nat.mul_pos hden (Nat.two_pow_pos _)) hnear hnear' htie]

/-- Equal quotients of units are rounded the same. -/
theorem roundUnits_congr {num den num' den' : Nat} (hden : 0 < den) (hden' : 0 < den')
    (h : num * den' = num' * den) : roundUnits num den = roundUnits num' den' :=
  Nat.le_antisymm (roundUnits_le_roundUnits hden hden' h.le)
    (roundUnits_le_roundUnits hden' hden h.ge)

namespace Decimal

theorem stepsPerUnit_pos : 0 < stepsPerUnit := Nat.pow_pos (by decide)

/-! ## The interval around a double -/

/--
The step down from a double in half units of its last bit: half as large under a power of two,
where the bits are finer.
-/
def stepBelow (units : Nat) : Nat :=
  if 1 < 2 ^ (units.log2 - 52) ∧ units = 2 ^ 52 * 2 ^ (units.log2 - 52) then
    2 ^ (units.log2 - 52)
  else 2 * 2 ^ (units.log2 - 52)

theorem around_eq (units : Nat) :
    Interval.around units =
      { low := (4 * units - stepBelow units) * stepsPerUnit
        high := (4 * units + 2 * 2 ^ (units.log2 - 52)) * stepsPerUnit
        closed := decide (units / 2 ^ (units.log2 - 52) % 2 = 0) } := rfl

theorem Interval.has_iff {interval : Interval} {steps : Nat} :
    interval.has steps = true ↔
      (interval.low ≤ 4 * steps ∧ 4 * steps ≤ interval.high) ∧
        (interval.low = 4 * steps ∨ 4 * steps = interval.high → interval.closed = true) := by
  unfold Interval.has
  cases interval.closed with
  | true => simp
  | false =>
    simp only [Bool.false_eq_true, if_false, decide_eq_true_iff, imp_false, not_or]
    omega

theorem stepBelow_cases (units : Nat) :
    (stepBelow units = 2 ^ (units.log2 - 52) ∧ units.log2 - 52 ≠ 0 ∧
        units = 2 ^ 52 * 2 ^ (units.log2 - 52)) ∨
      (stepBelow units = 2 * 2 ^ (units.log2 - 52) ∧
        (units.log2 - 52 = 0 ∨ units ≠ 2 ^ 52 * 2 ^ (units.log2 - 52))) := by
  unfold stepBelow
  split
  · next h => exact Or.inl ⟨rfl, fun hzero => by simp [hzero] at h, h.2⟩
  · next h =>
    refine Or.inr ⟨rfl, or_iff_not_imp_left.2 fun hne heq => h ⟨?_, heq⟩⟩
    exact Nat.one_lt_two_pow hne

/-- The significand of a double and the place of its last bit. -/
theorem exists_significand {units : Nat} (hpos : 0 < units)
    (hdvd : 2 ^ (units.log2 - 52) ∣ units) :
    ∃ m, units = m * 2 ^ (units.log2 - 52) ∧ m < 2 ^ 53 ∧ (units.log2 - 52 = 0 ∨ 2 ^ 52 ≤ m) := by
  have hlog := Nat.log2_self_le hpos.ne'
  have hlog' := lt_two_pow_log2_succ units
  have hstep := Nat.two_pow_pos (units.log2 - 52)
  refine ⟨units / 2 ^ (units.log2 - 52), (Nat.div_mul_cancel hdvd).symm, ?_, ?_⟩
  · rw [Nat.div_lt_iff_lt_mul hstep, ← Nat.pow_add]
    exact hlog'.trans_le (Nat.pow_le_pow_right two_pos (by omega))
  · refine or_iff_not_imp_left.2 fun hne => ?_
    rw [Nat.le_div_iff_mul_le hstep, ← Nat.pow_add]
    exact (Nat.pow_le_pow_right two_pos (by omega)).trans hlog

/-- A power of two is rounded to from below as the last number of the finer bits. -/
theorem roundUnits_below {num den shift : Nat} (hden : 0 < den)
    (hlow : 4 * (2 ^ 52 * (den * 2 ^ (shift + 1))) ≤ 4 * num + den * 2 ^ (shift + 1))
    (hhigh : num < 2 ^ 52 * (den * 2 ^ (shift + 1))) :
    roundUnits num den = 2 ^ 52 * 2 ^ (shift + 1) := by
  have hstep : den * 2 ^ (shift + 1) = 2 * (den * 2 ^ shift) := by ring
  have hpos := Nat.mul_pos hden (Nat.two_pow_pos shift)
  have hround : roundUnits num den = 2 ^ 53 * 2 ^ shift := by
    refine roundUnits_eq hden (Or.inr ?_) ?_ ?_ ?_ (fun _ => rfl) <;> omega
  rw [hround]
  ring

/-- What is in the interval around a double is rounded to it, in steps of any size. -/
theorem roundUnits_of_near {units num den : Nat} (hden : 0 < den) (hpos : 0 < units)
    (hdvd : 2 ^ (units.log2 - 52) ∣ units)
    (hlow : 4 * (units * den) ≤ 4 * num + stepBelow units * den)
    (hhigh : 4 * num ≤ 4 * (units * den) + 2 * 2 ^ (units.log2 - 52) * den)
    (htie : 4 * (units * den) = 4 * num + stepBelow units * den ∨
      4 * num = 4 * (units * den) + 2 * 2 ^ (units.log2 - 52) * den →
        units / 2 ^ (units.log2 - 52) % 2 = 0) :
    roundUnits num den = units := by
  obtain ⟨m, hm, hlt, hge⟩ := exists_significand hpos hdvd
  have hcases := stepBelow_cases units
  have hdiv : units / 2 ^ (units.log2 - 52) = m := by
    conv => lhs; lhs; rw [hm]
    exact Nat.mul_div_cancel _ (Nat.two_pow_pos _)
  rw [hdiv] at htie
  generalize units.log2 - 52 = shift at *
  generalize stepBelow units = below at *
  subst hm
  have hstep := Nat.mul_pos hden (Nat.two_pow_pos shift)
  have hunits : m * 2 ^ shift * den = m * (den * 2 ^ shift) := by ring
  have hdouble : 2 * 2 ^ shift * den = 2 * (den * 2 ^ shift) := by ring
  have hsingle : 2 ^ shift * den = den * 2 ^ shift := Nat.mul_comm ..
  have hnext : (m + 1) * (den * 2 ^ shift) ≤ 2 ^ 53 * (den * 2 ^ shift) :=
    Nat.mul_le_mul_right _ hlt
  rw [Nat.add_one_mul] at hnext
  rcases hcases with ⟨rfl, hne, hpower⟩ | ⟨rfl, hpower⟩
  · obtain rfl : m = 2 ^ 52 := Nat.eq_of_mul_eq_mul_right (Nat.two_pow_pos _) hpower
    rcases Nat.lt_or_ge num (2 ^ 52 * (den * 2 ^ shift)) with hbelow | habove
    · obtain ⟨shift, rfl⟩ := Nat.exists_eq_add_one_of_ne_zero hne
      rw [hunits, hsingle] at hlow
      exact roundUnits_below hden hlow hbelow
    · refine roundUnits_eq hden (Or.inr habove) ?_ ?_ ?_ (fun _ => rfl) <;> omega
  · refine roundUnits_eq hden ?_ ?_ ?_ ?_ (fun h => htie ?_)
    · refine or_iff_not_imp_left.2 fun hne => ?_
      have hmore : 2 ^ 52 + 1 ≤ m :=
        Nat.lt_of_le_of_ne (hge.resolve_left hne) fun heq => hpower.resolve_left hne (by rw [← heq])
      have := Nat.mul_le_mul_right (den * 2 ^ shift) hmore
      rw [Nat.add_one_mul] at this
      omega
    all_goals omega

/-- What is in the interval around a double is rounded to it. -/
theorem roundUnits_of_has {units steps : Nat} (hpos : 0 < units)
    (hdvd : 2 ^ (units.log2 - 52) ∣ units) (h : (Interval.around units).has steps = true) :
    roundUnits steps stepsPerUnit = units := by
  rw [Interval.has_iff, around_eq] at h
  simp only [Nat.sub_mul, Nat.add_mul, Nat.mul_assoc 4, decide_eq_true_iff] at h
  obtain ⟨⟨hlow, hhigh⟩, htie⟩ := h
  refine roundUnits_of_near stepsPerUnit_pos hpos hdvd (by omega) hhigh fun hedge => htie ?_
  omega

/-! ## The search -/

theorem stepBelow_pos (units : Nat) : 0 < stepBelow units := by
  have := Nat.two_pow_pos (units.log2 - 52)
  unfold stepBelow
  split <;> omega

/-- A double is in the interval around it, and on no edge. -/
theorem has_self {units : Nat} (hpos : 0 < units) :
    (Interval.around units).has (units * stepsPerUnit) = true := by
  have hbelow := stepBelow_pos units
  have hstep := Nat.two_pow_pos (units.log2 - 52)
  have hlow : (4 * units - stepBelow units) * stepsPerUnit < 4 * units * stepsPerUnit :=
    Nat.mul_lt_mul_of_pos_right (by omega) stepsPerUnit_pos
  have hhigh : 4 * units * stepsPerUnit <
      (4 * units + 2 * 2 ^ (units.log2 - 52)) * stepsPerUnit :=
    Nat.mul_lt_mul_of_pos_right (by omega) stepsPerUnit_pos
  rw [Interval.has_iff, around_eq, ← Nat.mul_assoc]
  exact ⟨⟨hlow.le, hhigh.le⟩, fun h => absurd h (by simp only; omega)⟩

theorem nearer_cases (tie : Tie) (steps grid below : Nat) :
    nearer tie steps grid below = below ∨ nearer tie steps grid below = below + 1 := by
  unfold nearer
  repeat' split
  all_goals simp

theorem has_of_gridPoint? {tie : Tie} {interval : Interval} {steps grid point : Nat}
    (h : gridPoint? tie interval steps grid = some point) :
    interval.has (point * grid) = true := by
  unfold gridPoint? at h
  dsimp only at h
  split at h
  · next hbelow habove =>
    rcases nearer_cases tie steps grid (steps / grid) with heq | heq <;>
      rw [← Option.some.inj h, heq]
    · exact hbelow
    · exact habove
  · next hbelow _ => rwa [← Option.some.inj h]
  · next habove => rwa [← Option.some.inj h]
  · cases h

/-- The decimal that is found stands for a point of the interval. -/
theorem exists_has_coarsest (tie : Tie) {interval : Interval} {steps : Nat}
    (h : interval.has steps = true) (power : Nat) :
    ∃ k : Nat, (coarsest tie interval steps power).exponent = k - (unitShift : Int) ∧
      interval.has ((coarsest tie interval steps power).coefficient * 10 ^ k) = true := by
  induction power with
  | zero => exact ⟨0, by simp [coarsest], by simpa [coarsest] using h⟩
  | succ power ih =>
    rw [coarsest]
    split
    · next point hpoint => exact ⟨power + 1, rfl, has_of_gridPoint? hpoint⟩
    · exact ih

/-! ## Values of decimals -/

/-- The number that a decimal stands for. -/
def value (d : Decimal) : ℚ := d.coefficient * 10 ^ d.exponent

/-- The shortest decimal lies in the interval around the double. -/
theorem exists_has_shortest (tie : Tie) {units : Nat} (hpos : 0 < units) :
    ∃ steps, (Interval.around units).has steps = true ∧
      (shortest tie units).value * unitsPerOne = steps / stepsPerUnit := by
  obtain ⟨k, hexponent, hhas⟩ := exists_has_coarsest tie (has_self hpos)
    (powerAbove (units * stepsPerUnit))
  refine ⟨_, hhas, ?_⟩
  have hsteps : (stepsPerUnit : ℚ) * unitsPerOne = 10 ^ unitShift := by
    rw [stepsPerUnit, unitsPerOne]
    generalize unitShift = shift
    push_cast
    rw [← mul_pow]
    norm_num
  have hne : (stepsPerUnit : ℚ) ≠ 0 := Nat.cast_ne_zero.2 stepsPerUnit_pos.ne'
  have hten : (10 : ℚ) ^ unitShift ≠ 0 := pow_ne_zero _ (by norm_num)
  rw [value, shortest, hexponent, eq_div_iff hne, mul_assoc, mul_comm (unitsPerOne : ℚ), hsteps,
    mul_assoc]
  push_cast
  rw [← zpow_natCast (10 : ℚ) unitShift, ← zpow_natCast (10 : ℚ) k,
    ← zpow_add₀ (by norm_num : (10 : ℚ) ≠ 0), sub_add_cancel]

theorem value_eq_div (d : Decimal) :
    d.value = d.coefficient * 10 ^ d.exponent.toNat / 10 ^ (-d.exponent).toNat := by
  have hsplit : d.exponent = d.exponent.toNat - ((-d.exponent).toNat : Int) := by omega
  rw [value, mul_div_assoc]
  conv => lhs; rw [hsplit]
  rw [zpow_sub₀ (by norm_num), zpow_natCast, zpow_natCast]

theorem two_pow_lt_ten_pow : (2 : ℚ) ^ 1200 < 10 ^ 400 := by
  rw [show (1200 : Nat) = 3 * 400 from rfl, pow_mul]
  exact pow_lt_pow_left₀ (by norm_num) (by norm_num) (by norm_num)

theorem two_mul_unitLimit_le : 2 * (unitLimit : ℚ) ≤ 2 ^ 1200 * unitsPerOne := by
  have hle : (2 : ℚ) ^ (limitShift - unitShift + 1) ≤ 2 ^ 1200 :=
    pow_le_pow_right₀ one_le_two (by decide)
  have hshift : limitShift + 1 = limitShift - unitShift + 1 + unitShift := by
    rw [Nat.add_right_comm, Nat.sub_add_cancel (by decide)]
  rw [unitLimit, unitsPerOne, Nat.cast_pow, Nat.cast_pow, Nat.cast_two, ← pow_succ', hshift,
    pow_add]
  exact mul_le_mul_of_nonneg_right hle (pow_nonneg two_pos.le _)

theorem four_mul_unitsPerOne_le : 4 * (unitsPerOne : ℚ) ≤ 2 ^ 1200 := by
  have hfour : 4 * (unitsPerOne : ℚ) = 2 ^ (2 + unitShift) := by
    rw [unitsPerOne, Nat.cast_pow, pow_add]
    norm_num
  rw [hfour]
  exact pow_le_pow_right₀ one_le_two (by decide)

/-- A decimal below all powers of ten that are computed is not larger than they are. -/
theorem exponent_le_of_value_lt {d : Decimal} (hne : d.coefficient ≠ 0) (h : d.value < 10 ^ 400) :
    d.exponent ≤ 400 := by
  by_contra hlarge
  have hone : (1 : ℚ) ≤ d.coefficient := Nat.one_le_cast.2 (Nat.pos_of_ne_zero hne)
  have hpow : (10 : ℚ) ^ (400 : ℕ) ≤ 10 ^ d.exponent := by
    rw [← zpow_natCast]
    exact zpow_le_zpow_right₀ (by norm_num) (by omega)
  refine absurd h (not_lt.2 (hpow.trans ?_))
  exact le_mul_of_one_le_left (zpow_nonneg (by norm_num) _) hone

theorem le_exponent_of_lt_value {d : Decimal} (h : 1 < d.value * 10 ^ 400) :
    -400 ≤ d.coefficient.log2 + 1 + d.exponent := by
  by_contra hsmall
  have hcoefficient : (d.coefficient : ℚ) ≤ 10 ^ ((d.coefficient.log2 + 1 : Nat) : Int) := by
    rw [zpow_natCast]
    calc (d.coefficient : ℚ) ≤ 2 ^ (d.coefficient.log2 + 1) := by
          exact_mod_cast (lt_two_pow_log2_succ d.coefficient).le
      _ ≤ 10 ^ (d.coefficient.log2 + 1) := pow_le_pow_left₀ (by norm_num) (by norm_num) _
  refine absurd h (not_lt.2 ?_)
  calc d.value * 10 ^ 400
      ≤ 10 ^ ((d.coefficient.log2 + 1 : Nat) : Int) * 10 ^ d.exponent * 10 ^ (400 : Int) :=
        mul_le_mul_of_nonneg_right (mul_le_mul_of_nonneg_right hcoefficient (by positivity))
          (by positivity)
    _ = 10 ^ ((d.coefficient.log2 + 1 : Nat) + d.exponent + 400) := by
        rw [zpow_add₀ (by norm_num), zpow_add₀ (by norm_num)]
    _ ≤ 10 ^ (0 : Int) := zpow_le_zpow_right₀ (by norm_num) (by push_cast; omega)
    _ = 1 := zpow_zero _

/-- A quotient of units that is rounded to a double above zero is of its size. -/
theorem bounds_of_roundUnits {num den units : Nat} (hden : 0 < den) (hpos : 0 < units)
    (hround : roundUnits num den = units) :
    (1 / 4 : ℚ) ≤ num / den ∧ (num / den : ℚ) ≤ 2 * units := by
  have hclose := abs_le.1 (Binary64.abs_roundUnits_sub_le num hden)
  rw [hround] at hclose
  have hunits : (1 : ℚ) ≤ units := Nat.one_le_cast.2 hpos
  have hquotient : (0 : ℚ) ≤ num / den := by positivity
  constructor <;> linarith

theorem coefficient_ne_zero {d : Decimal} (h : (1 / 4 : ℚ) ≤ d.value * unitsPerOne) :
    d.coefficient ≠ 0 := by
  intro hzero
  rw [value, hzero, Nat.cast_zero, zero_mul, zero_mul] at h
  norm_num at h

/-- A decimal is rounded by its value, however it is divided. -/
theorem toBinary64_eq {d : Decimal} {num den units : Nat} (hden : 0 < den) (hpos : 0 < units)
    (h : Representable units) (hround : roundUnits num den = units)
    (hvalue : d.value * unitsPerOne = num / den) (negative : Bool) :
    d.toBinary64 negative = .finite negative units h := by
  obtain ⟨hlow, hhigh⟩ := bounds_of_roundUnits hden hpos hround
  have hU := cast_unitsPerOne_pos
  have hden' : (den : ℚ) ≠ 0 := Nat.cast_ne_zero.2 hden.ne'
  have hlimit : 2 * (units : ℚ) < 2 ^ 1200 * unitsPerOne :=
    (mul_lt_mul_of_pos_left (Nat.cast_lt.2 h.1) two_pos).trans_le two_mul_unitLimit_le
  rw [← hvalue] at hlow hhigh
  have hbelow : d.value < 10 ^ 400 :=
    (lt_of_mul_lt_mul_right (hhigh.trans_lt hlimit) hU.le).trans two_pow_lt_ten_pow
  have habove : 1 < d.value * 10 ^ 400 := by
    have hpos : 0 < d.value := (mul_pos_iff_of_pos_right hU).1 (by linarith)
    calc 1 ≤ d.value * (4 * unitsPerOne) := by linarith
      _ ≤ d.value * 2 ^ 1200 := mul_le_mul_of_nonneg_left four_mul_unitsPerOne_le hpos.le
      _ < d.value * 10 ^ 400 := mul_lt_mul_of_pos_left two_pow_lt_ten_pow hpos
  have hne := coefficient_ne_zero hlow
  have hnotLarge := Int.not_lt.2 (exponent_le_of_value_lt hne hbelow)
  have hnotSmall := Int.not_lt.2 (le_exponent_of_lt_value habove)
  have hsame : roundUnits (d.coefficient * 10 ^ d.exponent.toNat * unitsPerOne)
      (10 ^ (-d.exponent).toNat) = units := by
    rw [← hround]
    refine roundUnits_congr (Nat.pow_pos (by decide)) hden ?_
    have hten : (10 : ℚ) ^ (-d.exponent).toNat ≠ 0 := pow_ne_zero _ (by norm_num)
    rw [value_eq_div, div_mul_eq_mul_div, div_eq_div_iff hten hden'] at hvalue
    exact_mod_cast hvalue
  rw [toBinary64, Binary64.ofDecimal, if_neg hne, if_neg hnotLarge, if_neg hnotSmall,
    Binary64.ofQuotient, dif_pos (hsame.symm ▸ h.1)]
  simp only [hsame]

theorem shortest_coefficient_ne_zero (tie : Tie) {units : Nat} (hpos : 0 < units)
    (h : Representable units) : (shortest tie units).coefficient ≠ 0 := by
  obtain ⟨steps, hhas, hvalue⟩ := exists_has_shortest tie hpos
  refine coefficient_ne_zero ?_
  rw [hvalue]
  exact (bounds_of_roundUnits stepsPerUnit_pos hpos (roundUnits_of_has hpos h.2 hhas)).1

/-- Every decimal of the shortest decimal's value is read as the double. -/
theorem toBinary64_of_value_eq {d : Decimal} {tie : Tie} {units : Nat} (hpos : 0 < units)
    (h : Representable units) (hvalue : d.value = (shortest tie units).value) (negative : Bool) :
    d.toBinary64 negative = .finite negative units h := by
  obtain ⟨steps, hhas, hsteps⟩ := exists_has_shortest tie hpos
  exact toBinary64_eq stepsPerUnit_pos hpos h (roundUnits_of_has hpos h.2 hhas)
    (hvalue ▸ hsteps) negative

end Decimal

end OpenLocation
