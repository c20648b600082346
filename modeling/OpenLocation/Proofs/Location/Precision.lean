import OpenLocation.Location
import OpenLocation.Proofs.Binary64.NotANumber
import OpenLocation.Proofs.Binary64.Quotients

/-!
# The height of cells of any number of digits

Up to ten digits the height of a cell is a power of twenty, from there on a quotient by a power of
five. The count of digits after the tenth is one of 32 bits with a sign, so it is negative for
every other half of the counts, and the cells are larger again than those of ten digits.
`fineness` puts all numbers of digits on one scale of cuts into five, as far as these are not
lost in zero or infinity. Of two numbers of digits the larger one has cells that are at most as
high exactly if its fineness is at least that of the other (`precision_order`), and so it is as
long as the count does not wrap.
-/

namespace OpenLocation

open Binary64

/-! ## Powers of five -/

/-- The power of five that repeated squaring gives. -/
def powerOfFive (exponent : Nat) : Binary64 := squaring 1 5 exponent

/-- The least exponent whose power of five is infinite. -/
def infiniteFives : Nat := 442

theorem leads_five : Leads 4 5 := by
  have hfew : ∀ count < 9, (gather^[count] (4, 5)).1 ≤ (gather^[count] (4, 5)).2 := by
    decide +kernel
  have hlast : gather^[9] (4, 5) = (infinity false, infinity false) := by decide +kernel
  intro count
  rcases Nat.lt_or_ge count 9 with hlt | hge
  · exact hfew count hlt
  · obtain ⟨more, rfl⟩ := Nat.exists_eq_add_of_le' hge
    rw [Function.iterate_add_apply, hlast, Function.iterate_fixed rfl]
    exact le_infinity rfl

theorem four_bounds : (1 : Binary64) ≤ 4 ∧ (1 : Binary64) ≤ 5 ∧ (4 : Binary64) * 1 ≤ 4 := by
  have hfour : (1 : Binary64) ≤ 4 := one_le_ofNat (by decide) (by norm_num)
  have hproduct : (4 : Binary64) * 1 = 4 := ofNat_mul (by norm_num) (by norm_num) (by norm_num)
  refine ⟨hfour, one_le_ofNat (by decide) (by norm_num), ?_⟩
  rw [hproduct]
  exact Binary64.le_self (isNaN_of_one_le hfour)

theorem one_le_powerOfFive (exponent : Nat) : 1 ≤ powerOfFive exponent :=
  one_le_squaring one_le_one four_bounds.2.1 exponent

/-- A power of five is four times the one before, if only at infinity. -/
theorem four_mul_powerOfFive_le {m n : Nat} (h : m < n) : 4 * powerOfFive m ≤ powerOfFive n := by
  obtain ⟨hfour, hfive, hbound⟩ := four_bounds
  unfold powerOfFive
  rw [← squaring_four_mul one_le_one hfive]
  have hproduct : (1 : Binary64) ≤ 4 * 1 := Binary64.one_le_mul hfour one_le_one
  exact squaring_le_squaring_of_lt leads_five hfive hproduct hbound one_le_one h

theorem powerOfFive_le {m n : Nat} (h : m ≤ n) : powerOfFive m ≤ powerOfFive n := by
  rcases Nat.lt_or_eq_of_le h with hlt | rfl
  · exact Binary64.le_trans (Binary64.le_mul_left four_bounds.1 (one_le_powerOfFive m))
      (four_mul_powerOfFive_le hlt)
  · exact Binary64.le_self (isNaN_of_one_le (one_le_powerOfFive m))

theorem powerOfFive_limit :
    (powerOfFive (infiniteFives - 1)).isFinite = true ∧
      powerOfFive infiniteFives = infinity false := by
  decide +kernel

theorem powerOfFive_eq_infinity {n : Nat} (h : infiniteFives ≤ n) :
    powerOfFive n = infinity false :=
  eq_infinity_of_le (powerOfFive_limit.2 ▸ powerOfFive_le h)

/-- Infinite, or a number of units from one on. -/
theorem powerOfFive_cases (n : Nat) :
    powerOfFive n = infinity false ∨
      ∃ x hx, powerOfFive n = finite false x hx ∧ unitsPerOne ≤ x := by
  obtain ⟨x, hrank, hx1⟩ := one_le_iff_rank.1 (one_le_powerOfFive n)
  rcases rank_pos_cases hrank (Int.natCast_pos.2 (unitsPerOne_pos.trans_le hx1)) with
    ⟨hinfinite, -⟩ | ⟨x', hx, hfinite, hsame⟩
  · exact Or.inl hinfinite
  · exact Or.inr ⟨x', hx, hfinite, Int.ofNat_inj.1 hsame ▸ hx1⟩

theorem exists_powerOfFive {n : Nat} (h : n < infiniteFives) :
    ∃ x hx, powerOfFive n = finite false x hx ∧ unitsPerOne ≤ x := by
  rcases powerOfFive_cases n with hinfinite | hfinite
  · have hlast := powerOfFive_limit.1
    have hle : powerOfFive n ≤ powerOfFive (infiniteFives - 1) := powerOfFive_le (by omega)
    rw [hinfinite] at hle
    rw [eq_infinity_of_le hle] at hlast
    cases hlast
  · exact hfinite

theorem four_mul_le_of_powerOfFive {n x y : Nat} {hx : Representable x} {hy : Representable y}
    (hx1 : unitsPerOne ≤ x) (h : powerOfFive n = finite false x hx)
    (h' : powerOfFive (n + 1) = finite false y hy) : 4 * x ≤ y := by
  have hle := four_mul_powerOfFive_le (Nat.lt_succ_self n)
  rw [h, h', le_iff_of_rank (rank_four_mul rfl hx1) rfl] at hle
  have hle := Int.ofNat_le.1 hle
  have := hy.1
  omega

/-! ## Cells of ten digits cut in five -/

theorem exists_tenDigits : ∃ m hm, power 20 (-3) = finite false m hm ∧ Moderate m := by
  have hnear : Near (power 20 (-3)) ((20 : Nat) ^ (-3 : ℤ)) (1 / 2 ^ 52) :=
    Near.power (by norm_num) (by norm_num)
  have hle := hnear.le_value
  have hge := hnear.value_le
  norm_num at hle hge
  obtain ⟨m, hm, heq, -⟩ := Near.exists_of_value_pos hnear.isFinite (by linarith)
  have hU := cast_unitsPerOne_pos
  rw [heq, value_finite, cast_signed, sign_false, one_mul] at hle hge
  rw [le_div_iff₀ hU] at hle
  rw [div_le_iff₀ hU] at hge
  refine ⟨m, hm, heq, ?_, ?_⟩
  · have : (unitsPerOne : ℚ) ≤ 2 ^ 14 * m := by linarith
    exact_mod_cast this
  · have : (2 : ℚ) * m ≤ unitsPerOne := by linarith
    exact_mod_cast this

/-- The height of a cell of ten digits cut into five so many times. -/
def finePrecision (fives : Int) : Binary64 := power 20 (-3) / power 5 fives

theorem finePrecision_natCast (n : Nat) : finePrecision n = power 20 (-3) / powerOfFive n := by
  rw [finePrecision, power_natCast, powerOfFive]

theorem finePrecision_neg (n : Nat) :
    finePrecision (-n) = power 20 (-3) / (1 / powerOfFive n) := by
  rw [finePrecision, powerOfFive, power_neg]

theorem finePrecision_succ_lt {n : Nat} (h : n < infiniteFives) :
    finePrecision (n + 1 : Nat) < finePrecision n := by
  obtain ⟨m, hm, hten, hmoderate⟩ := exists_tenDigits
  obtain ⟨x, hx, hpower, hx1⟩ := exists_powerOfFive h
  have hx50 := two_pow_fifty_le.trans hx1
  rw [finePrecision_natCast, finePrecision_natCast, hten, hpower]
  rcases powerOfFive_cases (n + 1) with hinfinite | ⟨y, hy, hpower', hy1⟩
  · rw [hinfinite, finite_div_infinity]
    exact (hmoderate.div_bounds hm hx hx50).1
  · have hfour := four_mul_le_of_powerOfFive hx1 hpower hpower'
    rw [hpower']
    exact hmoderate.div_lt_div hm hx hy (by omega) (by omega) (by omega)

theorem finePrecision_neg_lt {n : Nat} (h : n < infiniteFives) :
    finePrecision (-n) < finePrecision (-(n + 1 : Nat)) := by
  obtain ⟨m, hm, hten, hmoderate⟩ := exists_tenDigits
  obtain ⟨x, hx, hpower, hx1⟩ := exists_powerOfFive h
  obtain ⟨hr, hreciprocal, hr50, -⟩ := exists_reciprocal hx hx1
  rw [finePrecision_neg, finePrecision_neg, hten, hpower, hreciprocal]
  rcases powerOfFive_cases (n + 1) with hinfinite | ⟨y, hy, hpower', hy1⟩
  · rw [hinfinite, one_div_infinity, finite_div_zero hm hmoderate.units_pos]
    exact (hmoderate.div_bounds hm hr hr50).2
  · obtain ⟨hs, hreciprocal', hs50, -⟩ := exists_reciprocal hy hy1
    have hfour := four_mul_le_of_powerOfFive hx1 hpower hpower'
    rw [hpower', hreciprocal']
    refine hmoderate.div_lt_div hm hs hr (by omega) hr50 (Nat.le_of_lt ?_)
    exact two_mul_reciprocal_lt hx1 hx.1.le hfour

theorem finePrecision_step {fives : Int} (hlow : -infiniteFives ≤ fives)
    (hhigh : fives < infiniteFives) : finePrecision (fives + 1) < finePrecision fives := by
  rcases lt_or_ge fives 0 with hneg | hpos
  · obtain ⟨n, rfl⟩ : ∃ n : Nat, fives = -(n + 1 : Nat) := ⟨(-fives - 1).toNat, by omega⟩
    have hsucc : (-(n + 1 : Nat) : Int) + 1 = -n := by omega
    rw [hsucc]
    exact finePrecision_neg_lt (by omega)
  · lift fives to Nat using hpos
    exact finePrecision_succ_lt (by omega)

/-- Each cut counts, as long as the power of five is finite. -/
theorem finePrecision_lt {fives fives' : Int} (hlow : -infiniteFives ≤ fives)
    (h : fives < fives') (hhigh : fives' ≤ infiniteFives) :
    finePrecision fives' < finePrecision fives := by
  induction fives', h using Int.leInduction with
  | base => exact finePrecision_step hlow (by omega)
  | succ fives' hle ih =>
    have hstep : finePrecision (fives' + 1) < finePrecision fives' :=
      finePrecision_step (by omega) (by omega)
    exact Binary64.lt_of_lt_of_le hstep (Binary64.le_of_lt (ih (by omega)))

theorem finePrecision_of_le {fives : Int} (h : infiniteFives ≤ fives) :
    finePrecision fives = 0 := by
  obtain ⟨m, hm, hten, -⟩ := exists_tenDigits
  lift fives to Nat using by omega
  rw [finePrecision_natCast, powerOfFive_eq_infinity (by omega), hten, finite_div_infinity]

theorem finePrecision_of_ge {fives : Int} (h : fives ≤ -infiniteFives) :
    finePrecision fives = infinity false := by
  obtain ⟨m, hm, hten, hmoderate⟩ := exists_tenDigits
  obtain ⟨n, rfl⟩ : ∃ n : Nat, fives = -n := ⟨(-fives).toNat, by omega⟩
  rw [finePrecision_neg, powerOfFive_eq_infinity (by omega), one_div_infinity, hten,
    finite_div_zero hm hmoderate.units_pos]

theorem zero_le_finePrecision {fives : Int} (hlow : -infiniteFives ≤ fives)
    (hhigh : fives ≤ infiniteFives) : 0 ≤ finePrecision fives := by
  have hlast : finePrecision infiniteFives = 0 := by
    rw [finePrecision_of_le (Int.le_refl _)]
  rw [← hlast]
  rcases Int.lt_or_eq_of_le hhigh with hlt | rfl
  · exact Binary64.le_of_lt (finePrecision_lt hlow hlt (Int.le_refl _))
  · rw [hlast]
    exact Binary64.le_self (isNaN_of_rank rank_zero)

theorem finePrecision_le {fives fives' : Int} (hlow : -infiniteFives ≤ fives)
    (h : fives ≤ fives') (hhigh : fives' ≤ infiniteFives) :
    finePrecision fives' ≤ finePrecision fives := by
  rcases Int.lt_or_eq_of_le h with hlt | rfl
  · exact Binary64.le_of_lt (finePrecision_lt hlow hlt hhigh)
  · exact Binary64.le_self (isNaN_of_le (zero_le_finePrecision hlow hhigh)).2

/-- Brings a number of cuts into the range where each one counts. -/
def clampFives (fives : Int) : Int := max (-infiniteFives) (min infiniteFives fives)

theorem finePrecision_clampFives (fives : Int) :
    finePrecision (clampFives fives) = finePrecision fives := by
  unfold clampFives
  rcases Int.le_total infiniteFives fives with hle | hge
  · rw [finePrecision_of_le hle, finePrecision_of_le (by omega)]
  · rcases Int.le_total fives (-infiniteFives) with hle | hge'
    · rw [finePrecision_of_ge hle, finePrecision_of_ge (by omega)]
    · rw [max_eq_right (by omega), min_eq_right hge]

/-! ## Any number of digits -/

/--
How often cells of so many digits are cut into five, against cells of ten digits. For fewer
digits it is how many fives go into the twenties that are missing.
-/
def fineness (digitCount : Nat) : Int :=
  if digitCount ≤ pairDigits then -(Nat.log 5 (20 ^ (pairDigits / 2 - digitCount / 2)) : Nat)
  else clampFives (Int.bmod (digitCount - pairDigits : Nat) (2 ^ 32))

theorem precision_of_lt {digitCount : Nat} (h : pairDigits < digitCount) :
    precision digitCount = finePrecision (fineness digitCount) := by
  rw [precision, fineness, if_neg (by omega), if_neg (by omega), finePrecision_clampFives]
  rfl

/-- What is computed up to ten digits. -/
theorem coarse_bounds : ∀ digitCount < pairDigits + 1,
    finePrecision (fineness digitCount) ≤ precision digitCount ∧
      precision digitCount < finePrecision (fineness digitCount - 1) ∧
      -9 ≤ fineness digitCount ∧ fineness digitCount ≤ 0 := by
  decide +kernel

/-- Up to ten digits the number of pairs decides. -/
theorem coarse_order : ∀ m < pairDigits + 1, ∀ n < pairDigits + 1,
    (m ≤ n → fineness m ≤ fineness n) ∧ (fineness m = fineness n → m / 2 = n / 2) := by
  decide

theorem precision_of_pairs {m n : Nat} (hm : m ≤ pairDigits) (hn : n ≤ pairDigits)
    (h : m / 2 = n / 2) : precision m = precision n := by
  rw [precision, precision, if_pos hm, if_pos hn, h]

theorem fineness_bounds (digitCount : Nat) :
    -infiniteFives ≤ fineness digitCount ∧ fineness digitCount ≤ infiniteFives := by
  rcases Nat.lt_or_ge pairDigits digitCount with hfine | hcoarse
  · rw [fineness, if_neg (by omega), clampFives]
    omega
  · obtain ⟨-, -, hlow, hhigh⟩ := coarse_bounds digitCount (Nat.lt_succ_of_le hcoarse)
    unfold infiniteFives
    omega

/-- As long as the count of digits after the tenth does not wrap it is the number of cuts. -/
theorem fineness_eq {digitCount : Nat} (h : pairDigits < digitCount)
    (hlimit : digitCount < pairDigits + 2 ^ 31) :
    fineness digitCount = min infiniteFives (digitCount - pairDigits : Nat) := by
  have hcount : Int.bmod (digitCount - pairDigits : Nat) (2 ^ 32) =
      (digitCount - pairDigits : Nat) := Int.bmod_eq_of_le (by omega) (by omega)
  rw [fineness, if_neg (by omega), hcount, clampFives]
  omega

theorem fineness_le_fineness {m n : Nat} (h : m ≤ n) (hn : n < pairDigits + 2 ^ 31) :
    fineness m ≤ fineness n := by
  rcases Nat.lt_or_ge pairDigits n with hfine | hcoarse
  · rw [fineness_eq hfine hn]
    rcases Nat.lt_or_ge pairDigits m with hfine' | hcoarse'
    · rw [fineness_eq hfine' (by omega)]
      omega
    · obtain ⟨-, -, -, hhigh⟩ := coarse_bounds m (Nat.lt_succ_of_le hcoarse')
      omega
  · exact (coarse_order m (Nat.lt_succ_of_le (h.trans hcoarse)) n (Nat.lt_succ_of_le hcoarse)).1 h

/-! ## Heights on the scale of cuts -/

theorem finePrecision_fineness_le (digitCount : Nat) :
    finePrecision (fineness digitCount) ≤ precision digitCount := by
  rcases Nat.lt_or_ge pairDigits digitCount with hfine | hcoarse
  · obtain ⟨hlow, hhigh⟩ := fineness_bounds digitCount
    rw [precision_of_lt hfine]
    exact Binary64.le_self (isNaN_of_le (zero_le_finePrecision hlow hhigh)).2
  · exact (coarse_bounds digitCount (Nat.lt_succ_of_le hcoarse)).1

theorem finePrecision_le_precision {digitCount : Nat} {fives : Int}
    (h : fineness digitCount ≤ fives) (hhigh : fives ≤ infiniteFives) :
    finePrecision fives ≤ precision digitCount :=
  Binary64.le_trans (finePrecision_le (fineness_bounds digitCount).1 h hhigh)
    (finePrecision_fineness_le digitCount)

theorem precision_le_finePrecision {digitCount : Nat} {fives : Int}
    (hfine : pairDigits < digitCount) (hlow : -infiniteFives ≤ fives)
    (h : fives ≤ fineness digitCount) : precision digitCount ≤ finePrecision fives := by
  rw [precision_of_lt hfine]
  exact finePrecision_le hlow h (fineness_bounds digitCount).2

theorem precision_lt_finePrecision {digitCount : Nat} (h : -infiniteFives < fineness digitCount) :
    precision digitCount < finePrecision (fineness digitCount - 1) := by
  rcases Nat.lt_or_ge pairDigits digitCount with hfine | hcoarse
  · rw [precision_of_lt hfine]
    exact finePrecision_lt (by omega) (by omega) (fineness_bounds digitCount).2
  · exact (coarse_bounds digitCount (Nat.lt_succ_of_le hcoarse)).2.1

theorem zero_le_precision (digitCount : Nat) : 0 ≤ precision digitCount := by
  obtain ⟨hlow, hhigh⟩ := fineness_bounds digitCount
  exact Binary64.le_trans (zero_le_finePrecision hlow hhigh) (finePrecision_fineness_le digitCount)

theorem isNaN_precision (digitCount : Nat) : (precision digitCount).isNaN = false :=
  (isNaN_of_le (zero_le_precision digitCount)).2

/-- Where cells are cut more often they are smaller. -/
theorem precision_lt_of_fineness_lt {m n : Nat} (h : fineness m < fineness n) :
    precision n < precision m := by
  have hlow := (fineness_bounds m).1
  have hhigh := (fineness_bounds n).2
  have hlt : precision n < finePrecision (fineness n - 1) := precision_lt_finePrecision (by omega)
  exact Binary64.lt_of_lt_of_le hlt (finePrecision_le_precision (by omega) (by omega))

/-- Where they are cut as often the number of pairs is the same, or the number of fives. -/
theorem precision_le_of_fineness_eq {m n : Nat} (h : m ≤ n) (heq : fineness m = fineness n) :
    precision n ≤ precision m := by
  rcases Nat.lt_or_ge pairDigits n with hfine | hcoarse
  · rw [precision_of_lt hfine, ← heq]
    exact finePrecision_fineness_le m
  · have hcoarse' := h.trans hcoarse
    have hpairs := (coarse_order m (Nat.lt_succ_of_le hcoarse') n (Nat.lt_succ_of_le hcoarse)).2 heq
    rw [precision_of_pairs hcoarse' hcoarse hpairs]
    exact Binary64.le_self (isNaN_precision n)

theorem precision_le_iff {m n : Nat} (h : m ≤ n) :
    precision n ≤ precision m ↔ fineness m ≤ fineness n := by
  rcases lt_trichotomy (fineness m) (fineness n) with hlt | heq | hgt
  · exact iff_of_true (Binary64.le_of_lt (precision_lt_of_fineness_lt hlt)) hlt.le
  · exact iff_of_true (precision_le_of_fineness_eq h heq) heq.le
  · exact iff_of_false
      (fun hle => Binary64.not_lt_of_le hle (precision_lt_of_fineness_lt hgt)) hgt.not_ge

theorem isFinite_precision_iff (digitCount : Nat) :
    (precision digitCount).isFinite = true ↔ -infiniteFives < fineness digitCount := by
  constructor
  · intro hfinite
    refine Int.lt_iff_le_and_ne.2 ⟨(fineness_bounds digitCount).1, fun hleast => ?_⟩
    have hle := finePrecision_le_precision hleast.ge (by omega)
    rw [finePrecision_of_ge (Int.le_refl _)] at hle
    rw [eq_infinity_of_le hle] at hfinite
    cases hfinite
  · intro h
    have hzero : (0 : Binary64).isFinite = true := by
      rw [zero_eq]
      rfl
    exact isFinite_of_le_of_lt hzero (zero_le_precision digitCount)
      (precision_lt_finePrecision h)

/-! ## Counts that do not wrap -/

theorem precision_le_precision {m n : Nat} (h : m ≤ n) (hn : n < pairDigits + 2 ^ 31) :
    precision n ≤ precision m := (precision_le_iff h).2 (fineness_le_fineness h hn)

theorem isFinite_precision {digitCount : Nat} (h : digitCount < pairDigits + 2 ^ 31) :
    (precision digitCount).isFinite = true := by
  have hcoarse := (coarse_bounds 0 (by decide)).2.2.1
  have hfirst := fineness_le_fineness (Nat.zero_le digitCount) h
  refine (isFinite_precision_iff digitCount).2 ?_
  unfold infiniteFives
  omega

/--
More digits never name larger cells as long as the count of digits after the tenth is below
`2 ^ 31`, and all heights are finite there. With any numbers of digits cells are at most as high
exactly if they are cut into five at least as often, and infinitely high exactly if the power of
five is infinite and its reciprocal is divided by. No height is negative.
-/
theorem precision_order {m n : Nat} (h : m ≤ n) :
    (precision n ≤ precision m ↔ fineness m ≤ fineness n) ∧ 0 ≤ precision n ∧
      ((precision n).isFinite = true ↔ -infiniteFives < fineness n) ∧
      (n < pairDigits + 2 ^ 31 → precision n ≤ precision m ∧ (precision n).isFinite = true) :=
  ⟨precision_le_iff h, zero_le_precision n, isFinite_precision_iff n,
    fun hlimit => ⟨precision_le_precision h hlimit, isFinite_precision hlimit⟩⟩

/-- The last count of digits that does not wrap, and the first one that does. -/
theorem precision_order_last :
    15 ≤ 2147483657 ∧ 2147483657 < pairDigits + 2 ^ 31 ∧
      (precision 2147483657 ≤ precision 15 ∧ (precision 2147483657).isFinite = true) ∧
      452 ≤ 2147483658 ∧ ¬ precision 2147483658 ≤ precision 452 := by
  have hlast := (precision_order (by decide : 15 ≤ 2147483657)).2.2.2 (by decide)
  have hfirst := (precision_order (by decide : 452 ≤ 2147483658)).1
  refine ⟨by decide, by decide, hlast, by decide, fun hle => ?_⟩
  exact absurd (hfirst.1 hle) (by decide)

/-- A count that has wrapped names cells as high as infinity, or as those of ten digits. -/
theorem precision_wrapped :
    452 ≤ 2147483658 ∧ ¬ precision 2147483658 ≤ precision 452 ∧
      (precision 2147483658).isFinite = false ∧
      15 ≤ 4294967306 ∧ ¬ precision 4294967306 ≤ precision 15 := by
  decide +kernel

end OpenLocation
