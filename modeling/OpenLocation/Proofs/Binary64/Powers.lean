import OpenLocation.Proofs.Binary64.Near
import OpenLocation.Proofs.Binary64.Order

/-!
# Powers keep the order

From one on infinity behaves in products like a number beyond all others, so products keep the
order of both factors (`mul_le_mul`) and four times a number is exact (`rank_four_mul`). Repeated
squaring rounds the powers of a base along different ways, and no law of powers is left exact.
The order of the exponents is kept all the same if each square is at least all bases before it
together (`Leads`): the highest place where two exponents differ decides
(`squaring_le_squaring_of_lt`).
-/

namespace OpenLocation

/-! ## Powers of two as factors -/

theorem log2_two_pow_mul_div {num den : Nat} (h : num / den ≠ 0) (k : Nat) :
    (2 ^ k * num / den).log2 = (num / den).log2 + k := by
  have hden : 0 < den := Nat.pos_of_ne_zero fun hzero => h (by rw [hzero, Nat.div_zero])
  have hlow := Nat.log2_self_le h
  have hhigh : num < 2 ^ ((num / den).log2 + 1) * den :=
    (Nat.div_lt_iff_lt_mul hden).1 Nat.lt_log2_self
  generalize (num / den).log2 = log at hlow hhigh ⊢
  have hlow : 2 ^ (log + k) ≤ 2 ^ k * num / den :=
    calc 2 ^ (log + k) = 2 ^ k * 2 ^ log := by rw [Nat.add_comm, Nat.pow_add]
      _ ≤ 2 ^ k * (num / den) := Nat.mul_le_mul_left _ hlow
      _ ≤ 2 ^ k * num / den := Nat.mul_div_le_mul_div_assoc ..
  have hhigh : 2 ^ k * num / den < 2 ^ (log + k + 1) := by
    rw [Nat.div_lt_iff_lt_mul hden]
    calc 2 ^ k * num < 2 ^ k * (2 ^ (log + 1) * den) :=
          Nat.mul_lt_mul_of_pos_left hhigh (Nat.two_pow_pos k)
      _ = 2 ^ (log + k + 1) * den := by
          rw [← Nat.mul_assoc, ← Nat.pow_add, Nat.add_comm k, Nat.add_right_comm]
  exact (Nat.log2_eq_iff (Nat.ne_of_gt ((Nat.two_pow_pos _).trans_le hlow))).2 ⟨hlow, hhigh⟩

/-- With all 53 bits kept a power of two is a factor of the rounding. -/
theorem roundUnits_two_pow_mul {num den : Nat} (h : 52 ≤ (num / den).log2) (k : Nat) :
    roundUnits (2 ^ k * num) den = 2 ^ k * roundUnits num den := by
  have hne : num / den ≠ 0 := by
    intro hzero
    simp [hzero] at h
  have hden : den * 2 ^ ((num / den).log2 + k - 52) =
      den * 2 ^ ((num / den).log2 - 52) * 2 ^ k := by
    rw [Nat.mul_assoc, ← Nat.pow_add, ← Nat.sub_add_comm h]
  unfold roundUnits
  rw [log2_two_pow_mul_div hne, hden, Nat.mul_comm (2 ^ k) num,
    Binary64.nearestEven_mul_right (Nat.two_pow_pos k), Nat.sub_add_comm h, Nat.pow_add]
  ac_rfl

theorem two_pow_log2_dvd_self (k : Nat) : 2 ^ ((2 ^ k).log2 - 52) ∣ 2 ^ k := by
  rw [Nat.log2_two_pow]
  exact Nat.pow_dvd_pow 2 (Nat.sub_le ..)

theorem two_pow_log2_dvd_unitLimit : 2 ^ (unitLimit.log2 - 52) ∣ unitLimit := by
  unfold unitLimit
  generalize limitShift = shift
  exact two_pow_log2_dvd_self shift

theorem two_pow_log2_dvd_unitsPerOne : 2 ^ (unitsPerOne.log2 - 52) ∣ unitsPerOne := by
  unfold unitsPerOne
  generalize unitShift = shift
  exact two_pow_log2_dvd_self shift

theorem unitLimit_pos : 0 < unitLimit := Nat.two_pow_pos _

theorem le_log2_of_unitsPerOne_le {n : Nat} (h : unitsPerOne ≤ n) : 52 ≤ n.log2 := by
  have hle : 2 ^ 52 ≤ n := (two_pow_le_unitsPerOne (by simp only [unitShift]; omega)).trans h
  exact (Nat.le_log2 (by omega)).2 hle

namespace Binary64

variable {a b c d : Binary64}

/-! ## Products from one on -/

theorem one_le_iff_rank : 1 ≤ a ↔ ∃ n : Nat, a.rank = some (n : Int) ∧ unitsPerOne ≤ n := by
  have hone : (1 : Binary64).rank = some (unitsPerOne : Int) := by
    show (ofNat 1).rank = _
    rw [ofNat_eq (by decide), rank, Nat.one_mul]
    rfl
  rw [le_iff_rank]
  constructor
  · rintro ⟨x, y, hx, hy, hxy⟩
    obtain rfl := Option.some.inj (hone.symm.trans hx)
    refine ⟨y.toNat, ?_, by omega⟩
    rw [hy, Int.toNat_of_nonneg (by omega)]
  · rintro ⟨n, hn, hle⟩
    exact ⟨_, _, hone, hn, by exact_mod_cast hle⟩

theorem one_le_ofNat {n : Nat} (hpos : 0 < n) (h : n ≤ 2 ^ 53) : 1 ≤ ofNat n := by
  rw [ofNat_eq h]
  exact one_le_iff_rank.2 ⟨n * unitsPerOne, rfl, Nat.le_mul_of_pos_left _ hpos⟩

theorem one_le_one : (1 : Binary64) ≤ 1 := one_le_ofNat Nat.one_pos (by norm_num)

theorem isNaN_of_one_le (h : 1 ≤ a) : a.isNaN = false := by
  obtain ⟨n, hn, -⟩ := one_le_iff_rank.1 h
  exact isNaN_of_rank hn

theorem unitLimit_le_roundUnits_mul {n : Nat} (h : unitsPerOne ≤ n) :
    unitLimit ≤ roundUnits (unitLimit * n) unitsPerOne :=
  calc unitLimit = roundUnits (unitLimit * unitsPerOne) unitsPerOne :=
        (roundUnits_mul_self unitsPerOne_pos two_pow_log2_dvd_unitLimit).symm
    _ ≤ roundUnits (unitLimit * n) unitsPerOne :=
        roundUnits_le_roundUnits unitsPerOne_pos unitsPerOne_pos
          (Nat.mul_le_mul_right _ (Nat.mul_le_mul_left _ h))

/-- From one on a product is rounded as if infinity were the power of two next to all doubles. -/
theorem rank_mul {m n : Nat} (ha : a.rank = some (m : Int)) (hb : b.rank = some (n : Int))
    (hm : unitsPerOne ≤ m) (hn : unitsPerOne ≤ n) :
    (a * b).rank = some ((min (roundUnits (m * n) unitsPerOne) unitLimit : Nat) : Int) := by
  have hm0 : 0 < m := unitsPerOne_pos.trans_le hm
  have hn0 : 0 < n := unitsPerOne_pos.trans_le hn
  show (mul a b).rank = _
  rcases rank_pos_cases ha (Int.natCast_pos.2 hm0) with ⟨rfl, hlimit⟩ | ⟨m', hm', rfl, hsame⟩
  · rw [Int.ofNat_inj.1 hlimit, Nat.min_eq_right (unitLimit_le_roundUnits_mul hn)]
    rcases rank_pos_cases hb (Int.natCast_pos.2 hn0) with ⟨rfl, -⟩ | ⟨n', hn', rfl, hsame⟩
    · rfl
    · obtain rfl := Int.ofNat_inj.1 hsame
      rw [mul, if_neg hn0.ne']
      rfl
  · obtain rfl := Int.ofNat_inj.1 hsame
    rcases rank_pos_cases hb (Int.natCast_pos.2 hn0) with ⟨rfl, hlimit⟩ | ⟨n', hn', rfl, hsame⟩
    · rw [Int.ofNat_inj.1 hlimit, Nat.mul_comm, Nat.min_eq_right (unitLimit_le_roundUnits_mul hm),
        mul, if_neg hm0.ne']
      rfl
    · obtain rfl := Int.ofNat_inj.1 hsame
      rw [mul, rank_ofQuotient]
      rfl

protected theorem mul_le_mul (ha : 1 ≤ a) (hc : 1 ≤ c) (hab : a ≤ b) (hcd : c ≤ d) :
    a * c ≤ b * d := by
  obtain ⟨m, hm, hm1⟩ := one_le_iff_rank.1 ha
  obtain ⟨n, hn, hn1⟩ := one_le_iff_rank.1 (Binary64.le_trans ha hab)
  obtain ⟨k, hk, hk1⟩ := one_le_iff_rank.1 hc
  obtain ⟨l, hl, hl1⟩ := one_le_iff_rank.1 (Binary64.le_trans hc hcd)
  rw [le_iff_of_rank hm hn, Int.ofNat_le] at hab
  rw [le_iff_of_rank hk hl, Int.ofNat_le] at hcd
  rw [le_iff_of_rank (rank_mul hm hk hm1 hk1) (rank_mul hn hl hn1 hl1), Int.ofNat_le]
  exact min_le_min_right _ (roundUnits_le_roundUnits unitsPerOne_pos unitsPerOne_pos
    (Nat.mul_le_mul_right _ (Nat.mul_le_mul hab hcd)))

protected theorem one_mul (ha : 1 ≤ a) : 1 * a = a := by
  obtain ⟨n, hn, hn1⟩ := one_le_iff_rank.1 ha
  have hpos : 0 < n := unitsPerOne_pos.trans_le hn1
  show mul (ofNat 1) _ = _
  rw [ofNat_eq (by decide)]
  rcases rank_pos_cases hn (Int.natCast_pos.2 hpos) with ⟨rfl, -⟩ | ⟨k, hk, rfl, -⟩
  · rw [mul, if_neg (by rw [Nat.one_mul]; exact unitsPerOne_pos.ne')]
    rfl
  · have hunits : 1 * unitsPerOne * k = k * unitsPerOne := by rw [Nat.one_mul, Nat.mul_comm]
    rw [mul, hunits, bne_self_eq_false, ofQuotient_mul_self false unitsPerOne_pos]

protected theorem mul_comm (a b : Binary64) : a * b = b * a := by
  show mul a b = mul b a
  rcases a with _ | a | ⟨a, m, hm⟩ <;> rcases b with _ | b | ⟨b, n, hn⟩ <;>
    simp only [mul, bne_comm, Nat.mul_comm]

protected theorem le_mul_left (ha : 1 ≤ a) (hb : 1 ≤ b) : b ≤ a * b := by
  have hle := Binary64.mul_le_mul one_le_one hb ha (Binary64.le_self (isNaN_of_one_le hb))
  rwa [Binary64.one_mul hb] at hle

protected theorem le_mul_right (ha : 1 ≤ a) (hb : 1 ≤ b) : a ≤ a * b := by
  rw [Binary64.mul_comm]
  exact Binary64.le_mul_left hb ha

theorem one_le_mul (ha : 1 ≤ a) (hb : 1 ≤ b) : 1 ≤ a * b :=
  Binary64.le_trans hb (Binary64.le_mul_left ha hb)

/-! ## Four times a number -/

/-- The bits of a double above zero, infinity included. -/
theorem two_pow_dvd_of_rank {n : Nat} (h : a.rank = some (n : Int)) (hpos : 0 < n) :
    2 ^ (n.log2 - 52) ∣ n := by
  rcases rank_pos_cases h (Int.natCast_pos.2 hpos) with ⟨-, hlimit⟩ | ⟨n', hn', -, hsame⟩
  · rw [Int.ofNat_inj.1 hlimit]
    exact two_pow_log2_dvd_unitLimit
  · obtain rfl := Int.ofNat_inj.1 hsame
    exact hn'.2

/-- Four times a number from one on is exact, if only at infinity. -/
theorem rank_four_mul {n : Nat} (ha : a.rank = some (n : Int)) (hn : unitsPerOne ≤ n) :
    (4 * a).rank = some ((min (4 * n) unitLimit : Nat) : Int) := by
  have hfour : (4 : Binary64).rank = some ((4 * unitsPerOne : Nat) : Int) := by
    show (ofNat 4).rank = _
    rw [ofNat_eq (by decide)]
    rfl
  have hround : roundUnits (2 ^ 2 * (n * unitsPerOne)) unitsPerOne = 2 ^ 2 * n := by
    rw [roundUnits_two_pow_mul, roundUnits_mul_self unitsPerOne_pos
      (two_pow_dvd_of_rank ha (unitsPerOne_pos.trans_le hn))]
    rw [Nat.mul_div_cancel _ unitsPerOne_pos]
    exact le_log2_of_unitsPerOne_le hn
  have hunits : 4 * unitsPerOne * n = 2 ^ 2 * (n * unitsPerOne) := by
    rw [Nat.mul_assoc, Nat.mul_comm unitsPerOne]
    rfl
  rw [rank_mul hfour ha (Nat.le_mul_of_pos_left _ four_pos) hn, hunits, hround]
  rfl

theorem four_mul_mul (ha : 1 ≤ a) (hc : 1 ≤ c) : 4 * a * c = 4 * (a * c) := by
  obtain ⟨m, hm, hm1⟩ := one_le_iff_rank.1 ha
  obtain ⟨k, hk, hk1⟩ := one_le_iff_rank.1 hc
  obtain ⟨n, hn, hn1⟩ := one_le_iff_rank.1 (one_le_mul ha hc)
  have hleast : unitsPerOne ≤ min (4 * m) unitLimit :=
    le_min (hm1.trans (Nat.le_mul_of_pos_left _ four_pos))
      (hm1.trans (Int.ofNat_le.1 (rank_le_limit hm).2))
  have hleft := rank_mul (rank_four_mul hm hm1) hk hleast hk1
  have hn' : n = min (roundUnits (m * k) unitsPerOne) unitLimit :=
    Int.ofNat_inj.1 (Option.some.inj (hn.symm.trans (rank_mul hm hk hm1 hk1)))
  have hfour : roundUnits (4 * m * k) unitsPerOne = 4 * roundUnits (m * k) unitsPerOne := by
    rw [Nat.mul_assoc]
    refine roundUnits_two_pow_mul (le_log2_of_unitsPerOne_le ?_) 2
    rw [Nat.le_div_iff_mul_le unitsPerOne_pos]
    exact Nat.mul_le_mul hm1 hk1
  have hsame : min (roundUnits (min (4 * m) unitLimit * k) unitsPerOne) unitLimit =
      min (4 * n) unitLimit := by
    rcases Nat.le_total (4 * m) unitLimit with hle | hge
    · rw [Nat.min_eq_left hle, hfour, hn']
      omega
    · -- Beyond the limit both sides are infinite.
      have hlimit := unitLimit_le_roundUnits_mul hk1
      have hbeyond := hlimit.trans (roundUnits_le_roundUnits unitsPerOne_pos unitsPerOne_pos
        (Nat.mul_le_mul_right _ (Nat.mul_le_mul_right k hge)))
      rw [Nat.min_eq_right hge, Nat.min_eq_right hlimit, hn']
      omega
  rw [hsame] at hleft
  exact eq_of_rank_eq hleft (rank_four_mul hn hn1) (Int.natCast_pos.2
    (lt_min (Nat.mul_pos four_pos (unitsPerOne_pos.trans_le hn1)) unitLimit_pos))

/-! ## Repeated squaring -/

variable {product product' bound base : Binary64} {m n : Nat}

/-- Squaring once a bit both the product and the base stay from one on. -/
theorem one_le_squaring (hproduct : 1 ≤ product) (hbase : 1 ≤ base) (exponent : Nat) :
    1 ≤ squaring product base exponent := by
  induction exponent using Nat.strong_induction_on generalizing product base with
  | _ exponent ih =>
    unfold squaring
    split
    · exact hproduct
    · refine ih (exponent / 2) (by omega) ?_ (one_le_mul hbase hbase)
      split
      · exact one_le_mul hproduct hbase
      · exact hproduct

theorem squaring_le_squaring (hproduct : 1 ≤ product) (hbase : 1 ≤ base)
    (h : product ≤ product') (exponent : Nat) :
    squaring product base exponent ≤ squaring product' base exponent := by
  induction exponent using Nat.strong_induction_on generalizing product product' base with
  | _ exponent ih =>
    unfold squaring
    split
    · exact h
    · split
      · exact ih _ (by omega) (one_le_mul hproduct hbase) (one_le_mul hbase hbase)
          (Binary64.mul_le_mul hproduct hbase h (Binary64.le_self (isNaN_of_one_le hbase)))
      · exact ih _ (by omega) hproduct (one_le_mul hbase hbase) h

theorem squaring_four_mul (hproduct : 1 ≤ product) (hbase : 1 ≤ base) (exponent : Nat) :
    squaring (4 * product) base exponent = 4 * squaring product base exponent := by
  induction exponent using Nat.strong_induction_on generalizing product base with
  | _ exponent ih =>
    unfold squaring
    split
    · rfl
    · split
      · rw [four_mul_mul hproduct hbase]
        exact ih _ (by omega) (one_le_mul hproduct hbase) (one_le_mul hbase hbase)
      · exact ih _ (by omega) hproduct (one_le_mul hbase hbase)

/-- A place is taken off at a time, off zero too. -/
theorem squaring_eq (product base : Binary64) (exponent : Nat) :
    squaring product base exponent =
      squaring (if exponent % 2 = 1 then product * base else product) (base * base)
        (exponent / 2) := by
  rcases Nat.eq_zero_or_pos exponent with rfl | hpos
  · rw [squaring, squaring]
    rfl
  · conv => lhs; rw [squaring, if_neg hpos.ne']

/-- The product with the base, and the base squared. -/
def gather (s : Binary64 × Binary64) : Binary64 × Binary64 := (s.1 * s.2, s.2 * s.2)

/-- However often the base is squared, it is at least the product with all bases before it. -/
def Leads (product base : Binary64) : Prop :=
  ∀ count, (gather^[count] (product, base)).1 ≤ (gather^[count] (product, base)).2

theorem Leads.next (h : Leads product base) : Leads (product * base) (base * base) :=
  fun count => h (count + 1)

/-- The larger exponent has the larger power, whatever both products are within the bound. -/
theorem squaring_le_squaring_of_lt (hlead : Leads bound base) (hbase : 1 ≤ base)
    (hproduct : 1 ≤ product) (hbound : product ≤ bound) (hproduct' : 1 ≤ product') (h : m < n) :
    squaring product base m ≤ squaring product' base n := by
  induction n using Nat.strong_induction_on generalizing m product product' bound base with
  | _ n ih =>
    have hself := Binary64.le_self (isNaN_of_one_le hbase)
    have hsquare := one_le_mul hbase hbase
    have hnext' : 1 ≤ if n % 2 = 1 then product' * base else product' := by
      split
      · exact one_le_mul hproduct' hbase
      · exact hproduct'
    rw [squaring_eq product, squaring_eq product']
    rcases Nat.lt_or_eq_of_le (Nat.div_le_div_right h.le : m / 2 ≤ n / 2) with hlt | heq
    · -- A higher place decides, and what is gathered up to it stays within the bound.
      refine ih (n / 2) (by omega) hlead.next hsquare ?_ ?_ hnext' hlt
      · split
        · exact one_le_mul hproduct hbase
        · exact hproduct
      · split
        · exact Binary64.mul_le_mul hproduct hbase hbound hself
        · exact Binary64.le_trans hbound
            (Binary64.le_mul_right (Binary64.le_trans hproduct hbound) hbase)
    · -- They differ in this place alone, where the larger one takes the base.
      rw [if_neg (by omega), if_pos (by omega), heq]
      have hdecides := Binary64.le_trans (Binary64.le_trans hbound (hlead 0))
        (Binary64.le_mul_left hproduct' hbase)
      exact squaring_le_squaring hproduct hsquare hdecides _

/-! ## Whole powers -/

theorem power_natCast (base : Binary64) (n : Nat) : power base n = squaring 1 base n := by
  rw [power, if_neg (by omega), Int.natAbs_natCast]

theorem one_div_one : (1 : Binary64) / 1 = 1 := by decide +kernel

theorem power_neg (base : Binary64) (n : Nat) : power base (-n) = 1 / squaring 1 base n := by
  rcases Nat.eq_zero_or_pos n with rfl | hpos
  · rw [Nat.cast_zero, neg_zero, ← Nat.cast_zero, power_natCast, squaring, if_pos rfl, one_div_one]
  · rw [power, if_pos (by omega), Int.natAbs_neg, Int.natAbs_natCast]

end Binary64

end OpenLocation
