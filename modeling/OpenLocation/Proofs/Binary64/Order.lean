import OpenLocation.Proofs.Binary64.Value

/-!
# Rounding keeps the order

`ofQuotient_le` says that the rounding of a smaller quotient is not larger, so sums
(`add_le_add_left`), products with a positive number and quotients by one (`scale_le_scale`) and
whole parts (`truncate_le_truncate`) keep the order of doubles. A bound that a double keeps is
thus kept by all that is computed from it, up to what one closed computation gives for the bound.
`le_ofBits_of_lt` says that no double lies between two with consecutive bits.
-/

namespace OpenLocation

/-! ## Whole numbers -/

theorem mod_mul_le_mod_mul {num den num' den' : Nat} (hquot : num / den = num' / den')
    (h : num * den' ≤ num' * den) : num % den * den' ≤ num' % den' * den := by
  have hnum : num * den' = num / den * (den * den') + num % den * den' := by
    conv => lhs; rw [← Nat.div_add_mod' num den, Nat.add_mul, Nat.mul_assoc]
  have hnum' : num' * den = num' / den' * (den * den') + num' % den' * den := by
    conv => lhs; rw [← Nat.div_add_mod' num' den', Nat.add_mul, Nat.mul_assoc, Nat.mul_comm den']
  rw [hquot] at hnum
  omega

theorem div_le_div_of_mul_le {num den num' den' : Nat} (hden : 0 < den) (hden' : 0 < den')
    (h : num * den' ≤ num' * den) : num / den ≤ num' / den' := by
  rw [Nat.le_div_iff_mul_le hden']
  refine Nat.le_of_mul_le_mul_right ?_ hden
  calc num / den * den' * den = num / den * den * den' := Nat.mul_right_comm ..
    _ ≤ num * den' := Nat.mul_le_mul_right _ (Nat.div_mul_le_self num den)
    _ ≤ num' * den := h

theorem nearestEven_le_nearestEven {num den num' den' : Nat} (hden : 0 < den) (hden' : 0 < den')
    (h : num * den' ≤ num' * den) : nearestEven num den ≤ nearestEven num' den' := by
  rcases Nat.lt_or_eq_of_le (div_le_div_of_mul_le hden hden' h) with hlt | heq
  · calc nearestEven num den ≤ num / den + 1 := nearestEven_le num den
      _ ≤ num' / den' := hlt
      _ ≤ nearestEven num' den' := le_nearestEven num' den'
  · have hrest := mod_mul_le_mod_mul heq h
    -- Where the larger one is rounded down its rest is at most one half, and so is the other.
    have hhalf : 2 * (num' % den') ≤ den' → 2 * (num % den) ≤ den := by
      intro hle
      refine Nat.le_of_mul_le_mul_right ?_ hden'
      calc 2 * (num % den) * den' = 2 * (num % den * den') := Nat.mul_assoc ..
        _ ≤ 2 * (num' % den' * den) := Nat.mul_le_mul_left 2 hrest
        _ = 2 * (num' % den') * den := (Nat.mul_assoc ..).symm
        _ ≤ den' * den := Nat.mul_le_mul_right den hle
        _ = den * den' := Nat.mul_comm ..
    have hstrict : 2 * (num' % den') < den' → 2 * (num % den) < den := by
      intro hlt
      refine Nat.lt_of_mul_lt_mul_right (a := den') ?_
      calc 2 * (num % den) * den' = 2 * (num % den * den') := Nat.mul_assoc ..
        _ ≤ 2 * (num' % den' * den) := Nat.mul_le_mul_left 2 hrest
        _ = 2 * (num' % den') * den := (Nat.mul_assoc ..).symm
        _ < den' * den := Nat.mul_lt_mul_of_pos_right hlt hden
        _ = den * den' := Nat.mul_comm ..
    unfold nearestEven
    split
    · split <;> omega
    · rw [if_neg (by omega)]
      omega

theorem two_pow_log2_le_roundUnits {num den : Nat} (hne : num / den ≠ 0) :
    2 ^ (num / den).log2 ≤ roundUnits num den := by
  have hlog := Nat.log2_self_le hne
  have hnearest := le_nearestEven num (den * 2 ^ ((num / den).log2 - 52))
  rw [← Nat.div_div_eq_div_mul] at hnearest
  unfold roundUnits
  generalize (num / den).log2 = log at *
  generalize hk : log - 52 = shift at *
  have hsplit : 2 ^ log = 2 ^ (log - shift) * 2 ^ shift := by
    rw [← Nat.pow_add, Nat.sub_add_cancel (by omega)]
  rw [hsplit]
  refine Nat.mul_le_mul_right _ (Nat.le_trans ?_ hnearest)
  rw [Nat.le_div_iff_mul_le (Nat.two_pow_pos _), ← hsplit]
  exact hlog

theorem roundUnits_le_two_pow (num den : Nat) :
    roundUnits num den ≤ 2 ^ (53 + ((num / den).log2 - 52)) := by
  rw [Nat.pow_add]
  exact Nat.mul_le_mul_right _ (nearestEven_le_two_pow num den)

theorem roundUnits_le_roundUnits {num den num' den' : Nat} (hden : 0 < den) (hden' : 0 < den')
    (h : num * den' ≤ num' * den) : roundUnits num den ≤ roundUnits num' den' := by
  have hlog := Binary64.log2_le_log2 (div_le_div_of_mul_le hden hden' h)
  rcases Nat.lt_or_eq_of_le (Nat.sub_le_sub_right hlog 52) with hlt | heq
  · -- The smaller one is at most the power of two where the larger one starts.
    have hne : num' / den' ≠ 0 := by
      intro hzero
      simp [hzero] at hlt
    calc roundUnits num den ≤ 2 ^ (53 + ((num / den).log2 - 52)) := roundUnits_le_two_pow num den
      _ ≤ 2 ^ (num' / den').log2 := Nat.pow_le_pow_right two_pos (by omega)
      _ ≤ roundUnits num' den' := two_pow_log2_le_roundUnits hne
  · unfold roundUnits
    rw [heq]
    generalize (num' / den').log2 - 52 = shift
    refine Nat.mul_le_mul_right _ (nearestEven_le_nearestEven (Nat.mul_pos hden (Nat.two_pow_pos _))
      (Nat.mul_pos hden' (Nat.two_pow_pos _)) ?_)
    rw [← Nat.mul_assoc, ← Nat.mul_assoc]
    exact Nat.mul_le_mul_right _ h

theorem roundUnits_zero {den : Nat} (hden : 0 < den) : roundUnits 0 den = 0 := by
  simpa using Binary64.roundUnits_mul_self hden (Nat.dvd_zero _)

namespace Binary64

/-! ## Ranks -/

theorem le_iff_rank {a b : Binary64} :
    a ≤ b ↔ ∃ x y, a.rank = some x ∧ b.rank = some y ∧ x ≤ y := by
  rw [le_iff_atMost, atMost]
  cases a.rank <;> cases b.rank <;> simp

theorem lt_iff_rank {a b : Binary64} :
    a < b ↔ ∃ x y, a.rank = some x ∧ b.rank = some y ∧ x < y := by
  rw [lt_iff_less, less]
  cases a.rank <;> cases b.rank <;> simp

theorem le_iff_of_rank {a b : Binary64} {x y : Int} (ha : a.rank = some x)
    (hb : b.rank = some y) : a ≤ b ↔ x ≤ y := by
  rw [le_iff_atMost, atMost, ha, hb]
  exact decide_eq_true_iff

theorem lt_iff_of_rank {a b : Binary64} {x y : Int} (ha : a.rank = some x)
    (hb : b.rank = some y) : a < b ↔ x < y := by
  rw [lt_iff_less, less, ha, hb]
  exact decide_eq_true_iff

protected theorem le_trans {a b c : Binary64} (hab : a ≤ b) (hbc : b ≤ c) : a ≤ c := by
  obtain ⟨x, y, ha, hb, hxy⟩ := le_iff_rank.1 hab
  obtain ⟨y', z, hb', hc, hyz⟩ := le_iff_rank.1 hbc
  rw [hb] at hb'
  cases hb'
  exact le_iff_rank.2 ⟨x, z, ha, hc, by omega⟩

protected theorem lt_of_le_of_lt {a b c : Binary64} (hab : a ≤ b) (hbc : b < c) : a < c := by
  obtain ⟨x, y, ha, hb, hxy⟩ := le_iff_rank.1 hab
  obtain ⟨y', z, hb', hc, hyz⟩ := lt_iff_rank.1 hbc
  rw [hb] at hb'
  cases hb'
  exact lt_iff_rank.2 ⟨x, z, ha, hc, by omega⟩

protected theorem lt_of_lt_of_le {a b c : Binary64} (hab : a < b) (hbc : b ≤ c) : a < c := by
  obtain ⟨x, y, ha, hb, hxy⟩ := lt_iff_rank.1 hab
  obtain ⟨y', z, hb', hc, hyz⟩ := le_iff_rank.1 hbc
  rw [hb] at hb'
  cases hb'
  exact lt_iff_rank.2 ⟨x, z, ha, hc, by omega⟩

protected theorem le_of_lt {a b : Binary64} (h : a < b) : a ≤ b := by
  obtain ⟨x, y, ha, hb, hxy⟩ := lt_iff_rank.1 h
  exact le_iff_rank.2 ⟨x, y, ha, hb, by omega⟩

protected theorem not_lt_of_le {a b : Binary64} (h : a ≤ b) : ¬ b < a := by
  intro hlt
  obtain ⟨x, y, ha, hb, hxy⟩ := le_iff_rank.1 h
  obtain ⟨y', x', hb', ha', hyx⟩ := lt_iff_rank.1 hlt
  rw [ha] at ha'
  rw [hb] at hb'
  cases ha'
  cases hb'
  omega

/-- Neither of two ordered numbers equals the other. -/
theorem equal_eq_false_of_lt {a b : Binary64} (h : a < b) :
    a.equal b = false ∧ b.equal a = false := by
  obtain ⟨x, y, ha, hb, hxy⟩ := lt_iff_rank.1 h
  simp only [equal, ha, hb, decide_eq_false_iff_not]
  omega

theorem equal_comm (a b : Binary64) : a.equal b = b.equal a := by
  unfold equal
  cases a.rank with
  | none => cases b.rank <;> rfl
  | some x =>
    cases b.rank with
    | none => rfl
    | some y => simp only [eq_comm]

theorem not_nan_lt (a : Binary64) : ¬ nan < a := Bool.false_ne_true

theorem not_lt_nan (a : Binary64) : ¬ a < nan := by
  rw [lt_iff_less, less]
  cases a.rank <;> exact Bool.false_ne_true

theorem not_le_nan (a : Binary64) : ¬ a ≤ nan := by
  rw [le_iff_atMost, atMost]
  cases a.rank <;> exact Bool.false_ne_true

theorem isNaN_of_rank {a : Binary64} {x : Int} (h : a.rank = some x) : a.isNaN = false := by
  cases a <;> simp [rank, isNaN] at h ⊢

theorem isNaN_of_le {a b : Binary64} (h : a ≤ b) : a.isNaN = false ∧ b.isNaN = false := by
  obtain ⟨x, y, ha, hb, -⟩ := le_iff_rank.1 h
  exact ⟨isNaN_of_rank ha, isNaN_of_rank hb⟩

theorem isNaN_of_lt {a b : Binary64} (h : a < b) : a.isNaN = false ∧ b.isNaN = false :=
  isNaN_of_le (Binary64.le_of_lt h)

theorem exists_rank {a : Binary64} (h : a.isNaN = false) : ∃ x, a.rank = some x := by
  cases a <;> simp [isNaN, rank] at h ⊢

protected theorem le_self {a : Binary64} (h : a.isNaN = false) : a ≤ a := by
  obtain ⟨x, hx⟩ := exists_rank h
  exact le_iff_rank.2 ⟨x, x, hx, hx, Int.le_refl x⟩

protected theorem le_of_not_lt {a b : Binary64} (ha : a.isNaN = false) (hb : b.isNaN = false)
    (h : ¬ a < b) : b ≤ a := by
  obtain ⟨x, hx⟩ := exists_rank ha
  obtain ⟨y, hy⟩ := exists_rank hb
  refine le_iff_rank.2 ⟨y, x, hy, hx, ?_⟩
  by_contra hlt
  exact h (lt_iff_rank.2 ⟨x, y, hx, hy, by omega⟩)

theorem rank_pos_cases {a : Binary64} {x : Int} (h : a.rank = some x) (hpos : 0 < x) :
    (a = infinity false ∧ x = unitLimit) ∨ ∃ n hn, a = finite false n hn ∧ x = n := by
  rcases a with _ | negative | ⟨negative, n, hn⟩
  · cases h
  · cases negative with
    | false => exact Or.inl ⟨rfl, (Option.some.inj h).symm⟩
    | true =>
      have hx : -(unitLimit : Int) = x := Option.some.inj h
      omega
  · cases negative with
    | false => exact Or.inr ⟨n, hn, rfl, (Option.some.inj h).symm⟩
    | true =>
      have hx : -(n : Int) = x := Option.some.inj h
      omega

/-- Above zero no two doubles share a rank. -/
theorem eq_of_rank_eq {a b : Binary64} {x : Int} (ha : a.rank = some x) (hb : b.rank = some x)
    (hpos : 0 < x) : a = b := by
  rcases rank_pos_cases ha hpos with ⟨rfl, hx⟩ | ⟨m, hm, rfl, hx⟩ <;>
    rcases rank_pos_cases hb hpos with ⟨rfl, hy⟩ | ⟨n, hn, rfl, hy⟩
  · rfl
  · have := hn.1
    omega
  · have := hm.1
    omega
  · obtain rfl : m = n := by omega
    rfl

theorem rank_zero : (0 : Binary64).rank = some 0 := by
  show (ofNat 0).rank = some 0
  rw [ofNat_eq (Nat.zero_le _), rank, Nat.zero_mul]
  rfl

protected theorem lt_of_le_of_ne {a b : Binary64} (h : a ≤ b) (hb : 0 < b) (hne : a ≠ b) :
    a < b := by
  obtain ⟨x, y, ha, hy, hxy⟩ := le_iff_rank.1 h
  obtain ⟨z, y', hz, hy', hpos⟩ := lt_iff_rank.1 hb
  rw [rank_zero] at hz
  rw [hy] at hy'
  cases hz
  cases hy'
  refine lt_iff_rank.2 ⟨x, y, ha, hy, lt_of_le_of_ne hxy ?_⟩
  rintro rfl
  exact hne (eq_of_rank_eq ha hy hpos)

theorem rank_ofQuotient (negative : Bool) (num den : Nat) :
    (ofQuotient negative num den).rank =
      some (signed negative (min (roundUnits num den) unitLimit)) := by
  rcases Nat.lt_or_ge (roundUnits num den) unitLimit with h | h
  · rw [ofQuotient, dif_pos h, Nat.min_eq_left h.le]
    rfl
  · rw [ofQuotient, dif_neg (Nat.not_lt.2 h), Nat.min_eq_right h]
    rfl

/-- The rounding of a smaller quotient of units is not larger. -/
theorem ofQuotient_le {a b : Bool} {num den num' den' : Nat} (hden : 0 < den) (hden' : 0 < den')
    (h : signed a num * den' ≤ signed b num' * den) :
    ofQuotient a num den ≤ ofQuotient b num' den' := by
  refine le_iff_rank.2 ⟨_, _, rank_ofQuotient .., rank_ofQuotient .., ?_⟩
  cases a <;> cases b <;> simp only [signed, if_true, if_false, Bool.false_eq_true] at h ⊢
  · have := roundUnits_le_roundUnits hden hden' (by exact_mod_cast h)
    omega
  · -- A number that is not negative is below one that is not positive only if both are zero.
    have hnum : num * den' + num' * den = 0 := by
      have : ((num * den' + num' * den : Nat) : Int) ≤ 0 := by push_cast; linarith
      omega
    have hzero : num = 0 := by
      rcases Nat.mul_eq_zero.1 (Nat.eq_zero_of_add_eq_zero_right hnum) with h | h <;> omega
    have hzero' : num' = 0 := by
      rcases Nat.mul_eq_zero.1 (Nat.eq_zero_of_add_eq_zero_left hnum) with h | h <;> omega
    rw [hzero, hzero', roundUnits_zero hden, roundUnits_zero hden']
    simp
  · omega
  · have hswap : num' * den ≤ num * den' := by
      have : ((num' * den : Nat) : Int) ≤ (num * den' : Nat) := by push_cast; linarith
      exact_mod_cast this
    have := roundUnits_le_roundUnits hden' hden hswap
    omega

/-! ## Infinities -/

theorem rank_le_limit {a : Binary64} {x : Int} (h : a.rank = some x) :
    -(unitLimit : Int) ≤ x ∧ x ≤ unitLimit := by
  rcases a with _ | negative | ⟨negative, n, hn⟩
  · cases h
  · obtain rfl : signed negative unitLimit = x := Option.some.inj h
    cases negative <;> simp only [signed, if_true, if_false, Bool.false_eq_true] <;> omega
  · obtain rfl : signed negative n = x := Option.some.inj h
    have := hn.1
    cases negative <;> simp only [signed, if_true, if_false, Bool.false_eq_true] <;> omega

theorem negInfinity_le {a : Binary64} (h : a.isNaN = false) : infinity true ≤ a := by
  obtain ⟨x, hx⟩ := exists_rank h
  exact le_iff_rank.2 ⟨-unitLimit, x, rfl, hx, (rank_le_limit hx).1⟩

theorem le_infinity {a : Binary64} (h : a.isNaN = false) : a ≤ infinity false := by
  obtain ⟨x, hx⟩ := exists_rank h
  exact le_iff_rank.2 ⟨x, unitLimit, hx, rfl, (rank_le_limit hx).2⟩

theorem eq_infinity_of_le {b : Binary64} (h : infinity false ≤ b) : b = infinity false := by
  obtain ⟨x, y, hx, hy, hxy⟩ := le_iff_rank.1 h
  obtain rfl : (unitLimit : Int) = x := Option.some.inj hx
  have hlimit : (0 : Int) < unitLimit := Int.natCast_pos.2 (Nat.two_pow_pos _)
  obtain rfl : y = unitLimit := le_antisymm (rank_le_limit hy).2 hxy
  exact eq_of_rank_eq hy rfl hlimit

theorem eq_negInfinity_of_le {a : Binary64} (h : a ≤ infinity true) : a = infinity true := by
  obtain ⟨x, y, hx, hy, hxy⟩ := le_iff_rank.1 h
  obtain rfl : -(unitLimit : Int) = y := Option.some.inj hy
  rcases a with _ | negative | ⟨negative, n, hn⟩
  · cases hx
  · obtain rfl : signed negative unitLimit = x := Option.some.inj hx
    have hlimit : 0 < unitLimit := Nat.two_pow_pos _
    cases negative with
    | false =>
      simp only [signed, if_false, Bool.false_eq_true] at hxy
      omega
    | true => rfl
  · obtain rfl : signed negative n = x := Option.some.inj hx
    have := hn.1
    cases negative <;> simp only [signed, if_true, if_false, Bool.false_eq_true] at hxy <;> omega

/-- What keeps the infinities and the order of finite numbers keeps the order of all. -/
theorem map_le_map {f : Binary64 → Binary64}
    (hinfinity : ∀ negative, f (infinity negative) = infinity negative)
    (hnan : ∀ {a}, a.isNaN = false → (f a).isNaN = false)
    (hfinite : ∀ a b m n hm hn, signed a m ≤ signed b n → f (finite a m hm) ≤ f (finite b n hn))
    {a b : Binary64} (h : a ≤ b) : f a ≤ f b := by
  obtain ⟨x, y, hx, hy, hxy⟩ := le_iff_rank.1 h
  rcases a with _ | a | ⟨a, m, hm⟩
  · cases hx
  · cases a with
    | false =>
      rw [eq_infinity_of_le h, hinfinity]
      exact le_infinity rfl
    | true =>
      rw [hinfinity]
      exact negInfinity_le (hnan (isNaN_of_rank hy))
  · rcases b with _ | b | ⟨b, n, hn⟩
    · cases hy
    · cases b with
      | false =>
        rw [hinfinity]
        exact le_infinity (hnan rfl)
      | true => cases eq_negInfinity_of_le h
    · obtain rfl : signed a m = x := Option.some.inj hx
      obtain rfl : signed b n = y := Option.some.inj hy
      exact hfinite a b m n hm hn hxy

theorem isNaN_ofQuotient (negative : Bool) (num den : Nat) :
    (ofQuotient negative num den).isNaN = false := by
  unfold ofQuotient
  split <;> rfl

/-! ## Sums -/

protected theorem add_comm (a b : Binary64) : a + b = b + a := by
  show add a b = add b a
  rcases a with _ | a | ⟨a, m, hm⟩ <;> rcases b with _ | b | ⟨b, n, hn⟩ <;> simp only [add]
  · cases a <;> cases b <;> rfl
  · rw [Int.add_comm, Bool.and_comm]

theorem nan_sub (a : Binary64) : nan - a = nan := by
  show add nan (neg a) = nan
  rw [add]

theorem isNaN_add {a c : Binary64} (hc : c.isFinite = true) : (a + c).isNaN = a.isNaN := by
  rcases c with _ | _ | ⟨s, k, hk⟩ <;> simp only [isFinite, Bool.false_eq_true] at hc
  rcases a with _ | _ | ⟨a, m, hm⟩
  · rfl
  · rfl
  · show (add _ _).isNaN = _
    rw [add]
    split
    · rfl
    · exact isNaN_ofQuotient ..

/-- A sum that is exactly zero has the rank that its rounding has. -/
theorem rank_add (a b : Bool) {m n : Nat} (hm : Representable m) (hn : Representable n) :
    (finite a m hm + finite b n hn).rank =
      (ofQuotient (decide (signed a m + signed b n < 0))
        (signed a m + signed b n).natAbs 1).rank := by
  show (add _ _).rank = _
  rw [add]
  split
  · next hzero =>
    rw [hzero, rank_ofQuotient, Int.natAbs_zero, roundUnits_zero one_pos, Nat.zero_min]
    cases a && b <;> rfl
  · rfl

theorem le_congr {a b a' b' : Binary64} (ha : a.rank = a'.rank) (hb : b.rank = b'.rank) :
    a ≤ b ↔ a' ≤ b' := by
  rw [le_iff_rank, le_iff_rank, ha, hb]

theorem add_le_add_right {a b c : Binary64} (h : a ≤ b) (hc : c.isFinite = true) :
    a + c ≤ b + c := by
  rcases c with _ | _ | ⟨c, k, hk⟩ <;> simp only [isFinite, Bool.false_eq_true] at hc
  refine map_le_map (f := (· + finite c k hk)) (fun _ => rfl) (fun ha => ?_) ?_ h
  · rw [isNaN_add rfl, ha]
  · intro a b m n hm hn hle
    show finite a m hm + finite c k hk ≤ finite b n hn + finite c k hk
    rw [le_congr (rank_add a c hm hk) (rank_add b c hn hk)]
    refine ofQuotient_le one_pos one_pos ?_
    rw [signed_natAbs, signed_natAbs]
    omega

theorem add_le_add_left {a b c : Binary64} (h : a ≤ b) (hc : c.isFinite = true) :
    c + a ≤ c + b := by
  rw [Binary64.add_comm c a, Binary64.add_comm c b]
  exact add_le_add_right h hc

theorem sub_le_sub_right {a b c : Binary64} (h : a ≤ b) (hc : c.isFinite = true) :
    a - c ≤ b - c :=
  add_le_add_right h ((isFinite_neg c).trans hc)

/-! ## Negatives -/

theorem signed_not (negative : Bool) (n : Nat) : signed (!negative) n = -signed negative n := by
  cases negative
  · rfl
  · exact (Int.neg_neg _).symm

theorem rank_neg {a : Binary64} {x : Int} (h : a.rank = some x) : (-a).rank = some (-x) := by
  rcases a with _ | negative | ⟨negative, n, hn⟩
  · cases h
  · obtain rfl : signed negative unitLimit = x := Option.some.inj h
    exact congrArg some (signed_not negative unitLimit)
  · obtain rfl : signed negative n = x := Option.some.inj h
    exact congrArg some (signed_not negative n)

theorem sub_le_sub_left {a b c : Binary64} (h : a ≤ b) (hc : c.isFinite = true) :
    c - b ≤ c - a := by
  obtain ⟨x, y, hx, hy, hxy⟩ := le_iff_rank.1 h
  have hneg : -b ≤ -a := (le_iff_of_rank (rank_neg hy) (rank_neg hx)).2 (Int.neg_le_neg hxy)
  exact add_le_add_left hneg hc

/-! ## Distances -/

theorem natCast_eq_abs_signed (negative : Bool) (n : Nat) : (n : Int) = |signed negative n| := by
  cases negative
  · exact (Int.abs_natCast n).symm
  · exact ((abs_neg _).trans (Int.abs_natCast n)).symm

theorem rank_abs {a : Binary64} {x : Int} (h : a.rank = some x) : a.abs.rank = some |x| := by
  rcases a with _ | negative | ⟨negative, n, hn⟩
  · cases h
  · obtain rfl : signed negative unitLimit = x := Option.some.inj h
    exact congrArg some (natCast_eq_abs_signed negative unitLimit)
  · obtain rfl : signed negative n = x := Option.some.inj h
    exact congrArg some (natCast_eq_abs_signed negative n)

/-- The distance of two numbers is rounded like any number of units. -/
theorem rank_abs_sub (a b : Bool) {m n : Nat} (hm : Representable m) (hn : Representable n) :
    (finite a m hm - finite b n hn).abs.rank =
      some (min (roundUnits (signed a m - signed b n).natAbs 1) unitLimit : Nat) := by
  have hrank := rank_add a (!b) hm hn
  rw [signed_not, ← sub_eq_add_neg, rank_ofQuotient] at hrank
  have habs := rank_abs hrank
  rwa [← natCast_eq_abs_signed] at habs

/-- The rounding of a smaller distance is not larger. -/
theorem abs_sub_le_abs_sub {a b c d : Binary64} (ha : a.isFinite = true) (hb : b.isFinite = true)
    (hc : c.isFinite = true) (hd : d.isFinite = true)
    (h : |a.value - b.value| ≤ |c.value - d.value|) : (a - b).abs ≤ (c - d).abs := by
  rcases a with _ | _ | ⟨a, m, hm⟩ <;> simp only [isFinite, Bool.false_eq_true] at ha
  rcases b with _ | _ | ⟨b, n, hn⟩ <;> simp only [isFinite, Bool.false_eq_true] at hb
  rcases c with _ | _ | ⟨c, k, hk⟩ <;> simp only [isFinite, Bool.false_eq_true] at hc
  rcases d with _ | _ | ⟨d, l, hl⟩ <;> simp only [isFinite, Bool.false_eq_true] at hd
  have hdistance (x y : Bool) {i j : Nat} (hi : Representable i) (hj : Representable j) :
      |(finite x i hi).value - (finite y j hj).value| =
        (signed x i - signed y j).natAbs / unitsPerOne := by
    rw [value_finite, value_finite, ← sub_div, ← Int.cast_sub, abs_div, Nat.cast_natAbs,
      Int.cast_abs, abs_of_pos cast_unitsPerOne_pos]
  rw [hdistance, hdistance, div_le_div_iff_of_pos_right cast_unitsPerOne_pos, Nat.cast_le] at h
  refine le_iff_rank.2 ⟨_, _, rank_abs_sub a b hm hn, rank_abs_sub c d hk hl, ?_⟩
  have := roundUnits_le_roundUnits one_pos one_pos (Nat.mul_le_mul_right 1 h)
  omega

/-! ## Products and quotients -/

theorem signed_bne_mul (negative : Bool) (m n : Nat) :
    signed (negative != false) (m * n) = signed negative m * n := by
  cases negative <;> simp [signed]

/-- What multiplies the units by a quotient and keeps the infinities keeps the order. -/
theorem scale_le_scale {f : Binary64 → Binary64} (num : Nat) {den : Nat} (hden : 0 < den)
    (hinfinity : ∀ negative, f (infinity negative) = infinity negative)
    (hfinite : ∀ negative n hn,
      f (finite negative n hn) = ofQuotient (negative != false) (n * num) den)
    {a b : Binary64} (h : a ≤ b) : f a ≤ f b := by
  refine map_le_map hinfinity (fun {a} ha => ?_) (fun a b m n hm hn hle => ?_) h
  · rcases a with _ | a | ⟨a, m, hm⟩
    · cases ha
    · rw [hinfinity]
      rfl
    · rw [hfinite]
      exact isNaN_ofQuotient ..
  · rw [hfinite, hfinite]
    refine ofQuotient_le hden hden ?_
    rw [signed_bne_mul, signed_bne_mul]
    exact Int.mul_le_mul_of_nonneg_right (Int.mul_le_mul_of_nonneg_right hle (by omega)) (by omega)

/-- Multiplication with a number above zero. -/
theorem mul_le_mul_right {a b : Binary64} {k : Nat} {hk : Representable k} (h : a ≤ b)
    (hpos : 0 < k) : a * finite false k hk ≤ b * finite false k hk := by
  refine scale_le_scale (f := (· * finite false k hk)) k unitsPerOne_pos (fun negative => ?_)
    (fun negative n hn => ?_) h
  · show mul _ _ = _
    rw [mul, if_neg hpos.ne']
    cases negative <;> rfl
  · show mul _ _ = _
    rw [mul]

/-- Division by a number above zero. -/
theorem div_le_div_right {a b : Binary64} {k : Nat} {hk : Representable k} (h : a ≤ b)
    (hpos : 0 < k) : a / finite false k hk ≤ b / finite false k hk := by
  refine scale_le_scale (f := (· / finite false k hk)) unitsPerOne hpos (fun negative => ?_)
    (fun negative n hn => ?_) h
  · show div _ _ = _
    rw [div]
    cases negative <;> rfl
  · show div _ _ = _
    rw [div, if_neg hpos.ne']

/-! ## Whole parts -/

theorem signed_div_le_signed_div {a b : Bool} {m n : Nat} (h : signed a m ≤ signed b n) (d : Nat) :
    signed a (m / d) ≤ signed b (n / d) := by
  cases a <;> cases b <;> simp only [signed, if_true, if_false, Bool.false_eq_true] at h ⊢
  · exact_mod_cast Nat.div_le_div_right (by omega : m ≤ n)
  · obtain rfl : m = 0 := by omega
    obtain rfl : n = 0 := by omega
    simp
  · exact Int.le_trans (Int.neg_nonpos_of_nonneg (Int.natCast_nonneg _)) (Int.natCast_nonneg _)
  · exact Int.neg_le_neg (by exact_mod_cast Nat.div_le_div_right (by omega : n ≤ m))

theorem truncate_le_truncate {a b : Binary64} (h : a ≤ b) : a.truncate ≤ b.truncate := by
  obtain ⟨x, y, hx, hy, hxy⟩ := le_iff_rank.1 h
  rcases a with _ | a | ⟨a, m, hm⟩
  · cases hx
  · cases a with
    | false => rw [eq_infinity_of_le h]
    | true =>
      cases b with
      | nan => cases hy
      | infinity b => cases b <;> simp [truncate]
      | finite b n hn => exact Int.le_max_left ..
  rcases b with _ | b | ⟨b, n, hn⟩
  · cases hy
  · cases b with
    | false =>
      simp only [truncate, Bool.false_eq_true, if_false]
      omega
    | true => cases eq_negInfinity_of_le h
  obtain rfl : signed a m = x := Option.some.inj hx
  obtain rfl : signed b n = y := Option.some.inj hy
  have := signed_div_le_signed_div hxy unitsPerOne
  simp only [truncate]
  omega

/-! ## Consecutive doubles -/

theorem two_pow_dvd_of_representable {units shift : Nat} (h : Representable units)
    (hle : 2 ^ (52 + shift) ≤ units) : 2 ^ shift ∣ units := by
  have hpos : units ≠ 0 :=
    Nat.pos_iff_ne_zero.1 (Nat.lt_of_lt_of_le (Nat.two_pow_pos _) hle)
  have hlog := (Nat.le_log2 hpos).2 hle
  exact (Nat.pow_dvd_pow 2 (by omega)).trans h.2

/-- With 53 significant bits no double lies between a number and the next one. -/
theorem le_mul_two_pow_of_lt {units kept shift : Nat} (h : Representable units)
    (hkept : 2 ^ 52 ≤ kept) (hlt : units < (kept + 1) * 2 ^ shift) : units ≤ kept * 2 ^ shift := by
  by_contra hbetween
  have hlarge : 2 ^ (52 + shift) ≤ units := by
    rw [Nat.pow_add]
    exact (Nat.mul_le_mul_right _ hkept).trans (Nat.le_of_not_le hbetween)
  obtain ⟨count, rfl⟩ := two_pow_dvd_of_representable h hlarge
  rw [Nat.mul_comm, Nat.mul_lt_mul_right (Nat.two_pow_pos _)] at hlt
  rw [Nat.mul_comm, Nat.mul_le_mul_right_iff (Nat.two_pow_pos _)] at hbetween
  omega

theorem two_pow_le_unitLimit {k : Nat} (h : k ≤ limitShift) : 2 ^ k ≤ unitLimit := by
  unfold unitLimit
  generalize limitShift = shift at h ⊢
  exact Nat.pow_le_pow_right two_pos h

theorem representable_of_exponent {exponent kept : Nat} (hexponent : exponent < 2047)
    (hkept : kept < 2 ^ 53) : Representable (kept * 2 ^ (exponent - 1)) := by
  refine ⟨?_, two_pow_log2_dvd_mul hkept.le⟩
  calc kept * 2 ^ (exponent - 1) < 2 ^ 53 * 2 ^ (exponent - 1) :=
        Nat.mul_lt_mul_of_pos_right hkept (Nat.two_pow_pos _)
    _ = 2 ^ (53 + (exponent - 1)) := (Nat.pow_add ..).symm
    _ ≤ unitLimit := two_pow_le_unitLimit (by simp only [limitShift, unitShift]; omega)

/-- The positive numbers with all 53 bits, in the order of their interchange bits. -/
theorem ofBits_eq_finite {bits : Nat} (hlow : 1 ≤ bits / 2 ^ 52) (hhigh : bits / 2 ^ 52 < 2047) :
    ofBits bits = finite false ((2 ^ 52 + bits % 2 ^ 52) * 2 ^ (bits / 2 ^ 52 - 1))
      (representable_of_exponent hhigh (by omega)) := by
  have hsign : bits.testBit 63 = false := Nat.testBit_lt_two_pow (by omega)
  have hexponent : bits / 2 ^ 52 % 2 ^ 11 = bits / 2 ^ 52 := Nat.mod_eq_of_lt (by omega)
  unfold ofBits
  simp only [hsign, hexponent]
  rw [if_neg (by omega), if_neg (by omega)]
  exact ofQuotient_of_representable ..

/-- No double lies between two that have consecutive bits. -/
theorem le_ofBits_of_lt {x : Binary64} {bits : Nat} (hlow : 1 ≤ bits / 2 ^ 52)
    (hhigh : bits / 2 ^ 52 < 2047) (hlast : bits % 2 ^ 52 + 1 < 2 ^ 52)
    (h : x < ofBits (bits + 1)) :
    x ≤ ofBits bits := by
  have hexponent : (bits + 1) / 2 ^ 52 = bits / 2 ^ 52 := by omega
  have hfraction : (bits + 1) % 2 ^ 52 = bits % 2 ^ 52 + 1 := by omega
  rw [ofBits_eq_finite (hexponent.symm ▸ hlow) (hexponent.symm ▸ hhigh)] at h
  rw [ofBits_eq_finite hlow hhigh]
  obtain ⟨n, next, hn, hnext, hlt⟩ := lt_iff_rank.1 h
  obtain rfl := Option.some.inj hnext
  refine le_iff_rank.2 ⟨n, _, hn, rfl, ?_⟩
  simp only [signed, Bool.false_eq_true, if_false, hexponent, hfraction] at hlt ⊢
  rcases lt_or_ge 0 n with hpos | hneg
  · rcases rank_pos_cases hn hpos with ⟨-, rfl⟩ | ⟨units, hunits, -, rfl⟩
    · have hlimit := (representable_of_exponent hhigh (by omega :
        2 ^ 52 + (bits % 2 ^ 52 + 1) < 2 ^ 53)).1
      have := Nat.cast_lt.1 hlt
      omega
    · exact Int.ofNat_le.2
        (le_mul_two_pow_of_lt hunits (by omega) (by rw [Nat.add_assoc]; exact Int.ofNat_lt.1 hlt))
  · exact Int.le_trans hneg (Int.natCast_nonneg _)

theorem zero_lt_ofBits {bits : Nat} (hlow : 1 ≤ bits / 2 ^ 52) (hhigh : bits / 2 ^ 52 < 2047) :
    0 < ofBits bits := by
  have hpos : 0 < (2 ^ 52 + bits % 2 ^ 52) * 2 ^ (bits / 2 ^ 52 - 1) :=
    Nat.mul_pos (by omega) (Nat.two_pow_pos _)
  rw [ofBits_eq_finite hlow hhigh]
  exact lt_iff_rank.2 ⟨0, _, rank_zero, rfl, Int.natCast_pos.2 hpos⟩

/-- Up to the next number and other than it is up to the number. -/
theorem le_ofBits_of_ne {x : Binary64} {bits : Nat} (hlow : 1 ≤ bits / 2 ^ 52)
    (hhigh : bits / 2 ^ 52 < 2047) (hlast : bits % 2 ^ 52 + 1 < 2 ^ 52)
    (h : x ≤ ofBits (bits + 1)) (hne : x ≠ ofBits (bits + 1)) : x ≤ ofBits bits :=
  le_ofBits_of_lt hlow hhigh hlast
    (Binary64.lt_of_le_of_ne h (zero_lt_ofBits (by omega) (by omega)) hne)

end Binary64

end OpenLocation
