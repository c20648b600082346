/-!
# Double-precision numbers

A finite number is a sign and a whole number of units of `2 ^ -1074` with at
most 53 significant bits, so zero has two forms. `ofQuotient` rounds an exact
quotient of units once, a half way case going to the neighbour whose last kept
bit is zero; every operation of the arithmetic is such a rounding. `rank` puts
all numbers but NaN on one line, and comparisons are comparisons of ranks.
-/

namespace OpenLocation

-- Powers are those of the core library, whatever else a reader of them imports.
attribute [local instance (high)] instPowNat

/-- One is `2 ^ unitShift` units. -/
def unitShift : Nat := 1074

/-- Finite numbers have fewer than `2 ^ limitShift` units. -/
def limitShift : Nat := 1024 + unitShift

def unitsPerOne : Nat := 2 ^ unitShift

def unitLimit : Nat := 2 ^ limitShift

/-- Below `2 ^ 1024`, and no bit set after the leading 53. -/
def Representable (units : Nat) : Prop :=
  units < unitLimit ∧ 2 ^ (units.log2 - 52) ∣ units

instance (units : Nat) : Decidable (Representable units) :=
  inferInstanceAs (Decidable (_ ∧ _))

inductive Binary64 where
  | nan
  | infinity (negative : Bool)
  | finite (negative : Bool) (units : Nat) (representable : Representable units)
  deriving DecidableEq, Repr

def signed (negative : Bool) (magnitude : Nat) : Int :=
  if negative then -(magnitude : Int) else magnitude

/-! ## Rounding -/

/-- The whole number nearest to a quotient, the even one of two equally near. -/
def nearestEven (num den : Nat) : Nat :=
  if 2 * (num % den) < den ∨ 2 * (num % den) = den ∧ num / den % 2 = 0 then num / den
  else num / den + 1

/-- A quotient of units rounded to 53 significant bits. -/
def roundUnits (num den : Nat) : Nat :=
  nearestEven num (den * 2 ^ ((num / den).log2 - 52)) * 2 ^ ((num / den).log2 - 52)

theorem nearestEven_le (num den : Nat) : nearestEven num den ≤ num / den + 1 := by
  unfold nearestEven; split <;> omega

theorem le_nearestEven (num den : Nat) : num / den ≤ nearestEven num den := by
  unfold nearestEven; split <;> omega

theorem lt_two_pow_log2_succ (n : Nat) : n < 2 ^ (n.log2 + 1) := Nat.lt_log2_self

/-- The part kept of a quotient has at most 53 bits, or is the next power of two. -/
theorem nearestEven_le_two_pow (num den : Nat) :
    nearestEven num (den * 2 ^ ((num / den).log2 - 52)) ≤ 2 ^ (53 : Nat) := by
  refine Nat.le_trans (nearestEven_le _ _) ?_
  rw [← Nat.div_div_eq_div_mul]
  have hq := lt_two_pow_log2_succ (num / den)
  generalize num / den = q at hq ⊢
  have : q / 2 ^ (q.log2 - 52) < 2 ^ (53 : Nat) := by
    rw [Nat.div_lt_iff_lt_mul (Nat.two_pow_pos _), ← Nat.pow_add]
    exact Nat.lt_of_lt_of_le hq (Nat.pow_le_pow_right (by decide) (by omega))
  omega

theorem two_pow_log2_dvd_mul {m shift : Nat} (h : m ≤ 2 ^ (53 : Nat)) :
    2 ^ ((m * 2 ^ shift).log2 - 52) ∣ m * 2 ^ shift := by
  rcases Nat.lt_or_ge m (2 ^ (53 : Nat)) with hlt | hge
  · rcases Nat.eq_zero_or_pos m with rfl | hm
    · simp
    · have hne : m * 2 ^ shift ≠ 0 := Nat.mul_ne_zero (by omega) (by simp)
      have hb : m * 2 ^ shift < 2 ^ (53 + shift) := by
        rw [Nat.pow_add]
        exact Nat.mul_lt_mul_of_pos_right hlt (Nat.two_pow_pos _)
      have hl : (m * 2 ^ shift).log2 < 53 + shift := (Nat.log2_lt hne).2 hb
      exact Nat.dvd_trans (Nat.pow_dvd_pow 2 (by omega)) (Nat.dvd_mul_left _ _)
  · obtain rfl : m = 2 ^ (53 : Nat) := by omega
    rw [← Nat.pow_add, Nat.log2_two_pow]
    exact Nat.pow_dvd_pow 2 (by omega)

theorem two_pow_log2_dvd_roundUnits (num den : Nat) :
    2 ^ ((roundUnits num den).log2 - 52) ∣ roundUnits num den :=
  two_pow_log2_dvd_mul (nearestEven_le_two_pow num den)

namespace Binary64

/-- The number nearest to `num / den` units, infinite from `2 ^ 1024` on. -/
def ofQuotient (negative : Bool) (num den : Nat) : Binary64 :=
  if h : roundUnits num den < unitLimit then
    .finite negative (roundUnits num den) ⟨h, two_pow_log2_dvd_roundUnits num den⟩
  else .infinity negative

def zero (negative : Bool) : Binary64 :=
  .finite negative 0 ⟨Nat.two_pow_pos _, Nat.dvd_zero _⟩

def ofNat (n : Nat) : Binary64 := ofQuotient false (n * unitsPerOne) 1

def ofInt (i : Int) : Binary64 := ofQuotient (decide (i < 0)) (i.natAbs * unitsPerOne) 1

/--
The number nearest to `coefficient * 10 ^ exponent`. Powers of ten far outside
the range are not computed.
-/
def ofDecimal (negative : Bool) (coefficient : Nat) (exponent : Int) : Binary64 :=
  if coefficient = 0 then zero negative
  else if 400 < exponent then .infinity negative
  else if coefficient.log2 + 1 + exponent < -400 then zero negative
  else
    ofQuotient negative (coefficient * 10 ^ exponent.toNat * unitsPerOne)
      (10 ^ (-exponent).toNat)

instance (n : Nat) : OfNat Binary64 n := ⟨ofNat n⟩

instance : OfScientific Binary64 :=
  ⟨fun coefficient below exponent =>
    ofDecimal false coefficient (if below then -(exponent : Int) else exponent)⟩

/-! ## Order -/

/-- The place on the line in units, the infinities beyond every finite number. -/
def rank : Binary64 → Option Int
  | nan => none
  | infinity negative => some (signed negative unitLimit)
  | finite negative units _ => some (signed negative units)

def less (a b : Binary64) : Bool :=
  match a.rank, b.rank with
  | some x, some y => decide (x < y)
  | _, _ => false

def atMost (a b : Binary64) : Bool :=
  match a.rank, b.rank with
  | some x, some y => decide (x ≤ y)
  | _, _ => false

/-- Equal in value: the zeros are equal, NaN is not equal to itself. -/
def equal (a b : Binary64) : Bool :=
  match a.rank, b.rank with
  | some x, some y => decide (x = y)
  | _, _ => false

instance : LT Binary64 := ⟨fun a b => a.less b⟩
instance : LE Binary64 := ⟨fun a b => a.atMost b⟩
instance (a b : Binary64) : Decidable (a < b) := inferInstanceAs (Decidable (a.less b = true))
instance (a b : Binary64) : Decidable (a ≤ b) := inferInstanceAs (Decidable (a.atMost b = true))

def isNaN : Binary64 → Bool
  | nan => true
  | _ => false

def isFinite : Binary64 → Bool
  | finite .. => true
  | _ => false

/-! ## Interchange bits -/

def signBit (negative : Bool) : Nat := if negative then 2 ^ (63 : Nat) else 0

/-- The 64 bits of the interchange form, as a number. -/
def toBits : Binary64 → Nat
  | nan => 2047 * 2 ^ (52 : Nat) + 2 ^ (51 : Nat)
  | infinity negative => signBit negative + 2047 * 2 ^ (52 : Nat)
  | finite negative units _ =>
    signBit negative + (units.log2 - 52) * 2 ^ (52 : Nat) + units / 2 ^ (units.log2 - 52)

def ofBits (bits : Nat) : Binary64 :=
  let negative := bits.testBit 63
  let exponent := bits / 2 ^ (52 : Nat) % 2 ^ (11 : Nat)
  let fraction := bits % 2 ^ (52 : Nat)
  if exponent = 2047 then
    if fraction = 0 then .infinity negative else .nan
  else if exponent = 0 then ofQuotient negative fraction 1
  else ofQuotient negative ((2 ^ (52 : Nat) + fraction) * 2 ^ (exponent - 1)) 1

end Binary64

end OpenLocation
