import OpenLocation.Binary64.Basic

/-!
# Arithmetic of doubles

Sum, product, quotient and remainder are the exact results rounded once.
A sum that is exactly zero is positive unless both terms are negative. The
lesser and the greater of two numbers ignore a NaN beside a number. Whole
powers are taken by repeated squaring, a negative power being the reciprocal
of the positive one.
-/

namespace OpenLocation.Binary64

-- Powers are those of the core library, whatever else a reader of them imports.
attribute [local instance (high)] instPowNat

def neg : Binary64 → Binary64
  | nan => nan
  | infinity negative => infinity !negative
  | finite negative units h => finite (!negative) units h

def abs : Binary64 → Binary64
  | nan => nan
  | infinity _ => infinity false
  | finite _ units h => finite false units h

def add : Binary64 → Binary64 → Binary64
  | nan, _ | _, nan => nan
  | infinity a, infinity b => if a = b then infinity a else nan
  | infinity a, finite .. => infinity a
  | finite .., infinity b => infinity b
  | finite a x _, finite b y _ =>
    if signed a x + signed b y = 0 then zero (a && b)
    else ofQuotient (decide (signed a x + signed b y < 0)) (signed a x + signed b y).natAbs 1

def mul : Binary64 → Binary64 → Binary64
  | nan, _ | _, nan => nan
  | infinity a, infinity b => infinity (a != b)
  | infinity a, finite b y _ => if y = 0 then nan else infinity (a != b)
  | finite a x _, infinity b => if x = 0 then nan else infinity (a != b)
  | finite a x _, finite b y _ => ofQuotient (a != b) (x * y) unitsPerOne

def div : Binary64 → Binary64 → Binary64
  | nan, _ | _, nan => nan
  | infinity _, infinity _ => nan
  | infinity a, finite b .. => infinity (a != b)
  | finite a .., infinity b => zero (a != b)
  | finite a x _, finite b y _ =>
    if y = 0 then (if x = 0 then nan else infinity (a != b))
    else ofQuotient (a != b) (x * unitsPerOne) y

/-- What a division toward zero leaves, with the sign of the dividend. -/
def rem : Binary64 → Binary64 → Binary64
  | nan, _ | _, nan => nan
  | infinity _, _ => nan
  | finite a x h, infinity _ => finite a x h
  | finite a x _, finite _ y _ => if y = 0 then nan else ofQuotient a (x % y) 1

instance : Neg Binary64 := ⟨neg⟩
instance : Add Binary64 := ⟨add⟩
instance : Sub Binary64 := ⟨fun a b => add a (neg b)⟩
instance : Mul Binary64 := ⟨mul⟩
instance : Div Binary64 := ⟨div⟩
instance : Mod Binary64 := ⟨rem⟩

/-- The remainder moved into the range from zero to the divisor. -/
def euclideanRem (a b : Binary64) : Binary64 :=
  if a % b < 0 then a % b + abs b else a % b

/-- The lesser number; a NaN gives way to a number. -/
def lesser (a b : Binary64) : Binary64 :=
  if a.isNaN then b else if b.isNaN then a else if b < a then b else a

/-- The greater number; a NaN gives way to a number. -/
def greater (a b : Binary64) : Binary64 :=
  if a.isNaN then b else if b.isNaN then a else if a < b then b else a

/-- The nearest point of an interval; NaN stays NaN. -/
def clamp (a low high : Binary64) : Binary64 :=
  if a < low then low else if high < a then high else a

/-- The nearest whole number, the one farther from zero at half way. -/
def round : Binary64 → Binary64
  | finite negative units _ =>
    ofQuotient negative ((2 * units + unitsPerOne) / (2 * unitsPerOne) * unitsPerOne) 1
  | a => a

/-- The whole part, kept within 64 bits with a sign; zero for NaN. -/
def truncate : Binary64 → Int
  | nan => 0
  | infinity negative => if negative then -2 ^ (63 : Nat) else 2 ^ (63 : Nat) - 1
  | finite negative units _ =>
    max (-2 ^ (63 : Nat)) (min (signed negative (units / unitsPerOne)) (2 ^ (63 : Nat) - 1))

/-- The product of `product` with `base ^ exponent`, squaring the base once a bit. -/
def squaring (product base : Binary64) (exponent : Nat) : Binary64 :=
  if exponent = 0 then product
  else squaring (if exponent % 2 = 1 then product * base else product) (base * base) (exponent / 2)
termination_by exponent

def power (base : Binary64) (exponent : Int) : Binary64 :=
  if exponent < 0 then 1 / squaring 1 base exponent.natAbs else squaring 1 base exponent.natAbs

end OpenLocation.Binary64
