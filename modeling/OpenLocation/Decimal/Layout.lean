import OpenLocation.Decimal.Shortest

/-!
# Layouts of numbers

How a double is written. A `Layout` fixes what a format decides: which decimal
exponents are written out positionally, whether a whole number keeps a point,
which way ties go, and the words for what is not finite. The digits are the
shortest that read back. `fixed` writes a set number of places instead, rounded
from the exact value.
-/

namespace OpenLocation.Decimal

-- Powers are those of the core library, whatever else a reader of them imports.
attribute [local instance (high)] instPowNat

structure Layout where
  tie : Tie
  /-- Exponents of the leading digit that are written without an exponent mark. -/
  positional : Int → Bool
  /-- Whether a whole number ends in `.0`. -/
  keepsPoint : Bool
  nan : List Char
  infinity : Bool → List Char

/-- Digits of the coefficient without trailing zeros, and the exponent of the first. -/
def leading (d : Decimal) : List Char × Int :=
  let digits := Nat.toDigits 10 d.coefficient
  ((digits.reverse.dropWhile (· = '0')).reverse, digits.length - 1 + d.exponent)

/-- Digits written around the point. -/
def positionalText (digits : List Char) (exponent : Int) (keepsPoint : Bool) : List Char :=
  if exponent < 0 then
    '0' :: '.' :: (List.replicate (-exponent - 1).toNat '0' ++ digits)
  else
    let whole := (exponent + 1).toNat
    if digits.length ≤ whole then
      digits ++ List.replicate (whole - digits.length) '0' ++
        (if keepsPoint then ['.', '0'] else [])
    else digits.take whole ++ '.' :: digits.drop whole

/-- One digit before the point and a signed exponent after the rest. -/
def scientificText (digits : List Char) (exponent : Int) : List Char :=
  digits.take 1 ++ (if digits.length ≤ 1 then [] else '.' :: digits.drop 1) ++
    'e' :: (if exponent < 0 then '-' else '+') :: Nat.toDigits 10 exponent.natAbs

def Layout.magnitude (layout : Layout) (units : Nat) : List Char :=
  if units = 0 then positionalText ['0'] 0 layout.keepsPoint
  else
    let (digits, exponent) := (shortest layout.tie units).leading
    if layout.positional exponent then positionalText digits exponent layout.keepsPoint
    else scientificText digits exponent

def signText (negative : Bool) : List Char := if negative then ['-'] else []

def Layout.text (layout : Layout) : Binary64 → List Char
  | .nan => layout.nan
  | .infinity negative => layout.infinity negative
  | .finite negative units _ => signText negative ++ layout.magnitude units

/-- The words for what is not finite where numbers are for reading. -/
def infinityText (negative : Bool) : List Char := signText negative ++ "inf".toList

/-- All digits positionally, whole numbers without a point, ties upward. -/
def plain : Layout where
  tie := .upward
  positional _ := true
  keepsPoint := false
  nan := "NaN".toList
  infinity := infinityText

/-- The text of a digit count, zeros in front. -/
def padded (width n : Nat) : List Char :=
  let digits := Nat.toDigits 10 n
  List.replicate (width - digits.length) '0' ++ digits

/-- A set number of places, the exact value rounded to them, ties to even. -/
def fixed (places : Nat) : Binary64 → List Char
  | .nan => "NaN".toList
  | .infinity negative => infinityText negative
  | .finite negative units _ =>
    let scaled := nearestEven (units * 10 ^ places) unitsPerOne
    signText negative ++ Nat.toDigits 10 (scaled / 10 ^ places) ++
      '.' :: padded places (scaled % 10 ^ places)

end OpenLocation.Decimal
