import OpenLocation.Decimal.Shortest

/-!
# Numerals

Reads numbers as they are typed. A double is an optional sign and either digits
with an optional point and exponent, a digit at least on one side of the point,
or a word for NaN or infinity in any case. A count is digits, with a plus sign
allowed, below `2 ^ 64`. Nothing may stand before or after.
-/

namespace OpenLocation.Decimal

-- Powers are those of the core library, whatever else a reader of them imports.
attribute [local instance (high)] instPowNat

def digitValue (c : Char) : Nat := c.toNat - '0'.toNat

/-- The number written by decimal digits. -/
def digitsValue (digits : List Char) : Nat :=
  digits.foldl (fun n c => 10 * n + digitValue c) 0

/-- Splits off a sign; true for a minus. -/
def splitSign : List Char → Bool × List Char
  | '-' :: rest => (true, rest)
  | '+' :: rest => (false, rest)
  | text => (false, text)

/-- Splits off the digits in front. -/
def splitDigits (text : List Char) : List Char × List Char :=
  (text.takeWhile Char.isDigit, text.dropWhile Char.isDigit)

/-- The digits after a point, if there is a point. -/
def splitFraction : List Char → List Char × List Char
  | '.' :: rest => splitDigits rest
  | text => ([], text)

/-- The decimal with these digits around the point. -/
def ofParts (whole fraction : List Char) (exponent : Int) : Decimal :=
  ⟨digitsValue (whole ++ fraction), exponent - fraction.length⟩

/-- A signed exponent, all of the text. -/
def exponent? (text : List Char) : Option Int :=
  let (negative, digits) := splitSign text
  if digits ≠ [] ∧ digits.all Char.isDigit then some (signed negative (digitsValue digits))
  else none

/-- A decimal without a sign, all of the text. -/
def unsigned? (text : List Char) : Option Decimal :=
  let (whole, rest) := splitDigits text
  let (fraction, rest) := splitFraction rest
  if whole ++ fraction = [] then none
  else match rest with
    | [] => some (ofParts whole fraction 0)
    | mark :: rest =>
      if mark = 'e' ∨ mark = 'E' then (exponent? rest).map (ofParts whole fraction) else none

/-- Words for what is not finite, in any case. -/
def special? (negative : Bool) (text : List Char) : Option Binary64 :=
  let word := text.map Char.toLower
  if word = "nan".toList then some .nan
  else if word = "inf".toList ∨ word = "infinity".toList then some (.infinity negative)
  else none

/-- The double nearest to a signed decimal. -/
def toBinary64 (d : Decimal) (negative : Bool) : Binary64 :=
  .ofDecimal negative d.coefficient d.exponent

/-- Reads a double. -/
def double? (text : List Char) : Option Binary64 :=
  let (negative, rest) := splitSign text
  match unsigned? rest with
  | some d => some (d.toBinary64 negative)
  | none => special? negative rest

/-- Reads a count below `2 ^ 64`. -/
def count? (text : List Char) : Option Nat :=
  let digits := match text with
    | '+' :: rest => rest
    | _ => text
  if digits ≠ [] ∧ digits.all Char.isDigit ∧ digitsValue digits < 2 ^ (64 : Nat) then
    some (digitsValue digits)
  else none

end OpenLocation.Decimal
