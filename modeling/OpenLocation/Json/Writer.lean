import OpenLocation.Decimal.Layout

/-!
# Writing JSON

Numbers have the fewest digits that read back, a tie going to the even digit, and
at least one digit after the point. They are written positionally when the leading
digit stands between the fifth place after the point and the sixteenth before it,
and with a signed exponent otherwise. What is not finite is `null`. In strings
quotes, backslashes and control characters are escaped. No blanks are written.
-/

namespace OpenLocation.Json

def numberLayout : Decimal.Layout where
  tie := .toEven
  positional exponent := -5 ≤ exponent && exponent ≤ 15
  keepsPoint := true
  nan := "null".toList
  infinity _ := "null".toList

/-- Texts with a separator between them. -/
def separated (separator : List Char) (texts : List (List Char)) : List Char :=
  (texts.intersperse separator).flatten

/-- A character of a string; those that may not stand there by themselves are escaped. -/
def charText (c : Char) : List Char :=
  if c = '"' ∨ c = '\\' then ['\\', c]
  else if c = '\x08' then "\\b".toList
  else if c = '\x0c' then "\\f".toList
  else if c = '\n' then "\\n".toList
  else if c = '\r' then "\\r".toList
  else if c = '\t' then "\\t".toList
  else if c.toNat < 0x20 then
    "\\u00".toList ++ [Nat.digitChar (c.toNat / 16), Nat.digitChar (c.toNat % 16)]
  else [c]

def quoted (body : List Char) : List Char := '"' :: (body ++ ['"'])

def string (text : List Char) : List Char := quoted (text.flatMap charText)

def array (items : List (List Char)) : List Char :=
  '[' :: (separated [','] items ++ [']'])

/-- An object of the texts of names and values. -/
def object (members : List (List Char × List Char)) : List Char :=
  '{' :: (separated [','] (members.map fun member => member.1 ++ ':' :: member.2) ++ ['}'])

end OpenLocation.Json
