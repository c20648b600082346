import OpenLocation.Text.DefaultIgnorable
import OpenLocation.Text.GraphemeExtend
import OpenLocation.Text.Unprintable

/-!
# Quoted text

Text between double quotes in which every character shows. A quote and a backslash
follow a backslash; the null character, tabulator, line feed and carriage return
are a backslash and a letter or zero; other characters that do not show by
themselves are written by their code point as `\u{…}`.
-/

namespace OpenLocation.Text

/-- The halfwidth voiced and semi-voiced sound marks fill a cell of their own,
although they extend the grapheme before them. -/
def isHalfwidthSoundMark (c : Char) : Bool := c = '\uFF9E' || c = '\uFF9F'

/-- A character is seen and told apart where it stands: it prints, no display
leaves it out, and it does not merge with the one before. -/
def showsAlone (c : Char) : Bool :=
  !isUnprintable c && !isDefaultIgnorable c && (!isGraphemeExtend c || isHalfwidthSoundMark c)

/-- The hexadecimal code point between braces. -/
def codePointEscape (c : Char) : List Char :=
  ['\\', 'u', '{'] ++ Nat.toDigits 16 c.toNat ++ ['}']

def escape (c : Char) : List Char :=
  if c = '"' ∨ c = '\\' then ['\\', c]
  else if c = '\x00' then ['\\', '0']
  else if c = '\t' then ['\\', 't']
  else if c = '\r' then ['\\', 'r']
  else if c = '\n' then ['\\', 'n']
  else if showsAlone c then [c]
  else codePointEscape c

def quoted (text : List Char) : List Char := '"' :: (text.flatMap escape ++ ['"'])

end OpenLocation.Text
