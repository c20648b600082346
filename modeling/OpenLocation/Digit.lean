/-!
# Digits

The twenty digits of a code. Their symbols leave out vowels and characters that
are easily confused; a letter may be read in either case.
-/

namespace OpenLocation

abbrev Digit := Fin 20

namespace Digit

-- Zero is that of the core library, whatever else a reader of it imports.
attribute [local instance (high)] Zero.ofOfNat0

/-- Numbers of any size are taken round the digits. -/
instance neZero : NeZero 20 := ⟨by decide⟩

/-- The symbols in the order of their values. -/
def alphabet : List Char := "23456789CFGHJMPQRVWX".toList

theorem length_alphabet : alphabet.length = 20 := by decide

def symbol (d : Digit) : Char := alphabet.get (d.cast length_alphabet.symm)

/-- The digit whose symbol is the character in upper case. -/
def ofChar? (c : Char) : Option Digit :=
  (List.finRange 20).find? fun d : Digit => d.symbol = c.toUpper

/-- Reads a text all of whose characters are digits. -/
def ofText? : List Char → Option (List Digit)
  | [] => some []
  | c :: rest =>
    match ofChar? c, ofText? rest with
    | some d, some digits => some (d :: digits)
    | _, _ => none

/-- The symbols of digits. -/
def text (digits : List Digit) : List Char := digits.map symbol

theorem ofChar?_symbol (d : Digit) : ofChar? d.symbol = some d := by
  revert d; decide

theorem symbol_of_ofChar? {c : Char} {d : Digit} (h : ofChar? c = some d) :
    d.symbol = c.toUpper := by
  simpa using List.find?_some h

theorem ofText?_text (digits : List Digit) : ofText? (text digits) = some digits := by
  induction digits with
  | nil => rfl
  | cons d rest ih =>
    simp only [text, List.map_cons] at ih ⊢
    simp [ofText?, ofChar?_symbol, ih]

theorem text_of_ofText? {s : List Char} {digits : List Digit} (h : ofText? s = some digits) :
    text digits = s.map Char.toUpper := by
  induction s generalizing digits with
  | nil => simp_all [ofText?, text]
  | cons c rest ih =>
    simp only [ofText?] at h
    split at h
    · rename_i hd hr
      cases h
      simpa [text, symbol_of_ofChar? hd] using ih hr
    · cases h

end Digit

end OpenLocation
