import OpenLocation.Digit
import OpenLocation.Error

/-!
# Codes

A code is digits around a separator. Up to eight digits stand before it, an even
number of them; either none or at least two after it. A code may instead fill up
to the separator with padding, and then ends there. A code with fewer than eight
places before the separator is short; one with all eight is full if its first two
digits name a place on the globe. `Code.ofText?` reads a code with letters in
either case, and `Code.text` writes it in upper case.
-/

namespace OpenLocation

/-- Places before the separator of a code that is not short. -/
def separatorPosition : Nat := 8

namespace Code

/-- The numbers of digits and paddings that a code may have. -/
def Shape (lead padding tail : Nat) : Prop :=
  lead % 2 = 0 ∧
    (padding = 0 ∧ lead ≤ separatorPosition ∧ tail ≠ 1 ∧ 0 < lead + tail ∨
      0 < padding ∧ 0 < lead ∧ lead + padding = separatorPosition ∧ tail = 0)

instance (lead padding tail : Nat) : Decidable (Shape lead padding tail) :=
  inferInstanceAs (Decidable (_ ∧ _))

end Code

structure Code where
  /-- Digits before the separator. -/
  lead : List Digit
  /-- Paddings before the separator. -/
  padding : Nat
  /-- Digits after the separator. -/
  tail : List Digit
  shape : Code.Shape lead.length padding tail.length
  deriving DecidableEq, Repr

namespace Code

def separator : Char := '+'

def paddingSymbol : Char := '0'

/-- All digits, padding and separator left out. -/
def digits (c : Code) : List Digit := c.lead ++ c.tail

def text (c : Code) : List Char :=
  Digit.text c.lead ++ List.replicate c.padding paddingSymbol ++ separator :: Digit.text c.tail

/-- The code of these digits, paddings and digits, if they have the shape of one. -/
def ofParts? (lead : List Digit) (padding : Nat) (tail : List Digit) : Option Code :=
  if h : Shape lead.length padding tail.length then some ⟨lead, padding, tail, h⟩ else none

def ofText? (text : List Char) : Option Code :=
  let before := text.takeWhile (· ≠ separator)
  let paddings := before.dropWhile (· ≠ paddingSymbol)
  match text.dropWhile (· ≠ separator) with
  | [] => none
  | _ :: after =>
    match Digit.ofText? (before.takeWhile (· ≠ paddingSymbol)), Digit.ofText? after with
    | some lead, some tail =>
      if paddings.all (· = paddingSymbol) then ofParts? lead paddings.length tail else none
    | _, _ => none

/-! ## Reading what is written -/

theorem takeWhile_text_append (p : Char → Bool) (hp : ∀ d : Digit, p d.symbol = true)
    (digits : List Digit) (rest : List Char) :
    (Digit.text digits ++ rest).takeWhile p = Digit.text digits ++ rest.takeWhile p := by
  rw [List.takeWhile_append_of_pos]
  simp [Digit.text, hp]

theorem dropWhile_text_append (p : Char → Bool) (hp : ∀ d : Digit, p d.symbol = true)
    (digits : List Digit) (rest : List Char) :
    (Digit.text digits ++ rest).dropWhile p = rest.dropWhile p := by
  rw [List.dropWhile_append_of_pos]
  simp [Digit.text, hp]

theorem symbol_ne_separator (d : Digit) : decide (d.symbol ≠ separator) = true := by
  revert d; decide

theorem symbol_ne_paddingSymbol (d : Digit) : decide (d.symbol ≠ paddingSymbol) = true := by
  revert d; decide

theorem takeWhile_separator_text (c : Code) :
    c.text.takeWhile (· ≠ separator) =
      Digit.text c.lead ++ List.replicate c.padding paddingSymbol := by
  rw [text, List.append_assoc, takeWhile_text_append _ symbol_ne_separator,
    List.takeWhile_append_of_pos (by simp [paddingSymbol, separator])]
  simp

theorem dropWhile_separator_text (c : Code) :
    c.text.dropWhile (· ≠ separator) = separator :: Digit.text c.tail := by
  rw [text, List.append_assoc, dropWhile_text_append _ symbol_ne_separator,
    List.dropWhile_append_of_pos (by simp [paddingSymbol, separator])]
  simp

theorem ofText?_text (c : Code) : ofText? c.text = some c := by
  have takes : (Digit.text c.lead ++ List.replicate c.padding paddingSymbol).takeWhile
      (· ≠ paddingSymbol) = Digit.text c.lead := by
    rw [takeWhile_text_append _ symbol_ne_paddingSymbol]
    cases c.padding <;> simp [List.replicate_succ]
  have drops : (Digit.text c.lead ++ List.replicate c.padding paddingSymbol).dropWhile
      (· ≠ paddingSymbol) = List.replicate c.padding paddingSymbol := by
    rw [dropWhile_text_append _ symbol_ne_paddingSymbol]
    cases c.padding <;> simp [List.replicate_succ]
  simp only [ofText?, takeWhile_separator_text, dropWhile_separator_text, takes, drops,
    Digit.ofText?_text, List.length_replicate, ofParts?, c.shape]
  simp

/-- Reads a code or tells that the text is none. -/
def read (text : List Char) : Except Error Code :=
  match ofText? text with
  | some c => .ok c
  | none => .error (.invalidCode text)

theorem text_injective {c d : Code} (h : c.text = d.text) : c = d := by
  have := ofText?_text c
  rw [h, ofText?_text] at this
  exact (Option.some.inj this).symm

/-! ## Kinds of codes -/

def isShort (c : Code) : Bool := c.lead.length + c.padding < separatorPosition

/-- Whether the first row starts below 180 degrees and the first column below 360. -/
def isOnGlobe (c : Code) : Bool :=
  match c.lead with
  | row :: column :: _ => row < (9 : Digit) && column < (18 : Digit)
  | _ => false

def isFull (c : Code) : Bool := !c.isShort && c.isOnGlobe

/-! ## Kinds of texts -/

/-- The characters that count as digits, also of a text that is no code. -/
def significant (text : List Char) : List Char :=
  (text.filter (· ≠ separator)).takeWhile (· ≠ paddingSymbol)

/-- What there is to know about a text without a reference location. -/
structure Kind where
  isValid : Bool
  isShort : Bool
  isFull : Bool
  digitCount : Nat
  deriving DecidableEq, Repr

def kind (text : List Char) : Kind where
  isValid := (ofText? text).isSome
  isShort := (ofText? text).any isShort
  isFull := (ofText? text).any isFull
  digitCount := (significant text).length

end Code

end OpenLocation
