import OpenLocation.Decimal.Numeral
import OpenLocation.Json.Content

/-!
# Tokens of JSON

`tokens` cuts a text into marks, literals, numbers and strings, white space left
out. A token that breaks off or is not well formed ends the list and carries its
fault. What counts as a fault depends on the use: a value that is skipped may hold
half a surrogate pair, and a number in it that breaks off is malformed, where one
that is read has ended early.
-/

namespace OpenLocation.Json

inductive Token where
  /-- A bracket, brace, colon or comma. -/
  | mark (c : Char)
  | literal
  | number (negative : Bool) (value : Decimal)
  /-- A string that ends; what it holds, if that can be read. -/
  | string (content : Except Fault (List Char))
  /-- A string that does not end, with its fault when read and when skipped. -/
  | brokenString (read skip : Fault)
  /-- A literal or number that does not end, with its fault when read and when skipped. -/
  | broken (read skip : Fault)
  /-- No token starts like this. -/
  | foreign

def isBlank (c : Char) : Bool := c = ' ' || c = '\t' || c = '\n' || c = '\r'

def isMark (c : Char) : Bool :=
  c = '[' || c = ']' || c = '{' || c = '}' || c = ':' || c = ','

/-! ## Literals and numbers -/

/-- What follows the first letter of a literal, if a literal starts so. -/
def literalRest? (c : Char) : Option (List Char) :=
  if c = 'n' then some "ull".toList
  else if c = 't' then some "rue".toList
  else if c = 'f' then some "alse".toList
  else none

/-- Compares with the letters that are left of a literal. -/
def literalToken : List Char → List Char → Token × List Char
  | [], rest => (.literal, rest)
  | _ :: _, [] => (.broken .earlyEnd .earlyEnd, [])
  | letter :: letters, c :: rest =>
    if c = letter then literalToken letters rest else (.broken .malformed .malformed, [])

/-- Where digits are missing: at the end of the text the number has broken off. -/
def missingDigit (rest : List Char) : Token × List Char :=
  if rest = [] then (.broken .earlyEnd .malformed, []) else (.broken .malformed .malformed, [])

/-- The number with these digits around the point, after a mark for its exponent. -/
def exponentPart (negative : Bool) (whole fraction rest : List Char) : Token × List Char :=
  let (below, rest) := Decimal.splitSign rest
  let (digits, rest) := Decimal.splitDigits rest
  if digits = [] then missingDigit rest
  else
    let exponent := signed below (Decimal.digitsValue digits)
    (.number negative (.ofParts whole fraction exponent), rest)

/-- The number with these digits around the point, and an exponent if there is one. -/
def scalePart (negative : Bool) (whole fraction : List Char) : List Char → Token × List Char
  | 'e' :: rest | 'E' :: rest => exponentPart negative whole fraction rest
  | rest => (.number negative (.ofParts whole fraction 0), rest)

/-- The number with these digits before the point. -/
def fractionPart (negative : Bool) (whole : List Char) : List Char → Token × List Char
  | '.' :: rest =>
    let (digits, rest) := Decimal.splitDigits rest
    if digits = [] then missingDigit rest else scalePart negative whole digits rest
  | rest => scalePart negative whole [] rest

/-- A number after its sign; a zero in front stands alone. -/
def numberToken (negative : Bool) (text : List Char) : Token × List Char :=
  let (digits, rest) := Decimal.splitDigits text
  if digits = [] then missingDigit rest
  else if digits.head? = some '0' ∧ digits.length ≠ 1 then (.broken .malformed .malformed, [])
  else fractionPart negative digits rest

/-! ## Strings -/

/-- A string after its opening quote. -/
def stringToken (text : List Char) : Token × List Char :=
  match pieces text with
  | (content, .ok rest) => (.string (joined none content), rest)
  | (content, .error fault) => (.brokenString (readFault content fault) fault, [])

/-! ## Texts -/

/-- The first token and what is left behind it. -/
def next? : List Char → Option (Token × List Char)
  | [] => none
  | c :: rest =>
    if isBlank c then next? rest
    else if isMark c then some (.mark c, rest)
    else if c = '"' then some (stringToken rest)
    else if c = '-' then some (numberToken true rest)
    else if c.isDigit then some (numberToken false (c :: rest))
    else match literalRest? c with
      | some letters => some (literalToken letters rest)
      | none => some (.foreign, [])

theorem length_splitDigits_le (text : List Char) :
    (Decimal.splitDigits text).2.length ≤ text.length :=
  (List.dropWhile_sublist _).length_le

theorem length_splitSign_le (text : List Char) :
    (Decimal.splitSign text).2.length ≤ text.length := by
  unfold Decimal.splitSign; split <;> simp

theorem length_literalToken_le (letters text : List Char) :
    (literalToken letters text).2.length ≤ text.length := by
  fun_induction literalToken letters text <;> simp_all
  omega

theorem length_missingDigit_le (text : List Char) : (missingDigit text).2.length ≤ text.length := by
  unfold missingDigit; split <;> simp

theorem length_exponentPart_le (negative : Bool) (whole fraction text : List Char) :
    (exponentPart negative whole fraction text).2.length ≤ text.length := by
  have h1 := length_splitSign_le text
  have h2 := length_splitDigits_le (Decimal.splitSign text).2
  have h3 := length_missingDigit_le (Decimal.splitDigits (Decimal.splitSign text).2).2
  simp only [exponentPart]
  split
  · omega
  · simp only; omega

theorem length_scalePart_le (negative : Bool) (whole fraction text : List Char) :
    (scalePart negative whole fraction text).2.length ≤ text.length := by
  unfold scalePart
  split
  · exact Nat.le_succ_of_le (length_exponentPart_le ..)
  · exact Nat.le_succ_of_le (length_exponentPart_le ..)
  · exact Nat.le_refl _

theorem length_fractionPart_le (negative : Bool) (whole text : List Char) :
    (fractionPart negative whole text).2.length ≤ text.length := by
  unfold fractionPart
  split
  · rename_i rest
    have h1 := length_splitDigits_le rest
    have h2 := length_missingDigit_le (Decimal.splitDigits rest).2
    have h3 := length_scalePart_le negative whole (Decimal.splitDigits rest).1
      (Decimal.splitDigits rest).2
    simp only [List.length_cons]
    split <;> omega
  · exact length_scalePart_le ..

/-- What is left behind a number is left behind its first digits or shorter. -/
theorem length_numberToken_le (negative : Bool) (text : List Char) :
    (numberToken negative text).2.length ≤ (Decimal.splitDigits text).2.length := by
  unfold numberToken
  simp only
  split
  · exact length_missingDigit_le _
  · split
    · simp
    · exact length_fractionPart_le ..

theorem length_stringToken_le (text : List Char) : (stringToken text).2.length ≤ text.length := by
  unfold stringToken
  split
  · rename_i h; exact length_pieces_le (congrArg Prod.snd h)
  · simp

theorem length_next?_lt {text rest : List Char} {t : Token} (h : next? text = some (t, rest)) :
    rest.length < text.length := by
  induction text with
  | nil => cases h
  | cons c tail ih =>
    unfold next? at h
    split at h
    · exact Nat.lt_succ_of_lt (ih h)
    split at h
    · cases h; simp
    split at h
    · obtain rfl : (stringToken tail).2 = rest := by rw [Option.some.inj h]
      exact Nat.lt_succ_of_le (length_stringToken_le tail)
    split at h
    · obtain rfl : (numberToken true tail).2 = rest := by rw [Option.some.inj h]
      exact Nat.lt_succ_of_le (Nat.le_trans (length_numberToken_le ..) (length_splitDigits_le _))
    split at h
    · rename_i hc
      obtain rfl : (numberToken false (c :: tail)).2 = rest := by rw [Option.some.inj h]
      refine Nat.lt_of_le_of_lt (length_numberToken_le ..) ?_
      have := length_splitDigits_le tail
      simp only [Decimal.splitDigits, List.dropWhile_cons_of_pos hc, List.length_cons] at this ⊢
      omega
    split at h
    · rename_i letters _
      obtain rfl : (literalToken letters tail).2 = rest := by rw [Option.some.inj h]
      exact Nat.lt_succ_of_le (length_literalToken_le letters tail)
    · cases h; simp

def tokens (text : List Char) : List Token :=
  match h : next? text with
  | none => []
  | some (t, rest) =>
    have : rest.length < text.length := length_next?_lt h
    t :: tokens rest
termination_by text.length

end OpenLocation.Json
