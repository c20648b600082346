import OpenLocation.Json.Codec

/-!
# The content of JSON strings

`pieces` takes a string apart up to its closing quote, each escape undone but for
16-bit units given by their number. `joined` makes text of the pieces; a surrogate
that is not one of a pair is a fault.
-/

namespace OpenLocation.Json

/-- A character of a string, or a 16-bit unit given by its number. -/
inductive Piece where
  | char (c : Char)
  | unit (n : Nat)
  deriving DecidableEq, Repr

def hexDigit? (c : Char) : Option Nat :=
  if c.isDigit then some (c.toNat - '0'.toNat)
  else if 'a' ≤ c ∧ c ≤ 'f' then some (c.toNat - 'a'.toNat + 10)
  else if 'A' ≤ c ∧ c ≤ 'F' then some (c.toNat - 'A'.toNat + 10)
  else none

/-- The number of a unit from four hexadecimal digits. -/
def hexUnit? (a b c d : Char) : Option Nat := do
  return (((← hexDigit? a) * 16 + (← hexDigit? b)) * 16 + (← hexDigit? c)) * 16 + (← hexDigit? d)

/-- The character that a letter after a backslash stands for. -/
def escaped? (c : Char) : Option Char :=
  if c = '"' ∨ c = '\\' ∨ c = '/' then some c
  else if c = 'b' then some '\x08'
  else if c = 'f' then some '\x0c'
  else if c = 'n' then some '\n'
  else if c = 'r' then some '\r'
  else if c = 't' then some '\t'
  else none

/-- The bytes that a text takes. -/
def byteCount (text : List Char) : Nat := text.foldl (fun bytes c => bytes + c.utf8Size) 0

/-- The fault of a numbered unit; it takes four bytes, whatever they are. -/
def unitFault (rest : List Char) : Fault := if byteCount rest < 4 then .earlyEnd else .malformed

/-- A piece in front of others. -/
def ahead (piece : Piece) (found : List Piece × Except Fault (List Char)) :
    List Piece × Except Fault (List Char) :=
  (piece :: found.1, found.2)

/-- The pieces up to the closing quote with the text behind it, or up to a fault. -/
def pieces : List Char → List Piece × Except Fault (List Char)
  | [] => ([], .error .earlyEnd)
  | '"' :: rest => ([], .ok rest)
  | ['\\'] => ([], .error .earlyEnd)
  | '\\' :: 'u' :: a :: b :: c :: d :: rest =>
    match hexUnit? a b c d with
    | some n => ahead (.unit n) (pieces rest)
    | none => ([], .error .malformed)
  | '\\' :: letter :: rest =>
    if letter = 'u' then ([], .error (unitFault rest))
    else match escaped? letter with
      | some c => ahead (.char c) (pieces rest)
      | none => ([], .error .malformed)
  | c :: rest =>
    if c.toNat < 0x20 then ([], .error .malformed)
    else ahead (.char c) (pieces rest)

def isLeading (n : Nat) : Bool := 0xD800 ≤ n && n ≤ 0xDBFF

def isTrailing (n : Nat) : Bool := 0xDC00 ≤ n && n ≤ 0xDFFF

/-- The character of a surrogate pair. -/
def pairChar (leading trailing : Nat) : Char :=
  Char.ofNat (0x10000 + (leading - 0xD800) * 0x400 + (trailing - 0xDC00))

/--
The text of pieces, surrogates joined in pairs; one that is alone is a fault.
`ending` is the fault after the pieces, if there is one.
-/
def joined (ending : Option Fault) : List Piece → Except Fault (List Char)
  | [] => match ending with
    | some fault => .error fault
    | none => .ok []
  | .char c :: rest => (c :: ·) <$> joined ending rest
  | .unit n :: rest =>
    if isTrailing n then .error .malformed
    else if isLeading n then
      match rest with
      | .unit m :: rest =>
        if isTrailing m then (pairChar n m :: ·) <$> joined ending rest else .error .malformed
      | .char _ :: _ => .error .malformed
      | [] => .error (ending.getD .malformed)
    else (Char.ofNat n :: ·) <$> joined ending rest

/-- The fault of reading pieces that end in a fault. -/
def readFault (pieces : List Piece) (fault : Fault) : Fault :=
  match joined (some fault) pieces with
  | .error first => first
  | .ok _ => fault

theorem length_pieces_le {text rest : List Char} (h : (pieces text).2 = .ok rest) :
    rest.length ≤ text.length := by
  fun_induction pieces text with
  | case1 => cases h
  | case2 => cases h; simp
  | case3 => cases h
  | case4 a b c d tail n hn ih => have := ih h; simp only [List.length_cons]; omega
  | case5 => cases h
  | case6 => cases h
  | case7 letter tail _ _ c hc ih => have := ih h; simp only [List.length_cons]; omega
  | case8 => cases h
  | case9 => cases h
  | case10 c tail _ _ _ _ _ ih => have := ih h; simp only [List.length_cons]; omega

end OpenLocation.Json
