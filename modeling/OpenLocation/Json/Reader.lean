import OpenLocation.Json.Token
import OpenLocation.Json.Writer

/-!
# Reading strings and pairs from JSON

A string is the first token of a text. A pair of numbers is read from an object that
has both of their names, once each and beside any other members, or from a list of
the two. The reader of pairs takes the tokens one after the other; the first that it
cannot take decides the fault, and a text that ends before it is done ends early.
Together with the writers this makes a codec.
-/

namespace OpenLocation.Json

/-! ## Single tokens -/

/-- The fault of a token where a value of another kind is read. -/
def Token.mismatch : Token → Fault
  | .mark c => if c = '[' ∨ c = '{' then .unexpected else .malformed
  | .literal => .unexpected
  | .number negative value =>
    if (value.toBinary64 negative).isFinite then .unexpected else .malformed
  | .string (.ok _) => .unexpected
  | .string (.error fault) => fault
  | .brokenString read _ => read
  | .broken read _ => read
  | .foreign => .malformed

/-- A number within the range of doubles. -/
def Token.double : Token → Except Fault Binary64
  | .number negative value =>
    if (value.toBinary64 negative).isFinite then .ok (value.toBinary64 negative)
    else .error .malformed
  | t => .error t.mismatch

def Token.text : Token → Except Fault (List Char)
  | .string content => content
  | t => .error t.mismatch

def Token.isMark (t : Token) (c : Char) : Bool :=
  match t with
  | .mark d => c == d
  | _ => false

/-- Reads a string, which is the first token. -/
def readString (text : List Char) : Except Fault (List Char × List Char) :=
  match next? text with
  | none => .error .earlyEnd
  | some (t, rest) => (t.text).map (·, rest)

/-- Reads an end, where no token is left. -/
def readEnd (text : List Char) : Except Fault Unit :=
  if (next? text).isNone then .ok () else .error .malformed

/-! ## Values that are skipped -/

inductive Bracket where
  | list
  | object
  deriving DecidableEq, Repr

def Bracket.closes (bracket : Bracket) (t : Token) : Bool :=
  match bracket with
  | .list => t.isMark ']'
  | .object => t.isMark '}'

/-- What comes next inside a value that is skipped. -/
inductive Stage where
  | value
  /-- The first item, or the closing bracket. -/
  | opening
  /-- A comma, or the closing bracket. -/
  | separator
  | key
  | colon
  deriving DecidableEq, Repr

/-- A value that is skipped: the brackets open in it, the innermost first, and its stage. -/
structure Skip where
  opened : List Bracket
  stage : Stage
  deriving DecidableEq, Repr

namespace Skip

/-- After a value; nothing is left to skip when no bracket is open. -/
def after (opened : List Bracket) : Option Skip :=
  if opened = [] then none else some ⟨opened, .separator⟩

def atValue (opened : List Bracket) : Token → Except Fault (Option Skip)
  | .mark '[' => .ok (some ⟨.list :: opened, .opening⟩)
  | .mark '{' => .ok (some ⟨.object :: opened, .opening⟩)
  | .literal | .number .. | .string _ => .ok (after opened)
  | .broken _ fault | .brokenString _ fault => .error fault
  | .mark _ | .foreign => .error .malformed

def atKey (opened : List Bracket) : Token → Except Fault (Option Skip)
  | .string _ => .ok (some ⟨opened, .colon⟩)
  | .brokenString _ fault => .error fault
  | _ => .error .malformed

/-- The start of an item of the innermost bracket. -/
def atItem (bracket : Bracket) (outer : List Bracket) (t : Token) : Except Fault (Option Skip) :=
  match bracket with
  | .list => atValue (bracket :: outer) t
  | .object => atKey (bracket :: outer) t

/-- Takes a token; nothing is left when it ends the value. -/
def step (s : Skip) (t : Token) : Except Fault (Option Skip) :=
  match s.opened, s.stage with
  | opened, .value => atValue opened t
  | opened, .key => atKey opened t
  | opened, .colon => if t.isMark ':' then .ok (some ⟨opened, .value⟩) else .error .malformed
  | bracket :: outer, .opening =>
    if bracket.closes t then .ok (after outer) else atItem bracket outer t
  | bracket :: outer, .separator =>
    if bracket.closes t then .ok (after outer)
    else if t.isMark ',' then
      .ok (some ⟨bracket :: outer, match bracket with | .list => .value | .object => .key⟩)
    else .error .malformed
  | [], _ => .ok none

end Skip

/-! ## Pairs -/

inductive Coordinate where
  | first
  | second
  deriving DecidableEq, Repr

/-- The numbers of an object read so far. -/
structure Found where
  first : Option Binary64
  second : Option Binary64
  deriving DecidableEq, Repr

namespace Found

def none : Found := ⟨.none, .none⟩

def has (found : Found) : Coordinate → Bool
  | .first => found.first.isSome
  | .second => found.second.isSome

def insert (found : Found) (x : Binary64) : Coordinate → Found
  | .first => { found with first := some x }
  | .second => { found with second := some x }

end Found

/-- What the reader of a pair expects. -/
inductive Expects where
  | value
  | listFirst
  | listComma (first : Binary64)
  | listSecond (first : Binary64)
  | listEnd (pair : Binary64 × Binary64)
  /-- A first key, or the closing brace. -/
  | objectStart
  | key (found : Found)
  /-- A colon after the name of a number, or of something to skip. -/
  | colon (found : Found) (coordinate : Option Coordinate)
  | coordinate (found : Found) (coordinate : Coordinate)
  | skipped (found : Found) (skip : Skip)
  /-- A comma, or the closing brace. -/
  | separator (found : Found)
  /-- Nothing more. -/
  | done (pair : Binary64 × Binary64)

namespace Expects

def coordinate? (names : List Char × List Char) (name : List Char) : Option Coordinate :=
  if name = names.1 then some .first
  else if name = names.2 then some .second
  else none

/-- Takes the key of a member; each of the two names may come once. -/
def atKey (names : List Char × List Char) (found : Found) : Token → Except Fault Expects
  | .string (.ok name) =>
    if (coordinate? names name).any found.has then .error .unexpected
    else .ok (.colon found (coordinate? names name))
  | .string (.error fault) | .brokenString fault _ => .error fault
  | _ => .error .malformed

/-- The end of an object, which must have both numbers. -/
def atClose (found : Found) : Except Fault Expects :=
  match found.first, found.second with
  | some first, some second => .ok (.done (first, second))
  | _, _ => .error .unexpected

/-- Takes a token of a value that is skipped. -/
def atSkip (found : Found) (skip : Skip) (t : Token) : Except Fault Expects :=
  match skip.step t with
  | .error fault => .error fault
  | .ok none => .ok (.separator found)
  | .ok (some skip) => .ok (.skipped found skip)

def step (names : List Char × List Char) (e : Expects) (t : Token) : Except Fault Expects :=
  match e with
  | value =>
    if t.isMark '[' then .ok listFirst
    else if t.isMark '{' then .ok objectStart
    else .error t.mismatch
  | listFirst => if t.isMark ']' then .error .unexpected else listComma <$> t.double
  | listComma first =>
    if t.isMark ',' then .ok (listSecond first)
    else if t.isMark ']' then .error .unexpected
    else .error .malformed
  | listSecond first => (fun second => listEnd (first, second)) <$> t.double
  | listEnd pair => if t.isMark ']' then .ok (done pair) else .error .malformed
  | objectStart => if t.isMark '}' then atClose .none else atKey names .none t
  | key found => atKey names found t
  | colon found (some name) =>
    if t.isMark ':' then .ok (coordinate found name) else .error .malformed
  | colon found none =>
    if t.isMark ':' then .ok (skipped found ⟨[], .value⟩) else .error .malformed
  | coordinate found name => (fun x => separator (found.insert x name)) <$> t.double
  | skipped found skip => atSkip found skip t
  | separator found =>
    if t.isMark ',' then .ok (key found)
    else if t.isMark '}' then atClose found
    else .error .malformed
  | done _ => .error .malformed

/-- The pair, if the reader is done. -/
def result : Expects → Except Fault (Binary64 × Binary64)
  | done pair => .ok pair
  | _ => .error .earlyEnd

end Expects

def readPair (names : List Char × List Char) (text : List Char) :
    Except Fault (Binary64 × Binary64) :=
  match (tokens text).foldlM (Expects.step names) .value with
  | .error fault => .error fault
  | .ok last => last.result

/-! ## The codec -/

instance compactCodec : Codec where
  writeString := string
  writeNumber := numberLayout.text
  writeCount := Nat.toDigits 10
  writeObject members := object (members.map fun member => (string member.1, member.2))
  readString := readString
  readEnd := readEnd
  readPair := readPair
  refusal _ := .unexpected

end OpenLocation.Json
