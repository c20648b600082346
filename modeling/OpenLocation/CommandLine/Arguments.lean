import OpenLocation.CommandLine.Command

/-!
# Arguments

A reader of arguments. Before the name of the command only switches for verbosity,
the version and help may stand. After it come options with their values, in any order
and each at most once, switches for verbosity, and the code if the command takes one.
An argument after `--` is a code whatever it looks like. Names are written out in
full and in lower case. Who asks for help is helped, whatever comes next.
-/

namespace OpenLocation

namespace Arguments

/-! ## Single arguments -/

/-- The name of a command. -/
inductive Verb where
  | encode
  | decode
  | shorten
  | recover
  | validate
  deriving DecidableEq, Repr

def Verb.ofName? (name : List Char) : Option Verb :=
  if name = "encode".toList then some .encode
  else if name = "decode".toList then some .decode
  else if name = "shorten".toList then some .shorten
  else if name = "recover".toList then some .recover
  else if name = "validate".toList then some .validate
  else none

/-- An option that takes a value. -/
inductive Setting where
  | latitude
  | longitude
  | length
  | format
  deriving DecidableEq, Repr

def Setting.ofName? (name : List Char) : Option Setting :=
  if name = "lat".toList then some .latitude
  else if name = "lng".toList then some .longitude
  else if name = "length".toList then some .length
  else if name = "format".toList then some .format
  else none

def Verb.allows : Verb → Setting → Bool
  | .encode, .latitude | .encode, .longitude | .encode, .length => true
  | .decode, .format => true
  | .shorten, .latitude | .shorten, .longitude => true
  | .recover, .latitude | .recover, .longitude => true
  | _, _ => false

def Verb.takesCode : Verb → Bool
  | .encode => false
  | _ => true

inductive Argument where
  | verbose
  | version
  | help
  | setting (s : Setting) (value : Option (List Char))
  /-- The mark after which everything is a code. -/
  | codesFollow
  | plain (text : List Char)
  | wrong
  deriving DecidableEq, Repr

/-- A cluster of one-letter switches; version and help are told as soon as they are asked for. -/
def cluster : List Char → Argument
  | [] => .verbose
  | 'v' :: rest => cluster rest
  | 'V' :: _ => .version
  | 'h' :: _ => .help
  | _ :: _ => .wrong

/-- An argument behind two dashes, with a value if there is an equals sign. -/
def long (text : List Char) : Argument :=
  let name := text.takeWhile (· ≠ '=')
  match text.dropWhile (· ≠ '=') with
  | [] =>
    if name = [] then .codesFollow
    else if name = "verbose".toList then .verbose
    else if name = "version".toList then .version
    else if name = "help".toList then .help
    else match Setting.ofName? name with
      | some s => .setting s none
      | none => .wrong
  | _ :: value =>
    match Setting.ofName? name with
    | some s => .setting s (some value)
    | none => .wrong

def Argument.ofText : List Char → Argument
  | '-' :: '-' :: rest => long rest
  | '-' :: c :: rest => cluster (c :: rest)
  | text => .plain text

/-! ## Values of options -/

/-- Whether a minus sign in front makes a number: digits first, an exponent without a sign. -/
def isUnsignedNumber (text : List Char) : Bool :=
  let (whole, rest) := Decimal.splitDigits text
  let (_, rest) := Decimal.splitFraction rest
  whole ≠ [] && match rest with
    | [] => true
    | mark :: digits => (mark = 'e' || mark = 'E') && digits ≠ [] && digits.all Char.isDigit

/-- Whether an argument can be the value of the option before it. -/
def isValue (s : Setting) : List Char → Bool
  | '-' :: '-' :: _ => false
  | '-' :: c :: rest =>
    (s = .latitude || s = .longitude) && isUnsignedNumber (c :: rest)
  | _ => true

/-! ## All arguments -/

/-- The code and the options found so far, and whether help was asked for after them. -/
structure Gathered where
  code : Option (List Char)
  values : List (Setting × List Char)
  help : Bool
  deriving DecidableEq, Repr

namespace Gathered

def empty : Gathered := ⟨none, [], false⟩

def value? (g : Gathered) (s : Setting) : Option (List Char) :=
  (g.values.find? (·.1 = s)).map (·.2)

/-- Adds an option that the command allows and that is not there yet. -/
def addValue (g : Gathered) (verb : Verb) (s : Setting) (value : List Char) : Option Gathered :=
  if verb.allows s ∧ g.value? s = none then some { g with values := (s, value) :: g.values }
  else none

def addCode (g : Gathered) (verb : Verb) (text : List Char) : Option Gathered :=
  if verb.takesCode ∧ g.code = none then some { g with code := some text } else none

end Gathered

/-- Gathers what follows the name of a command. -/
def gather (verb : Verb) (g : Gathered) : List (List Char) → Option Gathered
  | [] => some g
  | argument :: rest =>
    match Argument.ofText argument with
    | .verbose => gather verb g rest
    | .help => some { g with help := true }
    | .plain text => (g.addCode verb text).bind (gather verb · rest)
    | .codesFollow => rest.foldlM (·.addCode verb ·) g
    | .setting s (some value) => (g.addValue verb s value).bind (gather verb · rest)
    | .setting s none =>
      match rest with
      | [] => none
      | value :: rest =>
        if isValue s value then (g.addValue verb s value).bind (gather verb · rest) else none
    | .version | .wrong => none

def Gathered.location? (g : Gathered) : Option Location := do
  let latitude ← (← g.value? .latitude) |> Decimal.double?
  let longitude ← (← g.value? .longitude) |> Decimal.double?
  return ⟨latitude, longitude⟩

/-- The number of digits asked for. -/
def Gathered.length? (g : Gathered) : Option Nat :=
  match g.value? .length with
  | some text => Decimal.count? text
  | none => some defaultDigits

def Gathered.format? (g : Gathered) : Option Format :=
  match g.value? .format with
  | some name => Format.ofName? name
  | none => some .text

def Gathered.command? (g : Gathered) : Verb → Option Command
  | .encode => return .encode (← g.location?) (← g.length?)
  | .decode => return .decode (← g.code) (← g.format?)
  | .shorten => return .shorten (← g.code) (← g.location?)
  | .recover => return .recover (← g.code) (← g.location?)
  | .validate => return .validate (← g.code)

/-! ## Requests -/

def versionText : List Char := "pluscode 0.1.0".toList

def helpText : List Char :=
  ("Encode, decode, shorten and recover Plus Codes\n\n" ++
    "Usage: pluscode [OPTIONS] <COMMAND>\n\n" ++
    "Commands:\n" ++
    "  encode    Encode a location as a Plus Code\n" ++
    "  decode    Decode a full Plus Code into its area\n" ++
    "  shorten   Shorten a full code relative to a reference location\n" ++
    "  recover   Recover the nearest full code from a short code and a reference location\n" ++
    "  validate  Report whether a code is valid, short or full\n" ++
    "  help      Print this message\n\n" ++
    "Options:\n" ++
    "  -v, --verbose...  Increase log verbosity\n" ++
    "  -h, --help        Print help\n" ++
    "  -V, --version     Print version").toList

def Gathered.request? (g : Gathered) (verb : Verb) : Option Request :=
  if g.help then some (.about helpText) else (g.command? verb).map .command

/-- What follows the name `help`: nothing, or a name of something to be helped with. -/
def helpRequest? : List (List Char) → Option Request
  | [] => some (.about helpText)
  | [name] =>
    if name = "help".toList ∨ (Verb.ofName? name).isSome then some (.about helpText) else none
  | _ => none

/-- Reads the arguments; there is no request if they are used wrongly. -/
def request? : List (List Char) → Option Request
  | [] => none
  | argument :: rest =>
    match Argument.ofText argument with
    | .verbose => request? rest
    | .version => some (.about versionText)
    | .help => some (.about helpText)
    | .plain name =>
      if name = "help".toList then helpRequest? rest
      else do
        let verb ← Verb.ofName? name
        (← gather verb .empty rest).request? verb
    | .setting .. | .codesFollow | .wrong => none

instance plainReader : Reader where
  read arguments :=
    match request? arguments with
    | some request => .ok request
    | none => .error "error: wrong usage".toList

end Arguments

end OpenLocation
