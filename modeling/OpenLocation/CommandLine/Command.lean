import OpenLocation.Area.Outline
import OpenLocation.Code.Reference
import OpenLocation.Decimal.Numeral

/-!
# Commands

What the command line can do, and what each command prints. A command that is given
a text it has no use for fails with an error instead. How the arguments of a run ask
for a command is a parameter.
-/

namespace OpenLocation

/-- How an area is printed. -/
inductive Format where
  | text
  | json
  | wellKnownText
  | geometry
  deriving DecidableEq, Repr

def Format.ofName? (name : List Char) : Option Format :=
  if name = "text".toList then some .text
  else if name = "json".toList then some .json
  else if name = "wkt".toList then some .wellKnownText
  else if name = "geojson".toList then some .geometry
  else none

/-- Four lines for a reader. -/
def Area.summary (a : Area) : List Char :=
  "Latitude: ".toList ++ Decimal.plain.text a.south ++ " to ".toList ++
    Decimal.plain.text a.north ++
    "\nLongitude: ".toList ++ Decimal.plain.text a.west ++ " to ".toList ++
    Decimal.plain.text a.east ++
    "\nCenter: ".toList ++ Decimal.fixed 6 a.center.latitude ++ ", ".toList ++
    Decimal.fixed 6 a.center.longitude ++
    "\nLength: ".toList ++ Nat.toDigits 10 a.digitCount

def Area.print [Polygons] [Json.Codec] (a : Area) : Format → List Char
  | .text => a.summary
  | .json => a.json
  | .wellKnownText => a.wellKnownText
  | .geometry => a.geometry

inductive Command where
  | encode (location : Location) (requested : Nat)
  | decode (code : List Char) (format : Format)
  | shorten (code : List Char) (reference : Location)
  | recover (code : List Char) (reference : Location)
  | validate (code : List Char)
  deriving DecidableEq, Repr

def boolText (b : Bool) : List Char := if b then "true".toList else "false".toList

/-- Four lines about a code. -/
def Code.Kind.summary (kind : Code.Kind) : List Char :=
  "valid: ".toList ++ boolText kind.isValid ++ "\nshort: ".toList ++ boolText kind.isShort ++
    "\nfull: ".toList ++ boolText kind.isFull ++
    "\nlength: ".toList ++ Nat.toDigits 10 kind.digitCount

/-- What a command prints, without the end of the last line. -/
def Command.output [Polygons] [Json.Codec] : Command → Except Error (List Char)
  | encode location requested => .ok (Code.ofLocation location requested).text
  | decode code format => (Code.areaOfText code).map (·.print format)
  | shorten code reference =>
    if (Code.kind code).isFull then .ok (Code.shortenText code reference)
    else .error (.invalidCode code)
  | recover code reference =>
    if (Code.kind code).isValid then .ok (Code.recoverText code reference)
    else .error (.invalidCode code)
  | validate code =>
    if (Code.kind code).isValid then .ok (Code.kind code).summary
    else .error (.invalidCode code)

/-! ## Runs of the program -/

/-- What the arguments ask for. -/
inductive Request where
  /-- To be told about the program. -/
  | about (text : List Char)
  | command (c : Command)
  deriving DecidableEq, Repr

/-- A reader of the arguments. If they are used wrongly, it says so in a message. -/
class Arguments.Reader where
  read : List (List Char) → Except (List Char) Request

/-- How a run of the program ends. -/
inductive Outcome where
  | printed (text : List Char)
  | failed (e : Error)
  | wrongUsage (message : List Char)
  deriving DecidableEq, Repr

namespace Outcome

def ofArguments [Arguments.Reader] [Polygons] [Json.Codec] (arguments : List (List Char)) :
    Outcome :=
  match Arguments.Reader.read arguments with
  | .error message => wrongUsage message
  | .ok (.about text) => printed text
  | .ok (.command c) =>
    match c.output with
    | .ok text => printed text
    | .error e => failed e

def exitCode : Outcome → Nat
  | printed _ => 0
  | failed _ => 1
  | wrongUsage _ => 2

/-- What goes to standard output. -/
def output : Outcome → List Char
  | printed text => text ++ ['\n']
  | _ => []

/-- The line on standard error, without its end. -/
def errorLine : Outcome → List Char
  | printed _ => []
  | failed e => "error: ".toList ++ e.message
  | wrongUsage message => message

end Outcome

end OpenLocation
