import OpenLocation.Code.Basic
import OpenLocation.Json.Reader
import OpenLocation.Location

/-!
# The JSON of codes and locations

A code is a string in JSON, and what is read from a string is checked like any other
text. A location is an object of its two coordinates. The codec is a parameter.
-/

namespace OpenLocation

variable [Json.Codec]

def Code.json (c : Code) : List Char := Json.Codec.writeString c.text

/-- Reads a code from a JSON string, letters in either case. -/
def Json.readCode (text : List Char) : Except Fault Code := do
  let (value, rest) ← Codec.readString text
  let c ← (Code.read value).mapError Codec.refusal
  Codec.readEnd rest
  return c

def Location.json (l : Location) : List Char :=
  Json.Codec.writeObject [
    ("latitude".toList, Json.Codec.writeNumber l.latitude),
    ("longitude".toList, Json.Codec.writeNumber l.longitude)]

/-- Reads a location from JSON text. -/
def Json.readLocation (text : List Char) : Except Fault Location := do
  let (latitude, longitude) ← Codec.readPair ("latitude".toList, "longitude".toList) text
  return ⟨latitude, longitude⟩

end OpenLocation
