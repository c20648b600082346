import OpenLocation.Binary64.Basic
import OpenLocation.Error

/-!
# Codecs of JSON

What codes, places and areas need of JSON: texts of strings, numbers and objects, a reader that
takes a string off the front of a text, and one of objects with two numbers. They come from
outside of the project, so everything that is written as JSON or read from it has a `Codec` as a
parameter. The one that programs run with is made of the project's own readers and writers.
-/

namespace OpenLocation.Json

inductive Fault where
  /-- The text ends where more is needed. -/
  | earlyEnd
  /-- Not JSON. -/
  | malformed
  /-- JSON, but not of the kind that is read. -/
  | unexpected
  deriving DecidableEq, Repr

class Codec where
  writeString : List Char → List Char
  writeNumber : Binary64 → List Char
  writeCount : Nat → List Char
  /-- Writes an object of names with the texts of their values. -/
  writeObject : List (List Char × List Char) → List Char
  /-- Reads a string; what is left behind it comes with it. -/
  readString : List Char → Except Fault (List Char × List Char)
  /-- Reads the end of a text. -/
  readEnd : List Char → Except Fault Unit
  /-- Reads the two numbers that have these names, and the end of the text. -/
  readPair : List Char × List Char → List Char → Except Fault (Binary64 × Binary64)
  /-- The fault of a string that does not pass the check of the value it is read for. -/
  refusal : Error → Fault

end OpenLocation.Json
