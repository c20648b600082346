import OpenLocation.Text.Quoted

/-!
# Errors

What goes wrong with a text that should be a code, or with text that should be
read or written, and how it is told.
-/

namespace OpenLocation

inductive Error where
  /-- Not a code, or one that names no place on the globe. -/
  | invalidCode (text : List Char)
  /-- A short code where a full one is needed. -/
  | notFullCode (text : List Char)
  | serialization (detail : List Char)
  deriving DecidableEq, Repr

def Error.message : Error → List Char
  | invalidCode text => "Invalid Plus Code: ".toList ++ Text.quoted text
  | notFullCode text =>
    "Not a full Plus Code: ".toList ++ Text.quoted text ++ " (recover it first)".toList
  | serialization detail => "Serialization error: ".toList ++ detail

end OpenLocation
