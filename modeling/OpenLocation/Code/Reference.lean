import OpenLocation.Area
import OpenLocation.Code.Located
import OpenLocation.Text.Uppercase

/-!
# Codes near a reference location

Near a known place the leading digits of a code can be left out. `Code.shorten`
drops as many as the distance of the reference allows, and `Code.recover` fills
in the ones of the nearest code that ends in the same digits.
-/

namespace OpenLocation.Code

/-! ## Shortening -/

/-- The code without its first digits, if that leaves a code. -/
def dropLead (c : Code) (count : Nat) : Code :=
  (ofParts? (c.lead.drop count) c.padding c.tail).getD c

/-- The larger of the distances in latitude and longitude between a location and a reference. -/
def offset (center : Location) (latitude longitude : Binary64) : Binary64 :=
  ((center.latitude - latitude).abs).greater (center.longitude - longitude).abs

/--
How many leading digits the reference makes superfluous: it must be nearer to the
center than three tenths of the cell that they name. One digit stays at least, and
only a full code without padding loses any.
-/
def removable (c : Code) (reference : Location) : Nat :=
  if c.isFull ∧ c.padding = 0 then
    let distance := offset (Area.ofDigits c.digits).center
      (adjustLatitude reference.latitude c.digits.length) (wrapLongitude reference.longitude)
    ([8, 6, 4].find? fun count =>
      count < c.digits.length ∧ distance < precision count * 0.3).getD 0
  else 0

def shorten (c : Code) (reference : Location) : Code := c.dropLead (c.removable reference)

/-- Shortens the code in a text and keeps the case of its letters; other text is unchanged. -/
def shortenText (text : List Char) (reference : Location) : List Char :=
  match ofText? text with
  | some c => text.drop (c.removable reference)
  | none => text

/-! ## Recovery -/

/-- Moves a coordinate by one cell toward the reference if it is more than half a cell away. -/
def approach (center reference cell : Binary64) (mayLower mayRaise : Bool) : Binary64 :=
  if reference + cell / 2 < center ∧ mayLower then center - cell
  else if center < reference - cell / 2 ∧ mayRaise then center + cell
  else center

/-- The nearest full code that ends in the digits of a short one. Latitude stops at the poles. -/
def nearest (c : Code) (reference : Location) : Code :=
  let missing := separatorPosition - c.lead.length
  let latitude := adjustLatitude reference.latitude c.digits.length
  let longitude := wrapLongitude reference.longitude
  let here := ofLocation ⟨latitude, longitude⟩ defaultDigits
  let center := (Area.ofDigits (here.digits.take missing ++ c.digits)).center
  let cell := precision missing
  let moved : Location :=
    { latitude := approach center.latitude latitude cell
        (-90 < center.latitude - cell) (center.latitude + cell < 90)
      longitude := approach center.longitude longitude cell true true }
  ofLocation moved (c.digits.length + missing)

def recover (c : Code) (reference : Location) : Code :=
  if c.isShort then c.nearest reference else c

/-- Recovers the code in a text; other text is put in upper case. -/
def recoverText (text : List Char) (reference : Location) : List Char :=
  match ofText? text with
  | some c => (c.recover reference).text
  | none => Text.upperCase text

end OpenLocation.Code
