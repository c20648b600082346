import OpenLocation.Area
import OpenLocation.Proofs.Code.Layout

/-!
# Digits past the fifteenth

A code may have more digits than narrow its cell. `Code.firstDigits` is the code without them. It
has the same area, and it is as full or as short. So what is known of codes with at most fifteen
digits holds of their areas whatever their number of digits.
-/

namespace OpenLocation

theorem Area.ofDigits_take_most (digits : List Digit) :
    Area.ofDigits (digits.take mostDigits) = Area.ofDigits digits := by
  rw [Area.ofDigits, Cell.ofDigits_take_most, List.length_take, ← Nat.min_assoc, Nat.min_self]
  rfl

namespace Code

theorem shape_firstDigits (c : Code) : Shape c.lead.length c.padding
    (c.tail.take (mostDigits - separatorPosition)).length := by
  have hshape := c.shape
  simp only [Shape, List.length_take, mostDigits, separatorPosition, pairDigits,
    refinementDigits] at hshape ⊢
  omega

/-- The code without the digits that do not narrow its cell. -/
def firstDigits (c : Code) : Code where
  lead := c.lead
  padding := c.padding
  tail := c.tail.take (mostDigits - separatorPosition)
  shape := c.shape_firstDigits

theorem digits_firstDigits {c : Code} (hshort : c.isShort = false) :
    c.firstDigits.digits = c.digits.take mostDigits := by
  have hlead := length_lead_add_padding hshort
  have hle : c.lead.length ≤ mostDigits :=
    (Nat.le_of_add_right_le hlead.le).trans (by decide)
  have hshape := c.shape
  simp only [Shape] at hshape
  have hfirst : c.firstDigits.digits = c.lead ++ c.tail.take (mostDigits - separatorPosition) := rfl
  rw [hfirst, digits, List.take_append, List.take_of_length_le hle]
  by_cases hpadding : c.padding = 0
  · rw [show c.lead.length = separatorPosition by omega]
  · have htail : c.tail = [] := List.length_eq_zero_iff.1 (by omega)
    rw [htail, List.take_nil, List.take_nil]

theorem fullCount_firstDigits {c : Code} (hshort : c.isShort = false) :
    FullCount (c.digits.take mostDigits).length := by
  obtain ⟨hcount, -⟩ := @exists_eq_ofDigits c.firstDigits hshort
  rwa [digits_firstDigits hshort] at hcount

/-- Cells of full codes lie on the globe, however many digits they have. -/
theorem onGlobe_ofDigits {c : Code} (hfull : c.isFull = true) :
    (Cell.ofDigits c.digits).OnGlobe := by
  have hdigits := digits_firstDigits (isShort_of_isFull hfull)
  have hfirst : c.firstDigits.isFull = true := hfull
  have hglobe := cell_onGlobe hfirst (by rw [hdigits]; exact List.length_take_le _ _)
  rwa [hdigits, Cell.ofDigits_take_most] at hglobe

end Code

end OpenLocation
