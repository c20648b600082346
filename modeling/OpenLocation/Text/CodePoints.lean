/-!
# Ranges of code points

A property of characters is given as closed ranges of code points, in ascending
order and apart from each other.
-/

namespace OpenLocation.Text

abbrev CodePoints := List (Nat × Nat)

def CodePoints.has (ranges : CodePoints) (c : Char) : Bool :=
  ranges.any fun range => range.1 ≤ c.toNat && c.toNat ≤ range.2

end OpenLocation.Text
