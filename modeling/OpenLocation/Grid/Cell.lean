import OpenLocation.Digit

/-!
# The grid

Latitude counts rows of one 25 000 000th of a degree from the south pole, longitude
columns of one 8 192 000th of a degree from the antimeridian. Digits divide the
square of 400 degrees at its corner: ten digits pair by pair, a row digit and a
column digit cutting each side in twenty, and up to five more that each name one
of 5 × 4 parts. `GridPoint.digits` are the digits of the cells around a point,
`Cell.ofDigits` is the cell that digits name.
-/

namespace OpenLocation

-- Powers are those of the core library, whatever else a reader of them imports.
attribute [local instance (high)] instPowNat

/-- Digits that come in pairs. -/
def pairDigits : Nat := 10

/-- Digits that follow the pairs. -/
def refinementDigits : Nat := 5

/-- Most digits that a code is given, and that count when one is read. -/
def mostDigits : Nat := pairDigits + refinementDigits

/-- Rows that a digit after the pairs divides a cell into. -/
def refinementRows : Nat := 5

/-- Columns that a digit after the pairs divides a cell into. -/
def refinementColumns : Nat := 4

structure GridPoint where
  row : Nat
  column : Nat
  deriving DecidableEq, Repr

namespace GridPoint

/-- Cells of ten digits along a degree. -/
def cellsPerDegree : Nat := 8000

/-- Rows to a degree. -/
def rowsPerDegree : Nat := cellsPerDegree * refinementRows ^ refinementDigits

/-- Columns to a degree. -/
def columnsPerDegree : Nat := cellsPerDegree * refinementColumns ^ refinementDigits

/-- The last pairs of base-20 digits, row digit first. -/
def pairs : Nat → Nat → Nat → List Digit
  | 0, _, _ => []
  | places + 1, row, column =>
    pairs places (row / 20) (column / 20) ++ [Fin.ofNat 20 row, Fin.ofNat 20 column]

/-- The last digits that name one of five rows and one of four columns. -/
def refinements : Nat → Nat → Nat → List Digit
  | 0, _, _ => []
  | places + 1, row, column =>
    refinements places (row / refinementRows) (column / refinementColumns) ++
      [Fin.ofNat 20 (row % refinementRows * refinementColumns + column % refinementColumns)]

/-- All fifteen digits. -/
def digits (p : GridPoint) : List Digit :=
  pairs (pairDigits / 2) (p.row / refinementRows ^ refinementDigits)
      (p.column / refinementColumns ^ refinementDigits) ++
    refinements refinementDigits p.row p.column

theorem length_pairs (places row column : Nat) : (pairs places row column).length = 2 * places := by
  induction places generalizing row column with
  | zero => rfl
  | succ places ih => simp [pairs, ih]; omega

theorem length_refinements (places row column : Nat) :
    (refinements places row column).length = places := by
  induction places generalizing row column with
  | zero => rfl
  | succ places ih => simp [refinements, ih]

theorem length_digits (p : GridPoint) : p.digits.length = mostDigits := by
  rw [digits, List.length_append, length_pairs, length_refinements]
  rfl

end GridPoint

/-- The points from a corner on, `height` rows and `width` columns of them. -/
structure Cell where
  south : Nat
  west : Nat
  height : Nat
  width : Nat
  deriving DecidableEq, Repr

namespace Cell

/-- What the first pair of digits divides. -/
def whole : Cell where
  south := 0
  west := 0
  height := 20 ^ (5 : Nat) * refinementRows ^ refinementDigits
  width := 20 ^ (5 : Nat) * refinementColumns ^ refinementDigits

/-- One of 20 × 20 parts. -/
def pair (c : Cell) (row column : Digit) : Cell where
  south := c.south + row * (c.height / 20)
  west := c.west + column * (c.width / 20)
  height := c.height / 20
  width := c.width / 20

/-- One of 5 × 4 parts. -/
def refine (c : Cell) (d : Digit) : Cell where
  south := c.south + d.val / refinementColumns * (c.height / refinementRows)
  west := c.west + d.val % refinementColumns * (c.width / refinementColumns)
  height := c.height / refinementRows
  width := c.width / refinementColumns

/-- Narrows by digits two at a time. -/
def byPairs : Cell → List Digit → Cell
  | c, row :: column :: rest => (c.pair row column).byPairs rest
  | c, _ => c

/-- The cell that digits name; digits after the fifteenth do not narrow it. -/
def ofDigits (digits : List Digit) : Cell :=
  ((digits.drop pairDigits).take refinementDigits).foldl refine
    (whole.byPairs (digits.take pairDigits))

end Cell

end OpenLocation
