import OpenLocation.Proofs.Code.Cells

/-!
# Rows and columns apart

A code names the row and the column of its cell in turn, and after the tenth digit both in one
digit. Told apart again (`Digit.rowDigits`, `Digit.columnDigits`) the digits of one axis are the
places of one number, the index of the cell on that axis (`GridPoint.axisDigits_take`). So they
tell nothing of the other axis, and in the order of words they are ordered as the cells are from
south to north and from west to east (`Code.compare_digits_ofGridPoint`).
-/

namespace OpenLocation

/-! ## Places of a number -/

/-- The last places of a number in a base, the first one first. -/
def placesOf (base : Nat) : Nat → Nat → List Nat
  | 0, _ => []
  | count + 1, n => placesOf base count (n / base) ++ [n % base]

theorem length_placesOf (base count n : Nat) : (placesOf base count n).length = count := by
  induction count generalizing n with
  | zero => rfl
  | succ count ih => rw [placesOf, List.length_append, ih, List.length_singleton]

/-- Words that begin with equally many places are compared by these first. -/
theorem compare_append {front front' : List Nat} (h : front.length = front'.length)
    (back back' : List Nat) :
    compare (front ++ back) (front' ++ back') =
      (compare front front').then (compare back back') := by
  induction front generalizing front' with
  | nil =>
    obtain rfl : front' = [] := List.eq_nil_of_length_eq_zero h.symm
    rw [Std.compare_self]
    rfl
  | cons d front ih =>
    obtain ⟨d', front', rfl⟩ := List.exists_cons_of_length_eq_add_one h.symm
    rw [List.cons_append, List.cons_append, List.compare_cons_cons, List.compare_cons_cons,
      ih (Nat.succ.inj h), Ordering.then_assoc]

theorem compare_singleton (m n : Nat) : compare [m] [n] = compare m n := by
  rw [List.compare_cons_cons, Std.compare_self, Ordering.then_eq]

/-- Numbers are compared by all places but the last one, and then by the last one. -/
theorem compare_div_mod (base m n : Nat) :
    (compare (m / base) (n / base)).then (compare (m % base) (n % base)) = compare m n := by
  rcases Nat.lt_trichotomy (m / base) (n / base) with hlt | heq | hgt
  · rw [Nat.compare_eq_lt.2 hlt, Nat.compare_eq_lt.2 (Nat.lt_of_div_lt_div hlt)]
    rfl
  · have hm := Nat.div_add_mod m base
    have hn := Nat.div_add_mod n base
    rw [heq] at hm
    have hlt : m % base < n % base ↔ m < n := by omega
    have hgt : n % base < m % base ↔ n < m := by omega
    rw [heq, Std.compare_self, Ordering.eq_then, Nat.compare_eq_ite_lt, Nat.compare_eq_ite_lt]
    simp only [hlt, hgt]
  · rw [Nat.compare_eq_gt.2 hgt, Nat.compare_eq_gt.2 (Nat.lt_of_div_lt_div hgt)]
    rfl

/-- What stands before the last places is compared first, and then the last places as a word. -/
theorem compare_placesOf (base count m n : Nat) :
    (compare (m / base ^ count) (n / base ^ count)).then
      (compare (placesOf base count m) (placesOf base count n)) = compare m n := by
  induction count generalizing m n with
  | zero => rw [Nat.pow_zero, Nat.div_one, Nat.div_one, placesOf, placesOf, Std.compare_self,
      Ordering.then_eq]
  | succ count ih =>
    have hlength : (placesOf base count (m / base)).length =
        (placesOf base count (n / base)).length := by rw [length_placesOf, length_placesOf]
    rw [placesOf, placesOf, compare_append hlength, compare_singleton, ← Ordering.then_assoc,
      Nat.pow_succ', ← Nat.div_div_eq_div_mul, ← Nat.div_div_eq_div_mul, ih, compare_div_mod]

/-- Numbers without more places than these are in the order of words. -/
theorem compare_placesOf_of_lt {base count m n : Nat} (hm : m < base ^ count)
    (hn : n < base ^ count) : compare (placesOf base count m) (placesOf base count n) =
      compare m n := by
  rw [← compare_placesOf base count m n, Nat.div_eq_of_lt hm, Nat.div_eq_of_lt hn,
    Std.compare_self, Ordering.eq_then]

/-! ## Places on one axis -/

/-- The places of an index: pairs in base twenty, and further digits in the base of the axis. -/
def indexPlaces (parts count n : Nat) : List Nat :=
  placesOf 20 (min count pairDigits / 2) (n / parts ^ (count - pairDigits)) ++
    placesOf parts (count - pairDigits) n

/-- The places of indexes are in the order of the indexes. -/
theorem compare_indexPlaces {parts count m n : Nat} (hparts : 0 < parts)
    (hm : m < 20 ^ (min count pairDigits / 2) * parts ^ (count - pairDigits))
    (hn : n < 20 ^ (min count pairDigits / 2) * parts ^ (count - pairDigits)) :
    compare (indexPlaces parts count m) (indexPlaces parts count n) = compare m n := by
  have hpos := Nat.pow_pos (n := count - pairDigits) hparts
  unfold indexPlaces
  rw [compare_append (by rw [length_placesOf, length_placesOf]),
    compare_placesOf_of_lt ((Nat.div_lt_iff_lt_mul hpos).2 hm)
      ((Nat.div_lt_iff_lt_mul hpos).2 hn), compare_placesOf]

/-- The square has no more sections of an axis than the places of their indexes can tell apart. -/
theorem div_sizeOf_lt {parts count n : Nat} (h : Cell.IsCount count)
    (hn : n < 20 ^ (pairDigits / 2) * parts ^ refinementDigits) :
    n / Cell.sizeOf parts count <
      20 ^ (min count pairDigits / 2) * parts ^ (count - pairDigits) := by
  apply Nat.div_lt_of_lt_mul
  have hpairs : (pairDigits - count) / 2 + min count pairDigits / 2 = pairDigits / 2 := by
    have := h.2
    simp only [pairDigits] at *
    omega
  have hrefined : refinementDigits - (count - pairDigits) + (count - pairDigits) =
      refinementDigits := by
    have := h.1
    unfold mostDigits at this
    omega
  calc n < 20 ^ (pairDigits / 2) * parts ^ refinementDigits := hn
    _ = 20 ^ ((pairDigits - count) / 2 + min count pairDigits / 2) *
        parts ^ (refinementDigits - (count - pairDigits) + (count - pairDigits)) := by
      rw [hpairs, hrefined]
    _ = Cell.sizeOf parts count *
        (20 ^ (min count pairDigits / 2) * parts ^ (count - pairDigits)) := by
      rw [Nat.pow_add, Nat.pow_add, Nat.mul_mul_mul_comm, Cell.sizeOf]

/-! ## Digits of one axis -/

namespace Digit

/-- What the digits of a code say of the row: the first of each pair, and a part of each other. -/
def rowDigits (digits : List Digit) : List Nat :=
  pairRows (digits.take pairDigits) ++ refinedRows (digits.drop pairDigits)

/-- What the digits of a code say of the column. -/
def columnDigits (digits : List Digit) : List Nat :=
  pairColumns (digits.take pairDigits) ++ refinedColumns (digits.drop pairDigits)

end Digit

theorem inPairs_append {front : List Digit} (even : front.length % 2 = 0) (rest : List Digit) :
    inPairs (front ++ rest) = inPairs front ++ inPairs rest := by
  induction front using inPairs.induct with
  | case1 row column front ih =>
    simp only [List.cons_append, inPairs]
    rw [ih (by simp only [List.length_cons] at even; omega)]
  | case2 front h =>
    rcases front with _ | ⟨row, _ | ⟨column, front⟩⟩
    · rfl
    · cases even
    · exact (h row column front rfl).elim

namespace GridPoint

/-- Pairs told apart are the places of the row and those of the column. -/
theorem placesOf_pairs (places row column : Nat) :
    Digit.pairRows (pairs places row column) = placesOf 20 places row ∧
      Digit.pairColumns (pairs places row column) = placesOf 20 places column := by
  induction places generalizing row column with
  | zero => exact ⟨rfl, rfl⟩
  | succ places ih =>
    obtain ⟨hrows, hcolumns⟩ := ih (row / 20) (column / 20)
    have heven : (pairs places (row / 20) (column / 20)).length % 2 = 0 := by
      rw [length_pairs]
      omega
    unfold Digit.pairRows at hrows ⊢
    unfold Digit.pairColumns at hcolumns ⊢
    rw [pairs, inPairs_append heven, List.map_append, List.map_append, hrows, hcolumns]
    exact ⟨rfl, rfl⟩

/-- So are the digits after the pairs. -/
theorem placesOf_refinements (places row column : Nat) :
    Digit.refinedRows (refinements places row column) = placesOf refinementRows places row ∧
      Digit.refinedColumns (refinements places row column) =
        placesOf refinementColumns places column := by
  induction places generalizing row column with
  | zero => exact ⟨rfl, rfl⟩
  | succ places ih =>
    obtain ⟨hrows, hcolumns⟩ := ih (row / refinementRows) (column / refinementColumns)
    have hrow := Cell.refinement_div row column
    have hcolumn := Cell.refinement_mod row column
    unfold Cell.refinement at hrow hcolumn
    unfold Digit.refinedRows at hrows ⊢
    unfold Digit.refinedColumns at hcolumns ⊢
    rw [refinements, List.map_append, List.map_append, hrows, hcolumns, List.map_singleton,
      List.map_singleton, hrow, hcolumn]
    exact ⟨rfl, rfl⟩

/-- The digits of one axis are the places of the index of the cell on this axis. -/
theorem axisDigits_take (p : GridPoint) {count : Nat} (h : Cell.IsCount count) :
    Digit.rowDigits (p.digits.take count) =
        indexPlaces refinementRows count (p.row / Cell.heightOf count) ∧
      Digit.columnDigits (p.digits.take count) =
        indexPlaces refinementColumns count (p.column / Cell.widthOf count) := by
  unfold Digit.rowDigits Digit.columnDigits indexPlaces
  rcases Nat.lt_or_ge count pairDigits with hlt | hge
  · -- Below ten digits there are pairs only, those of the index itself.
    have hle := Nat.le_of_lt hlt
    have hlength : (p.digits.take count).length ≤ pairDigits :=
      (List.length_take_le _ _).trans hle
    obtain ⟨hrows, hcolumns⟩ := placesOf_pairs (count / 2) (p.row / Cell.heightOf count)
      (p.column / Cell.widthOf count)
    rw [List.take_of_length_le hlength, List.drop_of_length_le hlength,
      take_digits_of_le hle (h.2 hlt), hrows, hcolumns, Nat.min_eq_left hle,
      Nat.sub_eq_zero_of_le hle, Nat.pow_zero, Nat.pow_zero, Nat.div_one, Nat.div_one]
    exact ⟨rfl, rfl⟩
  · -- The pairs are those of the cell of ten digits, whose index is what division leaves.
    have hfront : (pairs (pairDigits / 2) (p.row / refinementRows ^ refinementDigits)
        (p.column / refinementColumns ^ refinementDigits)).length = pairDigits := length_pairs _ _ _
    obtain ⟨hrows, hcolumns⟩ := placesOf_pairs (pairDigits / 2)
      (p.row / refinementRows ^ refinementDigits)
      (p.column / refinementColumns ^ refinementDigits)
    obtain ⟨hrows', hcolumns'⟩ := placesOf_refinements (count - pairDigits)
      (p.row / Cell.heightOf count) (p.column / Cell.widthOf count)
    rw [take_digits_of_ge hge h.1, List.take_left' hfront, List.drop_left' hfront, hrows, hcolumns,
      hrows', hcolumns', Nat.min_eq_right hge, Nat.div_div_eq_div_mul, Nat.div_div_eq_div_mul,
      Cell.refined_size refinementRows hge h.1, Cell.refined_size refinementColumns hge h.1,
      Nat.mul_comm (Cell.heightOf count), Nat.mul_comm (Cell.widthOf count)]
    exact ⟨rfl, rfl⟩

/-- On the globe the places of an index leave none of it out. -/
theorem OnGlobe.index_lt {p : GridPoint} (hp : p.OnGlobe) {count : Nat} (h : Cell.IsCount count) :
    p.row / Cell.heightOf count <
        20 ^ (min count pairDigits / 2) * refinementRows ^ (count - pairDigits) ∧
      p.column / Cell.widthOf count <
        20 ^ (min count pairDigits / 2) * refinementColumns ^ (count - pairDigits) := by
  have hrows : 180 * rowsPerDegree ≤ 20 ^ (pairDigits / 2) * refinementRows ^ refinementDigits := by
    decide
  have hcolumns : 360 * columnsPerDegree ≤
      20 ^ (pairDigits / 2) * refinementColumns ^ refinementDigits := by decide
  exact ⟨div_sizeOf_lt h (hp.1.trans_le hrows), div_sizeOf_lt h (hp.2.trans_le hcolumns)⟩

end GridPoint

namespace Code

/--
The digits that a code gives to one axis do not depend on the other axis, and two codes of points
on the globe with as many digits are compared by them, as words, with the result with which the
cells are compared by their index from the south or from the west.
-/
theorem compare_digits_ofGridPoint {p q : GridPoint} (hp : p.OnGlobe) (hq : q.OnGlobe)
    (requested : Nat) :
    let count := effectiveDigits requested
    let height := Cell.heightOf count
    let width := Cell.widthOf count
    let a := (ofGridPoint p requested).digits
    let b := (ofGridPoint q requested).digits
    ((Cell.ofDigits a).height = height ∧ (Cell.ofDigits a).width = width) ∧
      (p.row = q.row → Digit.rowDigits a = Digit.rowDigits b) ∧
      (p.column = q.column → Digit.columnDigits a = Digit.columnDigits b) ∧
      compare (Digit.rowDigits a) (Digit.rowDigits b) =
        compare (p.row / height) (q.row / height) ∧
      compare (Digit.columnDigits a) (Digit.columnDigits b) =
        compare (p.column / width) (q.column / width) := by
  intro count height width a b
  have hcount : Cell.IsCount count :=
    (fullCount_effectiveDigits requested).isCount (effectiveDigits_le requested)
  have hlength : a.length = count := length_digits_ofGridPoint p requested
  obtain ⟨harows, hacolumns⟩ := p.axisDigits_take hcount
  obtain ⟨hbrows, hbcolumns⟩ := q.axisDigits_take hcount
  rw [← digits_ofGridPoint] at harows hacolumns hbrows hbcolumns
  have hsize := @Cell.size_ofDigits a (hlength ▸ hcount)
  rw [hlength] at hsize
  obtain ⟨hprow, hpcolumn⟩ := hp.index_lt hcount
  obtain ⟨hqrow, hqcolumn⟩ := hq.index_lt hcount
  refine ⟨hsize, fun heq => ?_, fun heq => ?_, ?_, ?_⟩
  · rw [harows, hbrows, heq]
  · rw [hacolumns, hbcolumns, heq]
  · rw [harows, hbrows]
    exact compare_indexPlaces (by decide) hprow hqrow
  · rw [hacolumns, hbcolumns]
    exact compare_indexPlaces (by decide) hpcolumn hqcolumn

/-- Around the last row of the globe only the digits of the columns tell two points apart. -/
theorem compare_digits_ofGridPoint_row :
    let p : GridPoint := ⟨4499999999, 5⟩
    let q : GridPoint := ⟨4499999999, 2949119999⟩
    p.OnGlobe ∧ q.OnGlobe ∧ (ofGridPoint p 99).text = "C2X2X2X2+X2RRRVV".toList ∧
      (ofGridPoint q 99).text = "CVXXXXXX+XXXXXXX".toList ∧
      Digit.rowDigits (ofGridPoint p 99).digits = Digit.rowDigits (ofGridPoint q 99).digits ∧
      compare (Digit.columnDigits (ofGridPoint p 99).digits)
        (Digit.columnDigits (ofGridPoint q 99).digits) = .lt := by
  intro p q
  have hp : p.OnGlobe := by decide
  have hq : q.OnGlobe := by decide
  obtain ⟨-, hrows, -, -, hcolumns⟩ := compare_digits_ofGridPoint hp hq 99
  exact ⟨hp, hq, by decide, by decide, hrows rfl, hcolumns.trans (by decide)⟩

end Code

end OpenLocation
