import OpenLocation.Proofs.Grid.Partition

/-!
# Place values

The corner of a cell can be had by addition instead of narrowing. `PlaceSums` counts
the cells of ten digits from the equator and the prime meridian, and apart from them
the rows and columns that the digits after the tenth add. The place value is cut
before each further digit and stays after the last one. `PlaceSums.describes_ofDigits`
says that the sums and the last place values describe the cell that the digits name.
-/

namespace OpenLocation

/-- The sum of digits at a place value and what dividing it by the base gives, step by step. -/
def weighted (base : Nat) : Nat → List Nat → Nat
  | _, [] => 0
  | place, d :: rest => d * place + weighted base (place / base) rest

/-- The place value of the last digit. -/
def lastPlace (base : Nat) : Nat → List Nat → Nat
  | place, _ :: d :: rest => lastPlace base (place / base) (d :: rest)
  | place, _ => place

def inPairs : List Digit → List (Digit × Digit)
  | row :: column :: rest => (row, column) :: inPairs rest
  | _ => []

namespace Digit

/-- The rows of pairs. -/
def pairRows (digits : List Digit) : List Nat := (inPairs digits).map (·.1.val)

/-- The columns of pairs. -/
def pairColumns (digits : List Digit) : List Nat := (inPairs digits).map (·.2.val)

/-- The rows of digits after the pairs. -/
def refinedRows (digits : List Digit) : List Nat := digits.map (·.val / refinementColumns)

/-- The columns of digits after the pairs. -/
def refinedColumns (digits : List Digit) : List Nat := digits.map (·.val % refinementColumns)

end Digit

structure PlaceSums where
  /-- Cells of ten digits north of the equator. -/
  normalRow : Int
  /-- Cells of ten digits east of the prime meridian. -/
  normalColumn : Int
  extraRow : Nat
  extraColumn : Nat
  /-- Rows to the place of the last digit. -/
  height : Nat
  /-- Columns to the place of the last digit. -/
  width : Nat
  deriving DecidableEq, Repr

namespace PlaceSums

def ofDigits (digits : List Digit) : PlaceSums :=
  let front := digits.take pairDigits
  let rest := digits.drop pairDigits
  let place := 20 ^ (pairDigits / 2 - 1)
  let rowPlace := refinementRows ^ (refinementDigits - 1)
  let columnPlace := refinementColumns ^ (refinementDigits - 1)
  { normalRow := weighted 20 place (Digit.pairRows front) - (90 * GridPoint.cellsPerDegree : Nat)
    normalColumn :=
      weighted 20 place (Digit.pairColumns front) - (180 * GridPoint.cellsPerDegree : Nat)
    extraRow := weighted refinementRows rowPlace (Digit.refinedRows rest)
    extraColumn := weighted refinementColumns columnPlace (Digit.refinedColumns rest)
    height :=
      if digits.length ≤ pairDigits then
        lastPlace 20 place (Digit.pairRows front) * refinementRows ^ refinementDigits
      else lastPlace refinementRows rowPlace (Digit.refinedRows rest)
    width :=
      if digits.length ≤ pairDigits then
        lastPlace 20 place (Digit.pairColumns front) * refinementColumns ^ refinementDigits
      else lastPlace refinementColumns columnPlace (Digit.refinedColumns rest) }

/-- Rows from the south pole to the southern edge. -/
def south (s : PlaceSums) : Int :=
  (s.normalRow + (90 * GridPoint.cellsPerDegree : Nat)) *
      (refinementRows ^ refinementDigits : Nat) +
    s.extraRow

/-- Columns from the antimeridian to the western edge. -/
def west (s : PlaceSums) : Int :=
  (s.normalColumn + (180 * GridPoint.cellsPerDegree : Nat)) *
    (refinementColumns ^ refinementDigits : Nat) + s.extraColumn

/-- Whether a point lies between the edges. -/
def Contains (s : PlaceSums) (p : GridPoint) : Prop :=
  (s.south ≤ p.row ∧ p.row < s.south + s.height) ∧ (s.west ≤ p.column ∧ p.column < s.west + s.width)

/-- The sums give the edges of a cell. -/
def Describes (s : PlaceSums) (c : Cell) : Prop :=
  s.south = c.south ∧ s.west = c.west ∧ s.height = c.height ∧ s.width = c.width

theorem Describes.contains_iff {s : PlaceSums} {c : Cell} (h : s.Describes c) {p : GridPoint} :
    s.Contains p ↔ p ∈ c := by
  obtain ⟨hs, hw, hheight, hwidth⟩ := h
  rw [Contains, Cell.mem_iff, hs, hw, hheight, hwidth]
  omega

theorem south_ofDigits (digits : List Digit) : (ofDigits digits).south =
    (weighted 20 (20 ^ 4) (Digit.pairRows (digits.take pairDigits)) *
        refinementRows ^ refinementDigits +
      weighted refinementRows (refinementRows ^ 4) (Digit.refinedRows (digits.drop pairDigits)) :
        Nat) := by
  simp only [south, ofDigits, Int.sub_add_cancel]
  rfl

theorem west_ofDigits (digits : List Digit) : (ofDigits digits).west =
    (weighted 20 (20 ^ 4) (Digit.pairColumns (digits.take pairDigits)) *
        refinementColumns ^ refinementDigits +
      weighted refinementColumns (refinementColumns ^ 4)
        (Digit.refinedColumns (digits.drop pairDigits)) : Nat) := by
  simp only [west, ofDigits, Int.sub_add_cancel]
  rfl

/-! ## Narrowing along one axis -/

/-- The start and the size of a section, narrowed by digits. -/
def narrow (base : Nat) : Nat × Nat → List Nat → Nat × Nat
  | a, [] => a
  | (start, size), d :: rest => narrow base (start + d * (size / base), size / base) rest

theorem narrow_eq {base : Nat} (hb : 0 < base) {digits : List Nat} {places : Nat}
    (hlen : digits.length ≤ places + 1) (start size : Nat) :
    narrow base (start, base ^ (places + 1) * size) digits =
      (start + weighted base (base ^ places) digits * size,
        base ^ (places + 1 - digits.length) * size) := by
  induction digits generalizing places start with
  | nil => simp [narrow, weighted]
  | cons d rest ih =>
    have hsize : base ^ (places + 1) * size / base = base ^ places * size := by
      rw [Nat.pow_succ', Nat.mul_assoc, Nat.mul_div_cancel_left _ hb]
    rw [narrow, hsize, weighted]
    cases places with
    | zero =>
      obtain rfl : rest = [] := List.eq_nil_of_length_eq_zero (by simpa using hlen)
      simp [narrow, weighted]
    | succ places =>
      rw [ih (by simpa using hlen), Nat.pow_succ, Nat.mul_div_cancel _ hb, List.length_cons,
        Nat.add_sub_add_right, Nat.add_mul, ← Nat.mul_assoc d, Nat.add_assoc]

theorem lastPlace_pow {base : Nat} (hb : 0 < base) {digits : List Nat} {places : Nat}
    (hlen : digits.length ≤ places + 1) (hne : digits ≠ []) :
    lastPlace base (base ^ places) digits = base ^ (places + 1 - digits.length) := by
  induction digits generalizing places with
  | nil => exact (hne rfl).elim
  | cons d rest ih =>
    match rest, places with
    | [], _ => simp [lastPlace]
    | _ :: _, 0 => simp at hlen
    | e :: rest, places + 1 =>
      rw [lastPlace, Nat.pow_succ, Nat.mul_div_cancel _ hb, ih (by simpa using hlen) (by simp),
        List.length_cons (a := d), Nat.add_sub_add_right]

/-- Digits in no more places than there are stay below the next power. -/
theorem weighted_lt {base : Nat} (hb : 0 < base) {digits : List Nat}
    (hdigits : ∀ d ∈ digits, d < base) {places : Nat} (hlen : digits.length ≤ places + 1) :
    weighted base (base ^ places) digits < base ^ (places + 1) := by
  induction digits generalizing places with
  | nil => exact Nat.pow_pos hb
  | cons d rest ih =>
    obtain ⟨hd, hrest⟩ := List.forall_mem_cons.1 hdigits
    have hlast (bound : Nat) : d * bound + bound ≤ base * bound := by
      rw [← Nat.succ_mul]
      exact Nat.mul_le_mul_right _ hd
    rw [weighted, Nat.pow_succ']
    cases places with
    | zero =>
      obtain rfl : rest = [] := List.eq_nil_of_length_eq_zero (by simpa using hlen)
      have := hlast 1
      rw [weighted, Nat.pow_zero]
      omega
    | succ places =>
      have hbelow := ih hrest (by simpa using hlen)
      have hnext : base ^ (places + 1) / base = base ^ places := by
        rw [Nat.pow_succ, Nat.mul_div_cancel _ hb]
      have := hlast (base ^ (places + 1))
      rw [hnext]
      omega

theorem lastPlace_le (base place : Nat) (digits : List Nat) :
    lastPlace base place digits ≤ place := by
  induction place, digits using lastPlace.induct base with
  | case1 place d e rest ih => exact ih.trans (Nat.div_le_self place base)
  | case2 digits place hlast => rw [lastPlace]; exact hlast

/-- How many digits there are decides the place value of the last one. -/
theorem lastPlace_congr (base place : Nat) {digits others : List Nat}
    (h : digits.length = others.length) :
    lastPlace base place digits = lastPlace base place others := by
  induction place, digits using lastPlace.induct base generalizing others with
  | case1 place d e rest ih =>
    match others, h with
    | _ :: e' :: rest', h => exact ih (Nat.succ.inj h)
  | case2 digits place hlast =>
    match digits, others, h with
    | [], [], _ => rfl
    | [_], [_], _ => rfl
    | _ :: _ :: _, _, _ => exact (hlast _ _ _ rfl).elim

theorem byPairs_eq_narrow (c : Cell) (digits : List Digit) :
    c.byPairs digits =
      let rows := narrow 20 (c.south, c.height) (Digit.pairRows digits)
      let columns := narrow 20 (c.west, c.width) (Digit.pairColumns digits)
      ⟨rows.1, columns.1, rows.2, columns.2⟩ := by
  induction c, digits using Cell.byPairs.induct with
  | case1 c row column rest ih => rw [Cell.byPairs, ih]; rfl
  | case2 digits c hd =>
    have hpairs : inPairs digits = [] := by rw [inPairs]; exact hd
    rw [Cell.byPairs, Digit.pairRows, Digit.pairColumns, hpairs]
    · rfl
    · exact hd

theorem foldl_refine_eq_narrow (c : Cell) (digits : List Digit) :
    digits.foldl Cell.refine c =
      let rows := narrow refinementRows (c.south, c.height) (Digit.refinedRows digits)
      let columns := narrow refinementColumns (c.west, c.width) (Digit.refinedColumns digits)
      ⟨rows.1, columns.1, rows.2, columns.2⟩ := by
  induction digits generalizing c with
  | nil => rfl
  | cons d rest ih => rw [List.foldl_cons, ih]; rfl

theorem length_inPairs (digits : List Digit) : (inPairs digits).length = digits.length / 2 := by
  induction digits using inPairs.induct with
  | case1 row column rest ih => simp only [inPairs, List.length_cons, ih]; omega
  | case2 digits hd =>
    match digits, hd with
    | [], _ => rfl
    | [_], _ => simp [inPairs]
    | row :: column :: rest, hd => exact (hd row column rest rfl).elim

theorem narrow_eq_last {base : Nat} (hb : 0 < base) {digits : List Nat} {places : Nat}
    (hlen : digits.length ≤ places + 1) (hne : digits ≠ []) (start size : Nat) :
    narrow base (start, base ^ (places + 1) * size) digits =
      (start + weighted base (base ^ places) digits * size,
        lastPlace base (base ^ places) digits * size) := by
  rw [narrow_eq hb hlen, lastPlace_pow hb hlen hne]

theorem length_pairRows (digits : List Digit) :
    (Digit.pairRows digits).length = digits.length / 2 := by
  rw [Digit.pairRows, List.length_map, length_inPairs]

theorem length_pairColumns (digits : List Digit) :
    (Digit.pairColumns digits).length = digits.length / 2 := by
  rw [Digit.pairColumns, List.length_map, length_inPairs]

theorem pairRows_ne_nil {digits : List Digit} (heven : digits.length % 2 = 0) (hne : digits ≠ []) :
    Digit.pairRows digits ≠ [] := by
  have hpos := List.length_pos_iff.2 hne
  rw [← List.length_pos_iff, length_pairRows]
  omega

/-- Before another pair the place value is cut. -/
theorem lastPlace_pairRows (place : Nat) (row column : Digit) {rest : List Digit}
    (heven : rest.length % 2 = 0) (hne : rest ≠ []) :
    lastPlace 20 place (Digit.pairRows (row :: column :: rest)) =
      lastPlace 20 (place / 20) (Digit.pairRows rest) := by
  have hrows : Digit.pairRows (row :: column :: rest) = row.val :: Digit.pairRows rest := rfl
  obtain ⟨d, others, hrest⟩ := List.exists_cons_of_ne_nil (pairRows_ne_nil heven hne)
  rw [hrows, hrest, lastPlace]

/-- Pairs add up to less than the cells of ten digits along an axis. -/
theorem pairs_lt {digits : List Digit} (hle : digits.length ≤ pairDigits) :
    weighted 20 (20 ^ 4) (Digit.pairRows digits) < 20 ^ 5 ∧
      weighted 20 (20 ^ 4) (Digit.pairColumns digits) < 20 ^ 5 := by
  have hpairs : digits.length / 2 ≤ 4 + 1 := Nat.div_le_div_right hle
  have hrows : ∀ d ∈ Digit.pairRows digits, d < 20 :=
    List.forall_mem_map.2 fun pair _ => pair.1.isLt
  have hcolumns : ∀ d ∈ Digit.pairColumns digits, d < 20 :=
    List.forall_mem_map.2 fun pair _ => pair.2.isLt
  exact ⟨weighted_lt (by decide) hrows ((length_pairRows digits).trans_le hpairs),
    weighted_lt (by decide) hcolumns ((length_pairColumns digits).trans_le hpairs)⟩

/-- Further digits add up to less than a cell of ten digits. -/
theorem refined_lt {digits : List Digit} (hle : digits.length ≤ refinementDigits) :
    weighted refinementRows (refinementRows ^ 4) (Digit.refinedRows digits) <
        refinementRows ^ refinementDigits ∧
      weighted refinementColumns (refinementColumns ^ 4) (Digit.refinedColumns digits) <
        refinementColumns ^ refinementDigits := by
  have hrows : ∀ d ∈ Digit.refinedRows digits, d < refinementRows :=
    List.forall_mem_map.2 fun d _ => Cell.row_lt d
  have hcolumns : ∀ d ∈ Digit.refinedColumns digits, d < refinementColumns :=
    List.forall_mem_map.2 fun d _ => Nat.mod_lt d.val (by decide)
  exact ⟨weighted_lt (by decide) hrows ((List.length_map _).trans_le hle),
    weighted_lt (by decide) hcolumns ((List.length_map _).trans_le hle)⟩

theorem byPairs_whole {front : List Digit} (hle : front.length ≤ pairDigits)
    (hpos : 0 < front.length / 2) :
    Cell.whole.byPairs front =
      { south := weighted 20 (20 ^ 4) (Digit.pairRows front) * refinementRows ^ refinementDigits
        west := weighted 20 (20 ^ 4) (Digit.pairColumns front) *
          refinementColumns ^ refinementDigits
        height := lastPlace 20 (20 ^ 4) (Digit.pairRows front) * refinementRows ^ refinementDigits
        width := lastPlace 20 (20 ^ 4) (Digit.pairColumns front) *
          refinementColumns ^ refinementDigits } := by
  have hlen : front.length / 2 ≤ 4 + 1 := by simp only [pairDigits] at hle; omega
  have hr := narrow_eq_last (by decide : 0 < 20) (length_pairRows front ▸ hlen)
    (List.length_pos_iff.1 (length_pairRows front ▸ hpos)) 0 (refinementRows ^ refinementDigits)
  have hc := narrow_eq_last (by decide : 0 < 20) (length_pairColumns front ▸ hlen)
    (List.length_pos_iff.1 (length_pairColumns front ▸ hpos)) 0
    (refinementColumns ^ refinementDigits)
  rw [byPairs_eq_narrow]
  simp only [Cell.whole, hr, hc, Nat.zero_add]

theorem foldl_refine {south west : Nat} {rest : List Digit} (hle : rest.length ≤ refinementDigits)
    (hne : rest ≠ []) :
    rest.foldl Cell.refine
        ⟨south, west, refinementRows ^ refinementDigits, refinementColumns ^ refinementDigits⟩ =
      { south := south + weighted refinementRows (refinementRows ^ 4) (Digit.refinedRows rest)
        west := west +
          weighted refinementColumns (refinementColumns ^ 4) (Digit.refinedColumns rest)
        height := lastPlace refinementRows (refinementRows ^ 4) (Digit.refinedRows rest)
        width := lastPlace refinementColumns (refinementColumns ^ 4)
          (Digit.refinedColumns rest) } := by
  have hrows : (Digit.refinedRows rest).length ≤ 4 + 1 := by
    rw [Digit.refinedRows, List.length_map]; exact hle
  have hcolumns : (Digit.refinedColumns rest).length ≤ 4 + 1 := by
    rw [Digit.refinedColumns, List.length_map]; exact hle
  have hr := narrow_eq_last (by decide : 0 < refinementRows) hrows
    (by simpa [Digit.refinedRows] using hne) south 1
  have hc := narrow_eq_last (by decide : 0 < refinementColumns) hcolumns
    (by simpa [Digit.refinedColumns] using hne) west 1
  simp only [Nat.mul_one] at hr hc
  rw [foldl_refine_eq_narrow]
  simp only [refinementDigits, hr, hc]

theorem cell_pairs {front : List Digit} (hlen : front.length = pairDigits) :
    Cell.whole.byPairs front =
      { south := weighted 20 (20 ^ 4) (Digit.pairRows front) * refinementRows ^ refinementDigits
        west := weighted 20 (20 ^ 4) (Digit.pairColumns front) *
          refinementColumns ^ refinementDigits
        height := refinementRows ^ refinementDigits
        width := refinementColumns ^ refinementDigits } := by
  have hpos : 0 < front.length / 2 := by rw [hlen]; decide
  have hrows : (Digit.pairRows front).length = 5 := by rw [length_pairRows, hlen]; rfl
  have hcolumns : (Digit.pairColumns front).length = 5 := by rw [length_pairColumns, hlen]; rfl
  have hne (digits : List Nat) (h : digits.length = 5) : digits ≠ [] := by
    rintro rfl; cases h
  rw [byPairs_whole (Nat.le_of_eq hlen) hpos,
    lastPlace_pow (by decide) (Nat.le_of_eq hrows) (hne _ hrows),
    lastPlace_pow (by decide) (Nat.le_of_eq hcolumns) (hne _ hcolumns), hrows, hcolumns]
  rfl

/-- The sums and the last place values describe the cell that the digits name. -/
theorem describes_ofDigits {digits : List Digit} (h : Cell.IsCount digits.length)
    (hne : digits ≠ []) :
    (ofDigits digits).Describes (Cell.ofDigits digits) := by
  have hpos := List.length_pos_iff.2 hne
  have hmost := h.1
  unfold mostDigits at hmost
  rcases Nat.lt_or_ge pairDigits digits.length with hlt | hle
  · have hfront : (digits.take pairDigits).length = pairDigits := by rw [List.length_take]; omega
    have hrest : (digits.drop pairDigits).length ≤ refinementDigits := by
      rw [List.length_drop]; omega
    have hne : digits.drop pairDigits ≠ [] := by
      rw [← List.length_pos_iff, List.length_drop]; omega
    have hcell := Cell.ofDigits_append hfront hrest
    rw [List.take_append_drop, cell_pairs hfront, foldl_refine hrest hne] at hcell
    rw [Describes, south_ofDigits, west_ofDigits, hcell]
    exact ⟨rfl, rfl, if_neg (Nat.not_le_of_lt hlt), if_neg (Nat.not_le_of_lt hlt)⟩
  · have heven : 0 < digits.length / 2 := by
      have := h.2; simp only [pairDigits] at this hle; omega
    rw [Describes, south_ofDigits, west_ofDigits, ofDigits, Cell.ofDigits_of_le hle,
      byPairs_whole hle heven, List.take_of_length_le hle, List.drop_of_length_le hle]
    exact ⟨congrArg Nat.cast (Nat.add_zero _), congrArg Nat.cast (Nat.add_zero _), if_pos hle,
      if_pos hle⟩

end PlaceSums

end OpenLocation
