import OpenLocation.Area
import OpenLocation.Proofs.Binary64.Value
import OpenLocation.Proofs.Checked.Kind
import OpenLocation.Proofs.Code.FirstDigits
import OpenLocation.Proofs.Grid.PlaceValues

/-!
# Reading areas without failing

The digits of a text are added up at their place values, pairs first and then the rows and
columns of each digit after the tenth, by index and with 64 bits. A sum at place values stays
below the next power of the base (`weighted_lt`), which bounds every step before the last. So
`decodeDigits` gives the area of the digits of any code that is not short, and `decode` says
what `areaOfText` says (`decodeDigits_eq`, `decode_eq`).
-/

namespace OpenLocation.Checked

open Digit Code PlaceSums
open GridPoint (cellsPerDegree rowsPerDegree columnsPerDegree)

/-! ## Digits -/

/-- The digit of a character; one that is no digit counts as zero. -/
def valueOf (c : Char) : Option Int := (digitOf c).map fun digit => ((digit.getD 0 : Nat) : Int)

/-- The digits of a text that count when it is read. -/
def digitValues (text : List Char) : Option (List Int) := do
  ((← cleanCode text).take mostDigits).mapM valueOf

def values (digits : List Digit) : List Int := digits.map fun d => ((d.val : Nat) : Int)

theorem mapM_valueOf {text : List Char} {digits : List Digit}
    (h : text.map Char.toUpper = Digit.text digits) : text.mapM valueOf = some (values digits) := by
  induction text generalizing digits with
  | nil =>
    obtain rfl : digits = [] := by simpa [Digit.text] using h.symm
    rfl
  | cons c rest ih =>
    obtain ⟨d, others, rfl, hd, hrest⟩ := List.map_eq_cons_iff.1 h.symm
    have hc : valueOf c = some ((d.val : Nat) : Int) := by
      rw [valueOf, digitOf_of_spells (spells_iff.2 hd.symm)]
      rfl
    rw [List.mapM_cons, hc, ih hrest.symm]
    rfl

theorem digitValues_eq {text : List Char} {c : Code} (h : Code.ofText? text = some c) :
    digitValues text = some (values (c.digits.take mostDigits)) := by
  have htake : ((significant text).take mostDigits).map Char.toUpper =
      Digit.text (c.digits.take mostDigits) := by
    rw [List.map_take, map_toUpper_significant h, Digit.text, Digit.text, List.map_take]
  rw [digitValues, cleanCode_eq, Option.bind_eq_bind, Option.bind_some, mapM_valueOf htake]

/-! ## Sums of digits -/

/-- The place value of the next digit, if there is one. -/
def placeAfter (place : Int) (base next count : Nat) : Option Int :=
  if next < count then divInt place base else some place

/-- Sums of the rows and the columns of pairs, and the place value of the next pair. -/
structure PairSums where
  row : Int
  column : Int
  place : Int

/-- Adds the pair that starts at an index. -/
def addPair (digits : List Int) (s : PairSums) (i : Nat) : Option PairSums := do
  let row ← addInt s.row (← mulInt (← digits[i]?) s.place)
  let column ← addInt s.column (← mulInt (← digits[← addCount i 1]?) s.place)
  let place ← placeAfter s.place 20 (← addCount i 2) (min digits.length pairDigits)
  some ⟨row, column, place⟩

/-- The sums of all pairs, from the corner of the globe on. -/
def sumPairs (digits : List Int) : Option PairSums := do
  let row ← mulInt (-90) cellsPerDegree
  let column ← mulInt (-180) cellsPerDegree
  let place ← powInt 20 (pairDigits / 2 - 1)
  (List.range' 0 ((min digits.length pairDigits - 1 + 1) / 2) 2).foldlM (addPair digits)
    ⟨row, column, place⟩

/-- Sums of the rows and the columns of digits after the tenth, and their next place values. -/
structure RefinedSums where
  row : Int
  column : Int
  height : Int
  width : Int

def addRefined (count : Nat) (s : RefinedSums) (digit : Int × Nat) : Option RefinedSums := do
  let row ← addInt s.row (← mulInt (← divInt digit.1 refinementColumns) s.height)
  let column ← addInt s.column (← mulInt (← modInt digit.1 refinementColumns) s.width)
  let next ← addCount digit.2 1
  let height ← placeAfter s.height refinementRows next count
  let width ← placeAfter s.width refinementColumns next count
  some ⟨row, column, height, width⟩

/-- The sums of all digits after the tenth. -/
def sumRefined (digits : List Int) : Option RefinedSums := do
  let rest ← slice digits pairDigits digits.length
  let height ← powInt refinementRows (refinementDigits - 1)
  let width ← powInt refinementColumns (refinementDigits - 1)
  rest.zipIdx.foldlM (addRefined rest.length) ⟨0, 0, height, width⟩

theorem placeAfter_natCast {place base : Nat} (hplace : place < 2 ^ 63) (hbase : base ≠ 0)
    (next count : Nat) :
    placeAfter place base next count =
      some ((if next < count then place / base else place : Nat) : Int) := by
  unfold placeAfter
  split
  · exact divInt_natCast hplace hbase
  · rfl

theorem addPair_append {front back : List Int} {row column : Digit} {rest : List Digit}
    (hcount : min (front ++ values (row :: column :: rest) ++ back).length pairDigits =
      front.length + (rest.length + 2))
    {r c : Int} {place : Nat} (hplace : place < 2 ^ 63)
    (hr : -2 ^ 62 ≤ r) (hr' : r + (row.val * place : Nat) < 2 ^ 62)
    (hc : -2 ^ 62 ≤ c) (hc' : c + (column.val * place : Nat) < 2 ^ 62) :
    addPair (front ++ values (row :: column :: rest) ++ back) ⟨r, c, place⟩ front.length =
      some ⟨r + (row.val * place : Nat), c + (column.val * place : Nat),
        (if rest = [] then place else place / 20 : Nat)⟩ := by
  have hfirst : (front ++ values (row :: column :: rest) ++ back)[front.length]? =
      some ((row.val : Nat) : Int) := by
    rw [List.append_assoc, List.getElem?_append_right (Nat.le_refl _), Nat.sub_self]
    rfl
  have hsecond : (front ++ values (row :: column :: rest) ++ back)[front.length + 1]? =
      some ((column.val : Nat) : Int) := by
    rw [List.append_assoc, List.getElem?_append_right (Nat.le_add_right _ 1),
      Nat.add_sub_cancel_left]
    rfl
  have hsmall : front.length + 2 < 2 ^ 64 := by
    have := Nat.min_le_right (front ++ values (row :: column :: rest) ++ back).length pairDigits
    simp only [pairDigits] at this hcount
    omega
  have hlast : (if front.length + 2 < front.length + (rest.length + 2) then place / 20 else place) =
      if rest = [] then place else place / 20 := by
    by_cases hrest : rest = []
    · rw [if_pos hrest, if_neg (by simp [hrest])]
    · have := List.length_pos_iff.2 hrest
      rw [if_neg hrest, if_pos (by omega)]
  unfold addPair
  simp only [Option.bind_eq_bind]
  rw [hfirst, Option.bind_some, mulInt_natCast (by omega), Option.bind_some,
    addInt_eq_some (by omega) (by omega), Option.bind_some, addCount_eq_some (by omega),
    Option.bind_some, hsecond, Option.bind_some, mulInt_natCast (by omega), Option.bind_some,
    addInt_eq_some (by omega) (by omega), Option.bind_some, addCount_eq_some hsmall,
    Option.bind_some, hcount, placeAfter_natCast hplace (by decide), Option.bind_some, hlast]

/-- The pairs from an index on are added up, whatever stands before and behind them. -/
theorem foldlM_addPair {front back : List Int} {digits : List Digit}
    (heven : digits.length % 2 = 0)
    (hcount : min (front ++ values digits ++ back).length pairDigits =
      front.length + digits.length)
    {r c : Int} {place : Nat} (hplace : place < 2 ^ 63)
    (hr : -2 ^ 62 ≤ r) (hr' : r + (weighted 20 place (Digit.pairRows digits) : Nat) < 2 ^ 62)
    (hc : -2 ^ 62 ≤ c) (hc' : c + (weighted 20 place (Digit.pairColumns digits) : Nat) < 2 ^ 62) :
    (List.range' front.length (digits.length / 2) 2).foldlM
        (addPair (front ++ values digits ++ back)) ⟨r, c, place⟩ =
      some ⟨r + (weighted 20 place (Digit.pairRows digits) : Nat),
        c + (weighted 20 place (Digit.pairColumns digits) : Nat),
        (lastPlace 20 place (Digit.pairRows digits) : Nat)⟩ := by
  induction digits using inPairs.induct generalizing front r c place with
  | case1 row column rest ih =>
    have hrows : Digit.pairRows (row :: column :: rest) = row.val :: Digit.pairRows rest := rfl
    have hcolumns : Digit.pairColumns (row :: column :: rest) =
        column.val :: Digit.pairColumns rest := rfl
    have heven' : rest.length % 2 = 0 := by
      simp only [List.length_cons] at heven
      omega
    have hsteps : (row :: column :: rest).length / 2 = rest.length / 2 + 1 := by
      simp only [List.length_cons]
      omega
    have hsplit : front ++ values (row :: column :: rest) ++ back =
        (front ++ values [row, column]) ++ values rest ++ back := by simp [values]
    have hnext : (front ++ values [row, column]).length = front.length + 2 := by simp [values]
    rw [hrows, weighted, Int.natCast_add] at hr'
    rw [hcolumns, weighted, Int.natCast_add] at hc'
    rw [hsteps, List.range'_succ, List.foldlM_cons,
      addPair_append hcount hplace hr (by omega) hc (by omega), Option.bind_eq_bind,
      Option.bind_some, hsplit, ← hnext]
    by_cases hrest : rest = []
    · subst hrest
      rfl
    · have hcount' : min (front ++ values [row, column] ++ values rest ++ back).length pairDigits =
          (front ++ values [row, column]).length + rest.length := by
        rw [← hsplit, hcount, hnext, List.length_cons, List.length_cons]
        omega
      rw [if_neg hrest, ih heven' hcount' (by omega) (by omega) (by omega) (by omega) (by omega),
        lastPlace_pairRows place row column heven' hrest, hrows, hcolumns, weighted, weighted,
        Int.natCast_add, Int.natCast_add, Int.add_assoc, Int.add_assoc]
  | case2 digits hd =>
    rcases digits with _ | ⟨row, _ | ⟨column, rest⟩⟩
    · simp [Digit.pairRows, Digit.pairColumns, inPairs, weighted, lastPlace]
    · cases heven
    · exact (hd row column rest rfl).elim

theorem addRefined_eq {d : Digit} {index count r c height width : Nat} (hheight : height < 2 ^ 63)
    (hwidth : width < 2 ^ 63) (hindex : index + 1 < 2 ^ 63)
    (hr : r + d.val / refinementColumns * height < 2 ^ 63)
    (hc : c + d.val % refinementColumns * width < 2 ^ 63) :
    addRefined count ⟨r, c, height, width⟩ (((d.val : Nat) : Int), index) =
      some ⟨(r + d.val / refinementColumns * height : Nat),
        (c + d.val % refinementColumns * width : Nat),
        (if index + 1 < count then height / refinementRows else height : Nat),
        (if index + 1 < count then width / refinementColumns else width : Nat)⟩ := by
  have hd : d.val < 2 ^ 63 := d.isLt.trans (by decide)
  unfold addRefined
  simp only [Option.bind_eq_bind]
  rw [divInt_natCast hd (by decide), Option.bind_some, mulInt_natCast (by omega), Option.bind_some,
    addInt_natCast hr, Option.bind_some, modInt_natCast hd (by decide), Option.bind_some,
    mulInt_natCast (by omega), Option.bind_some, addInt_natCast hc, Option.bind_some,
    addCount_eq_some (by omega), Option.bind_some, placeAfter_natCast hheight (by decide),
    Option.bind_some, placeAfter_natCast hwidth (by decide), Option.bind_some]

/-- The digits after the tenth are added up as rows and columns. -/
theorem foldlM_addRefined {digits : List Digit} {start count : Nat}
    (hcount : start + digits.length = count) (hsmall : count < 2 ^ 63) {r c height width : Nat}
    (hheight : height < 2 ^ 63) (hwidth : width < 2 ^ 63)
    (hr : r + weighted refinementRows height (Digit.refinedRows digits) < 2 ^ 63)
    (hc : c + weighted refinementColumns width (Digit.refinedColumns digits) < 2 ^ 63) :
    ((values digits).zipIdx start).foldlM (addRefined count) ⟨r, c, height, width⟩ =
      some ⟨(r + weighted refinementRows height (Digit.refinedRows digits) : Nat),
        (c + weighted refinementColumns width (Digit.refinedColumns digits) : Nat),
        (lastPlace refinementRows height (Digit.refinedRows digits) : Nat),
        (lastPlace refinementColumns width (Digit.refinedColumns digits) : Nat)⟩ := by
  induction digits generalizing start r c height width with
  | nil => rfl
  | cons d rest ih =>
    have hrows : Digit.refinedRows (d :: rest) =
        d.val / refinementColumns :: Digit.refinedRows rest := rfl
    have hcolumns : Digit.refinedColumns (d :: rest) =
        d.val % refinementColumns :: Digit.refinedColumns rest := rfl
    rw [hrows, weighted] at hr
    rw [hcolumns, weighted] at hc
    have hzip : (values (d :: rest)).zipIdx start =
        (((d.val : Nat) : Int), start) :: (values rest).zipIdx (start + 1) := rfl
    rw [List.length_cons] at hcount
    rw [hzip, List.foldlM_cons,
      addRefined_eq hheight hwidth (by omega) (by omega) (by omega), Option.bind_eq_bind,
      Option.bind_some, hrows, hcolumns]
    by_cases hrest : rest = []
    · subst hrest
      have hnext : ¬ start + 1 < count := by simpa [List.length_nil] using hcount.ge
      rw [if_neg hnext, if_neg hnext]
      rfl
    · obtain ⟨e, others, rfl⟩ := List.exists_cons_of_ne_nil hrest
      have hnext : start + 1 < count := by
        rw [List.length_cons] at hcount
        omega
      rw [if_pos hnext, if_pos hnext, ih (by omega) ((Nat.div_le_self _ _).trans_lt hheight)
        ((Nat.div_le_self _ _).trans_lt hwidth) (by omega) (by omega), weighted, weighted,
        Nat.add_assoc, Nat.add_assoc]
      rfl

/-! ## Areas -/

theorem mulInt_cells :
    mulInt (-90) cellsPerDegree = some (-((90 * cellsPerDegree : Nat) : Int)) ∧
      mulInt (-180) cellsPerDegree = some (-((180 * cellsPerDegree : Nat) : Int)) := by decide

theorem powInt_places : powInt 20 (pairDigits / 2 - 1) = some ((20 ^ 4 : Nat) : Int) ∧
    powInt refinementRows (refinementDigits - 1) = some ((refinementRows ^ 4 : Nat) : Int) ∧
    powInt refinementColumns (refinementDigits - 1) =
      some ((refinementColumns ^ 4 : Nat) : Int) := by decide

theorem length_values (digits : List Digit) : (values digits).length = digits.length :=
  List.length_map _

/-- The pairs of digits add up to whole cells from the equator and the prime meridian. -/
theorem sumPairs_eq {digits : List Digit} (h : Cell.IsCount digits.length) :
    sumPairs (values digits) =
      some ⟨(PlaceSums.ofDigits digits).normalRow, (PlaceSums.ofDigits digits).normalColumn,
        (lastPlace 20 (20 ^ 4) (Digit.pairRows (digits.take pairDigits)) : Nat)⟩ := by
  have heven : (digits.take pairDigits).length % 2 = 0 := by
    have := h.2
    rw [List.length_take]
    simp only [pairDigits] at *
    omega
  obtain ⟨hrows, hcolumns⟩ := pairs_lt (List.length_take_le pairDigits digits)
  have hsplit : values digits =
      [] ++ values (digits.take pairDigits) ++ values (digits.drop pairDigits) := by
    rw [List.nil_append, values, values, values, ← List.map_append, List.take_append_drop]
  have hcount : min (values digits).length pairDigits = (digits.take pairDigits).length := by
    rw [length_values, List.length_take, Nat.min_comm]
  have hsteps : ((digits.take pairDigits).length - 1 + 1) / 2 =
      (digits.take pairDigits).length / 2 := by omega
  unfold sumPairs
  simp only [Option.bind_eq_bind]
  rw [mulInt_cells.1, Option.bind_some, mulInt_cells.2, Option.bind_some, powInt_places.1,
    Option.bind_some, hcount, hsteps, hsplit]
  have hloop := @foldlM_addPair [] (values (digits.drop pairDigits)) _ heven
    (by rw [← hsplit, hcount, List.length_nil, Nat.zero_add])
    (-((90 * cellsPerDegree : Nat) : Int)) (-((180 * cellsPerDegree : Nat) : Int)) (20 ^ 4)
    (by decide) (by decide) (by omega) (by decide) (by omega)
  rw [List.length_nil] at hloop
  rw [hloop, Int.add_comm, ← Int.sub_eq_add_neg, Int.add_comm, ← Int.sub_eq_add_neg]
  rfl

/-- The digits after the tenth add up to the rows and columns within a cell of ten. -/
theorem sumRefined_eq {digits : List Digit} (hle : digits.length ≤ mostDigits)
    (hlt : pairDigits < digits.length) :
    sumRefined (values digits) =
      some ⟨(PlaceSums.ofDigits digits).extraRow, (PlaceSums.ofDigits digits).extraColumn,
        (PlaceSums.ofDigits digits).height, (PlaceSums.ofDigits digits).width⟩ := by
  have hrest : (digits.drop pairDigits).length ≤ refinementDigits := by
    rw [List.length_drop]
    exact Nat.sub_le_sub_right hle pairDigits
  have hrows := (refined_lt hrest).1.trans (by decide : _ < 2 ^ 63)
  have hcolumns := (refined_lt hrest).2.trans (by decide : _ < 2 ^ 63)
  have hsmall := hrest.trans_lt (by decide : _ < 2 ^ 63)
  have hslice : slice (values digits) pairDigits (values digits).length =
      some (values (digits.drop pairDigits)) := by
    rw [slice_eq_some (by rw [length_values]; exact hlt.le) (Nat.le_refl _), List.take_length,
      values, values, List.map_drop]
  rw [← Nat.zero_add (weighted _ _ _)] at hrows hcolumns
  have hloop := @foldlM_addRefined (digits.drop pairDigits) 0 _ (Nat.zero_add _) hsmall 0 0
    (refinementRows ^ 4) (refinementColumns ^ 4) (by decide) (by decide) hrows hcolumns
  unfold sumRefined
  simp only [Option.bind_eq_bind]
  rw [hslice, Option.bind_some, powInt_places.2.1, Option.bind_some, powInt_places.2.2,
    Option.bind_some, length_values]
  rw [Nat.zero_add, Nat.zero_add] at hloop
  refine hloop.trans ?_
  rw [PlaceSums.ofDigits, if_neg (Nat.not_le_of_lt hlt), if_neg (Nat.not_le_of_lt hlt)]
  rfl

/-- The area with its corner at sums of whole cells and of their parts. -/
def areaOf (row column extraRow extraColumn : Int) (height width : Binary64) (count : Nat) : Area :=
  let south : Binary64 :=
    .ofInt row / .ofNat cellsPerDegree + .ofInt extraRow / .ofNat rowsPerDegree
  let west : Binary64 :=
    .ofInt column / .ofNat cellsPerDegree + .ofInt extraColumn / .ofNat columnsPerDegree
  { south := roundPlaces south
    west := roundPlaces west
    north := roundPlaces (south + height)
    east := roundPlaces (west + width)
    digitCount := count }

/-- The area of the digits of a text. -/
def decodeDigits (text : List Char) : Option Area := do
  let digits ← digitValues text
  let pairs ← sumPairs digits
  if digits.length ≤ pairDigits then
    let side : Binary64 := .ofInt pairs.place / .ofNat cellsPerDegree
    some (areaOf pairs.row pairs.column 0 0 side side digits.length)
  else do
    let refined ← sumRefined digits
    let height : Binary64 := .ofInt refined.height / .ofNat rowsPerDegree
    let width : Binary64 := .ofInt refined.width / .ofNat columnsPerDegree
    some (areaOf pairs.row pairs.column refined.row refined.column height width digits.length)

def decode (text : List Char) : Option (Except Error Area) := do
  if ← isShort text then some (.error (.notFullCode text))
  else if !(← isFull text) then some (.error (.invalidCode text))
  else (decodeDigits text).map .ok

theorem degreesOf_eq {steps extra : Nat} (hextra : extra < steps) (origin cells : Nat) :
    degreesOf steps origin (cells * steps + extra) =
      .ofInt ((cells : Int) - (origin * cellsPerDegree : Nat)) / .ofNat cellsPerDegree +
        .ofInt extra / .ofNat (cellsPerDegree * steps) := by
  have hsteps : 0 < steps := Nat.zero_lt_of_lt hextra
  rw [degreesOf, Nat.mul_comm cells, Nat.mul_add_div hsteps, Nat.mul_add_mod,
    Nat.div_eq_of_lt hextra, Nat.mod_eq_of_lt hextra, Nat.add_zero, Binary64.ofInt_natCast]

/-- The area that digits name has its corner where the sums at place values say. -/
theorem area_ofDigits {digits : List Digit} (h : Cell.IsCount digits.length) (hne : digits ≠ []) :
    Area.ofDigits digits =
      let s := PlaceSums.ofDigits digits
      areaOf s.normalRow s.normalColumn s.extraRow s.extraColumn
        (.ofNat s.height / .ofNat rowsPerDegree) (.ofNat s.width / .ofNat columnsPerDegree)
        digits.length := by
  obtain ⟨hsouth, hwest, hheight, hwidth⟩ := describes_ofDigits h hne
  have hrest : (digits.drop pairDigits).length ≤ refinementDigits := by
    rw [List.length_drop]
    exact Nat.sub_le_sub_right h.1 pairDigits
  obtain ⟨hrows, hcolumns⟩ := refined_lt hrest
  have hsouthDegrees := degreesOf_eq hrows 90
    (weighted 20 (20 ^ 4) (Digit.pairRows (digits.take pairDigits)))
  have hwestDegrees := degreesOf_eq hcolumns 180
    (weighted 20 (20 ^ 4) (Digit.pairColumns (digits.take pairDigits)))
  rw [Int.ofNat_inj.1 ((south_ofDigits digits).symm.trans hsouth)] at hsouthDegrees
  rw [Int.ofNat_inj.1 ((west_ofDigits digits).symm.trans hwest)] at hwestDegrees
  rw [Area.ofDigits, Area.ofCell, Cell.heightDegrees, Cell.widthDegrees, Cell.southDegrees,
    Cell.westDegrees, ← hheight, ← hwidth, hsouthDegrees, hwestDegrees, Nat.min_eq_right h.1]
  rfl

/-- A cell of at most ten digits is as high as it is wide, in terms of whole cells of ten. -/
theorem side_eq {digits : List Digit} (hle : digits.length ≤ pairDigits) :
    let s := PlaceSums.ofDigits digits
    let place := lastPlace 20 (20 ^ 4) (Digit.pairRows (digits.take pairDigits))
    Binary64.ofNat s.height / .ofNat rowsPerDegree = .ofInt place / .ofNat cellsPerDegree ∧
      Binary64.ofNat s.width / .ofNat columnsPerDegree = .ofInt place / .ofNat cellsPerDegree := by
  intro s place
  have hplace : place ≤ 20 ^ 4 := lastPlace_le _ _ _
  have hsame : lastPlace 20 (20 ^ 4) (Digit.pairColumns (digits.take pairDigits)) = place :=
    lastPlace_congr _ _ ((length_pairColumns _).trans (length_pairRows _).symm)
  have hheight : s.height = place * refinementRows ^ refinementDigits := if_pos hle
  have hwidth : s.width = place * refinementColumns ^ refinementDigits := by
    rw [← hsame]
    exact if_pos hle
  have hlarge : 20 ^ 4 * refinementRows ^ refinementDigits ≤ 2 ^ 53 ∧
    20 ^ 4 * refinementColumns ^ refinementDigits ≤ 2 ^ 53 := by decide
  rw [hheight, hwidth, Binary64.ofInt_natCast]
  constructor
  · exact Binary64.ofNat_mul_div_ofNat_mul (by decide) (by decide)
      ((Nat.mul_le_mul_right _ hplace).trans hlarge.1) (by decide)
  · exact Binary64.ofNat_mul_div_ofNat_mul (by decide) (by decide)
      ((Nat.mul_le_mul_right _ hplace).trans hlarge.2) (by decide)

/-- The area of a code that is not short is read without failing. -/
theorem decodeDigits_eq {text : List Char} {c : Code} (hc : Code.ofText? text = some c)
    (hshort : c.isShort = false) : decodeDigits text = some (Area.ofDigits c.digits) := by
  -- Further digits are left out, and the ones that stay are those of a code as well.
  have hfull := fullCount_firstDigits hshort
  have hle : (c.digits.take mostDigits).length ≤ mostDigits := List.length_take_le _ _
  have hcount := hfull.isCount hle
  have hne : c.digits.take mostDigits ≠ [] := List.length_pos_iff.1 hfull.1
  have harea := area_ofDigits hcount hne
  rw [Area.ofDigits_take_most] at harea
  unfold decodeDigits
  simp only [Option.bind_eq_bind]
  rw [digitValues_eq hc, Option.bind_some, sumPairs_eq hcount, Option.bind_some, length_values,
    harea]
  by_cases hpairs : (c.digits.take mostDigits).length ≤ pairDigits
  · have hsides := side_eq hpairs
    have hnone : (c.digits.take mostDigits).drop pairDigits = [] := List.drop_of_length_le hpairs
    rw [if_pos hpairs]
    dsimp only
    rw [hsides.1, hsides.2]
    simp only [PlaceSums.ofDigits, hnone]
    rfl
  · rw [if_neg hpairs, sumRefined_eq hle (Nat.lt_of_not_le hpairs), Option.bind_some]
    simp only [Binary64.ofInt_natCast]

/-- What `areaOfText` says is said without failing, for any text. -/
theorem decode_eq (text : List Char) : decode text = some (areaOfText text) := by
  unfold decode areaOfText
  simp only [Option.bind_eq_bind]
  rw [isShort_eq, Option.bind_some, isFull_eq, Option.bind_some]
  cases hc : Code.ofText? text with
  | none =>
    rw [kind_of_eq_none hc]
    rfl
  | some c =>
    rw [kind_of_ofText? hc]
    dsimp only [areaFrom]
    cases hshort : c.isShort with
    | true => rfl
    | false =>
      rw [decodeDigits_eq hc hshort]
      have hfull : c.isFull = c.isOnGlobe := by rw [Code.isFull, hshort]; rfl
      rw [hfull]
      cases c.isOnGlobe with
      | true => rfl
      | false => rfl

end OpenLocation.Checked
