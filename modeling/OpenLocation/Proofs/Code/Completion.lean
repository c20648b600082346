import OpenLocation.Code.Reference
import OpenLocation.Proofs.Code.Placement

/-!
# Completions of short codes

A short code leaves out two, four, six or eight leading digits. The full codes that end in
its digits are its completions: there is one for each cell of the globe that the missing
digits name (`exists_completes`), and it lies in the same place of that cell as the others do
in theirs (`exists_spaced`). So the middles of two completions are whole cells apart.
-/

namespace OpenLocation

open Binary64

theorem Cell.OnGlobe.corner_mem {c : Cell} (h : c.OnGlobe) :
    (⟨c.south, c.west⟩ : GridPoint) ∈ c :=
  ⟨⟨Nat.le_refl _, Nat.lt_add_of_pos_right h.height_pos⟩,
    Nat.le_refl _, Nat.lt_add_of_pos_right h.width_pos⟩

/-! ## Cells of leading digits -/

/-- The numbers of leading digits that a short code may leave out. -/
def LeadCount (count : Nat) : Prop := count = 2 ∨ count = 4 ∨ count = 6 ∨ count = 8

/-- Degrees along a side of the cells of at most ten digits, which are squares. -/
def cellDegrees (count : Nat) : ℚ := Cell.heightOf count / GridPoint.rowsPerDegree

/-- Cells of so many digits from pole to pole. -/
def rowsOf (count : Nat) : Nat := 180 * GridPoint.rowsPerDegree / Cell.heightOf count

/-- Cells of so many digits once around. -/
def columnsOf (count : Nat) : Nat := 360 * GridPoint.columnsPerDegree / Cell.widthOf count

namespace LeadCount

variable {count : Nat}

theorem isCount (h : LeadCount count) :
    Cell.IsCount count ∧ count ≤ pairDigits ∧ count ≤ separatorPosition ∧ count % 2 = 0 := by
  rcases h with rfl | rfl | rfl | rfl <;> decide

theorem dvd_globe (h : LeadCount count) :
    Cell.heightOf count ∣ 180 * GridPoint.rowsPerDegree ∧
      Cell.widthOf count ∣ 360 * GridPoint.columnsPerDegree := by
  rcases h with rfl | rfl | rfl | rfl <;> decide

theorem cellDegrees_eq (h : LeadCount count) :
    count = 2 ∧ cellDegrees count = 20 ∨ count = 4 ∧ cellDegrees count = 1 ∨
      count = 6 ∧ cellDegrees count = 1 / 20 ∨ count = 8 ∧ cellDegrees count = 1 / 400 := by
  rcases h with rfl | rfl | rfl | rfl <;>
    norm_num [cellDegrees, Cell.heightOf, Cell.sizeOf, GridPoint.rowsPerDegree,
      GridPoint.cellsPerDegree, refinementRows, refinementDigits, pairDigits]

theorem cellDegrees_eq_width (h : LeadCount count) :
    cellDegrees count = Cell.widthOf count / GridPoint.columnsPerDegree := by
  rcases h with rfl | rfl | rfl | rfl <;>
    norm_num [cellDegrees, Cell.heightOf, Cell.widthOf, Cell.sizeOf, GridPoint.rowsPerDegree,
      GridPoint.columnsPerDegree, GridPoint.cellsPerDegree, refinementRows, refinementColumns,
      refinementDigits, pairDigits]

theorem cellDegrees_bounds (h : LeadCount count) :
    1 / 400 ≤ cellDegrees count ∧ cellDegrees count ≤ 20 := by
  rcases h.cellDegrees_eq with ⟨-, h⟩ | ⟨-, h⟩ | ⟨-, h⟩ | ⟨-, h⟩ <;> rw [h] <;> norm_num

theorem rowsOf_mul (h : LeadCount count) : rowsOf count * cellDegrees count = 180 := by
  have hrows : (rowsOf count * Cell.heightOf count : ℚ) = 180 * GridPoint.rowsPerDegree := by
    exact_mod_cast Nat.div_mul_cancel h.dvd_globe.1
  rw [cellDegrees, ← mul_div_assoc, hrows,
    mul_div_cancel_right₀ _ (by norm_num [GridPoint.rowsPerDegree, GridPoint.cellsPerDegree,
      refinementRows, refinementDigits])]

theorem columnsOf_mul (h : LeadCount count) : columnsOf count * cellDegrees count = 360 := by
  have hcolumns : (columnsOf count * Cell.widthOf count : ℚ) =
      360 * GridPoint.columnsPerDegree := by
    exact_mod_cast Nat.div_mul_cancel h.dvd_globe.2
  rw [h.cellDegrees_eq_width, ← mul_div_assoc, hcolumns,
    mul_div_cancel_right₀ _ (by norm_num [GridPoint.columnsPerDegree, GridPoint.cellsPerDegree,
      refinementColumns, refinementDigits])]

/-- A point on the globe lies in one of the rows and columns of cells. -/
theorem lt_of_onGlobe (h : LeadCount count) {p : GridPoint} (hp : p.OnGlobe) :
    p.row / Cell.heightOf count < rowsOf count ∧
      p.column / Cell.widthOf count < columnsOf count :=
  ⟨Nat.div_lt_div_of_lt_of_dvd h.dvd_globe.1 hp.1, Nat.div_lt_div_of_lt_of_dvd h.dvd_globe.2 hp.2⟩

/-- Each row and column of cells has a point on the globe. -/
theorem exists_onGlobe (h : LeadCount count) {row column : Nat} (hrow : row < rowsOf count)
    (hcolumn : column < columnsOf count) :
    ∃ p : GridPoint, p.OnGlobe ∧ p.row / Cell.heightOf count = row ∧
      p.column / Cell.widthOf count = column :=
  ⟨⟨row * Cell.heightOf count, column * Cell.widthOf count⟩,
    ⟨(Nat.lt_div_iff_mul_lt' h.dvd_globe.1 row).1 hrow |>.trans_eq' (Nat.mul_comm ..),
      (Nat.lt_div_iff_mul_lt' h.dvd_globe.2 column).1 hcolumn |>.trans_eq' (Nat.mul_comm ..)⟩,
    Nat.mul_div_cancel _ (Cell.heightOf_pos count), Nat.mul_div_cancel _ (Cell.widthOf_pos count)⟩

theorem near_precision (h : LeadCount count) :
    Near (precision count) (cellDegrees count) (1 / 2 ^ 52) := by
  have hsize : cellDegrees count = (20 : ℚ) ^ (2 - ((count / 2 : Nat) : ℤ)) := by
    rcases h.cellDegrees_eq with ⟨rfl, h⟩ | ⟨rfl, h⟩ | ⟨rfl, h⟩ | ⟨rfl, h⟩ <;> rw [h] <;> norm_num
  have hsquares : 20 ^ (2 * (2 - ((count / 2 : Nat) : ℤ)).natAbs) ≤ 2 ^ 53 := by
    rcases h with rfl | rfl | rfl | rfl <;> decide
  rw [precision, if_pos h.isCount.2.1, hsize]
  exact_mod_cast Near.power (by decide) hsquares

end LeadCount

namespace Code

/-! ## Short codes -/

/-- How many leading digits a short code leaves out. -/
def missing (c : Code) : Nat := separatorPosition - c.lead.length

theorem padding_of_isShort {c : Code} (h : c.isShort = true) : c.padding = 0 := by
  have hshape := c.shape
  simp only [isShort, decide_eq_true_iff] at h
  simp only [Shape] at hshape
  omega

theorem leadCount_missing {c : Code} (h : c.isShort = true) : LeadCount c.missing := by
  have hpadding := padding_of_isShort h
  have hshape := c.shape
  simp only [isShort, decide_eq_true_iff, hpadding, separatorPosition] at h
  simp only [Shape, hpadding] at hshape
  simp only [LeadCount, missing, separatorPosition]
  omega

theorem length_digits_pos {c : Code} (h : c.isShort = true) : 0 < c.digits.length := by
  have hpadding := padding_of_isShort h
  have hshape := c.shape
  simp only [Shape, hpadding] at hshape
  rw [digits, List.length_append]
  omega

/-- The missing digits make a short code one with all places before the separator. -/
theorem missing_add_length {c : Code} (h : c.isShort = true) :
    c.missing + c.digits.length = separatorPosition + c.tail.length := by
  simp only [isShort, decide_eq_true_iff] at h
  rw [digits, List.length_append, missing]
  omega

theorem fullCount_missing {c : Code} (h : c.isShort = true) :
    FullCount (c.missing + c.digits.length) := by
  have hpadding := padding_of_isShort h
  have hshape := c.shape
  simp only [Shape, hpadding] at hshape
  simp only [missing_add_length h, FullCount, separatorPosition]
  omega

/-! ## Codes without their first digits -/

theorem length_lead {c : Code} (hshort : c.isShort = false) (hpadding : c.padding = 0) :
    c.lead.length = separatorPosition := by
  have hshape := c.shape
  simp only [isShort, decide_eq_false_iff_not, hpadding] at hshort
  simp only [Shape, hpadding] at hshape
  omega

theorem shape_drop {c : Code} {count : Nat} (hshort : c.isShort = false) (hpadding : c.padding = 0)
    (hcount : LeadCount count) (hlt : count < c.digits.length) :
    Shape (c.lead.drop count).length c.padding c.tail.length := by
  have hlead := length_lead hshort hpadding
  have hshape := c.shape
  obtain ⟨-, -, hle, heven⟩ := hcount.isCount
  rw [digits, List.length_append] at hlt
  rw [List.length_drop]
  simp only [Shape, separatorPosition] at hshape hlead hle ⊢
  omega

/-- Without its first digits an unpadded code is the short code of the other ones. -/
theorem dropLead_eq {c : Code} {count : Nat} (hshort : c.isShort = false)
    (hpadding : c.padding = 0) (hcount : LeadCount count) (hlt : count < c.digits.length) :
    c.dropLead count =
      ⟨c.lead.drop count, c.padding, c.tail, shape_drop hshort hpadding hcount hlt⟩ := by
  rw [dropLead, ofParts?, dif_pos (shape_drop hshort hpadding hcount hlt), Option.getD_some]

theorem digits_dropLead {c : Code} {count : Nat} (hshort : c.isShort = false)
    (hpadding : c.padding = 0) (hcount : LeadCount count) (hlt : count < c.digits.length) :
    (c.dropLead count).digits = c.digits.drop count ∧ (c.dropLead count).missing = count := by
  have hlead := length_lead hshort hpadding
  have hle := hcount.isCount.2.2.1
  rw [dropLead_eq hshort hpadding hcount hlt, missing, digits, digits,
    List.drop_append_of_le_length (by omega), List.length_drop]
  exact ⟨rfl, by omega⟩

theorem isShort_dropLead {c : Code} (hshort : c.isShort = false) (hpadding : c.padding = 0)
    {count : Nat} (hcount : LeadCount count) (hlt : count < c.digits.length) :
    (c.dropLead count).isShort = true := by
  have hlead := length_lead hshort hpadding
  have hpos : 0 < count := by rcases hcount with rfl | rfl | rfl | rfl <;> decide
  rw [dropLead_eq hshort hpadding hcount hlt, isShort, decide_eq_true_iff]
  simp only [List.length_drop, separatorPosition] at hlead ⊢
  omega

/-- No single digit is left of a full code. -/
theorem two_le_length_sub {c : Code} (hfull : c.isFull = true) (hpadding : c.padding = 0)
    {count : Nat} (hcount : LeadCount count) (hlt : count < c.digits.length) :
    2 ≤ c.digits.length - count := by
  have hfullCount := fullCount_of_isFull hfull
  have hlead := length_lead (isShort_of_isFull hfull) hpadding
  simp only [LeadCount, FullCount, digits, List.length_append, separatorPosition] at *
  omega

theorem text_dropLead {c : Code} (hshort : c.isShort = false) (hpadding : c.padding = 0)
    {count : Nat} (hcount : LeadCount count) (hlt : count < c.digits.length) :
    (c.dropLead count).text = c.text.drop count := by
  have hle : count ≤ (Digit.text c.lead).length := by
    rw [Digit.text, List.length_map, length_lead hshort hpadding]
    exact hcount.isCount.2.2.1
  rw [dropLead_eq hshort hpadding hcount hlt, text, text, List.append_assoc, List.append_assoc,
    List.drop_append_of_le_length hle]
  simp only [Digit.text, List.map_drop]

/-! ## Completions -/

/-- The first code is full and ends in the digits of the second one, a short code. -/
structure Completes (d c : Code) : Prop where
  isFull : d.isFull = true
  drop_digits : d.digits.drop c.missing = c.digits

theorem completes_dropLead {c : Code} (hfull : c.isFull = true) (hpadding : c.padding = 0)
    {count : Nat} (hcount : LeadCount count) (hlt : count < c.digits.length) :
    Completes c (c.dropLead count) := by
  obtain ⟨hdigits, hmissing⟩ := digits_dropLead (isShort_of_isFull hfull) hpadding hcount hlt
  exact ⟨hfull, by rw [hmissing, hdigits]⟩

namespace Completes

variable {c d : Code}

theorem length_digits (h : Completes d c) (hshort : c.isShort = true) :
    d.digits.length = c.missing + c.digits.length := by
  have hlength := congrArg List.length h.drop_digits
  have hpos := length_digits_pos hshort
  rw [List.length_drop] at hlength
  omega

theorem missing_lt (h : Completes d c) (hshort : c.isShort = true) :
    c.missing < d.digits.length := by
  rw [h.length_digits hshort]
  exact Nat.lt_add_of_pos_right (length_digits_pos hshort)

theorem take_append (h : Completes d c) : d.digits.take c.missing ++ c.digits = d.digits := by
  rw [← h.drop_digits, List.take_append_drop]

/-- A completion has places for all its digits, so it is not padded. -/
theorem padding_eq (h : Completes d c) (hshort : c.isShort = true) : d.padding = 0 := by
  obtain ⟨hcount, hd⟩ := exists_eq_ofDigits (isShort_of_isFull h.isFull)
  rw [hd]
  simp only [ofDigits, h.length_digits hshort, missing_add_length hshort]
  omega

/-- Without the missing digits a completion is the short code. -/
theorem dropLead_eq (h : Completes d c) (hshort : c.isShort = true) :
    d.dropLead c.missing = c := by
  have hfull := isShort_of_isFull h.isFull
  have hpadding := h.padding_eq hshort
  have hcount := leadCount_missing hshort
  have hlt := h.missing_lt hshort
  have hlead := length_lead hfull hpadding
  have hdigits := h.drop_digits
  have hlength : (d.lead.drop c.missing).length = c.lead.length := by
    have := hcount.isCount.2.2.1
    rw [List.length_drop, hlead, missing]
    have : c.lead.length < separatorPosition := by
      simp only [isShort, decide_eq_true_iff] at hshort
      omega
    omega
  rw [digits, digits, List.drop_append_of_le_length (by rw [hlead]; exact hcount.isCount.2.2.1)]
    at hdigits
  obtain ⟨hleads, htails⟩ := List.append_inj hdigits hlength
  rw [Code.dropLead_eq hfull hpadding hcount hlt]
  obtain ⟨lead, padding, tail, hshape⟩ := c
  simp only [Code.mk.injEq]
  exact ⟨hleads, hpadding.trans (padding_of_isShort hshort).symm, htails⟩

/-- The digits of a completion begin with those of a point on the globe. -/
theorem exists_onGlobe (h : Completes d c) (hshort : c.isShort = true)
    (hle : d.digits.length ≤ mostDigits) :
    ∃ p : GridPoint, p.OnGlobe ∧ d.digits.take c.missing = p.digits.take c.missing := by
  have hcorner := (cell_onGlobe h.isFull hle).corner_mem
  refine ⟨_, (onGlobe_of_mem h.isFull hle hcorner).1, ?_⟩
  have hdigits := Cell.eq_take_of_mem (isCount_of_isFull h.isFull hle) hcorner
  exact (congrArg (List.take c.missing) hdigits).trans
    (by rw [List.take_take, Nat.min_eq_left (h.missing_lt hshort).le])

end Completes

/-- The missing digits may be those of any point on the globe. -/
theorem exists_completes {c : Code} (hshort : c.isShort = true) {p : GridPoint} (hp : p.OnGlobe) :
    ∃ d, Completes d c ∧ d.digits.take c.missing = p.digits.take c.missing := by
  have hfront : (p.digits.take c.missing).length = c.missing := by
    rw [List.length_take, GridPoint.length_digits]
    exact Nat.min_eq_left (leadCount_missing hshort).isCount.1.1
  have hlength : (p.digits.take c.missing ++ c.digits).length = c.missing + c.digits.length := by
    rw [List.length_append, hfront]
  have hcount : FullCount (p.digits.take c.missing ++ c.digits).length :=
    hlength.symm ▸ fullCount_missing hshort
  have hfirst : (ofDigits _ hcount).lead.take 2 = p.digits.take 2 := by
    have htwo : 2 ≤ c.missing := by
      rcases leadCount_missing hshort with h | h | h | h <;> omega
    rw [ofDigits, List.take_take, Nat.min_eq_left (by decide),
      List.take_append_of_le_length (by rw [hfront]; exact htwo), List.take_take,
      Nat.min_eq_left htwo]
  rw [GridPoint.take_two_digits] at hfirst
  refine ⟨ofDigits _ hcount, ⟨?_, ?_⟩, ?_⟩
  · rw [isFull, isShort_ofDigits,
      (isOnGlobe_iff hfirst).2 ((GridPoint.onGlobe_iff hp.mem_whole).1 hp)]
    rfl
  · rw [digits_ofDigits, List.drop_left' hfront]
  · rw [digits_ofDigits, List.take_left' hfront]

/-! ## Where completions lie -/

/--
The middles of the completions of a code are whole cells of the missing digits away from one
place in the south west cell. So are those of the cells that the missing digits of a point off
the globe lead to.
-/
structure Spaced (c : Code) (latitude longitude : ℚ) : Prop where
  latitude_low : -90 + 1 / 10 ^ 8 ≤ latitude
  latitude_high : latitude ≤ -90 + cellDegrees c.missing - 1 / 10 ^ 8
  longitude_low : -180 + 1 / 10 ^ 8 ≤ longitude
  longitude_high : longitude ≤ -180 + cellDegrees c.missing - 1 / 10 ^ 8
  middles_of_mem : ∀ {p : GridPoint}, p ∈ Cell.whole →
    let cell := Cell.ofDigits (p.digits.take c.missing ++ c.digits)
    cell.middleLatitude =
        latitude + (p.row / Cell.heightOf c.missing : Nat) * cellDegrees c.missing ∧
      cell.middleLongitude =
        longitude + (p.column / Cell.widthOf c.missing : Nat) * cellDegrees c.missing

theorem Spaced.middles {c d : Code} {p : GridPoint} {latitude longitude : ℚ}
    (h : Spaced c latitude longitude) (hd : Completes d c) (hp : p.OnGlobe)
    (htake : d.digits.take c.missing = p.digits.take c.missing) :
    (Cell.ofDigits d.digits).middleLatitude =
        latitude + (p.row / Cell.heightOf c.missing : Nat) * cellDegrees c.missing ∧
      (Cell.ofDigits d.digits).middleLongitude =
        longitude + (p.column / Cell.widthOf c.missing : Nat) * cellDegrees c.missing := by
  have hmiddles := h.middles_of_mem hp.mem_whole
  rwa [← htake, hd.take_append] at hmiddles

/--
Behind the missing digits of whatever point, a short code names the same part of the cell
around it. Digits after the fifteenth do not matter.
-/
theorem exists_part {c : Code} (hshort : c.isShort = true) :
    ∃ part : Cell, 0 < part.height ∧ 0 < part.width ∧
      part.south + part.height ≤ Cell.heightOf c.missing ∧
      part.west + part.width ≤ Cell.widthOf c.missing ∧
      ∀ p ∈ Cell.whole, Cell.ofDigits (p.digits.take c.missing ++ c.digits) =
        part.shift (p.row / Cell.heightOf c.missing * Cell.heightOf c.missing)
          (p.column / Cell.widthOf c.missing * Cell.widthOf c.missing) := by
  obtain ⟨hisCount, hpairs, -, heven⟩ := (leadCount_missing hshort).isCount
  have hcount := fullCount_missing hshort
  have hrest : Cell.IsCount (c.missing + (c.digits.take (mostDigits - c.missing)).length) := by
    rw [List.length_take]
    simp only [Cell.IsCount, FullCount, mostDigits, pairDigits, refinementDigits] at hcount hpairs ⊢
    omega
  obtain ⟨part, hheight, hwidth, hrows, hcolumns, hpart⟩ :=
    Cell.exists_part hisCount hpairs heven hrest
  refine ⟨part, hheight ▸ Cell.heightOf_pos _, hwidth ▸ Cell.widthOf_pos _, hrows, hcolumns,
    fun p hp => ?_⟩
  have hfront : (p.digits.take c.missing).length = c.missing := by
    rw [List.length_take, GridPoint.length_digits, Nat.min_eq_left hisCount.1]
  have htake : (p.digits.take c.missing ++ c.digits).take mostDigits =
      p.digits.take c.missing ++ c.digits.take (mostDigits - c.missing) := by
    rw [List.take_append, hfront, List.take_of_length_le (hfront.trans_le hisCount.1)]
  have hcell := hpart _ hfront
  rw [← htake, Cell.ofDigits_take_most, Cell.ofDigits_take hp hisCount] at hcell
  exact hcell

/-- A part of a section is at least half a step inside. -/
theorem middleAt_bounds {perDegree origin start size length : Nat} (hpos : 0 < perDegree)
    (hp : perDegree ≤ 5 * 10 ^ 7) (hsize : 0 < size) (hin : start + size ≤ length) :
    -(origin : ℚ) + 1 / 10 ^ 8 ≤ middleAt perDegree origin start size ∧
      middleAt perDegree origin start size ≤
        -(origin : ℚ) + (length : ℚ) / perDegree - 1 / 10 ^ 8 := by
  have hpos' : (0 : ℚ) < perDegree := Nat.cast_pos.2 hpos
  have hp' : (perDegree : ℚ) ≤ 5 * 10 ^ 7 := by exact_mod_cast hp
  have hsize' : (1 : ℚ) ≤ size := by exact_mod_cast hsize
  have hin' : (start : ℚ) + size ≤ length := by exact_mod_cast hin
  have hstart : (0 : ℚ) ≤ start := Nat.cast_nonneg _
  have hmiddle : middleAt perDegree origin start size =
      -origin + (start + size / 2) / perDegree := by
    rw [middleAt_eq, degreesAt]
    field_simp
    ring
  have hlow : 1 / 10 ^ 8 ≤ (start + (size : ℚ) / 2) / perDegree := by
    rw [le_div_iff₀ hpos']
    linarith
  have hhigh : (start + (size : ℚ) / 2) / perDegree + 1 / 10 ^ 8 ≤ (length : ℚ) / perDegree := by
    rw [← le_sub_iff_add_le, ← sub_nonneg, sub_right_comm, ← sub_div, sub_nonneg,
      le_div_iff₀ hpos']
    linarith
  rw [hmiddle]
  constructor <;> linarith

/-- The same part of a later section has its middle whole sections further on. -/
theorem middleAt_add (perDegree origin length i start size : Nat) :
    middleAt perDegree origin (i * length + start) size =
      middleAt perDegree origin start size + i * ((length : ℚ) / perDegree) := by
  rw [middleAt_eq, middleAt_eq, degreesAt, degreesAt]
  push_cast
  ring

theorem exists_spaced {c : Code} (hshort : c.isShort = true) :
    ∃ latitude longitude, Spaced c latitude longitude := by
  have hcount := leadCount_missing hshort
  obtain ⟨part, hheight, hwidth, hrows, hcolumns, hpart⟩ := exists_part hshort
  have hsouth := @middleAt_bounds GridPoint.rowsPerDegree 90 part.south part.height _ (by decide)
    (by decide) hheight hrows
  have hwest := @middleAt_bounds GridPoint.columnsPerDegree 180 part.west part.width _ (by decide)
    (by decide) hwidth hcolumns
  rw [← hcount.cellDegrees_eq_width] at hwest
  refine ⟨_, _, by exact_mod_cast hsouth.1, by exact_mod_cast hsouth.2, by exact_mod_cast hwest.1,
    by exact_mod_cast hwest.2, fun {p} hp => ?_⟩
  rw [hpart p hp]
  simp only [Cell.middleLatitude, Cell.middleLongitude, Cell.shift, Nat.add_comm part.south,
    Nat.add_comm part.west, middleAt_add, ← hcount.cellDegrees_eq_width, and_true]
  rfl

theorem start_eq_of_middleAt_eq {perDegree origin i j size : Nat} (hpos : 0 < perDegree)
    (h : middleAt perDegree origin i size = middleAt perDegree origin j size) : i = j := by
  have hpos' : (perDegree : ℚ) ≠ 0 := Nat.cast_ne_zero.2 hpos.ne'
  rw [middleAt_eq, middleAt_eq, degreesAt, degreesAt, add_left_inj, sub_left_inj,
    div_left_inj' hpos'] at h
  exact_mod_cast h

/-- Full codes of as many digits with their middles in one place are the same. -/
theorem eq_of_middle_eq {c d : Code} (hc : c.isFull = true) (hd : d.isFull = true)
    (hlength : c.digits.length = d.digits.length) (hle : c.digits.length ≤ mostDigits)
    (hlatitude : (Cell.ofDigits c.digits).middleLatitude = (Cell.ofDigits d.digits).middleLatitude)
    (hlongitude : (Cell.ofDigits c.digits).middleLongitude =
      (Cell.ofDigits d.digits).middleLongitude) : c = d := by
  have hcount := isCount_of_isFull hc hle
  obtain ⟨hheight, hwidth⟩ := Cell.size_ofDigits hcount
  obtain ⟨hheight', hwidth'⟩ := Cell.size_ofDigits (hlength ▸ hcount)
  rw [Cell.middleLatitude, Cell.middleLatitude, hheight, hheight', hlength] at hlatitude
  rw [Cell.middleLongitude, Cell.middleLongitude, hwidth, hwidth', hlength] at hlongitude
  have hsouth := start_eq_of_middleAt_eq (by decide) hlatitude
  have hwest := start_eq_of_middleAt_eq (by decide) hlongitude
  have hcorner : (⟨(Cell.ofDigits c.digits).south, (Cell.ofDigits c.digits).west⟩ : GridPoint) ∈
      Cell.ofDigits d.digits := by
    rw [hsouth, hwest]
    exact (cell_onGlobe hd (hlength ▸ hle)).corner_mem
  rw [← (onGlobe_of_mem hc hle (cell_onGlobe hc hle).corner_mem).2, hlength,
    (onGlobe_of_mem hd (hlength ▸ hle) hcorner).2]

/-- Whole cells that are together less than one cell are none. -/
theorem cells_eq_zero {p : ℚ} {m : ℤ} (hp : 0 < p) (h : |m * p| < p) : m = 0 := by
  rw [abs_mul, abs_of_pos hp, mul_lt_iff_lt_one_left hp, ← Int.cast_abs] at h
  exact Int.abs_lt_one_iff.1 (by exact_mod_cast h)

/-- Completions that are less than a cell apart, around the circle, are the same. -/
theorem Completes.eq_of_close {c d e : Code} (hd : Completes d c) (he : Completes e c)
    (hshort : c.isShort = true) (hle : c.missing + c.digits.length ≤ mostDigits)
    (hlatitude : |(Cell.ofDigits d.digits).middleLatitude -
      (Cell.ofDigits e.digits).middleLatitude| < cellDegrees c.missing) {n t : ℤ}
    (hlongitude : |(Cell.ofDigits d.digits).middleLongitude + 360 * n -
      ((Cell.ofDigits e.digits).middleLongitude + 360 * t)| < cellDegrees c.missing) : d = e := by
  have hcount := leadCount_missing hshort
  have hturn := hcount.columnsOf_mul
  obtain ⟨hp, -⟩ := hcount.cellDegrees_bounds
  have hlength := (hd.length_digits hshort).trans (he.length_digits hshort).symm
  have hle' := (hd.length_digits hshort).trans_le hle
  obtain ⟨latitude, longitude, hspaced⟩ := exists_spaced hshort
  obtain ⟨p, hp', htake⟩ := hd.exists_onGlobe hshort hle'
  obtain ⟨q, hq, htake'⟩ := he.exists_onGlobe hshort (hlength ▸ hle')
  obtain ⟨hdlatitude, hdlongitude⟩ := hspaced.middles hd hp' htake
  obtain ⟨helatitude, helongitude⟩ := hspaced.middles he hq htake'
  obtain ⟨-, hcolumn⟩ := hcount.lt_of_onGlobe hp'
  obtain ⟨-, hcolumn'⟩ := hcount.lt_of_onGlobe hq
  rw [hdlatitude, helatitude] at hlatitude
  rw [hdlongitude, helongitude, ← hturn] at hlongitude
  refine eq_of_middle_eq hd.isFull he.isFull hlength hle' ?_ ?_
  · rw [hdlatitude, helatitude]
    generalize p.row / Cell.heightOf c.missing = i at *
    generalize q.row / Cell.heightOf c.missing = j at *
    have hcells := @cells_eq_zero _ (i - j) (by linarith : 0 < cellDegrees c.missing)
      (by convert hlatitude using 2; push_cast; ring)
    rw [Int.natCast_inj.1 (sub_eq_zero.1 hcells)]
  · rw [hdlongitude, helongitude]
    generalize p.column / Cell.widthOf c.missing = i at *
    generalize q.column / Cell.widthOf c.missing = j at *
    have hcells := @cells_eq_zero _ ((i + columnsOf c.missing * n : ℤ) -
      (j + columnsOf c.missing * t)) (by linarith : 0 < cellDegrees c.missing)
      (by convert hlongitude using 2; push_cast; ring)
    -- Both columns are the remainder of one number.
    have hmod := congrArg (· % (columnsOf c.missing : ℤ)) (sub_eq_zero.1 hcells)
    simp only [Int.add_mul_emod_self_left] at hmod
    rw [Int.emod_eq_of_lt (by omega) (by omega), Int.emod_eq_of_lt (by omega) (by omega)] at hmod
    rw [Int.natCast_inj.1 hmod]

end Code

end OpenLocation
