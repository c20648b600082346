import Mathlib
import OpenLocation.Grid.Cell

/-!
# Cells partition the grid

Digits of one number cut the grid in cells of one size, and each point lies in the
cell of its own first digits and in no other. `Cell.ofDigits_take` is the one half
of this and `Cell.eq_take_of_mem` the other. Both follow the two recursions of the
digits from the last digit on: a cell around a point has one part around it, and
the digit of that part is the one that the point has in its place.
-/

namespace OpenLocation

namespace Cell

instance : Membership GridPoint Cell where
  mem c p := (c.south ≤ p.row ∧ p.row < c.south + c.height) ∧
    (c.west ≤ p.column ∧ p.column < c.west + c.width)

/-- At least one row and column, all of them in the ranges of latitude and longitude. -/
structure OnGlobe (c : Cell) : Prop where
  height_pos : 0 < c.height
  width_pos : 0 < c.width
  rows : c.south + c.height ≤ 180 * GridPoint.rowsPerDegree
  columns : c.west + c.width ≤ 360 * GridPoint.columnsPerDegree

theorem mem_iff {p : GridPoint} {c : Cell} : p ∈ c ↔
    (c.south ≤ p.row ∧ p.row < c.south + c.height) ∧
      (c.west ≤ p.column ∧ p.column < c.west + c.width) := Iff.rfl

instance (p : GridPoint) (c : Cell) : Decidable (p ∈ c) :=
  inferInstanceAs (Decidable (_ ∧ _))

/-- The cell around a point when the grid is cut in cells of one size. -/
def around (p : GridPoint) (height width : Nat) : Cell where
  south := p.row / height * height
  west := p.column / width * width
  height := height
  width := width

/-! ## One axis -/

theorem div_mul_le_and_lt {size : Nat} (hs : 0 < size) (n : Nat) :
    n / size * size ≤ n ∧ n < n / size * size + size :=
  ⟨Nat.div_mul_le_self n size, Nat.lt_div_mul_add hs⟩

/-- The part of a section that starts at its digit is the section of a smaller size. -/
theorem section_part (base size n : Nat) :
    n / (base * size) * (base * size) + n / size % base * size = n / size * size := by
  rw [Nat.mul_comm base, ← Nat.div_div_eq_div_mul, Nat.mul_comm size, ← Nat.mul_assoc,
    ← Nat.add_mul, Nat.div_add_mod']

/-- A number lies in the part of its section that its own digit names, and in no other. -/
theorem mem_part_iff {base size : Nat} (hs : 0 < size) {d n : Nat} (hd : d < base) :
    n / (base * size) * (base * size) + d * size ≤ n ∧
      n < n / (base * size) * (base * size) + d * size + size ↔ n / size % base = d := by
  have hpart := section_part base size n
  have hn := div_mul_le_and_lt hs n
  constructor
  · rintro ⟨hle, hlt⟩
    have h1 : d * size < (n / size % base + 1) * size := by rw [Nat.succ_mul]; omega
    have h2 : n / size % base * size < (d + 1) * size := by rw [Nat.succ_mul]; omega
    have := Nat.lt_of_mul_lt_mul_right h1
    have := Nat.lt_of_mul_lt_mul_right h2
    omega
  · rintro rfl
    omega

/-- Parts end where what they divide ends, or before. -/
theorem part_le {base d : Nat} (size : Nat) (hd : d < base) :
    d * (size / base) + size / base ≤ size := by
  calc d * (size / base) + size / base
      = (d + 1) * (size / base) := (Nat.succ_mul ..).symm
    _ ≤ base * (size / base) := Nat.mul_le_mul_right _ hd
    _ ≤ size := Nat.mul_div_le size base

/-! ## Parts of a cell -/

theorem mem_around (p : GridPoint) {height width : Nat} (hh : 0 < height) (hw : 0 < width) :
    p ∈ around p height width := ⟨div_mul_le_and_lt hh _, div_mul_le_and_lt hw _⟩

theorem mem_of_mem_pair {p : GridPoint} {c : Cell} {row column : Digit}
    (h : p ∈ c.pair row column) : p ∈ c := by
  have hr := part_le c.height row.isLt
  have hc := part_le c.width column.isLt
  simp only [mem_iff, pair] at h ⊢
  omega

theorem row_lt (d : Digit) : d.val / refinementColumns < refinementRows := by
  revert d; decide

theorem mem_of_mem_refine {p : GridPoint} {c : Cell} {d : Digit} (h : p ∈ c.refine d) :
    p ∈ c := by
  have hr := part_le c.height (row_lt d)
  have hc := part_le c.width (Nat.mod_lt d.val (by decide : 0 < refinementColumns))
  simp only [mem_iff, refine] at h ⊢
  omega

theorem pair_around (p : GridPoint) (height width : Nat) :
    (around p (20 * height) (20 * width)).pair (Fin.ofNat 20 (p.row / height))
      (Fin.ofNat 20 (p.column / width)) = around p height width := by
  simp only [pair, around, Fin.val_ofNat, Nat.mul_div_cancel_left _ (Nat.succ_pos 19),
    section_part]

theorem eq_of_mem_pair_around {p : GridPoint} {height width : Nat} (hh : 0 < height)
    (hw : 0 < width) {row column : Digit}
    (h : p ∈ (around p (20 * height) (20 * width)).pair row column) :
    row = Fin.ofNat 20 (p.row / height) ∧ column = Fin.ofNat 20 (p.column / width) := by
  simp only [mem_iff, pair, around, Nat.mul_div_cancel_left _ (Nat.succ_pos 19)] at h
  exact ⟨Fin.ext ((mem_part_iff hh row.isLt).1 h.1).symm,
    Fin.ext ((mem_part_iff hw column.isLt).1 h.2).symm⟩

/-- The digit that names the part of a cell in which a row and a column lie. -/
def refinement (row column : Nat) : Digit :=
  Fin.ofNat 20 (row % refinementRows * refinementColumns + column % refinementColumns)

theorem refinement_div (row column : Nat) :
    (refinement row column).val / refinementColumns = row % refinementRows := by
  simp only [refinement, Fin.val_ofNat, refinementRows, refinementColumns]
  omega

theorem refinement_mod (row column : Nat) :
    (refinement row column).val % refinementColumns = column % refinementColumns := by
  simp only [refinement, Fin.val_ofNat, refinementRows, refinementColumns]
  omega

theorem refine_around (p : GridPoint) (height width : Nat) :
    (around p (refinementRows * height) (refinementColumns * width)).refine
      (refinement (p.row / height) (p.column / width)) = around p height width := by
  simp only [refine, around, refinement_div, refinement_mod,
    Nat.mul_div_cancel_left _ (by decide : 0 < refinementRows),
    Nat.mul_div_cancel_left _ (by decide : 0 < refinementColumns), section_part]

theorem eq_of_mem_refine_around {p : GridPoint} {height width : Nat} (hh : 0 < height)
    (hw : 0 < width) {d : Digit}
    (h : p ∈ (around p (refinementRows * height) (refinementColumns * width)).refine d) :
    d = refinement (p.row / height) (p.column / width) := by
  simp only [mem_iff, refine, around, Nat.mul_div_cancel_left _ (by decide : 0 < refinementRows),
    Nat.mul_div_cancel_left _ (by decide : 0 < refinementColumns)] at h
  have hrow := (mem_part_iff hh (row_lt d)).1 h.1
  have hcolumn := (mem_part_iff hw (Nat.mod_lt d.val (by decide : 0 < refinementColumns))).1 h.2
  apply Fin.ext
  rw [← Nat.div_add_mod' d.val refinementColumns, ← hrow, ← hcolumn, ← refinement_div,
    ← refinement_mod, Nat.div_add_mod']

/-! ## Narrowing digit by digit -/

theorem byPairs_append (c : Cell) {front : List Digit} (even : front.length % 2 = 0)
    (rest : List Digit) : c.byPairs (front ++ rest) = (c.byPairs front).byPairs rest := by
  induction c, front using byPairs.induct with
  | case1 c row column front ih =>
    simp only [List.cons_append, byPairs]
    exact ih (by simp only [List.length_cons] at even; omega)
  | case2 front c h =>
    match front, even, h with
    | [], _, _ => rfl
    | [_], even, _ => simp at even
    | row :: column :: front, _, h => exact (h row column front rfl).elim

theorem byPairs_concat (c : Cell) {front : List Digit} (even : front.length % 2 = 0)
    (row column : Digit) :
    c.byPairs (front ++ [row, column]) = (c.byPairs front).pair row column :=
  byPairs_append c even [row, column]

theorem byPairs_pairs (p : GridPoint) (places height width : Nat) :
    (around p (20 ^ places * height) (20 ^ places * width)).byPairs
      (GridPoint.pairs places (p.row / height) (p.column / width)) = around p height width := by
  induction places generalizing height width with
  | zero => simp [GridPoint.pairs, byPairs]
  | succ places ih =>
    have hlen := GridPoint.length_pairs places (p.row / height / 20) (p.column / width / 20)
    have := ih (20 * height) (20 * width)
    rw [GridPoint.pairs, byPairs_concat _ (by omega), Nat.pow_succ, Nat.mul_assoc, Nat.mul_assoc,
      Nat.div_div_eq_div_mul, Nat.div_div_eq_div_mul, Nat.mul_comm height, Nat.mul_comm width, this,
      pair_around]

theorem foldl_refine_refinements (p : GridPoint) (places height width : Nat) :
    (GridPoint.refinements places (p.row / height) (p.column / width)).foldl refine
      (around p (refinementRows ^ places * height) (refinementColumns ^ places * width)) =
      around p height width := by
  induction places generalizing height width with
  | zero => simp [GridPoint.refinements]
  | succ places ih =>
    have := ih (refinementRows * height) (refinementColumns * width)
    rw [GridPoint.refinements, List.foldl_append, Nat.pow_succ, Nat.pow_succ, Nat.mul_assoc,
      Nat.mul_assoc, Nat.div_div_eq_div_mul, Nat.div_div_eq_div_mul, Nat.mul_comm height,
      Nat.mul_comm width, this]
    exact refine_around p height width

theorem eq_pairs_of_mem {p : GridPoint} {places height width : Nat} (hh : 0 < height)
    (hw : 0 < width) {digits : List Digit} (hlen : digits.length = 2 * places)
    (h : p ∈ (around p (20 ^ places * height) (20 ^ places * width)).byPairs digits) :
    digits = GridPoint.pairs places (p.row / height) (p.column / width) := by
  induction places generalizing height width digits with
  | zero => exact List.eq_nil_of_length_eq_zero hlen
  | succ places ih =>
    obtain ⟨front, row, column, rfl, hfront⟩ :
        ∃ front row column, digits = front ++ [row, column] ∧ front.length = 2 * places := by
      have hdrop : (digits.drop (2 * places)).length = 2 := by rw [List.length_drop]; omega
      match hd : digits.drop (2 * places), hdrop with
      | [row, column], _ =>
        exact ⟨digits.take (2 * places), row, column,
          by rw [← hd, List.take_append_drop], by rw [List.length_take]; omega⟩
    rw [byPairs_concat _ (by omega), Nat.pow_succ, Nat.mul_assoc, Nat.mul_assoc] at h
    have hdigits := ih (by omega) (by omega) hfront (mem_of_mem_pair h)
    rw [hdigits, byPairs_pairs] at h
    obtain ⟨rfl, rfl⟩ := eq_of_mem_pair_around hh hw h
    rw [hdigits, GridPoint.pairs, Nat.div_div_eq_div_mul, Nat.div_div_eq_div_mul,
      Nat.mul_comm height, Nat.mul_comm width]

theorem eq_refinements_of_mem {p : GridPoint} {places height width : Nat} (hh : 0 < height)
    (hw : 0 < width) {digits : List Digit} (hlen : digits.length = places)
    (h : p ∈ digits.foldl refine
      (around p (refinementRows ^ places * height) (refinementColumns ^ places * width))) :
    digits = GridPoint.refinements places (p.row / height) (p.column / width) := by
  induction places generalizing height width digits with
  | zero => exact List.eq_nil_of_length_eq_zero hlen
  | succ places ih =>
    obtain ⟨front, d, rfl⟩ : ∃ front d, digits = front ++ [d] :=
      ⟨_, _, (List.dropLast_concat_getLast (List.ne_nil_of_length_eq_add_one hlen)).symm⟩
    have hfront : front.length = places := by simpa using hlen
    rw [List.foldl_append, Nat.pow_succ, Nat.pow_succ, Nat.mul_assoc, Nat.mul_assoc] at h
    have hdigits := ih (Nat.mul_pos (by decide) hh) (Nat.mul_pos (by decide) hw) hfront
      (mem_of_mem_refine h)
    rw [hdigits, foldl_refine_refinements] at h
    obtain rfl := eq_of_mem_refine_around hh hw h
    rw [hdigits, GridPoint.refinements, Nat.div_div_eq_div_mul, Nat.div_div_eq_div_mul,
      Nat.mul_comm height, Nat.mul_comm width]
    rfl

theorem mem_of_mem_byPairs {p : GridPoint} {c : Cell} {digits : List Digit}
    (h : p ∈ c.byPairs digits) : p ∈ c := by
  induction c, digits using byPairs.induct with
  | case1 c row column rest ih => exact mem_of_mem_pair (ih h)
  | case2 digits c hd => rwa [byPairs] at h; exact hd

theorem mem_of_mem_foldl_refine {p : GridPoint} {c : Cell} {digits : List Digit}
    (h : p ∈ digits.foldl refine c) : p ∈ c := by
  induction digits generalizing c with
  | nil => exact h
  | cons d rest ih => exact mem_of_mem_refine (ih h)

/-! ## Cells of any number of digits -/

/-- The numbers of digits of which cells are cut: pairs first, then one by one. -/
def IsCount (count : Nat) : Prop :=
  count ≤ mostDigits ∧ (count < pairDigits → count % 2 = 0)

instance (count : Nat) : Decidable (IsCount count) := inferInstanceAs (Decidable (_ ∧ _))

/-- The size of cells of so many digits, along an axis that is refined in `parts`. -/
def sizeOf (parts count : Nat) : Nat :=
  20 ^ ((pairDigits - count) / 2) * parts ^ (refinementDigits - (count - pairDigits))

def heightOf (count : Nat) : Nat := sizeOf refinementRows count

def widthOf (count : Nat) : Nat := sizeOf refinementColumns count

end Cell

namespace GridPoint

theorem take_pairs (places dropped row column : Nat) :
    (pairs (places + dropped) row column).take (2 * places) =
      pairs places (row / 20 ^ dropped) (column / 20 ^ dropped) := by
  induction dropped generalizing row column with
  | zero => simp [List.take_of_length_le, length_pairs]
  | succ dropped ih =>
    rw [← Nat.add_assoc, pairs, List.take_append_of_le_length (by rw [length_pairs]; omega), ih,
      Nat.div_div_eq_div_mul, Nat.div_div_eq_div_mul, Nat.pow_succ']

theorem take_refinements (places dropped row column : Nat) :
    (refinements (places + dropped) row column).take places =
      refinements places (row / refinementRows ^ dropped)
        (column / refinementColumns ^ dropped) := by
  induction dropped generalizing row column with
  | zero => simp [List.take_of_length_le, length_refinements]
  | succ dropped ih =>
    rw [← Nat.add_assoc, refinements,
      List.take_append_of_le_length (by rw [length_refinements]; omega), ih,
      Nat.div_div_eq_div_mul, Nat.div_div_eq_div_mul, Nat.pow_succ', Nat.pow_succ']

/-- A count below ten cuts the pairs short. -/
theorem take_digits_of_le {count : Nat} (h : count ≤ pairDigits) (even : count % 2 = 0)
    (p : GridPoint) : p.digits.take count =
      pairs (count / 2) (p.row / Cell.heightOf count) (p.column / Cell.widthOf count) := by
  unfold pairDigits at h
  have htake := take_pairs (count / 2) (5 - count / 2) (p.row / refinementRows ^ refinementDigits)
    (p.column / refinementColumns ^ refinementDigits)
  rw [show count / 2 + (5 - count / 2) = pairDigits / 2 by simp only [pairDigits]; omega,
    show 2 * (count / 2) = count by omega] at htake
  rw [digits, List.take_append_of_le_length (by rw [length_pairs]; simp only [pairDigits]; omega),
    htake, Nat.div_div_eq_div_mul, Nat.div_div_eq_div_mul, Cell.heightOf, Cell.widthOf, Cell.sizeOf,
    Cell.sizeOf, Nat.mul_comm (20 ^ _), Nat.mul_comm (20 ^ _)]
  simp only [pairDigits, Nat.sub_eq_zero_of_le h, show (10 - count) / 2 = 5 - count / 2 by omega,
    Nat.sub_zero]

/-- A count from ten on keeps the pairs and cuts the rest short. -/
theorem take_digits_of_ge {count : Nat} (h : pairDigits ≤ count) (hle : count ≤ mostDigits)
    (p : GridPoint) : p.digits.take count =
      pairs (pairDigits / 2) (p.row / refinementRows ^ refinementDigits)
          (p.column / refinementColumns ^ refinementDigits) ++
        refinements (count - pairDigits) (p.row / Cell.heightOf count)
          (p.column / Cell.widthOf count) := by
  simp only [pairDigits, mostDigits, refinementDigits] at h hle
  have htake := take_refinements (count - 10) (15 - count) p.row p.column
  rw [show count - 10 + (15 - count) = refinementDigits by simp only [refinementDigits]; omega]
    at htake
  rw [digits, List.take_append, List.take_of_length_le (by rw [length_pairs, pairDigits]; omega),
    length_pairs, show count - 2 * (pairDigits / 2) = count - 10 by simp only [pairDigits], htake,
    Cell.heightOf, Cell.widthOf, Cell.sizeOf, Cell.sizeOf]
  simp only [pairDigits, refinementDigits, Nat.sub_eq_zero_of_le h, Nat.zero_div, Nat.pow_zero,
    Nat.one_mul, show 5 - (count - 10) = 15 - count by omega]

end GridPoint

namespace Cell

theorem heightOf_pos (count : Nat) : 0 < heightOf count :=
  Nat.mul_pos (Nat.pow_pos (by decide)) (Nat.pow_pos (by decide))

theorem widthOf_pos (count : Nat) : 0 < widthOf count :=
  Nat.mul_pos (Nat.pow_pos (by decide)) (Nat.pow_pos (by decide))

theorem whole_eq_around {p : GridPoint} (h : p ∈ whole) :
    whole = around p whole.height whole.width := by
  have hrow := Nat.div_eq_of_lt (Nat.zero_add whole.height ▸ h.1.2)
  have hcolumn := Nat.div_eq_of_lt (Nat.zero_add whole.width ▸ h.2.2)
  rw [around, hrow, hcolumn, Nat.zero_mul, Nat.zero_mul]
  rfl

theorem whole_height :
    whole.height = 20 ^ (pairDigits / 2) * refinementRows ^ refinementDigits := rfl

theorem whole_width :
    whole.width = 20 ^ (pairDigits / 2) * refinementColumns ^ refinementDigits := rfl

/-- The square cut in as many pairs as a count below ten has. -/
theorem whole_size_of_le {count : Nat} (h : count ≤ pairDigits) (even : count % 2 = 0) :
    whole.height = 20 ^ (count / 2) * heightOf count ∧
      whole.width = 20 ^ (count / 2) * widthOf count := by
  unfold pairDigits at h
  have hpow : 20 ^ 5 = 20 ^ (count / 2) * 20 ^ ((10 - count) / 2) := by
    rw [← Nat.pow_add]; congr 1; omega
  simp only [whole, heightOf, widthOf, sizeOf, pairDigits, Nat.sub_eq_zero_of_le h, Nat.sub_zero]
  rw [hpow, Nat.mul_assoc, Nat.mul_assoc]
  exact ⟨rfl, rfl⟩

theorem refined_size (parts : Nat) {count : Nat} (h : pairDigits ≤ count)
    (hle : count ≤ mostDigits) :
    parts ^ refinementDigits = parts ^ (count - pairDigits) * sizeOf parts count := by
  simp only [pairDigits, mostDigits, refinementDigits] at h hle
  simp only [sizeOf, pairDigits, refinementDigits, Nat.sub_eq_zero_of_le h, Nat.zero_div,
    Nat.pow_zero, Nat.one_mul]
  rw [← Nat.pow_add]; congr 1; omega

theorem mem_whole_of_mem {p : GridPoint} {digits : List Digit} (h : p ∈ ofDigits digits) :
    p ∈ whole := mem_of_mem_byPairs (mem_of_mem_foldl_refine h)

theorem ofDigits_of_le {digits : List Digit} (h : digits.length ≤ pairDigits) :
    ofDigits digits = whole.byPairs digits := by
  rw [ofDigits, List.drop_of_length_le h, List.take_of_length_le h]
  rfl

theorem ofDigits_append {front rest : List Digit} (hfront : front.length = pairDigits)
    (hrest : rest.length ≤ refinementDigits) :
    ofDigits (front ++ rest) = rest.foldl refine (whole.byPairs front) := by
  rw [ofDigits, List.drop_left' hfront, List.take_left' hfront, List.take_of_length_le hrest]

theorem size_byPairs (c : Cell) (digits : List Digit) :
    (c.byPairs digits).height = c.height / 20 ^ (digits.length / 2) ∧
      (c.byPairs digits).width = c.width / 20 ^ (digits.length / 2) := by
  induction c, digits using byPairs.induct with
  | case1 c row column rest ih =>
    rw [byPairs, ih.1, ih.2, pair, List.length_cons, List.length_cons, Nat.add_assoc,
      Nat.add_div_right _ (by decide), Nat.pow_succ', Nat.div_div_eq_div_mul,
      Nat.div_div_eq_div_mul]
    exact ⟨rfl, rfl⟩
  | case2 digits c hd =>
    match digits, hd with
    | [], _ => simp [byPairs]
    | [_], _ => simp [byPairs]
    | row :: column :: rest, hd => exact (hd row column rest rfl).elim

theorem size_foldl_refine (c : Cell) (digits : List Digit) :
    (digits.foldl refine c).height = c.height / refinementRows ^ digits.length ∧
      (digits.foldl refine c).width = c.width / refinementColumns ^ digits.length := by
  induction digits generalizing c with
  | nil => simp
  | cons d rest ih =>
    rw [List.foldl_cons, (ih _).1, (ih _).2, refine, List.length_cons, Nat.pow_succ', Nat.pow_succ',
      Nat.div_div_eq_div_mul, Nat.div_div_eq_div_mul]
    exact ⟨rfl, rfl⟩

/-- All cells of one number of digits have one size. -/
theorem size_ofDigits {digits : List Digit} (h : IsCount digits.length) :
    (ofDigits digits).height = heightOf digits.length ∧
      (ofDigits digits).width = widthOf digits.length := by
  rcases Nat.lt_or_ge digits.length pairDigits with hlt | hge
  · obtain ⟨hheight, hwidth⟩ := whole_size_of_le (Nat.le_of_lt hlt) (h.2 hlt)
    rw [ofDigits_of_le (Nat.le_of_lt hlt), (size_byPairs ..).1, (size_byPairs ..).2, hheight,
      hwidth, Nat.mul_div_cancel_left _ (Nat.pow_pos (by decide)),
      Nat.mul_div_cancel_left _ (Nat.pow_pos (by decide))]
    exact ⟨rfl, rfl⟩
  · have hlen : digits.length - pairDigits ≤ refinementDigits := by
      have := h.1; simp only [mostDigits] at this; omega
    have hfront : (digits.take pairDigits).length = pairDigits := by rw [List.length_take]; omega
    have hrest : (digits.drop pairDigits).length ≤ refinementDigits := by rwa [List.length_drop]
    have hcell := ofDigits_append hfront hrest
    rw [List.take_append_drop] at hcell
    rw [hcell, (size_foldl_refine ..).1, (size_foldl_refine ..).2, (size_byPairs ..).1,
      (size_byPairs ..).2, hfront, List.length_drop, whole_height, whole_width,
      Nat.mul_div_cancel_left _ (Nat.pow_pos (by decide)),
      Nat.mul_div_cancel_left _ (Nat.pow_pos (by decide)), refined_size refinementRows hge h.1,
      refined_size refinementColumns hge h.1, Nat.mul_div_cancel_left _ (Nat.pow_pos (by decide)),
      Nat.mul_div_cancel_left _ (Nat.pow_pos (by decide))]
    exact ⟨rfl, rfl⟩

/-- The first digits of a point name the cell around it. -/
theorem ofDigits_take {p : GridPoint} (hp : p ∈ whole) {count : Nat} (h : IsCount count) :
    ofDigits (p.digits.take count) = around p (heightOf count) (widthOf count) := by
  rcases Nat.lt_or_ge count pairDigits with hlt | hge
  · obtain ⟨hheight, hwidth⟩ := whole_size_of_le (Nat.le_of_lt hlt) (h.2 hlt)
    rw [ofDigits_of_le (by rw [List.length_take]; omega),
      GridPoint.take_digits_of_le (Nat.le_of_lt hlt) (h.2 hlt), whole_eq_around hp, hheight, hwidth,
      byPairs_pairs]
  · have hlen : count - pairDigits ≤ refinementDigits := by
      have := h.1; simp only [mostDigits] at this; omega
    rw [GridPoint.take_digits_of_ge hge h.1, ofDigits_append (GridPoint.length_pairs ..)
      (by rwa [GridPoint.length_refinements]), whole_eq_around hp]
    rw [whole_height, whole_width, byPairs_pairs, refined_size refinementRows hge h.1,
      refined_size refinementColumns hge h.1]
    exact foldl_refine_refinements p (count - pairDigits) (heightOf count) (widthOf count)

/-- A point has the digits of each cell in which it lies. -/
theorem eq_take_of_mem {p : GridPoint} {digits : List Digit} (h : IsCount digits.length)
    (hp : p ∈ ofDigits digits) : digits = p.digits.take digits.length := by
  have hwhole := mem_whole_of_mem hp
  rcases Nat.lt_or_ge digits.length pairDigits with hlt | hge
  · obtain ⟨hheight, hwidth⟩ := whole_size_of_le (Nat.le_of_lt hlt) (h.2 hlt)
    rw [ofDigits_of_le (Nat.le_of_lt hlt), whole_eq_around hwhole, hheight, hwidth] at hp
    rw [GridPoint.take_digits_of_le (Nat.le_of_lt hlt) (h.2 hlt)]
    exact eq_pairs_of_mem (heightOf_pos _) (widthOf_pos _) (by have := h.2 hlt; omega) hp
  · have hlen : digits.length - pairDigits ≤ refinementDigits := by
      have := h.1; simp only [mostDigits] at this; omega
    rw [GridPoint.take_digits_of_ge hge h.1]
    have hfront : (digits.take pairDigits).length = pairDigits := by rw [List.length_take]; omega
    have hrest : (digits.drop pairDigits).length ≤ refinementDigits := by rwa [List.length_drop]
    rw [← List.take_append_drop pairDigits digits, ofDigits_append hfront hrest] at hp
    have hpairs := mem_of_mem_foldl_refine hp
    rw [whole_eq_around hwhole, whole_height, whole_width] at hp hpairs
    have hfirst := eq_pairs_of_mem (by decide) (by decide) hfront hpairs
    rw [hfirst, byPairs_pairs, refined_size refinementRows hge h.1,
      refined_size refinementColumns hge h.1] at hp
    have hlast := eq_refinements_of_mem (heightOf_pos _) (widthOf_pos _) (List.length_drop ..) hp
    rw [← hfirst, ← hlast, List.take_append_drop]

/-- Digits after the fifteenth do not narrow a cell. -/
theorem ofDigits_take_most (digits : List Digit) :
    ofDigits (digits.take mostDigits) = ofDigits digits := by
  unfold ofDigits
  rw [List.take_take, List.drop_take, List.take_take]
  rfl

/-! ## Parts named by the last digits -/

/-- The cell that lies some rows and columns further on. -/
def shift (c : Cell) (rows columns : Nat) : Cell :=
  { c with south := c.south + rows, west := c.west + columns }

theorem pair_shift (c : Cell) (rows columns : Nat) (row column : Digit) :
    (c.shift rows columns).pair row column = (c.pair row column).shift rows columns := by
  simp only [shift, pair, Nat.add_right_comm]

theorem refine_shift (c : Cell) (rows columns : Nat) (d : Digit) :
    (c.shift rows columns).refine d = (c.refine d).shift rows columns := by
  simp only [shift, refine, Nat.add_right_comm]

theorem byPairs_shift (c : Cell) (rows columns : Nat) (digits : List Digit) :
    (c.shift rows columns).byPairs digits = (c.byPairs digits).shift rows columns := by
  induction c, digits using byPairs.induct with
  | case1 c row column rest ih => rw [byPairs, byPairs, pair_shift, ih]
  | case2 digits c hd =>
    match digits, hd with
    | [], _ => rfl
    | [_], _ => rfl
    | row :: column :: rest, hd => exact (hd row column rest rfl).elim

theorem foldl_refine_shift (c : Cell) (rows columns : Nat) (digits : List Digit) :
    digits.foldl refine (c.shift rows columns) = (digits.foldl refine c).shift rows columns := by
  induction digits generalizing c with
  | nil => rfl
  | cons d rest ih => rw [List.foldl_cons, List.foldl_cons, refine_shift, ih]

/-- The part of a cell that digits name which follow `count` others. -/
def part (c : Cell) (count : Nat) (digits : List Digit) : Cell :=
  ((digits.drop (pairDigits - count)).take refinementDigits).foldl refine
    (c.byPairs (digits.take (pairDigits - count)))

theorem part_shift (c : Cell) (rows columns count : Nat) (digits : List Digit) :
    (c.shift rows columns).part count digits = (c.part count digits).shift rows columns := by
  rw [part, part, byPairs_shift, foldl_refine_shift]

theorem ofDigits_append_part {front : List Digit} (hle : front.length ≤ pairDigits)
    (even : front.length % 2 = 0) (rest : List Digit) :
    ofDigits (front ++ rest) = (ofDigits front).part front.length rest := by
  rw [ofDigits, List.drop_append, List.drop_of_length_le hle, List.nil_append, List.take_append,
    List.take_of_length_le hle, byPairs_append _ even, ofDigits_of_le hle, part]

theorem mem_of_mem_part {p : GridPoint} {c : Cell} {count : Nat} {digits : List Digit}
    (h : p ∈ c.part count digits) : p ∈ c :=
  mem_of_mem_byPairs (mem_of_mem_foldl_refine h)

/--
The last digits name the same part of each cell of so many digits: it lies inside that
cell, as far from the edges in each of them.
-/
theorem exists_part {count : Nat} (h : IsCount count) (hle : count ≤ pairDigits)
    (even : count % 2 = 0) {rest : List Digit} (hrest : IsCount (count + rest.length)) :
    ∃ part : Cell, part.height = heightOf (count + rest.length) ∧
      part.width = widthOf (count + rest.length) ∧
      part.south + part.height ≤ heightOf count ∧ part.west + part.width ≤ widthOf count ∧
      ∀ front : List Digit, front.length = count → ofDigits (front ++ rest) =
        part.shift (ofDigits front).south (ofDigits front).west := by
  have hpart (front : List Digit) (hfront : front.length = count) : ofDigits (front ++ rest) =
      ((⟨0, 0, heightOf count, widthOf count⟩ : Cell).part count rest).shift
        (ofDigits front).south (ofDigits front).west := by
    obtain ⟨hheight, hwidth⟩ := size_ofDigits (hfront ▸ h)
    rw [ofDigits_append_part (hfront ▸ hle) (hfront ▸ even), ← part_shift, hfront]
    congr 1
    rw [shift, Nat.zero_add, Nat.zero_add, ← hfront, ← hheight, ← hwidth]
  have hsize := @size_ofDigits (List.replicate count 0 ++ rest)
    (by rwa [List.length_append, List.length_replicate])
  rw [hpart _ List.length_replicate, List.length_append, List.length_replicate] at hsize
  obtain ⟨hheight, hwidth⟩ := hsize
  have hh := heightOf_pos (count + rest.length)
  have hw := widthOf_pos (count + rest.length)
  generalize hcell : (⟨0, 0, heightOf count, widthOf count⟩ : Cell).part count rest = part at *
  simp only [shift] at hheight hwidth
  -- The last point of the part lies in the cell.
  have hlast : (⟨part.south + part.height - 1, part.west + part.width - 1⟩ : GridPoint) ∈ part := by
    rw [mem_iff]; dsimp only; omega
  rw [← hcell] at hlast
  have hinside := mem_of_mem_part hlast
  rw [hcell] at hinside
  rw [mem_iff] at hinside
  dsimp only at hinside
  exact ⟨part, hheight, hwidth, by omega, by omega, hpart⟩

end Cell

end OpenLocation
