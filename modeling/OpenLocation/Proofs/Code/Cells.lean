import OpenLocation.Code.Located
import OpenLocation.Proofs.Code.Grammar
import OpenLocation.Proofs.Grid.PlaceValues

/-!
# Codes and their cells

Full codes of at most fifteen digits name cells on the globe, and these cells are the
ones that the grid is cut in: the code of a point names the cell around it
(`cell_of_gridPoint`), and each point of the cell of a code has that code
(`text_of_mem_cell`).
-/

namespace OpenLocation

namespace GridPoint

/-- Below 180 degrees of rows and 360 degrees of columns. -/
def OnGlobe (p : GridPoint) : Prop :=
  p.row < 180 * rowsPerDegree ∧ p.column < 360 * columnsPerDegree

instance (p : GridPoint) : Decidable p.OnGlobe := inferInstanceAs (Decidable (_ ∧ _))

example : rowsPerDegree = 25000000 ∧ columnsPerDegree = 8192000 := by decide

theorem OnGlobe.mem_whole {p : GridPoint} (h : p.OnGlobe) : p ∈ Cell.whole := by
  have hr : 180 * rowsPerDegree ≤ Cell.whole.height := by decide
  have hc : 360 * columnsPerDegree ≤ Cell.whole.width := by decide
  have hs : Cell.whole.south = 0 := rfl
  have hw : Cell.whole.west = 0 := rfl
  simp only [OnGlobe, Cell.mem_iff, hs, hw] at *
  omega

theorem take_two_digits (p : GridPoint) :
    p.digits.take 2 = [Fin.ofNat 20 (p.row / Cell.heightOf 2),
      Fin.ofNat 20 (p.column / Cell.widthOf 2)] := by
  rw [take_digits_of_le (by decide) (by decide)]
  rfl

/-- The first two digits tell whether a point is on the globe. -/
theorem onGlobe_iff {p : GridPoint} (h : p ∈ Cell.whole) : p.OnGlobe ↔
    (Fin.ofNat 20 (p.row / Cell.heightOf 2)).val < 9 ∧
      (Fin.ofNat 20 (p.column / Cell.widthOf 2)).val < 18 := by
  have hrows : 180 * rowsPerDegree = 9 * Cell.heightOf 2 := by decide
  have hcolumns : 360 * columnsPerDegree = 18 * Cell.widthOf 2 := by decide
  have hheight : Cell.whole.height = 20 * Cell.heightOf 2 := by decide
  have hwidth : Cell.whole.width = 20 * Cell.widthOf 2 := by decide
  have hrow : p.row / Cell.heightOf 2 < 20 := by
    rw [Nat.div_lt_iff_lt_mul (Cell.heightOf_pos 2), ← hheight]
    exact Nat.zero_add Cell.whole.height ▸ h.1.2
  have hcolumn : p.column / Cell.widthOf 2 < 20 := by
    rw [Nat.div_lt_iff_lt_mul (Cell.widthOf_pos 2), ← hwidth]
    exact Nat.zero_add Cell.whole.width ▸ h.2.2
  rw [OnGlobe, hrows, hcolumns, Fin.val_ofNat, Fin.val_ofNat, Nat.mod_eq_of_lt hrow,
    Nat.mod_eq_of_lt hcolumn, Nat.div_lt_iff_lt_mul (Cell.heightOf_pos 2),
    Nat.div_lt_iff_lt_mul (Cell.widthOf_pos 2)]

end GridPoint

theorem FullCount.isCount {count : Nat} (h : FullCount count) (hle : count ≤ mostDigits) :
    Cell.IsCount count := by
  refine ⟨hle, fun hlt => ?_⟩
  simp only [FullCount, pairDigits] at h hlt
  omega

theorem FullCount.two_le {count : Nat} (h : FullCount count) : 2 ≤ count := by
  unfold FullCount at h
  omega

theorem effectiveDigits_of_fullCount {count : Nat} (h : FullCount count)
    (hle : count ≤ mostDigits) :
    effectiveDigits count = count := by
  unfold FullCount at h
  have hcount : max leastDigits (min count mostDigits) = count := by
    simp only [leastDigits]; omega
  simp only [effectiveDigits, hcount]
  rw [if_neg]
  unfold pairDigits
  omega

namespace Code

/-! ## Full codes and their digits -/

theorem digits_ofDigits {digits : List Digit} (h : FullCount digits.length) :
    (ofDigits digits h).digits = digits := List.take_append_drop ..

theorem isShort_ofDigits {digits : List Digit} (h : FullCount digits.length) :
    (ofDigits digits h).isShort = false := by
  simp only [isShort, ofDigits, List.length_take, separatorPosition, decide_eq_false_iff_not]
  omega

theorem isShort_of_isFull {c : Code} (h : c.isFull = true) : c.isShort = false := by
  rw [isFull, Bool.and_eq_true, Bool.not_eq_true'] at h
  exact h.1

/-- A code that is not short has no more to it than its digits. -/
theorem exists_eq_ofDigits {c : Code} (h : c.isShort = false) :
    ∃ hc : FullCount c.digits.length, c = ofDigits c.digits hc := by
  obtain ⟨lead, padding, tail, hshape⟩ := c
  have hlen : (digits ⟨lead, padding, tail, hshape⟩).length = lead.length + tail.length :=
    List.length_append
  simp only [isShort, decide_eq_false_iff_not] at h
  have hs := hshape
  simp only [Shape, separatorPosition] at h hs
  refine ⟨?_, ?_⟩
  · simp only [FullCount]; omega
  · have hlead : lead.length ≤ separatorPosition := by simp only [separatorPosition]; omega
    -- Digits after the separator follow eight digits before it.
    have hends : lead.length = separatorPosition ∨ tail = [] := by
      rcases hs.2 with ⟨hz, _⟩ | ⟨_, _, _, ht⟩
      · left; simp only [separatorPosition]; omega
      · exact Or.inr (List.eq_nil_of_length_eq_zero ht)
    have htake : (lead ++ tail).take separatorPosition = lead := by
      rcases hends with hlead | rfl
      · exact List.take_left' hlead
      · rw [List.append_nil, List.take_of_length_le hlead]
    have hdrop : (lead ++ tail).drop separatorPosition = tail := by
      rcases hends with hlead | rfl
      · exact List.drop_left' hlead
      · rw [List.append_nil, List.drop_of_length_le hlead]
    have hpadding : padding = separatorPosition - (lead ++ tail).length := by
      rw [List.length_append]; simp only [separatorPosition]; omega
    simp only [ofDigits, digits, htake, hdrop, ← hpadding]

theorem fullCount_of_isFull {c : Code} (h : c.isFull = true) : FullCount c.digits.length := by
  obtain ⟨hcount, -⟩ := exists_eq_ofDigits (isShort_of_isFull h)
  exact hcount

theorem isCount_of_isFull {c : Code} (h : c.isFull = true) (hle : c.digits.length ≤ mostDigits) :
    Cell.IsCount c.digits.length := (fullCount_of_isFull h).isCount hle

/-- Only padding is left to a code that is not short, and its digits tell how much. -/
theorem eq_of_digits_eq {c d : Code} (hc : c.isShort = false) (hd : d.isShort = false)
    (h : c.digits = d.digits) : c = d := by
  obtain ⟨hccount, hceq⟩ := exists_eq_ofDigits hc
  obtain ⟨hdcount, hdeq⟩ := exists_eq_ofDigits hd
  rw [hceq, hdeq]
  simp only [h]

/-- Of a code with two digits or more before the separator the first two place it on the globe. -/
theorem isOnGlobe_iff {c : Code} {row column : Digit} (h : c.lead.take 2 = [row, column]) :
    c.isOnGlobe = true ↔ row.val < 9 ∧ column.val < 18 := by
  obtain ⟨rest, hrest⟩ : ∃ rest, c.lead = row :: column :: rest :=
    ⟨c.lead.drop 2, by rw [← List.take_append_drop 2 c.lead, h]; simp⟩
  rw [isOnGlobe, hrest]
  simp only [Bool.and_eq_true, decide_eq_true_iff, Fin.lt_def]
  exact Iff.rfl

theorem digits_ofGridPoint (p : GridPoint) (requested : Nat) :
    (ofGridPoint p requested).digits = p.digits.take (effectiveDigits requested) :=
  digits_ofDigits _

theorem length_digits_ofGridPoint (p : GridPoint) (requested : Nat) :
    (ofGridPoint p requested).digits.length = effectiveDigits requested := by
  rw [digits_ofGridPoint, List.length_take, GridPoint.length_digits,
    Nat.min_eq_left (effectiveDigits_le requested)]

theorem digits_ofLocation (l : Location) (requested : Nat) :
    (ofLocation l requested).digits =
      (GridPoint.ofLocation l (effectiveDigits requested)).digits.take
        (effectiveDigits requested) := digits_ofGridPoint ..

theorem length_digits_ofLocation (l : Location) (requested : Nat) :
    (ofLocation l requested).digits.length = effectiveDigits requested :=
  length_digits_ofGridPoint ..

theorem two_le_effectiveDigits (requested : Nat) : 2 ≤ effectiveDigits requested :=
  (fullCount_effectiveDigits requested).two_le

/-- The code of a point is on the globe exactly if the point is. -/
theorem isFull_ofGridPoint {p : GridPoint} (hp : p ∈ Cell.whole) (requested : Nat) :
    (ofGridPoint p requested).isFull = true ↔ p.OnGlobe := by
  have htake : (ofGridPoint p requested).lead.take 2 = p.digits.take 2 := by
    have := two_le_effectiveDigits requested
    rw [ofGridPoint, ofDigits, List.take_take, List.take_take]
    congr 1
    unfold separatorPosition
    omega
  rw [GridPoint.take_two_digits] at htake
  rw [isFull, GridPoint.onGlobe_iff hp, ← isOnGlobe_iff htake, ofGridPoint, isShort_ofDigits]
  simp

/-- The digits of a full code put each point of its cell on the globe. -/
theorem onGlobe_of_mem {c : Code} (hfull : c.isFull = true) (hle : c.digits.length ≤ mostDigits)
    {p : GridPoint} (hp : p ∈ Cell.ofDigits c.digits) :
    p.OnGlobe ∧ ofGridPoint p c.digits.length = c := by
  obtain ⟨hcount, hc⟩ := exists_eq_ofDigits (isShort_of_isFull hfull)
  have heff := effectiveDigits_of_fullCount hcount hle
  have htake := Cell.eq_take_of_mem (hcount.isCount hle) hp
  have hcode : ofGridPoint p c.digits.length = c := by
    conv => rhs; rw [hc]
    simp only [ofGridPoint, heff, ← htake]
  refine ⟨?_, hcode⟩
  rw [← isFull_ofGridPoint (Cell.mem_whole_of_mem hp) c.digits.length, hcode]
  exact hfull

/-! ## Cells of codes -/

/-- Cells of full codes lie on the globe. -/
theorem cell_onGlobe {c : Code} (hfull : c.isFull = true) (hle : c.digits.length ≤ mostDigits) :
    (Cell.ofDigits c.digits).OnGlobe := by
  obtain ⟨hheight, hwidth⟩ := Cell.size_ofDigits (isCount_of_isFull hfull hle)
  have hh := hheight ▸ Cell.heightOf_pos c.digits.length
  have hw := hwidth ▸ Cell.widthOf_pos c.digits.length
  -- The last point of the cell is on the globe.
  have hlast : (⟨(Cell.ofDigits c.digits).south + (Cell.ofDigits c.digits).height - 1,
      (Cell.ofDigits c.digits).west + (Cell.ofDigits c.digits).width - 1⟩ : GridPoint) ∈
      Cell.ofDigits c.digits := by
    rw [Cell.mem_iff]; dsimp only; omega
  obtain ⟨hrow, hcolumn⟩ := (onGlobe_of_mem hfull hle hlast).1
  dsimp only at hrow hcolumn
  exact ⟨hh, hw, by omega, by omega⟩

theorem describes_digits {c : Code} (hcount : FullCount c.digits.length)
    (hle : c.digits.length ≤ mostDigits) :
    (PlaceSums.ofDigits c.digits).Describes (Cell.ofDigits c.digits) :=
  PlaceSums.describes_ofDigits (hcount.isCount hle) (List.length_pos_iff.1 hcount.1)

/--
The code of a point on the globe is full and has as many digits as it is given. What
its digits add up to are the edges of the cell that they name. The point lies in this
cell, and its edges lie on multiples of its size.
-/
theorem cell_of_gridPoint (p : GridPoint) (hp : p.OnGlobe) (requested : Nat) :
    let c := ofGridPoint p requested
    let s := PlaceSums.ofDigits c.digits
    (kind c.text).isFull = true ∧ ofText? c.text = some c ∧
      c.digits.length = effectiveDigits requested ∧ s.Describes (Cell.ofDigits c.digits) ∧
      s.Contains p ∧ (s.height : Int) ∣ s.south ∧ (s.width : Int) ∣ s.west := by
  intro c s
  have hlen : c.digits.length = effectiveDigits requested := length_digits_ofGridPoint p requested
  have hle : c.digits.length ≤ mostDigits := hlen ▸ effectiveDigits_le requested
  have hcount : FullCount c.digits.length := hlen ▸ fullCount_effectiveDigits requested
  have hfull : c.isFull = true := (isFull_ofGridPoint hp.mem_whole requested).2 hp
  have hdescribes : s.Describes (Cell.ofDigits c.digits) := describes_digits hcount hle
  have hcell : Cell.ofDigits c.digits =
      Cell.around p (Cell.heightOf c.digits.length) (Cell.widthOf c.digits.length) := by
    rw [hlen]
    simp only [c, digits_ofGridPoint]
    exact Cell.ofDigits_take hp.mem_whole (hlen ▸ hcount.isCount hle)
  refine ⟨?_, ofText?_text c, hlen, hdescribes, ?_, ?_, ?_⟩
  · rw [kind_of_ofText? (ofText?_text c)]
    exact hfull
  · rw [hdescribes.contains_iff, hcell]
    exact Cell.mem_around p (Cell.heightOf_pos _) (Cell.widthOf_pos _)
  · rw [hdescribes.1, hdescribes.2.2.1, Int.natCast_dvd_natCast, hcell]
    exact Nat.dvd_mul_left ..
  · rw [hdescribes.2.1, hdescribes.2.2.2, Int.natCast_dvd_natCast, hcell]
    exact Nat.dvd_mul_left ..

theorem cell_of_gridPoint_fifteen :
    (⟨4499999999, 2949119999⟩ : GridPoint).OnGlobe ∧
      (ofGridPoint ⟨4499999999, 2949119999⟩ 15).text = "CVXXXXXX+XXXXXXX".toList ∧
      (PlaceSums.ofDigits (ofGridPoint ⟨4499999999, 2949119999⟩ 15).digits).Contains
        ⟨4499999999, 2949119999⟩ :=
  ⟨by decide, by decide,
    (cell_of_gridPoint ⟨4499999999, 2949119999⟩ (by decide) 15).2.2.2.2.1⟩

/--
The cell of a full code lies on the globe, and each point of it has that code when it
is given as many digits, whatever the case of the letters that the code was spelled in.
-/
theorem text_of_mem_cell (s : List Char) (hfull : (kind s).isFull = true)
    (hle : (kind s).digitCount ≤ mostDigits) :
    ∃ c, ofText? s = some c ∧ c.digits.length = (kind s).digitCount ∧
      let sums := PlaceSums.ofDigits c.digits
      sums.Describes (Cell.ofDigits c.digits) ∧
      (0 ≤ sums.south ∧ sums.south + sums.height ≤ (180 * GridPoint.rowsPerDegree : Nat)) ∧
      (0 ≤ sums.west ∧ sums.west + sums.width ≤ (360 * GridPoint.columnsPerDegree : Nat)) ∧
      ∀ p, sums.Contains p → (ofGridPoint p (kind s).digitCount).text = Text.upperCase s := by
  obtain ⟨c, hc, hcfull⟩ := exists_isFull hfull
  rw [kind_of_ofText? hc] at hle ⊢
  obtain ⟨hcount, -⟩ := exists_eq_ofDigits (isShort_of_isFull hcfull)
  have hdescribes := describes_digits hcount hle
  have hglobe := cell_onGlobe hcfull hle
  refine ⟨c, hc, rfl, hdescribes, ?_, ?_, fun p hp => ?_⟩
  · have := hglobe.rows
    rw [hdescribes.1, hdescribes.2.2.1]; omega
  · have := hglobe.columns
    rw [hdescribes.2.1, hdescribes.2.2.2]; omega
  · rw [upperCase_of_ofText? hc, (onGlobe_of_mem hcfull hle (hdescribes.contains_iff.1 hp)).2]

theorem text_of_mem_cell_refined :
    (kind "cvxxxxxx+xx2r".toList).isFull = true ∧ (kind "cvxxxxxx+xx2r".toList).digitCount = 12 ∧
      ∃ c, ofText? "cvxxxxxx+xx2r".toList = some c ∧ ∀ p, (PlaceSums.ofDigits c.digits).Contains p →
        (ofGridPoint p 12).text = "CVXXXXXX+XX2R".toList := by
  have hfull : (kind "cvxxxxxx+xx2r".toList).isFull = true := by decide
  have hcount : (kind "cvxxxxxx+xx2r".toList).digitCount = 12 := by decide
  have hupper : Text.upperCase "cvxxxxxx+xx2r".toList = "CVXXXXXX+XX2R".toList := by
    decide +kernel
  obtain ⟨c, hc, -, -, -, -, hp⟩ := text_of_mem_cell _ hfull (by rw [hcount]; decide)
  rw [hcount, hupper] at hp
  exact ⟨hfull, hcount, c, hc, hp⟩

end Code

end OpenLocation
