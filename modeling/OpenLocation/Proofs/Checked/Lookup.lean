import OpenLocation.Proofs.Checked.Encoding

/-!
# Digits that are looked up

The alphabet takes a count of any size round its twenty symbols, and a number below zero is a
count far beyond them once its bits are read without a sign. Neither happens when a code is
written: a row and a column start within the globe, no step makes one of them negative, and what a
step leaves of a division is a digit. The last pair takes all that is left of both
(`encode_lookups`).
-/

namespace OpenLocation.Checked

open GridPoint

/-! ## One step -/

/-- What a refining step looks up. -/
def refinedValue (p : Peeled) : Option Int := do
  let rowPart ← modInt p.row (refinementRows : Nat)
  let columnPart ← modInt p.column (refinementColumns : Nat)
  addInt (← mulInt rowPart (refinementColumns : Nat)) columnPart

/-- What a step for a pair looks up first. -/
def columnValue (p : Peeled) : Option Int := modInt p.column (20 : Nat)

/-- What a step for a pair looks up second. -/
def rowValue (p : Peeled) : Option Int := modInt p.row (20 : Nat)

theorem refineStep_eq (p : Peeled) (place : Nat) :
    refineStep p place = (do
      let places ← setAt p.places place (← symbolAt (toCount (← refinedValue p)))
      some ⟨← divInt p.row (refinementRows : Nat), ← divInt p.column (refinementColumns : Nat),
        places⟩) := by
  simp [refineStep, refinedValue, Option.bind_assoc]

theorem pairStep_eq (p : Peeled) (place : Nat) :
    pairStep p place = (do
      let columnSymbol ← symbolAt (toCount (← columnValue p))
      let rowSymbol ← symbolAt (toCount (← rowValue p))
      let places ← setAt (← setAt p.places (← addCount place 1) columnSymbol) place rowSymbol
      some ⟨← divInt p.row (20 : Nat), ← divInt p.column (20 : Nat), places⟩) := by
  simp [pairStep, columnValue, rowValue]

/-- A value that is cast and looked up as itself. -/
structure Exact (v : Int) : Prop where
  nonneg : 0 ≤ v
  le : v ≤ 19
  cast : (toCount v : Int) = v
  unwrapped : toCount v % 20 = toCount v

theorem Exact.of_lt {n : Nat} (h : n < 20) : Exact n where
  nonneg := Int.natCast_nonneg n
  le := by omega
  cast := by rw [toCount_natCast (by omega)]
  unwrapped := by rw [toCount_natCast (by omega), Nat.mod_eq_of_lt h]

/-- Neither below zero nor beyond 64 bits. -/
structure Peeled.InRange (p : Peeled) : Prop where
  row : 0 ≤ p.row ∧ p.row < 2 ^ 63
  column : 0 ≤ p.column ∧ p.column < 2 ^ 63

namespace Peeled.InRange

variable {p q : Peeled} {place : Nat}

theorem of_natCast {row column : Nat} (hrow : row < 2 ^ 63) (hcolumn : column < 2 ^ 63)
    (places : List Char) : InRange ⟨row, column, places⟩ :=
  ⟨⟨Int.natCast_nonneg _, Int.ofNat_lt.2 hrow⟩, ⟨Int.natCast_nonneg _, Int.ofNat_lt.2 hcolumn⟩⟩

theorem exists_natCast (h : p.InRange) : ∃ row column : Nat, p.row = row ∧ p.column = column ∧
    row < 2 ^ 63 ∧ column < 2 ^ 63 :=
  ⟨p.row.toNat, p.column.toNat, (Int.toNat_of_nonneg h.row.1).symm,
    (Int.toNat_of_nonneg h.column.1).symm, by have := h.row; omega, by have := h.column; omega⟩

theorem exact_refinedValue (h : p.InRange) : ∃ v, refinedValue p = some v ∧ Exact v := by
  obtain ⟨row, column, hrow, hcolumn, hrowLt, hcolumnLt⟩ := h.exists_natCast
  have hvalue := refinedDigit_lt row column
  refine ⟨_, ?_, .of_lt hvalue⟩
  rw [refinedValue, hrow, hcolumn, modInt_natCast hrowLt (by decide), Option.bind_eq_bind,
    Option.bind_some, modInt_natCast hcolumnLt (by decide), Option.bind_some,
    mulInt_natCast (by omega), Option.bind_some, addInt_natCast (by omega)]

theorem exact_pairValues (h : p.InRange) :
    ∃ v w, columnValue p = some v ∧ rowValue p = some w ∧ Exact v ∧ Exact w := by
  obtain ⟨row, column, hrow, hcolumn, hrowLt, hcolumnLt⟩ := h.exists_natCast
  refine ⟨_, _, ?_, ?_, .of_lt (Nat.mod_lt column (by decide)), .of_lt (Nat.mod_lt row (by decide))⟩
  · rw [columnValue, hcolumn, modInt_natCast hcolumnLt (by decide)]
  · rw [rowValue, hrow, modInt_natCast hrowLt (by decide)]

/-- Quotients of the row and the column are in range. -/
theorem div (h : p.InRange) {rows columns : Nat} (hrows : rows ≠ 0) (hcolumns : columns ≠ 0)
    {row column : Int} (hrow : divInt p.row rows = some row)
    (hcolumn : divInt p.column columns = some column) (places : List Char) :
    Peeled.InRange ⟨row, column, places⟩ := by
  obtain ⟨m, n, hm, hn, hmLt, hnLt⟩ := h.exists_natCast
  rw [hm, divInt_natCast hmLt hrows] at hrow
  rw [hn, divInt_natCast hnLt hcolumns] at hcolumn
  obtain rfl := Option.some.inj hrow
  obtain rfl := Option.some.inj hcolumn
  exact of_natCast ((Nat.div_le_self ..).trans_lt hmLt) ((Nat.div_le_self ..).trans_lt hnLt) places

theorem refineStep (h : p.InRange) (hstep : refineStep p place = some q) : q.InRange := by
  rw [refineStep_eq] at hstep
  simp only [Option.bind_eq_bind, Option.bind_eq_some_iff] at hstep
  obtain ⟨_, _, _, _, _, _, row, hrow, column, hcolumn, hq⟩ := hstep
  obtain rfl := Option.some.inj hq
  exact h.div (by decide) (by decide) hrow hcolumn _

theorem pairStep (h : p.InRange) (hstep : pairStep p place = some q) : q.InRange := by
  rw [pairStep_eq] at hstep
  simp only [Option.bind_eq_bind, Option.bind_eq_some_iff] at hstep
  obtain ⟨_, _, _, _, _, _, _, _, _, _, _, _, _, _, row, hrow, column, hcolumn, hq⟩ := hstep
  obtain rfl := Option.some.inj hq
  exact h.div (by decide) (by decide) hrow hcolumn _

/-! ## Runs -/

/-- What every step keeps in range stays there, whatever places are written. -/
theorem foldlM {step : Peeled → Nat → Option Peeled}
    (hstep : ∀ {p q place}, p.InRange → step p place = some q → q.InRange) {places : List Nat}
    (h : p.InRange) (hrun : places.foldlM step p = some q) : q.InRange := by
  induction places generalizing p with
  | nil =>
    obtain rfl := Option.some.inj hrun
    exact h
  | cons place places ih =>
    rw [List.foldlM_cons, Option.bind_eq_bind, Option.bind_eq_some_iff] at hrun
    obtain ⟨next, hnext, hrest⟩ := hrun
    exact ih (hstep h hnext) hrest

end Peeled.InRange

/-! ## Codes -/

/-- All places before any is written. -/
def blankPlaces : List Char := List.replicate mostDigits Code.paddingSymbol

/-- From anywhere on the globe the pairs take all that is left of the row and the column. -/
theorem peel_eq_zero {row column : Nat} (hrow : row ≤ 180 * 25000000)
    (hcolumn : column ≤ 360 * 8192000) (count : Nat) :
    ∃ refined paired, peelRefinements count ⟨row, column, blankPlaces⟩ = some refined ∧
      peelPairs refined = some paired ∧ refined.InRange ∧ paired.row = 0 ∧ paired.column = 0 := by
  have hrowLt : row < 2 ^ 63 := by omega
  have hcolumnLt : column < 2 ^ 63 := by omega
  have hrows := (Nat.div_le_self row (refinementRows ^ refinementDigits)).trans_lt hrowLt
  have hcolumns :=
    (Nat.div_le_self column (refinementColumns ^ refinementDigits)).trans_lt hcolumnLt
  -- All places together hold more rows and columns than the globe has.
  have hlast {index steps : Nat} (h : index < steps * 20 ^ (pairDigits / 2)) :
      ((index / steps / 20 ^ (pairDigits / 2) : Nat) : Int) = 0 := by
    rw [Nat.div_div_eq_div_mul, Nat.div_eq_of_lt h]
    rfl
  exact ⟨_, _, peelRefinements_eq hrowLt hcolumnLt count,
    peelPairs_eq_some hrows hcolumns (length_refinedPlaces row column count),
    .of_natCast hrows hcolumns _, hlast (hrow.trans_lt (by decide)),
    hlast (hcolumn.trans_lt (by decide))⟩

/-- What is looked up on the way from a row and a column of the globe. -/
theorem peel_exact {row column : Int} (hrow : 0 ≤ row ∧ row ≤ 180 * 25000000)
    (hcolumn : 0 ≤ column ∧ column ≤ 360 * 8192000) (count : Nat) :
    ∃ refined paired, peelRefinements count ⟨row, column, blankPlaces⟩ = some refined ∧
      peelPairs refined = some paired ∧
      (∀ (places : List Nat) p,
        places.foldlM refineStep ⟨row, column, blankPlaces⟩ = some p →
          ∃ v, refinedValue p = some v ∧ Exact v) ∧
      (∀ (places : List Nat) p, places.foldlM pairStep refined = some p →
        ∃ v w, columnValue p = some v ∧ rowValue p = some w ∧ Exact v ∧ Exact w) ∧
      paired.row = 0 ∧ paired.column = 0 := by
  obtain ⟨row, rfl⟩ := Int.eq_ofNat_of_zero_le hrow.1
  obtain ⟨column, rfl⟩ := Int.eq_ofNat_of_zero_le hcolumn.1
  have hrowLe : row ≤ 180 * 25000000 := by omega
  have hcolumnLe : column ≤ 360 * 8192000 := by omega
  have hstart : Peeled.InRange ⟨row, column, blankPlaces⟩ :=
    .of_natCast (by omega) (by omega) blankPlaces
  obtain ⟨refined, paired, hrefined, hpaired, hrange, hend⟩ :=
    peel_eq_zero hrowLe hcolumnLe count
  exact ⟨refined, paired, hrefined, hpaired,
    fun _ _ hrun => (hstart.foldlM Peeled.InRange.refineStep hrun).exact_refinedValue,
    fun _ _ hrun => (hrange.foldlM Peeled.InRange.pairStep hrun).exact_pairValues, hend⟩

/--
For any location and any count asked for, the row and the column that the location is cast to lie
from the first to the edge behind the last. So each value that a step looks up, after whatever
places, is a digit as it is, and once the last pair is written nothing is left of either. What is
written is the code of the location.
-/
theorem encode_lookups (l : Location) (requested : Nat) :
    ∃ count latitude refined paired,
      countFor requested = some count ∧ adjustLatitude l.latitude count = some latitude ∧
      let row := rowAt latitude
      let column := columnAt (wrapLongitude l.longitude)
      peelRefinements count ⟨row, column, blankPlaces⟩ = some refined ∧
      peelPairs refined = some paired ∧
      encode l requested = layOut paired.places count ∧
      layOut paired.places count = some (Code.ofLocation l requested).text ∧
      (0 ≤ row ∧ row ≤ 180 * 25000000) ∧ (0 ≤ column ∧ column ≤ 360 * 8192000) ∧
      (∀ (places : List Nat) p,
        places.foldlM refineStep ⟨row, column, blankPlaces⟩ = some p →
          ∃ v, refinedValue p = some v ∧ Exact v) ∧
      (∀ (places : List Nat) p, places.foldlM pairStep refined = some p →
        ∃ v w, columnValue p = some v ∧ rowValue p = some w ∧ Exact v ∧ Exact w) ∧
      paired.row = 0 ∧ paired.column = 0 := by
  have hle := effectiveDigits_le requested
  have hleast := leastDigits_le_effectiveDigits requested
  have hglobe : rowsPerDegree = 25000000 ∧ columnsPerDegree = 8192000 := by decide
  have hrow := rowAt_adjustLatitude_le hle l.latitude
  have hcolumn := columnAt_wrapLongitude_le l.longitude
  rw [hglobe.1] at hrow
  rw [hglobe.2] at hcolumn
  have hrows := And.intro (rowAt_adjustLatitude_nonneg hleast hle l.latitude) hrow
  have hcolumns := And.intro (columnAt_wrapLongitude_nonneg l.longitude) hcolumn
  obtain ⟨refined, paired, hrefined, hpaired, hlookups⟩ :=
    peel_exact hrows hcolumns (effectiveDigits requested)
  have hencode : encode l requested = layOut paired.places (effectiveDigits requested) := by
    rw [blankPlaces] at hrefined
    unfold encode
    simp only [Option.bind_eq_bind]
    rw [countFor_eq, Option.bind_some, adjustLatitude_eq, Option.bind_some, hrefined,
      Option.bind_some, hpaired, Option.bind_some]
  exact ⟨_, _, refined, paired, countFor_eq requested, adjustLatitude_eq .., hrefined, hpaired,
    hencode, hencode.symm.trans (encode_eq l requested), hrows, hcolumns, hlookups⟩

end OpenLocation.Checked
