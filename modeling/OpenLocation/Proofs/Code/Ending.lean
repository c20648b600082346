import OpenLocation.Proofs.Code.Recovery

/-!
# What a recovered code ends in

Wherever the reference is, and even if it is none, a short code is recovered as one of its
completions (`completes_nearest`), so the digits that it was given are kept. Only where the
reference is itself rounded over the north pole or the antimeridian the code that its digits
complete lies off the globe. The center of that one is taken back to the edge, and its digits are
lost there (`recoverText_ends_iff`).
-/

namespace OpenLocation.Code

open Binary64

section

variable {c : Code} {r : Location}

/-- The rows and columns of cells where the code of a location near the middle is a completion. -/
theorem completes_ofLocation (hshort : c.isShort = true)
    (hle : c.missing + c.digits.length ≤ mostDigits) {latitude longitude : ℚ}
    (hspaced : Spaced c latitude longitude) {row column : Nat} (hrow : row < rowsOf c.missing)
    (hcolumn : column < columnsOf c.missing) {l : Location} {n : ℤ}
    (hlatitude : Near l.latitude (latitude + row * cellDegrees c.missing) (2 / 10 ^ 12))
    (hlongitude : Near l.longitude (longitude + column * cellDegrees c.missing + 360 * n)
      (2 / 10 ^ 12))
    (hfar : |longitude + column * cellDegrees c.missing + 360 * n| ≤ 400) :
    Completes (ofLocation l (c.digits.length + c.missing)) c := by
  obtain ⟨p, hp, rfl, rfl⟩ := (leadCount_missing hshort).exists_onGlobe hrow hcolumn
  obtain ⟨d, hd, htake⟩ := exists_completes hshort hp
  obtain ⟨hlatitude', hlongitude'⟩ := hspaced.middles hd hp htake
  have hlength := hd.length_digits hshort
  have hle' := hlength.trans_le hle
  have hmiddle := (cell_onGlobe hd.isFull hle').abs_middle_le.2
  rw [← hlatitude'] at hlatitude
  rw [← hlongitude'] at hlongitude hfar
  have hwrapped := near_wrapLongitude hlongitude hmiddle hfar (by norm_num)
  have hcode := ofLocation_of_near hd.isFull hle' hlatitude (by norm_num) hwrapped (by norm_num)
  rw [hlength, Nat.add_comm] at hcode
  rwa [hcode]

/-- Whatever the reference, unless it is rounded to the edge a completion is recovered. -/
theorem completes_nearest (hshort : c.isShort = true)
    (hle : c.missing + c.digits.length ≤ mostDigits) (hlatitude : r.latitude ∉ roundedToPole)
    (hlongitude : r.longitude ≠ roundedToAntimeridian) : Completes (c.nearest r) c := by
  have hcount := leadCount_missing hshort
  obtain ⟨hp, hp'⟩ := hcount.cellDegrees_bounds
  have hcell : |cellDegrees c.missing| ≤ 20 := by rwa [abs_of_pos (by linarith)]
  have hglobe : (GridPoint.ofLocation
      ⟨adjustLatitude r.latitude c.digits.length, wrapLongitude r.longitude⟩
      defaultDigits).OnGlobe := by
    rw [onGlobe_ofLocation_iff _ (by decide)]
    exact ⟨adjustLatitude_not_mem hlatitude (by omega), wrapLongitude_ne hlongitude⟩
  obtain ⟨d, hd, hdigits, htake⟩ := exists_completes_here hshort hglobe
  unfold nearest
  dsimp only
  rw [← missing, ← hdigits]
  generalize GridPoint.ofLocation _ defaultDigits = p at hglobe htake
  obtain ⟨latitude, longitude, hspaced⟩ := exists_spaced hshort
  obtain ⟨hmiddle, hmiddle'⟩ := hspaced.middles hd hglobe htake
  obtain ⟨hi, hi'⟩ := hcount.lt_of_onGlobe hglobe
  have hdglobe := cell_onGlobe hd.isFull ((hd.length_digits hshort).trans_le hle)
  obtain ⟨hcenter, hcenter'⟩ := @Area.near_center _ (min mostDigits d.digits.length) hdglobe
  obtain ⟨hz, hz'⟩ := hdglobe.abs_middle_le
  rw [hmiddle] at hcenter hz
  rw [hmiddle'] at hcenter' hz'
  have hz : |_| ≤ (180 : ℚ) := hz.trans (by norm_num)
  have hz' : |_| ≤ (180 : ℚ) := hz'.trans (by norm_num)
  obtain ⟨m, hm, hmoved⟩ := exists_step hcenter hcount.near_precision hz hcell
    (adjustLatitude r.latitude c.digits.length) _ _
  obtain ⟨m', hm', hmoved'⟩ := exists_step hcenter' hcount.near_precision hz' hcell
    (wrapLongitude r.longitude) true true
  obtain ⟨row, hrow, hstep⟩ := row_of_step hcount hspaced.latitude_low hspaced.latitude_high hi
    hcenter hz hm
  obtain ⟨column, hcolumn, n, hstep'⟩ := column_of_step hcount hi' longitude m'
  have hfar : |(m' : ℚ) * cellDegrees c.missing| ≤ 20 := by
    rcases hm' with rfl | ⟨rfl, -⟩ | ⟨rfl, -⟩
    · simp
    · simpa using hcell
    · simpa using hcell
  refine completes_ofLocation hshort hle hspaced hrow hcolumn (n := n) ?_ ?_ ?_
  · rw [hstep]
    exact hmoved
  · rw [hstep']
    exact hmoved'
  · rw [hstep']
    exact (abs_add_le _ _).trans (by linarith)

end

/-! ## Texts -/

/-- A completion ends in the text of the short code. -/
theorem Completes.text_drop {c d : Code} (h : Completes d c) (hshort : c.isShort = true) :
    d.text.drop c.missing = c.text := by
  rw [← text_dropLead (isShort_of_isFull h.isFull) (h.padding_eq hshort)
    (leadCount_missing hshort) (h.missing_lt hshort), h.dropLead_eq hshort]

theorem drop_text_of_not_short {c : Code} (hshort : c.isShort = false) :
    c.text.drop separatorPosition = separator :: Digit.text c.tail := by
  have hlength : (Digit.text c.lead ++ List.replicate c.padding paddingSymbol).length =
      separatorPosition := by
    rw [List.length_append, List.length_replicate, Digit.text, List.length_map,
      length_lead_add_padding hshort]
  rw [text, List.drop_left' hlength]

/-! ## References rounded to the edge -/

/-- A code without all eight digits before the separator. -/
def lastPair (row column : Digit) : Code where
  lead := []
  padding := 0
  tail := [row, column]
  shape := (by decide : Shape 0 0 2)

/-- The cell that the first eight digits of a point and the last pair name. -/
theorem cell_lastPair {p : GridPoint} (hp : p ∈ Cell.whole) (row column : Digit) :
    Cell.ofDigits (p.digits.take separatorPosition ++ [row, column]) =
      { south := p.row / Cell.heightOf 8 * Cell.heightOf 8 + row * Cell.heightOf 10
        west := p.column / Cell.widthOf 8 * Cell.widthOf 8 + column * Cell.widthOf 10
        height := Cell.heightOf 10
        width := Cell.widthOf 10 } := by
  have hfront : (p.digits.take separatorPosition).length = separatorPosition := by
    rw [List.length_take, GridPoint.length_digits]
    rfl
  have hcell := @Cell.ofDigits_take p hp separatorPosition (by decide)
  rw [Cell.ofDigits_of_le (by rw [hfront]; decide)] at hcell
  rw [Cell.ofDigits_of_le (by rw [List.length_append, hfront]; exact Nat.le_refl 10),
    Cell.byPairs_concat _ (by rw [hfront]; decide), hcell, Cell.pair, Cell.around]
  have hheight : Cell.heightOf separatorPosition / 20 = Cell.heightOf 10 := by decide
  have hwidth : Cell.widthOf separatorPosition / 20 = Cell.widthOf 10 := by decide
  simp only [hheight, hwidth]
  rfl

/-- The last pair of the code of a location with ten digits. -/
theorem tail_ofLocation (l : Location) :
    (ofLocation l 10).tail =
      [Fin.ofNat 20 ((GridPoint.ofLocation l 10).row / Cell.heightOf 10),
        Fin.ofNat 20 ((GridPoint.ofLocation l 10).column / Cell.widthOf 10)] := by
  have htail : (ofLocation l 10).tail =
      ((GridPoint.ofLocation l 10).digits.take 10).drop separatorPosition := rfl
  have hfront : (GridPoint.pairs 4 ((GridPoint.ofLocation l 10).row / Cell.heightOf 10 / 20)
      ((GridPoint.ofLocation l 10).column / Cell.widthOf 10 / 20)).length = separatorPosition :=
    GridPoint.length_pairs 4 _ _
  rw [htail, GridPoint.take_digits_of_le (by decide) (by decide), GridPoint.pairs,
    List.drop_left' hfront]

/-- Its center depends on the row of the point in latitude and on the column in longitude. -/
theorem center_lastPair (l : Location) (row column : Digit) :
    let center := (Area.ofDigits
      ((ofLocation l defaultDigits).digits.take separatorPosition ++ [row, column])).center
    let p := GridPoint.ofLocation l defaultDigits
    center.latitude = (Area.ofCell ⟨p.row / Cell.heightOf 8 * Cell.heightOf 8 +
        row * Cell.heightOf 10, 0, Cell.heightOf 10, 1⟩ 10).center.latitude ∧
      center.longitude = (Area.ofCell ⟨0, p.column / Cell.widthOf 8 * Cell.widthOf 8 +
        column * Cell.widthOf 10, 1, Cell.widthOf 10⟩ 10).center.longitude := by
  intro center p
  have hcell := cell_lastPair (ofLocation_mem_whole l (by decide : defaultDigits ≤ mostDigits))
    row column
  simp only [center, p]
  rw [take_digits_ofLocation (by decide), Area.ofDigits, hcell]
  simp only [Area.center, Area.ofCell, Cell.southDegrees, Cell.heightDegrees, Cell.westDegrees,
    Cell.widthDegrees, and_self]

/--
What is computed at the pole: the row beyond the last one has its center taken back to the pole,
where it stays, and the code of the pole ends in the last row.
-/
theorem latitude_at_pole :
    (∀ x ∈ roundedToPole, adjustLatitude x 2 = x ∧ ∀ mayLower mayRaise,
        approach 90 x (precision separatorPosition) mayLower mayRaise = 90) ∧
      (Area.ofCell ⟨180 * GridPoint.rowsPerDegree, 0, Cell.heightOf 10, 1⟩ 10).center.latitude =
        90 ∧
      Fin.ofNat 20 ((GridPoint.rowAt (adjustLatitude 90 10)).toNat / Cell.heightOf 10) =
        (19 : Digit) := by
  decide +kernel

/-- The same at the antimeridian, from where the first column follows. -/
theorem longitude_at_antimeridian :
    wrapLongitude roundedToAntimeridian = roundedToAntimeridian ∧
      approach 180 roundedToAntimeridian (precision separatorPosition) true true = 180 ∧
      (Area.ofCell ⟨0, 360 * GridPoint.columnsPerDegree + 19 * Cell.widthOf 10, 1,
        Cell.widthOf 10⟩ 10).center.longitude = 180 ∧
      Fin.ofNat 20 ((GridPoint.columnAt (wrapLongitude 180)).toNat / Cell.widthOf 10) =
        (0 : Digit) := by
  decide +kernel

theorem nearest_lastPair (row column : Digit) (r : Location) :
    (lastPair row column).nearest r =
      let latitude := adjustLatitude r.latitude 2
      let longitude := wrapLongitude r.longitude
      let center := (Area.ofDigits ((ofLocation ⟨latitude, longitude⟩ defaultDigits).digits.take
        separatorPosition ++ [row, column])).center
      let cell := precision separatorPosition
      ofLocation ⟨approach center.latitude latitude cell (-90 < center.latitude - cell)
        (center.latitude + cell < 90), approach center.longitude longitude cell true true⟩ 10 :=
  rfl

/-- Near a reference that is rounded over the pole a code of the first row ends in the last. -/
theorem tail_nearest_pole {r : Location} (h : r.latitude ∈ roundedToPole) :
    ∃ column, ((lastPair 0 0).nearest r).tail = [19, column] := by
  obtain ⟨hreference, hcenter, hrow⟩ := latitude_at_pole
  obtain ⟨hsame, hstay⟩ := hreference _ h
  have hpole : (GridPoint.ofLocation ⟨r.latitude, wrapLongitude r.longitude⟩ defaultDigits).row =
      180 * GridPoint.rowsPerDegree := by
    rw [GridPoint.ofLocation, rowAt_of_roundedToPole h, Int.toNat_natCast]
  have hsouth : 180 * GridPoint.rowsPerDegree / Cell.heightOf 8 * Cell.heightOf 8 +
      (0 : Digit) * Cell.heightOf 10 = 180 * GridPoint.rowsPerDegree := by decide
  have hmiddle := (center_lastPair ⟨r.latitude, wrapLongitude r.longitude⟩ 0 0).1
  rw [hpole, hsouth, hcenter] at hmiddle
  rw [nearest_lastPair]
  dsimp only
  rw [hsame, hmiddle, hstay, tail_ofLocation, GridPoint.ofLocation, hrow]
  exact ⟨_, rfl⟩

/-- Near one that is rounded over the antimeridian a code of the last column ends in the first. -/
theorem tail_nearest_antimeridian {r : Location} (h : r.longitude = roundedToAntimeridian) :
    ∃ row, ((lastPair 19 19).nearest r).tail = [row, 0] := by
  obtain ⟨hsame, hstay, hcenter, hcolumn⟩ := longitude_at_antimeridian
  have hedge : (GridPoint.ofLocation ⟨adjustLatitude r.latitude 2, roundedToAntimeridian⟩
      defaultDigits).column = 360 * GridPoint.columnsPerDegree := by
    rw [GridPoint.ofLocation, columnAt_roundedToAntimeridian, Int.toNat_natCast]
  have hwest : 360 * GridPoint.columnsPerDegree / Cell.widthOf 8 * Cell.widthOf 8 =
      360 * GridPoint.columnsPerDegree := by decide
  have hmiddle := (center_lastPair ⟨adjustLatitude r.latitude 2, roundedToAntimeridian⟩ 19 19).2
  rw [hedge, hwest] at hmiddle
  rw [nearest_lastPair]
  dsimp only
  rw [h, hsame, hmiddle.trans hcenter, hstay, tail_ofLocation, GridPoint.ofLocation, hcolumn]
  exact ⟨_, rfl⟩

/-! ## Recovered texts -/

/-- What a short text of one pair is recovered as ends in the last pair of that code. -/
theorem recoverText_lastPair (row column : Digit) (r : Location) :
    (recoverText (lastPair row column).text r).drop separatorPosition =
      separator :: Digit.text ((lastPair row column).nearest r).tail := by
  have hshort : (lastPair row column).isShort = true := rfl
  rw [recoverText, ofText?_text]
  simp only [recover, hshort, if_true]
  exact drop_text_of_not_short (isShort_ofLocation _ _)

/--
The characters that a short text leaves out are put before it, and the others are kept in upper
case, for every short text with at most seven characters after the separator. This holds at every
reference, numbers or not, but the two last latitudes below 90 and the last longitude below 180.
-/
theorem recoverText_ends_iff (r : Location) :
    (∀ s : List Char, (kind s).isShort = true → s.length ≤ s.idxOf separator + 8 →
        (recoverText s r).drop (separatorPosition - s.idxOf separator) = Text.upperCase s) ↔
      r.latitude ∉ roundedToPole ∧ r.longitude ≠ roundedToAntimeridian := by
  constructor
  · intro hends
    -- One pair after the separator is enough: the last row or column shows what is lost.
    have hpair (row column : Digit) : ((lastPair row column).nearest r).tail = [row, column] := by
      have hc := ofText?_text (lastPair row column)
      have hkind : (kind (lastPair row column).text).isShort = true := by
        rw [kind_of_ofText? hc]
        rfl
      have h := hends _ hkind (by exact Nat.le_add_left 3 5)
      rw [upperCase_of_ofText? hc, show separatorPosition - _ = separatorPosition from rfl,
        recoverText_lastPair] at h
      have htext : Digit.text _ = Digit.text [row, column] := (List.cons.inj h).2
      exact List.map_injective_iff.2 (fun _ _ => Digit.symbol_injective) htext
    constructor
    · intro hpole
      obtain ⟨column, htail⟩ := tail_nearest_pole hpole
      rw [hpair] at htail
      simp at htail
    · intro hantimeridian
      obtain ⟨row, htail⟩ := tail_nearest_antimeridian hantimeridian
      rw [hpair] at htail
      simp at htail
  · rintro ⟨hlatitude, hlongitude⟩ s hshort hafter
    obtain ⟨c, hc, hcshort⟩ := exists_isShort hshort
    obtain ⟨hmissing, hle⟩ := missing_of_ofText? hc hcshort
    have hcompletes := completes_nearest hcshort (hle hafter) hlatitude hlongitude
    rw [hmissing, upperCase_of_ofText? hc, ← hcompletes.text_drop hcshort, recoverText, hc]
    simp only [recover, hcshort, if_true]

/-- Below the pole a code of the first row is recovered as one of the last. -/
theorem recoverText_last_latitude :
    (kind "+22".toList).isShort = true ∧ "+22".toList.length ≤ "+22".toList.idxOf separator + 8 ∧
      recoverText "+22".toList ⟨.ofBits 0x40567fffffffffff, 0⟩ = "CFX2X2X2+X2".toList ∧
      (recoverText "+22".toList ⟨.ofBits 0x40567fffffffffff, 0⟩).drop
          (separatorPosition - "+22".toList.idxOf separator) ≠ Text.upperCase "+22".toList := by
  decide +kernel

end OpenLocation.Code
