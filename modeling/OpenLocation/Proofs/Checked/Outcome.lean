import OpenLocation.Proofs.Checked.Decoding

/-!
# What decides how reading an area ends

Every text ends in one of three ways. A short code is not full; a text that is no code, or
whose first pair of digits lies off the globe, is not valid; every other text has an area
(`areaOfText_cases`). The loop over pairs stops one digit before the end of them and skips the
last one if their number is odd, and a character that is no digit would count as zero. Neither
happens to a text that gets that far: `decode_outcome` says which of its characters are read
and that every pair is added.
-/

namespace OpenLocation.Checked

open Digit Code
open GridPoint (cellsPerDegree)

/-! ## Texts that are refused -/

/-- The first two digits, with all places before the separator, name no place on the globe. -/
def IsOffGlobe (text : List Char) : Prop :=
  text.idxOf separator = separatorPosition ∧ Begins text fun row column => 9 ≤ row ∨ 18 ≤ column

theorem begins_append_iff {c : Code} {before after : List Char} (h : Reads c before after)
    (hlength : before.length = separatorPosition) {p : Nat → Nat → Prop} :
    Begins (before ++ separator :: after) p ↔ Begins before p := by
  obtain ⟨a, b, rest, row, column, -, rfl, -, ha, hb⟩ := h.exists_pair hlength
  rw [List.cons_append, List.cons_append, begins_cons_iff ha hb, begins_cons_iff ha hb]

theorem isOffGlobe_iff {text : List Char} {c : Code} (h : Code.ofText? text = some c) :
    IsOffGlobe text ↔ c.isShort = false ∧ c.isFull = false := by
  have hindex := idxOf_separator h
  obtain ⟨before, after, rfl, hreads⟩ := exists_reads h
  rw [hreads.offGlobe_iff, IsOffGlobe, hindex, hreads.length_before]
  refine and_congr_right fun hplace => ?_
  exact begins_append_iff hreads (hreads.length_before.trans hplace)

/-- Reading an area ends with one of two errors, which name the text, or with the area. -/
theorem areaOfText_cases (text : List Char) :
    (kind text).isValid = false ∧ areaOfText text = .error (.invalidCode text) ∨
      ∃ c, Code.ofText? text = some c ∧ (kind text).isValid = true ∧
        ((kind text).isShort = true ∧ ¬ IsOffGlobe text ∧
            areaOfText text = .error (.notFullCode text) ∨
          (kind text).isShort = false ∧ IsOffGlobe text ∧
            areaOfText text = .error (.invalidCode text) ∨
          (kind text).isShort = false ∧ ¬ IsOffGlobe text ∧
            areaOfText text = .ok (.ofDigits c.digits)) := by
  unfold areaOfText
  cases hc : Code.ofText? text with
  | none =>
    rw [kind_of_eq_none hc]
    exact .inl ⟨rfl, rfl⟩
  | some c =>
    rw [kind_of_ofText? hc, isOffGlobe_iff hc]
    refine .inr ⟨c, rfl, rfl, ?_⟩
    dsimp only
    unfold areaFrom Code.isFull
    cases c.isShort <;> cases c.isOnGlobe <;> simp

theorem areaOfText_eq_notFullCode_iff (text t : List Char) :
    areaOfText text = .error (.notFullCode t) ↔
      t = text ∧ (kind text).isValid = true ∧ (kind text).isShort = true := by
  rcases areaOfText_cases text with
    ⟨hvalid, harea⟩ | ⟨c, -, hvalid, ⟨hshort, -, harea⟩ | ⟨hshort, -, harea⟩ | ⟨hshort, -, harea⟩⟩
  · simp [harea, hvalid]
  · simp [harea, hvalid, hshort, @eq_comm _ text t]
  · simp [harea, hshort]
  · simp [harea, hshort]

theorem areaOfText_eq_invalidCode_iff (text t : List Char) :
    areaOfText text = .error (.invalidCode t) ↔
      t = text ∧
        ((kind text).isValid = false ∨ (kind text).isValid = true ∧ IsOffGlobe text) := by
  rcases areaOfText_cases text with
    ⟨hvalid, harea⟩ | ⟨c, -, hvalid, ⟨-, hoff, harea⟩ | ⟨-, hoff, harea⟩ | ⟨-, hoff, harea⟩⟩
  · simp [harea, hvalid, @eq_comm _ text t]
  · simp [harea, hvalid, hoff]
  · simp [harea, hvalid, hoff, @eq_comm _ text t]
  · simp [harea, hvalid, hoff]

/-! ## Digits that are read -/

/-- The indices at which `sumPairs` adds a pair of so many digits. -/
def pairIndices (count : Nat) : List Nat := List.range' 0 ((min count pairDigits - 1 + 1) / 2) 2

/-- The digits of a text are read as they stand there, and all that should count is added up. -/
structure WhollyRead (text : List Char) (digits : List Digit) : Prop where
  /-- No character counts as zero for want of a digit. -/
  spelled : ∃ kept, cleanCode text = some kept ∧
    ∀ x ∈ kept, ∃ d : Digit, digitOf x = some (some d.val)
  read : digitValues text = some (values digits)
  /-- The loop runs over these indices, from the corner of the globe on. -/
  run : sumPairs (values digits) =
    (pairIndices digits.length).foldlM (addPair (values digits))
      ⟨-((90 * cellsPerDegree : Nat) : Int), -((180 * cellsPerDegree : Nat) : Int),
        (20 ^ (pairDigits / 2 - 1) : Nat)⟩
  /-- The two indices of each step are together those of all digits in pairs. -/
  taken : (pairIndices digits.length).flatMap (fun i => [i, i + 1]) =
    List.range (min digits.length pairDigits)
  sums : ∃ place, sumPairs (values digits) =
    some ⟨(PlaceSums.ofDigits digits).normalRow, (PlaceSums.ofDigits digits).normalColumn, place⟩

theorem digitOf_of_mem_significant {text : List Char} {c : Code}
    (h : Code.ofText? text = some c) :
    ∀ x ∈ significant text, ∃ d : Digit, digitOf x = some (some d.val) := by
  intro x hx
  obtain ⟨d, hd⟩ := exists_text_iff.1 ⟨_, (map_toUpper_significant h).symm⟩ x hx
  exact ⟨d, digitOf_of_spells hd⟩

theorem flatMap_range'_two (start steps : Nat) :
    (List.range' start steps 2).flatMap (fun i => [i, i + 1]) = List.range' start (2 * steps) := by
  induction steps generalizing start with
  | zero => rfl
  | succ steps ih =>
    rw [List.range'_succ, List.flatMap_cons, ih, Nat.mul_succ, List.range'_succ, List.range'_succ]
    rfl

/-- An even number of digits in pairs is taken whole. -/
theorem flatMap_pairIndices {count : Nat} (h : Cell.IsCount count) :
    (pairIndices count).flatMap (fun i => [i, i + 1]) = List.range (min count pairDigits) := by
  have heven : 2 * ((min count pairDigits - 1 + 1) / 2) = min count pairDigits := by
    have := h.2
    simp only [pairDigits] at *
    omega
  rw [pairIndices, flatMap_range'_two, heven, List.range_eq_range']

theorem sumPairs_eq_foldlM (digits : List Int) :
    sumPairs digits = (pairIndices digits.length).foldlM (addPair digits)
      ⟨-((90 * cellsPerDegree : Nat) : Int), -((180 * cellsPerDegree : Nat) : Int),
        (20 ^ (pairDigits / 2 - 1) : Nat)⟩ := by
  unfold sumPairs
  simp only [Option.bind_eq_bind]
  rw [mulInt_cells.1, Option.bind_some, mulInt_cells.2, Option.bind_some, powInt_places.1,
    Option.bind_some]
  rfl

theorem whollyRead {text : List Char} {c : Code} (hc : Code.ofText? text = some c)
    (hshort : c.isShort = false) : WhollyRead text (c.digits.take mostDigits) := by
  have hcount : Cell.IsCount (c.digits.take mostDigits).length :=
    (fullCount_firstDigits hshort).isCount (List.length_take_le _ _)
  exact {
    spelled := ⟨_, cleanCode_eq text, digitOf_of_mem_significant hc⟩
    read := digitValues_eq hc
    run := by rw [sumPairs_eq_foldlM, length_values]
    taken := flatMap_pairIndices hcount
    sums := ⟨_, sumPairs_eq hcount⟩ }

/-- A full code has one of ten numbers of digits, as far as they are read. -/
theorem length_mem_of_fullCount {count : Nat} (h : FullCount count) (hle : count ≤ mostDigits) :
    count ∈ [2, 4, 6, 8, 10, 11, 12, 13, 14, 15] := by
  simp only [FullCount, mostDigits, pairDigits, refinementDigits] at h hle
  simp only [List.mem_cons, List.not_mem_nil, or_false]
  omega

/--
How reading ends is decided by what kind of text it is. A short code is not full, and any other
text is invalid if it is no code or lies off the globe; either error names the text as it is. All
other texts have an area. It has the digits of the text but no more than fifteen, one of ten
numbers of them; each is that of the character at its place, and the loop over pairs adds them
all.
-/
theorem decode_outcome (text : List Char) :
    let short := (kind text).isValid = true ∧ (kind text).isShort = true
    let refused := (kind text).isValid = false ∨ (kind text).isValid = true ∧ IsOffGlobe text
    decode text = some (areaOfText text) ∧
      (∀ t, areaOfText text = .error (.notFullCode t) ↔ t = text ∧ short) ∧
      (∀ t, areaOfText text = .error (.invalidCode t) ↔ t = text ∧ refused) ∧
      (¬ short → ¬ refused →
        ∃ digits, areaOfText text = .ok (.ofDigits digits) ∧
          (Area.ofDigits digits).digitCount = min mostDigits (kind text).digitCount ∧
          (Area.ofDigits digits).digitCount = digits.length ∧
          digits.length ∈ [2, 4, 6, 8, 10, 11, 12, 13, 14, 15] ∧ WhollyRead text digits) := by
  intro short refused
  refine ⟨decode_eq text, areaOfText_eq_notFullCode_iff text, areaOfText_eq_invalidCode_iff text,
    fun hshort hrefused => ?_⟩
  rcases areaOfText_cases text with
    ⟨hvalid, -⟩ | ⟨c, hc, hvalid, ⟨hs, -, -⟩ | ⟨-, hoff, -⟩ | ⟨hs, -, harea⟩⟩
  · exact (hrefused (Or.inl hvalid)).elim
  · exact (hshort ⟨hvalid, hs⟩).elim
  · exact (hrefused (Or.inr ⟨hvalid, hoff⟩)).elim
  · have hcshort : c.isShort = false := by rwa [kind_of_ofText? hc] at hs
    have hle : (c.digits.take mostDigits).length ≤ mostDigits := List.length_take_le _ _
    have hcount : (Area.ofDigits (c.digits.take mostDigits)).digitCount =
        (c.digits.take mostDigits).length := Nat.min_eq_right hle
    have hlength : (c.digits.take mostDigits).length = min mostDigits (kind text).digitCount := by
      rw [List.length_take, kind_of_ofText? hc]
    -- All digits name the same area as the first fifteen, the ones that are read.
    rw [harea, ← Area.ofDigits_take_most]
    exact ⟨_, rfl, hcount.trans hlength, hcount,
      length_mem_of_fullCount (fullCount_firstDigits hcshort) hle, whollyRead hc hcshort⟩

/-- Eighteen digits, of which fifteen are read. -/
theorem decode_outcome_eighteen :
    let text := "8fvc9G8F+6wgcc32x2v".toList
    ¬ ((kind text).isValid = true ∧ (kind text).isShort = true) ∧
      ¬ ((kind text).isValid = false ∨ (kind text).isValid = true ∧ IsOffGlobe text) ∧
      ∃ digits, decode text = some (.ok (.ofDigits digits)) ∧
        (Area.ofDigits digits).digitCount = 15 ∧ WhollyRead text digits := by
  intro text
  have hvalid : (kind text).isValid = true := by decide
  have hshort : ¬ ((kind text).isValid = true ∧ (kind text).isShort = true) := by decide
  obtain ⟨c, hc, hfull⟩ := exists_isFull (by decide : (kind text).isFull = true)
  have hoff : ¬ IsOffGlobe text := by
    rw [isOffGlobe_iff hc, hfull]
    exact fun h => Bool.noConfusion h.2
  have hrefused :
      ¬ ((kind text).isValid = false ∨ (kind text).isValid = true ∧ IsOffGlobe text) := by
    simp [hvalid, hoff]
  obtain ⟨hdecode, -, -, hread⟩ := decode_outcome text
  obtain ⟨digits, harea, hcount, -, -, hwholly⟩ := hread hshort hrefused
  exact ⟨hshort, hrefused, digits, by rw [hdecode, harea], hcount.trans (by decide), hwholly⟩

end OpenLocation.Checked
