import OpenLocation.Proofs.Code.Layout
import OpenLocation.Proofs.Code.Nearest

/-!
# Shortening and recovering

`Code.shorten` leaves digits out only if the reference is nearer to the middle of the
cell than three tenths of the cell that they name (`removable_cases`, `close_of_removable`).
That leaves nearly a fifth of such a cell for the reference to move before the code is
recovered (`recoverText_shortenText`).
-/

namespace OpenLocation.Code

open Binary64

/-! ## What is removed -/

/-- Nothing is removed, or as many digits as the distance of the reference allows. -/
theorem removable_cases (c : Code) (r : Location) :
    c.removable r = 0 ∨
      c.removable r ∈ [8, 6, 4] ∧ c.removable r < c.digits.length ∧
        offset (Area.ofDigits c.digits).center (adjustLatitude r.latitude c.digits.length)
          (wrapLongitude r.longitude) < precision (c.removable r) * 0.3 := by
  unfold removable
  split
  · dsimp only
    generalize hfind : List.find? _ [8, 6, 4] = found
    cases found with
    | none => exact Or.inl rfl
    | some count =>
      have hmem := List.mem_of_find?_eq_some hfind
      have hfar := List.find?_some hfind
      rw [decide_eq_true_iff] at hfar
      exact Or.inr ⟨hmem, hfar⟩
  · exact Or.inl rfl

/-- Only a full code without padding loses digits. -/
theorem isFull_of_removable {c : Code} {r : Location} (hne : c.removable r ≠ 0) :
    c.isFull = true ∧ c.padding = 0 := by
  by_contra hnot
  unfold removable at hne
  rw [if_neg hnot] at hne
  exact hne rfl

theorem leadCount_of_mem {count : Nat} (h : count ∈ [8, 6, 4]) : LeadCount count := by
  simp only [List.mem_cons, List.not_mem_nil, or_false] at h
  unfold LeadCount
  omega

/-- The distance from which on the digits are kept. -/
theorem near_limit {count : Nat} (h : LeadCount count) :
    Near (precision count * 0.3) (cellDegrees count * (3 / 10)) (1 / 10 ^ 12) := by
  have hfactor : Near 0.3 (3 / 10) (1 / 2 ^ 52) := by
    rw [show (3 / 10 : ℚ) = ((3 : Nat) : ℚ) / 10 ^ 1 by norm_num]
    exact Near.decimal (by decide) (by decide) (by norm_num) le_rfl (by norm_num)
  obtain ⟨hp, hp'⟩ := h.cellDegrees_bounds
  have habs : |cellDegrees count| = cellDegrees count := abs_of_pos (by linarith)
  have habs' : |(3 / 10 : ℚ)| = 3 / 10 := abs_of_pos (by norm_num)
  have hproduct := h.near_precision.mul hfactor (A := 20)
    (by rw [abs_mul, habs, habs']; linarith) (by norm_num) (by norm_num)
  rw [habs, habs'] at hproduct
  exact hproduct.weaken (by linarith)

/-- Where digits are removed the reference is nearer than three tenths of their cell. -/
theorem close_of_removable {c : Code} (hfull : c.isFull = true)
    (hle : c.digits.length ≤ mostDigits) {r : Location} (hr : r.InRange)
    (hne : c.removable r ≠ 0) :
    |(Cell.ofDigits c.digits).middleLatitude - r.latitude.value| <
        3 / 10 * cellDegrees (c.removable r) + 1 / 10 ^ 11 ∧
      |(Cell.ofDigits c.digits).middleLongitude - r.longitude.value| <
        3 / 10 * cellDegrees (c.removable r) + 1 / 10 ^ 11 := by
  obtain ⟨hmem, -, hoffset⟩ := (removable_cases c r).resolve_left hne
  have hcount := leadCount_of_mem hmem
  generalize c.removable r = count at *
  obtain ⟨hp, hp'⟩ := hcount.cellDegrees_bounds
  have hglobe := cell_onGlobe hfull hle
  have hmiddle := hglobe.abs_middle_le
  rw [abs_le, abs_le] at hmiddle
  obtain ⟨hy, hsouth, hnorth⟩ := hr.near_latitude
  obtain ⟨hx, hwest, heast⟩ := hr.near_longitude
  rw [offset, hr.adjustLatitude_eq, hr.wrapLongitude_eq] at hoffset
  obtain ⟨hcenter, hcenter'⟩ := @Area.near_center _ (min mostDigits c.digits.length) hglobe
  have hlatitude := (hcenter.sub hy (A := 181)
    (abs_add_le_of_bounds (by linarith) (by linarith)) (by norm_num)).abs
  have hlongitude := (hcenter'.sub hx (A := 361)
    (abs_add_le_of_bounds (by linarith) (by linarith)) (by norm_num)).abs
  have hlimit := near_limit hcount
  obtain ⟨hlt, hlt'⟩ := Near.lt_of_greater_lt hlatitude.isFinite hlongitude.isFinite
    hlimit.isFinite hoffset
  have hlt := hlatitude.sub_lt_add hlimit hlt
  have hlt' := hlongitude.sub_lt_add hlimit hlt'
  constructor <;> linarith

/-! ## Recovery of what was shortened -/

/--
A shortened code is recovered near any reference that is at most 19 hundredths of a cell of
the missing digits away from the one that it was shortened for.
-/
theorem nearest_shorten {c : Code} (hfull : c.isFull = true) (hpadding : c.padding = 0)
    (hle : c.digits.length ≤ mostDigits) {r r' : Location} (hr : r.InRange) (hr' : r'.InRange)
    (hhere : (ofLocation r' defaultDigits).isFull = true) (hne : c.removable r ≠ 0)
    (hlatitude : |r'.latitude.value - r.latitude.value| ≤
      19 / 100 * (precision (c.removable r)).value) {n : ℤ}
    (hlongitude : |r'.longitude.value - r.longitude.value - 360 * n| ≤
      19 / 100 * (precision (c.removable r)).value) :
    (c.dropLead (c.removable r)).nearest r' = c := by
  obtain ⟨hclose, hclose'⟩ := close_of_removable hfull hle hr hne
  obtain ⟨hmem, hlt, -⟩ := (removable_cases c r).resolve_left hne
  have hcount := leadCount_of_mem hmem
  generalize c.removable r = count at *
  have hprecision := hcount.near_precision.value_le
  obtain ⟨hp, hp'⟩ := hcount.cellDegrees_bounds
  refine nearest_dropLead hfull hpadding hle hcount hlt hr' hhere ?_ (n := n) ?_
  · have := abs_sub_le (Cell.ofDigits c.digits).middleLatitude r.latitude.value r'.latitude.value
    rw [abs_sub_comm r.latitude.value] at this
    linarith
  · have := abs_add_le ((Cell.ofDigits c.digits).middleLongitude - r.longitude.value)
      (-(r'.longitude.value - r.longitude.value - 360 * n))
    rw [abs_neg, show (Cell.ofDigits c.digits).middleLongitude - r.longitude.value +
      -(r'.longitude.value - r.longitude.value - 360 * n) =
        (Cell.ofDigits c.digits).middleLongitude + 360 * n - r'.longitude.value by ring] at this
    linarith

/-! ## Texts -/

/-- The text of a code is shortened to the text of the shortened code. -/
theorem shortenText_text (c : Code) (r : Location) : shortenText c.text r = (c.shorten r).text := by
  rw [shortenText, ofText?_text, shorten]
  dsimp only
  by_cases hzero : c.removable r = 0
  · have hsame : c.dropLead 0 = c := by
      rw [dropLead, List.drop_zero, ofParts?, dif_pos c.shape, Option.getD_some]
    rw [hzero, hsame, List.drop_zero]
  · obtain ⟨hfull, hpadding⟩ := isFull_of_removable hzero
    obtain ⟨hmem, hlt, -⟩ := (removable_cases c r).resolve_left hzero
    exact (text_dropLead (isShort_of_isFull hfull) hpadding (leadCount_of_mem hmem) hlt).symm

/-- Without its first characters a text spells the code without its first digits. -/
theorem ofText?_drop {s : List Char} {c : Code} (h : ofText? s = some c)
    (hshort : c.isShort = false) (hpadding : c.padding = 0) {count : Nat}
    (hcount : LeadCount count) (hlt : count < c.digits.length) :
    ofText? (s.drop count) = some (c.dropLead count) := by
  rw [ofText?_eq_some_iff] at h ⊢
  rw [List.map_drop, h, text_dropLead hshort hpadding hcount hlt]

theorem removable_mem (c : Code) (r : Location) : c.removable r ∈ [0, 4, 6, 8] := by
  rcases removable_cases c r with hzero | ⟨hmem, -⟩
  · rw [hzero]
    decide
  · simp only [List.mem_cons, List.not_mem_nil, or_false] at hmem ⊢
    omega

theorem removable_le_length {s : List Char} {c : Code} (h : ofText? s = some c) (r : Location) :
    c.removable r ≤ s.length := by
  have hlength := length_of_ofText? h
  rcases removable_cases c r with hzero | ⟨-, hlt, -⟩
  · omega
  · rw [digits, List.length_append] at hlt
    omega

/-- What is not short is only put in upper case. -/
theorem recoverText_of_not_short {s : List Char} {c : Code} (h : ofText? s = some c)
    (hshort : c.isShort = false) (r : Location) : recoverText s r = Text.upperCase s := by
  rw [recoverText, h, upperCase_of_ofText? h]
  simp only [recover, hshort, Bool.false_eq_true, if_false]

/-- Without its first characters a text is recovered as the nearest code to the reference. -/
theorem recoverText_drop {s : List Char} {c : Code} (h : ofText? s = some c)
    (hshort : c.isShort = false) (hpadding : c.padding = 0) {count : Nat}
    (hcount : LeadCount count) (hlt : count < c.digits.length) (r : Location) :
    recoverText (s.drop count) r = ((c.dropLead count).nearest r).text := by
  rw [recoverText, ofText?_drop h hshort hpadding hcount hlt]
  simp only [recover, isShort_dropLead hshort hpadding hcount hlt, if_true]

/--
A full code without padding loses none of its leading digits near a reference, or four,
six or eight of them. Where it keeps them all it is recovered near any reference; else it
is recovered near each one that is at most 19 hundredths of a cell of the missing digits
away from the first, measured around the circle, and is not rounded over the north pole or
the antimeridian.
-/
theorem recoverText_shortenText {s : List Char} (hfull : (kind s).isFull = true)
    (hpadding : paddingSymbol ∉ s) (hle : (kind s).digitCount ≤ mostDigits) {r : Location}
    (hr : r.InRange) :
    ∃ removed ∈ [0, 4, 6, 8], shortenText s r = s.drop removed ∧
      (removed = 0 → ∀ r', recoverText (shortenText s r) r' = Text.upperCase s) ∧
      (removed ≠ 0 → ∀ r' : Location, r'.InRange → (ofLocation r' defaultDigits).isFull = true →
        |r'.latitude.value - r.latitude.value| ≤ 19 / 100 * (precision removed).value →
        (∃ turns : ℤ, |r'.longitude.value - r.longitude.value - 360 * turns| ≤
          19 / 100 * (precision removed).value) →
        recoverText (shortenText s r) r' = Text.upperCase s) := by
  obtain ⟨c, hc, hcfull⟩ := exists_isFull hfull
  rw [kind_of_ofText? hc] at hle
  have hshort := isShort_of_isFull hcfull
  have hcpadding := padding_of_not_mem hc hpadding
  have hshorten : shortenText s r = s.drop (c.removable r) := by rw [shortenText, hc]
  refine ⟨c.removable r, ?_, hshorten, fun hzero r' => ?_, ?_⟩
  · rcases removable_cases c r with hzero | ⟨hmem, -⟩
    · rw [hzero]
      decide
    · simp only [List.mem_cons, List.not_mem_nil, or_false] at hmem ⊢
      omega
  · rw [hshorten, hzero, List.drop_zero, recoverText, hc]
    simp only [recover, hshort, Bool.false_eq_true, if_false]
    exact (upperCase_of_ofText? hc).symm
  · rintro hne r' hr' hhere hlatitude ⟨turns, hlongitude⟩
    obtain ⟨hmem, hlt, -⟩ := (removable_cases c r).resolve_left hne
    have hcount := leadCount_of_mem hmem
    have hnearest := nearest_shorten hcfull hcpadding hle hr hr' hhere hne hlatitude hlongitude
    rw [hshorten, recoverText, ofText?_drop hc hshort hcpadding hcount hlt]
    simp only [recover, isShort_dropLead hshort hcpadding hcount hlt, if_true, hnearest]
    exact (upperCase_of_ofText? hc).symm

theorem recoverText_shortenText_antimeridian :
    (kind "5vjx6v2g+222".toList).isFull = true ∧ paddingSymbol ∉ "5vjx6v2g+222".toList ∧
      (kind "5vjx6v2g+222".toList).digitCount ≤ mostDigits ∧
      (⟨-17.75, 179.9375⟩ : Location).InRange ∧ (⟨-17.625, -179.9375⟩ : Location).InRange ∧
      shortenText "5vjx6v2g+222".toList ⟨-17.75, 179.9375⟩ = "6v2g+222".toList ∧
      recoverText "6v2g+222".toList ⟨-17.625, -179.9375⟩ = "5VJX6V2G+222".toList := by
  have hfull : (kind "5vjx6v2g+222".toList).isFull = true := by decide
  have hpadding : paddingSymbol ∉ "5vjx6v2g+222".toList := by decide
  have hle : (kind "5vjx6v2g+222".toList).digitCount ≤ mostDigits := by decide
  have hr : (⟨-17.75, 179.9375⟩ : Location).InRange := by decide +kernel
  have hr' : (⟨-17.625, -179.9375⟩ : Location).InRange := by decide +kernel
  have hshorten : shortenText "5vjx6v2g+222".toList ⟨-17.75, 179.9375⟩ = "6v2g+222".toList := by
    decide +kernel
  have hupper : Text.upperCase "5vjx6v2g+222".toList = "5VJX6V2G+222".toList := by
    decide +kernel
  obtain ⟨removed, hmem, hdrop, -, hrecover⟩ := recoverText_shortenText hfull hpadding hle hr
  rw [hshorten, hupper] at hrecover
  rw [hshorten] at hdrop
  obtain rfl : removed = 4 := by
    simp only [List.mem_cons, List.not_mem_nil, or_false] at hmem
    rcases hmem with rfl | rfl | rfl | rfl
    · exact absurd hdrop (by decide)
    · rfl
    · exact absurd hdrop (by decide)
    · exact absurd hdrop (by decide)
  refine ⟨hfull, hpadding, hle, hr, hr', hshorten, ?_⟩
  exact hrecover (by decide) ⟨-17.625, -179.9375⟩ hr' (by decide +kernel) (by decide +kernel)
    ⟨-1, by decide +kernel⟩

end OpenLocation.Code
