import OpenLocation.Proofs.Code.Fullness
import OpenLocation.Proofs.Code.RoundTrip
import OpenLocation.Proofs.Location.Precision

/-!
# References at the north pole

A reference at the pole or beyond is taken half a cell south of it: to shorten a code, half
a cell of all its digits, and to recover it, half a cell of those that are left. As long as
at least as many digits are left as were removed, both places are less than half a cell of
the removed digits from the code. With fewer of them the second place lies many of these
cells to the south. So a code is recovered exactly if at most half of its digits were
removed (`recoverText_shortenText_pole`).
-/

namespace OpenLocation

open Binary64

/-! ## Half a cell from the pole -/

theorem isFinite_precision_of_le {count : Nat} (h : count ≤ mostDigits) :
    (precision count).isFinite = true := isFinite_precision (h.trans_lt (by decide))

theorem value_precision_nonneg {count : Nat} (h : count ≤ mostDigits) :
    0 ≤ (precision count).value := by
  have hzero : Near 0 0 0 := by exact_mod_cast Near.ofNat (Nat.zero_le (2 ^ 53))
  have hle := zero_le_precision count
  rwa [le_iff hzero.isFinite (isFinite_precision_of_le h), hzero.value_eq] at hle

/-- More digits name smaller cells. -/
theorem precision_le {m n : Nat} (h : m ≤ n) (hn : n ≤ mostDigits) :
    (precision n).value ≤ (precision m).value := by
  have hle := precision_le_precision h (hn.trans_lt (by decide))
  rwa [le_iff (isFinite_precision_of_le hn) (isFinite_precision_of_le (h.trans hn))] at hle

theorem precision_le_cellDegrees {count n : Nat} (hcount : LeadCount count) (h : count ≤ n)
    (hn : n ≤ mostDigits) : (precision n).value ≤ cellDegrees count + 1 / 2 ^ 52 :=
  (precision_le h hn).trans hcount.near_precision.value_le

/-- Cells of a pair of digits less are twenty times as high. -/
theorem LeadCount.sub_two {count : Nat} (h : LeadCount count) (hlt : 2 < count) :
    LeadCount (count - 2) ∧ precision (count - 1) = precision (count - 2) ∧
      cellDegrees (count - 2) = 20 * cellDegrees count := by
  have hheight : Cell.heightOf (count - 2) = 20 * Cell.heightOf count := by
    rcases h with rfl | rfl | rfl | rfl
    · omega
    all_goals decide
  refine ⟨by unfold LeadCount at h ⊢; omega, ?_, ?_⟩
  · obtain ⟨-, hpairs, -, heven⟩ := h.isCount
    exact precision_of_pairs (by omega) (by omega) (by omega)
  · rw [cellDegrees, cellDegrees, hheight, Nat.cast_mul, mul_div_assoc, Nat.cast_ofNat]

/-- With fewer digits than are missing cells are at least twenty times as high. -/
theorem le_precision_of_lt {count n : Nat} (hcount : LeadCount count) (htwo : 2 ≤ n)
    (h : n < count) : 20 * cellDegrees count - 1 / 2 ^ 52 ≤ (precision n).value := by
  obtain ⟨hfewer, hprecision, hdegrees⟩ := hcount.sub_two (Nat.lt_of_le_of_lt htwo h)
  have hmost : count - 1 ≤ mostDigits := (Nat.sub_le count 1).trans hcount.isCount.1.1
  have hle := precision_le (Nat.le_sub_one_of_lt h) hmost
  have hlarge := hfewer.near_precision.le_value
  rw [← hprecision, hdegrees] at hlarge
  exact hlarge.trans hle

namespace Location

/-- Half a cell of so many digits south of the pole. -/
def atPole (longitude : Binary64) (digitCount : Nat) : Location :=
  ⟨90 - precision digitCount / 2, longitude⟩

variable {r : Location} {n : Nat}

theorem longitude_atPole (longitude : Binary64) (digitCount : Nat) :
    (atPole longitude digitCount).longitude = longitude := rfl

theorem near_atPole (htwo : 2 ≤ n) (hn : n ≤ mostDigits) (x : Binary64) :
    Near (atPole x n).latitude (90 - (precision n).value / 2) (1 / 10 ^ 12) := by
  have hpos := value_precision_nonneg hn
  have hle := precision_le_cellDegrees (Or.inl rfl) htwo hn
  have hlarge := (LeadCount.cellDegrees_bounds (Or.inl rfl : LeadCount 2)).2
  have hhalf := (Near.self (isFinite_precision_of_le hn)).div near_two two_pos (A := 11)
    (by rw [abs_of_nonneg hpos]; linarith) (by norm_num) (by norm_num)
  have hdown := near_ninety.sub hhalf (A := 91)
    (abs_add_le_of_bounds (by linarith) (by linarith)) (by norm_num)
  exact hdown.weaken (by norm_num)

theorem inRange_atPole (htwo : 2 ≤ n) (hn : n ≤ mostDigits) {x : Binary64}
    (hx : -180 ≤ x ∧ x < 180) : (atPole x n).InRange := by
  have hnear := near_atPole htwo hn x
  have hle := precision_le_cellDegrees (Or.inl rfl) htwo hn
  have hlarge := (LeadCount.cellDegrees_bounds (Or.inl rfl : LeadCount 2)).2
  obtain ⟨-, -, -, ⟨-, hnorth⟩, hpole⟩ := doubles_at_pole
  refine ⟨⟨?_, Binary64.lt_of_le_of_lt (hpole n (Nat.lt_succ_of_le hn)) hnorth⟩, hx⟩
  rw [le_iff near_ninety.neg.isFinite hnear.isFinite, near_ninety.neg.value_eq]
  linarith [hnear.le_value]

theorem isFull_atPole (hn : n ≤ mostDigits) {x : Binary64} (hx : x ≠ roundedToAntimeridian) :
    (Code.ofLocation (atPole x n) defaultDigits).isFull = true := by
  refine (Code.isFull_ofLocation_iff _ _).2 ⟨fun hmem => ?_, hx⟩
  obtain ⟨-, hrounded, hrow, -, hpole⟩ := doubles_at_pole
  have hle := GridPoint.rowAt_le_rowAt (hpole n (Nat.lt_succ_of_le hn))
  exact absurd hrow (not_lt_of_ge ((hrounded _ hmem).2.2.symm.trans_le hle))

theorem adjustLatitude_atPole (htwo : 2 ≤ n) (hn : n ≤ mostDigits) (hlatitude : 90 ≤ r.latitude)
    (hlongitude : -180 ≤ r.longitude ∧ r.longitude < 180) :
    adjustLatitude (atPole r.longitude n).latitude n = adjustLatitude r.latitude n := by
  rw [(inRange_atPole htwo hn hlongitude).adjustLatitude_eq, adjustLatitude_of_le hlatitude, atPole]

end Location

namespace Code

open Location

variable {c : Code} {r r' : Location}

/-! ## Shortening and recovery -/

theorem removable_congr
    (hlatitude : adjustLatitude r.latitude c.digits.length =
      adjustLatitude r'.latitude c.digits.length)
    (hlongitude : wrapLongitude r.longitude = wrapLongitude r'.longitude) :
    c.removable r = c.removable r' := by
  unfold removable
  rw [hlatitude, hlongitude]

theorem nearest_congr
    (hlatitude : adjustLatitude r.latitude c.digits.length =
      adjustLatitude r'.latitude c.digits.length)
    (hlongitude : wrapLongitude r.longitude = wrapLongitude r'.longitude) :
    c.nearest r = c.nearest r' := by
  unfold nearest
  rw [hlatitude, hlongitude]

theorem removable_atPole (htwo : 2 ≤ c.digits.length) (hle : c.digits.length ≤ mostDigits)
    (hlatitude : 90 ≤ r.latitude) (hlongitude : -180 ≤ r.longitude ∧ r.longitude < 180) :
    c.removable (atPole r.longitude c.digits.length) = c.removable r :=
  removable_congr (adjustLatitude_atPole htwo hle hlatitude hlongitude) (by rw [longitude_atPole])

theorem nearest_atPole (htwo : 2 ≤ c.digits.length) (hle : c.digits.length ≤ mostDigits)
    (hlatitude : 90 ≤ r.latitude) (hlongitude : -180 ≤ r.longitude ∧ r.longitude < 180) :
    c.nearest (atPole r.longitude c.digits.length) = c.nearest r :=
  nearest_congr (adjustLatitude_atPole htwo hle hlatitude hlongitude) (by rw [longitude_atPole])

/--
The middle of the cell of a code that is shortened at the pole is less than three tenths of
a cell of the removed digits away from the place that the reference is taken at.
-/
theorem close_of_removable_pole (hfull : c.isFull = true) (htwo : 2 ≤ c.digits.length)
    (hle : c.digits.length ≤ mostDigits) (hlatitude : 90 ≤ r.latitude)
    (hlongitude : -180 ≤ r.longitude ∧ r.longitude < 180) (hne : c.removable r ≠ 0) :
    90 - (precision c.digits.length).value / 2 <
        (Cell.ofDigits c.digits).middleLatitude + 3 / 10 * cellDegrees (c.removable r) +
          2 / 10 ^ 11 ∧
      |(Cell.ofDigits c.digits).middleLongitude - r.longitude.value| <
        3 / 10 * cellDegrees (c.removable r) + 2 / 10 ^ 11 := by
  have heq := removable_atPole htwo hle hlatitude hlongitude
  obtain ⟨hclose, hclose'⟩ := close_of_removable hfull hle (inRange_atPole htwo hle hlongitude)
    (by rw [heq]; exact hne)
  rw [heq] at hclose hclose'
  rw [longitude_atPole] at hclose'
  have hplace := (near_atPole htwo hle r.longitude).le_value
  exact ⟨by linarith [(abs_lt.1 hclose).1], hclose'.trans (by linarith)⟩

/--
What is recovered at the pole is hardly more than a cell of the missing digits north of the
place that the reference is taken at.
-/
theorem middle_nearest_pole_lt (hshort : c.isShort = true) (htwo : 2 ≤ c.digits.length)
    (hle : c.missing + c.digits.length ≤ mostDigits) (hlatitude : 90 ≤ r.latitude)
    (hlongitude : -180 ≤ r.longitude ∧ r.longitude < 180)
    (hedge : r.longitude ≠ roundedToAntimeridian) :
    (Cell.ofDigits (c.nearest r).digits).middleLatitude <
      90 - (precision c.digits.length).value / 2 + cellDegrees c.missing + 1 / 10 ^ 11 := by
  have hle' : c.digits.length ≤ mostDigits := (Nat.le_add_left ..).trans hle
  have hrange := inRange_atPole htwo hle' hlongitude
  have hhere := isFull_atPole hle' hedge
  obtain ⟨d, hd, -, hcandidate, -⟩ := exists_candidate hshort hrange hhere
  have hnear := (isNearest_nearest hshort hle hrange hhere).latitude d hd
  rw [nearest_atPole htwo hle' hlatitude hlongitude] at hnear
  have hplace := (near_atPole htwo hle' r.longitude).value_le
  linarith [(abs_le.1 hnear).2]

/-- At the pole a shortened code is recovered exactly if at most half of its digits were removed. -/
theorem nearest_dropLead_pole (hfull : c.isFull = true) (hpadding : c.padding = 0)
    (hle : c.digits.length ≤ mostDigits) (hlatitude : 90 ≤ r.latitude)
    (hlongitude : -180 ≤ r.longitude ∧ r.longitude < 180)
    (hedge : r.longitude ≠ roundedToAntimeridian) (hne : c.removable r ≠ 0) :
    (c.dropLead (c.removable r)).nearest r = c ↔ 2 * c.removable r ≤ c.digits.length := by
  obtain ⟨hmem, hlt, -⟩ := (removable_cases c r).resolve_left hne
  have hcount := leadCount_of_mem hmem
  have hleft := two_le_length_sub hfull hpadding hcount hlt
  obtain ⟨hclose, hclose'⟩ := close_of_removable_pole hfull (by omega) hle hlatitude hlongitude hne
  generalize c.removable r = count at *
  have hshort := isShort_dropLead (isShort_of_isFull hfull) hpadding hcount hlt
  obtain ⟨hdigits, hmissing⟩ := digits_dropLead (isShort_of_isFull hfull) hpadding hcount hlt
  have hlength : (c.dropLead count).digits.length = c.digits.length - count := by
    rw [hdigits, List.length_drop]
  generalize hd : c.dropLead count = d at *
  obtain ⟨hp, hp'⟩ := hcount.cellDegrees_bounds
  have htwo : 2 ≤ d.digits.length := hlength ▸ hleft
  have hle' : d.digits.length ≤ mostDigits := by omega
  have hsmall := precision_le_cellDegrees hcount hlt.le hle
  constructor
  · intro heq
    by_contra hfew
    -- The place is ten cells south of the pole, too far for what is recovered there.
    have hlarge := le_precision_of_lt hcount htwo (by omega)
    have hlow := middle_nearest_pole_lt hshort htwo (by omega) hlatitude hlongitude hedge
    rw [heq, hmissing] at hlow
    linarith
  · intro henough
    have hlarge := precision_le (by omega : d.digits.length ≤ c.digits.length) hle
    have hleast := precision_le_cellDegrees hcount (by omega : count ≤ d.digits.length) hle'
    have hplace := near_atPole htwo hle' r.longitude
    have hlow := hplace.le_value
    have hhigh := hplace.value_le
    have hmiddle := abs_le.1 (cell_onGlobe hfull hle).abs_middle_le.1
    rw [← nearest_atPole htwo hle' hlatitude hlongitude]
    generalize d.digits.length = m at *
    rw [← hd]
    refine nearest_dropLead hfull hpadding hle hcount hlt (inRange_atPole htwo hle' hlongitude)
      (isFull_atPole hle' hedge) ?_ (n := 0) ?_
    · rw [← le_sub_iff_add_le]
      exact abs_le.2 ⟨by linarith, by linarith⟩
    · rw [Int.cast_zero, mul_zero, add_zero, longitude_atPole]
      linarith

/--
A full code without padding that is shortened near a reference at the pole or beyond, and
not on the last longitude before the antimeridian, is recovered there exactly if at most
half of its digits were removed.
-/
theorem recoverText_shortenText_pole {s : List Char} (hfull : (kind s).isFull = true)
    (hpadding : paddingSymbol ∉ s) (hle : (kind s).digitCount ≤ mostDigits)
    (hlatitude : 90 ≤ r.latitude) (hlongitude : -180 ≤ r.longitude ∧ r.longitude < 180)
    (hedge : r.longitude ≠ roundedToAntimeridian) :
    ∃ removed ∈ [0, 4, 6, 8], shortenText s r = s.drop removed ∧
      (recoverText (shortenText s r) r = Text.upperCase s ↔ 2 * removed ≤ (kind s).digitCount) := by
  obtain ⟨c, hc, hcfull⟩ := exists_isFull hfull
  rw [kind_of_ofText? hc] at hle ⊢
  have hshort := isShort_of_isFull hcfull
  have hcpadding := padding_of_not_mem hc hpadding
  have hshorten : shortenText s r = s.drop (c.removable r) := by rw [shortenText, hc]
  refine ⟨c.removable r, removable_mem c r, hshorten, ?_⟩
  rw [hshorten]
  by_cases hzero : c.removable r = 0
  · rw [hzero, List.drop_zero, recoverText_of_not_short hc hshort]
    exact iff_of_true rfl (Nat.zero_le _)
  · obtain ⟨hmem, hlt, -⟩ := (removable_cases c r).resolve_left hzero
    rw [recoverText_drop hc hshort hcpadding (leadCount_of_mem hmem) hlt, upperCase_of_ofText? hc,
      ← nearest_dropLead_pole hcfull hcpadding hle hlatitude hlongitude hedge hzero]
    exact ⟨text_injective, congrArg text⟩

theorem recoverText_shortenText_pole_beyond :
    (kind "cfx2wg22+22".toList).isFull = true ∧ paddingSymbol ∉ "cfx2wg22+22".toList ∧
      (kind "cfx2wg22+22".toList).digitCount ≤ mostDigits ∧
      (90 : Binary64) ≤ .infinity false ∧ (-180 ≤ (0.5 : Binary64) ∧ (0.5 : Binary64) < 180) ∧
      (0.5 : Binary64) ≠ roundedToAntimeridian ∧
      shortenText "cfx2wg22+22".toList ⟨.infinity false, 0.5⟩ = "wg22+22".toList ∧
      recoverText "wg22+22".toList ⟨.infinity false, 0.5⟩ = "CFX2WG22+22".toList := by
  have hfull : (kind "cfx2wg22+22".toList).isFull = true := by decide
  have hpadding : paddingSymbol ∉ "cfx2wg22+22".toList := by decide
  have hle : (kind "cfx2wg22+22".toList).digitCount ≤ mostDigits := by decide
  have hlatitude : (90 : Binary64) ≤ .infinity false := by decide +kernel
  have hlongitude : -180 ≤ (0.5 : Binary64) ∧ (0.5 : Binary64) < 180 := by decide +kernel
  have hedge : (0.5 : Binary64) ≠ roundedToAntimeridian := by decide +kernel
  have hshorten : shortenText "cfx2wg22+22".toList ⟨.infinity false, 0.5⟩ = "wg22+22".toList := by
    decide +kernel
  have hupper : Text.upperCase "cfx2wg22+22".toList = "CFX2WG22+22".toList := by decide +kernel
  obtain ⟨removed, hmem, hdrop, hrecover⟩ :=
    @recoverText_shortenText_pole ⟨.infinity false, 0.5⟩ _ hfull hpadding hle hlatitude hlongitude
      hedge
  rw [hshorten, hupper] at hrecover
  rw [hshorten] at hdrop
  obtain rfl : removed = 4 := by
    have hlength := congrArg List.length hdrop
    rw [List.length_drop, show "wg22+22".toList.length = 7 by decide,
      show "cfx2wg22+22".toList.length = 11 by decide] at hlength
    omega
  exact ⟨hfull, hpadding, hle, hlatitude, hlongitude, hedge, hshorten, hrecover.2 (by decide)⟩

/-- Of ten digits eight are removed at the pole, and the ones of another row come back. -/
theorem recoverText_shortenText_pole_ne :
    shortenText "CFX2X2X2+X2".toList ⟨90, 0⟩ = "+X2".toList ∧
      recoverText "+X2".toList ⟨90, 0⟩ = "CFF2X2X2+X2".toList ∧
      recoverText (shortenText "CFX2X2X2+X2".toList ⟨90, 0⟩) ⟨90, 0⟩ ≠
        Text.upperCase "CFX2X2X2+X2".toList := by
  decide +kernel

end Code

end OpenLocation
