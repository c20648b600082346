import OpenLocation.Proofs.Code.Layout
import OpenLocation.Proofs.Code.Nearest

/-!
# Recovery of short codes

A short code is recovered near a reference as the full code that ends in its characters and
has its middle nearest to the reference, in latitude and in longitude around the circle
(`recoverText_nearest`). At a pole this is the code on the near side of it, however far
that is: no code lies beyond.
-/

namespace OpenLocation

namespace Code

/-! ## Texts of short codes -/

/-- A full code whose text ends in that of a short one is a completion of it. -/
theorem completes_of_text_drop {c d : Code} (hshort : c.isShort = true) (hfull : d.isFull = true)
    (h : d.text.drop c.missing = c.text) : Completes d c := by
  have hcount := leadCount_missing hshort
  have hdshort := isShort_of_isFull hfull
  have hdlead := length_lead_add_padding hdshort
  have hpadding := padding_of_isShort hshort
  have hpos := length_digits_pos hshort
  have hlength := congrArg List.length h
  rw [List.length_drop, length_of_ofText? (ofText?_text d), length_of_ofText? (ofText?_text c),
    hdlead, hpadding] at hlength
  have hlead := hcount.isCount.2.2.1
  have hmissing := missing_add_length hshort
  have hdpadding : d.padding = 0 := by
    by_contra hne
    have htail : d.tail.length = 0 := by
      have hshape := d.shape
      simp only [Shape] at hshape
      omega
    have hmem := paddingSymbol_mem_drop_text hdshort hne (by omega : c.missing < separatorPosition)
    rw [h] at hmem
    exact paddingSymbol_not_mem_text hpadding hmem
  have hlt : c.missing < d.digits.length := by
    rw [digits, List.length_append]
    omega
  have hdrop : d.dropLead c.missing = c :=
    text_injective (by rw [text_dropLead hdshort hdpadding hcount hlt, h])
  have hcompletes := completes_dropLead hfull hdpadding hcount hlt
  rwa [hdrop] at hcompletes

/-! ## The nearest code -/

/-- What a short text tells of the digits that it leaves out. -/
theorem missing_of_ofText? {s : List Char} {c : Code} (h : ofText? s = some c)
    (hshort : c.isShort = true) :
    separatorPosition - s.idxOf separator = c.missing ∧
      (s.length ≤ s.idxOf separator + 8 → c.missing + c.digits.length ≤ mostDigits) := by
  have hpadding := padding_of_isShort hshort
  rw [idxOf_separator h, length_of_ofText? h, missing_add_length hshort, hpadding, Nat.add_zero]
  refine ⟨rfl, fun hafter => ?_⟩
  simp only [separatorPosition, mostDigits, pairDigits, refinementDigits]
  omega

/--
A short text with at most seven characters after the separator is recovered as a full code
that ends in its characters in upper case. Of all full codes that do, none has its middle
nearer to the reference by more than 10⁻⁹ degrees, neither in latitude nor in longitude
around the circle.
-/
theorem recoverText_nearest {s : List Char} (hshort : (kind s).isShort = true)
    (hafter : s.length ≤ s.idxOf separator + 8) {r : Location} (hr : r.InRange)
    (hhere : (ofLocation r defaultDigits).isFull = true) :
    let missing := separatorPosition - s.idxOf separator
    ∃ c : Code, recoverText s r = c.text ∧ (kind c.text).isFull = true ∧
      c.text.drop missing = Text.upperCase s ∧
      ∀ (t : List Char) (d : Code), ofText? t = some d → (kind t).isFull = true →
        (Text.upperCase t).drop missing = Text.upperCase s →
        |(Cell.ofDigits c.digits).middleLatitude - r.latitude.value| ≤
            |(Cell.ofDigits d.digits).middleLatitude - r.latitude.value| + 1 / 10 ^ 9 ∧
          circleDistance (Cell.ofDigits c.digits).middleLongitude r.longitude.value ≤
            circleDistance (Cell.ofDigits d.digits).middleLongitude r.longitude.value +
              1 / 10 ^ 9 := by
  intro missing
  obtain ⟨c, hc, hcshort⟩ := exists_isShort hshort
  obtain ⟨hmissing, hle⟩ := missing_of_ofText? hc hcshort
  have hnearest := isNearest_nearest hcshort (hle hafter) hr hhere
  have hcompletes := hnearest.completes
  rw [show missing = c.missing from hmissing, upperCase_of_ofText? hc]
  refine ⟨c.nearest r, ?_, ?_, ?_, fun t d hd hdfull hends => ?_⟩
  · rw [recoverText, hc]
    simp only [recover, hcshort, if_true]
  · rw [kind_of_ofText? (ofText?_text _)]
    exact hcompletes.isFull
  · rw [← text_dropLead (isShort_of_isFull hcompletes.isFull) (hcompletes.padding_eq hcshort)
      (leadCount_missing hcshort) (hcompletes.missing_lt hcshort), hcompletes.dropLead_eq hcshort]
  · rw [kind_of_ofText? hd] at hdfull
    rw [upperCase_of_ofText? hd] at hends
    have hdcompletes := completes_of_text_drop hcshort hdfull hends
    obtain ⟨n, hturns⟩ := hnearest.longitude
    obtain ⟨t, ht⟩ := exists_circleDistance_eq (Cell.ofDigits d.digits).middleLongitude
      r.longitude.value
    constructor
    · linarith [hnearest.latitude d hdcompletes]
    · rw [ht]
      linarith [hturns d hdcompletes t, circleDistance_le
        (Cell.ofDigits (c.nearest r).digits).middleLongitude r.longitude.value n]

theorem recoverText_nearest_pole :
    (kind "2222+22".toList).isShort = true ∧
      "2222+22".toList.length ≤ "2222+22".toList.idxOf separator + 8 ∧
      (⟨89.6, 0⟩ : Location).InRange ∧ (ofLocation ⟨89.6, 0⟩ defaultDigits).isFull = true ∧
      ∃ c : Code, c.text = "CFX22222+22".toList ∧
        ∀ (t : List Char) (d : Code), ofText? t = some d → (kind t).isFull = true →
          (Text.upperCase t).drop 4 = "2222+22".toList →
          |(Cell.ofDigits c.digits).middleLatitude - (89.6 : Binary64).value| ≤
            |(Cell.ofDigits d.digits).middleLatitude - (89.6 : Binary64).value| + 1 / 10 ^ 9 := by
  have hshort : (kind "2222+22".toList).isShort = true := by decide
  have hafter : "2222+22".toList.length ≤ "2222+22".toList.idxOf separator + 8 := by decide
  have hr : (⟨89.6, 0⟩ : Location).InRange := by decide +kernel
  have hhere : (ofLocation ⟨89.6, 0⟩ defaultDigits).isFull = true := by decide +kernel
  have hrecover : recoverText "2222+22".toList ⟨89.6, 0⟩ = "CFX22222+22".toList := by
    decide +kernel
  have hmissing : separatorPosition - "2222+22".toList.idxOf separator = 4 := by decide
  have hupper : Text.upperCase "2222+22".toList = "2222+22".toList := by decide +kernel
  obtain ⟨c, hc, -, -, hnearest⟩ := recoverText_nearest hshort hafter hr hhere
  rw [hmissing, hupper] at hnearest
  exact ⟨hshort, hafter, hr, hhere, c, hc.symm.trans hrecover,
    fun t d hd hfull hends => (hnearest t d hd hfull hends).1⟩

example : recoverText "9QCJ+2VX".toList ⟨51.3708675, -1.217765625⟩ = "9C3W9QCJ+2VX".toList := by
  decide +kernel

end Code

end OpenLocation
