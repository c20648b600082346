import OpenLocation.Proofs.Code.Distance

/-!
# Nearer references

How many digits a reference makes superfluous depends on its distances from the center, each
rounded. Rounding keeps the order of exact distances, so a reference that is not farther away
never leaves more of the code (`shortenText_nearer`).
-/

namespace OpenLocation

namespace Code

open Binary64

/-! ## Digits that are superfluous -/

theorem isFinite_center {c : Code} (hfull : c.isFull = true) :
    (Area.ofDigits c.digits).center.latitude.isFinite = true ∧
      (Area.ofDigits c.digits).center.longitude.isFinite = true := by
  obtain ⟨hlatitude, hlongitude⟩ :=
    @Area.near_center _ (min mostDigits c.digits.length) (onGlobe_ofDigits hfull)
  exact ⟨hlatitude.isFinite, hlongitude.isFinite⟩

/-- A reference that is not farther from the center on either axis leaves out as many digits. -/
theorem removable_le_removable {c : Code} (hfull : c.isFull = true) (hpadding : c.padding = 0)
    {r r' : Location} (hr : r.InRange) (hr' : r'.InRange)
    (hlatitude : |(Area.ofDigits c.digits).center.latitude.value - r'.latitude.value| ≤
      |(Area.ofDigits c.digits).center.latitude.value - r.latitude.value|)
    (hlongitude : |(Area.ofDigits c.digits).center.longitude.value - r'.longitude.value| ≤
      |(Area.ofDigits c.digits).center.longitude.value - r.longitude.value|) :
    c.removable r ≤ c.removable r' := by
  obtain ⟨hcenter, hcenter'⟩ := isFinite_center hfull
  have hfinite := hr.near_latitude.1.isFinite
  have hfinite' := hr.near_longitude.1.isFinite
  have hnorth := abs_sub_le_abs_sub hcenter hr'.near_latitude.1.isFinite hcenter hfinite hlatitude
  have heast := abs_sub_le_abs_sub hcenter' hr'.near_longitude.1.isFinite hcenter' hfinite'
    hlongitude
  rcases Nat.eq_zero_or_pos (c.removable r) with hzero | hpos
  · exact hzero.trans_le (Nat.zero_le _)
  · have hmem : c.removable r ∈ [4, 6, 8] := by
      have := removable_mem c r
      simp only [List.mem_cons, List.not_mem_nil, or_false] at this ⊢
      omega
    obtain ⟨hlt, hnear⟩ := (le_removable_iff hfull hpadding r hmem).1 le_rfl
    rw [offset_lt_iff hcenter hcenter', hr.adjustLatitude_eq, hr.wrapLongitude_eq] at hnear
    obtain ⟨-, hlat, hlng⟩ := hnear
    refine (le_removable_iff hfull hpadding r' hmem).2 ⟨hlt, ?_⟩
    rw [offset_lt_iff hcenter hcenter', hr'.adjustLatitude_eq, hr'.wrapLongitude_eq]
    exact ⟨Or.inr hr'.near_longitude.1.isFinite,
      fun _ => Binary64.lt_of_le_of_lt hnorth (hlat (Near.isNaN_eq_false hfinite)),
      fun _ => Binary64.lt_of_le_of_lt heast (hlng hfinite')⟩

/-! ## Texts -/

/--
Of two references in range the one that is not farther from the center of a full text without
padding, neither in latitude nor in longitude, makes it lose at least as many characters.
-/
theorem shortenText_nearer {s : List Char} (hfull : (kind s).isFull = true)
    (hpadding : paddingSymbol ∉ s) :
    ∃ area, areaOfText s = .ok area ∧ ∀ r r' : Location, r.InRange → r'.InRange →
      |area.center.latitude.value - r'.latitude.value| ≤
        |area.center.latitude.value - r.latitude.value| →
      |area.center.longitude.value - r'.longitude.value| ≤
        |area.center.longitude.value - r.longitude.value| →
      ∃ removed removed', shortenText s r = s.drop removed ∧ shortenText s r' = s.drop removed' ∧
        removed ≤ removed' ∧ removed' ≤ s.length := by
  obtain ⟨c, hc, hcfull⟩ := exists_isFull hfull
  have hcpadding := padding_of_not_mem hc hpadding
  refine ⟨_, areaOfText_of_isFull hc hcfull, fun r r' hr hr' hlatitude hlongitude =>
    ⟨c.removable r, c.removable r', ?_, ?_, ?_, removable_le_length hc r'⟩⟩
  · rw [shortenText, hc]
  · rw [shortenText, hc]
  · exact removable_le_removable hcfull hcpadding hr hr' hlatitude hlongitude

/-- The center itself is nearer than a reference that leaves eight characters. -/
theorem shortenText_nearer_closer :
    let r : Location := ⟨51.36, -1.2⟩
    let r' : Location := ⟨51.3701125, -1.217765625⟩
    (kind "9C3W9QCJ+2VX".toList).isFull = true ∧ paddingSymbol ∉ "9C3W9QCJ+2VX".toList ∧
      r.InRange ∧ r'.InRange ∧
      ∃ removed removed', shortenText "9C3W9QCJ+2VX".toList r = "9C3W9QCJ+2VX".toList.drop removed ∧
        shortenText "9C3W9QCJ+2VX".toList r' = "9C3W9QCJ+2VX".toList.drop removed' ∧
        removed ≤ removed' := by
  intro r r'
  have hfull : (kind "9C3W9QCJ+2VX".toList).isFull = true := by decide
  have hpadding : paddingSymbol ∉ "9C3W9QCJ+2VX".toList := by decide
  obtain ⟨hr, hr', hnear⟩ : r.InRange ∧ r'.InRange ∧
      (areaOfText "9C3W9QCJ+2VX".toList).toOption.all (fun area =>
        |area.center.latitude.value - r'.latitude.value| ≤
          |area.center.latitude.value - r.latitude.value| ∧
        |area.center.longitude.value - r'.longitude.value| ≤
          |area.center.longitude.value - r.longitude.value|) = true := by decide +kernel
  obtain ⟨area, harea, hremoved⟩ := shortenText_nearer hfull hpadding
  rw [harea] at hnear
  obtain ⟨hlatitude, hlongitude⟩ := of_decide_eq_true hnear
  obtain ⟨removed, removed', h, h', hle, -⟩ := hremoved r r' hr hr' hlatitude hlongitude
  exact ⟨hfull, hpadding, hr, hr', removed, removed', h, h', hle⟩

end Code

end OpenLocation
