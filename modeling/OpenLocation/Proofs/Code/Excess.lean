import OpenLocation.Proofs.Code.Distance
import OpenLocation.Proofs.Code.Ending

/-!
# Digits after the fifteenth

A code may have any number of digits after the separator, but only seven of them can be among the
fifteen that an area is read from and a location is given. The others are counted and nothing
else, and their number decides a result only at the pole, where it decides how far to the south a
reference is taken. At any other reference a text has the results of the text that is cut after
those seven (`cut_agree`).
-/

namespace OpenLocation

/-- More digits than there are is as good as all of them. -/
theorem effectiveDigits_min (requested : Nat) :
    effectiveDigits (min mostDigits requested) = effectiveDigits requested := by
  unfold effectiveDigits
  rw [Nat.min_comm mostDigits, Nat.min_assoc, Nat.min_self]

namespace Code

theorem ofLocation_congr (l : Location) {m n : Nat} (h : effectiveDigits m = effectiveDigits n) :
    ofLocation l m = ofLocation l n := by
  apply eq_of_digits_eq (isShort_ofLocation l m) (isShort_ofLocation l n)
  rw [digits_ofLocation, digits_ofLocation, h]

section

variable {c : Code} {r : Location}

/-- With eight digits before the separator the first fifteen end seven places after it. -/
theorem take_append_digits {front : List Digit}
    (h : front.length + c.lead.length = separatorPosition) :
    (front ++ c.digits).take mostDigits = front ++ c.firstDigits.digits := by
  have hlength : (front ++ c.lead).length = separatorPosition := by rw [List.length_append, h]
  have hmost : mostDigits = (front ++ c.lead).length + (mostDigits - separatorPosition) := by
    rw [hlength]
    rfl
  rw [digits, ← List.append_assoc, hmost, List.take_length_add_append, List.append_assoc]
  rfl

/-- As many digits are superfluous near a reference, if it is not at the pole. -/
theorem removable_firstDigits (hfull : c.isFull = true) (hbelow : ¬ 90 ≤ r.latitude) :
    c.firstDigits.removable r = c.removable r := by
  have hkept : c.firstDigits.isFull = c.isFull ∧ c.firstDigits.padding = c.padding := ⟨rfl, rfl⟩
  have hlatitude := adjustLatitude_eq_of_not_le hbelow c.firstDigits.digits.length c.digits.length
  have hlength : c.firstDigits.digits.length = min mostDigits c.digits.length := by
    rw [digits_firstDigits (isShort_of_isFull hfull), List.length_take]
  unfold removable
  rw [hkept.1, hkept.2, hlatitude, hlength, digits_firstDigits (isShort_of_isFull hfull),
    Area.ofDigits_take_most]
  -- All counts that are tried are below fifteen.
  have hcounts : ∀ count ∈ [8, 6, 4],
      (count < min mostDigits c.digits.length ↔ count < c.digits.length) := by
    intro count hmem
    have hsmall : count < mostDigits := by
      revert count
      decide
    omega
  split
  · dsimp only
    congr 1
    apply List.find?_congr
    intro count hmem
    exact decide_eq_decide.2 (and_congr_left fun _ => hcounts count hmem)
  · rfl

/-- The same code is the nearest one, if the reference is not at the pole. -/
theorem nearest_firstDigits (hshort : c.isShort = true) (hbelow : ¬ 90 ≤ r.latitude) :
    c.firstDigits.nearest r = c.nearest r := by
  have hlatitude := adjustLatitude_eq_of_not_le hbelow c.firstDigits.digits.length c.digits.length
  have hlead : c.missing + c.lead.length = separatorPosition := by
    simp only [isShort, decide_eq_true_iff] at hshort
    rw [missing]
    omega
  have hfirst {front : List Digit} (hfront : front.length = c.missing) :
      (front ++ c.digits).take mostDigits = front ++ c.firstDigits.digits :=
    take_append_digits (by rw [hfront, hlead])
  have hcount : effectiveDigits (c.firstDigits.digits.length + c.missing) =
      effectiveDigits (c.digits.length + c.missing) := by
    have hlength := congrArg List.length (hfirst (List.length_replicate (n := c.missing) (a := 0)))
    rw [List.length_take, List.length_append, List.length_append, List.length_replicate]
      at hlength
    rw [Nat.add_comm, ← hlength, effectiveDigits_min, Nat.add_comm]
  have hmissing : c.firstDigits.missing = c.missing := rfl
  unfold nearest
  dsimp only
  rw [← missing, ← missing, hmissing, hlatitude]
  generalize hhere : ofLocation _ defaultDigits = here
  have hfront : (here.digits.take c.missing).length = c.missing := by
    rw [List.length_take, ← hhere, length_digits_ofLocation]
    exact Nat.min_eq_left (leadCount_missing hshort).isCount.2.1
  rw [← hfirst hfront, Area.ofDigits_take_most]
  exact ofLocation_congr _ hcount

end

/-! ## Texts -/

/-- Cut seven characters after its separator a text spells the code without the digits there. -/
theorem ofText?_cut {s : List Char} {c : Code} (h : ofText? s = some c) :
    ofText? (s.take (s.idxOf separator + 8)) = some c.firstDigits := by
  have hindex := idxOf_separator h
  obtain ⟨before, after, rfl, hreads⟩ := exists_reads h
  rw [hindex, ← hreads.length_before, List.take_length_add_append, List.take_succ_cons]
  refine Reads.ofText? ⟨hreads.before, ?_⟩
  rw [List.map_take, hreads.after, Digit.text, ← List.map_take]
  rfl

/--
A text and what is left of it when it is cut seven characters after its separator agree. If it is
full, so is the other, with the first fifteen digits at most; the two name the same area, and they
lose as many characters near a reference. If it is short, so is the other, and the two are
recovered as the same text. For references at the pole or beyond nothing is said.
-/
theorem cut_agree (s : List Char) {r : Location}
    (hr : r.latitude < 90 ∨ r.latitude = .nan) :
    let cut := s.take (s.idxOf separator + 8)
    ((kind s).isFull = true →
        (kind cut).isFull = true ∧ (kind cut).digitCount = min mostDigits (kind s).digitCount ∧
          (∃ a, areaOfText s = .ok a ∧ areaOfText cut = .ok a) ∧
          ∃ removed ∈ [0, 4, 6, 8],
            shortenText s r = s.drop removed ∧ shortenText cut r = cut.drop removed) ∧
      ((kind s).isShort = true →
        (kind cut).isShort = true ∧ recoverText s r = recoverText cut r) := by
  intro cut
  have hbelow : ¬ 90 ≤ r.latitude := by
    rcases hr with hlt | hnan
    · exact fun hle => Binary64.not_lt_of_le hle hlt
    · rw [hnan]
      exact Binary64.not_le_nan _
  constructor
  · intro hfull
    obtain ⟨c, hc, hcfull⟩ := exists_isFull hfull
    have hcut : ofText? cut = some c.firstDigits := ofText?_cut hc
    have hcutfull : c.firstDigits.isFull = true := hcfull
    have hdigits := digits_firstDigits (isShort_of_isFull hcfull)
    rw [kind_of_ofText? hc, kind_of_ofText? hcut, areaOfText_of_isFull hc hcfull,
      areaOfText_of_isFull hcut hcutfull, hdigits, Area.ofDigits_take_most, List.length_take]
    refine ⟨hcfull, rfl, ⟨_, rfl, rfl⟩, c.removable r, removable_mem c r, ?_, ?_⟩
    · rw [shortenText, hc]
    · rw [shortenText, hcut]
      dsimp only
      rw [removable_firstDigits hcfull hbelow]
  · intro hshort
    obtain ⟨c, hc, hcshort⟩ := exists_isShort hshort
    have hcut : ofText? cut = some c.firstDigits := ofText?_cut hc
    have hcutshort : c.firstDigits.isShort = true := hcshort
    rw [kind_of_ofText? hcut, recoverText, recoverText, hc, hcut]
    simp only [recover, hcshort, hcutshort, if_true, nearest_firstDigits hcshort hbelow, and_self]

/-- Eighteen digits of a code, and ten of them near the reference alone. -/
theorem cut_agree_eighteen :
    let r : Location := ⟨51.3701125, -1.217765625⟩
    let s := "9c3w9qcj+2vxgcc32xx".toList
    r.latitude < 90 ∧ (kind s).isFull = true ∧ (kind s).digitCount = 18 ∧
      (kind "9c3w9qcj+2vxgcc3".toList).digitCount = 15 ∧
      (∃ a, areaOfText s = .ok a ∧ areaOfText "9c3w9qcj+2vxgcc3".toList = .ok a) ∧
      (kind "+2vxgcc32xx".toList).isShort = true ∧
      recoverText "+2vxgcc32xx".toList r = recoverText "+2vxgcc3".toList r := by
  intro r s
  have hr : r.latitude < 90 := by decide +kernel
  have hfull : (kind s).isFull = true := by decide
  have hshort : (kind "+2vxgcc32xx".toList).isShort = true := by decide
  have hcut : s.take (s.idxOf separator + 8) = "9c3w9qcj+2vxgcc3".toList := by decide
  have hcut' : "+2vxgcc32xx".toList.take ("+2vxgcc32xx".toList.idxOf separator + 8) =
      "+2vxgcc3".toList := by decide
  obtain ⟨-, hcount, harea, -⟩ := (cut_agree s (Or.inl hr)).1 hfull
  obtain ⟨-, hrecover⟩ := (cut_agree "+2vxgcc32xx".toList (Or.inl hr)).2 hshort
  rw [hcut] at hcount harea
  rw [hcut'] at hrecover
  exact ⟨hr, hfull, by decide, hcount, harea, hshort, hrecover⟩

end Code

end OpenLocation
