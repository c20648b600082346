import OpenLocation.Proofs.Code.RoundTrip

/-!
# What is left of a shortened text

Shortening changes a text only if it is a full code without padding, and then takes off its first
four, six or eight characters (`shortenText_cases`). What is left is a short code with at least
two digits (`kind_drop`). Short codes are not shortened again, near whatever reference
(`shortenText_shape`).
-/

namespace OpenLocation.Code

/-- Text that is no full code is left as it is. -/
theorem shortenText_of_not_isFull {s : List Char} (h : (kind s).isFull = false) (r : Location) :
    shortenText s r = s := by
  unfold shortenText
  cases hc : ofText? s with
  | none => rfl
  | some c =>
    rw [kind_of_ofText? hc] at h
    have hzero : c.removable r = 0 := by
      by_contra hne
      exact Bool.false_ne_true (h.symm.trans (isFull_of_removable hne).1)
    dsimp only
    rw [hzero, List.drop_zero]

/-- A text is left as it is, or loses some of the digits of a full code that has more of them. -/
theorem shortenText_cases (s : List Char) (r : Location) :
    shortenText s r = s ∨
      ∃ c count, ofText? s = some c ∧ c.isFull = true ∧ c.padding = 0 ∧ count ∈ [4, 6, 8] ∧
        LeadCount count ∧ count < c.digits.length ∧ shortenText s r = s.drop count := by
  unfold shortenText
  cases hc : ofText? s with
  | none => exact Or.inl rfl
  | some c =>
    dsimp only
    by_cases hzero : c.removable r = 0
    · rw [hzero, List.drop_zero]
      exact Or.inl rfl
    · obtain ⟨hfull, hpadding⟩ := isFull_of_removable hzero
      obtain ⟨hmem, hlt, -⟩ := (removable_cases c r).resolve_left hzero
      refine Or.inr ⟨c, c.removable r, rfl, hfull, hpadding, ?_, leadCount_of_mem hmem, hlt, rfl⟩
      simp only [List.mem_cons, List.not_mem_nil, or_false] at hmem ⊢
      omega

/-- Without some of its first digits a text is a short code of the other ones. -/
theorem kind_drop {s : List Char} {c : Code} (hc : ofText? s = some c) (hfull : c.isFull = true)
    (hpadding : c.padding = 0) {count : Nat} (hcount : LeadCount count)
    (hlt : count < c.digits.length) :
    kind (s.drop count) = ⟨true, true, false, c.digits.length - count⟩ := by
  have hnot := isShort_of_isFull hfull
  have hshort := isShort_dropLead hnot hpadding hcount hlt
  have hfull' : (c.dropLead count).isFull = false := by
    rw [isFull, hshort]
    rfl
  rw [kind_of_ofText? (ofText?_drop hc hnot hpadding hcount hlt), hshort, hfull',
    (digits_dropLead hnot hpadding hcount hlt).1, List.length_drop]

/--
Near any reference a text is left as it is, or is a full code without padding and loses its first
four, six or eight characters. What is left then is a short code of the other digits, two of them
at least, so it is not the separator alone. A text is a code exactly if the shortened one is.
Shortening once more near the same reference changes nothing, and once digits are lost it changes
nothing near any other.
-/
theorem shortenText_shape (s : List Char) (r : Location) :
    let result := shortenText s r
    (result = s ∨
        ∃ removed ∈ [4, 6, 8], result = s.drop removed ∧ result.length + removed = s.length ∧
          (kind s).isFull = true ∧ paddingSymbol ∉ s ∧
          (kind result).isValid = true ∧ (kind result).isShort = true ∧
          (kind result).digitCount + removed = (kind s).digitCount ∧
          2 ≤ (kind result).digitCount ∧ result ≠ [separator]) ∧
      (kind result).isValid = (kind s).isValid ∧
      shortenText result r = result ∧
      (result ≠ s → ∀ r', shortenText result r' = result) := by
  intro result
  rcases shortenText_cases s r with
    hsame | ⟨c, count, hc, hfull, hpadding, hmem, hcount, hlt, hdrop⟩
  · have hresult : result = s := hsame
    rw [hresult]
    exact ⟨Or.inl rfl, rfl, hsame, fun hne => (hne rfl).elim⟩
  · have hresult : result = s.drop count := hdrop
    have hkind := kind_drop hc hfull hpadding hcount hlt
    have htwo := two_le_length_sub hfull hpadding hcount hlt
    -- A short code is not full, so nothing is taken off again.
    have hkept (r' : Location) : shortenText (s.drop count) r' = s.drop count :=
      shortenText_of_not_isFull (by rw [hkind]) r'
    have hlength : (s.drop count).length + count = s.length := by
      have := length_of_ofText? hc
      rw [digits, List.length_append] at hlt
      rw [List.length_drop]
      omega
    have hbare : s.drop count ≠ [separator] := by
      intro heq
      have hinvalid : (kind [separator]).isValid = false := by decide
      rw [← heq, hkind] at hinvalid
      cases hinvalid
    have hmem' : paddingSymbol ∉ s := fun h => (paddingSymbol_mem_iff hc).1 h hpadding
    rw [hresult, hkind, kind_of_ofText? hc]
    exact ⟨Or.inr ⟨count, hmem, rfl, hlength, hfull, hmem', rfl, rfl, Nat.sub_add_cancel hlt.le,
      htwo, hbare⟩, rfl, hkept r, fun _ => hkept⟩

/-- Of eight digits two stay before the separator, near the center itself. -/
theorem shortenText_shape_eight :
    let r : Location := ⟨20.37625, 2.77625⟩
    shortenText "7fg49qGG+".toList r = "GG+".toList ∧ (kind "GG+".toList).isValid = true ∧
      shortenText "GG+".toList r = "GG+".toList ∧
      shortenText "GG+".toList ⟨.nan, 0⟩ = "GG+".toList := by
  intro r
  have hresult : shortenText "7fg49qGG+".toList r = "GG+".toList := by decide +kernel
  obtain ⟨-, hvalid, hsame, hkept⟩ := shortenText_shape "7fg49qGG+".toList r
  rw [hresult] at hvalid hsame hkept
  exact ⟨hresult, hvalid.trans (by decide), hsame, hkept (by decide) _⟩

end OpenLocation.Code
