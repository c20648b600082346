import OpenLocation.Proofs.Code.Layout
import OpenLocation.Proofs.Code.RoundTrip
import OpenLocation.Proofs.Text.Uppercase

/-!
# What is recovered from any text

Text that is no code is put in upper case, and might become a code by that. The symbols of codes
are the upper case of themselves and of the letters a to z, and of one character more: two
letters f in one (`upperChar_of_symbols`). So the upper case of a text reads as the text does in
which these two letters are spelled out (`ofText?_upperCase`). Recovery makes a code of no other
text, and a short code only of a text with that character (`recoverText_spellOut`).
-/

namespace OpenLocation

namespace Text

/-- Two letters f in one character. -/
def ligature : Char := '\uFB00'

/-- The text with two letters for each ligature. -/
def spellOut (text : List Char) : List Char :=
  text.flatMap fun c => if c = ligature then ['f', 'f'] else [c]

theorem spellOut_eq_self_iff {s : List Char} : spellOut s = s ↔ ligature ∉ s := by
  constructor
  · intro heq hmem
    have hspelled : ligature ∈ spellOut s := heq.symm ▸ hmem
    obtain ⟨c, -, hc⟩ := List.mem_flatMap.1 hspelled
    split at hc
    · revert hc; decide
    · next hne => exact hne (List.mem_singleton.1 hc).symm
  · intro hmem
    have hkept : ∀ c ∈ s, (if c = ligature then ['f', 'f'] else [c]) = [c] := by
      intro c hc
      rw [if_neg]
      rintro rfl
      exact hmem hc
    rw [spellOut, List.flatMap_congr hkept, List.flatMap_singleton']

theorem upperCase_spellOut (s : List Char) : upperCase (spellOut s) = upperCase s := by
  unfold upperCase spellOut
  rw [List.flatMap_assoc]
  congr 1
  funext c
  split
  · next h =>
    rw [h]
    decide +kernel
  · rw [List.flatMap_singleton]

end Text

namespace Code

open Text

/-- The character is one that codes are written with. -/
def IsSymbol (x : Char) : Prop := x = separator ∨ x = paddingSymbol ∨ ∃ d : Digit, d.symbol = x

instance (x : Char) : Decidable (IsSymbol x) := inferInstanceAs (Decidable (_ ∨ _))

theorem isSymbol_of_mem_text {c : Code} {x : Char} (hx : x ∈ c.text) : IsSymbol x := by
  have hdigit (digits : List Digit) (h : x ∈ Digit.text digits) : IsSymbol x := by
    obtain ⟨d, -, hd⟩ := List.mem_map.1 h
    exact Or.inr (Or.inr ⟨d, hd⟩)
  rw [text, List.mem_append, List.mem_append, List.mem_cons, List.mem_replicate] at hx
  rcases hx with (hlead | ⟨-, hpadding⟩) | hseparator | htail
  · exact hdigit _ hlead
  · exact Or.inr (Or.inl hpadding)
  · exact Or.inl hseparator
  · exact hdigit _ htail

theorem IsSymbol.toNat_bounds {x : Char} (h : IsSymbol x) : x.toNat ≠ 0 ∧ x.toNat ≤ 'Z'.toNat := by
  rcases h with rfl | rfl | ⟨d, rfl⟩
  · decide
  · decide
  · revert d; decide

theorem IsSymbol.toUpper_eq {x : Char} (h : IsSymbol x) : x.toUpper = x := by
  rcases h with rfl | rfl | ⟨d, rfl⟩
  · decide
  · decide
  · exact Digit.toUpper_symbol d

/-! ## Characters whose upper case may stand in a code -/

theorem eq_ligature_of_longCapitals : ∀ entry ∈ longCapitals,
    (∀ n ∈ entry.2, IsSymbol (Char.ofNat n)) → entry.1 = ligature.toNat := by
  decide +kernel

/-- But for a to z, runs move above the symbols, or are one letter: a dotless i, a long s. -/
theorem caseRuns_cases : ∀ run ∈ caseRuns, run.first = 'a'.toNat ∧ run.last = 'z'.toNat ∨
    'Z'.toNat < (run.first + run.distance).toNat ∨
    run.first = run.last ∧ ¬ IsSymbol (Char.ofNat (run.first + run.distance).toNat) := by
  decide +kernel

theorem upperChar_letter : ∀ place < 26, upperChar (Char.ofNat ('a'.toNat + place)) =
    [(Char.ofNat ('a'.toNat + place)).toUpper] := by
  decide +kernel

theorem upperChar_of_symbols {c : Char} (h : ∀ x ∈ upperChar c, IsSymbol x) :
    c = ligature ∨ upperChar c = [c.toUpper] := by
  rcases upperChar_cases c with ⟨entry, hentry, hcode, heq⟩ | ⟨run, hrun, hhas, heq⟩ | heq
  · rw [heq, List.forall_mem_map] at h
    exact Or.inl (Char.toNat_inj.1 (hcode ▸ eq_ligature_of_longCapitals entry hentry h))
  · have hmem := h _ (heq ▸ List.mem_singleton_self _)
    simp only [CaseRun.has, Bool.and_eq_true, decide_eq_true_eq] at hhas
    rcases caseRuns_cases run hrun with ⟨hfirst, hlast⟩ | habove | ⟨hone, hno⟩
    · right
      have hletter := upperChar_letter (c.toNat - 'a'.toNat) (by
        rw [hfirst, hlast] at hhas
        exact Nat.sub_lt_left_of_lt_add hhas.1.1 (Nat.lt_succ_of_le hhas.1.2))
      rwa [Nat.add_sub_cancel' (hfirst ▸ hhas.1.1), Char.ofNat_toNat] at hletter
    · exfalso
      have hbounds := hmem.toNat_bounds
      rw [Char.toNat_ofNat] at hbounds
      have hle : (run.first + run.distance).toNat ≤ (c.toNat + run.distance).toNat := by
        omega
      split at hbounds <;> omega
    · have hfirst : c.toNat = run.first := by omega
      rw [hfirst] at hmem
      exact absurd hmem hno
  · right
    rw [heq, (h c (heq ▸ List.mem_singleton_self c)).toUpper_eq]

/-! ## Texts in upper case -/

theorem ligature_not_mem {s : List Char} {c : Code} (h : ofText? s = some c) : ligature ∉ s := by
  intro hmem
  rw [ofText?_eq_some_iff] at h
  have hsymbol : IsSymbol ligature.toUpper :=
    isSymbol_of_mem_text (h ▸ List.mem_map_of_mem hmem)
  revert hsymbol
  decide

/-- Where the upper case of a text is one of a code, it is that of ASCII letters alone. -/
theorem map_toUpper_spellOut {s : List Char} (h : ∀ x ∈ upperCase s, IsSymbol x) :
    (spellOut s).map Char.toUpper = upperCase s := by
  unfold spellOut upperCase
  rw [List.map_flatMap]
  refine List.flatMap_congr fun c hc => ?_
  have hchar : ∀ x ∈ upperChar c, IsSymbol x :=
    fun x hx => h x (List.mem_flatMap.2 ⟨c, hc, hx⟩)
  rcases upperChar_of_symbols hchar with rfl | heq
  · decide +kernel
  · split
    · next hligature =>
      rw [hligature]
      decide +kernel
    · exact heq.symm

/-- The upper case of a text reads as the text with its ligatures spelled out. -/
theorem ofText?_upperCase (s : List Char) : ofText? (upperCase s) = ofText? (spellOut s) := by
  refine Option.ext fun c => ⟨fun h => ?_, fun h => ?_⟩
  · have htext : upperCase s = c.text := by
      rw [← upperCase_of_ofText? h, upperCase_upperCase]
    rw [ofText?_eq_some_iff, map_toUpper_spellOut, htext]
    intro x hx
    exact isSymbol_of_mem_text (htext ▸ hx)
  · rw [← upperCase_spellOut, upperCase_of_ofText? h, ofText?_text]

/-! ## Recovery -/

theorem isShort_recover (c : Code) (r : Location) : (c.recover r).isShort = false := by
  unfold recover
  split
  · exact isShort_ofLocation _ _
  · next h => exact Bool.eq_false_iff.2 h

/-- A text that is recovered as itself near one reference or another is no short code. -/
theorem recoverText_eq_self_iff {t : List Char} (hupper : upperCase t = t) (r : Location) :
    recoverText t r = t ↔ (kind t).isShort = false := by
  cases ht : ofText? t with
  | none =>
    rw [recoverText, ht, kind_of_eq_none ht]
    exact iff_of_true hupper rfl
  | some c =>
    rw [recoverText, ht, kind_of_ofText? ht]
    have htext : c.text = t := (upperCase_of_ofText? ht).symm.trans hupper
    constructor
    · intro h
      have heq : c.recover r = c := text_injective (h.trans htext.symm)
      exact heq ▸ isShort_recover c r
    · intro hshort
      have hshort : c.isShort = false := hshort
      simp only [recover, hshort, Bool.false_eq_true, if_false]
      exact htext

theorem upperCase_recoverText (s : List Char) (r : Location) :
    upperCase (recoverText s r) = recoverText s r := by
  unfold recoverText
  split
  · exact upperCase_of_ofText? (ofText?_text _)
  · exact upperCase_upperCase s

/-- Text without ligatures stays a code or none, and what is recovered from it is not short. -/
theorem kind_recoverText (s : List Char) (r : Location) :
    ((kind (recoverText s r)).isValid = (kind (spellOut s)).isValid) ∧
      ((kind (recoverText s r)).isShort = true ↔
        ligature ∈ s ∧ (kind (spellOut s)).isShort = true) := by
  cases hs : ofText? s with
  | some c =>
    have hmem := ligature_not_mem hs
    rw [recoverText, hs, kind_of_ofText? (ofText?_text _), spellOut_eq_self_iff.2 hmem,
      kind_of_ofText? hs, isShort_recover]
    exact ⟨rfl, iff_of_false Bool.false_ne_true fun h => hmem h.1⟩
  | none =>
    have hread := ofText?_upperCase s
    have hrecover : recoverText s r = upperCase s := by rw [recoverText, hs]
    have hligature (h : (kind (spellOut s)).isShort = true) : ligature ∈ s := by
      by_contra hmem
      rw [spellOut_eq_self_iff.2 hmem, kind_of_eq_none hs] at h
      cases h
    rw [hrecover, kind, kind, hread]
    exact ⟨rfl, fun h => ⟨hligature h, h⟩, fun h => h.2⟩

/--
What is recovered from a text is a code exactly if the text is one with its ligatures spelled
out, and it is a short one only if there are such ligatures and the text is short without them.
In no other case does recovering once more change it, near whatever reference. Text without
ligatures is spelled out as it is.
-/
theorem recoverText_spellOut (s : List Char) (r : Location) :
    let result := recoverText s r
    ((kind result).isValid = true ↔ (kind (spellOut s)).isValid = true) ∧
      ((kind result).isShort = true ↔ ligature ∈ s ∧ (kind (spellOut s)).isShort = true) ∧
      (∀ r', recoverText result r' = result ↔
        ¬ (ligature ∈ s ∧ (kind (spellOut s)).isShort = true)) ∧
      (spellOut s = s ↔ ligature ∉ s) := by
  intro result
  obtain ⟨hvalid, hshort⟩ := kind_recoverText s r
  refine ⟨by rw [hvalid], hshort, fun r' => ?_, spellOut_eq_self_iff⟩
  rw [recoverText_eq_self_iff (upperCase_recoverText s r) r', ← hshort, Bool.not_eq_true]

/-- The ligature before a short code makes another one of it. -/
theorem recoverText_ligature :
    let s := ligature :: "+22".toList
    let result := recoverText s ⟨0, 0⟩
    (kind s).isValid = false ∧ result = "FF+22".toList ∧ (kind result).isValid = true ∧
      (kind result).isShort = true ∧ recoverText result ⟨0, 0⟩ ≠ result := by
  decide +kernel

end Code

end OpenLocation
