import OpenLocation.Place
import OpenLocation.Proofs.Code.Cells

/-!
# The layout of a code

A text that is read as a code has its separator right after the padding, and the padding
right after the leading digits (`getElem?_text_eq_separator_iff`,
`getElem?_text_eq_paddingSymbol_iff`). In a code that is not short the separator stands at
the ninth place, so the digits alone make up its text (`text_eq_layout`). The code of a
location is such a code, and has as many digits as it is given (`text_ofLocation_layout`).
-/

namespace OpenLocation.Code

/-! ## Where separator and padding stand -/

theorem not_mem_text {a : Char} (h : ∀ d : Digit, decide (d.symbol ≠ a) = true)
    (digits : List Digit) : a ∉ Digit.text digits := by
  unfold Digit.text
  intro hmem
  obtain ⟨d, -, hd⟩ := List.mem_map.1 hmem
  exact of_decide_eq_true (h d) hd

/-- What fills the places between two lists that it is not in is at these places only. -/
theorem getElem?_eq_filling_iff {a : Char} {front back : List Char} (hfront : a ∉ front)
    (hback : a ∉ back) (count i : Nat) :
    (front ++ List.replicate count a ++ back)[i]? = some a ↔
      front.length ≤ i ∧ i < front.length + count := by
  rw [List.append_assoc]
  by_cases hbefore : i < front.length
  · rw [List.getElem?_append_left hbefore]
    constructor
    · intro h
      exact absurd (List.mem_of_getElem? h) hfront
    · omega
  rw [List.getElem?_append_right (Nat.le_of_not_lt hbefore)]
  by_cases hin : i - front.length < count
  · rw [List.getElem?_append_left (by rwa [List.length_replicate]),
      List.getElem?_replicate_of_lt hin]
    exact iff_of_true rfl (by omega)
  · rw [List.getElem?_append_right (by rw [List.length_replicate]; omega)]
    constructor
    · intro h
      exact absurd (List.mem_of_getElem? h) hback
    · omega

theorem separator_not_mem_before (c : Code) :
    separator ∉ Digit.text c.lead ++ List.replicate c.padding paddingSymbol := by
  intro hmem
  rcases List.mem_append.1 hmem with hdigit | hpadding
  · exact not_mem_text symbol_ne_separator c.lead hdigit
  · exact absurd (List.eq_of_mem_replicate hpadding) (by decide)

theorem getElem?_text_eq_separator_iff (c : Code) (i : Nat) :
    c.text[i]? = some separator ↔ i = c.lead.length + c.padding := by
  have hiff := getElem?_eq_filling_iff (separator_not_mem_before c)
    (not_mem_text symbol_ne_separator c.tail) 1 i
  rw [List.length_append, List.length_replicate, Digit.text, List.length_map] at hiff
  rw [text, ← List.singleton_append, ← List.append_assoc]
  exact hiff.trans (by omega)

theorem getElem?_text_eq_paddingSymbol_iff (c : Code) (i : Nat) :
    c.text[i]? = some paddingSymbol ↔ c.lead.length ≤ i ∧ i < c.lead.length + c.padding := by
  have hback : paddingSymbol ∉ separator :: Digit.text c.tail := by
    rw [List.mem_cons, not_or]
    exact ⟨by decide, not_mem_text symbol_ne_paddingSymbol c.tail⟩
  have hiff := getElem?_eq_filling_iff (not_mem_text symbol_ne_paddingSymbol c.lead) hback
    c.padding i
  rwa [Digit.text, List.length_map] at hiff

theorem idxOf_separator {s : List Char} {c : Code} (h : ofText? s = some c) :
    s.idxOf separator = c.lead.length + c.padding := by
  obtain ⟨before, after, rfl, hreads⟩ := exists_reads h
  have hnot : separator ∉ before := by
    intro hmem
    have hmem := List.mem_map_of_mem (f := Char.toUpper) hmem
    rw [toUpper_eq_separator.2 rfl, hreads.before] at hmem
    exact separator_not_mem_before c hmem
  rw [List.idxOf_append_of_notMem hnot, List.idxOf_cons_self, hreads.length_before, Nat.add_zero]

theorem length_of_ofText? {s : List Char} {c : Code} (h : ofText? s = some c) :
    s.length = c.lead.length + c.padding + 1 + c.tail.length := by
  obtain ⟨before, after, rfl, hreads⟩ := exists_reads h
  rw [List.length_append, List.length_cons, hreads.length_before, hreads.length_after]
  omega

theorem paddingSymbol_not_mem_text {c : Code} (h : c.padding = 0) : paddingSymbol ∉ c.text := by
  intro hmem
  obtain ⟨i, hi⟩ := List.mem_iff_getElem?.1 hmem
  rw [getElem?_text_eq_paddingSymbol_iff] at hi
  omega

/-- A text without padding spells a code without padding. -/
theorem padding_of_not_mem {s : List Char} {c : Code} (h : ofText? s = some c)
    (hs : paddingSymbol ∉ s) : c.padding = 0 := by
  rw [ofText?_eq_some_iff, text] at h
  by_contra hne
  have hmem : paddingSymbol ∈ s.map Char.toUpper := by
    rw [h]
    exact List.mem_append_left _ (List.mem_append_right _ (List.mem_replicate.2 ⟨hne, rfl⟩))
  obtain ⟨x, hx, hupper⟩ := List.mem_map.1 hmem
  rw [toUpper_eq_paddingSymbol] at hupper
  exact hs (hupper ▸ hx)

theorem paddingSymbol_mem_iff {s : List Char} {c : Code} (h : ofText? s = some c) :
    paddingSymbol ∈ s ↔ c.padding ≠ 0 := by
  refine ⟨fun hmem hzero => ?_, fun hne => ?_⟩
  · refine paddingSymbol_not_mem_text hzero ?_
    rw [← map_toUpper_of_ofText? h]
    exact List.mem_map.2 ⟨_, hmem, toUpper_eq_paddingSymbol.2 rfl⟩
  · by_contra hmem
    exact hne (padding_of_not_mem h hmem)

/-! ## Codes that are not short -/

theorem length_lead_add_padding {c : Code} (hshort : c.isShort = false) :
    c.lead.length + c.padding = separatorPosition := by
  have hshape := c.shape
  simp only [isShort, decide_eq_false_iff_not] at hshort
  simp only [Shape] at hshape
  omega

/-- Eight digits stand before the separator, or all of them and padding for the rest. -/
theorem lead_and_padding {c : Code} (hshort : c.isShort = false) :
    c.lead.length = min separatorPosition c.digits.length ∧
      c.padding = separatorPosition - c.digits.length := by
  have hlead := length_lead_add_padding hshort
  have hshape := c.shape
  rw [digits, List.length_append]
  unfold Shape at hshape
  omega

/-- Padding ends right before the separator. -/
theorem paddingSymbol_mem_drop_text {c : Code} (hshort : c.isShort = false) (h : c.padding ≠ 0)
    {count : Nat} (hlt : count < separatorPosition) : paddingSymbol ∈ c.text.drop count := by
  have hlength := length_lead_add_padding hshort
  have hlast : c.text[count + (separatorPosition - 1 - count)]? = some paddingSymbol := by
    rw [getElem?_text_eq_paddingSymbol_iff]
    omega
  rw [← List.getElem?_drop] at hlast
  exact List.mem_of_getElem? hlast

/-- Digits around the separator, and padding before it for what eight digits lack. -/
def layout (symbols : List Char) : List Char :=
  symbols.take separatorPosition ++
    List.replicate (separatorPosition - symbols.length) paddingSymbol ++
    separator :: symbols.drop separatorPosition

theorem text_eq_layout {c : Code} (hshort : c.isShort = false) :
    c.text = layout (Digit.text c.digits) := by
  obtain ⟨hcount, hc⟩ := exists_eq_ofDigits hshort
  unfold layout
  conv => lhs; rw [hc]
  simp only [text, ofDigits, Digit.text, List.map_take, List.map_drop, List.length_map]

/-! ## Codes of locations -/

theorem isShort_ofLocation (l : Location) (requested : Nat) :
    (ofLocation l requested).isShort = false := by
  unfold ofLocation ofGridPoint
  exact isShort_ofDigits _

/-- A place holds the code that its location is given, since that can be read back. -/
theorem codeText_ofLocation (l : Location) :
    (Place.ofLocation l).codeText = (ofLocation l defaultDigits).text := by
  have hvalid : (kind (ofLocation l defaultDigits).text).isValid = true := by
    rw [kind_of_ofText? (ofText?_text _)]
  unfold Place.ofLocation
  exact if_pos hvalid

/--
Whatever the location and the number of digits asked for, the text of its code is valid, not
short, in upper case and has as many digits as it is given. Its only separator stands at the
ninth place, and padding at the places before it that digits leave free. So a place keeps its
location and never lacks the code of it.
-/
theorem text_ofLocation_layout (l : Location) (requested : Nat) :
    let text := (ofLocation l requested).text
    let count := effectiveDigits requested
    (kind text).isValid = true ∧ (kind text).isShort = false ∧ (kind text).digitCount = count ∧
      Text.upperCase text = text ∧
      (∀ i, text[i]? = some separator ↔ i = separatorPosition) ∧
      (∀ i, text[i]? = some paddingSymbol ↔ count ≤ i ∧ i < separatorPosition) ∧
      let place := Place.ofLocation l
      place.location = l ∧ place.codeText ≠ Place.notValid ∧
        place.codeText = (ofLocation l defaultDigits).text := by
  intro text count
  have hread : ofText? text = some (ofLocation l requested) := ofText?_text _
  have hshort := isShort_ofLocation l requested
  have hlength := length_digits_ofLocation l requested
  obtain ⟨hlead, hpadding⟩ := lead_and_padding hshort
  rw [hlength] at hlead hpadding
  rw [kind_of_ofText? hread]
  refine ⟨rfl, hshort, hlength, upperCase_of_ofText? hread, ?_, ?_, rfl, ?_, codeText_ofLocation l⟩
  · intro i
    rw [getElem?_text_eq_separator_iff, length_lead_add_padding hshort]
  · intro i
    rw [getElem?_text_eq_paddingSymbol_iff, hlead, hpadding]
    simp only [count]
    omega
  · intro heq
    have hnone : ofText? Place.notValid = none := by decide
    rw [codeText_ofLocation] at heq
    rw [← heq, ofText?_text] at hnone
    cases hnone

end OpenLocation.Code
