import OpenLocation.Proofs.Checked.Decoding
import OpenLocation.Proofs.Checked.Encoding
import OpenLocation.Proofs.Code.RoundTrip
import OpenLocation.Session

/-!
# Shortening and recovery without failing

A text loses bytes from its start only after it was found to be full, and digits are put before
a text only after it was found to be short, so the separator stands before the ninth place. With
what is known of classifying, reading and writing, each function on texts and locations gives
its result whatever it is asked (`results_eq_some`).
-/

namespace OpenLocation.Checked

open Binary64 Code
open Json (byteCount)

/-! ## Shortening -/

/-- Cuts off the first of some numbers of bytes for which a code is near enough. -/
def removeLead (text : List Char) (digits : Nat) (distance : Binary64) :
    List Nat → Option (List Char)
  | [] => some text
  | count :: rest =>
    if digits ≤ count then removeLead text digits distance rest
    else do
      if distance < (← precision count) * 0.3 then dropBytes text count
      else removeLead text digits distance rest

def shorten (text : List Char) (reference : Location) : Option (List Char) := do
  if !(← isFull text) then some text
  else if paddingSymbol ∈ text then some text
  else do
    let digits ← codeLength text
    let center := (← decodeDigits text).center
    let latitude ← adjustLatitude reference.latitude digits
    removeLead text digits (offset center latitude (wrapLongitude reference.longitude)) [8, 6, 4]

theorem removeLead_eq {text : List Char} (hascii : ∀ c ∈ text, c.utf8Size = 1) {digits : Nat}
    (hdigits : digits ≤ text.length) (distance : Binary64) (counts : List Nat) :
    removeLead text digits distance counts =
      some (text.drop ((counts.find? fun count =>
        count < digits ∧ distance < OpenLocation.precision count * 0.3).getD 0)) := by
  induction counts with
  | nil => rfl
  | cons count rest ih =>
    rw [removeLead, List.find?_cons]
    by_cases hcount : digits ≤ count
    · have hnot : ¬ (count < digits ∧ distance < OpenLocation.precision count * 0.3) :=
        fun h => absurd h.1 (Nat.not_lt_of_le hcount)
      rw [if_pos hcount, ih, decide_eq_false hnot]
    · have hlt := Nat.lt_of_not_le hcount
      rw [if_neg hcount, precision_eq, Option.bind_eq_bind, Option.bind_some]
      by_cases hnear : distance < OpenLocation.precision count * 0.3
      · rw [if_pos hnear, dropBytes_eq_drop hascii (hlt.le.trans hdigits),
          decide_eq_true ⟨hlt, hnear⟩]
        rfl
      · rw [if_neg hnear, ih, decide_eq_false fun h => hnear h.2]

theorem shorten_eq (text : List Char) (reference : Location) :
    shorten text reference = some (shortenText text reference) := by
  unfold shorten
  simp only [Option.bind_eq_bind]
  rw [isFull_eq, Option.bind_some, shortenText]
  cases hc : Code.ofText? text with
  | none =>
    rw [kind_of_eq_none hc]
    rfl
  | some c =>
    rw [kind_of_ofText? hc]
    dsimp only
    rw [removable]
    by_cases hfull : c.isFull = true
    · rw [hfull, Bool.not_true, if_neg Bool.false_ne_true]
      by_cases hpadding : c.padding = 0
      · have hdigits : c.digits.length ≤ text.length := by
          rw [length_of_ofText? hc, Code.digits, List.length_append]
          omega
        rw [if_neg fun hmem => (paddingSymbol_mem_iff hc).1 hmem hpadding, if_pos ⟨rfl, hpadding⟩,
          codeLength_eq, Option.bind_some, kind_of_ofText? hc,
          decodeDigits_eq hc (isShort_of_isFull hfull), Option.bind_some, adjustLatitude_eq,
          Option.bind_some, removeLead_eq (utf8Size_of_ofText? hc) hdigits]
      · rw [if_pos ((paddingSymbol_mem_iff hc).2 hpadding), if_neg fun h => hpadding h.2,
          List.drop_zero]
    · rw [Bool.eq_false_iff.2 hfull]
      rfl

/-! ## Recovery -/

/-- Recovers a code whose separator stands at an offset before the ninth place. -/
def recoverAt (text : List Char) (place : Nat) (reference : Location) : Option (List Char) := do
  let digits ← codeLength text
  let latitude ← adjustLatitude reference.latitude digits
  let longitude := wrapLongitude reference.longitude
  let missing ← subCount separatorPosition place
  let cell := OpenLocation.precision missing
  let here ← encode ⟨latitude, longitude⟩ defaultDigits
  let center := (← decodeDigits ((← takeBytes here missing) ++ text)).center
  let moved : Location :=
    { latitude := approach center.latitude latitude cell
        (-90 < center.latitude - cell) (center.latitude + cell < 90)
      longitude := approach center.longitude longitude cell true true }
  encode moved (← addCount digits missing)

def recover (text : List Char) (reference : Location) : Option (List Char) := do
  if !(← isShort text) then some (Text.upperCase text)
  else
    match findByte separator text with
    | none => some (Text.upperCase text)
    | some place => recoverAt text place reference

/-- Leading digits of a code without padding make a short text one that is not short. -/
theorem exists_filled {text : List Char} {c here : Code} (hc : Code.ofText? text = some c)
    (hshort : c.isShort = true) (hhere : here.isShort = false) (hpadding : here.padding = 0) :
    ∃ d, Code.ofText? (here.text.take c.missing ++ text) = some d ∧ d.isShort = false ∧
      d.digits = here.digits.take c.missing ++ c.digits := by
  have hlead := length_lead hhere hpadding
  have hnone := padding_of_isShort hshort
  have hmissing : c.missing ≤ here.lead.length := hlead ▸ Nat.sub_le _ _
  have hbefore : (here.lead.take c.missing ++ c.lead).length = separatorPosition := by
    simp only [Code.isShort, decide_eq_true_iff] at hshort
    rw [List.length_append, List.length_take, Nat.min_eq_left hmissing, Code.missing]
    omega
  have hshape : Shape (here.lead.take c.missing ++ c.lead).length 0 c.tail.length := by
    have hshape := c.shape
    rw [Shape, hbefore]
    simp only [Shape] at hshape
    exact ⟨rfl, Or.inl ⟨rfl, Nat.le_refl _, by omega, Nat.lt_add_right _ (by decide)⟩⟩
  have hfront : here.text.take c.missing = Digit.text (here.lead.take c.missing) := by
    have hsymbols : c.missing ≤ (Digit.text here.lead).length := by
      simpa [Digit.text] using hmissing
    rw [Code.text, List.append_assoc, List.take_append_of_le_length hsymbols, Digit.text,
      Digit.text, List.map_take]
  have hupper : (Digit.text (here.lead.take c.missing)).map Char.toUpper =
      Digit.text (here.lead.take c.missing) := by
    simp [Digit.text, Function.comp_def, Digit.toUpper_symbol]
  refine ⟨⟨_, 0, c.tail, hshape⟩, ?_, ?_, ?_⟩
  · rw [ofText?_eq_some_iff, List.map_append, map_toUpper_of_ofText? hc, hfront, hupper]
    simp [Code.text, hnone, Digit.text_append]
  · rw [Code.isShort, decide_eq_false_iff_not, hbefore]
    omega
  · rw [Code.digits, Code.digits, Code.digits, List.take_append_of_le_length hmissing,
      List.append_assoc]

theorem padding_ofLocation_default (l : Location) :
    (Code.ofLocation l defaultDigits).padding = 0 := by
  have hdigits : (Code.ofLocation l defaultDigits).digits.length = 10 :=
    length_digits_ofLocation l defaultDigits
  rw [(lead_and_padding (isShort_ofLocation l defaultDigits)).2, hdigits]
  rfl

theorem recoverAt_eq {text : List Char} (hlen : byteCount text < 2 ^ 63) {c : Code}
    (hc : Code.ofText? text = some c) (hshort : c.isShort = true) (reference : Location) :
    recoverAt text c.lead.length reference = some (c.nearest reference).text := by
  let here := Code.ofLocation ⟨OpenLocation.adjustLatitude reference.latitude c.digits.length,
    wrapLongitude reference.longitude⟩ defaultDigits
  have hhere : here.isShort = false := isShort_ofLocation _ _
  have hpadding : here.padding = 0 := padding_ofLocation_default _
  have hlead : c.lead.length ≤ separatorPosition := by
    simp only [Code.isShort, decide_eq_true_iff] at hshort
    omega
  have hdigits : c.digits.length + c.missing < 2 ^ 64 := by
    have hbytes := length_le_byteCount text
    rw [length_of_ofText? hc] at hbytes
    rw [Code.digits, List.length_append, Code.missing, separatorPosition]
    omega
  have hmissing : c.missing ≤ here.text.length := by
    rw [length_of_ofText? (ofText?_text here), length_lead hhere hpadding, Code.missing]
    omega
  have htake := takeBytes_eq_take (utf8Size_of_ofText? (ofText?_text here)) hmissing
  -- The candidate need not lie on the globe: it is decoded for its digits alone.
  obtain ⟨d, hd, hdshort, hddigits⟩ := exists_filled hc hshort hhere hpadding
  rw [Code.missing] at htake hd hddigits hdigits
  unfold recoverAt
  simp only [Option.bind_eq_bind]
  rw [codeLength_eq, Option.bind_some, kind_of_ofText? hc, adjustLatitude_eq, Option.bind_some,
    subCount_eq_some hlead, Option.bind_some, encode_eq, Option.bind_some, htake, Option.bind_some,
    decodeDigits_eq hd hdshort, Option.bind_some, addCount_eq_some hdigits, Option.bind_some,
    encode_eq, hddigits]
  rfl

theorem recover_eq {text : List Char} (hlen : byteCount text < 2 ^ 63) (reference : Location) :
    recover text reference = some (recoverText text reference) := by
  unfold recover recoverText
  simp only [Option.bind_eq_bind]
  rw [isShort_eq, Option.bind_some]
  cases hc : Code.ofText? text with
  | none =>
    rw [kind_of_eq_none hc]
    rfl
  | some c =>
    rw [kind_of_ofText? hc]
    dsimp only
    rw [Code.recover]
    cases hshort : c.isShort with
    | false =>
      rw [upperCase_of_ofText? hc]
      rfl
    | true =>
      have hplace : findByte separator text = some c.lead.length := by
        obtain ⟨before, after, rfl, hreads⟩ := exists_reads hc
        have hlength := hreads.length_before
        rw [padding_of_isShort hshort, Nat.add_zero] at hlength
        rw [findByte_append (separator_not_mem_of_grammar hreads.grammar).1, byteCount_of_ascii
          fun x hx => utf8Size_of_ofText? hc x (List.mem_append_left _ hx), hlength]
      rw [hplace, Bool.not_true, if_neg Bool.false_ne_true, if_pos rfl]
      exact recoverAt_eq hlen hc hshort reference

/-! ## Parsing -/

/-- The upper case of a text that is a code. -/
def parse (text : List Char) : Option (Except Error (List Char)) := do
  if !(← isValid text) then some (.error (.invalidCode text))
  else some (.ok (Text.upperCase text))

theorem parse_eq (text : List Char) : parse text = some ((Code.read text).map Code.text) := by
  unfold parse Code.read
  rw [isValid_eq, Option.bind_eq_bind, Option.bind_some]
  cases hc : Code.ofText? text with
  | none =>
    rw [kind_of_eq_none hc]
    rfl
  | some c =>
    rw [kind_of_ofText? hc, upperCase_of_ofText? hc]
    rfl

/--
No operation fails, whatever the text, the locations and the number of digits: with every one of
them checked, all functions give the results that they have. Wrapping a longitude has no
operation that could fail. A text in memory has less than 2 ^ 63 bytes; only the number of digits
that a recovered code is given needs that.
-/
theorem results_eq_some (s : List Char) (hlen : byteCount s < 2 ^ 63) (l r : Location)
    (count : Nat) :
    isValid s = some (kind s).isValid ∧ isShort s = some (kind s).isShort ∧
      isFull s = some (kind s).isFull ∧ codeLength s = some (kind s).digitCount ∧
      cleanCode s = some (significant s) ∧ decode s = some (areaOfText s) ∧
      parse s = some ((Code.read s).map Code.text) ∧
      shorten s r = some (shortenText s r) ∧ recover s r = some (recoverText s r) ∧
      encode l count = some (Code.ofLocation l count).text ∧
      precision count = some (OpenLocation.precision count) ∧
      adjustLatitude l.latitude count =
        some (OpenLocation.adjustLatitude l.latitude count) := by
  refine ⟨isValid_eq s, isShort_eq s, isFull_eq s, codeLength_eq s, cleanCode_eq s, decode_eq s,
    parse_eq s, shorten_eq s r, recover_eq hlen r, encode_eq l count, precision_eq count, ?_⟩
  exact adjustLatitude_eq l.latitude count

/-- Padding behind a character of three bytes is cut off at its fourth byte. -/
theorem results_eq_some_multibyte :
    byteCount "€0€+".toList < 2 ^ 63 ∧ cleanCode "€0€+".toList = some "€".toList ∧
      isFull "€0€+".toList = some false ∧
      shorten "€0€+".toList ⟨.nan, .infinity false⟩ = some "€0€+".toList ∧
      encode ⟨.nan, .infinity true⟩ (2 ^ 64 - 1) = some "22222222+2222222".toList := by
  have hlen : byteCount "€0€+".toList < 2 ^ 63 := by decide
  obtain ⟨-, -, hfull, -, hclean, -, -, hshorten, -, hencode, -⟩ :=
    results_eq_some "€0€+".toList hlen ⟨.nan, .infinity true⟩ ⟨.nan, .infinity false⟩ (2 ^ 64 - 1)
  have hcode : (Code.ofLocation ⟨.nan, .infinity true⟩ (2 ^ 64 - 1)).text =
      "22222222+2222222".toList := by decide +kernel
  rw [hcode] at hencode
  exact ⟨hlen, hclean, hfull, hshorten, hencode⟩

end OpenLocation.Checked
