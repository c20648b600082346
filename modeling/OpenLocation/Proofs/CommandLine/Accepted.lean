import OpenLocation.Proofs.Code.Fullness
import OpenLocation.Proofs.Code.Shortened
import OpenLocation.Proofs.Code.SpelledOut
import OpenLocation.Proofs.CommandLine.Lawful

/-!
# What the program prints it also takes

The codes that are printed by one command are arguments for the next one. They begin like no
option (`head?_ne_dash`), and one with all its places is no number, so none is taken for the value
of an option (`double?_eq_none`). What encoding prints is valid, what shortening prints can be
recovered near the same reference, and what recovery prints is valid and not short, for
every lawful reader of arguments (`printed_accepted`).
-/

namespace OpenLocation

open Code

/-! ## Codes as arguments -/

theorem Code.separator_mem {s : List Char} {c : Code} (h : ofText? s = some c) : separator ∈ s := by
  obtain ⟨before, after, rfl, -⟩ := exists_reads h
  exact List.mem_append_right _ List.mem_cons_self

theorem Code.isSymbol_toUpper {s : List Char} {c : Code} (h : ofText? s = some c) {x : Char}
    (hx : x ∈ s) : IsSymbol x.toUpper := by
  have hmem := List.mem_map_of_mem (f := Char.toUpper) hx
  rw [map_toUpper_of_ofText? h] at hmem
  exact isSymbol_of_mem_text hmem

theorem Code.head?_ne_dash {s : List Char} {c : Code} (h : ofText? s = some c) :
    s.head? ≠ some '-' := by
  intro hhead
  have hsymbol := isSymbol_toUpper h (List.mem_of_head? hhead)
  revert hsymbol
  decide

namespace Decimal

/-- The digits in front of a code are neither all of it nor followed by a point or an exponent. -/
theorem unsigned?_eq_none {s : List Char} {c : Code} (h : ofText? s = some c) :
    unsigned? s = none := by
  have hseparator : separator ∈ s.dropWhile Char.isDigit := by
    have hmem := separator_mem h
    rw [← List.takeWhile_append_dropWhile (p := Char.isDigit) (l := s), List.mem_append] at hmem
    refine hmem.resolve_left fun hdigits => ?_
    have hdigit := List.mem_takeWhile_imp hdigits
    revert hdigit
    decide
  have hmark : ∀ x ∈ s.dropWhile Char.isDigit, x ≠ '.' ∧ x ≠ 'e' ∧ x ≠ 'E' := by
    intro x hx
    have hsymbol := isSymbol_toUpper h ((List.dropWhile_sublist _).subset hx)
    refine ⟨?_, ?_, ?_⟩ <;> rintro rfl <;> revert hsymbol <;> decide
  unfold unsigned? splitDigits
  cases hdrop : s.dropWhile Char.isDigit with
  | nil =>
    rw [hdrop] at hseparator
    cases hseparator
  | cons mark rest =>
    obtain ⟨hpoint, hlower, hupper⟩ := hmark mark (by rw [hdrop]; exact List.mem_cons_self)
    have hfraction : splitFraction (mark :: rest) = ([], mark :: rest) := by
      unfold splitFraction
      split
      · next heq => exact absurd (List.cons.inj heq).1 hpoint
      · rfl
    simp only [hfraction, if_neg (not_or.2 ⟨hlower, hupper⟩), ite_self]

/-- A word for what is not finite has no separator. -/
theorem special?_eq_none {s : List Char} (negative : Bool) (h : separator ∈ s) :
    special? negative s = none := by
  have hword {word : List Char} (hnot : separator ∉ word) : s.map Char.toLower ≠ word := by
    rintro rfl
    exact hnot (List.mem_map.2 ⟨separator, h, by decide⟩)
  unfold special?
  dsimp only
  rw [if_neg (hword (by decide)), if_neg (not_or.2 ⟨hword (by decide), hword (by decide)⟩)]

/--
A code with all its places is no number. A short one can be one, as its separator may be taken
for a sign.
-/
theorem double?_eq_none {s : List Char} {c : Code} (h : ofText? s = some c)
    (hshort : c.isShort = false) : double? s = none := by
  have hindex := idxOf_separator h
  rw [length_lead_add_padding hshort] at hindex
  have hsign : splitSign s = (false, s) := by
    unfold splitSign
    split
    · exact absurd rfl (head?_ne_dash h)
    · rw [show '+' = separator from rfl, List.idxOf_cons_self] at hindex
      cases hindex
    · rfl
  unfold double?
  rw [hsign]
  dsimp only
  rw [unsigned?_eq_none h]
  exact special?_eq_none false (separator_mem h)

end Decimal

/-! ## Commands -/

/-- A code that can be shortened can be exchanged for one to recover, with the same options. -/
theorem Arguments.Lawful.recover_of_shorten [Arguments.Reader] (hreader : Arguments.Lawful)
    {switches before after : List (List Char)} {x y : List Char} {c d : Code} {r : Location}
    (hswitches : ∀ w ∈ switches, IsVerbose w) (hx : ofText? x = some c)
    (hshort : c.isShort = false) (hy : ofText? y = some d)
    (h : Reader.read (switches ++ "shorten".toList :: (before ++ x :: after)) =
      .ok (.command (.shorten x r))) :
    Reader.read (switches ++ "recover".toList :: (before ++ y :: after)) =
      .ok (.command (.recover y r)) :=
  hreader.exchange hswitches (head?_ne_dash hx) (Decimal.double?_eq_none hx hshort)
    (head?_ne_dash hy) (hreader.recover hswitches h)

namespace Outcome

section

variable [Arguments.Reader] [Polygons] [Json.Codec]

theorem ofArguments_of_command {arguments : List (List Char)} {c : Command} {text : List Char}
    (h : Arguments.Reader.read arguments = .ok (.command c)) :
    ofArguments arguments = .printed text ↔ c.output = .ok text := by
  rw [ofArguments, h]
  dsimp only
  cases c.output with
  | ok printed => simp
  | error e => simp

/-- What is printed about a code. -/
theorem validate (hreader : Arguments.Lawful) {s : List Char} {c : Code} (h : ofText? s = some c) :
    ofArguments ["validate".toList, s] = printed
      ("valid: true\nshort: ".toList ++ boolText c.isShort ++ "\nfull: ".toList ++
        boolText c.isFull ++ "\nlength: ".toList ++ Nat.toDigits 10 c.digits.length) := by
  rw [ofArguments_of_command (hreader.validate (head?_ne_dash h)), Command.output,
    kind_of_ofText? h]
  rfl

/-- What is printed about a code that is not short. -/
theorem validate_text (hreader : Arguments.Lawful) {c : Code} (hshort : c.isShort = false) :
    ofArguments ["validate".toList, c.text] = printed
      ("valid: true\nshort: false\nfull: ".toList ++ boolText (kind c.text).isFull ++
        "\nlength: ".toList ++ Nat.toDigits 10 c.digits.length) := by
  rw [validate hreader (ofText?_text c), hshort, kind_of_ofText? (ofText?_text c)]
  rfl

/-- A request that is read ends with an answer alone, or with an error alone. -/
theorem printed_or_failed {arguments : List (List Char)} {request : Request}
    (h : Arguments.Reader.read arguments = .ok request) :
    let outcome := ofArguments arguments
    outcome.exitCode = 0 ∧ outcome.errorLine = [] ∧
        (∃ text, outcome = printed text ∧ outcome.output = text ++ ['\n']) ∨
      outcome.exitCode = 1 ∧ outcome.output = [] ∧
        ∃ e : Error, outcome.errorLine = "error: ".toList ++ e.message := by
  unfold ofArguments
  rw [h]
  cases request with
  | about text => exact Or.inl ⟨rfl, rfl, text, rfl, rfl⟩
  | command c =>
    dsimp only
    cases c.output with
    | ok text => exact Or.inl ⟨rfl, rfl, text, rfl, rfl⟩
    | error e => exact Or.inr ⟨rfl, rfl, e, rfl⟩

/--
With any lawful reader of arguments, encoding takes all texts of numbers. For any arguments it
prints a valid code that is not short and has as many digits as are asked for, brought to a number
that codes have. What a full code is shortened to can be recovered with the same options, and it
is valid. What recovery prints is valid and not short. No request ends with both an answer and an
error.
-/
theorem printed_accepted (hreader : Arguments.Lawful) :
    let report (line : List Char) (length : Nat) :=
      "valid: true\nshort: false\nfull: ".toList ++ boolText (kind line).isFull ++
        "\nlength: ".toList ++ Nat.toDigits 10 length
    (∀ latitude longitude length x y n, Decimal.double? latitude = some x →
      Decimal.double? longitude = some y → Decimal.count? length = some n →
        ∃ line, ofArguments ["encode".toList, "--lat=".toList ++ latitude,
            "--lng=".toList ++ longitude, "--length=".toList ++ length] = printed line ∧
          ofArguments ["validate".toList, line] = printed (report line (effectiveDigits n))) ∧
    (∀ arguments l n, Arguments.Reader.read arguments = .ok (.command (.encode l n)) →
      ∃ line, ofArguments arguments = printed line ∧
        ofArguments ["validate".toList, line] = printed (report line (effectiveDigits n))) ∧
    (∀ switches before after code r s, (∀ w ∈ switches, Arguments.IsVerbose w) →
      Arguments.Reader.read (switches ++ "shorten".toList :: (before ++ code :: after)) =
        .ok (.command (.shorten code r)) →
      ofArguments (switches ++ "shorten".toList :: (before ++ code :: after)) = printed s →
        ofArguments (switches ++ "recover".toList :: (before ++ s :: after)) =
          printed (recoverText s r) ∧
        (ofArguments ["validate".toList, s]).exitCode = 0) ∧
    (∀ arguments code r line, Arguments.Reader.read arguments = .ok (.command (.recover code r)) →
      ofArguments arguments = printed line →
        ofArguments ["validate".toList, line] = printed (report line (kind line).digitCount)) ∧
    ∀ arguments request, Arguments.Reader.read arguments = .ok request →
      let outcome := ofArguments arguments
      outcome.exitCode = 0 ∧ outcome.errorLine = [] ∧
          (∃ text, outcome = printed text ∧ outcome.output = text ++ ['\n']) ∨
        outcome.exitCode = 1 ∧ outcome.output = [] ∧
          ∃ e : Error, outcome.errorLine = "error: ".toList ++ e.message := by
  intro report
  have hencode (arguments : List (List Char)) (l : Location) (n : Nat)
      (h : Arguments.Reader.read arguments = .ok (.command (.encode l n))) :
      ∃ line, ofArguments arguments = printed line ∧
        ofArguments ["validate".toList, line] = printed (report line (effectiveDigits n)) := by
    refine ⟨_, (ofArguments_of_command h).2 rfl, ?_⟩
    rw [← length_digits_ofLocation l n]
    exact validate_text hreader (isShort_ofLocation l n)
  refine ⟨fun _ _ _ _ _ _ hx hy hn => hencode _ _ _ (hreader.encode hx hy hn), hencode,
    fun switches before after code r s hswitches h hprinted => ?_,
    fun arguments code r line h hprinted => ?_, fun _ _ => printed_or_failed⟩
  · rw [ofArguments_of_command h, Command.output] at hprinted
    split at hprinted
    · next hfull =>
      obtain rfl := Except.ok.inj hprinted
      obtain ⟨c, hc, hcfull⟩ := exists_isFull hfull
      have hvalid := (shortenText_shape code r).2.1
      rw [kind_of_ofText? hc] at hvalid
      obtain ⟨d, hd⟩ := Option.isSome_iff_exists.1 hvalid
      refine ⟨?_, by rw [validate hreader hd]; rfl⟩
      rw [ofArguments_of_command
        (hreader.recover_of_shorten hswitches hc (isShort_of_isFull hcfull) hd h),
        Command.output, if_pos hvalid]
    · cases hprinted
  · rw [ofArguments_of_command h, Command.output] at hprinted
    split at hprinted
    · next hvalid =>
      obtain ⟨c, hc⟩ := Option.isSome_iff_exists.1 hvalid
      have hline : recoverText code r = line := Except.ok.inj hprinted
      rw [recoverText, hc] at hline
      obtain rfl := hline
      rw [kind_of_ofText? (ofText?_text (c.recover r))]
      exact validate_text hreader (isShort_recover c r)
    · cases hprinted

end

/-- Latitude and longitude that are no numbers, and a code between its options. -/
theorem printed_accepted_between :
    ofArguments ["encode".toList, "--lat=NaN".toList, "--lng=-1e400".toList,
      "--length=+7".toList] = printed "22222222+".toList ∧
    ofArguments ["validate".toList, "22222222+".toList] =
      printed "valid: true\nshort: false\nfull: true\nlength: 8".toList ∧
    ofArguments ["-v".toList, "recover".toList, "--lat".toList, "51.36".toList,
      "9qcj+2vx".toList, "--lng=-1.2".toList] = printed "9C3W9QCJ+2VX".toList ∧
    (ofArguments ["validate".toList, "9qcj+2vx".toList]).exitCode = 0 ∧
    ofArguments ["validate".toList, "9C3W9QCJ+2VX".toList] =
      printed "valid: true\nshort: false\nfull: true\nlength: 11".toList ∧
    (ofArguments ["validate".toList, "9QCJ".toList]).output = [] := by
  obtain ⟨hencode, -, hshorten, hrecover, hended⟩ := printed_accepted Arguments.plain_lawful
  obtain ⟨hprinted, hrequest, hprinted', hrequest', hprinted'', hcode, hlat, hlng, hcount⟩ :
      ofArguments ["encode".toList, "--lat=NaN".toList, "--lng=-1e400".toList,
          "--length=+7".toList] = printed "22222222+".toList ∧
      Arguments.Reader.read ["-v".toList, "shorten".toList, "--lat".toList, "51.36".toList,
          "9c3w9qcj+2vx".toList, "--lng=-1.2".toList] =
        .ok (.command (.shorten "9c3w9qcj+2vx".toList ⟨51.36, -1.2⟩)) ∧
      ofArguments ["-v".toList, "shorten".toList, "--lat".toList, "51.36".toList,
          "9c3w9qcj+2vx".toList, "--lng=-1.2".toList] = printed "9qcj+2vx".toList ∧
      Arguments.Reader.read ["recover".toList, "9QCJ+2VX".toList, "--lat=51.37".toList,
          "--lng=-1.2".toList] =
        .ok (.command (.recover "9QCJ+2VX".toList ⟨51.37, -1.2⟩)) ∧
      ofArguments ["recover".toList, "9QCJ+2VX".toList, "--lat=51.37".toList,
          "--lng=-1.2".toList] = printed "9C3W9QCJ+2VX".toList ∧
      (ofArguments ["validate".toList, "9QCJ".toList]).exitCode = 1 ∧
      Decimal.double? "NaN".toList = some .nan ∧
      Decimal.double? "-1e400".toList = some (.infinity true) ∧
      Decimal.count? "+7".toList = some 7 := by decide +kernel
  have hverbose : ∀ w ∈ ["-v".toList], Arguments.IsVerbose w :=
    List.forall_mem_singleton.2 (Or.inr ⟨0, rfl⟩)
  obtain ⟨line, hline, hvalidated⟩ := hencode _ _ _ _ _ _ hlat hlng hcount
  obtain rfl : line = "22222222+".toList := Outcome.printed.inj (hline.symm.trans hprinted)
  obtain ⟨hrecovered, hvalid⟩ := hshorten ["-v".toList] ["--lat".toList, "51.36".toList]
    ["--lng=-1.2".toList] _ _ _ hverbose hrequest hprinted'
  have hlast := hrecover _ _ _ _ hrequest' hprinted''
  refine ⟨hprinted, hvalidated.trans (by decide +kernel), hrecovered.trans (by decide +kernel),
    hvalid, hlast.trans (by decide +kernel), ?_⟩
  rcases hended ["validate".toList, "9QCJ".toList] _ rfl with ⟨hzero, -⟩ | ⟨-, hempty, -⟩
  · rw [hcode] at hzero
    cases hzero
  · exact hempty

end Outcome

end OpenLocation
