import OpenLocation.Proofs.Code.SpelledOut
import OpenLocation.Proofs.Json.Lawful
import OpenLocation.Proofs.Session.Held

/-!
# Codes in JSON

A code is read from a text that is a single string, with white space around it, and from nothing
else, for every codec that reads strings as JSON has them. Its own JSON is one. So what a session
holds is written and read back as itself, and nothing is read that was not checked
(`holding_json`).
-/

namespace OpenLocation

namespace Json

/-- The text is a single string that stands for the value, with white space around it. -/
def IsString (text value : List Char) : Prop :=
  ∃ before body after, text = before ++ '"' :: (body ++ '"' :: after) ∧ Blank before ∧
    Blank after ∧ Spelling value body

section

variable [Codec]

theorem readCode_of_isString (hreader : LawfulReader) {text value : List Char}
    (h : IsString text value) :
    readCode text = match Code.ofText? value with
      | some c => .ok c
      | none => .error .unexpected := by
  obtain ⟨before, body, after, htext, hbefore, hafter, hbody⟩ := h
  rw [readCode, (hreader.string text value after).2 ⟨before, body, hbefore, hbody, htext⟩]
  simp only [bind, Except.bind, (hreader.ending after).2 hafter, Code.read]
  cases Code.ofText? value with
  | none => exact congrArg Except.error (hreader.refusal _)
  | some c => rfl

/-- A code is read from nothing but a single string. -/
theorem readCode_eq_ok_iff (hreader : LawfulReader) {text : List Char} {c : Code} :
    readCode text = .ok c ↔ ∃ value, IsString text value ∧ Code.ofText? value = some c := by
  constructor
  · intro h
    unfold readCode Code.read at h
    cases hstring : Codec.readString text with
    | error fault =>
      rw [hstring] at h
      cases h
    | ok found =>
      obtain ⟨value, rest⟩ := found
      rw [hstring] at h
      simp only [bind, Except.bind] at h
      cases hc : Code.ofText? value with
      | none =>
        rw [hc] at h
        cases h
      | some d =>
        rw [hc] at h
        simp only [Except.mapError] at h
        cases hend : Codec.readEnd rest with
        | error fault =>
          rw [hend] at h
          cases h
        | ok _ =>
          rw [hend] at h
          obtain rfl := Except.ok.inj h
          obtain ⟨before, body, hbefore, hbody, htext⟩ := (hreader.string _ _ _).1 hstring
          exact ⟨value, ⟨before, body, rest, htext, hbefore, (hreader.ending rest).1 hend, hbody⟩,
            hc⟩
  · rintro ⟨value, hvalue, hc⟩
    rw [readCode_of_isString hreader hvalue, hc]

theorem isString_json (hwriter : LawfulWriter) (c : Code) : IsString c.json c.text := by
  obtain ⟨body, htext, hbody⟩ := hwriter.string c.text
  exact ⟨[], body, [], htext, blank_nil, blank_nil, hbody⟩

end

end Json

/-! ## Sessions -/

/--
The code that is held after any steps is written as a single string of its text, and read back
as itself. A code is read from JSON exactly if the text is a single string, however it is
spelled, of a valid code in letters of either case, and it is that code in upper case. A string
of anything else is JSON, but no code, and leaves a session as it is. So it is with every codec
that obeys the laws of strings.
-/
theorem holding_json [Json.Codec] (hwriter : Json.LawfulWriter) (hreader : Json.LawfulReader) :
    (∀ steps c, holding steps = some c →
      holdingText steps = some c.text ∧
      replies none (steps ++ [.ask .text]) = replies none steps ++ [.text c.text] ∧
      ∃ text, replies none (steps ++ [.ask .json]) = replies none steps ++ [.json text] ∧
        Json.IsString text c.text ∧ Json.readCode text = .ok c ∧
        holding (steps ++ [.take (.json text)]) = some c) ∧
    (∀ text c, Json.readCode text = .ok c ↔
      ∃ value, Json.IsString text value ∧ (Code.kind value).isValid = true ∧
        c.text = Text.upperCase value) ∧
    ∀ text value, Json.IsString text value → (Code.kind value).isValid = false →
      Json.readCode text = .error .unexpected ∧
        ∀ held, Step.run held (.take (.json text)) = (held, .failed (.fault .unexpected)) := by
  refine ⟨fun steps c hc => ?_, fun text c => ?_, fun text value htext hinvalid => ?_⟩
  · have hread : Json.readCode c.json = .ok c :=
      (Json.readCode_eq_ok_iff hreader).2
        ⟨c.text, Json.isString_json hwriter c, Code.ofText?_text c⟩
    have hheld : steps.foldl (fun held s => (s.run held).1) none = some c := hc
    refine ⟨?_, ?_, c.json, ?_, Json.isString_json hwriter c, hread, ?_⟩
    · rw [holdingText_eq, hc]
      rfl
    · rw [replies_append, hheld]
      rfl
    · rw [replies_append, hheld]
      rfl
    · rw [holding_append, Step.run, Source.code, hread]
      rfl
  · rw [Json.readCode_eq_ok_iff hreader]
    refine exists_congr fun value => and_congr_right fun _ => ?_
    rw [Code.isValid_iff]
    constructor
    · intro hc
      exact ⟨⟨c, hc⟩, (Code.upperCase_of_ofText? hc).symm⟩
    · rintro ⟨⟨d, hd⟩, htext⟩
      rw [Code.upperCase_of_ofText? hd] at htext
      rw [hd, Code.text_injective htext]
  · have hnone : Code.ofText? value = none := by
      cases hvalue : Code.ofText? value with
      | none => rfl
      | some c =>
        rw [Code.kind_of_ofText? hvalue] at hinvalid
        cases hinvalid
    have hread : Json.readCode text = .error .unexpected := by
      rw [Json.readCode_of_isString hreader htext, hnone]
    refine ⟨hread, fun held => ?_⟩
    rw [Step.run, Source.code, hread]
    rfl

/-- A code with escapes for a digit and the separator, and a character that takes two units. -/
theorem holding_json_escaped :
    let text := "\t\"\\u0032g\\u002B\" ".toList
    let face := "\"\\uD83D\\ude00\"".toList
    ∃ c, c.text = "2G+".toList ∧ Json.readCode text = .ok c ∧
      holding [.take (.json text)] = some c ∧
      (∃ written, replies none [.take (.json text), .ask .json] = [.code c, .json written] ∧
        Json.readCode written = .ok c) ∧
      Json.readCode face = .error .unexpected := by
  intro text face
  have hspelled : Json.Spelling ['2', 'g', '+']
      (['\\', 'u', '0', '0', '3', '2'] ++ (['g'] ++ (['\\', 'u', '0', '0', '2', 'B'] ++ []))) :=
    .cons (.unit (.number (by decide) (by decide)))
      (.cons (.itself (by decide) (by decide) (by decide))
        (.cons (.unit (.number (by decide) (by decide))) .nil))
  have htext : Json.IsString text ['2', 'g', '+'] :=
    ⟨['\t'], _, [' '], rfl, by decide, by decide, hspelled⟩
  have hpair : Json.Spelling [.ofNat 0x1F600]
      (['\\', 'u', 'D', '8', '3', 'D'] ++ ['\\', 'u', 'd', 'e', '0', '0'] ++ []) :=
    .cons (.pair (by decide) (.number (by decide) (by decide))
      (.number (by decide) (by decide))) .nil
  have hface : Json.IsString face [.ofNat 0x1F600] :=
    ⟨[], _, [], rfl, by decide, by decide, hpair⟩
  have hvalid : (Code.kind ['2', 'g', '+']).isValid = true := by decide
  obtain ⟨c, hc⟩ := Code.isValid_iff.1 hvalid
  have hupper : c.text = Text.upperCase ['2', 'g', '+'] := (Code.upperCase_of_ofText? hc).symm
  obtain ⟨hwritten, hread, hinvalid⟩ :=
    holding_json Json.compact_lawfulWriter Json.compact_lawfulReader
  have hcode := (hread text c).2 ⟨_, htext, hvalid, hupper⟩
  have hheld : holding [.take (.json text)] = some c := by
    rw [holding, List.foldl_cons, List.foldl_nil, Step.run, Source.code, hcode]
    rfl
  obtain ⟨-, -, written, hreplies, -, hback, -⟩ := hwritten [.take (.json text)] c hheld
  refine ⟨c, hupper.trans (by decide +kernel), hcode, hheld, ⟨written, ?_, hback⟩,
    (hinvalid face _ hface (by decide)).1⟩
  refine Eq.trans hreplies ?_
  rw [replies, replies, Step.run, Source.code, hcode]
  rfl

end OpenLocation
