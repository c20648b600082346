import OpenLocation.Proofs.Code.RoundTrip
import OpenLocation.Session

/-!
# What a session holds

A session could as well hold plain text: parsed text in upper case, the text of a location,
what is left of a text after the removed characters, what is recovered from it. Nothing but
what is parsed is checked then. Step by step that session spells the codes of the one
that holds codes (`Step.runText_text`), so after all steps it holds a text that is valid, in
upper case and reads back as the code (`holding_spells`).
-/

namespace OpenLocation

/-! ## Codes and their texts -/

namespace Code

theorem upperCase_text (c : Code) : Text.upperCase c.text = c.text :=
  upperCase_of_ofText? (ofText?_text c)

theorem read_text (c : Code) : read c.text = .ok c := by rw [read, ofText?_text]

theorem isValid_iff {s : List Char} : (kind s).isValid = true ↔ ∃ c, ofText? s = some c := by
  rw [kind, Option.isSome_iff_exists]

theorem recoverText_text (c : Code) (r : Location) : recoverText c.text r = (c.recover r).text := by
  rw [recoverText, ofText?_text]

theorem areaOfText_text (c : Code) : areaOfText c.text = c.area := by
  rw [areaOfText, ofText?_text, area]

end Code

def Move.applyText (text : List Char) : Move → Except Error (List Char)
  | shorten reference => .ok (Code.shortenText text reference)
  | recover reference => .ok (Code.recoverText text reference)
  | recenter requested =>
    (Code.areaOfText text).map fun a => (Code.ofLocation a.center requested).text

/-- A move from the text of a code leads to the text of the next one, or fails in the same way. -/
theorem Move.applyText_text (m : Move) (c : Code) :
    m.applyText c.text = (m.apply c).map Code.text := by
  cases m with
  | shorten reference => rw [applyText, apply, Code.shortenText_text]; rfl
  | recover reference => rw [applyText, apply, Code.recoverText_text]; rfl
  | recenter requested =>
    rw [applyText, apply, Code.areaOfText_text]
    cases c.area <;> rfl

section

variable [Json.Codec]

/-! ## Sessions of texts -/

/-- The string in JSON text, in upper case, if it is a code. -/
def Json.readSpelling (text : List Char) : Except Fault (List Char) := do
  let (value, rest) ← Codec.readString text
  if (Code.kind value).isValid then
    Codec.readEnd rest
    return Text.upperCase value
  else throw (Codec.refusal (.invalidCode value))

def Source.spelling : Source → Except Failure (List Char)
  | text spelled =>
    if (Code.kind spelled).isValid then .ok (Text.upperCase spelled)
    else .error (.error (.invalidCode spelled))
  | json source => (Json.readSpelling source).mapError .fault
  | location place requested => .ok (Code.ofLocation place requested).text

/-- The text held after a step. -/
def Step.runText (held : Option (List Char)) : Step → Option (List Char)
  | take source => source.spelling.toOption.or held
  | move m => held.map fun text => (m.applyText text).toOption.getD text
  | ask _ => held

/-- The text held after steps that start without one. -/
def holdingText (steps : List Step) : Option (List Char) := steps.foldl Step.runText none

/-- The code held after steps that start without one. -/
def holding (steps : List Step) : Option Code :=
  steps.foldl (fun held s => (s.run held).1) none

/-! ## Texts spell the codes -/

theorem Json.readSpelling_eq (text : List Char) :
    Json.readSpelling text = (Json.readCode text).map Code.text := by
  unfold readSpelling readCode Code.read
  cases Codec.readString text with
  | error fault => rfl
  | ok found =>
    obtain ⟨value, rest⟩ := found
    simp only [bind, Except.bind]
    cases hc : Code.ofText? value with
    | none =>
      rw [Code.kind, hc]
      rfl
    | some c =>
      rw [Code.kind_of_ofText? hc, Code.upperCase_of_ofText? hc]
      simp only [Except.mapError]
      cases Codec.readEnd rest <;> rfl

/-- A source spells the code that is taken from it, or fails in the same way. -/
theorem Source.spelling_eq (source : Source) : source.spelling = source.code.map Code.text := by
  cases source with
  | text spelled =>
    rw [spelling, code, Code.read]
    cases hc : Code.ofText? spelled with
    | none => simp [Code.kind, hc, Except.map, Except.mapError]
    | some c =>
      rw [Code.kind_of_ofText? hc, Code.upperCase_of_ofText? hc]
      rfl
  | json source =>
    rw [spelling, code, Json.readSpelling_eq]
    cases Json.readCode source <;> rfl
  | location place requested => rfl

/-- A step keeps the text that of the code. -/
theorem Step.runText_text (s : Step) (held : Option Code) :
    s.runText (held.map Code.text) = (s.run held).1.map Code.text := by
  cases s with
  | take source =>
    rw [runText, run, Source.spelling_eq]
    cases source.code <;> rfl
  | move m =>
    cases held with
    | none => rfl
    | some c =>
      simp only [runText, run, Option.map_some, Move.applyText_text]
      cases m.apply c <;> rfl
  | ask question =>
    cases held with
    | none => rfl
    | some c =>
      simp only [runText, run]
      cases question.answer c <;> rfl

theorem holdingText_eq (steps : List Step) : holdingText steps = (holding steps).map Code.text := by
  have hrun (held : Option Code) : steps.foldl Step.runText (held.map Code.text) =
      (steps.foldl (fun held s => (s.run held).1) held).map Code.text := by
    induction steps generalizing held with
    | nil => rfl
    | cons s rest ih => rw [List.foldl_cons, List.foldl_cons, Step.runText_text, ih]
  exact hrun none

/-! ## Steps that hold another code -/

/-- No question is answered with a code. -/
theorem Question.answer_ne_code (question : Question) {c : Code} {reply : Reply}
    (h : question.answer c = .ok reply) (d : Code) : reply ≠ .code d := by
  rintro rfl
  cases question with
  | area => rw [answer] at h; cases hc : c.area <;> rw [hc] at h <;> cases h
  | json => cases h
  | text => cases h
  | equals spelled =>
    rw [answer] at h; cases hc : Code.read spelled <;> rw [hc] at h <;> cases h

/-- A step holds the code that it answers with; with any other answer it keeps what is held. -/
theorem Step.run_cases (s : Step) (held : Option Code) :
    (∃ c, (s.run held).2 = .code c ∧ (s.run held).1 = some c ∧ ∀ question, s ≠ .ask question) ∨
      (∀ c, (s.run held).2 ≠ .code c) ∧ (s.run held).1 = held := by
  have hhold (found : Except Failure Code) :
      (∃ c, (Step.hold held found).2 = .code c ∧ (Step.hold held found).1 = some c) ∨
        (∀ c, (Step.hold held found).2 ≠ .code c) ∧ (Step.hold held found).1 = held := by
    cases found with
    | ok c => exact Or.inl ⟨c, rfl, rfl⟩
    | error f => exact Or.inr ⟨nofun, rfl⟩
  cases s with
  | take source =>
    exact (hhold source.code).imp_left fun ⟨c, hreply, hheld⟩ =>
      ⟨c, hreply, hheld, nofun⟩
  | move m =>
    cases held with
    | none => exact Or.inr ⟨nofun, rfl⟩
    | some d =>
      exact (hhold ((m.apply d).mapError .error)).imp_left fun ⟨c, hreply, hheld⟩ =>
        ⟨c, hreply, hheld, nofun⟩
  | ask question =>
    right
    cases held with
    | none => exact ⟨nofun, rfl⟩
    | some d =>
      simp only [run]
      cases hanswer : question.answer d with
      | ok reply => exact ⟨question.answer_ne_code hanswer, rfl⟩
      | error e => exact ⟨nofun, rfl⟩

theorem holding_append (steps : List Step) (s : Step) :
    holding (steps ++ [s]) = (s.run (holding steps)).1 := by
  rw [holding, List.foldl_append]
  rfl

theorem replies_append (held : Option Code) (steps : List Step) (s : Step) :
    replies held (steps ++ [s]) = replies held steps ++
      [(s.run (steps.foldl (fun held s => (s.run held).1) held)).2] := by
  induction steps generalizing held with
  | nil => rfl
  | cons first rest ih => rw [List.cons_append, replies, replies, ih]; rfl

/-! ## Whole sessions -/

/--
After any steps, whatever their arguments, the code that is held is spelled by what a
session of texts holds: a valid text in upper case that reads back as that code. Only a
step that answers with a code holds another one. A question, and a step that fails or
finds no code, leave things as they are.
-/
theorem holding_spells (steps : List Step) :
    let held := holding steps
    holdingText steps = held.map Code.text ∧
      (∀ text, holdingText steps = some text →
        (Code.kind text).isValid = true ∧ Text.upperCase text = text ∧
          ∃ c, Code.read text = .ok c ∧ held = some c) ∧
      ∀ s : Step, ∃ reply, replies none (steps ++ [s]) = replies none steps ++ [reply] ∧
        ((∃ c, reply = .code c ∧ holding (steps ++ [s]) = some c ∧ ∀ question, s ≠ .ask question) ∨
          (∀ c, reply ≠ .code c) ∧ holding (steps ++ [s]) = held) := by
  intro held
  have htext : holdingText steps = held.map Code.text := holdingText_eq steps
  refine ⟨htext, fun text h => ?_, fun s => ⟨(s.run held).2, replies_append none steps s, ?_⟩⟩
  · rw [htext, Option.map_eq_some_iff] at h
    obtain ⟨c, hheld, rfl⟩ := h
    exact ⟨Code.isValid_iff.2 ⟨c, Code.ofText?_text c⟩, Code.upperCase_text c, c,
      Code.read_text c, hheld⟩
  · rw [holding_append]
    exact s.run_cases held

end

theorem holding_spells_nowhere :
    let steps : List Step := [.take (.text "9c3w9qcj+2vx".toList),
      .move (.shorten ⟨51.3701125, -1.217765625⟩), .take (.json "7".toList), .ask .area,
      .move (.recover ⟨.nan, .infinity true⟩)]
    holdingText steps = some "22222222+2VX".toList ∧
      (Code.kind "22222222+2VX".toList).isValid = true ∧
      ∃ c, Code.read "22222222+2VX".toList = .ok c ∧ holding steps = some c := by
  intro steps
  have htext : holdingText steps = some "22222222+2VX".toList := by decide +kernel
  obtain ⟨-, hvalid, -⟩ := holding_spells steps
  obtain ⟨hkind, -, hread⟩ := hvalid _ htext
  exact ⟨htext, hkind, hread⟩

end OpenLocation
