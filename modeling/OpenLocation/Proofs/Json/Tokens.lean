import OpenLocation.Json.Reader
import OpenLocation.Proofs.Decimal.Numeral
import OpenLocation.Proofs.Json.Spelling

/-!
# Tokens of JSON

Blanks in front of a token change nothing. A mark is a token alone, and a string is one however it
is spelled. A number is one, if what follows does not go on with a number; its token carries a
decimal that the number's double is nearest to (`exists_number`). Only a quote starts a token that
is a string, so a text begins with a string exactly if it is spelled like one
(`next?_eq_string_iff`).
-/

namespace OpenLocation.Json

open Decimal (Numeral Stops)

/-! ## Blanks -/

/-- White space. -/
def Blank (text : List Char) : Prop := ∀ c ∈ text, c ∈ [' ', '\t', '\n', '\r']

instance (text : List Char) : Decidable (Blank text) := List.decidableBAll _ text

theorem blank_nil : Blank [] := List.forall_mem_nil _

theorem isBlank_iff {c : Char} : isBlank c = true ↔ c ∈ [' ', '\t', '\n', '\r'] := by
  simp [isBlank, or_assoc]

theorem next?_append {before : List Char} (h : Blank before) (text : List Char) :
    next? (before ++ text) = next? text := by
  induction before with
  | nil => rfl
  | cons c before ih =>
    obtain ⟨hc, hbefore⟩ := List.forall_mem_cons.1 h
    rw [List.cons_append, next?, if_pos (isBlank_iff.2 hc)]
    exact ih hbefore

theorem next?_eq_none_iff {text : List Char} : next? text = none ↔ Blank text := by
  constructor
  · intro h
    induction text with
    | nil => exact blank_nil
    | cons c text ih =>
      unfold next? at h
      split at h
      · next hc => exact List.forall_mem_cons.2 ⟨isBlank_iff.1 hc, ih h⟩
      · repeat' split at h
        all_goals cases h
  · intro h
    have hnext := next?_append h []
    rwa [List.append_nil] at hnext

theorem tokens_of_none {text : List Char} (h : next? text = none) : tokens text = [] := by
  rw [tokens]
  split
  · rfl
  · next heq => rw [h] at heq; cases heq

theorem tokens_of_some {text rest : List Char} {t : Token} (h : next? text = some (t, rest)) :
    tokens text = t :: tokens rest := by
  rw [tokens]
  split
  · next heq => rw [h] at heq; cases heq
  · next heq => rw [h] at heq; cases heq; rfl

/-! ## Marks -/

theorem tokens_nil : tokens [] = [] := tokens_of_none rfl

theorem mark_cases {c : Char} (hc : isMark c = true) :
    c = '[' ∨ c = ']' ∨ c = '{' ∨ c = '}' ∨ c = ':' ∨ c = ',' := by
  simpa [isMark, or_assoc] using hc

theorem tokens_mark {c : Char} (hc : isMark c = true) (rest : List Char) :
    tokens (c :: rest) = .mark c :: tokens rest := by
  refine tokens_of_some ?_
  rcases mark_cases hc with rfl | rfl | rfl | rfl | rfl | rfl <;> rfl

theorem stops_mark {c : Char} (hc : isMark c = true) (rest : List Char) : Stops (c :: rest) := by
  intro d hd
  obtain rfl : c = d := Option.some.inj hd
  rcases mark_cases hc with rfl | rfl | rfl | rfl | rfl | rfl <;> decide

/-! ## Tokens that are strings -/

theorem missingDigit_ne_string (rest : List Char) (content : Except Fault (List Char)) :
    (missingDigit rest).1 ≠ .string content := by
  unfold missingDigit
  split <;> nofun

theorem scalePart_ne_string (negative : Bool) (whole fraction rest : List Char)
    (content : Except Fault (List Char)) :
    (scalePart negative whole fraction rest).1 ≠ .string content := by
  have hexponent (rest : List Char) :
      (exponentPart negative whole fraction rest).1 ≠ .string content := by
    unfold exponentPart
    dsimp only
    split
    · exact missingDigit_ne_string _ _
    · nofun
  unfold scalePart
  split
  · exact hexponent _
  · exact hexponent _
  · nofun

theorem numberToken_ne_string (negative : Bool) (text : List Char)
    (content : Except Fault (List Char)) : (numberToken negative text).1 ≠ .string content := by
  unfold numberToken
  dsimp only
  split
  · exact missingDigit_ne_string _ _
  split
  · nofun
  unfold fractionPart
  split
  · dsimp only
    split
    · exact missingDigit_ne_string _ _
    · exact scalePart_ne_string _ _ _ _ _
  · exact scalePart_ne_string _ _ _ _ _

theorem literalToken_ne_string (letters text : List Char) (content : Except Fault (List Char)) :
    (literalToken letters text).1 ≠ .string content := by
  fun_induction literalToken letters text with
  | case3 _ _ _ ih => exact ih
  | case1 | case2 | case4 =>
    intro h
    cases h

/-- Only a quote starts a string. -/
theorem next?_eq_string {text rest : List Char} {content : Except Fault (List Char)}
    (h : next? text = some (.string content, rest)) :
    ∃ before tail, Blank before ∧ text = before ++ '"' :: tail ∧
      stringToken tail = (.string content, rest) := by
  induction text with
  | nil => cases h
  | cons c text ih =>
    unfold next? at h
    split at h
    · next hc =>
      obtain ⟨before, tail, hbefore, rfl, htail⟩ := ih h
      exact ⟨c :: before, tail, List.forall_mem_cons.2 ⟨isBlank_iff.1 hc, hbefore⟩, rfl, htail⟩
    split at h
    · cases h
    split at h
    · next hquote =>
      obtain rfl := hquote
      exact ⟨[], text, blank_nil, rfl, Option.some.inj h⟩
    split at h
    · exact absurd (congrArg Prod.fst (Option.some.inj h)) (numberToken_ne_string _ _ _)
    split at h
    · exact absurd (congrArg Prod.fst (Option.some.inj h)) (numberToken_ne_string _ _ _)
    split at h
    · exact absurd (congrArg Prod.fst (Option.some.inj h)) (literalToken_ne_string _ _ _)
    · cases h

theorem stringToken_eq_ok_iff {text rest value : List Char} :
    stringToken text = (.string (.ok value), rest) ↔
      ∃ body, text = body ++ '"' :: rest ∧ Spelling value body := by
  rw [← stringContent_iff, stringToken]
  split
  · next ps rest' hpieces =>
    simp [hpieces, and_comm]
  · next ps fault hpieces =>
    simp [hpieces]

/-- A text begins with a string exactly if one is spelled behind its blanks. -/
theorem next?_eq_string_iff {text rest value : List Char} :
    next? text = some (.string (.ok value), rest) ↔
      ∃ before body, Blank before ∧ Spelling value body ∧
        text = before ++ '"' :: (body ++ '"' :: rest) := by
  constructor
  · intro h
    obtain ⟨before, tail, hbefore, rfl, hstring⟩ := next?_eq_string h
    obtain ⟨body, rfl, hbody⟩ := stringToken_eq_ok_iff.1 hstring
    exact ⟨before, body, hbefore, hbody, rfl⟩
  · rintro ⟨before, body, hbefore, hbody, rfl⟩
    have hstring : stringToken (body ++ '"' :: rest) = (.string (.ok value), rest) :=
      stringToken_eq_ok_iff.2 ⟨body, rfl, hbody⟩
    rw [next?_append hbefore, ← hstring]
    rfl

/-- A string is one token, however it is spelled. -/
theorem tokens_quoted {value body : List Char} (h : Spelling value body) (rest : List Char) :
    tokens (quoted body ++ rest) = .string (.ok value) :: tokens rest := by
  refine tokens_of_some (next?_eq_string_iff.2 ⟨[], body, blank_nil, h, ?_⟩)
  rw [quoted, List.cons_append, List.append_assoc]
  rfl

/-! ## Numbers -/

variable {rest : List Char} (negative : Bool) (n : Numeral)

theorem exponentPart_text (whole fraction : List Char) (e : Decimal.Exponent) (h : Stops rest) :
    exponentPart negative whole fraction (e.sign ++ (e.digits ++ rest)) =
      (.number negative (.ofParts whole fraction e.value), rest) := by
  have hdigits : Decimal.splitDigits (e.digits ++ rest) = (e.digits, rest) :=
    Decimal.splitDigits_append e.isDigit_digits fun c hc => (h c hc).1
  rw [exponentPart, e.splitSign_text]
  dsimp only
  rw [hdigits]
  dsimp only
  rw [if_neg e.digits_ne_nil]
  rfl

theorem scalePart_text (whole fraction : List Char) (exponent : Option Decimal.Exponent)
    (h : Stops rest) :
    scalePart negative whole fraction (Numeral.exponentText exponent ++ rest) =
      (.number negative (.ofParts whole fraction (Numeral.exponentValue exponent)), rest) := by
  cases exponent with
  | none =>
    rw [Numeral.exponentText, List.nil_append]
    unfold scalePart
    split
    · exact absurd rfl (h 'e' rfl).2.2.1
    · exact absurd rfl (h 'E' rfl).2.2.2
    · rfl
  | some e =>
    rw [Numeral.exponentText, Decimal.Exponent.text, List.cons_append, List.append_assoc]
    rcases e.mark_eq with hmark | hmark
    · rw [hmark, scalePart]
      exact exponentPart_text negative whole fraction e h
    · rw [hmark, scalePart]
      exact exponentPart_text negative whole fraction e h

theorem fractionPart_text (h : Stops rest) :
    fractionPart negative n.whole (Numeral.pointText n.fraction ++
      (Numeral.exponentText n.exponent ++ rest)) = (.number negative n.decimal, rest) := by
  have hscale := scalePart_text negative n.whole n.fraction n.exponent h
  unfold Numeral.pointText
  split
  · next hfraction =>
    rw [List.nil_append, fractionPart, ← hfraction]
    · exact hscale
    · intro more hmore
      exact (Numeral.head?_exponentText _ h '.' (by rw [hmore]; rfl)).2 rfl
  · next hfraction =>
    rw [List.cons_append, fractionPart, n.splitDigits_fraction h]
    dsimp only
    rw [if_neg hfraction]
    exact hscale

/-- A numeral is one token, which carries its decimal. -/
theorem numberToken_text (h : Stops rest) :
    numberToken negative (n.text ++ rest) = (.number negative n.decimal, rest) := by
  rw [numberToken, n.splitDigits_text h]
  dsimp only
  rw [if_neg n.whole_ne_nil, if_neg fun hzero => hzero.2 (n.zero_alone hzero.1)]
  exact fractionPart_text negative n h

theorem next?_digit {c : Char} (hc : c.isDigit = true) (rest : List Char) :
    next? (c :: rest) = some (numberToken false (c :: rest)) := by
  have hne (d : Char) (hd : d.isDigit = false) : c ≠ d := fun heq => by
    rw [heq, hd] at hc
    cases hc
  have hblank : isBlank c = false := by simp [isBlank, hne]
  have hmark : isMark c = false := by simp [isMark, hne]
  rw [next?, hblank, hmark]
  simp [hne, hc]

/-- The text of a number is one token, which carries a decimal of the number. -/
theorem exists_number {x : Binary64} {text : List Char} (h : Decimal.Spelling x text) :
    ∃ negative d, d.toBinary64 negative = x ∧ ∀ rest, Stops rest →
      tokens (text ++ rest) = .number negative d :: tokens rest := by
  obtain ⟨negative, n, rfl, hn⟩ := h
  refine ⟨negative, n.decimal, hn, fun rest hrest => tokens_of_some ?_⟩
  rw [← numberToken_text negative n hrest]
  cases negative with
  | false =>
    obtain ⟨c, more, hcons, hc⟩ := n.exists_text_eq_cons
    rw [Decimal.signText, if_neg Bool.false_ne_true, List.nil_append, hcons, List.cons_append]
    exact next?_digit hc _
  | true => rfl

/-- A count is one token. -/
theorem tokens_count (count : Nat) (h : Stops rest) :
    tokens (Nat.toDigits 10 count ++ rest) = .number false ⟨count, 0⟩ :: tokens rest := by
  obtain ⟨n, htext, hn⟩ : ∃ n : Numeral, n.text = Nat.toDigits 10 count ∧
      n.decimal = ⟨count, 0⟩ := by
    refine ⟨⟨Nat.toDigits 10 count, [], none, Nat.toDigits_ne_nil, Decimal.isDigit_toDigits count,
      fun hzero => ?_, nofun⟩, List.append_nil _, ?_⟩
    · by_contra hlength
      refine Decimal.head?_toDigits_ne (fun heq => hlength ?_) hzero
      rw [heq]
      rfl
    · rw [Numeral.decimal, Decimal.ofParts, List.append_nil, Decimal.digitsValue_toDigits]
      rfl
  obtain ⟨c, more, hcons, hc⟩ := n.exists_text_eq_cons
  rw [← htext, ← hn, hcons, List.cons_append]
  refine tokens_of_some ((next?_digit hc _).trans (congrArg some ?_))
  rw [← List.cons_append, ← hcons, numberToken_text false n h]

theorem tokens_null (rest : List Char) : tokens ("null".toList ++ rest) = .literal :: tokens rest :=
  tokens_of_some rfl

end OpenLocation.Json
