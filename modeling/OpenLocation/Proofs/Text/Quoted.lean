import Mathlib
import OpenLocation.Error

/-!
# What quoted text tells

No character is written as the beginning of what another one is written as, so a quoted text can
be read in one way only (`quoted_injective`), and nothing in it steers a display. An error is thus
told apart from all others by its message (`message_eq_iff`).
-/

namespace OpenLocation

namespace Text

/-- The code points of the control characters of ASCII, and of what else ends a line. -/
def controls : List Nat := List.range 0x20 ++ [0x7F, 0x85, 0x2028, 0x2029]

/-- The characters that are written as a letter or themselves after a backslash. -/
def letterEscapes : List (Char × Char) :=
  [('"', '"'), ('\\', '\\'), ('0', '\x00'), ('t', '\t'), ('r', '\r'), ('n', '\n')]

/-! ## Hexadecimal digits -/

theorem digitChar_injective : ∀ m < 16, ∀ n < 16, m.digitChar = n.digitChar → m = n := by decide

theorem mem_toDigits {n : Nat} {c : Char} (h : c ∈ Nat.toDigits 16 n) :
    ∃ k < 16, c = k.digitChar := by
  induction n using Nat.strong_induction_on with
  | _ n ih =>
    rw [Nat.toDigits_eq_if (by decide)] at h
    split at h
    · next hn => exact ⟨n, hn, List.mem_singleton.1 h⟩
    · next hn =>
      rcases List.mem_append.1 h with h | h
      · exact ih (n / 16) (by omega) h
      · exact ⟨n % 16, by omega, List.mem_singleton.1 h⟩

theorem toDigits_injective {m n : Nat} (h : Nat.toDigits 16 m = Nat.toDigits 16 n) : m = n := by
  induction m using Nat.strong_induction_on generalizing n with
  | _ m ih =>
    rw [Nat.toDigits_eq_if (by decide), @Nat.toDigits_eq_if 16 n (by decide)] at h
    split at h <;> split at h
    · next hm hn => exact digitChar_injective m hm n hn (List.singleton_inj.1 h)
    · exact absurd (List.append_inj_left' (show [] ++ [_] = _ from h) rfl).symm
        Nat.toDigits_ne_nil
    · exact absurd (List.append_inj_left' (show _ = [] ++ [_] from h) rfl) Nat.toDigits_ne_nil
    · next hm hn =>
      obtain ⟨hdigits, hlast⟩ := List.append_inj' h rfl
      have hquotient := ih (m / 16) (by omega) hdigits
      have hrest := digitChar_injective _ (by omega) _ (by omega) (List.singleton_inj.1 hlast)
      omega

/-! ## Characters -/

theorem escape_cases (c : Char) :
    (∃ letter, (letter, c) ∈ letterEscapes ∧ escape c = ['\\', letter]) ∨
      (c ≠ '"' ∧ c ≠ '\\' ∧ showsAlone c = true ∧ escape c = [c]) ∨
      escape c = codePointEscape c := by
  unfold escape
  split
  · next h =>
    refine Or.inl ⟨c, ?_, rfl⟩
    rcases h with rfl | rfl <;> decide
  next hself =>
  split
  · next h => exact Or.inl ⟨'0', by rw [h]; decide, rfl⟩
  split
  · next h => exact Or.inl ⟨'t', by rw [h]; decide, rfl⟩
  split
  · next h => exact Or.inl ⟨'r', by rw [h]; decide, rfl⟩
  split
  · next h => exact Or.inl ⟨'n', by rw [h]; decide, rfl⟩
  rw [not_or] at hself
  split
  · next h => exact Or.inr (Or.inl ⟨hself.1, hself.2, h, rfl⟩)
  · exact Or.inr (Or.inr rfl)

theorem escape_ne_nil (c : Char) : escape c ≠ [] := by
  rcases escape_cases c with ⟨letter, -, h⟩ | ⟨-, -, -, h⟩ | h <;> rw [h] <;>
    exact List.cons_ne_nil _ _

theorem letterEscapes_inj {letter c d : Char} (hc : (letter, c) ∈ letterEscapes)
    (hd : (letter, d) ∈ letterEscapes) : c = d := by
  have hall : ∀ p ∈ letterEscapes, ∀ q ∈ letterEscapes, p.1 = q.1 → p.2 = q.2 := by decide
  exact hall _ hc _ hd rfl

theorem letterEscapes_ne_u {letter c : Char} (h : (letter, c) ∈ letterEscapes) : letter ≠ 'u' := by
  have hall : ∀ p ∈ letterEscapes, p.1 ≠ 'u' := by decide
  exact hall _ h

/-- A code point ends at the closing brace, which is no digit. -/
theorem codePointEscape_append_inj {c d : Char} {s t : List Char}
    (h : codePointEscape c ++ s = codePointEscape d ++ t) : c = d ∧ s = t := by
  have hbrace (n : Nat) : '}' ∉ Nat.toDigits 16 n := by
    intro hmem
    obtain ⟨k, -, hk⟩ := mem_toDigits hmem
    exact Nat.digitChar_ne '}' (by decide) hk.symm
  simp only [codePointEscape, List.append_assoc, List.cons_append, List.nil_append,
    List.cons.injEq, true_and] at h
  have hdigits := congrArg (List.takeWhile (· ≠ '}')) h
  have hrest := congrArg (List.dropWhile (· ≠ '}')) h
  have hall (n : Nat) : ∀ x ∈ Nat.toDigits 16 n, decide (x ≠ '}') = true := by
    intro x hx
    exact decide_eq_true fun heq => hbrace n (heq ▸ hx)
  rw [List.takeWhile_append_of_pos (hall _), List.takeWhile_append_of_pos (hall _),
    List.takeWhile_cons_of_neg (by decide), List.takeWhile_cons_of_neg (by decide),
    List.append_nil, List.append_nil] at hdigits
  rw [List.dropWhile_append_of_pos (hall _), List.dropWhile_append_of_pos (hall _),
    List.dropWhile_cons_of_neg (by decide), List.dropWhile_cons_of_neg (by decide)] at hrest
  exact ⟨Char.toNat_inj.1 (toDigits_injective hdigits), (List.cons.inj hrest).2⟩

/-- What is written for a character is followed by what is written for the rest. -/
theorem escape_append_inj {c d : Char} {s t : List Char} (h : escape c ++ s = escape d ++ t) :
    c = d ∧ s = t := by
  rcases escape_cases c with ⟨l, hl, hc⟩ | ⟨-, hc', -, hc⟩ | hc <;>
    rcases escape_cases d with ⟨m, hm, hd⟩ | ⟨-, hd', -, hd⟩ | hd <;> rw [hc, hd] at h
  · obtain ⟨-, hletter⟩ := List.cons.inj h
    obtain ⟨rfl, hrest⟩ := List.cons.inj hletter
    exact ⟨letterEscapes_inj hl hm, hrest⟩
  · exact absurd (List.cons.inj h).1.symm hd'
  · obtain ⟨-, hletter⟩ := List.cons.inj h
    exact absurd (List.cons.inj hletter).1 (letterEscapes_ne_u hl)
  · exact absurd (List.cons.inj h).1 hc'
  · exact List.cons.inj h
  · exact absurd (List.cons.inj h).1 hc'
  · obtain ⟨-, hletter⟩ := List.cons.inj h
    exact absurd (List.cons.inj hletter).1.symm (letterEscapes_ne_u hm)
  · exact absurd (List.cons.inj h).1.symm hd'
  · exact codePointEscape_append_inj h

/-- No control character shows by itself, and none is used to write another one. -/
theorem controls_not_written : ∀ code ∈ controls,
    showsAlone (.ofNat code) = false ∧ Char.ofNat code ∉ ['"', '\\', 'u', '{', '}'] ∧
      (∀ p ∈ letterEscapes, Char.ofNat code ≠ p.1) ∧ ∀ k < 16, Char.ofNat code ≠ k.digitChar := by
  decide +kernel

theorem not_mem_escape {code : Nat} (hcode : code ∈ controls) (c : Char) :
    Char.ofNat code ∉ escape c := by
  obtain ⟨hhidden, hmarks, hletters, hdigits⟩ := controls_not_written code hcode
  simp only [List.mem_cons, List.not_mem_nil, or_false, not_or] at hmarks
  obtain ⟨-, hbackslash, hu, hopen, hclose⟩ := hmarks
  intro hmem
  rcases escape_cases c with ⟨letter, hletter, hc⟩ | ⟨-, -, hshows, hc⟩ | hc <;> rw [hc] at hmem
  · rcases List.mem_cons.1 hmem with h | h
    · exact hbackslash h
    · exact hletters _ hletter (List.mem_singleton.1 h)
  · rw [← List.mem_singleton.1 hmem, hhidden] at hshows
    cases hshows
  · simp only [codePointEscape, List.mem_append, List.mem_cons, List.not_mem_nil, or_false] at hmem
    rcases hmem with ((h | h | h) | h) | h
    · exact hbackslash h
    · exact hu h
    · exact hopen h
    · obtain ⟨k, hk, hdigit⟩ := mem_toDigits h
      exact hdigits k hk hdigit
    · exact hclose h

/-! ## Texts -/

theorem flatMap_escape_injective {s t : List Char} (h : s.flatMap escape = t.flatMap escape) :
    s = t := by
  induction s generalizing t with
  | nil =>
    cases t with
    | nil => rfl
    | cons d t => exact absurd (List.append_eq_nil_iff.1 h.symm).1 (escape_ne_nil d)
  | cons c s ih =>
    cases t with
    | nil => exact absurd (List.append_eq_nil_iff.1 h).1 (escape_ne_nil c)
    | cons d t =>
      obtain ⟨rfl, hrest⟩ := escape_append_inj h
      rw [ih hrest]

theorem quoted_injective {s t : List Char} (h : quoted s = quoted t) : s = t :=
  flatMap_escape_injective (List.append_cancel_right (List.cons.inj h).2)

theorem not_mem_quoted {code : Nat} (hcode : code ∈ controls) (text : List Char) :
    Char.ofNat code ∉ quoted text := by
  obtain ⟨-, hmarks, -⟩ := controls_not_written code hcode
  have hquote := fun h => hmarks (List.mem_cons.2 (Or.inl h))
  have htext : Char.ofNat code ∉ text.flatMap escape := by
    intro h
    obtain ⟨c, -, hc⟩ := List.mem_flatMap.1 h
    exact not_mem_escape hcode c hc
  simp only [quoted, List.mem_cons, List.mem_append, List.not_mem_nil, or_false, not_or]
  exact ⟨hquote, htext, hquote⟩

end Text

/-! ## Messages -/

namespace Error

theorem message_invalidCode (text : List Char) :
    (invalidCode text).message = "Invalid Plus Code: ".toList ++ Text.quoted text := rfl

theorem message_notFullCode (text : List Char) :
    (notFullCode text).message =
      "Not a full Plus Code: ".toList ++ Text.quoted text ++ " (recover it first)".toList := rfl

theorem message_serialization (detail : List Char) :
    (serialization detail).message = "Serialization error: ".toList ++ detail := rfl

/-- The letter that messages of a kind begin with. -/
def initial : Error → Char
  | invalidCode _ => 'I'
  | notFullCode _ => 'N'
  | serialization _ => 'S'

theorem head?_message (e : Error) : e.message.head? = some e.initial := by
  have hframes : "Invalid Plus Code: ".toList.head? = some 'I' ∧
      "Not a full Plus Code: ".toList.head? = some 'N' ∧
      "Serialization error: ".toList.head? = some 'S' := by decide +kernel
  cases e with
  | invalidCode text =>
    rw [message_invalidCode, List.head?_append, hframes.1, Option.some_or, initial]
  | notFullCode text =>
    rw [message_notFullCode, List.append_assoc, List.head?_append, hframes.2.1, Option.some_or,
      initial]
  | serialization detail =>
    rw [message_serialization, List.head?_append, hframes.2.2, Option.some_or, initial]

theorem eq_of_message_eq {e f : Error} (h : e.message = f.message) : e = f := by
  have hinitial : e.initial = f.initial := by
    rw [← Option.some_inj, ← head?_message, ← head?_message, h]
  cases e <;> cases f <;> simp only [initial, Char.reduceEq] at hinitial
  · rw [message_invalidCode, message_invalidCode] at h
    rw [Text.quoted_injective (List.append_cancel_left h)]
  · rw [message_notFullCode, message_notFullCode] at h
    rw [Text.quoted_injective (List.append_cancel_left (List.append_cancel_right h))]
  · rw [message_serialization, message_serialization] at h
    rw [List.append_cancel_left h]

/--
Errors with the same message are the same, in kind and in all of their text. The message about a
code has no line break and no other control character, whatever stands in the code.
-/
theorem message_eq_iff :
    (∀ e f : Error, e.message = f.message ↔ e = f) ∧
      ∀ code ∈ Text.controls, ∀ text, Char.ofNat code ∉ (invalidCode text).message ∧
        Char.ofNat code ∉ (notFullCode text).message := by
  refine ⟨fun e f => ⟨eq_of_message_eq, congrArg message⟩, fun code hcode text => ?_⟩
  have hframe : ∀ code ∈ Text.controls, Char.ofNat code ∉ "Invalid Plus Code: ".toList ∧
      Char.ofNat code ∉ "Not a full Plus Code: ".toList ∧
      Char.ofNat code ∉ " (recover it first)".toList := by decide +kernel
  obtain ⟨hinvalid, hnotFull, hadvice⟩ := hframe code hcode
  have hquoted := Text.not_mem_quoted hcode text
  simp only [message_invalidCode, message_notFullCode, List.mem_append, not_or]
  exact ⟨⟨hinvalid, hquoted⟩, ⟨hnotFull, hquoted⟩, hadvice⟩

/-- A line feed, and two texts that spell out what it could be written as. -/
theorem message_eq_iff_line :
    let line := invalidCode "8FVC\n".toList
    '\n'.toNat ∈ Text.controls ∧ line.message = "Invalid Plus Code: \"8FVC\\n\"".toList ∧
      '\n' ∉ line.message ∧ '\n' ∉ (notFullCode "8FVC\n".toList).message ∧
      line.message ≠ (invalidCode "8FVC\\n".toList).message ∧
      line.message ≠ (invalidCode "8FVC\\u\x7ba\x7d".toList).message := by
  intro line
  have hline : '\n'.toNat ∈ Text.controls := by decide
  obtain ⟨hinjective, hcontrols⟩ := message_eq_iff
  obtain ⟨hinvalid, hnotFull⟩ := hcontrols _ hline "8FVC\n".toList
  refine ⟨hline, by decide +kernel, hinvalid, hnotFull, fun h => ?_, fun h => ?_⟩
  · exact absurd ((hinjective _ _).1 h) (by decide +kernel)
  · exact absurd ((hinjective _ _).1 h) (by decide +kernel)

end Error

end OpenLocation
