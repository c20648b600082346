import OpenLocation.Code.Basic
import OpenLocation.Text.Uppercase

/-!
# The grammar of codes

A text is read as a code exactly when its upper case is the text of that code, so
each code has one spelling up to the case of letters. `Grammar` says which texts
those are, in terms of the characters before and after the separator, and
`kind_of_grammar` that a text is classified by its parts alone.
-/

namespace OpenLocation

namespace Digit

/-- The character is the symbol of the digit, a letter in either case. -/
def Spells (c : Char) (d : Digit) : Prop := c = d.symbol ∨ c = d.symbol.toLower

def IsSpelling (c : Char) : Prop := ∃ d, Spells c d

instance (c : Char) (d : Digit) : Decidable (Spells c d) := inferInstanceAs (Decidable (_ ∨ _))

instance (c : Char) : Decidable (IsSpelling c) :=
  decidable_of_iff (∃ d ∈ List.finRange 20, Spells c d)
    ⟨fun ⟨d, _, h⟩ => ⟨d, h⟩, fun ⟨d, h⟩ => ⟨d, List.mem_finRange d, h⟩⟩

/-- A character is its own upper case, or 32 places after a capital. -/
theorem toUpper_cases (c : Char) : c.toUpper = c ∨
    c.toNat = c.toUpper.toNat + 32 ∧ 65 ≤ c.toUpper.toNat ∧ c.toUpper.toNat ≤ 90 := by
  unfold Char.toUpper
  split
  · next hc =>
    -- The distance of the cases is negative, so it is added modulo 2 ^ 32.
    have hd : ('A'.val - 'a'.val).toNat = 2 ^ 32 - 32 := by decide
    have ha : 'a'.val.toNat = 97 := by decide
    have hz : 'z'.val.toNat = 122 := by decide
    simp only [Char.toNat, UInt32.toNat_add, UInt32.le_iff_toNat_le, hd] at hc ⊢
    omega
  · exact .inl rfl

theorem toUpper_toUpper (c : Char) : c.toUpper.toUpper = c.toUpper := by
  rcases toUpper_cases c with h | ⟨_, hlo, hhi⟩
  · rw [h, h]
  · rcases toUpper_cases c.toUpper with h | ⟨h, hlo', _⟩
    · exact h
    · omega

theorem toUpper_eq_iff {a : Char} (ha : a.toUpper = a) (hn : a.toNat < 65) {c : Char} :
    c.toUpper = a ↔ c = a := by
  refine ⟨fun h => ?_, fun h => h ▸ ha⟩
  rcases toUpper_cases c with hc | ⟨_, hlo, _⟩
  · exact hc ▸ h
  · rw [h] at hlo; omega

theorem toUpper_symbol (d : Digit) : d.symbol.toUpper = d.symbol := by
  revert d; decide

theorem toUpper_toLower_symbol (d : Digit) : d.symbol.toLower.toUpper = d.symbol := by
  revert d; decide

theorem toNat_toLower_symbol (d : Digit) (h : 65 ≤ d.symbol.toNat) :
    d.symbol.toLower.toNat = d.symbol.toNat + 32 := by
  revert d; decide

theorem text_append (xs ys : List Digit) : text (xs ++ ys) = text xs ++ text ys :=
  List.map_append

theorem symbol_injective {d e : Digit} (h : d.symbol = e.symbol) : d = e := by
  have := ofChar?_symbol d
  rw [h, ofChar?_symbol] at this
  exact (Option.some.inj this).symm

theorem spells_iff {c : Char} {d : Digit} : Spells c d ↔ c.toUpper = d.symbol := by
  constructor
  · rintro (rfl | rfl)
    · exact toUpper_symbol d
    · exact toUpper_toLower_symbol d
  · intro h
    rcases toUpper_cases c with hc | ⟨hc, hlo, _⟩
    · exact .inl (hc ▸ h)
    · rw [h] at hc hlo
      exact .inr (Char.toNat_inj.1 (by rw [hc, toNat_toLower_symbol d hlo]))

theorem ofChar?_toUpper (c : Char) : ofChar? c.toUpper = ofChar? c := by
  unfold ofChar?; rw [toUpper_toUpper]

theorem ofText?_map_toUpper (s : List Char) : ofText? (s.map Char.toUpper) = ofText? s := by
  induction s with
  | nil => rfl
  | cons c rest ih => simp only [List.map_cons, ofText?, ofChar?_toUpper, ih]

/-- Texts that are digits in upper case are those whose characters all spell a digit. -/
theorem exists_text_iff {s : List Char} :
    (∃ digits, text digits = s.map Char.toUpper) ↔ ∀ c ∈ s, IsSpelling c := by
  induction s with
  | nil => exact ⟨fun _ => List.forall_mem_nil _, fun _ => ⟨[], rfl⟩⟩
  | cons c rest ih =>
    rw [List.forall_mem_cons, ← ih]
    constructor
    · rintro ⟨digits, h⟩
      cases digits with
      | nil => cases h
      | cons d digits =>
        simp only [List.map_cons, text, List.cons.injEq] at h
        exact ⟨⟨d, spells_iff.2 h.1.symm⟩, digits, h.2⟩
    · rintro ⟨⟨d, hd⟩, digits, h⟩
      exact ⟨d :: digits, by rw [List.map_cons, ← h, spells_iff.1 hd]; rfl⟩

theorem length_of_text_eq {s : List Char} {digits : List Digit}
    (h : text digits = s.map Char.toUpper) : digits.length = s.length := by
  simpa [text] using congrArg List.length h

end Digit

namespace Code

open Digit

/-! ## One spelling up to case -/

theorem toUpper_eq_separator {c : Char} : c.toUpper = separator ↔ c = separator :=
  toUpper_eq_iff (by decide) (by decide)

theorem toUpper_eq_paddingSymbol {c : Char} : c.toUpper = paddingSymbol ↔ c = paddingSymbol :=
  toUpper_eq_iff (by decide) (by decide)

theorem all_map_toUpper (s : List Char) :
    (s.map Char.toUpper).all (· = paddingSymbol) = s.all (· = paddingSymbol) := by
  simp [Function.comp_def, toUpper_eq_paddingSymbol]

theorem takeWhile_map_toUpper {a : Char} (ha : ∀ c : Char, c.toUpper = a ↔ c = a) (s : List Char) :
    (s.map Char.toUpper).takeWhile (· ≠ a) = (s.takeWhile (· ≠ a)).map Char.toUpper := by
  simp [List.takeWhile_map, Function.comp_def, ha]

theorem dropWhile_map_toUpper {a : Char} (ha : ∀ c : Char, c.toUpper = a ↔ c = a) (s : List Char) :
    (s.map Char.toUpper).dropWhile (· ≠ a) = (s.dropWhile (· ≠ a)).map Char.toUpper := by
  simp [List.dropWhile_map, Function.comp_def, ha]

theorem ofText?_map_toUpper (s : List Char) : ofText? (s.map Char.toUpper) = ofText? s := by
  simp only [ofText?, takeWhile_map_toUpper fun _ => toUpper_eq_separator,
    dropWhile_map_toUpper fun _ => toUpper_eq_separator,
    takeWhile_map_toUpper fun _ => toUpper_eq_paddingSymbol,
    dropWhile_map_toUpper fun _ => toUpper_eq_paddingSymbol, all_map_toUpper, List.length_map,
    Digit.ofText?_map_toUpper]
  cases s.dropWhile (· ≠ separator) with
  | nil => rfl
  | cons c after => simp only [List.map_cons, Digit.ofText?_map_toUpper]

theorem eq_takeWhile_append {a x : Char} {s rest : List Char}
    (h : s.dropWhile (· ≠ a) = x :: rest) : s = s.takeWhile (· ≠ a) ++ a :: rest := by
  have hx : x = a := by
    have := List.head?_dropWhile_not (· ≠ a) s
    rw [h] at this
    simpa using this
  conv => lhs; rw [← List.takeWhile_append_dropWhile (p := (· ≠ a)) (l := s), h, hx]

theorem eq_takeWhile_append_replicate {s : List Char}
    (h : (s.dropWhile (· ≠ paddingSymbol)).all (· = paddingSymbol) = true) :
    s = s.takeWhile (· ≠ paddingSymbol) ++
      List.replicate (s.dropWhile (· ≠ paddingSymbol)).length paddingSymbol := by
  conv => lhs; rw [← List.takeWhile_append_dropWhile (p := (· ≠ paddingSymbol)) (l := s)]
  rw [← List.eq_replicate_iff.2 ⟨rfl, by simpa using h⟩]

theorem map_toUpper_of_ofText? {s : List Char} {c : Code} (h : ofText? s = some c) :
    s.map Char.toUpper = c.text := by
  unfold ofText? at h
  dsimp only at h
  split at h
  · cases h
  · next x after hdrop =>
    split at h
    · next lead tail hlead htail =>
      split at h
      · next hpad =>
        unfold ofParts? at h
        split at h
        · cases h
          have hs := eq_takeWhile_append hdrop
          rw [eq_takeWhile_append_replicate hpad] at hs
          have hsep : separator.toUpper = separator := toUpper_eq_separator.2 rfl
          have hzero : paddingSymbol.toUpper = paddingSymbol := toUpper_eq_paddingSymbol.2 rfl
          rw [text, text_of_ofText? hlead, text_of_ofText? htail]
          simpa [hsep, hzero] using congrArg (List.map Char.toUpper) hs
        · cases h
      · cases h
    · cases h

/-- Reading accepts what writing produces, in either case of letters, and nothing else. -/
theorem ofText?_eq_some_iff {s : List Char} {c : Code} :
    ofText? s = some c ↔ s.map Char.toUpper = c.text := by
  refine ⟨map_toUpper_of_ofText?, fun h => ?_⟩
  rw [← ofText?_map_toUpper, h, ofText?_text]

/-! ## Upper case -/

theorem upperChar_symbol (d : Digit) : Text.upperChar d.symbol = [d.symbol] := by
  revert d; decide +kernel

theorem upperChar_toLower_symbol (d : Digit) : Text.upperChar d.symbol.toLower = [d.symbol] := by
  revert d; decide +kernel

theorem upperChar_of_spells {c : Char} {d : Digit} (h : Spells c d) :
    Text.upperChar c = [c.toUpper] := by
  rw [spells_iff.1 h]
  rcases h with rfl | rfl
  · exact upperChar_symbol d
  · exact upperChar_toLower_symbol d

theorem upperCase_eq_map {s : List Char} (h : ∀ c ∈ s, Text.upperChar c = [c.toUpper]) :
    Text.upperCase s = s.map Char.toUpper := by
  induction s with
  | nil => rfl
  | cons c rest ih =>
    obtain ⟨hc, hrest⟩ := List.forall_mem_cons.1 h
    rw [List.map_cons, ← ih hrest, Text.upperCase, List.flatMap_cons, hc]
    rfl

/-- In upper case the text of a code is the one that the code is written with. -/
theorem upperCase_of_ofText? {s : List Char} {c : Code} (h : ofText? s = some c) :
    Text.upperCase s = c.text := by
  rw [ofText?_eq_some_iff] at h
  rw [← h]
  refine upperCase_eq_map fun x hx => ?_
  have hmem : x.toUpper ∈ c.text := h ▸ List.mem_map_of_mem hx
  simp only [text, Digit.text, List.mem_append, List.mem_cons, List.mem_map,
    List.mem_replicate] at hmem
  rcases hmem with (⟨d, _, hd⟩ | ⟨_, hz⟩) | hs | ⟨d, _, hd⟩
  · exact upperChar_of_spells (spells_iff.2 hd.symm)
  · rw [toUpper_eq_paddingSymbol.1 hz]; decide +kernel
  · rw [toUpper_eq_separator.1 hs]; decide +kernel
  · exact upperChar_of_spells (spells_iff.2 hd.symm)

/-! ## The grammar -/

/--
What stands before and after the separator of a code, and how many digits it has:
up to eight before it, two by two, and not one alone after it; or two, four or six
filled up to eight with padding, and nothing after it.
-/
inductive Grammar : List Char → List Char → Nat → Prop where
  | unpadded {before after : List Char} (spelled : ∀ c ∈ before ++ after, IsSpelling c)
      (pairs : before.length ∈ [0, 2, 4, 6, 8]) (notOne : after.length ≠ 1)
      (some : before ++ after ≠ []) : Grammar before after (before.length + after.length)
  | padded {lead : List Char} {k : Nat} (spelled : ∀ c ∈ lead, IsSpelling c)
      (pairs : lead.length ∈ [2, 4, 6]) (full : lead.length + k = separatorPosition) :
      Grammar (lead ++ List.replicate k paddingSymbol) [] lead.length

/-- The first two characters spell a row and a column with a property. -/
def Begins (before : List Char) (p : Nat → Nat → Prop) : Prop :=
  ∃ a b rest row column, before = a :: b :: rest ∧ Spells a row ∧ Spells b column ∧ p row column

/-- The parts of a text that is read as a code. -/
structure Reads (c : Code) (before after : List Char) : Prop where
  before : before.map Char.toUpper =
    Digit.text c.lead ++ List.replicate c.padding paddingSymbol
  after : after.map Char.toUpper = Digit.text c.tail

namespace Reads

variable {c : Code} {before after : List Char}

theorem ofText? (h : Reads c before after) : ofText? (before ++ separator :: after) = some c := by
  rw [ofText?_eq_some_iff, List.map_append, List.map_cons, h.before, h.after,
    toUpper_eq_separator.2 rfl, text]

theorem length_before (h : Reads c before after) :
    before.length = c.lead.length + c.padding := by
  simpa [Digit.text] using congrArg List.length h.before

theorem length_after (h : Reads c before after) : after.length = c.tail.length := by
  simpa [Digit.text] using congrArg List.length h.after

end Reads

/-- A code is read from texts of one form only. -/
theorem exists_reads {s : List Char} {c : Code} (h : ofText? s = some c) :
    ∃ before after, s = before ++ separator :: after ∧ Reads c before after := by
  rw [ofText?_eq_some_iff, text] at h
  obtain ⟨before, rest, rfl, hb, hr⟩ := List.map_eq_append_iff.1 h
  obtain ⟨x, after, rfl, hx, ha⟩ := List.map_eq_cons_iff.1 hr
  exact ⟨before, after, by rw [toUpper_eq_separator.1 hx], hb, ha⟩

theorem map_toUpper_eq_replicate {s : List Char} {k : Nat} :
    s.map Char.toUpper = List.replicate k paddingSymbol ↔ s = List.replicate k paddingSymbol := by
  simp only [List.eq_replicate_iff, List.length_map, List.mem_map, forall_exists_index, and_imp,
    forall_apply_eq_imp_iff₂, toUpper_eq_paddingSymbol]

theorem Grammar.exists_reads {before after : List Char} {n : Nat} (h : Grammar before after n) :
    ∃ c, Reads c before after ∧ c.digits.length = n := by
  cases h with
  | unpadded spelled pairs notOne some =>
    obtain ⟨lead, hl⟩ := exists_text_iff.2 fun c hc => spelled c (List.mem_append_left _ hc)
    obtain ⟨tail, ht⟩ := exists_text_iff.2 fun c hc => spelled c (List.mem_append_right _ hc)
    have hshape : Shape lead.length 0 tail.length := by
      rw [length_of_text_eq hl, length_of_text_eq ht]
      have hpos : 0 < before.length + after.length := by
        rw [← List.length_append]; exact List.length_pos_iff.2 some
      refine ⟨?_, .inl ⟨rfl, ?_, notOne, hpos⟩⟩ <;>
        simp only [separatorPosition, List.mem_cons, List.not_mem_nil, or_false] at * <;> omega
    refine ⟨⟨lead, 0, tail, hshape⟩, ⟨by simp [hl], ht.symm⟩, ?_⟩
    simp [digits, length_of_text_eq hl, length_of_text_eq ht]
  | @padded front k spelled pairs full =>
    obtain ⟨lead, hl⟩ := exists_text_iff.2 spelled
    have hshape : Shape lead.length k 0 := by
      rw [length_of_text_eq hl]
      refine ⟨?_, .inr ⟨?_, ?_, full, rfl⟩⟩ <;>
        simp only [separatorPosition, List.mem_cons, List.not_mem_nil, or_false] at * <;> omega
    refine ⟨⟨lead, k, [], hshape⟩, ⟨?_, rfl⟩, ?_⟩
    · rw [List.map_append, ← hl, map_toUpper_eq_replicate.2 rfl]
    · simp [digits, length_of_text_eq hl]

theorem Reads.grammar {c : Code} {before after : List Char} (h : Reads c before after) :
    Grammar before after c.digits.length := by
  have hafter := exists_text_iff.1 ⟨c.tail, h.after.symm⟩
  rcases c.shape with ⟨heven, ⟨hpad, hle, hone, hpos⟩ | ⟨hpad, hlead, hfull, htail⟩⟩
  · have hbefore := exists_text_iff.1 ⟨c.lead, by simpa [hpad] using h.before.symm⟩
    have hb := h.length_before
    have ha := h.length_after
    rw [hpad, Nat.add_zero] at hb
    rw [digits, List.length_append, ← hb, ← ha]
    refine .unpadded ?_ ?_ (by omega) ?_
    · simp only [List.mem_append]
      exact fun x hx => hx.elim (hbefore x) (hafter x)
    · simp only [separatorPosition, List.mem_cons, List.not_mem_nil, or_false] at hle ⊢
      omega
    · rw [← List.length_pos_iff, List.length_append]; omega
  · obtain ⟨front, zeros, rfl, hl, hz⟩ := List.map_eq_append_iff.1 h.before
    have hlen : front.length = c.lead.length := (length_of_text_eq hl.symm).symm
    obtain rfl : after = [] := List.eq_nil_of_length_eq_zero (h.length_after.trans htail)
    rw [map_toUpper_eq_replicate] at hz
    rw [digits, List.length_append, htail, Nat.add_zero, hz, ← hlen]
    refine .padded (exists_text_iff.1 ⟨c.lead, hl.symm⟩) ?_ (by omega)
    simp only [separatorPosition, List.mem_cons, List.not_mem_nil, or_false] at hfull ⊢
    omega

/-! ## Classification -/

theorem significant_text (c : Code) : significant c.text = Digit.text c.digits := by
  have hd (digits : List Digit) :
      (Digit.text digits).filter (· ≠ separator) = Digit.text digits := by
    rw [List.filter_eq_self]
    simpa [Digit.text] using fun d _ => of_decide_eq_true (symbol_ne_separator d)
  have hz : (List.replicate c.padding paddingSymbol).filter (· ≠ separator) =
      List.replicate c.padding paddingSymbol := by
    rw [List.filter_eq_self]
    intro x hx
    rw [List.eq_of_mem_replicate hx]
    decide
  rw [significant, text, List.filter_append, List.filter_append, hd, hz,
    List.filter_cons_of_neg (by simp), hd, List.append_assoc,
    takeWhile_text_append _ symbol_ne_paddingSymbol, digits, text_append]
  congr 1
  -- Padding ends the digits, and nothing follows it.
  rcases c.shape with ⟨_, ⟨hpad, _⟩ | ⟨hpad, _, _, htail⟩⟩
  · rw [hpad, List.replicate_zero, List.nil_append]
    have := takeWhile_text_append (· ≠ paddingSymbol) symbol_ne_paddingSymbol c.tail []
    rwa [List.append_nil, List.takeWhile_nil, List.append_nil] at this
  · rw [List.eq_nil_of_length_eq_zero htail]
    obtain ⟨k, hk⟩ := Nat.exists_eq_succ_of_ne_zero (Nat.pos_iff_ne_zero.1 hpad)
    simp [hk, List.replicate_succ, Digit.text]

theorem significant_map_toUpper (s : List Char) :
    significant (s.map Char.toUpper) = (significant s).map Char.toUpper := by
  rw [significant, List.filter_map, takeWhile_map_toUpper fun _ => toUpper_eq_paddingSymbol]
  simp [significant, Function.comp_def, toUpper_eq_separator]

/-- The characters that count as digits of a code are its digits, letters in either case. -/
theorem map_toUpper_significant {s : List Char} {c : Code} (h : ofText? s = some c) :
    (significant s).map Char.toUpper = Digit.text c.digits := by
  rw [← significant_map_toUpper, map_toUpper_of_ofText? h, significant_text]

theorem length_significant {s : List Char} {c : Code} (h : ofText? s = some c) :
    (significant s).length = c.digits.length :=
  (length_of_text_eq (map_toUpper_significant h).symm).symm

theorem kind_of_ofText? {s : List Char} {c : Code} (h : ofText? s = some c) :
    kind s = ⟨true, c.isShort, c.isFull, c.digits.length⟩ := by
  simp [kind, h, length_significant h]

theorem kind_of_eq_none {s : List Char} (h : ofText? s = none) :
    kind s = ⟨false, false, false, (significant s).length⟩ := by
  simp [kind, h]

theorem exists_isFull {s : List Char} (h : (kind s).isFull = true) :
    ∃ c, ofText? s = some c ∧ c.isFull = true := by
  simpa [kind, Option.any_eq_true] using h

theorem exists_isShort {s : List Char} (h : (kind s).isShort = true) :
    ∃ c, ofText? s = some c ∧ c.isShort = true := by
  simpa [kind, Option.any_eq_true] using h

theorem Reads.isShort_iff {c : Code} {before after : List Char} (h : Reads c before after) :
    c.isShort = true ↔ before.length < separatorPosition := by
  rw [isShort, decide_eq_true_iff, h.length_before]

/-- A code with all places before the separator starts with two digits. -/
theorem Reads.exists_pair {c : Code} {before after : List Char} (h : Reads c before after)
    (hlen : before.length = separatorPosition) :
    ∃ a b rest row column lead, before = a :: b :: rest ∧ c.lead = row :: column :: lead ∧
      Spells a row ∧ Spells b column := by
  have hl : 2 ≤ c.lead.length := by
    have := h.length_before
    rcases c.shape with ⟨_, ⟨hpad, _⟩ | ⟨_, hlead, _⟩⟩ <;>
      simp only [separatorPosition] at * <;> omega
  obtain ⟨row, column, lead, hc⟩ : ∃ row column lead, c.lead = row :: column :: lead := by
    match c.lead, hl with
    | row :: column :: lead, _ => exact ⟨row, column, lead, rfl⟩
  have hb := h.before
  rw [hc] at hb
  obtain ⟨a, t, rfl, ha, ht⟩ := List.map_eq_cons_iff.1 hb
  obtain ⟨b, rest, rfl, hb, _⟩ := List.map_eq_cons_iff.1 ht
  exact ⟨a, b, rest, row, column, lead, rfl, hc, spells_iff.2 ha, spells_iff.2 hb⟩

theorem begins_cons_iff {a b : Char} {rest : List Char} {row column : Digit}
    {p : Nat → Nat → Prop} (ha : Spells a row) (hb : Spells b column) :
    Begins (a :: b :: rest) p ↔ p row column := by
  constructor
  · rintro ⟨_, _, _, row', column', heq, ha', hb', hp⟩
    obtain ⟨rfl, rfl, rfl⟩ : _ ∧ _ ∧ _ := by simpa using heq
    rw [spells_iff] at ha hb ha' hb'
    rwa [symbol_injective (ha.symm.trans ha'), symbol_injective (hb.symm.trans hb')]
  · exact fun hp => ⟨a, b, rest, row, column, rfl, ha, hb, hp⟩

theorem isShort_or_full_length {c : Code} {before after : List Char} (h : Reads c before after) :
    before.length < separatorPosition ∨ before.length = separatorPosition := by
  rw [h.length_before]
  rcases c.shape with ⟨_, ⟨hpad, hle, _⟩ | ⟨_, _, hfull, _⟩⟩ <;> omega

theorem Reads.isFull_iff {c : Code} {before after : List Char} (h : Reads c before after) :
    c.isFull = true ↔ before.length = separatorPosition ∧
      Begins before fun row column => row < 9 ∧ column < 18 := by
  rcases isShort_or_full_length h with hlt | hlen
  · simp [isFull, h.isShort_iff.2 hlt, Nat.ne_of_lt hlt]
  · have hshort : c.isShort = false := by
      rw [Bool.eq_false_iff]; exact fun hs => by have := h.isShort_iff.1 hs; omega
    obtain ⟨a, b, rest, row, column, lead, rfl, hc, ha, hb⟩ := h.exists_pair hlen
    rw [begins_cons_iff ha hb, isFull, isOnGlobe, hc, hshort]
    simp only [hlen, Fin.lt_def, Bool.not_false, Bool.true_and, Bool.and_eq_true,
      decide_eq_true_iff, true_and]
    exact Iff.rfl

theorem Reads.offGlobe_iff {c : Code} {before after : List Char} (h : Reads c before after) :
    c.isShort = false ∧ c.isFull = false ↔ before.length = separatorPosition ∧
      Begins before fun row column => 9 ≤ row ∨ 18 ≤ column := by
  rcases isShort_or_full_length h with hlt | hlen
  · simp [h.isShort_iff.2 hlt, Nat.ne_of_lt hlt]
  · have hshort : c.isShort = false := by
      rw [Bool.eq_false_iff]; exact fun hs => by have := h.isShort_iff.1 hs; omega
    obtain ⟨a, b, rest, row, column, lead, rfl, hc, ha, hb⟩ := h.exists_pair hlen
    rw [begins_cons_iff ha hb, isFull, isOnGlobe, hc, hshort]
    simp [hlen, Fin.lt_def]
    omega

/--
A text is valid exactly if the grammar makes it up, and then its parts alone decide
of what kind it is: short, full or off the globe, one of the three, and with how
many digits. Other texts are of no kind.
-/
theorem kind_of_grammar (s : List Char) :
    ((kind s).isValid = true ↔
      ∃ before after n, s = before ++ separator :: after ∧ Grammar before after n) ∧
    (∀ before after n, s = before ++ separator :: after → Grammar before after n →
      let short := before.length < separatorPosition
      let full := before.length = separatorPosition ∧
        Begins before fun row column => row < 9 ∧ column < 18
      let offGlobe := before.length = separatorPosition ∧
        Begins before fun row column => 9 ≤ row ∨ 18 ≤ column
      ((kind s).isShort = true ↔ short) ∧ ((kind s).isFull = true ↔ full) ∧
        (short ∧ ¬full ∧ ¬offGlobe ∨ ¬short ∧ full ∧ ¬offGlobe ∨ ¬short ∧ ¬full ∧ offGlobe) ∧
        (kind s).digitCount = n) ∧
    ((kind s).isValid = false → (kind s).isShort = false ∧ (kind s).isFull = false) := by
  refine ⟨⟨fun h => ?_, ?_⟩, ?_, fun h => ?_⟩
  · obtain ⟨c, hc⟩ := Option.isSome_iff_exists.1 h
    obtain ⟨before, after, hs, hr⟩ := exists_reads hc
    exact ⟨before, after, _, hs, hr.grammar⟩
  · rintro ⟨before, after, n, rfl, hg⟩
    obtain ⟨c, hr, -⟩ := hg.exists_reads
    simp [kind, hr.ofText?]
  · rintro before after n rfl hg
    obtain ⟨c, hr, rfl⟩ := hg.exists_reads
    intro short full offGlobe
    have hshort : c.isShort = true ↔ short := hr.isShort_iff
    have hfull : c.isFull = true ↔ full := hr.isFull_iff
    have hoff : c.isShort = false ∧ c.isFull = false ↔ offGlobe := hr.offGlobe_iff
    rw [kind_of_ofText? hr.ofText?]
    refine ⟨hshort, hfull, ?_, rfl⟩
    rw [← hshort, ← hfull, ← hoff]
    cases hs : c.isShort
    · cases c.isFull <;> simp
    · simp [isFull, hs]
  · have hnone : ofText? s = none := by simpa [kind] using h
    simp [kind, hnone]

theorem kind_of_grammar_padded :
    Grammar "8fvc0000".toList [] 4 ∧ (kind "8fvc0000+".toList).isValid = true ∧
      (kind "8fvc0000+".toList).isFull = true ∧ (kind "8fvc0000+".toList).digitCount = 4 := by
  have hspelled : "8fvc".toList.all (fun c => Digit.IsSpelling c) = true := by decide
  have hg : Grammar ("8fvc".toList ++ List.replicate 4 paddingSymbol) [] "8fvc".toList.length :=
    .padded (fun c hc => of_decide_eq_true (List.all_eq_true.1 hspelled c hc)) (by decide)
      (by decide)
  obtain ⟨hvalid, hkind, -⟩ := kind_of_grammar "8fvc0000+".toList
  obtain ⟨-, hfull, -, hcount⟩ := hkind "8fvc0000".toList [] 4 (by decide) hg
  refine ⟨hg, hvalid.2 ⟨_, _, _, by decide, hg⟩, hfull.2 ⟨by decide, ?_⟩, hcount⟩
  exact ⟨'8', 'f', "vc0000".toList, 6, 9, by decide, by decide, by decide, by decide⟩

end Code

end OpenLocation
