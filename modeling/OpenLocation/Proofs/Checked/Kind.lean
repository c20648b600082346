import OpenLocation.Proofs.Checked.Operations
import OpenLocation.Proofs.Code.Layout

/-!
# Classifying texts without failing

The kind of a text is found in steps: are all characters ones of a code, where is the separator,
where does padding start, what stands between them. Offsets are used as counts of characters
only after all characters have been found to take one byte, and a slice is made only after its
ends were compared, so no step fails, whatever the text is (`isValid_eq`, `isFull_eq`,
`cleanCode_eq`).
-/

namespace OpenLocation.Checked

open Digit Code
open Json (byteCount)

/-! ## Digits -/

/-- The digits of the letters from C to X. -/
def letterDigits : List (Option Nat) :=
  [some 8, none, none, some 9, some 10, some 11, none, some 12, none, none, some 13, none, none,
    some 14, some 15, some 16, none, none, none, some 17, some 18, some 19]

/-- The digit of a character, from a table of letters that is entered by the distance to C. -/
def digitOf (c : Char) : Option (Option Nat) :=
  if 'C' ≤ c ∧ c ≤ 'X' then do letterDigits[← subCount c.toNat 'C'.toNat]?
  else if 'c' ≤ c ∧ c ≤ 'x' then do letterDigits[← subCount c.toNat 'c'.toNat]?
  else if '2' ≤ c ∧ c ≤ '9' then (subCount c.toNat '2'.toNat).map some
  else some none

theorem digitOf_ascii : ∀ code < 128,
    digitOf (Char.ofNat code) = some ((ofChar? (Char.ofNat code)).map Fin.val) := by
  decide +kernel

theorem toNat_symbol_lt (d : Digit) : d.symbol.toNat < 91 := by
  revert d; decide

theorem digitOf_eq (c : Char) : digitOf c = some ((ofChar? c).map Fin.val) := by
  by_cases hascii : c.toNat < 128
  · rw [← Char.ofNat_toNat c]
    exact digitOf_ascii _ hascii
  · have hnone : ofChar? c = none := by
      by_contra hsome
      obtain ⟨d, hd⟩ := Option.ne_none_iff_exists'.1 hsome
      have hsymbol := symbol_of_ofChar? hd
      have hsmall := toNat_symbol_lt d
      rw [hsymbol] at hsmall
      rcases toUpper_cases c with heq | ⟨hcode, -⟩
      · rw [heq] at hsmall
        omega
      · omega
    have hafter (x : Char) (hx : x.toNat < 128) : ¬ c ≤ x := by
      rw [Char.le_def, UInt32.le_iff_toNat_le]
      show ¬ c.toNat ≤ x.toNat
      omega
    rw [digitOf, if_neg (fun h => hafter 'X' (by decide) h.2),
      if_neg (fun h => hafter 'x' (by decide) h.2), if_neg (fun h => hafter '9' (by decide) h.2),
      hnone, Option.map_none]

/-! ## Validity -/

def isLegal (c : Char) : Option Bool :=
  if c = separator ∨ c = paddingSymbol then some true else (digitOf c).map Option.isSome

/-- Whether all characters may stand in a code; the first that may not ends the search. -/
def allLegal : List Char → Option Bool
  | [] => some true
  | c :: rest => do if ← isLegal c then allLegal rest else some false

/-- Whether padding that starts at an offset fills up to the separator, which ends the text. -/
def fillsUp (text : List Char) (place start : Nat) : Option Bool :=
  if place < separatorPosition then some false
  else if start = 0 ∨ start % 2 = 1 then some false
  else do
    if (← addCount place 1) < byteCount text then some false
    else some ((← sliceBytes text start place).all (· = paddingSymbol))

/-- Whether not a single byte stands behind the separator. -/
def notOneBehind (text : List Char) (place : Nat) : Option Bool := do
  some (decide ((← subCount (← subCount (byteCount text) place) 1) ≠ 1))

/-- Whether there is no padding, or it fills up. -/
def isPadded (text : List Char) (place : Nat) : Option Bool :=
  match findByte paddingSymbol text with
  | some start => fillsUp text place start
  | none => some true

/-- Whether the only separator of a text stands where it may, with what it needs around it. -/
def isPlaced (text : List Char) (place : Nat) : Option Bool :=
  if byteCount text = 1 then some false
  else if separatorPosition < place ∨ place % 2 = 1 then some false
  else do if ← isPadded text place then notOneBehind text place else some false

def isValid (text : List Char) : Option Bool :=
  if text = [] then some false
  else do
    if !(← allLegal text) then some false
    else
      match findByte separator text with
      | none => some false
      | some place =>
        if findLastByte separator text ≠ some place then some false else isPlaced text place

/-- The characters that codes are spelled with. -/
def Legal (c : Char) : Prop := c = separator ∨ c = paddingSymbol ∨ IsSpelling c

instance (c : Char) : Decidable (Legal c) := inferInstanceAs (Decidable (_ ∨ _))

theorem isSome_ofChar? (c : Char) : (ofChar? c).isSome = true ↔ IsSpelling c := by
  rw [Option.isSome_iff_exists]
  constructor
  · rintro ⟨d, hd⟩
    exact ⟨d, spells_iff.2 (symbol_of_ofChar? hd).symm⟩
  · rintro ⟨d, hd⟩
    exact ⟨d, by rw [← ofChar?_toUpper, spells_iff.1 hd, ofChar?_symbol]⟩

theorem legal_iff {c : Char} :
    Legal c ↔ (c = separator ∨ c = paddingSymbol) ∨ (ofChar? c).isSome = true := by
  rw [Legal, isSome_ofChar?, or_assoc]

theorem isLegal_eq (c : Char) : isLegal c = some (decide (Legal c)) := by
  unfold isLegal
  by_cases h : c = separator ∨ c = paddingSymbol
  · rw [if_pos h, decide_eq_true (legal_iff.2 (Or.inl h))]
  · rw [if_neg h, digitOf_eq, Option.map_some, Option.isSome_map]
    congr 1
    rw [Bool.eq_iff_iff, decide_eq_true_iff, legal_iff]
    exact ⟨Or.inr, fun hlegal => hlegal.resolve_left h⟩

theorem allLegal_eq (text : List Char) : allLegal text = some (decide (∀ c ∈ text, Legal c)) := by
  induction text with
  | nil => simp [allLegal]
  | cons c rest ih =>
    unfold allLegal
    rw [isLegal_eq, ih]
    by_cases h : Legal c <;> simp [h]

theorem utf8Size_of_legal {c : Char} (h : Legal c) : c.utf8Size = 1 := by
  rcases h with rfl | rfl | ⟨d, rfl | rfl⟩
  · decide
  · decide
  · revert d; decide
  · revert d; decide

/-! ## The parts of a text -/

/-- A text has one front before the first place of a character. -/
theorem eq_of_append_cons_eq {x : Char} {xs ys xs' ys' : List Char} (hx : x ∉ xs) (hx' : x ∉ xs')
    (h : xs ++ x :: ys = xs' ++ x :: ys') : xs = xs' ∧ ys = ys' := by
  have hindex := congrArg (List.idxOf x) h
  rw [List.idxOf_append_of_notMem hx, List.idxOf_append_of_notMem hx', List.idxOf_cons_self,
    List.idxOf_cons_self, Nat.add_zero, Nat.add_zero] at hindex
  obtain ⟨hfront, hback⟩ := List.append_inj h hindex
  exact ⟨hfront, (List.cons.inj hback).2⟩

section

variable {before after : List Char}

theorem isSpelling_of_legal {c : Char} (h : Legal c) (hseparator : c ≠ separator)
    (hpadding : c ≠ paddingSymbol) : IsSpelling c :=
  (h.resolve_left hseparator).resolve_left hpadding

/-- What the grammar asks of a text without padding. -/
theorem exists_grammar_iff_of_not_mem (hspelled : ∀ c ∈ before ++ after, IsSpelling c) :
    (∃ n, Grammar before after n) ↔ before.length ≤ separatorPosition ∧ before.length % 2 = 0 ∧
      after.length ≠ 1 ∧ before ++ after ≠ [] := by
  constructor
  · rintro ⟨n, hgrammar⟩
    cases hgrammar with
    | unpadded _ pairs notOne some =>
      simp only [List.mem_cons, List.not_mem_nil, or_false, separatorPosition] at pairs ⊢
      exact ⟨by omega, by omega, notOne, some⟩
    | @padded lead k _ pairs full =>
      have hk : 0 < k := by
        simp only [List.mem_cons, List.not_mem_nil, or_false, separatorPosition] at pairs full
        omega
      have hmem : paddingSymbol ∈ (lead ++ List.replicate k paddingSymbol) ++ [] := by
        simp [hk.ne']
      exact absurd (hspelled _ hmem) (by decide)
  · rintro ⟨hle, heven, hone, hne⟩
    refine ⟨_, .unpadded hspelled ?_ hone hne⟩
    simp only [List.mem_cons, List.not_mem_nil, or_false, separatorPosition] at hle ⊢
    omega

/-- What it asks of one with padding before the separator. -/
theorem exists_grammar_iff_of_padding {lead rest : List Char}
    (hspelled : ∀ c ∈ lead, IsSpelling c) :
    (∃ n, Grammar (lead ++ paddingSymbol :: rest) after n) ↔
      (lead ++ paddingSymbol :: rest).length = separatorPosition ∧
        (lead.length ≠ 0 ∧ lead.length % 2 = 0) ∧ after = [] ∧
        (paddingSymbol :: rest).all (· = paddingSymbol) = true := by
  have hlead : paddingSymbol ∉ lead := fun hmem => absurd (hspelled _ hmem) (by decide)
  constructor
  · rintro ⟨n, hgrammar⟩
    generalize hbefore : lead ++ paddingSymbol :: rest = before at hgrammar
    cases hgrammar with
    | unpadded spelled =>
      have hmem : paddingSymbol ∈ before ++ after := by simp [← hbefore]
      exact absurd (spelled _ hmem) (by decide)
    | @padded front k spelled pairs full =>
      have hfront : paddingSymbol ∉ front := fun hmem => absurd (spelled _ hmem) (by decide)
      simp only [List.mem_cons, List.not_mem_nil, or_false, separatorPosition] at pairs full
      obtain ⟨k, rfl⟩ := Nat.exists_eq_succ_of_ne_zero (by omega : k ≠ 0)
      obtain ⟨rfl, rfl⟩ := eq_of_append_cons_eq hlead hfront hbefore
      rw [← List.replicate_succ, List.length_append, List.length_replicate]
      exact ⟨full, ⟨by omega, by omega⟩, rfl, by simp⟩
  · rintro ⟨hlength, ⟨hne, heven⟩, rfl, hall⟩
    obtain ⟨k, hk⟩ : ∃ k, paddingSymbol :: rest = List.replicate k paddingSymbol :=
      ⟨_, List.eq_replicate_iff.2 ⟨rfl, by simpa using hall⟩⟩
    rw [hk] at hlength ⊢
    rw [List.length_append, List.length_replicate] at hlength
    have hpos : 0 < k := by
      rw [← List.length_replicate (n := k) (a := paddingSymbol), ← hk]
      exact Nat.succ_pos _
    refine ⟨_, .padded hspelled ?_ hlength⟩
    simp only [List.mem_cons, List.not_mem_nil, or_false, separatorPosition] at hlength ⊢
    omega

theorem length_before_of_grammar {n : Nat} (h : Grammar before after n) :
    before.length ≤ separatorPosition ∧ before.length % 2 = 0 := by
  cases h with
  | unpadded _ pairs =>
    simp only [List.mem_cons, List.not_mem_nil, or_false, separatorPosition] at pairs ⊢
    omega
  | padded _ _ full =>
    rw [List.length_append, List.length_replicate, full]
    decide

/-- The offsets of a text whose characters take one byte each are the counts of characters. -/
theorem byteCount_parts (hlegal : ∀ c ∈ before ++ after, Legal c) :
    byteCount before = before.length ∧ byteCount after = after.length ∧
      byteCount (before ++ separator :: after) = before.length + 1 + after.length := by
  have hbefore : byteCount before = before.length :=
    byteCount_of_ascii fun c hc => utf8Size_of_legal (hlegal c (List.mem_append_left _ hc))
  have hafter : byteCount after = after.length :=
    byteCount_of_ascii fun c hc => utf8Size_of_legal (hlegal c (List.mem_append_right _ hc))
  have hone : separator.utf8Size = 1 := by decide
  refine ⟨hbefore, hafter, ?_⟩
  rw [byteCount_append, byteCount_cons, hbefore, hafter, hone, Nat.add_assoc]

theorem notOneBehind_append (hlegal : ∀ c ∈ before ++ after, Legal c) :
    notOneBehind (before ++ separator :: after) before.length =
      some (decide (after.length ≠ 1)) := by
  have hbehind : before.length + 1 + after.length - before.length - 1 = after.length := by omega
  rw [notOneBehind, (byteCount_parts hlegal).2.2, subCount_eq_some (by omega)]
  dsimp only [Option.bind_eq_bind, Option.bind_some]
  rw [subCount_eq_some (by omega), Option.bind_some, hbehind]

/-- Where padding starts before the separator, all that is asked of it is compared first. -/
theorem fillsUp_append {lead rest : List Char}
    (hlegal : ∀ c ∈ (lead ++ paddingSymbol :: rest) ++ after, Legal c)
    (hle : (lead ++ paddingSymbol :: rest).length ≤ separatorPosition) :
    ∃ filled, fillsUp (lead ++ paddingSymbol :: rest ++ separator :: after)
        (lead ++ paddingSymbol :: rest).length lead.length = some filled ∧
      (filled = true ↔ (lead ++ paddingSymbol :: rest).length = separatorPosition ∧
        (lead.length ≠ 0 ∧ lead.length % 2 = 0) ∧ after = [] ∧
        (paddingSymbol :: rest).all (· = paddingSymbol) = true) := by
  have hcount := (byteCount_parts hlegal).2.2
  have hslice : sliceBytes (lead ++ paddingSymbol :: rest ++ separator :: after) lead.length
      (lead ++ paddingSymbol :: rest).length = some (paddingSymbol :: rest) := by
    have hsizes := hlegal
    rw [List.append_assoc] at hsizes
    obtain ⟨hlead, hrest, -⟩ := byteCount_parts hsizes
    have hpadding : byteCount (paddingSymbol :: rest) = (paddingSymbol :: rest).length :=
      byteCount_of_ascii fun c hc =>
        utf8Size_of_legal (hlegal c (List.mem_append_left _ (List.mem_append_right _ hc)))
    have hslice := sliceBytes_append lead (paddingSymbol :: rest) (separator :: after)
    rwa [hlead, hpadding, ← List.length_append] at hslice
  generalize lead ++ paddingSymbol :: rest = before at hcount hslice hle ⊢
  unfold fillsUp
  by_cases hplace : before.length < separatorPosition
  · rw [if_pos hplace]
    exact ⟨false, rfl, iff_of_false Bool.false_ne_true fun h => by omega⟩
  rw [if_neg hplace]
  by_cases hstart : lead.length = 0 ∨ lead.length % 2 = 1
  · rw [if_pos hstart]
    exact ⟨false, rfl, iff_of_false Bool.false_ne_true fun h => by omega⟩
  have hnext : before.length + 1 < 2 ^ 64 := by
    simp only [separatorPosition] at hle
    omega
  rw [if_neg hstart, addCount_eq_some hnext, hcount]
  dsimp only [Option.bind_eq_bind, Option.bind_some]
  by_cases hafter : after = []
  · subst hafter
    rw [if_neg (by simp), hslice]
    refine ⟨_, rfl, fun hall => ⟨by omega, by omega, rfl, hall⟩, fun h => h.2.2.2⟩
  · have hpos := List.length_pos_iff.2 hafter
    rw [if_pos (by omega)]
    exact ⟨false, rfl, iff_of_false Bool.false_ne_true fun h => hafter h.2.2.1⟩

/-- Where padding starts behind the separator, the text is given up before it is sliced. -/
theorem fillsUp_behind (hlegal : ∀ c ∈ before ++ after, Legal c) (hne : after ≠ [])
    (hle : before.length ≤ separatorPosition) (start : Nat) :
    fillsUp (before ++ separator :: after) before.length start = some false := by
  have hpos := List.length_pos_iff.2 hne
  have hnext : before.length + 1 < 2 ^ 64 := by
    simp only [separatorPosition] at hle
    omega
  unfold fillsUp
  split
  · rfl
  · split
    · rfl
    · rw [addCount_eq_some hnext, (byteCount_parts hlegal).2.2]
      dsimp only [Option.bind_eq_bind, Option.bind_some]
      rw [if_pos (by omega)]

theorem isSpelling_of_mem (hbefore : separator ∉ before) (hafter : separator ∉ after)
    (hlegal : ∀ c ∈ before ++ after, Legal c) {c : Char} (hc : c ∈ before ++ after)
    (hpadding : c ≠ paddingSymbol) : IsSpelling c := by
  refine isSpelling_of_legal (hlegal c hc) ?_ hpadding
  rintro rfl
  exact (List.mem_append.1 hc).elim hbefore hafter

theorem isPadded_before {lead rest : List Char} (hlead : paddingSymbol ∉ lead)
    (hbefore : separator ∉ lead ++ paddingSymbol :: rest) (hafter : separator ∉ after)
    (hlegal : ∀ c ∈ (lead ++ paddingSymbol :: rest) ++ after, Legal c)
    (hle : (lead ++ paddingSymbol :: rest).length ≤ separatorPosition) :
    ∃ padded, isPadded (lead ++ paddingSymbol :: rest ++ separator :: after)
        (lead ++ paddingSymbol :: rest).length = some padded ∧
      (padded = true ∧ after.length ≠ 1 ↔
        ∃ n, Grammar (lead ++ paddingSymbol :: rest) after n) := by
  have hmem {c : Char} (hc : c ∈ lead) : c ∈ (lead ++ paddingSymbol :: rest) ++ after :=
    List.mem_append_left _ (List.mem_append_left _ hc)
  have hstart : byteCount lead = lead.length :=
    byteCount_of_ascii fun c hc => utf8Size_of_legal (hlegal c (hmem hc))
  have hfind : findByte paddingSymbol (lead ++ paddingSymbol :: rest ++ separator :: after) =
      some lead.length := by
    rw [List.append_assoc, List.cons_append, findByte_append hlead, hstart]
  have hspelled : ∀ c ∈ lead, IsSpelling c := fun c hc =>
    isSpelling_of_mem hbefore hafter hlegal (hmem hc) (ne_of_mem_of_not_mem hc hlead)
  obtain ⟨filled, hfilled, hiff⟩ := fillsUp_append hlegal hle
  unfold isPadded
  rw [hfind, exists_grammar_iff_of_padding hspelled, ← hiff]
  refine ⟨filled, hfilled, And.left, fun h => ⟨h, ?_⟩⟩
  rw [(hiff.1 h).2.2.1]
  exact Nat.zero_ne_one

/-- Padding is no digit, and behind the separator of a padded code nothing stands. -/
theorem isPadded_behind (hbefore : paddingSymbol ∉ before) (hafter : paddingSymbol ∈ after)
    (hlegal : ∀ c ∈ before ++ after, Legal c) (hle : before.length ≤ separatorPosition) :
    isPadded (before ++ separator :: after) before.length = some false ∧
      ¬ ∃ n, Grammar before after n := by
  constructor
  · obtain ⟨front, rest, hsplit, hfront⟩ := List.eq_append_cons_of_mem hafter
    have hnot : paddingSymbol ∉ before ++ separator :: front := by
      simp only [List.mem_append, List.mem_cons, not_or]
      exact ⟨hbefore, by decide, hfront⟩
    have hfind := findByte_append hnot rest
    rw [List.append_assoc, List.cons_append, ← hsplit] at hfind
    unfold isPadded
    rw [hfind]
    exact fillsUp_behind hlegal (List.ne_nil_of_mem hafter) hle _
  · rintro ⟨n, hgrammar⟩
    cases hgrammar with
    | unpadded spelled => exact absurd (spelled _ (List.mem_append_right _ hafter)) (by decide)
    | padded => cases hafter

theorem isPadded_append (hbefore : separator ∉ before) (hafter : separator ∉ after)
    (hlegal : ∀ c ∈ before ++ after, Legal c) (hne : before ++ after ≠ [])
    (hle : before.length ≤ separatorPosition) (heven : before.length % 2 = 0) :
    ∃ padded, isPadded (before ++ separator :: after) before.length = some padded ∧
      (padded = true ∧ after.length ≠ 1 ↔ ∃ n, Grammar before after n) := by
  by_cases hmem : paddingSymbol ∈ before
  · obtain ⟨lead, rest, rfl, hlead⟩ := List.eq_append_cons_of_mem hmem
    exact isPadded_before hlead hbefore hafter hlegal hle
  by_cases hmem' : paddingSymbol ∈ after
  · obtain ⟨hpadded, hgrammar⟩ := isPadded_behind hmem hmem' hlegal hle
    exact ⟨false, hpadded, iff_of_false (fun h => Bool.false_ne_true h.1) hgrammar⟩
  · have hnot : paddingSymbol ∉ before ++ separator :: after := by
      simp only [List.mem_append, List.mem_cons, not_or]
      exact ⟨hmem, by decide, hmem'⟩
    have hspelled : ∀ c ∈ before ++ after, IsSpelling c := by
      intro c hc
      refine isSpelling_of_mem hbefore hafter hlegal hc ?_
      rintro rfl
      exact (List.mem_append.1 hc).elim hmem hmem'
    unfold isPadded
    rw [findByte_eq_none hnot, exists_grammar_iff_of_not_mem hspelled]
    exact ⟨true, rfl, fun h => ⟨hle, heven, h.2, hne⟩, fun h => ⟨rfl, h.2.2.1⟩⟩

/-- The checks around the separator decide what the grammar says, and none of them fails. -/
theorem isPlaced_append (hbefore : separator ∉ before) (hafter : separator ∉ after)
    (hlegal : ∀ c ∈ before ++ after, Legal c) :
    ∃ placed, isPlaced (before ++ separator :: after) before.length = some placed ∧
      (placed = true ↔ ∃ n, Grammar before after n) := by
  unfold isPlaced
  rw [(byteCount_parts hlegal).2.2]
  by_cases hone : before.length + 1 + after.length = 1
  · have hempty : before = [] ∧ after = [] :=
      ⟨List.length_eq_zero_iff.1 (by omega), List.length_eq_zero_iff.1 (by omega)⟩
    rw [if_pos hone, hempty.1, hempty.2, exists_grammar_iff_of_not_mem (by simp)]
    exact ⟨false, rfl, by simp⟩
  rw [if_neg hone]
  by_cases hplace : separatorPosition < before.length ∨ before.length % 2 = 1
  · rw [if_pos hplace]
    refine ⟨false, rfl, iff_of_false Bool.false_ne_true ?_⟩
    rintro ⟨n, hgrammar⟩
    have := length_before_of_grammar hgrammar
    omega
  have hne : before ++ after ≠ [] := by
    rw [← List.length_pos_iff, List.length_append]
    omega
  obtain ⟨padded, hpadded, hiff⟩ :=
    isPadded_append hbefore hafter hlegal hne (by omega) (by omega)
  rw [if_neg hplace, hpadded, ← hiff]
  dsimp only [Option.bind_eq_bind, Option.bind_some]
  cases padded with
  | false => exact ⟨false, rfl, by simp⟩
  | true =>
    rw [if_pos rfl, notOneBehind_append hlegal]
    exact ⟨_, rfl, by simp⟩

theorem separator_not_mem_of_grammar {n : Nat} (h : Grammar before after n) :
    separator ∉ before ∧ separator ∉ after := by
  have hnot : ¬ IsSpelling separator := by decide
  cases h with
  | unpadded spelled =>
    exact ⟨fun hmem => hnot (spelled _ (List.mem_append_left _ hmem)),
      fun hmem => hnot (spelled _ (List.mem_append_right _ hmem))⟩
  | padded spelled =>
    refine ⟨fun hmem => ?_, List.not_mem_nil⟩
    rcases List.mem_append.1 hmem with hlead | hpadding
    · exact hnot (spelled _ hlead)
    · exact absurd (List.eq_of_mem_replicate hpadding) (by decide)

theorem legal_of_grammar {n : Nat} (h : Grammar before after n) :
    ∀ c ∈ before ++ separator :: after, Legal c := by
  intro c hc
  rcases List.mem_append.1 hc with hbefore | hc
  · cases h with
    | unpadded spelled => exact Or.inr (Or.inr (spelled _ (List.mem_append_left _ hbefore)))
    | padded spelled =>
      rcases List.mem_append.1 hbefore with hlead | hpadding
      · exact Or.inr (Or.inr (spelled _ hlead))
      · exact Or.inr (Or.inl (List.eq_of_mem_replicate hpadding))
  · rcases List.mem_cons.1 hc with rfl | hafter
    · exact Or.inl rfl
    · cases h with
      | unpadded spelled => exact Or.inr (Or.inr (spelled _ (List.mem_append_right _ hafter)))
      | padded => cases hafter

/-- A text whose first separator is known is read exactly if the grammar makes it up. -/
theorem isSome_ofText?_iff (hbefore : separator ∉ before) :
    (Code.ofText? (before ++ separator :: after)).isSome = true ↔ ∃ n, Grammar before after n := by
  rw [Option.isSome_iff_exists]
  constructor
  · rintro ⟨c, hc⟩
    obtain ⟨front, back, heq, hreads⟩ := exists_reads hc
    have hgrammar := hreads.grammar
    obtain ⟨rfl, rfl⟩ :=
      eq_of_append_cons_eq hbefore (separator_not_mem_of_grammar hgrammar).1 heq
    exact ⟨_, hgrammar⟩
  · rintro ⟨n, hgrammar⟩
    obtain ⟨c, hreads, -⟩ := hgrammar.exists_reads
    exact ⟨c, hreads.ofText?⟩

end

/-- A separator behind the first one is found from the end. -/
theorem findLastByte_ne {before after : List Char} (h : separator ∈ after) :
    findLastByte separator (before ++ separator :: after) ≠ some (byteCount before) := by
  obtain ⟨back, front, hreverse, hback⟩ := List.eq_append_cons_of_mem (List.mem_reverse.2 h)
  have hsplit : after = front.reverse ++ separator :: back.reverse := by
    simpa using congrArg List.reverse hreverse
  have hlast := @findLastByte_append separator back.reverse (by simpa using hback)
    (before ++ separator :: front.reverse)
  rw [List.append_assoc, List.cons_append, ← hsplit] at hlast
  have hpos := separator.utf8Size_pos
  rw [hlast, byteCount_append, byteCount_cons]
  intro heq
  have := Option.some.inj heq
  omega

theorem exists_grammar_of_isSome {text : List Char} (h : (Code.ofText? text).isSome = true) :
    ∃ before after n, text = before ++ separator :: after ∧ Grammar before after n := by
  obtain ⟨c, hc⟩ := Option.isSome_iff_exists.1 h
  obtain ⟨before, after, heq, hreads⟩ := exists_reads hc
  exact ⟨before, after, _, heq, hreads.grammar⟩

/-- The characters of a code take one byte each. -/
theorem utf8Size_of_ofText? {text : List Char} {c : Code} (h : Code.ofText? text = some c) :
    ∀ x ∈ text, x.utf8Size = 1 := by
  obtain ⟨before, after, rfl, hreads⟩ := exists_reads h
  exact fun x hx => utf8Size_of_legal (legal_of_grammar hreads.grammar x hx)

/-- Validity is decided without failing, for any text. -/
theorem isValid_eq (text : List Char) : isValid text = some (kind text).isValid := by
  show isValid text = some (Code.ofText? text).isSome
  have hinvalid (h : ¬ (Code.ofText? text).isSome = true) :
      some false = some (Code.ofText? text).isSome := by rw [Bool.eq_false_iff.2 h]
  unfold isValid
  by_cases hempty : text = []
  · rw [if_pos hempty, hempty]
    rfl
  rw [if_neg hempty, allLegal_eq, Option.bind_eq_bind, Option.bind_some]
  by_cases hlegal : ∀ c ∈ text, Legal c
  · rw [decide_eq_true hlegal, Bool.not_true, if_neg Bool.false_ne_true]
    by_cases hmem : separator ∈ text
    · obtain ⟨before, after, rfl, hbefore⟩ := List.eq_append_cons_of_mem hmem
      have hparts : ∀ c ∈ before ++ after, Legal c := by
        intro c hc
        refine hlegal c ?_
        simp only [List.mem_append, List.mem_cons] at hc ⊢
        tauto
      rw [findByte_append hbefore]
      dsimp only
      by_cases hafter : separator ∈ after
      · rw [if_pos (findLastByte_ne hafter)]
        refine hinvalid ?_
        rw [isSome_ofText?_iff hbefore]
        rintro ⟨n, hgrammar⟩
        exact (separator_not_mem_of_grammar hgrammar).2 hafter
      · rw [findLastByte_append hafter, (byteCount_parts hparts).1]
        obtain ⟨placed, hplaced, hiff⟩ := isPlaced_append hbefore hafter hparts
        have hsome : placed = (Code.ofText? (before ++ separator :: after)).isSome := by
          rw [Bool.eq_iff_iff, hiff, isSome_ofText?_iff hbefore]
        rw [if_neg (fun hne => hne rfl), hplaced, hsome]
    · rw [findByte_eq_none hmem]
      refine hinvalid fun hsome => ?_
      obtain ⟨before, after, n, rfl, -⟩ := exists_grammar_of_isSome hsome
      exact hmem (List.mem_append_right _ List.mem_cons_self)
  · rw [decide_eq_false hlegal, Bool.not_false, if_pos rfl]
    refine hinvalid fun hsome => ?_
    obtain ⟨before, after, n, rfl, hgrammar⟩ := exists_grammar_of_isSome hsome
    exact hlegal (legal_of_grammar hgrammar)

/-! ## Short and full texts -/

def isShort (text : List Char) : Option Bool := do
  if ← isValid text then some ((findByte separator text).any (· < separatorPosition))
  else some false

def firstDigit : List Char → Option (Option Nat)
  | [] => some none
  | c :: _ => digitOf c

/-- Whether the row or column of a first digit starts below the end of its axis. -/
def startsBelow (digit : Option Nat) (fallback : Bool) (degrees : Binary64) : Option Bool :=
  match digit with
  | some value => (mulCount value 20).map fun start => decide (.ofNat start < degrees * 2)
  | none => some fallback

def isFull (text : List Char) : Option Bool := do
  if !(← isValid text) then some false
  else if ← isShort text then some false
  else if !(← startsBelow (← firstDigit text) false 90) then some false
  else startsBelow (← firstDigit (text.drop 1)) true 180

theorem isShort_eq (text : List Char) : isShort text = some (kind text).isShort := by
  unfold isShort
  rw [isValid_eq, Option.bind_eq_bind, Option.bind_some]
  cases hc : Code.ofText? text with
  | none =>
    rw [kind_of_eq_none hc]
    rfl
  | some c =>
    obtain ⟨before, after, rfl, hreads⟩ := exists_reads hc
    have hlegal := legal_of_grammar hreads.grammar
    have hbytes : byteCount before = before.length :=
      byteCount_of_ascii fun x hx => utf8Size_of_legal (hlegal x (List.mem_append_left _ hx))
    have hplace : decide (before.length < separatorPosition) = c.isShort := by
      rw [Bool.eq_iff_iff, decide_eq_true_iff, hreads.isShort_iff]
    rw [kind_of_ofText? hc, findByte_append (separator_not_mem_of_grammar hreads.grammar).1,
      hbytes, if_pos rfl, Option.any_some, hplace]

theorem startsBelow_eq (d : Digit) (fallback : Bool) :
    startsBelow (some d.val) fallback 90 = some (decide (d < (9 : Digit))) ∧
      startsBelow (some d.val) fallback 180 = some (decide (d < (18 : Digit))) := by
  revert d fallback
  decide +kernel

theorem digitOf_of_spells {c : Char} {d : Digit} (h : Spells c d) :
    digitOf c = some (some d.val) := by
  rw [digitOf_eq, ← ofChar?_toUpper, spells_iff.1 h, ofChar?_symbol, Option.map_some]

theorem isFull_eq (text : List Char) : isFull text = some (kind text).isFull := by
  unfold isFull
  rw [isValid_eq, Option.bind_eq_bind, Option.bind_some]
  cases hc : Code.ofText? text with
  | none =>
    rw [kind_of_eq_none hc]
    rfl
  | some c =>
    rw [kind_of_ofText? hc, isShort_eq, kind_of_ofText? hc]
    cases hshort : c.isShort with
    | true => simp [Code.isFull, hshort]
    | false =>
      obtain ⟨before, after, rfl, hreads⟩ := exists_reads hc
      have hlength := (isShort_or_full_length hreads).resolve_left
        (fun h => by simp [hreads.isShort_iff.2 h] at hshort)
      obtain ⟨a, b, rest, row, column, lead, rfl, hlead, ha, hb⟩ := hreads.exists_pair hlength
      have hfirst : firstDigit (a :: b :: rest ++ separator :: after) = some (some row.val) :=
        digitOf_of_spells ha
      have hsecond : firstDigit ((a :: b :: rest ++ separator :: after).drop 1) =
          some (some column.val) := digitOf_of_spells hb
      rw [hfirst, hsecond]
      simp only [Option.bind_eq_bind, Option.bind_some, (startsBelow_eq _ _).1,
        (startsBelow_eq _ _).2, Code.isFull, hshort, isOnGlobe, hlead]
      by_cases h : row < (9 : Digit) <;> simp [h]

/-! ## Digits of texts -/

def cleanCode (text : List Char) : Option (List Char) :=
  let kept := text.filter (· ≠ separator)
  match findByte paddingSymbol kept with
  | some offset => truncateBytes kept offset
  | none => some kept

def codeLength (text : List Char) : Option Nat := (cleanCode text).map List.length

/-- The offset of a padding is where a character starts, whatever stands before it. -/
theorem cleanCode_eq (text : List Char) : cleanCode text = some (significant text) := by
  unfold cleanCode significant
  generalize text.filter (· ≠ separator) = kept
  dsimp only
  by_cases hmem : paddingSymbol ∈ kept
  · obtain ⟨front, rest, rfl, hfront⟩ := List.eq_append_cons_of_mem hmem
    have htake : (front ++ paddingSymbol :: rest).takeWhile (· ≠ paddingSymbol) = front := by
      rw [List.takeWhile_append_of_pos fun x hx =>
          decide_eq_true (ne_of_mem_of_not_mem hx hfront),
        List.takeWhile_cons_of_neg (by simp), List.append_nil]
    rw [findByte_append hfront, htake]
    exact truncateBytes_append _ _
  · have htake : kept.takeWhile (· ≠ paddingSymbol) = kept :=
      List.takeWhile_eq_self_iff.2 fun x hx => decide_eq_true (ne_of_mem_of_not_mem hx hmem)
    rw [findByte_eq_none hmem, htake]

theorem codeLength_eq (text : List Char) : codeLength text = some (kind text).digitCount := by
  rw [codeLength, cleanCode_eq, Option.map_some, kind]

end OpenLocation.Checked
