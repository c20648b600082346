import OpenLocation.Decimal.Layout
import OpenLocation.Decimal.Numeral
import OpenLocation.Proofs.Decimal.Shortest

/-!
# Numerals as they are spelled

A `Numeral` is digits around a point, a zero in front standing alone, and an exponent if there is
one. Every layout writes a finite double as a numeral after a sign, positionally or with the
exponent, and the numeral has the value of the shortest decimal (`exists_numeral`). The reader of
single numbers and the tokens of JSON take a numeral for its decimal, whatever stands behind it
that does not go on with a number. So what a layout writes is read back as the double.
-/

namespace OpenLocation

namespace Decimal

/-! ## Digits -/

theorem digitsValue_append (front back : List Char) :
    digitsValue (front ++ back) = digitsValue front * 10 ^ back.length + digitsValue back := by
  have h (digits : List Char) : digitsValue digits = Nat.ofDigitChars 10 digits 0 :=
    Nat.ofDigitChars_eq_foldl.symm
  rw [h, h, h, Nat.ofDigitChars_append, Nat.ofDigitChars_eq_ofDigitChars_zero, Nat.mul_comm]

theorem digitsValue_toDigits (n : Nat) : digitsValue (Nat.toDigits 10 n) = n :=
  Nat.ofDigitChars_eq_foldl.symm.trans Nat.ofDigitChars_ten_toDigits

theorem digitsValue_replicate (count : Nat) : digitsValue (List.replicate count '0') = 0 := by
  refine Nat.ofDigitChars_eq_foldl.symm.trans ?_
  rw [Nat.ofDigitChars_replicate_zero, Nat.mul_zero]

theorem isDigit_toDigits (n : Nat) : ∀ c ∈ Nat.toDigits 10 n, c.isDigit = true :=
  fun _ hc => Nat.isDigit_of_mem_toDigits (by decide) (by decide) hc

theorem isDigit_zeros {count : Nat} {c : Char} (h : c ∈ List.replicate count '0') :
    c.isDigit = true := by
  rw [List.eq_of_mem_replicate h]
  rfl

theorem head?_toDigits_ne {n : Nat} (h : n ≠ 0) : (Nat.toDigits 10 n).head? ≠ some '0' := by
  induction n using Nat.strong_induction_on with
  | h n ih =>
    rw [Nat.toDigits_eq_if (by decide)]
    split
    · next hlt =>
      clear ih
      revert h
      interval_cases n <;> decide
    · rw [List.head?_append_of_ne_nil _ Nat.toDigits_ne_nil]
      exact ih (n / 10) (by omega) (by omega)

/-- Digits without a zero in front. -/
structure Significant (digits : List Char) : Prop where
  ne_nil : digits ≠ []
  isDigit : ∀ c ∈ digits, c.isDigit = true
  head_ne : digits.head? ≠ some '0'

theorem significant_toDigits {n : Nat} (h : n ≠ 0) : Significant (Nat.toDigits 10 n) :=
  ⟨Nat.toDigits_ne_nil, isDigit_toDigits n, head?_toDigits_ne h⟩

/-- Digits are what is left without the zeros at the end, and these. -/
theorem eq_append_replicate (digits : List Char) :
    ∃ count, digits = (digits.reverse.dropWhile (· = '0')).reverse ++ List.replicate count '0' := by
  have hzeros : ∀ c ∈ (digits.reverse.takeWhile (· = '0')).reverse, c = '0' := fun c hc =>
    of_decide_eq_true (p := c = '0')
      (List.mem_takeWhile_imp (p := (· = '0')) (List.mem_reverse.1 hc))
  refine ⟨(digits.reverse.takeWhile (· = '0')).reverse.length, ?_⟩
  rw [← List.eq_replicate_iff.2 ⟨rfl, hzeros⟩, ← List.reverse_append,
    List.takeWhile_append_dropWhile, List.reverse_reverse]

theorem Significant.of_append {front : List Char} {count : Nat}
    (h : Significant (front ++ List.replicate count '0')) : Significant front := by
  have hne : front ≠ [] := by
    rintro rfl
    cases count with
    | zero => exact h.ne_nil rfl
    | succ count => exact h.head_ne rfl
  refine ⟨hne, fun c hc => h.isDigit c (List.mem_append_left _ hc), ?_⟩
  rw [← List.head?_append_of_ne_nil _ hne]
  exact h.head_ne

/-- The digits of a coefficient and the place of the first stand for its value. -/
theorem leading_spec {d : Decimal} (h : d.coefficient ≠ 0) :
    Significant d.leading.1 ∧
      d.value = digitsValue d.leading.1 * 10 ^ (d.leading.2 + 1 - d.leading.1.length) := by
  obtain ⟨count, hdigits⟩ := eq_append_replicate (Nat.toDigits 10 d.coefficient)
  have hsignificant := significant_toDigits h
  have hvalue := digitsValue_toDigits d.coefficient
  rw [leading]
  dsimp only
  generalize (List.dropWhile _ _).reverse = front at *
  generalize Nat.toDigits 10 d.coefficient = digits at *
  subst hdigits
  refine ⟨hsignificant.of_append, ?_⟩
  rw [digitsValue_append, digitsValue_replicate, List.length_replicate, Nat.add_zero] at hvalue
  have hexponent : ((front ++ List.replicate count '0').length - 1 + d.exponent + 1 - front.length :
      Int) = count + d.exponent := by
    rw [List.length_append, List.length_replicate]
    push_cast
    ring
  rw [hexponent, zpow_add₀ (by norm_num), ← mul_assoc, value, ← hvalue]
  push_cast
  rw [zpow_natCast]

/-! ## Spellings -/

theorem splitSign_of_digit {text : List Char} (h : ∀ c ∈ text.head?, c.isDigit = true) :
    splitSign text = (false, text) := by
  unfold splitSign
  split
  · exact absurd (h '-' rfl) (by decide)
  · exact absurd (h '+' rfl) (by decide)
  · rfl

/-- The exponent of a number: a letter in either case, a sign or none, and digits. -/
structure Exponent where
  mark : Char
  sign : List Char
  digits : List Char
  mark_eq : mark = 'e' ∨ mark = 'E'
  sign_mem : sign ∈ [[], ['+'], ['-']]
  digits_ne_nil : digits ≠ []
  isDigit_digits : ∀ c ∈ digits, c.isDigit = true

namespace Exponent

def text (e : Exponent) : List Char := e.mark :: (e.sign ++ e.digits)

def value (e : Exponent) : Int := signed (e.sign = ['-']) (digitsValue e.digits)

/-- The exponent as layouts write it, with a sign in any case. -/
def ofInt (exponent : Int) : Exponent where
  mark := 'e'
  sign := [if exponent < 0 then '-' else '+']
  digits := Nat.toDigits 10 exponent.natAbs
  mark_eq := Or.inl rfl
  sign_mem := by split <;> decide
  digits_ne_nil := Nat.toDigits_ne_nil
  isDigit_digits := isDigit_toDigits _

theorem value_ofInt (exponent : Int) : (ofInt exponent).value = exponent := by
  rw [value, ofInt, digitsValue_toDigits, signed]
  rcases Int.lt_or_le exponent 0 with hneg | hpos
  · simp only [if_pos hneg, decide_true, if_true]
    omega
  · simp only [if_neg (Int.not_lt.2 hpos)]
    rw [if_neg (by decide)]
    omega

/-- The sign is split off, and the digits are left. -/
theorem splitSign_text (e : Exponent) (rest : List Char) :
    splitSign (e.sign ++ (e.digits ++ rest)) = (decide (e.sign = ['-']), e.digits ++ rest) := by
  obtain ⟨c, more, hcons⟩ := List.exists_cons_of_ne_nil e.digits_ne_nil
  have hc : c.isDigit = true := e.isDigit_digits c (hcons ▸ List.mem_cons_self)
  have hsign := e.sign_mem
  simp only [List.mem_cons, List.not_mem_nil, or_false] at hsign
  rcases hsign with hnone | hplus | hminus
  · rw [hnone, hcons]
    exact splitSign_of_digit fun d hd => Option.some.inj hd ▸ hc
  · rw [hplus]
    rfl
  · rw [hminus]
    rfl

end Exponent

/-- A number as it is spelled. -/
structure Numeral where
  whole : List Char
  fraction : List Char
  exponent : Option Exponent
  whole_ne_nil : whole ≠ []
  isDigit_whole : ∀ c ∈ whole, c.isDigit = true
  zero_alone : whole.head? = some '0' → whole.length = 1
  isDigit_fraction : ∀ c ∈ fraction, c.isDigit = true

namespace Numeral

def pointText (fraction : List Char) : List Char :=
  if fraction = [] then [] else '.' :: fraction

def exponentText : Option Exponent → List Char
  | none => []
  | some exponent => exponent.text

def exponentValue : Option Exponent → Int
  | none => 0
  | some exponent => exponent.value

@[simp] theorem exponentValue_none : exponentValue none = 0 := rfl

@[simp] theorem exponentValue_some (e : Exponent) : exponentValue (some e) = e.value := rfl

def text (n : Numeral) : List Char :=
  n.whole ++ (pointText n.fraction ++ exponentText n.exponent)

def decimal (n : Numeral) : Decimal := .ofParts n.whole n.fraction (exponentValue n.exponent)

end Numeral

/-! ## Layouts -/

theorem value_ofParts (count : Nat) {whole fraction digits : List Char} {exponent e : Int}
    (h : whole ++ fraction = digits ++ List.replicate count '0')
    (he : count + exponent - fraction.length = e) :
    (ofParts whole fraction exponent).value = digitsValue digits * 10 ^ e := by
  rw [value, ofParts, h, digitsValue_append, digitsValue_replicate, List.length_replicate, ← he]
  push_cast
  rw [add_zero, mul_assoc, ← zpow_natCast, ← zpow_add₀ (by norm_num), add_sub_assoc]

/-- Digits behind the point and some zeros. -/
theorem exists_behind {digits : List Char} (h : Significant digits) (zeros : Nat) :
    ∃ n : Numeral, n.text = '0' :: '.' :: (List.replicate zeros '0' ++ digits) ∧
      n.decimal.value = digitsValue digits * 10 ^ (-(zeros + digits.length : Int)) := by
  have hne : List.replicate zeros '0' ++ digits ≠ [] := by simp [h.ne_nil]
  have hzeros : digitsValue ('0' :: (List.replicate zeros '0' ++ digits)) = digitsValue digits := by
    rw [← List.cons_append, ← List.replicate_succ, digitsValue_append, digitsValue_replicate,
      Nat.zero_mul, Nat.zero_add]
  refine ⟨⟨['0'], List.replicate zeros '0' ++ digits, none, by simp, by simp, fun _ => rfl,
    fun c hc => (List.mem_append.1 hc).elim isDigit_zeros (h.isDigit c)⟩, ?_, ?_⟩
  · rw [Numeral.text, Numeral.pointText, if_neg hne, Numeral.exponentText, List.append_nil]
    rfl
  · rw [← hzeros]
    refine value_ofParts 0 (List.append_nil _).symm ?_
    rw [List.length_append, List.length_replicate]
    simp

/-- Digits and some zeros in front of the point, if there is one. -/
theorem exists_before {digits : List Char} (h : Significant digits) (zeros : Nat)
    (keepsPoint : Bool) :
    ∃ n : Numeral, n.text = digits ++ List.replicate zeros '0' ++
        (if keepsPoint then ['.', '0'] else []) ∧
      n.decimal.value = digitsValue digits * 10 ^ (zeros : Int) := by
  refine ⟨⟨digits ++ List.replicate zeros '0', List.replicate keepsPoint.toNat '0', none,
    by simp [h.ne_nil], fun c hc => (List.mem_append.1 hc).elim (h.isDigit c) isDigit_zeros,
    fun hc => ?_, fun c hc => isDigit_zeros hc⟩, ?_, ?_⟩
  · rw [List.head?_append_of_ne_nil _ h.ne_nil] at hc
    exact absurd hc h.head_ne
  · cases keepsPoint <;> simp [Numeral.text, Numeral.pointText, Numeral.exponentText]
  · refine value_ofParts (zeros + keepsPoint.toNat)
      ((List.append_assoc ..).trans (by rw [List.replicate_append_replicate])) ?_
    rw [List.length_replicate]
    simp

/-- Digits on both sides of the point, and perhaps an exponent. -/
theorem exists_around {digits : List Char} (h : Significant digits) {count : Nat} (hpos : count ≠ 0)
    (exponent : Option Exponent) :
    ∃ n : Numeral, n.text = digits.take count ++
        (Numeral.pointText (digits.drop count) ++ Numeral.exponentText exponent) ∧
      n.decimal.value = digitsValue digits *
        10 ^ (Numeral.exponentValue exponent - (digits.length - count : Nat)) := by
  refine ⟨⟨digits.take count, digits.drop count, exponent, by simp [h.ne_nil, hpos],
    fun c hc => h.isDigit c (List.mem_of_mem_take hc), fun hc => ?_,
    fun c hc => h.isDigit c (List.mem_of_mem_drop hc)⟩, rfl, ?_⟩
  · rw [List.head?_take, if_neg hpos] at hc
    exact absurd hc h.head_ne
  · refine value_ofParts 0 ((List.take_append_drop ..).trans (List.append_nil _).symm) ?_
    rw [List.length_drop]
    simp

/-- Digits written around the point spell their value. -/
theorem exists_positional {digits : List Char} (h : Significant digits) (exponent : Int)
    (keepsPoint : Bool) :
    ∃ n : Numeral, n.text = positionalText digits exponent keepsPoint ∧
      n.decimal.value = digitsValue digits * 10 ^ (exponent + 1 - digits.length) := by
  unfold positionalText
  dsimp only
  split
  · next hneg =>
    obtain ⟨n, htext, hn⟩ := exists_behind h (-exponent - 1).toNat
    refine ⟨n, htext, hn.trans ?_⟩
    congr 2
    omega
  split
  · next hpos hle =>
    obtain ⟨n, htext, hn⟩ := exists_before h ((exponent + 1).toNat - digits.length) keepsPoint
    refine ⟨n, htext, hn.trans ?_⟩
    congr 2
    omega
  · next hpos hlt =>
    have hdrop : digits.drop (exponent + 1).toNat ≠ [] := by
      rw [List.ne_nil_iff_length_pos, List.length_drop]
      omega
    obtain ⟨n, htext, hn⟩ := exists_around h (by omega : (exponent + 1).toNat ≠ 0) none
    rw [Numeral.pointText, if_neg hdrop, Numeral.exponentText, List.append_nil] at htext
    refine ⟨n, htext, hn.trans ?_⟩
    congr 2
    rw [Numeral.exponentValue_none]
    omega

/-- Digits written with an exponent spell their value. -/
theorem exists_scientific {digits : List Char} (h : Significant digits) (exponent : Int) :
    ∃ n : Numeral, n.text = scientificText digits exponent ∧
      n.decimal.value = digitsValue digits * 10 ^ (exponent + 1 - digits.length) := by
  have hlength := List.length_pos_iff.2 h.ne_nil
  obtain ⟨n, htext, hn⟩ := exists_around h Nat.one_ne_zero (some (.ofInt exponent))
  refine ⟨n, htext.trans ?_, hn.trans ?_⟩
  · rw [Numeral.pointText, scientificText, List.append_assoc]
    simp only [List.drop_eq_nil_iff]
    rfl
  · congr 2
    rw [Numeral.exponentValue_some, Exponent.value_ofInt]
    omega

/-- Every layout spells a double as a numeral that is read as the double. -/
theorem exists_numeral (layout : Layout) {units : Nat} (h : Representable units) :
    ∃ n : Numeral, n.text = layout.magnitude units ∧
      ∀ negative, n.decimal.toBinary64 negative = .finite negative units h := by
  rcases Nat.eq_zero_or_pos units with rfl | hpos
  · refine ⟨⟨['0'], List.replicate layout.keepsPoint.toNat '0', none, by simp, by simp,
      fun _ => rfl, fun c hc => isDigit_zeros hc⟩, ?_, fun negative => ?_⟩
    · rw [Layout.magnitude, if_pos rfl]
      cases layout.keepsPoint <;> rfl
    · have hzero : digitsValue (['0'] ++ List.replicate layout.keepsPoint.toNat '0') = 0 := by
        rw [List.singleton_append, ← List.replicate_succ, digitsValue_replicate]
      rw [toBinary64, Numeral.decimal, ofParts, Binary64.ofDecimal, if_pos hzero]
      rfl
  · obtain ⟨hsignificant, hvalue⟩ :=
      leading_spec (shortest_coefficient_ne_zero layout.tie hpos h)
    obtain ⟨n, htext, hn⟩ : ∃ n : Numeral, n.text = layout.magnitude units ∧
        n.decimal.value = (shortest layout.tie units).value := by
      rw [hvalue, Layout.magnitude, if_neg hpos.ne']
      dsimp only
      split
      · exact exists_positional hsignificant _ _
      · exact exists_scientific hsignificant _
    exact ⟨n, htext, toBinary64_of_value_eq hpos h hn⟩

/-! ## Reading -/

theorem splitDigits_append {digits rest : List Char} (h : ∀ c ∈ digits, c.isDigit = true)
    (hrest : ∀ c ∈ rest.head?, c.isDigit = false) :
    splitDigits (digits ++ rest) = (digits, rest) := by
  have hnone : rest.takeWhile Char.isDigit = [] ∧ rest.dropWhile Char.isDigit = rest := by
    cases rest with
    | nil => exact ⟨rfl, rfl⟩
    | cons c rest =>
      have hc : ¬ c.isDigit = true := by simp [hrest c rfl]
      exact ⟨List.takeWhile_cons_of_neg hc, List.dropWhile_cons_of_neg hc⟩
  rw [splitDigits, List.takeWhile_append_of_pos h, List.dropWhile_append_of_pos h, hnone.1,
    hnone.2, List.append_nil]

/-- The text does not go on with a number. -/
def Stops (rest : List Char) : Prop :=
  ∀ c ∈ rest.head?, c.isDigit = false ∧ c ≠ '.' ∧ c ≠ 'e' ∧ c ≠ 'E'

theorem stops_nil : Stops [] := nofun

namespace Numeral

/-- A numeral starts with a digit. -/
theorem exists_text_eq_cons (n : Numeral) :
    ∃ c rest, n.text = c :: rest ∧ c.isDigit = true := by
  obtain ⟨c, rest, hwhole⟩ := List.exists_cons_of_ne_nil n.whole_ne_nil
  refine ⟨c, rest ++ (pointText n.fraction ++ exponentText n.exponent), ?_, ?_⟩
  · rw [text, hwhole, List.cons_append]
  · exact n.isDigit_whole c (hwhole ▸ List.mem_cons_self)

variable {rest : List Char}

theorem head?_exponentText (exponent : Option Exponent) (h : Stops rest) :
    ∀ c ∈ (exponentText exponent ++ rest).head?, c.isDigit = false ∧ c ≠ '.' := by
  cases exponent with
  | none => exact fun c hc => ⟨(h c hc).1, (h c hc).2.1⟩
  | some exponent =>
    intro c hc
    obtain rfl : exponent.mark = c := Option.some.inj hc
    rcases exponent.mark_eq with hmark | hmark <;> rw [hmark] <;> decide

theorem head?_pointText (fraction : List Char) (exponent : Option Exponent) (h : Stops rest) :
    ∀ c ∈ (pointText fraction ++ (exponentText exponent ++ rest)).head?, c.isDigit = false := by
  unfold pointText
  split
  · exact fun c hc => (head?_exponentText exponent h c hc).1
  · intro c hc
    obtain rfl : '.' = c := Option.some.inj hc
    rfl

theorem splitDigits_text (n : Numeral) (h : Stops rest) :
    splitDigits (n.text ++ rest) =
      (n.whole, pointText n.fraction ++ (exponentText n.exponent ++ rest)) := by
  rw [text, List.append_assoc, List.append_assoc]
  exact splitDigits_append n.isDigit_whole (head?_pointText _ _ h)

theorem splitDigits_fraction (n : Numeral) (h : Stops rest) :
    splitDigits (n.fraction ++ (exponentText n.exponent ++ rest)) =
      (n.fraction, exponentText n.exponent ++ rest) :=
  splitDigits_append n.isDigit_fraction fun c hc => (head?_exponentText _ h c hc).1

theorem exponent?_eq (e : Exponent) : exponent? (e.sign ++ e.digits) = some e.value := by
  have hdigits : e.digits.all Char.isDigit = true := List.all_eq_true.2 e.isDigit_digits
  have hsplit := e.splitSign_text []
  rw [List.append_nil] at hsplit
  rw [exponent?, hsplit]
  dsimp only
  rw [if_pos ⟨e.digits_ne_nil, hdigits⟩, Exponent.value]

theorem splitFraction_text (n : Numeral) (h : Stops rest) :
    splitFraction (pointText n.fraction ++ (exponentText n.exponent ++ rest)) =
      (n.fraction, exponentText n.exponent ++ rest) := by
  unfold pointText
  split
  · next hfraction =>
    rw [List.nil_append, hfraction, splitFraction]
    rintro more hmore
    exact (head?_exponentText _ h '.' (by rw [hmore]; rfl)).2 rfl
  · exact n.splitDigits_fraction h

/-- A numeral is read as its decimal. -/
theorem unsigned?_text (n : Numeral) : unsigned? n.text = some n.decimal := by
  have hsplit := n.splitDigits_text stops_nil
  have hfraction := n.splitFraction_text stops_nil
  rw [List.append_nil n.text] at hsplit
  rw [unsigned?, hsplit]
  dsimp only
  rw [hfraction]
  dsimp only
  rw [if_neg (by simp [n.whole_ne_nil]), decimal]
  cases n.exponent with
  | none => rfl
  | some exponent =>
    rw [exponentText, List.append_nil, Exponent.text]
    dsimp only
    rw [if_pos exponent.mark_eq, exponent?_eq]
    rfl

end Numeral

/-- No other characters are in a numeral. -/
theorem Numeral.mem_text {n : Numeral} {c : Char} (h : c ∈ n.text) :
    c.isDigit = true ∨ c ∈ ['.', 'e', 'E', '-', '+'] := by
  rw [text, List.mem_append, List.mem_append] at h
  rcases h with hwhole | hfraction | hexponent
  · exact Or.inl (n.isDigit_whole c hwhole)
  · unfold pointText at hfraction
    split at hfraction
    · cases hfraction
    · rcases List.mem_cons.1 hfraction with rfl | hdigit
      · decide
      · exact Or.inl (n.isDigit_fraction c hdigit)
  · match n.exponent, hexponent with
    | some exponent, hexponent =>
      rw [exponentText, Exponent.text, List.mem_cons, List.mem_append] at hexponent
      rcases hexponent with rfl | hsign | hdigit
      · exact Or.inr (by rcases exponent.mark_eq with hmark | hmark <;> rw [hmark] <;> decide)
      · right
        have hcases := exponent.sign_mem
        simp only [List.mem_cons, List.not_mem_nil, or_false] at hcases
        rcases hcases with hnone | hplus | hminus
        · rw [hnone] at hsign
          cases hsign
        · rw [hplus] at hsign
          rw [List.mem_singleton.1 hsign]
          decide
        · rw [hminus] at hsign
          rw [List.mem_singleton.1 hsign]
          decide
      · exact Or.inl (exponent.isDigit_digits c hdigit)

/--
The text is a numeral, after a minus or no sign, and the double is the one nearest to it. So it
is read back from the text.
-/
def Spelling (x : Binary64) (text : List Char) : Prop :=
  ∃ negative, ∃ n : Numeral, text = signText negative ++ n.text ∧ n.decimal.toBinary64 negative = x

/-- What a layout writes of a finite double spells the double. -/
theorem spelling_text (layout : Layout) {x : Binary64} (h : x.isFinite = true) :
    Spelling x (layout.text x) := by
  match x, h with
  | .finite negative units hunits, _ =>
    obtain ⟨n, htext, hn⟩ := exists_numeral layout hunits
    exact ⟨negative, n, by rw [Layout.text, htext], hn negative⟩

namespace Spelling

variable {x : Binary64} {text : List Char}

theorem mem_text (h : Spelling x text) {c : Char} (hc : c ∈ text) :
    c.isDigit = true ∨ c ∈ ['.', 'e', 'E', '-', '+'] := by
  obtain ⟨negative, n, rfl, -⟩ := h
  refine (List.mem_append.1 hc).elim (fun hsign => ?_) Numeral.mem_text
  cases negative with
  | false => cases hsign
  | true =>
    obtain rfl := List.mem_singleton.1 hsign
    decide

theorem double?_eq (h : Spelling x text) : double? text = some x := by
  obtain ⟨negative, n, rfl, hn⟩ := h
  have hsplit : splitSign (signText negative ++ n.text) = (negative, n.text) := by
    cases negative with
    | false =>
      obtain ⟨c, rest, hcons, hc⟩ := n.exists_text_eq_cons
      exact splitSign_of_digit fun d hd => Option.some.inj (hcons ▸ hd) ▸ hc
    | true => rfl
  rw [double?, hsplit]
  dsimp only
  rw [n.unsigned?_text]
  exact congrArg some hn

end Spelling

end Decimal

end OpenLocation
