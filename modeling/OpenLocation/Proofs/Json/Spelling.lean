import Mathlib
import OpenLocation.Json.Content

/-!
# How JSON spells a text

Between quotes a character stands for itself, is named by a letter after a backslash, or is given
by the numbers of its 16-bit units. The reader undoes the escapes piece by piece and then joins
surrogates in pairs. By that it reads all texts that are spelled, and nothing else
(`stringContent_iff`).
-/

namespace OpenLocation.Json

/-! ## Strings as JSON spells them -/

/-- The letters that stand for a character after a backslash. -/
def escapes : List (Char × Char) :=
  [('"', '"'), ('\\', '\\'), ('/', '/'), ('b', '\x08'), ('f', '\x0c'), ('n', '\n'), ('r', '\r'),
    ('t', '\t')]

/-- The four hexadecimal digits of a 16-bit unit, in lower case. -/
def hexDigits (n : Nat) : List Char :=
  [n / 4096, n / 256 % 16, n / 16 % 16, n % 16].map Nat.digitChar

/-- A 16-bit unit by its number, with digits in either case. -/
inductive UnitSpelling (n : Nat) : List Char → Prop
  | number {hex : List Char} (hn : n < 0x10000) (hhex : hex.map Char.toLower = hexDigits n) :
    UnitSpelling n ('\\' :: 'u' :: hex)

/-- A character in a string: as itself, by a letter, or by its 16-bit units. -/
inductive CharSpelling (c : Char) : List Char → Prop
  | itself (hvisible : 0x20 ≤ c.toNat) (hquote : c ≠ '"') (hbackslash : c ≠ '\\') :
    CharSpelling c [c]
  | letter {letter : Char} (h : (letter, c) ∈ escapes) : CharSpelling c ['\\', letter]
  | unit {text : List Char} (h : UnitSpelling c.toNat text) : CharSpelling c text
  | pair {first second : List Char} (hlarge : 0x10000 ≤ c.toNat)
    (hfirst : UnitSpelling (0xD800 + (c.toNat - 0x10000) / 0x400) first)
    (hsecond : UnitSpelling (0xDC00 + (c.toNat - 0x10000) % 0x400) second) :
    CharSpelling c (first ++ second)

/-- A text as it is spelled between quotes. -/
inductive Spelling : List Char → List Char → Prop
  | nil : Spelling [] []
  | cons {c : Char} {value first rest : List Char} (hc : CharSpelling c first)
    (h : Spelling value rest) : Spelling (c :: value) (first ++ rest)

/-! ## Units -/

theorem hexDigit?_ascii : ∀ code < 128, ∀ k < 16,
    hexDigit? (.ofNat code) = some k ↔ (Char.ofNat code).toLower = k.digitChar := by
  decide +kernel

theorem digitChar_lt : ∀ k < 16, k.digitChar.toNat < 128 := by decide

theorem hexDigit?_lt {c : Char} {k : Nat} (h : hexDigit? c = some k) : c.toNat < 128 ∧ k < 16 := by
  unfold hexDigit? at h
  split at h
  · next hdigit =>
    have hbounds : 48 ≤ c.toNat ∧ c.toNat ≤ 57 := by
      simpa [Char.isDigit, UInt32.le_iff_toNat_le] using hdigit
    have hk : c.toNat - 48 = k := Option.some.inj h
    omega
  · split at h
    · next hlower =>
      simp only [Char.le_def, UInt32.le_iff_toNat_le] at hlower
      have hbounds : 97 ≤ c.toNat ∧ c.toNat ≤ 102 := hlower
      have hk : c.toNat - 97 + 10 = k := Option.some.inj h
      omega
    · split at h
      · next hupper =>
        simp only [Char.le_def, UInt32.le_iff_toNat_le] at hupper
        have hbounds : 65 ≤ c.toNat ∧ c.toNat ≤ 70 := hupper
        have hk : c.toNat - 65 + 10 = k := Option.some.inj h
        omega
      · cases h

theorem hexDigit?_eq_some_iff {c : Char} {k : Nat} :
    hexDigit? c = some k ↔ k < 16 ∧ c.toLower = k.digitChar := by
  by_cases hascii : c.toNat < 128
  · constructor
    · intro h
      have hk := (hexDigit?_lt h).2
      rw [← Char.ofNat_toNat c] at h ⊢
      exact ⟨hk, (hexDigit?_ascii _ hascii k hk).1 h⟩
    · rintro ⟨hk, h⟩
      rw [← Char.ofNat_toNat c] at h ⊢
      exact (hexDigit?_ascii _ hascii k hk).2 h
  · refine iff_of_false (fun h => hascii (hexDigit?_lt h).1) ?_
    rintro ⟨hk, h⟩
    have hlt := digitChar_lt k hk
    rw [← h] at hlt
    unfold Char.toLower at hlt
    split at hlt
    · next hupper =>
      exact hascii (Nat.lt_of_le_of_lt (UInt32.le_iff_toNat_le.1 hupper.2) (by decide))
    · exact hascii hlt

theorem hexUnit?_eq_some_iff {a b c d : Char} {n : Nat} :
    hexUnit? a b c d = some n ↔ n < 0x10000 ∧ [a, b, c, d].map Char.toLower = hexDigits n := by
  simp only [hexUnit?, Option.bind_eq_bind, Option.bind_eq_some_iff, Option.pure_def,
    Option.some.injEq, hexDigit?_eq_some_iff, hexDigits, List.map_cons, List.map_nil,
    List.cons.injEq, and_true]
  constructor
  · rintro ⟨i, ⟨hi, ha⟩, j, ⟨hj, hb⟩, k, ⟨hk, hc⟩, l, ⟨hl, hd⟩, rfl⟩
    have hfirst : (((i * 16 + j) * 16 + k) * 16 + l) / 4096 = i := by omega
    have hsecond : (((i * 16 + j) * 16 + k) * 16 + l) / 256 % 16 = j := by omega
    have hthird : (((i * 16 + j) * 16 + k) * 16 + l) / 16 % 16 = k := by omega
    have hlast : (((i * 16 + j) * 16 + k) * 16 + l) % 16 = l := by omega
    rw [hfirst, hsecond, hthird, hlast]
    exact ⟨by omega, ha, hb, hc, hd⟩
  · rintro ⟨hn, ha, hb, hc, hd⟩
    exact ⟨n / 4096, ⟨by omega, ha⟩, n / 256 % 16, ⟨by omega, hb⟩, n / 16 % 16,
      ⟨by omega, hc⟩, n % 16, ⟨by omega, hd⟩, by omega⟩

/-! ## Pieces -/

/-- A piece as it is spelled. -/
inductive PieceSpelling : Piece → List Char → Prop
  | itself {c : Char} (hvisible : 0x20 ≤ c.toNat) (hquote : c ≠ '"') (hbackslash : c ≠ '\\') :
    PieceSpelling (.char c) [c]
  | letter {letter c : Char} (h : (letter, c) ∈ escapes) : PieceSpelling (.char c) ['\\', letter]
  | unit {n : Nat} {text : List Char} (h : UnitSpelling n text) : PieceSpelling (.unit n) text

/-- Pieces one after the other. -/
inductive PieceSpellings : List Piece → List Char → Prop
  | nil : PieceSpellings [] []
  | cons {p : Piece} {ps : List Piece} {first rest : List Char} (hp : PieceSpelling p first)
    (h : PieceSpellings ps rest) : PieceSpellings (p :: ps) (first ++ rest)

theorem PieceSpellings.exists_first {p : Piece} {ps : List Piece} {body : List Char}
    (h : PieceSpellings (p :: ps) body) :
    ∃ first rest, body = first ++ rest ∧ PieceSpelling p first ∧ PieceSpellings ps rest := by
  cases h with
  | cons hp hrest => exact ⟨_, _, rfl, hp, hrest⟩

theorem pieceSpelling_unit_iff {n : Nat} {text : List Char} :
    PieceSpelling (.unit n) text ↔ UnitSpelling n text := by
  refine ⟨fun h => ?_, .unit⟩
  cases h with
  | unit h => exact h

theorem escaped?_eq_some_iff {letter c : Char} :
    escaped? letter = some c ↔ (letter, c) ∈ escapes := by
  constructor
  · intro h
    unfold escaped? at h
    split at h
    · next hself =>
      obtain rfl := Option.some.inj h
      rcases hself with rfl | rfl | rfl <;> decide
    · repeat' split at h
      all_goals cases h <;> subst letter <;> decide
  · intro h
    simp only [escapes, List.mem_cons, Prod.mk.injEq, List.not_mem_nil, or_false] at h
    rcases h with ⟨rfl, rfl⟩ | ⟨rfl, rfl⟩ | ⟨rfl, rfl⟩ | ⟨rfl, rfl⟩ | ⟨rfl, rfl⟩ | ⟨rfl, rfl⟩ |
      ⟨rfl, rfl⟩ | ⟨rfl, rfl⟩ <;> decide

theorem UnitSpelling.lt {n : Nat} {text : List Char} (h : UnitSpelling n text) : n < 0x10000 := by
  obtain ⟨hn, -⟩ := h
  exact hn

theorem unitSpelling_iff {n : Nat} {text : List Char} :
    UnitSpelling n text ↔
      ∃ a b c d, text = ['\\', 'u', a, b, c, d] ∧ hexUnit? a b c d = some n := by
  constructor
  · rintro ⟨hn, hhex⟩
    obtain ⟨a, _, rfl, ha, hhex'⟩ := List.map_eq_cons_iff.1 hhex
    obtain ⟨b, _, rfl, hb, hhex'⟩ := List.map_eq_cons_iff.1 hhex'
    obtain ⟨c, _, rfl, hc, hhex'⟩ := List.map_eq_cons_iff.1 hhex'
    obtain ⟨d, _, rfl, hd, hhex'⟩ := List.map_eq_cons_iff.1 hhex'
    obtain rfl := List.map_eq_nil_iff.1 hhex'
    exact ⟨a, b, c, d, rfl, hexUnit?_eq_some_iff.2 ⟨hn, hhex⟩⟩
  · rintro ⟨a, b, c, d, rfl, h⟩
    obtain ⟨hn, hhex⟩ := hexUnit?_eq_some_iff.1 h
    exact .number hn hhex

theorem pieces_append {p : Piece} {first : List Char} (h : PieceSpelling p first)
    (rest : List Char) : pieces (first ++ rest) = ahead p (pieces rest) := by
  cases h with
  | @itself c hvisible hquote hbackslash =>
    rw [List.singleton_append, pieces, if_neg (Nat.not_lt.2 hvisible)]
    · exact hquote
    · exact fun h => absurd h hbackslash
    · exact fun _ _ _ _ _ h => absurd h hbackslash
    · exact fun _ _ h => absurd h hbackslash
  | @letter letter c h =>
    have hunit : letter ≠ 'u' := by
      rintro rfl
      revert h
      simp [escapes]
    rw [List.cons_append, List.cons_append, List.nil_append, pieces, if_neg hunit,
      escaped?_eq_some_iff.2 h]
    exact fun _ _ _ _ _ h => absurd h hunit
  | @unit n text h =>
    obtain ⟨a, b, c, d, rfl, hn⟩ := unitSpelling_iff.1 h
    simp only [List.cons_append, List.nil_append]
    rw [pieces, hn]

/-- What stands before the closing quote spells the pieces that are read. -/
theorem exists_pieceSpellings {text rest : List Char} (h : (pieces text).2 = .ok rest) :
    ∃ body, text = body ++ '"' :: rest ∧ PieceSpellings (pieces text).1 body := by
  have hcons {p : Piece} {first tail : List Char} (hp : PieceSpelling p first)
      (hrest : ∃ body, tail = body ++ '"' :: rest ∧ PieceSpellings (pieces tail).1 body) :
      ∃ body, first ++ tail = body ++ '"' :: rest ∧
        PieceSpellings (ahead p (pieces tail)).1 body := by
    obtain ⟨body, htail, hbody⟩ := hrest
    exact ⟨first ++ body, by rw [htail, List.append_assoc], .cons hp hbody⟩
  fun_induction pieces text with
  | case1 => cases h
  | case2 tail =>
    obtain rfl := Except.ok.inj h
    exact ⟨[], rfl, .nil⟩
  | case3 => cases h
  | case4 a b c d tail n hn ih =>
    exact hcons (.unit (unitSpelling_iff.2 ⟨a, b, c, d, rfl, hn⟩)) (ih h)
  | case5 => cases h
  | case6 => cases h
  | case7 letter tail hunit hletter c hc ih =>
    exact hcons (.letter (escaped?_eq_some_iff.1 hc)) (ih h)
  | case8 => cases h
  | case9 => cases h
  | case10 c tail hquote hend hunit hletter hvisible ih =>
    have hbackslash : c ≠ '\\' := by
      rintro rfl
      cases tail with
      | nil => exact hend rfl rfl
      | cons letter tail => exact hletter letter tail rfl rfl
    exact hcons (.itself (Nat.not_lt.1 hvisible) hquote hbackslash) (ih h)

theorem pieces_eq_ok_iff {text rest : List Char} {ps : List Piece} :
    pieces text = (ps, .ok rest) ↔
      ∃ body, text = body ++ '"' :: rest ∧ PieceSpellings ps body := by
  constructor
  · intro h
    have hbody := exists_pieceSpellings (congrArg Prod.snd h)
    rwa [h] at hbody
  · rintro ⟨body, rfl, hbody⟩
    induction hbody with
    | nil => rw [List.nil_append, pieces]
    | cons hp _ ih => rw [List.append_assoc, pieces_append hp, ih, ahead]

/-! ## Characters -/

theorem not_surrogate (c : Char) : isTrailing c.toNat = false ∧ isLeading c.toNat = false := by
  have hvalid : c.toNat < 0xD800 ∨ 0xDFFF < c.toNat ∧ c.toNat < 0x110000 := c.valid
  simp only [isTrailing, isLeading, Bool.and_eq_false_iff, decide_eq_false_iff_not]
  omega

/-- The two units of a character beyond the first 2¹⁶. -/
theorem surrogates {c : Char} (h : 0x10000 ≤ c.toNat) :
    isTrailing (0xD800 + (c.toNat - 0x10000) / 0x400) = false ∧
      isLeading (0xD800 + (c.toNat - 0x10000) / 0x400) = true ∧
      isTrailing (0xDC00 + (c.toNat - 0x10000) % 0x400) = true ∧
      pairChar (0xD800 + (c.toNat - 0x10000) / 0x400) (0xDC00 + (c.toNat - 0x10000) % 0x400) =
        c := by
  have hvalid : c.toNat < 0xD800 ∨ 0xDFFF < c.toNat ∧ c.toNat < 0x110000 := c.valid
  have hsum : 0x10000 + (0xD800 + (c.toNat - 0x10000) / 0x400 - 0xD800) * 0x400 +
      (0xDC00 + (c.toNat - 0x10000) % 0x400 - 0xDC00) = c.toNat := by omega
  rw [pairChar, hsum, Char.ofNat_toNat]
  simp only [isTrailing, isLeading, Bool.and_eq_false_iff, decide_eq_false_iff_not,
    Bool.and_eq_true, decide_eq_true_iff, and_true]
  omega

/-- A leading and a trailing unit are those of the character that they are joined to. -/
theorem toNat_pairChar {n m : Nat} (hn : isLeading n = true) (hm : isTrailing m = true) :
    0x10000 ≤ (pairChar n m).toNat ∧ n = 0xD800 + ((pairChar n m).toNat - 0x10000) / 0x400 ∧
      m = 0xDC00 + ((pairChar n m).toNat - 0x10000) % 0x400 := by
  simp only [isLeading, isTrailing, Bool.and_eq_true, decide_eq_true_iff] at hn hm
  have hvalid : (0x10000 + (n - 0xD800) * 0x400 + (m - 0xDC00)).isValidChar :=
    Or.inr ⟨by omega, by omega⟩
  rw [pairChar, Char.toNat_ofNat, if_pos hvalid]
  omega

/-- A unit that is no surrogate is the number of a character. -/
theorem toNat_ofNat_unit {n : Nat} (hn : n < 0x10000) (hleading : isLeading n ≠ true)
    (htrailing : isTrailing n ≠ true) : (Char.ofNat n).toNat = n := by
  simp only [isLeading, isTrailing, Bool.and_eq_true, decide_eq_true_iff, ne_eq] at *
  have hvalid : n.isValidChar := by
    rw [Nat.isValidChar]
    omega
  rw [Char.toNat_ofNat, if_pos hvalid]

/-- A unit that is no surrogate stands for a character. -/
theorem joined_unit {n : Nat} (htrailing : isTrailing n = false) (hleading : isLeading n = false)
    (ps : List Piece) : joined none (.unit n :: ps) = (Char.ofNat n :: ·) <$> joined none ps := by
  rw [joined.eq_def]
  simp only [htrailing, hleading, Bool.false_eq_true, if_false]

theorem joined_pair {n m : Nat} (hno : isTrailing n = false) (hleading : isLeading n = true)
    (htrailing : isTrailing m = true) (ps : List Piece) :
    joined none (.unit n :: .unit m :: ps) = (pairChar n m :: ·) <$> joined none ps := by
  simp only [joined, hno, hleading, htrailing, Bool.false_eq_true, if_false, if_true]

/-- What is spelled between quotes is the text that its pieces are joined to. -/
theorem exists_joined {value body : List Char} (h : Spelling value body) :
    ∃ ps, PieceSpellings ps body ∧ joined none ps = .ok value := by
  induction h with
  | nil => exact ⟨[], .nil, rfl⟩
  | @cons c value first rest hc _ ih =>
    obtain ⟨ps, hps, hjoined⟩ := ih
    cases hc with
    | itself hvisible hquote hbackslash =>
      refine ⟨.char c :: ps, .cons (.itself hvisible hquote hbackslash) hps, ?_⟩
      rw [joined, hjoined]
      rfl
    | letter h =>
      refine ⟨.char c :: ps, .cons (.letter h) hps, ?_⟩
      rw [joined, hjoined]
      rfl
    | unit h =>
      obtain ⟨htrailing, hleading⟩ := not_surrogate c
      refine ⟨.unit c.toNat :: ps, .cons (.unit h) hps, ?_⟩
      rw [joined_unit htrailing hleading, hjoined, Char.ofNat_toNat]
      rfl
    | pair hlarge hfirst hsecond =>
      obtain ⟨hno, hleading, htrailing, hpair⟩ := surrogates hlarge
      rw [List.append_assoc]
      refine ⟨_, .cons (.unit hfirst) (.cons (.unit hsecond) hps), ?_⟩
      rw [joined_pair hno hleading htrailing, hpair, hjoined]
      rfl

/-- A character in front of what the other pieces are joined to. -/
theorem CharSpelling.cons_joined {c : Char} {ps : List Piece} {value first rest : List Char}
    (hc : CharSpelling c first) (h : (c :: ·) <$> joined none ps = .ok value)
    (hrest : ∀ {value}, joined none ps = .ok value → Spelling value rest) :
    Spelling value (first ++ rest) := by
  cases hjoined : joined none ps with
  | error fault =>
    rw [hjoined] at h
    cases h
  | ok others =>
    rw [hjoined] at h
    obtain rfl : c :: others = value := Except.ok.inj h
    exact .cons hc (hrest hjoined)

/-- Pieces that can be joined spell the characters of the text. -/
theorem spelling_of_joined {ps : List Piece} {value body : List Char}
    (hps : PieceSpellings ps body) (h : joined none ps = .ok value) : Spelling value body := by
  fun_induction joined none ps generalizing value body with
  | case1 fault hfault => cases hfault
  | case2 =>
    obtain rfl := Except.ok.inj h
    cases hps
    exact .nil
  | case3 c rest ih =>
    obtain ⟨first, rest, rfl, hp, hrest⟩ := hps.exists_first
    have hc : CharSpelling c first := by
      cases hp with
      | itself hvisible hquote hbackslash => exact .itself hvisible hquote hbackslash
      | letter hletter => exact .letter hletter
    exact hc.cons_joined h (ih hrest)
  | case4 => cases h
  | case5 n hno hleading m rest htrailing ih =>
    obtain ⟨hlarge, hn, hm⟩ := toNat_pairChar hleading htrailing
    obtain ⟨first, _, rfl, hfirst, hrest⟩ := hps.exists_first
    obtain ⟨second, rest, rfl, hsecond, hrest⟩ := hrest.exists_first
    have hfirst := pieceSpelling_unit_iff.1 hfirst
    have hsecond := pieceSpelling_unit_iff.1 hsecond
    rw [← List.append_assoc]
    exact (CharSpelling.pair hlarge (hn ▸ hfirst) (hm ▸ hsecond)).cons_joined h (ih hrest)
  | case6 => cases h
  | case7 => cases h
  | case8 => cases h
  | case9 n rest htrailing hleading ih =>
    obtain ⟨first, rest, rfl, hfirst, hrest⟩ := hps.exists_first
    have hunit := pieceSpelling_unit_iff.1 hfirst
    rw [← toNat_ofNat_unit hunit.lt hleading htrailing] at hunit
    exact (CharSpelling.unit hunit).cons_joined h (ih hrest)

/-- A text is read up to a quote as what it spells before the quote. -/
theorem stringContent_iff {text rest value : List Char} :
    (∃ ps, pieces text = (ps, .ok rest) ∧ joined none ps = .ok value) ↔
      ∃ body, text = body ++ '"' :: rest ∧ Spelling value body := by
  constructor
  · rintro ⟨ps, hpieces, hjoined⟩
    obtain ⟨body, rfl, hbody⟩ := pieces_eq_ok_iff.1 hpieces
    exact ⟨body, rfl, spelling_of_joined hbody hjoined⟩
  · rintro ⟨body, rfl, hbody⟩
    obtain ⟨ps, hps, hjoined⟩ := exists_joined hbody
    exact ⟨ps, pieces_eq_ok_iff.2 ⟨body, rfl, hps⟩, hjoined⟩

end OpenLocation.Json
