import OpenLocation.Proofs.Json.Tokens

/-!
# What is known of a codec

`LawfulWriter`, `LawfulReader` and `ExactReader` say what codecs of JSON are documented to do, and
what is proved about codes, places and areas in JSON rests on these laws alone. Strings may be
spelled in any way that JSON allows, and numbers too. A number that is written stands for the
double nearest to it, and what is not finite has no number. The project's own codec obeys the laws
(`compact_lawfulWriter`, `compact_lawfulReader`, `compact_exactReader`).
-/

namespace OpenLocation.Json

open Decimal (Stops)

/-- The text of a number, which a finite double is nearest to, or the literal for no number. -/
inductive NumberSpelling : Option Binary64 → List Char → Prop
  | number {x : Binary64} {text : List Char} (hfinite : x.isFinite = true)
    (h : Decimal.Spelling x text) : NumberSpelling (some x) text
  | null : NumberSpelling none "null".toList

/-- Two numbers, if none of them is missing. -/
def pairOf : Option Binary64 → Option Binary64 → Except Fault (Binary64 × Binary64)
  | some x, some y => .ok (x, y)
  | _, _ => .error .unexpected

section Laws

variable [Codec]

structure LawfulWriter : Prop where
  string (value : List Char) :
    ∃ body, Codec.writeString value = quoted body ∧ Spelling value body
  number {x : Binary64} (h : x.isFinite = true) : Decimal.Spelling x (Codec.writeNumber x)
  null {x : Binary64} (h : x.isFinite = false) : Codec.writeNumber x = "null".toList
  count (n : Nat) : Codec.writeCount n = Nat.toDigits 10 n
  /-- An object has its members in their order, and no blanks. -/
  object (members : List (List Char × List Char)) : Codec.writeObject members =
    object (members.map fun member => (Codec.writeString member.1, member.2))

structure LawfulReader : Prop where
  /-- A string is read however it is spelled, and nothing else is read as one. -/
  string (text value rest : List Char) : Codec.readString text = .ok (value, rest) ↔
    ∃ before body, Blank before ∧ Spelling value body ∧
      text = before ++ '"' :: (body ++ '"' :: rest)
  ending (text : List Char) : Codec.readEnd text = .ok () ↔ Blank text
  refusal (e : Error) : Codec.refusal e = .unexpected

/--
Numbers are read as the doubles nearest to them. This is asked for apart from the laws of strings,
as a reader may give it up to be faster and round more than once.
-/
structure ExactReader : Prop where
  /-- The two numbers of an object are taken by their names, in either order. -/
  pair {first second firstBody secondBody firstText secondText : List Char}
    {x y : Option Binary64} (hne : first ≠ second) (hfirst : Spelling first firstBody)
    (hsecond : Spelling second secondBody) (hx : NumberSpelling x firstText)
    (hy : NumberSpelling y secondText) (members : List (List Char × List Char))
    (hmembers : members.Perm [(quoted firstBody, firstText), (quoted secondBody, secondText)]) :
    Codec.readPair (first, second) (object members) = pairOf x y

end Laws

/-! ## The compact writer -/

theorem charSpelling_charText (c : Char) : CharSpelling c (charText c) := by
  unfold charText
  split
  · next h =>
    rcases h with rfl | rfl
    · exact .letter (by decide)
    · exact .letter (by decide)
  split
  · next h => exact h ▸ .letter (by decide)
  split
  · next h => exact h ▸ .letter (by decide)
  split
  · next h => exact h ▸ .letter (by decide)
  split
  · next h => exact h ▸ .letter (by decide)
  split
  · next h => exact h ▸ .letter (by decide)
  split
  · next hcontrol =>
    have hhex : ∀ n < 0x20, ['0', '0', Nat.digitChar (n / 16), Nat.digitChar (n % 16)].map
        Char.toLower = hexDigits n := by decide
    exact .unit (.number (by omega) (hhex _ hcontrol))
  · next hquote _ _ _ _ _ hvisible =>
    rw [not_or] at hquote
    exact .itself (Nat.not_lt.1 hvisible) hquote.1 hquote.2

theorem spelling_flatMap_charText (text : List Char) : Spelling text (text.flatMap charText) := by
  induction text with
  | nil => exact .nil
  | cons c text ih => exact .cons (charSpelling_charText c) ih

theorem compact_lawfulWriter : LawfulWriter where
  string value := ⟨_, rfl, spelling_flatMap_charText value⟩
  number h := Decimal.spelling_text numberLayout h
  null {x} h := by
    cases x with
    | nan => rfl
    | infinity negative => rfl
    | finite => cases h
  count _ := rfl
  object _ := rfl

/-! ## The compact reader -/

theorem text_eq_ok_iff {t : Token} {value : List Char} :
    t.text = .ok value ↔ t = .string (.ok value) := by
  cases t <;> simp [Token.text]

theorem readString_eq_ok_iff {text value rest : List Char} :
    readString text = .ok (value, rest) ↔ next? text = some (.string (.ok value), rest) := by
  unfold readString
  cases next? text with
  | none => simp
  | some found =>
    obtain ⟨t, left⟩ := found
    rw [Option.some.injEq, Prod.mk.injEq, ← text_eq_ok_iff]
    dsimp only
    cases t.text with
    | error fault => simp [Except.map]
    | ok content => simp [Except.map]

/-- Both kinds of values are one token, which is read as the number if there is one. -/
theorem NumberSpelling.exists_token {x : Option Binary64} {text : List Char}
    (h : NumberSpelling x text) :
    ∃ t : Token, t.double = x.elim (.error .unexpected) .ok ∧
      ∀ rest, Stops rest → tokens (text ++ rest) = t :: tokens rest := by
  cases h with
  | null => exact ⟨.literal, rfl, fun rest _ => tokens_null rest⟩
  | @number x _ hfinite h =>
    obtain ⟨negative, d, rfl, htokens⟩ := exists_number h
    refine ⟨.number negative d, ?_, htokens⟩
    rw [Token.double, if_pos hfinite]
    rfl

theorem tokens_object {first second firstBody secondBody firstText secondText : List Char}
    {firstToken secondToken : Token} (hfirst : Spelling first firstBody)
    (hsecond : Spelling second secondBody)
    (hfirstText : ∀ rest, Stops rest → tokens (firstText ++ rest) = firstToken :: tokens rest)
    (hsecondText : ∀ rest, Stops rest → tokens (secondText ++ rest) = secondToken :: tokens rest) :
    tokens (object [(quoted firstBody, firstText), (quoted secondBody, secondText)]) =
      [.mark '{', .string (.ok first), .mark ':', firstToken, .mark ',',
        .string (.ok second), .mark ':', secondToken, .mark '}'] := by
  have htext : object [(quoted firstBody, firstText), (quoted secondBody, secondText)] =
      '{' :: (quoted firstBody ++ ':' :: (firstText ++
        ',' :: (quoted secondBody ++ ':' :: (secondText ++ ['}'])))) := by
    simp [object, separated]
  rw [htext, tokens_mark rfl, tokens_quoted hfirst, tokens_mark rfl,
    hfirstText _ (stops_mark rfl _), tokens_mark rfl, tokens_quoted hsecond, tokens_mark rfl,
    hsecondText _ (stops_mark rfl _), tokens_mark rfl, tokens_nil]

namespace Expects

variable {names : List Char × List Char}

theorem step_key {found : Found} {name : List Char} {p : Coordinate}
    (hp : coordinate? names name = some p) (hnew : found.has p = false) :
    atKey names found (.string (.ok name)) = .ok (.colon found (some p)) := by
  rw [atKey, hp, if_neg (by simp [hnew])]

theorem foldlM_coordinate (found : Found) (p : Coordinate) (t : Token) (ts : List Token) :
    (t :: ts).foldlM (step names) (.coordinate found p) =
      (do ts.foldlM (step names) (.separator (found.insert (← t.double) p))) := by
  rw [List.foldlM_cons, step]
  cases t.double <;> rfl

/-- The reader takes two numbers by their names. -/
theorem foldlM_value {a b : List Char} {p q : Coordinate} (ha : coordinate? names a = some p)
    (hb : coordinate? names b = some q) (hne : p ≠ q) (t u : Token) :
    [.mark '{', .string (.ok a), .mark ':', t, .mark ',', .string (.ok b), .mark ':', u,
        .mark '}'].foldlM (step names) .value =
      (do
        let x ← t.double
        let y ← u.double
        atClose ((Found.none.insert x p).insert y q)) := by
  have hnew (x : Binary64) : (Found.none.insert x p).has q = false := by
    cases p <;> cases q <;> first | rfl | exact absurd rfl hne
  have hfirst : step names .objectStart (.string (.ok a)) = .ok (.colon .none (some p)) :=
    step_key ha (by cases p <;> rfl)
  have hsecond (x : Binary64) : step names (.key (Found.none.insert x p)) (.string (.ok b)) =
      .ok (.colon (Found.none.insert x p) (some q)) := step_key hb (hnew x)
  change (step names .objectStart (.string (.ok a))).bind _ = _
  rw [hfirst]
  change [t, .mark ',', .string (.ok b), .mark ':', u, .mark '}'].foldlM (step names)
    (.coordinate .none p) = _
  rw [foldlM_coordinate]
  refine bind_congr fun x => ?_
  change (step names (.key (Found.none.insert x p)) (.string (.ok b))).bind _ = _
  rw [hsecond]
  change [u, .mark '}'].foldlM (step names) (.coordinate (Found.none.insert x p) q) = _
  rw [foldlM_coordinate]
  refine bind_congr fun y => ?_
  rw [List.foldlM_cons]
  change (atClose ((Found.none.insert x p).insert y q)).bind _ = _
  cases atClose ((Found.none.insert x p).insert y q) <;> rfl

end Expects

theorem readPair_object {first second firstBody secondBody firstText secondText : List Char}
    {x y : Option Binary64} (hne : first ≠ second) (hfirst : Spelling first firstBody)
    (hsecond : Spelling second secondBody) (hx : NumberSpelling x firstText)
    (hy : NumberSpelling y secondText) (members : List (List Char × List Char))
    (hmembers : members.Perm [(quoted firstBody, firstText), (quoted secondBody, secondText)]) :
    readPair (first, second) (object members) = pairOf x y := by
  obtain ⟨t, ht, htokens⟩ := hx.exists_token
  obtain ⟨u, hu, hutokens⟩ := hy.exists_token
  have hcoordinate : Expects.coordinate? (first, second) first = some .first := if_pos rfl
  have hcoordinate' : Expects.coordinate? (first, second) second = some .second :=
    (if_neg hne.symm).trans (if_pos rfl)
  rw [readPair]
  rcases List.perm_pair.1 hmembers with rfl | rfl
  · rw [tokens_object hfirst hsecond htokens hutokens,
      Expects.foldlM_value hcoordinate hcoordinate' (by decide), ht, hu]
    cases x <;> cases y <;> rfl
  · rw [tokens_object hsecond hfirst hutokens htokens,
      Expects.foldlM_value hcoordinate' hcoordinate (by decide), ht, hu]
    cases x <;> cases y <;> rfl

theorem compact_lawfulReader : LawfulReader where
  string _ _ _ := readString_eq_ok_iff.trans next?_eq_string_iff
  ending text := by
    rw [← next?_eq_none_iff]
    change readEnd text = .ok () ↔ _
    unfold readEnd
    cases next? text <;> simp
  refusal _ := rfl

theorem compact_exactReader : ExactReader where
  pair := readPair_object

end OpenLocation.Json
