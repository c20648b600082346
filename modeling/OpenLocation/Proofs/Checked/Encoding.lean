import OpenLocation.Proofs.Checked.Operations
import OpenLocation.Proofs.Code.Grammar
import OpenLocation.Proofs.Location.Edge

/-!
# Writing codes without failing

The row and the column of a location are peeled off digit by digit into fifteen places, from the
last place to the first. Neither is ever below zero or beyond 64 bits (`rowAt_nonneg`,
`columnAt_nonneg` and the bounds of the edges), every place that is written to is one of the
fifteen, and so `encode` gives the text of the code of any location (`encode_eq`).
-/

namespace OpenLocation.Checked

open Binary64 GridPoint

/-! ## Precision and latitude -/

/-- A count read as a number of 32 bits. -/
def toInt32 (count : Nat) : Int := Int.bmod count (2 ^ 32)

/-- Half of the digits toward zero and negative, and two more. -/
def pairExponent (digitCount : Nat) : Option Int := do
  ofBits? 32 ((← ofBits? 32 ((toInt32 digitCount).tdiv (-2))) + 2)

def precision (digitCount : Nat) : Option Binary64 :=
  if digitCount ≤ pairDigits then (pairExponent digitCount).map (power 20 ·)
  else do some (power 20 (-3) / power 5 (toInt32 (← subCount digitCount pairDigits)))

/-- The nearest number of an interval, whose ends must be in order. -/
def clamp (x low high : Binary64) : Option Binary64 :=
  if low ≤ high then some (x.clamp low high) else none

def adjustLatitude (latitude : Binary64) (digitCount : Nat) : Option Binary64 := do
  let clamped ← clamp latitude (-90) 90
  if clamped < 90 then some clamped else some (clamped - (← precision digitCount) / 2)

theorem pairExponent_eq : ∀ digitCount < pairDigits + 1,
    pairExponent digitCount = some (2 - ((digitCount / 2 : Nat) : Int)) := by
  decide +kernel

theorem precision_eq (digitCount : Nat) :
    precision digitCount = some (OpenLocation.precision digitCount) := by
  unfold precision OpenLocation.precision
  by_cases h : digitCount ≤ pairDigits
  · rw [if_pos h, if_pos h, pairExponent_eq _ (Nat.lt_succ_of_le h), Option.map_some]
  · rw [if_neg h, if_neg h, subCount_eq_some (by omega)]
    rfl

theorem adjustLatitude_eq (latitude : Binary64) (digitCount : Nat) :
    adjustLatitude latitude digitCount =
      some (OpenLocation.adjustLatitude latitude digitCount) := by
  have horder : (-90 : Binary64) ≤ 90 := Binary64.le_of_lt south_lt_north
  unfold adjustLatitude OpenLocation.adjustLatitude clamp
  rw [if_pos horder, Option.bind_eq_bind, Option.bind_some, precision_eq]
  dsimp only
  split
  · rfl
  · rfl

/-! ## Digits -/

def symbolAt (value : Nat) : Option Char := Digit.alphabet[value % 20]?

theorem symbolAt_eq (value : Nat) : symbolAt value = some (Digit.symbol (Fin.ofNat 20 value)) := by
  have hlt : value % 20 < Digit.alphabet.length :=
    Digit.length_alphabet.symm ▸ Nat.mod_lt value (by decide)
  exact List.getElem?_eq_getElem hlt

/-- What is left of a row and a column, and the places written so far. -/
structure Peeled where
  row : Int
  column : Int
  places : List Char

/-- Writes one of the last five digits. -/
def refineStep (p : Peeled) (place : Nat) : Option Peeled := do
  let rowPart ← modInt p.row (refinementRows : Nat)
  let columnPart ← modInt p.column (refinementColumns : Nat)
  let value ← addInt (← mulInt rowPart (refinementColumns : Nat)) columnPart
  let places ← setAt p.places place (← symbolAt (toCount value))
  some ⟨← divInt p.row (refinementRows : Nat), ← divInt p.column (refinementColumns : Nat), places⟩

/-- Writes a pair of digits, of which the one of the row stands first. -/
def pairStep (p : Peeled) (place : Nat) : Option Peeled := do
  let columnSymbol ← symbolAt (toCount (← modInt p.column (20 : Nat)))
  let rowSymbol ← symbolAt (toCount (← modInt p.row (20 : Nat)))
  let places ← setAt p.places (← addCount place 1) columnSymbol
  let places ← setAt places place rowSymbol
  some ⟨← divInt p.row (20 : Nat), ← divInt p.column (20 : Nat), places⟩

/-- The rows and the columns of one step make up the digits. -/
theorem refinedDigit_lt (row column : Nat) :
    row % refinementRows * refinementColumns + column % refinementColumns < 20 := by
  have hrow := Nat.mod_lt row (by decide : 0 < refinementRows)
  have hcolumn := Nat.mod_lt column (by decide : 0 < refinementColumns)
  simp only [refinementRows, refinementColumns] at *
  omega

theorem refineStep_append {row column : Nat} (hrow : row < 2 ^ 63) (hcolumn : column < 2 ^ 63)
    (front : List Char) (x : Char) (back : List Char) :
    refineStep ⟨row, column, front ++ x :: back⟩ front.length =
      some ⟨(row / refinementRows : Nat), (column / refinementColumns : Nat),
        front ++ Digit.symbol (Fin.ofNat 20
          (row % refinementRows * refinementColumns + column % refinementColumns)) :: back⟩ := by
  have hrows : refinementRows ≠ 0 := by decide
  have hcolumns : refinementColumns ≠ 0 := by decide
  have hvalue := refinedDigit_lt row column
  unfold refineStep
  simp only [Option.bind_eq_bind]
  rw [modInt_natCast hrow hrows, Option.bind_some, modInt_natCast hcolumn hcolumns,
    Option.bind_some, mulInt_natCast (by omega), Option.bind_some, addInt_natCast (by omega),
    Option.bind_some, toCount_natCast (by omega), symbolAt_eq, Option.bind_some, setAt_append,
    Option.bind_some, divInt_natCast hrow hrows, Option.bind_some, divInt_natCast hcolumn hcolumns,
    Option.bind_some]

/-- A pair goes to two places that follow each other. -/
theorem pairStep_append {row column : Nat} (hrow : row < 2 ^ 63) (hcolumn : column < 2 ^ 63)
    {front : List Char} (hfront : front.length < 2 ^ 63) (x y : Char) (back : List Char) :
    pairStep ⟨row, column, front ++ x :: y :: back⟩ front.length =
      some ⟨(row / 20 : Nat), (column / 20 : Nat),
        front ++
          Digit.symbol (Fin.ofNat 20 row) :: Digit.symbol (Fin.ofNat 20 column) :: back⟩ := by
  have hmod (n : Nat) : Fin.ofNat 20 (n % 20) = Fin.ofNat 20 n := Fin.ext (Nat.mod_mod n 20)
  have hsecond := setAt_append (front ++ [x]) y (Digit.symbol (Fin.ofNat 20 column)) back
  rw [List.length_append, List.length_singleton, List.append_assoc, List.append_assoc,
    List.singleton_append, List.singleton_append] at hsecond
  have hbound (n : Nat) : n % 20 < 2 ^ 64 := (Nat.mod_lt n (by decide)).trans (by decide)
  unfold pairStep
  simp only [Option.bind_eq_bind]
  rw [modInt_natCast hcolumn (by decide), Option.bind_some, toCount_natCast (hbound column),
    symbolAt_eq, hmod, Option.bind_some, modInt_natCast hrow (by decide), Option.bind_some,
    toCount_natCast (hbound row), symbolAt_eq, hmod, Option.bind_some,
    addCount_eq_some (by omega), Option.bind_some, hsecond, Option.bind_some, setAt_append,
    Option.bind_some, divInt_natCast hrow (by decide), Option.bind_some,
    divInt_natCast hcolumn (by decide), Option.bind_some]

theorem exists_last {xs : List Char} {n : Nat} (h : xs.length = n + 1) :
    ∃ init x, xs = init ++ [x] ∧ init.length = n := by
  have hne : xs ≠ [] := by
    rintro rfl
    cases h
  refine ⟨xs.dropLast, xs.getLast hne, (List.dropLast_append_getLast hne).symm, ?_⟩
  rw [List.length_dropLast, h, Nat.add_sub_cancel]

/-- From the last place on, the first step is that of the last place. -/
theorem foldlM_reverse_succ (f : Peeled → Nat → Option Peeled) (p : Peeled)
    (start places step : Nat) :
    (List.range' start (places + 1) step).reverse.foldlM f p =
      (f p (start + step * places)).bind fun p =>
        (List.range' start places step).reverse.foldlM f p := by
  rw [List.range'_concat, List.reverse_append, List.reverse_singleton, List.singleton_append,
    List.foldlM_cons, Option.bind_eq_bind]

/-- The last digits of a row and a column. -/
theorem foldlM_refineStep {row column : Nat} (hrow : row < 2 ^ 63) (hcolumn : column < 2 ^ 63)
    {places : Nat} (front : List Char) {slots : List Char} (hslots : slots.length = places)
    (back : List Char) :
    (List.range' front.length places).reverse.foldlM refineStep
        ⟨row, column, front ++ slots ++ back⟩ =
      some ⟨(row / refinementRows ^ places : Nat), (column / refinementColumns ^ places : Nat),
        front ++ Digit.text (refinements places row column) ++ back⟩ := by
  induction places generalizing row column slots back with
  | zero =>
    obtain rfl := List.length_eq_zero_iff.1 hslots
    simp [refinements, Digit.text]
  | succ places ih =>
    obtain ⟨slots, x, rfl, hinit⟩ := exists_last hslots
    have hsplit : front ++ (slots ++ [x]) ++ back = (front ++ slots) ++ x :: back := by simp
    have hplace : front.length + 1 * places = (front ++ slots).length := by simp [hinit]
    rw [foldlM_reverse_succ, hplace, hsplit, refineStep_append hrow hcolumn, Option.bind_some,
      ih ((Nat.div_le_self _ _).trans_lt hrow) ((Nat.div_le_self _ _).trans_lt hcolumn) hinit,
      Nat.div_div_eq_div_mul, Nat.div_div_eq_div_mul, ← Nat.pow_succ', ← Nat.pow_succ',
      refinements, Digit.text_append, List.append_assoc, List.append_assoc, List.append_assoc]
    rfl

/-- The last pairs of a row and a column. -/
theorem foldlM_pairStep {row column : Nat} (hrow : row < 2 ^ 63) (hcolumn : column < 2 ^ 63)
    {places : Nat} (hplaces : 2 * places < 2 ^ 63) {slots : List Char}
    (hslots : slots.length = 2 * places) (back : List Char) :
    (List.range' 0 places 2).reverse.foldlM pairStep ⟨row, column, slots ++ back⟩ =
      some ⟨(row / 20 ^ places : Nat), (column / 20 ^ places : Nat),
        Digit.text (pairs places row column) ++ back⟩ := by
  induction places generalizing row column slots back with
  | zero =>
    obtain rfl := List.length_eq_zero_iff.1 hslots
    simp [pairs, Digit.text]
  | succ places ih =>
    obtain ⟨slots, y, rfl, hodd⟩ := exists_last hslots
    obtain ⟨slots, x, rfl, hinit⟩ := exists_last hodd
    have hinit : slots.length = 2 * places := hinit
    have hsplit : slots ++ [x] ++ [y] ++ back = slots ++ x :: y :: back := by simp
    rw [foldlM_reverse_succ, Nat.zero_add, ← hinit, hsplit,
      pairStep_append hrow hcolumn (by omega), Option.bind_some,
      ih ((Nat.div_le_self _ _).trans_lt hrow) ((Nat.div_le_self _ _).trans_lt hcolumn) (by omega)
        hinit, Nat.div_div_eq_div_mul, Nat.div_div_eq_div_mul, ← Nat.pow_succ', pairs,
      Digit.text_append, List.append_assoc]
    rfl

/-! ## Codes -/

/-- The places of a slice two by two, by the first of each two. -/
def pairStarts : List Nat → List Nat
  | first :: _ :: rest => first :: pairStarts rest
  | _ => []

def peelRefinements (count : Nat) (p : Peeled) : Option Peeled :=
  if pairDigits < count then do
    let places ← slice (List.range p.places.length) pairDigits p.places.length
    places.reverse.foldlM refineStep p
  else do
    some ⟨← divInt p.row (refinementRows ^ refinementDigits : Nat),
      ← divInt p.column (refinementColumns ^ refinementDigits : Nat), p.places⟩

def peelPairs (p : Peeled) : Option Peeled := do
  let places ← slice (List.range p.places.length) 0 pairDigits
  (pairStarts places).reverse.foldlM pairStep p

def fillUp (places : List Char) (count : Nat) : Option (List Char) :=
  if count < separatorPosition then fill places count separatorPosition Code.paddingSymbol
  else some places

/-- The text of the first places, filled up to the separator. -/
def layOut (places : List Char) (count : Nat) : Option (List Char) := do
  let filled ← fillUp places count
  let _ ← addCount (max count separatorPosition) 1
  let before ← slice filled 0 separatorPosition
  let after ← slice filled separatorPosition (max count separatorPosition)
  some (before ++ Code.separator :: after)

/-- The number of digits when so many are asked for. -/
def countFor (requested : Nat) : Option Nat := do
  let clamped ← clampCount requested leastDigits mostDigits
  if clamped < pairDigits ∧ clamped % 2 = 1 then addCount clamped 1 else some clamped

def encode (l : Location) (requested : Nat) : Option (List Char) := do
  let count ← countFor requested
  let latitude ← adjustLatitude l.latitude count
  let refined ← peelRefinements count ⟨rowAt latitude, columnAt (wrapLongitude l.longitude),
    List.replicate mostDigits Code.paddingSymbol⟩
  let paired ← peelPairs refined
  layOut paired.places count

theorem peelRefinements_eq {row column : Nat} (hrow : row < 2 ^ 63) (hcolumn : column < 2 ^ 63)
    (count : Nat) :
    peelRefinements count ⟨row, column, List.replicate mostDigits Code.paddingSymbol⟩ =
      some ⟨(row / refinementRows ^ refinementDigits : Nat),
        (column / refinementColumns ^ refinementDigits : Nat),
        List.replicate pairDigits Code.paddingSymbol ++
          if pairDigits < count then Digit.text (refinements refinementDigits row column)
          else List.replicate refinementDigits Code.paddingSymbol⟩ := by
  unfold peelRefinements
  by_cases hcount : pairDigits < count
  · have hplaces : slice (List.range mostDigits) pairDigits mostDigits =
        some (List.range' (List.replicate pairDigits Code.paddingSymbol).length
          refinementDigits) := by decide
    have hslots : (List.replicate refinementDigits Code.paddingSymbol).length = refinementDigits :=
      List.length_replicate
    have hloop := foldlM_refineStep hrow hcolumn (List.replicate pairDigits Code.paddingSymbol)
      hslots []
    rw [List.append_nil, List.append_nil] at hloop
    rw [if_pos hcount, if_pos hcount, List.length_replicate, hplaces, Option.bind_eq_bind,
      Option.bind_some]
    exact hloop
  · have hrows : refinementRows ^ refinementDigits ≠ 0 := by decide
    have hcolumns : refinementColumns ^ refinementDigits ≠ 0 := by decide
    rw [if_neg hcount, if_neg hcount, divInt_natCast hrow hrows, Option.bind_eq_bind,
      Option.bind_some, divInt_natCast hcolumn hcolumns]
    rfl

theorem length_refinedPlaces (row column count : Nat) :
    (if pairDigits < count then Digit.text (refinements refinementDigits row column)
      else List.replicate refinementDigits Code.paddingSymbol).length = refinementDigits := by
  split
  · rw [Digit.text, List.length_map, length_refinements]
  · exact List.length_replicate

/-- The pairs are peeled off, and what the places leave of a row and a column is kept. -/
theorem peelPairs_eq_some {row column : Nat} (hrow : row < 2 ^ 63) (hcolumn : column < 2 ^ 63)
    {back : List Char} (hback : back.length = refinementDigits) :
    peelPairs ⟨row, column, List.replicate pairDigits Code.paddingSymbol ++ back⟩ =
      some ⟨(row / 20 ^ (pairDigits / 2) : Nat), (column / 20 ^ (pairDigits / 2) : Nat),
        Digit.text (pairs (pairDigits / 2) row column) ++ back⟩ := by
  have hplaces : slice (List.range mostDigits) 0 pairDigits = some (List.range pairDigits) := by
    decide
  have hstarts : pairStarts (List.range pairDigits) = List.range' 0 (pairDigits / 2) 2 := by decide
  have hlength : (List.replicate pairDigits Code.paddingSymbol ++ back).length = mostDigits := by
    rw [List.length_append, List.length_replicate, hback]
    rfl
  have hslots : (List.replicate pairDigits Code.paddingSymbol).length = 2 * (pairDigits / 2) :=
    List.length_replicate
  have hloop := foldlM_pairStep hrow hcolumn (by decide) hslots back
  unfold peelPairs
  rw [hlength, hplaces, Option.bind_eq_bind, Option.bind_some, hstarts, hloop]

theorem peelPairs_eq {row column : Nat} (hrow : row < 2 ^ 63) (hcolumn : column < 2 ^ 63)
    {back : List Char} (hback : back.length = refinementDigits) :
    (peelPairs ⟨row, column, List.replicate pairDigits Code.paddingSymbol ++ back⟩).map
        Peeled.places =
      some (Digit.text (pairs (pairDigits / 2) row column) ++ back) := by
  rw [peelPairs_eq_some hrow hcolumn hback, Option.map_some]

/-- Less than eight digits are filled up to the separator, and nothing stands behind it. -/
theorem layOut_of_lt {places : List Char} {count : Nat}
    (hplaces : separatorPosition ≤ places.length) (hlt : count < separatorPosition) :
    layOut places count =
      some (places.take count ++ List.replicate (separatorPosition - count) Code.paddingSymbol ++
        [Code.separator]) := by
  have hfront : (places.take count ++
      List.replicate (separatorPosition - count) Code.paddingSymbol).length =
        separatorPosition := by
    rw [List.length_append, List.length_take, List.length_replicate]
    omega
  have hfilled : separatorPosition ≤ (places.take count ++
      List.replicate (separatorPosition - count) Code.paddingSymbol ++
        places.drop separatorPosition).length := by
    rw [List.length_append, hfront]
    exact Nat.le_add_right _ _
  have hsmall : separatorPosition + 1 < 2 ^ 64 := by decide
  unfold layOut fillUp
  simp only [Option.bind_eq_bind]
  rw [if_pos hlt, fill_eq_some hlt.le hplaces, Option.bind_some, Nat.max_eq_right hlt.le,
    addCount_eq_some hsmall, Option.bind_some, slice_eq_some (Nat.zero_le _) hfilled,
    Option.bind_some, slice_eq_some (Nat.le_refl _) hfilled, Option.bind_some,
    List.take_left' hfront, List.drop_zero, List.drop_of_length_le hfront.le]

theorem layOut_of_le {places : List Char} {count : Nat} (hle : separatorPosition ≤ count)
    (hcount : count ≤ places.length) (hplaces : places.length < 2 ^ 63) :
    layOut places count =
      some (places.take separatorPosition ++
        Code.separator :: (places.take count).drop separatorPosition) := by
  have hsmall : count + 1 < 2 ^ 64 := by omega
  unfold layOut fillUp
  simp only [Option.bind_eq_bind]
  rw [if_neg (Nat.not_lt_of_le hle), Option.bind_some, Nat.max_eq_left hle,
    addCount_eq_some hsmall, Option.bind_some,
    slice_eq_some (Nat.zero_le _) (hle.trans hcount), Option.bind_some, slice_eq_some hle hcount,
    Option.bind_some, List.drop_zero]

/-- The places that hold the digits of a code are laid out as its text. -/
theorem layOut_eq {places : List Char} {digits : List Digit} {count : Nat}
    (hplaces : places.length = mostDigits) (hcount : FullCount digits.length)
    (hlength : digits.length = count) (hle : count ≤ mostDigits)
    (htake : places.take count = Digit.text digits) :
    layOut places count = some (Code.ofDigits digits hcount).text := by
  have htext : (Code.ofDigits digits hcount).text =
      Digit.text (digits.take separatorPosition) ++
        List.replicate (separatorPosition - count) Code.paddingSymbol ++
          Code.separator :: Digit.text (digits.drop separatorPosition) := by
    rw [← hlength]
    rfl
  rw [htext]
  by_cases hlt : count < separatorPosition
  · have hshort : digits.length ≤ separatorPosition := hlength.trans_le hlt.le
    rw [layOut_of_lt (by rw [hplaces]; decide) hlt, htake, List.take_of_length_le hshort,
      List.drop_of_length_le hshort]
    rfl
  · have hle' : separatorPosition ≤ count := Nat.le_of_not_lt hlt
    have hfront : places.take separatorPosition = Digit.text (digits.take separatorPosition) := by
      rw [Digit.text, List.map_take, ← Digit.text, ← htake, List.take_take, Nat.min_eq_left hle']
    rw [layOut_of_le hle' (hle.trans_eq hplaces.symm) (by rw [hplaces]; decide), hfront, htake,
      Nat.sub_eq_zero_of_le hle', List.replicate_zero, List.append_nil, Digit.text, Digit.text,
      Digit.text, List.map_drop]

theorem countFor_eq (requested : Nat) : countFor requested = some (effectiveDigits requested) := by
  have hclamp : clampCount requested leastDigits mostDigits =
      some (max leastDigits (min requested mostDigits)) := if_pos (by decide)
  have hsmall : max leastDigits (min requested mostDigits) + 1 < 2 ^ 64 := by
    simp only [leastDigits, mostDigits, pairDigits, refinementDigits]
    omega
  unfold countFor effectiveDigits
  rw [hclamp, Option.bind_eq_bind, Option.bind_some, addCount_eq_some hsmall]
  dsimp only
  split
  · rfl
  · rfl

theorem leastDigits_le_effectiveDigits (requested : Nat) :
    leastDigits ≤ effectiveDigits requested := by
  unfold effectiveDigits
  dsimp only
  split
  · exact (Nat.le_max_left _ _).trans (Nat.le_succ _)
  · exact Nat.le_max_left _ _

/-- The first digits of a point, from all of them or from its pairs alone. -/
theorem take_places (p : GridPoint) (count : Nat) :
    (Digit.text (pairs (pairDigits / 2) (p.row / refinementRows ^ refinementDigits)
        (p.column / refinementColumns ^ refinementDigits)) ++
      if pairDigits < count then Digit.text (refinements refinementDigits p.row p.column)
      else List.replicate refinementDigits Code.paddingSymbol).take count =
        Digit.text (p.digits.take count) := by
  by_cases hcount : pairDigits < count
  · rw [if_pos hcount, ← Digit.text_append, Digit.text, Digit.text, List.map_take]
    rfl
  · have hpairs := length_pairs (pairDigits / 2) (p.row / refinementRows ^ refinementDigits)
      (p.column / refinementColumns ^ refinementDigits)
    have hshort : count ≤ 2 * (pairDigits / 2) := Nat.le_of_not_lt hcount
    rw [if_neg hcount, digits, Digit.text, Digit.text, List.take_append_of_le_length
      (by rw [List.length_map, hpairs]; exact hshort), List.take_append_of_le_length
      (by rw [hpairs]; exact hshort), List.map_take]

/-- The digits of a point on the globe or at its edge are peeled off and laid out. -/
theorem peel_eq {p : GridPoint} (hrow : p.row < 2 ^ 63) (hcolumn : p.column < 2 ^ 63) {count : Nat}
    (hle : count ≤ mostDigits) (hcount : FullCount (p.digits.take count).length) :
    ((peelRefinements count
        ⟨p.row, p.column, List.replicate mostDigits Code.paddingSymbol⟩).bind fun refined =>
      (peelPairs refined).bind fun paired => layOut paired.places count) =
        some (Code.ofDigits (p.digits.take count) hcount).text := by
  have hback := length_refinedPlaces p.row p.column count
  have htake := take_places p count
  have hpaired := @peelPairs_eq (p.row / refinementRows ^ refinementDigits)
    (p.column / refinementColumns ^ refinementDigits) ((Nat.div_le_self _ _).trans_lt hrow)
    ((Nat.div_le_self _ _).trans_lt hcolumn) _ hback
  have hlength : (Digit.text (pairs (pairDigits / 2) (p.row / refinementRows ^ refinementDigits)
      (p.column / refinementColumns ^ refinementDigits)) ++
        if pairDigits < count then Digit.text (refinements refinementDigits p.row p.column)
        else List.replicate refinementDigits Code.paddingSymbol).length = mostDigits := by
    rw [List.length_append, hback, Digit.text, List.length_map, length_pairs]
    rfl
  obtain ⟨paired, hpaired, hplaces⟩ := Option.map_eq_some_iff.1 hpaired
  rw [← hplaces] at htake hlength
  rw [peelRefinements_eq hrow hcolumn, Option.bind_some, hpaired, Option.bind_some]
  refine layOut_eq hlength hcount ?_ hle htake
  rw [List.length_take, GridPoint.length_digits, Nat.min_eq_left hle]

/-- The code of any location is written without failing. -/
theorem encode_eq (l : Location) (requested : Nat) :
    encode l requested = some (Code.ofLocation l requested).text := by
  have hle := effectiveDigits_le requested
  have hleast := leastDigits_le_effectiveDigits requested
  have hrow := rowAt_adjustLatitude_le hle l.latitude
  have hcolumn := columnAt_wrapLongitude_le l.longitude
  have hrow' := Int.toNat_of_nonneg (rowAt_adjustLatitude_nonneg hleast hle l.latitude)
  have hcolumn' := Int.toNat_of_nonneg (columnAt_wrapLongitude_nonneg l.longitude)
  have hlarge : 180 * rowsPerDegree < 2 ^ 63 ∧ 360 * columnsPerDegree < 2 ^ 63 := by decide
  have hpeel := peel_eq (p := GridPoint.ofLocation l (effectiveDigits requested))
    (by simp only [GridPoint.ofLocation]; omega) (by simp only [GridPoint.ofLocation]; omega) hle
    (by rw [List.length_take, GridPoint.length_digits, Nat.min_eq_left hle]
        exact fullCount_effectiveDigits requested)
  simp only [GridPoint.ofLocation, hrow', hcolumn'] at hpeel
  unfold encode
  simp only [Option.bind_eq_bind]
  rw [countFor_eq, Option.bind_some, adjustLatitude_eq, Option.bind_some, hpeel]
  rfl

end OpenLocation.Checked
