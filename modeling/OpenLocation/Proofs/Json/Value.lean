import OpenLocation.Proofs.Json.Tokens

/-!
# Values of JSON

A reader of whole JSON texts. It takes one token after the other and keeps the lists and objects
that are open, each with what stands in it so far. `Reads text v` says that a value's text brings
the reader from expecting a value to having it, wherever the text stands. Numbers, counts and
strings do however they are spelled, and lists and objects of such texts do, so a text
made of them is read as the value it was made of (`readValue_of_reads`).
-/

namespace OpenLocation.Json

open Decimal (Stops)

inductive Value where
  | literal
  | number (negative : Bool) (decimal : Decimal)
  | string (text : List Char)
  | list (items : List Value)
  | object (members : List (List Char × Value))

namespace Value

/-- A number as the nearest double, if that is finite. -/
def double? : Value → Option Binary64
  | number negative decimal =>
    if (decimal.toBinary64 negative).isFinite then some (decimal.toBinary64 negative) else none
  | _ => none

/-- A whole number without a sign or an exponent. -/
def count? : Value → Option Nat
  | number false ⟨count, 0⟩ => some count
  | _ => none

/-- The value of the only member of a name. -/
def member? (name : List Char) : Value → Option Value
  | object members =>
    match members.filter fun member => member.1 = name with
    | [member] => some member.2
    | _ => none
  | _ => none

end Value

/-! ## Reading -/

/-- A list or an object that is open, with what stands before the value that is read. -/
inductive Frame where
  | list (before : List Value)
  | object (before : List (List Char × Value)) (name : List Char)

/-- What the reader expects, and the frames around it, the innermost first. -/
inductive Reading where
  | value (outer : List Frame)
  /-- The first item, or the end of the list. -/
  | firstItem (outer : List Frame)
  /-- The first key, or the end of the object. -/
  | firstKey (outer : List Frame)
  | key (before : List (List Char × Value)) (outer : List Frame)
  | colon (before : List (List Char × Value)) (name : List Char) (outer : List Frame)
  /-- What follows a value that has been read. -/
  | after (v : Value) (outer : List Frame)

namespace Reading

def atValue (outer : List Frame) : Token → Option Reading
  | .literal => some (after .literal outer)
  | .number negative decimal => some (after (.number negative decimal) outer)
  | .string (.ok text) => some (after (.string text) outer)
  | .mark '[' => some (firstItem outer)
  | .mark '{' => some (firstKey outer)
  | _ => none

def atKey (before : List (List Char × Value)) (outer : List Frame) : Token → Option Reading
  | .string (.ok name) => some (colon before name outer)
  | _ => none

def atEnd (v : Value) : List Frame → Token → Option Reading
  | .list before :: outer, .mark ',' => some (value (.list (before ++ [v]) :: outer))
  | .list before :: outer, .mark ']' => some (after (.list (before ++ [v])) outer)
  | .object before name :: outer, .mark ',' => some (key (before ++ [(name, v)]) outer)
  | .object before name :: outer, .mark '}' => some (after (.object (before ++ [(name, v)])) outer)
  | _, _ => none

def step : Reading → Token → Option Reading
  | value outer, t => atValue outer t
  | firstItem outer, t => if t.isMark ']' then some (after (.list []) outer)
    else atValue (.list [] :: outer) t
  | firstKey outer, t => if t.isMark '}' then some (after (.object []) outer) else atKey [] outer t
  | key before outer, t => atKey before outer t
  | colon before name outer, t =>
    if t.isMark ':' then some (value (.object before name :: outer)) else none
  | after v outer, t => atEnd v outer t

/-- Takes all tokens of a text. -/
def run (state : Reading) (text : List Char) : Option Reading := (tokens text).foldlM step state

end Reading

/-- The value that a text is, with nothing behind it. -/
def readValue (text : List Char) : Option Value :=
  match Reading.run (.value []) text with
  | some (.after v []) => some v
  | _ => none

/-! ## Texts of values -/

namespace Reading

variable {text rest : List Char}

theorem run_of_tokens {t : Token} {more : List Token} (h : tokens text = t :: more)
    (state : Reading) : run state text = (step state t).bind fun next => more.foldlM step next := by
  rw [run, h]
  rfl

theorem run_mark {c : Char} (hc : isMark c = true) {state next : Reading}
    (h : step state (.mark c) = some next) (rest : List Char) :
    run state (c :: rest) = run next rest := by
  rw [run_of_tokens (tokens_mark hc rest), h]
  rfl

/-- A name and its colon. -/
theorem run_name {name body : List Char} (h : Spelling name body)
    (before : List (List Char × Value)) (outer : List Frame) (rest : List Char) :
    run (.key before outer) (quoted body ++ ':' :: rest) =
      run (.value (.object before name :: outer)) rest := by
  rw [run_of_tokens (tokens_quoted h _)]
  exact run_mark rfl rfl rest

end Reading

/-- The text is read as the value, wherever it stands; it does not begin like the end of a list. -/
structure Reads (text : List Char) (v : Value) : Prop where
  run : ∀ outer rest, Stops rest →
    Reading.run (.value outer) (text ++ rest) = Reading.run (.after v outer) rest
  starts : ∀ rest, Stops rest → ∃ t more, tokens (text ++ rest) = t :: more ∧ t.isMark ']' = false

theorem readValue_of_reads {text : List Char} {v : Value} (h : Reads text v) :
    readValue text = some v := by
  have hrun := h.run [] [] Decimal.stops_nil
  rw [List.append_nil] at hrun
  rw [readValue, hrun, Reading.run, tokens_nil]
  rfl

theorem separated_cons_cons (c : Char) (text next : List Char) (texts : List (List Char)) :
    separated [c] (text :: next :: texts) = text ++ c :: separated [c] (next :: texts) := rfl

theorem separated_singleton (c : Char) (text : List Char) : separated [c] [text] = text :=
  List.append_nil text

/-- Behind the first of separated texts stands a comma or what closes them. -/
theorem exists_stops (c : Char) (hc : isMark c = true) (text : List Char)
    (texts : List (List Char)) (rest : List Char) :
    ∃ more, Stops more ∧ separated [','] (text :: texts) ++ c :: rest = text ++ more := by
  cases texts with
  | nil => exact ⟨_, stops_mark hc rest, by rw [separated_singleton]⟩
  | cons next texts => exact ⟨_, stops_mark rfl _, List.append_assoc ..⟩

namespace Reads

variable {text : List Char} {v : Value}

/-- A single token that is a value. -/
theorem of_token {t : Token} (h : ∀ rest, Stops rest → tokens (text ++ rest) = t :: tokens rest)
    (ht : ∀ outer, Reading.atValue outer t = some (.after v outer)) (hmark : t.isMark ']' = false) :
    Reads text v where
  run outer rest hrest := by
    rw [Reading.run_of_tokens (h rest hrest), Reading.step, ht]
    rfl
  starts rest hrest := ⟨t, tokens rest, h rest hrest, hmark⟩

/-- The text of a finite double is read as a number that is this double. -/
theorem exists_number {x : Binary64} (hfinite : x.isFinite = true) (h : Decimal.Spelling x text) :
    ∃ v, v.double? = some x ∧ Reads text v := by
  obtain ⟨negative, d, rfl, htokens⟩ := Json.exists_number h
  exact ⟨.number negative d, if_pos hfinite, of_token htokens (fun _ => rfl) rfl⟩

theorem count (n : Nat) : Reads (Nat.toDigits 10 n) (.number false ⟨n, 0⟩) :=
  of_token (fun _ hrest => tokens_count n hrest) (fun _ => rfl) rfl

theorem quoted {value body : List Char} (h : Spelling value body) :
    Reads (Json.quoted body) (.string value) :=
  of_token (fun rest _ => tokens_quoted h rest) (fun _ => rfl) rfl

/-- An item that is not the end of the list is read like any other. -/
theorem run_first (h : Reads text v) (outer : List Frame) {rest : List Char} (hrest : Stops rest) :
    Reading.run (.firstItem outer) (text ++ rest) =
      Reading.run (.value (.list [] :: outer)) (text ++ rest) := by
  obtain ⟨t, more, htokens, hmark⟩ := h.starts rest hrest
  have hstep : Reading.step (.firstItem outer) t = Reading.atValue (.list [] :: outer) t :=
    if_neg (by rw [hmark]; decide)
  rw [Reading.run_of_tokens htokens, Reading.run_of_tokens htokens, hstep]
  rfl

/-- The items of a list from one on, up to the closing bracket. -/
theorem run_items (hv : Reads text v) {texts : List (List Char)} {vs : List Value}
    (h : List.Forall₂ Reads texts vs) (before : List Value) (outer : List Frame)
    (rest : List Char) :
    Reading.run (.value (.list before :: outer))
        (separated [','] (text :: texts) ++ ']' :: rest) =
      Reading.run (.after (.list (before ++ v :: vs)) outer) rest := by
  induction h generalizing text v before with
  | nil =>
    rw [separated_singleton, hv.run _ _ (stops_mark rfl rest)]
    exact Reading.run_mark rfl rfl rest
  | @cons next w texts vs hw _ ih =>
    rw [separated_cons_cons, List.append_assoc, List.cons_append,
      hv.run _ _ (stops_mark rfl _)]
    refine (Reading.run_mark rfl rfl _).trans ?_
    rw [ih hw (before ++ [v]), List.append_assoc]
    rfl

theorem array {texts : List (List Char)} {vs : List Value} (h : List.Forall₂ Reads texts vs) :
    Reads (Json.array texts) (.list vs) where
  run outer rest hrest := by
    rw [Json.array, List.cons_append, List.append_assoc]
    refine (Reading.run_mark rfl rfl _).trans ?_
    cases h with
    | nil => exact Reading.run_mark rfl rfl rest
    | @cons text v texts vs hv hvs =>
      obtain ⟨more, hmore, htext⟩ := exists_stops ']' rfl text texts rest
      refine Eq.trans ?_ (run_items hv hvs [] outer rest)
      rw [List.singleton_append, htext]
      exact hv.run_first outer hmore
  starts rest hrest := ⟨.mark '[', _, tokens_mark rfl _, rfl⟩

/-- The texts of a member's name and value. -/
def Member (text : List Char × List Char) (member : List Char × Value) : Prop :=
  (∃ body, text.1 = Json.quoted body ∧ Spelling member.1 body) ∧ Reads text.2 member.2

/-- A name, a colon and a value, as they stand in an object. -/
def memberText (text : List Char × List Char) : List Char := text.1 ++ ':' :: text.2

variable {texts : List Char × List Char} {member : List Char × Value}

theorem Member.run (h : Member texts member) (before : List (List Char × Value))
    (outer : List Frame) {rest : List Char} (hrest : Stops rest) :
    Reading.run (.key before outer) (memberText texts ++ rest) =
      Reading.run (.after member.2 (.object before member.1 :: outer)) rest := by
  obtain ⟨⟨body, hbody, hname⟩, hvalue⟩ := h
  rw [memberText, hbody, List.append_assoc, List.cons_append, Reading.run_name hname]
  exact hvalue.run _ rest hrest

theorem Member.run_first (h : Member texts member) (outer : List Frame) (rest : List Char) :
    Reading.run (.firstKey outer) (memberText texts ++ rest) =
      Reading.run (.key [] outer) (memberText texts ++ rest) := by
  obtain ⟨⟨body, hbody, hname⟩, -⟩ := h
  rw [memberText, hbody, List.append_assoc, Reading.run_of_tokens (tokens_quoted hname _),
    Reading.run_of_tokens (tokens_quoted hname _)]
  rfl

/-- The members of an object from one on, up to the closing brace. -/
theorem run_members (hmember : Member texts member) {written : List (List Char × List Char)}
    {members : List (List Char × Value)} (h : List.Forall₂ Member written members)
    (before : List (List Char × Value)) (outer : List Frame) (rest : List Char) :
    Reading.run (.key before outer)
        (separated [','] (memberText texts :: written.map memberText) ++ '}' :: rest) =
      Reading.run (.after (.object (before ++ member :: members)) outer) rest := by
  induction h generalizing texts member before with
  | nil =>
    rw [List.map_nil, separated_singleton, hmember.run _ _ (stops_mark rfl rest)]
    exact Reading.run_mark rfl rfl rest
  | @cons next w written members hw _ ih =>
    rw [List.map_cons, separated_cons_cons, List.append_assoc, List.cons_append,
      hmember.run _ _ (stops_mark rfl _)]
    refine (Reading.run_mark rfl rfl _).trans ?_
    rw [ih hw, List.append_assoc]
    rfl

theorem object {written : List (List Char × List Char)} {members : List (List Char × Value)}
    (h : List.Forall₂ Member written members) : Reads (Json.object written) (.object members) where
  run outer rest hrest := by
    rw [Json.object, List.cons_append, List.append_assoc]
    refine (Reading.run_mark rfl rfl _).trans ?_
    change Reading.run (.firstKey outer)
      (separated [','] (written.map memberText) ++ '}' :: rest) = _
    cases h with
    | nil => exact Reading.run_mark rfl rfl rest
    | @cons texts member written members hmember hmembers =>
      rw [List.map_cons]
      obtain ⟨more, -, htext⟩ :=
        exists_stops '}' rfl (memberText texts) (written.map memberText) rest
      refine Eq.trans ?_ (run_members hmember hmembers [] outer rest)
      rw [htext]
      exact hmember.run_first outer more
  starts rest hrest := ⟨.mark '{', _, tokens_mark rfl _, rfl⟩

end Reads

end OpenLocation.Json
