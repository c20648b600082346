import OpenLocation.Json.Content
import OpenLocation.Proofs.Grid.Partition

/-!
# Operations that can fail

What a machine does not define is `none` here: a count or an index that leaves the 64 bits
without a sign, a sum or a product that leaves the 64 bits with a sign, a division by zero, an
index beyond a list, a slice that ends before it starts or behind the list, and a cut of a text
inside a character. Texts are cut at byte offsets, so what stands before a cut is counted in
bytes. Each operation has one lemma that says when it gives a result, and which.
-/

namespace OpenLocation.Checked

/-! ## Counts and indexes -/

def addCount (a b : Nat) : Option Nat := if a + b < 2 ^ 64 then some (a + b) else none

def subCount (a b : Nat) : Option Nat := if b ≤ a then some (a - b) else none

def mulCount (a b : Nat) : Option Nat := if a * b < 2 ^ 64 then some (a * b) else none

/-- The nearest count between two bounds, which must be in order. -/
def clampCount (a low high : Nat) : Option Nat :=
  if low ≤ high then some (max low (min a high)) else none

variable {a b : Nat}

theorem addCount_eq_some (h : a + b < 2 ^ 64) : addCount a b = some (a + b) := if_pos h

theorem subCount_eq_some (h : b ≤ a) : subCount a b = some (a - b) := if_pos h

/-! ## Numbers with a sign -/

/-- A number of so many bits, one of them for the sign. -/
def ofBits? (bits : Nat) (i : Int) : Option Int :=
  if -2 ^ (bits - 1) ≤ i ∧ i < 2 ^ (bits - 1) then some i else none

def addInt (x y : Int) : Option Int := ofBits? 64 (x + y)

def mulInt (x y : Int) : Option Int := ofBits? 64 (x * y)

def powInt (x : Int) (n : Nat) : Option Int := ofBits? 64 (x ^ n)

/-- The quotient toward zero. -/
def divInt (x y : Int) : Option Int := if y = 0 then none else ofBits? 64 (x.tdiv y)

/-- What the quotient toward zero leaves. -/
def modInt (x y : Int) : Option Int :=
  if y = 0 then none else (ofBits? 64 (x.tdiv y)).map fun _ => x.tmod y

/-- The bits of a number read as a count. -/
def toCount (i : Int) : Nat := (i % 2 ^ 64).toNat

section

variable {x y : Int}

theorem ofBits?_eq_some {bits : Nat} (hlow : -2 ^ (bits - 1) ≤ x) (hhigh : x < 2 ^ (bits - 1)) :
    ofBits? bits x = some x := if_pos ⟨hlow, hhigh⟩

theorem addInt_eq_some (hlow : -2 ^ 63 ≤ x + y) (hhigh : x + y < 2 ^ 63) :
    addInt x y = some (x + y) := ofBits?_eq_some hlow hhigh

theorem addInt_natCast (h : a + b < 2 ^ 63) : addInt a b = some ((a + b : Nat) : Int) := by
  rw [addInt_eq_some (by omega) (by omega), Int.natCast_add]

theorem mulInt_natCast (h : a * b < 2 ^ 63) : mulInt a b = some ((a * b : Nat) : Int) := by
  rw [mulInt, ← Int.natCast_mul]
  generalize a * b = product at h
  exact ofBits?_eq_some (by omega) (by omega)

/-- Without a sign the quotient is that of whole numbers. -/
theorem divInt_natCast (ha : a < 2 ^ 63) (hb : b ≠ 0) :
    divInt a b = some ((a / b : Nat) : Int) := by
  have hle := Nat.div_le_self a b
  rw [divInt, if_neg (by exact_mod_cast hb), ← Int.ofNat_tdiv]
  generalize a / b = quotient at hle
  exact ofBits?_eq_some (by omega) (by omega)

theorem modInt_natCast (ha : a < 2 ^ 63) (hb : b ≠ 0) :
    modInt a b = some ((a % b : Nat) : Int) := by
  have hdiv := divInt_natCast ha hb
  have hb' : (b : Int) ≠ 0 := by exact_mod_cast hb
  rw [divInt, if_neg hb'] at hdiv
  rw [modInt, if_neg hb', hdiv, Option.map_some, Int.ofNat_tmod]

theorem toCount_natCast (ha : a < 2 ^ 64) : toCount a = a := by
  rw [toCount, Int.emod_eq_of_lt (by omega) (by omega), Int.toNat_natCast]

end

/-! ## Lists -/

section

variable {α : Type} {xs front back : List α} {start stop : Nat}

def setAt (xs : List α) (i : Nat) (x : α) : Option (List α) :=
  if i < xs.length then some (xs.set i x) else none

def slice (xs : List α) (start stop : Nat) : Option (List α) :=
  if start ≤ stop ∧ stop ≤ xs.length then some ((xs.take stop).drop start) else none

/-- The list with one value all over a slice. -/
def fill (xs : List α) (start stop : Nat) (x : α) : Option (List α) :=
  if start ≤ stop ∧ stop ≤ xs.length then
    some (xs.take start ++ List.replicate (stop - start) x ++ xs.drop stop)
  else none

theorem setAt_append (front : List α) (x y : α) (back : List α) :
    setAt (front ++ x :: back) front.length y = some (front ++ y :: back) := by
  rw [setAt, if_pos (by simp), List.set_append_right _ _ (Nat.le_refl _), Nat.sub_self,
    List.set_cons_zero]

theorem slice_eq_some (hle : start ≤ stop) (hstop : stop ≤ xs.length) :
    slice xs start stop = some ((xs.take stop).drop start) := if_pos ⟨hle, hstop⟩

theorem fill_eq_some (hle : start ≤ stop) (hstop : stop ≤ xs.length) (x : α) :
    fill xs start stop x =
      some (xs.take start ++ List.replicate (stop - start) x ++ xs.drop stop) :=
  if_pos ⟨hle, hstop⟩

end

/-! ## Texts -/

/-- A text parted at a byte offset where a character starts, or at its end. -/
def splitBytes : List Char → Nat → Option (List Char × List Char)
  | [], offset => if offset = 0 then some ([], []) else none
  | c :: rest, offset =>
    if offset = 0 then some ([], c :: rest)
    else if c.utf8Size ≤ offset then
      (splitBytes rest (offset - c.utf8Size)).map fun parts => (c :: parts.1, parts.2)
    else none

def takeBytes (text : List Char) (stop : Nat) : Option (List Char) :=
  (splitBytes text stop).map (·.1)

def dropBytes (text : List Char) (start : Nat) : Option (List Char) :=
  (splitBytes text start).map (·.2)

def sliceBytes (text : List Char) (start stop : Nat) : Option (List Char) :=
  if start ≤ stop then (takeBytes text stop).bind (dropBytes · start) else none

/-- Cuts a text off, if it is longer. -/
def truncateBytes (text : List Char) (stop : Nat) : Option (List Char) :=
  if stop ≤ Json.byteCount text then takeBytes text stop else some text

/-- The byte offset of the first place of a character. -/
def findByte (c : Char) : List Char → Option Nat
  | [] => none
  | x :: rest => if x = c then some 0 else (findByte c rest).map (x.utf8Size + ·)

/-- The byte offset of the last place of a character. -/
def findLastByte (c : Char) : List Char → Option Nat
  | [] => none
  | x :: rest =>
    match findLastByte c rest with
    | some offset => some (x.utf8Size + offset)
    | none => if x = c then some 0 else none

open Json (byteCount)

theorem byteCount_cons (c : Char) (rest : List Char) :
    byteCount (c :: rest) = c.utf8Size + byteCount rest := by
  have hstart (text : List Char) (bytes : Nat) :
      text.foldl (fun bytes c => bytes + c.utf8Size) bytes = bytes + byteCount text := by
    induction text generalizing bytes with
    | nil => rfl
    | cons x text ih =>
      rw [byteCount, List.foldl_cons, List.foldl_cons, ih, ih]
      omega
  rw [byteCount, List.foldl_cons, hstart, Nat.zero_add]

theorem byteCount_append (xs ys : List Char) :
    byteCount (xs ++ ys) = byteCount xs + byteCount ys := by
  induction xs with
  | nil => exact (Nat.zero_add _).symm
  | cons c xs ih => rw [List.cons_append, byteCount_cons, byteCount_cons, ih, Nat.add_assoc]

theorem length_le_byteCount (text : List Char) : text.length ≤ byteCount text := by
  induction text with
  | nil => exact Nat.le_refl 0
  | cons c rest ih =>
    have hpos := c.utf8Size_pos
    rw [List.length_cons, byteCount_cons]
    omega

/-- Where every character takes one byte, bytes are characters. -/
theorem byteCount_of_ascii {text : List Char} (h : ∀ c ∈ text, c.utf8Size = 1) :
    byteCount text = text.length := by
  induction text with
  | nil => rfl
  | cons c rest ih =>
    obtain ⟨hc, hrest⟩ := List.forall_mem_cons.1 h
    rw [byteCount_cons, hc, ih hrest, List.length_cons, Nat.add_comm]

theorem splitBytes_append (xs ys : List Char) :
    splitBytes (xs ++ ys) (byteCount xs) = some (xs, ys) := by
  induction xs with
  | nil => cases ys <;> rfl
  | cons c xs ih =>
    have hpos := c.utf8Size_pos
    have hrest : c.utf8Size + byteCount xs - c.utf8Size = byteCount xs := by omega
    rw [List.cons_append, byteCount_cons, splitBytes, if_neg (by omega), if_pos (by omega), hrest,
      ih, Option.map_some]

theorem takeBytes_append (xs ys : List Char) :
    takeBytes (xs ++ ys) (byteCount xs) = some xs := by
  rw [takeBytes, splitBytes_append, Option.map_some]

example : takeBytes "€0".toList 3 = some "€".toList ∧ takeBytes "€0".toList 2 = none := by decide

theorem dropBytes_append (xs ys : List Char) :
    dropBytes (xs ++ ys) (byteCount xs) = some ys := by
  rw [dropBytes, splitBytes_append, Option.map_some]

theorem sliceBytes_append (xs ys zs : List Char) :
    sliceBytes (xs ++ ys ++ zs) (byteCount xs) (byteCount xs + byteCount ys) = some ys := by
  rw [sliceBytes, if_pos (Nat.le_add_right _ _), ← byteCount_append, takeBytes_append,
    Option.bind_some, dropBytes_append]

section

variable {text : List Char} {count : Nat}

theorem byteCount_take (h : ∀ c ∈ text, c.utf8Size = 1) (hcount : count ≤ text.length) :
    byteCount (text.take count) = count := by
  rw [byteCount_of_ascii fun c hc => h c (List.mem_of_mem_take hc), List.length_take,
    Nat.min_eq_left hcount]

theorem takeBytes_eq_take (h : ∀ c ∈ text, c.utf8Size = 1) (hcount : count ≤ text.length) :
    takeBytes text count = some (text.take count) := by
  have htake := takeBytes_append (text.take count) (text.drop count)
  rwa [byteCount_take h hcount, List.take_append_drop] at htake

theorem dropBytes_eq_drop (h : ∀ c ∈ text, c.utf8Size = 1) (hcount : count ≤ text.length) :
    dropBytes text count = some (text.drop count) := by
  have hdrop := dropBytes_append (text.take count) (text.drop count)
  rwa [byteCount_take h hcount, List.take_append_drop] at hdrop

end

theorem findByte_append {c : Char} {xs : List Char} (h : c ∉ xs) (ys : List Char) :
    findByte c (xs ++ c :: ys) = some (byteCount xs) := by
  induction xs with
  | nil => exact if_pos rfl
  | cons x xs ih =>
    rw [List.mem_cons, not_or] at h
    rw [List.cons_append, findByte, if_neg (Ne.symm h.1), ih h.2, byteCount_cons, Option.map_some]

theorem findByte_eq_none {c : Char} {text : List Char} (h : c ∉ text) : findByte c text = none := by
  induction text with
  | nil => rfl
  | cons x rest ih =>
    rw [List.mem_cons, not_or] at h
    rw [findByte, if_neg (Ne.symm h.1), ih h.2, Option.map_none]

theorem findLastByte_eq_none {c : Char} {text : List Char} (h : c ∉ text) :
    findLastByte c text = none := by
  induction text with
  | nil => rfl
  | cons x rest ih =>
    rw [List.mem_cons, not_or] at h
    rw [findLastByte, ih h.2]
    exact if_neg (Ne.symm h.1)

theorem findLastByte_append {c : Char} {ys : List Char} (h : c ∉ ys) (xs : List Char) :
    findLastByte c (xs ++ c :: ys) = some (byteCount xs) := by
  induction xs with
  | nil =>
    rw [List.nil_append, findLastByte, findLastByte_eq_none h]
    exact if_pos rfl
  | cons x xs ih => rw [List.cons_append, findLastByte, ih, byteCount_cons]

/-- The text up to the first place of a character. -/
theorem truncateBytes_append (xs ys : List Char) :
    truncateBytes (xs ++ ys) (byteCount xs) = some xs := by
  rw [truncateBytes, if_pos (by rw [byteCount_append]; omega), takeBytes_append]

end OpenLocation.Checked
