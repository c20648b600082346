import OpenLocation.Proofs.Code.Layout
import OpenLocation.Proofs.Code.RoundTrip
import OpenLocation.Session

/-!
# Letter case

Nothing that is told of a text, and nothing that is made of it, depends on the case of its
ASCII letters. What a text reads as does not, since a code has one spelling up to case
(`Code.ofText?_map_toUpper`), and neither does its upper case (`Text.upperCase_map_toUpper`),
which is what a text that is no code is recovered as. Shortening keeps the letters as they are,
but takes off as many of them (`Code.agree_of_map_toUpper_eq`).
-/

namespace OpenLocation

namespace Text

/-- A letter and its capital have the same upper case. -/
theorem upperChar_capitals : ∀ place < 26,
    upperChar (Char.ofNat (65 + place + 32)) = upperChar (Char.ofNat (65 + place)) := by
  decide +kernel

theorem upperChar_toUpper (c : Char) : upperChar c.toUpper = upperChar c := by
  rcases Digit.toUpper_cases c with hsame | ⟨hcode, hlow, hhigh⟩
  · rw [hsame]
  · have hplace := upperChar_capitals (c.toUpper.toNat - 65) (by omega)
    rw [Nat.add_sub_cancel' hlow, ← hcode, Char.ofNat_toNat, Char.ofNat_toNat] at hplace
    exact hplace.symm

theorem upperCase_map_toUpper (s : List Char) : upperCase (s.map Char.toUpper) = upperCase s := by
  unfold upperCase
  rw [List.flatMap_map]
  congr 1
  funext c
  exact upperChar_toUpper c

end Text

namespace Code

theorem kind_map_toUpper (s : List Char) : kind (s.map Char.toUpper) = kind s := by
  unfold kind
  rw [ofText?_map_toUpper, significant_map_toUpper, List.length_map]

theorem recoverText_map_toUpper (s : List Char) (r : Location) :
    recoverText (s.map Char.toUpper) r = recoverText s r := by
  unfold recoverText
  rw [ofText?_map_toUpper, Text.upperCase_map_toUpper]

/-- Texts that are equal but for the case of letters are both no code, or read as the same one. -/
theorem read_cases {s t : List Char} (h : s.map Char.toUpper = t.map Char.toUpper) :
    ofText? s = none ∧ ofText? t = none ∨ ∃ c, ofText? s = some c ∧ ofText? t = some c := by
  have hread := congrArg ofText? h
  rw [ofText?_map_toUpper, ofText?_map_toUpper] at hread
  cases hs : ofText? s with
  | none => exact Or.inl ⟨rfl, hread.symm.trans hs⟩
  | some c => exact Or.inr ⟨c, rfl, hread.symm.trans hs⟩

/--
Two texts that are equal but for the case of ASCII letters are of the same kind and have as many
digits. They name the same area, or fail to in the same way. Near any reference they lose as
many characters and are recovered as the same text, and they are read as the same code or are
both none.
-/
theorem agree_of_map_toUpper_eq {s t : List Char} (h : s.map Char.toUpper = t.map Char.toUpper) :
    kind s = kind t ∧
      ((∃ a, areaOfText s = .ok a ∧ areaOfText t = .ok a) ∨
        areaOfText s = .error (.invalidCode s) ∧ areaOfText t = .error (.invalidCode t) ∨
        areaOfText s = .error (.notFullCode s) ∧ areaOfText t = .error (.notFullCode t)) ∧
      (∀ r, (∃ removed ≤ s.length, removed ≤ t.length ∧
          shortenText s r = s.drop removed ∧ shortenText t r = t.drop removed) ∧
        recoverText s r = recoverText t r) ∧
      ((∃ c, read s = .ok c ∧ read t = .ok c) ∨
        read s = .error (.invalidCode s) ∧ read t = .error (.invalidCode t)) := by
  have hkind : kind s = kind t := by rw [← kind_map_toUpper s, h, kind_map_toUpper]
  have hrecover (r : Location) : recoverText s r = recoverText t r := by
    rw [← recoverText_map_toUpper s, h, recoverText_map_toUpper]
  unfold areaOfText shortenText read
  rcases read_cases h with ⟨hs, ht⟩ | ⟨c, hs, ht⟩
  · rw [hs, ht]
    refine ⟨hkind, Or.inr (Or.inl ⟨rfl, rfl⟩), fun r => ⟨?_, hrecover r⟩, Or.inr ⟨rfl, rfl⟩⟩
    exact ⟨0, Nat.zero_le _, Nat.zero_le _, rfl, rfl⟩
  · have hremovable (r : Location) := removable_le_length hs r
    have hremovable' (r : Location) := removable_le_length ht r
    rw [hs, ht]
    refine ⟨hkind, ?_, fun r => ⟨?_, hrecover r⟩, Or.inl ⟨c, rfl, rfl⟩⟩
    · dsimp only
      unfold areaFrom
      cases c.isShort
      · cases c.isOnGlobe
        · exact Or.inr (Or.inl ⟨rfl, rfl⟩)
        · exact Or.inl ⟨_, rfl, rfl⟩
      · exact Or.inr (Or.inr ⟨rfl, rfl⟩)
    · exact ⟨c.removable r, hremovable r, hremovable' r, rfl, rfl⟩

theorem agree_of_map_toUpper_eq_mixed :
    let r : Location := ⟨51.3701125, -1.217765625⟩
    "9c3W9qcJ+2vx".toList.map Char.toUpper = "9C3w9QCj+2Vx".toList.map Char.toUpper ∧
      kind "9c3W9qcJ+2vx".toList = kind "9C3w9QCj+2Vx".toList ∧
      shortenText "9c3W9qcJ+2vx".toList r = "+2vx".toList ∧
      shortenText "9C3w9QCj+2Vx".toList r = "+2Vx".toList := by
  intro r
  have h : "9c3W9qcJ+2vx".toList.map Char.toUpper = "9C3w9QCj+2Vx".toList.map Char.toUpper := by
    decide
  have hshorten : shortenText "9c3W9qcJ+2vx".toList r = "+2vx".toList := by decide +kernel
  obtain ⟨hkind, -, hnear, -⟩ := agree_of_map_toUpper_eq h
  obtain ⟨removed, hle, -, hdrop, hdrop'⟩ := (hnear r).1
  have hcount := congrArg List.length (hdrop.symm.trans hshorten)
  rw [List.length_drop] at hcount
  obtain rfl : removed = 8 := by
    have hlength : "9c3W9qcJ+2vx".toList.length = 12 := by decide
    have hkept : "+2vx".toList.length = 4 := by decide
    omega
  exact ⟨h, hkind, hshorten, hdrop'.trans (by decide)⟩

end Code

end OpenLocation
