import Mathlib
import OpenLocation.Text.Uppercase

/-!
# Upper case is stable

A capital is its own upper case (`upperChar_of_mem`), so a text in upper case is unchanged
(`upperCase_upperCase`). What the tables list is put in one number, a bit for each character, so
that the capitals are looked up there and not in every run of letters.
-/

namespace OpenLocation.Text

theorem upperChar_cases (c : Char) :
    (∃ entry ∈ longCapitals, entry.1 = c.toNat ∧ upperChar c = entry.2.map Char.ofNat) ∨
      (∃ run ∈ caseRuns, run.has c.toNat = true ∧
        upperChar c = [Char.ofNat (c.toNat + run.distance).toNat]) ∨
      upperChar c = [c] := by
  unfold upperChar
  cases hlong : longCapitals.find? (·.1 == c.toNat) with
  | some entry =>
    have hcode := List.find?_some hlong
    rw [beq_iff_eq] at hcode
    exact Or.inl ⟨entry, List.mem_of_find?_eq_some hlong, hcode, rfl⟩
  | none =>
    cases hrun : caseRuns.find? (·.has c.toNat) with
    | some run =>
      have hhas := List.find?_some hrun
      exact Or.inr (Or.inl ⟨run, List.mem_of_find?_eq_some hrun, hhas, rfl⟩)
    | none => exact Or.inr (Or.inr rfl)

/-! ## Listed characters -/

namespace CaseRun

def letters (run : CaseRun) : List Nat :=
  List.range' run.first ((run.last - run.first) / run.step + 1) run.step

theorem mem_letters_of_has {run : CaseRun} {n : Nat} (h : run.has n = true) :
    n ∈ run.letters := by
  simp only [has, Bool.and_eq_true, decide_eq_true_eq, beq_iff_eq] at h
  obtain ⟨⟨hfirst, hlast⟩, hstep⟩ := h
  have hplace := Nat.div_add_mod (n - run.first) run.step
  have hcount := Nat.div_le_div_right (c := run.step) (Nat.sub_le_sub_right hlast run.first)
  refine List.mem_range'.2 ⟨(n - run.first) / run.step, Nat.lt_succ_of_le hcount, ?_⟩
  rw [hstep, Nat.add_zero] at hplace
  rw [hplace, Nat.add_sub_cancel' hfirst]

end CaseRun

/-- The number with these bits. -/
def bits (places : List Nat) : Nat := places.foldr (fun n set => set ||| 1 <<< n) 0

theorem testBit_bits {places : List Nat} {n : Nat} (h : n ∈ places) :
    (bits places).testBit n = true := by
  induction places with
  | nil => cases h
  | cons m places ih =>
    rw [bits, List.foldr_cons, Nat.testBit_or, Bool.or_eq_true]
    rcases List.mem_cons.1 h with rfl | hmem
    · right
      rw [Nat.one_shiftLeft, Nat.testBit_two_pow_self]
    · exact Or.inl (ih hmem)

/-- All characters that the tables change. -/
def listed : Nat := bits (longCapitals.map Prod.fst ++ caseRuns.flatMap CaseRun.letters)

/-- What no table lists is its own upper case. -/
theorem upperChar_of_not_listed {c : Char} (h : listed.testBit c.toNat = false) :
    upperChar c = [c] := by
  have hno : c.toNat ∉ longCapitals.map Prod.fst ++ caseRuns.flatMap CaseRun.letters :=
    fun hmem => Bool.false_ne_true (h.symm.trans (testBit_bits hmem))
  rw [List.mem_append, not_or] at hno
  rcases upperChar_cases c with ⟨entry, hentry, hcode, -⟩ | ⟨run, hrun, hhas, -⟩ | heq
  · exact absurd (List.mem_map.2 ⟨entry, hentry, hcode⟩) hno.1
  · exact absurd (List.mem_flatMap.2 ⟨run, hrun, CaseRun.mem_letters_of_has hhas⟩) hno.2
  · exact heq

/-! ## Stability -/

theorem not_listed_capitals :
    (∀ entry ∈ longCapitals, ∀ n ∈ entry.2, listed.testBit n = false) ∧
      (∀ run ∈ caseRuns, ∀ n ∈ run.letters, listed.testBit (n + run.distance).toNat = false) ∧
      listed.testBit 0 = false := by
  decide +kernel

theorem upperChar_ofNat {n : Nat} (h : listed.testBit n = false) :
    upperChar (Char.ofNat n) = [Char.ofNat n] := by
  apply upperChar_of_not_listed
  rw [Char.toNat_ofNat]
  split
  · exact h
  · -- A number that is no code point stands for the null character.
    exact not_listed_capitals.2.2

theorem upperChar_of_mem {c x : Char} (hx : x ∈ upperChar c) : upperChar x = [x] := by
  rcases upperChar_cases c with ⟨entry, hentry, -, heq⟩ | ⟨run, hrun, hhas, heq⟩ | heq
  · rw [heq, List.mem_map] at hx
    obtain ⟨n, hn, rfl⟩ := hx
    exact upperChar_ofNat (not_listed_capitals.1 entry hentry n hn)
  · rw [heq, List.mem_singleton] at hx
    rw [hx]
    exact upperChar_ofNat
      (not_listed_capitals.2.1 run hrun c.toNat (CaseRun.mem_letters_of_has hhas))
  · rw [heq, List.mem_singleton] at hx
    rw [hx, heq]

/-- What is in upper case is unchanged by it. -/
theorem upperCase_upperCase (s : List Char) : upperCase (upperCase s) = upperCase s := by
  have hstable : ∀ x ∈ upperCase s, upperChar x = [x] := by
    intro x hx
    obtain ⟨c, -, hc⟩ := List.mem_flatMap.1 hx
    exact upperChar_of_mem hc
  conv => lhs; rw [upperCase]
  rw [List.flatMap_congr hstable, List.flatMap_singleton']

end OpenLocation.Text
