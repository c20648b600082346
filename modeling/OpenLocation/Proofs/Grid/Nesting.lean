import OpenLocation.Proofs.Grid.PlaceValues

/-!
# Cells within cells

Of two cells that digits name one lies inside the other, or they are apart. Their digits
tell which: a point lies in those cells whose digits its own ones begin with
(`Cell.mem_ofDigits_iff`), so where cells share a point the digits of one begin with those
of the other, and a cell with more digits is smaller (`Cell.ofDigits_subset_iff`,
`Cell.disjoint_ofDigits_iff`).
-/

namespace OpenLocation

namespace Cell

def points (c : Cell) : Set GridPoint := {p | p ∈ c}

/-! ## Sizes -/

/-- The sizes of cells divide each other. -/
theorem sizeOf_dvd_sizeOf (parts : Nat) {m n : Nat} (h : m ≤ n) :
    sizeOf parts n ∣ sizeOf parts m := by
  unfold sizeOf pairDigits
  exact Nat.mul_dvd_mul (Nat.pow_dvd_pow 20 (by omega)) (Nat.pow_dvd_pow parts (by omega))

theorem heightOf_dvd_heightOf {m n : Nat} (h : m ≤ n) : heightOf n ∣ heightOf m :=
  sizeOf_dvd_sizeOf refinementRows h

theorem heightOf_lt_heightOf {m n : Nat} (hm : IsCount m) (hn : IsCount n) (h : m < n) :
    heightOf n < heightOf m := by
  have hmost := hn.1
  unfold heightOf sizeOf
  simp only [IsCount, mostDigits, pairDigits, refinementDigits] at *
  by_cases hpair : m < 10
  · -- A pair less at least, and no digit more after the pairs.
    apply Nat.mul_lt_mul_of_lt_of_le
    · exact Nat.pow_lt_pow_right (by decide) (by omega)
    · exact Nat.pow_le_pow_right (by decide) (by omega)
    · exact Nat.pow_pos (by decide)
  · apply Nat.mul_lt_mul_of_le_of_lt
    · exact Nat.pow_le_pow_right (by decide) (by omega)
    · exact Nat.pow_lt_pow_right (by decide) (by omega)
    · exact Nat.pow_pos (by decide)

theorem height_le_of_subset {inner outer : Cell} (hheight : 0 < inner.height)
    (hwidth : 0 < inner.width) (h : inner.points ⊆ outer.points) :
    inner.height ≤ outer.height := by
  have hfirst : (⟨inner.south, inner.west⟩ : GridPoint) ∈ outer :=
    h (mem_iff.2 (by dsimp only; omega))
  have hlast : (⟨inner.south + inner.height - 1, inner.west⟩ : GridPoint) ∈ outer :=
    h (mem_iff.2 (by dsimp only; omega))
  rw [mem_iff] at hfirst hlast
  dsimp only at hfirst hlast
  omega

/-! ## Digits that begin alike -/

/-- A point lies in the cells that its first digits name, and in no other ones. -/
theorem mem_ofDigits_iff {p : GridPoint} {digits : List Digit} (h : IsCount digits.length) :
    p ∈ ofDigits digits ↔ p ∈ whole ∧ digits <+: p.digits := by
  constructor
  · intro hp
    exact ⟨mem_whole_of_mem hp, List.prefix_iff_eq_take.2 (eq_take_of_mem h hp)⟩
  · rintro ⟨hwhole, hprefix⟩
    rw [List.prefix_iff_eq_take.1 hprefix, ofDigits_take hwhole h]
    exact mem_around p (heightOf_pos _) (widthOf_pos _)

theorem size_pos {digits : List Digit} (h : IsCount digits.length) :
    0 < (ofDigits digits).height ∧ 0 < (ofDigits digits).width := by
  obtain ⟨hheight, hwidth⟩ := size_ofDigits h
  rw [hheight, hwidth]
  exact ⟨heightOf_pos _, widthOf_pos _⟩

theorem points_nonempty {digits : List Digit} (h : IsCount digits.length) :
    (ofDigits digits).points.Nonempty := by
  obtain ⟨hheight, hwidth⟩ := size_pos h
  exact ⟨⟨_, _⟩, mem_iff.2 ⟨⟨Nat.le_refl _, Nat.lt_add_of_pos_right hheight⟩,
    Nat.le_refl _, Nat.lt_add_of_pos_right hwidth⟩⟩

section

variable {a b : List Digit}

theorem prefix_or_prefix_of_mem (ha : IsCount a.length) (hb : IsCount b.length) {p : GridPoint}
    (hpa : p ∈ ofDigits a) (hpb : p ∈ ofDigits b) : a <+: b ∨ b <+: a :=
  List.prefix_or_prefix_of_prefix ((mem_ofDigits_iff ha).1 hpa).2 ((mem_ofDigits_iff hb).1 hpb).2

theorem points_subset (ha : IsCount a.length) (hb : IsCount b.length) (h : a <+: b) :
    (ofDigits b).points ⊆ (ofDigits a).points := by
  intro p hp
  obtain ⟨hwhole, hprefix⟩ := (mem_ofDigits_iff hb).1 hp
  exact (mem_ofDigits_iff ha).2 ⟨hwhole, h.trans hprefix⟩

/-- One cell lies inside another exactly if its digits begin with the other's. -/
theorem ofDigits_subset_iff (ha : IsCount a.length) (hb : IsCount b.length) :
    (ofDigits b).points ⊆ (ofDigits a).points ↔ a <+: b := by
  constructor
  · intro hsubset
    obtain ⟨p, hp⟩ := points_nonempty hb
    rcases prefix_or_prefix_of_mem ha hb (hsubset hp) hp with hprefix | hprefix
    · exact hprefix
    · -- With fewer digits the inner cell would be the larger one.
      have hle : a.length ≤ b.length := by
        by_contra hlt
        have hsize := height_le_of_subset (size_pos hb).1 (size_pos hb).2 hsubset
        rw [(size_ofDigits ha).1, (size_ofDigits hb).1] at hsize
        exact Nat.not_lt_of_le hsize (heightOf_lt_heightOf hb ha (Nat.lt_of_not_le hlt))
      have heq : b = a := hprefix.eq_of_length (Nat.le_antisymm hprefix.length_le hle)
      exact heq ▸ List.prefix_rfl
  · exact points_subset ha hb

/-- Two cells are apart exactly if the digits of neither begin with the other's. -/
theorem disjoint_ofDigits_iff (ha : IsCount a.length) (hb : IsCount b.length) :
    Disjoint (ofDigits a).points (ofDigits b).points ↔ ¬ a <+: b ∧ ¬ b <+: a := by
  rw [Set.disjoint_left]
  constructor
  · intro hapart
    constructor
    · intro hprefix
      obtain ⟨p, hp⟩ := points_nonempty hb
      exact hapart (points_subset ha hb hprefix hp) hp
    · intro hprefix
      obtain ⟨p, hp⟩ := points_nonempty ha
      exact hapart hp (points_subset hb ha hprefix hp)
  · rintro ⟨hnot, hnot'⟩ p hpa hpb
    exact (prefix_or_prefix_of_mem ha hb hpa hpb).elim hnot hnot'

/-- Different digits name different cells. -/
theorem digits_eq_of_points_eq (ha : IsCount a.length) (hb : IsCount b.length)
    (h : (ofDigits a).points = (ofDigits b).points) : a = b := by
  have hab : a <+: b := (ofDigits_subset_iff ha hb).1 h.ge
  have hba : b <+: a := (ofDigits_subset_iff hb ha).1 h.le
  exact hab.eq_of_length (Nat.le_antisymm hab.length_le hba.length_le)

end

end Cell

namespace GridPoint

/-- Points in one row and one column of cells have the digits of these cells in common. -/
theorem take_digits_eq {p q : GridPoint} (hp : p ∈ Cell.whole) {count : Nat}
    (h : Cell.IsCount count) (hrow : p.row / Cell.heightOf count = q.row / Cell.heightOf count)
    (hcolumn : p.column / Cell.widthOf count = q.column / Cell.widthOf count) :
    p.digits.take count = q.digits.take count := by
  have hlength : (p.digits.take count).length = count := by
    rw [List.length_take, length_digits, Nat.min_eq_left h.1]
  have hmem : q ∈ Cell.ofDigits (p.digits.take count) := by
    rw [Cell.ofDigits_take hp h, Cell.around, hrow, hcolumn]
    exact Cell.mem_around q (Cell.heightOf_pos count) (Cell.widthOf_pos count)
  rw [Cell.eq_take_of_mem (hlength.symm ▸ h) hmem, hlength]

def coordinates (p : GridPoint) : ℤ × ℤ := (p.row, p.column)

theorem coordinates_injective : Function.Injective coordinates := by
  rintro ⟨row, column⟩ ⟨row', column'⟩ h
  obtain ⟨hrow, hcolumn⟩ := Prod.ext_iff.1 h
  simp only [coordinates, Int.natCast_inj] at hrow hcolumn
  rw [hrow, hcolumn]

end GridPoint

namespace PlaceSums

/-- Rows and columns between the edges, the southern and the western one included. -/
def points (s : PlaceSums) : Set (ℤ × ℤ) :=
  Set.Ico s.south (s.south + s.height) ×ˢ Set.Ico s.west (s.west + s.width)

/-- No row or column is negative, so the sums have no other points than the cell. -/
theorem Describes.points_eq {s : PlaceSums} {c : Cell} (h : s.Describes c) :
    s.points = GridPoint.coordinates '' c.points := by
  obtain ⟨hsouth, hwest, hheight, hwidth⟩ := h
  ext ⟨row, column⟩
  simp only [points, hsouth, hwest, hheight, hwidth, Set.mem_prod, Set.mem_Ico, Set.mem_image]
  constructor
  · rintro ⟨hrows, hcolumns⟩
    refine ⟨⟨row.toNat, column.toNat⟩, Cell.mem_iff.2 ?_, Prod.ext ?_ ?_⟩
    · dsimp only; omega
    · exact Int.toNat_of_nonneg (by omega)
    · exact Int.toNat_of_nonneg (by omega)
  · rintro ⟨p, hp, heq⟩
    obtain ⟨rfl, rfl⟩ := Prod.ext_iff.1 heq
    have hp := Cell.mem_iff.1 hp
    simp only [GridPoint.coordinates]
    omega

end PlaceSums

end OpenLocation
