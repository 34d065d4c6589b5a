import Moire.Lattice

/-!
# The hexagonal norm

`LatticeIndex.norm` counts the steps from the origin. The two facts that make it the distance of
the lattice are `norm_le_of_neighbour`, one step changes the norm by at most one, and
`exists_inner_neighbour`, every cell off the origin has a neighbour one step closer. Both come from
`norm_le_iff`, which reads a bound on the norm as six linear bounds.
-/

namespace Moire.LatticeIndex

/-- The cells that the six steps reach, in the order of the steps. -/
def neighbours (index : LatticeIndex) : List LatticeIndex :=
  steps.map fun direction ↦ ⟨index.i + direction.1, index.j + direction.2⟩

/-- The norm is at most `bound` inside a hexagon with six linear sides. -/
theorem norm_le_iff {i j : Int} {bound : Nat} :
    norm ⟨i, j⟩ ≤ bound ↔
      (-bound ≤ i ∧ i ≤ bound) ∧ (-bound ≤ j ∧ j ≤ bound) ∧
        (-bound ≤ i + j ∧ i + j ≤ bound) := by
  simp only [norm, Nat.max_le]
  omega

/-- The origin is the only cell of norm zero. -/
theorem norm_eq_zero_iff (index : LatticeIndex) : index.norm = 0 ↔ index = origin := by
  constructor
  · intro hzero
    obtain ⟨i, j⟩ := index
    have hindex := norm_le_iff.mp (Nat.le_of_eq hzero)
    simp only [origin, mk.injEq]
    omega
  · rintro rfl
    rfl

/-- A neighbour is one of six cells. -/
theorem mem_neighbours_iff {i j : Int} {other : LatticeIndex} :
    other ∈ neighbours ⟨i, j⟩ ↔
      other = ⟨i + 1, j⟩ ∨ other = ⟨i, j + 1⟩ ∨ other = ⟨i - 1, j⟩ ∨ other = ⟨i, j - 1⟩ ∨
        other = ⟨i + 1, j - 1⟩ ∨ other = ⟨i - 1, j + 1⟩ := by
  simp [neighbours, steps, Int.sub_eq_add_neg]

/-- One step changes the norm by at most one. -/
theorem norm_le_of_neighbour {index other : LatticeIndex} (h : other ∈ index.neighbours) :
    other.norm ≤ index.norm + 1 := by
  obtain ⟨i, j⟩ := index
  have hindex := norm_le_iff.mp (Nat.le_refl (norm ⟨i, j⟩))
  rcases mem_neighbours_iff.mp h with rfl | rfl | rfl | rfl | rfl | rfl <;>
    exact norm_le_iff.mpr (by push_cast; omega)

/-- Every cell off the origin is a neighbour of a cell one step closer. -/
theorem exists_inner_neighbour {index : LatticeIndex} {bound : Nat}
    (h : index.norm = bound + 1) :
    ∃ inner : LatticeIndex, inner.norm = bound ∧ index ∈ inner.neighbours := by
  obtain ⟨i, j⟩ := index
  have hindex := norm_le_iff.mp (Nat.le_of_eq h)
  push_cast at hindex
  -- The step back goes against the larger coordinates, so the sign of each selects it.
  have hinner : ∃ inner : LatticeIndex, inner.norm ≤ bound ∧ ⟨i, j⟩ ∈ inner.neighbours := by
    rcases Int.lt_trichotomy i 0 with hi | hi | hi
    · by_cases hj : 0 < j
      · exact ⟨⟨i + 1, j - 1⟩, norm_le_iff.mpr (by omega), mem_neighbours_iff.mpr (by simp)⟩
      · exact ⟨⟨i + 1, j⟩, norm_le_iff.mpr (by omega), mem_neighbours_iff.mpr (by simp)⟩
    · by_cases hj : 0 < j
      · exact ⟨⟨i, j - 1⟩, norm_le_iff.mpr (by omega), mem_neighbours_iff.mpr (by simp)⟩
      · have hne : j ≠ 0 := by
          rintro rfl
          simp [hi, norm] at h
        exact ⟨⟨i, j + 1⟩, norm_le_iff.mpr (by omega), mem_neighbours_iff.mpr (by simp)⟩
    · by_cases hj : j < 0
      · exact ⟨⟨i - 1, j + 1⟩, norm_le_iff.mpr (by omega), mem_neighbours_iff.mpr (by simp)⟩
      · exact ⟨⟨i - 1, j⟩, norm_le_iff.mpr (by omega), mem_neighbours_iff.mpr (by simp)⟩
  obtain ⟨inner, hle, hmem⟩ := hinner
  have hback := norm_le_of_neighbour hmem
  exact ⟨inner, by omega, hmem⟩

/-- Inside the hexagon of norm `2³¹ - 2` no step leaves its word. -/
theorem step_eq_ok {index : LatticeIndex} {direction : Int × Int} (hnorm : index.norm < 2147483647)
    (hdirection : direction ∈ steps) :
    index.step direction = .ok ⟨index.i + direction.1, index.j + direction.2⟩ := by
  obtain ⟨i, j⟩ := index
  have hindex := norm_le_iff.mp (show norm ⟨i, j⟩ ≤ 2147483646 from Nat.le_of_lt_succ hnorm)
  have hone : (-1 ≤ direction.1 ∧ direction.1 ≤ 1) ∧ (-1 ≤ direction.2 ∧ direction.2 ≤ 1) := by
    revert direction
    decide
  have hi := Word.signed32_add (x := i) (y := direction.1) (by omega) (by omega)
  have hj := Word.signed32_add (x := j) (y := direction.2) (by omega) (by omega)
  simp [step, hi, hj, bind, Except.bind, pure, Except.pure]

end Moire.LatticeIndex
