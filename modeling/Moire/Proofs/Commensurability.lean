import Moire.Proofs.FundamentalCell

/-!
# Both layers share the superlattice

The lattice of a layer is hexagonal: its second vector is the first one turned by sixty degrees. In
the coordinates along such vectors a rotation has the coefficients `rotate_first` and
`rotate_second`, and a turn by sixty degrees has integer ones, `rotate_sixty`. The top layer of a
supercell is therefore the bottom layer turned by the twist angle, and the second superlattice
vector is the first one turned by sixty degrees. With the labels of both layers,
`create_commensurate` says that the superlattice is a sublattice of either layer, of the same index.
The number of cells is that index, unless it is too large to be a count: `cells_below_index` is a
supercell of that kind.
-/

namespace Moire

open RealScalar Constants

/-! ## Rotations in skew coordinates -/

namespace Vec2

/-- The vector turned by an angle, counter-clockwise. -/
noncomputable def rotate (angle : ℝ) (p : Vec2 ℝ) : Vec2 ℝ :=
  ⟨Real.cos angle * p.x - Real.sin angle * p.y, Real.sin angle * p.x + Real.cos angle * p.y⟩

/-- A rotation keeps lengths. -/
theorem norm_rotate (angle : ℝ) (p : Vec2 ℝ) : (p.rotate angle).norm = p.norm := by
  rw [norm, norm, normSq, normSq, rotate]
  congr 1
  linear_combination (p.x ^ 2 + p.y ^ 2) * Real.cos_sq_add_sin_sq angle

/-- The two vectors span a hexagonal lattice: the second one is the first turned by sixty
degrees. -/
def IsHexagonal (b₁ b₂ : Vec2 ℝ) : Prop := b₂ = b₁.rotate (Real.pi / 3)

/-- In a hexagonal pair the second vector is the first one, turned by a sixth. -/
theorem isHexagonal_iff {b₁ b₂ : Vec2 ℝ} : IsHexagonal b₁ b₂ ↔
    b₂ = ⟨1 / 2 * b₁.x - √3 / 2 * b₁.y, √3 / 2 * b₁.x + 1 / 2 * b₁.y⟩ := by
  rw [IsHexagonal, rotate, Real.cos_pi_div_three, Real.sin_pi_div_three]

section

variable {b₁ b₂ : Vec2 ℝ} (h : IsHexagonal b₁ b₂)

include h

/-- The first vector of a hexagonal lattice, turned. -/
theorem IsHexagonal.rotate_first (angle : ℝ) :
    b₁.rotate angle = combine b₁ b₂ (Real.cos angle - Real.sin angle / √3)
      (2 * Real.sin angle / √3) := by
  have hsqrt : √3 ≠ 0 := by positivity
  rw [isHexagonal_iff.mp h]
  ext <;> simp only [rotate, combine_x, combine_y] <;> field_simp <;> ring

/-- The second vector of a hexagonal lattice, turned. -/
theorem IsHexagonal.rotate_second (angle : ℝ) :
    b₂.rotate angle = combine b₁ b₂ (-(2 * Real.sin angle / √3))
      (Real.cos angle + Real.sin angle / √3) := by
  have hsqrt : √3 ≠ 0 := by positivity
  have hsquare : √3 ^ 2 = 3 := Real.sq_sqrt (by norm_num)
  rw [isHexagonal_iff.mp h]
  ext <;> simp only [rotate, combine_x, combine_y] <;> field_simp
  · linear_combination -Real.sin angle * b₁.x * hsquare
  · linear_combination -Real.sin angle * b₁.y * hsquare

/-- A turn by sixty degrees in the coordinates of a hexagonal lattice. -/
theorem IsHexagonal.rotate_sixty (x y : ℝ) :
    (combine b₁ b₂ x y).rotate (Real.pi / 3) = combine b₁ b₂ (-y) (x + y) := by
  have hsquare : √3 ^ 2 = 3 := Real.sq_sqrt (by norm_num)
  rw [rotate, Real.cos_pi_div_three, Real.sin_pi_div_three, isHexagonal_iff.mp h]
  ext <;> simp only [combine_x, combine_y] <;> ring_nf <;> rw [hsquare] <;> ring

end

/-! ## Sublattices -/

/-- Two vectors are integer combinations of two independent ones, and `index` is the absolute value
of the determinant of the coefficients. -/
def SpansSublattice (b₁ b₂ r₁ r₂ : Vec2 ℝ) (index : ℕ) : Prop :=
  b₁.cross b₂ ≠ 0 ∧ ∃ p q s t : ℤ, r₁ = combine b₁ b₂ p q ∧ r₂ = combine b₁ b₂ s t ∧
    (p * t - q * s).natAbs = index

/-- The coefficients are unique, and so is the index. -/
theorem SpansSublattice.unique {b₁ b₂ r₁ r₂ : Vec2 ℝ} {index other : ℕ}
    (h : SpansSublattice b₁ b₂ r₁ r₂ index) (h' : SpansSublattice b₁ b₂ r₁ r₂ other) :
    index = other := by
  obtain ⟨hne, p, q, s, t, rfl, rfl, rfl⟩ := h
  obtain ⟨-, p', q', s', t', hr₁, hr₂, rfl⟩ := h'
  obtain ⟨hp, hq⟩ := combine_injective hne hr₁
  obtain ⟨hs, ht⟩ := combine_injective hne hr₂
  rw [Int.cast_inj] at hp hq hs ht
  rw [hp, hq, hs, ht]

end Vec2

/-! ## The supercell -/

namespace Supercell

open Vec2

/-- A layer that is commensurate has the superlattice as a sublattice, whose index is the form of
the label. -/
theorem Commensurate.spansSublattice {cell : Supercell ℝ} {b₁ b₂ : Vec2 ℝ} {label : LatticeIndex}
    (h : cell.Commensurate b₁ b₂ label) :
    SpansSublattice b₁ b₂ cell.r₁ cell.r₂ label.form.natAbs := by
  refine ⟨h.independent, label.i, label.j, -label.j, label.i + label.j, h.r₁_eq, ?_, ?_⟩
  · rw [h.r₂_eq]
    push_cast
    rfl
  · rw [LatticeIndex.form]
    ring_nf

variable {m0 r : ℕ} {a0 : ℝ}

/-- The vectors of the bottom layer are hexagonal. -/
theorem isHexagonal_bottom : IsHexagonal (create m0 r a0).a₁ (create m0 r a0).a₂ := by
  have hsquare : √3 ^ 2 = 3 := Real.sq_sqrt (by norm_num)
  rw [isHexagonal_iff, create_a₁, create_a₂]
  ext <;> dsimp only <;> ring_nf
  rw [hsquare]
  ring

/-- The first vector of the top layer is that of the bottom layer, turned by the twist angle. -/
theorem rotatedA₁_eq_rotate : (create m0 r a0).rotatedA₁ =
    (create m0 r a0).a₁.rotate (toRadians (commensurateAngle m0 r)) :=
  (isHexagonal_bottom.rotate_first _).symm

/-- The second vector of the top layer is that of the bottom layer, turned by the twist angle. -/
theorem rotatedA₂_eq_rotate : (create m0 r a0).rotatedA₂ =
    (create m0 r a0).a₂.rotate (toRadians (commensurateAngle m0 r)) := by
  rw [isHexagonal_bottom.rotate_second, rotatedA₂_eq]
  ext <;> simp only [sub_x, sub_y, mul_x, mul_y, combine_x, combine_y] <;> ring

/-- The offset of the second sublattice turns with the layer. -/
theorem rotatedDelta_eq_rotate : (create m0 r a0).rotatedDelta =
    (create m0 r a0).delta.rotate (toRadians (commensurateAngle m0 r)) := by
  have hdelta : (create m0 r a0).delta =
      ((create m0 r a0).a₁ + (create m0 r a0).a₂) / (3 : ℝ) := rfl
  have hrotated : (create m0 r a0).rotatedDelta =
      ((create m0 r a0).rotatedA₁ + (create m0 r a0).rotatedA₂) / (3 : ℝ) := rfl
  rw [hrotated, hdelta, rotatedA₁_eq_rotate, rotatedA₂_eq_rotate]
  ext <;> simp only [rotate, add_x, add_y, div_x, div_y] <;> ring

/-- The second superlattice vector is the first one turned by sixty degrees. -/
theorem r₂_eq_rotate : (create m0 r a0).r₂ = (create m0 r a0).r₁.rotate (Real.pi / 3) := by
  rw [create_r₁, create_r₂, isHexagonal_bottom.rotate_sixty]

/-- The number of cells is the form of the label, or the largest count if that is smaller. -/
theorem cells_eq_min :
    (create m0 r a0).cells = min (bottomLabel m0 r).form.natAbs largestCount := by
  have hform : ((bottomLabel m0 r).form : ℝ) = ((bottomLabel m0 r).form.natAbs : ℕ) := by
    rw [Nat.cast_natAbs, abs_of_nonneg (bottomLabel m0 r).form_nonneg]
  rw [create_cells, hform, nearest_natCast_eq_min]

/-- The top layer is the bottom layer turned by an angle. The superlattice vectors are as long as
each other and sixty degrees apart, and they span a sublattice of both layers, of the same index. -/
structure CommensurateBilayer (cell : Supercell ℝ) (twist : ℝ) (index : ℕ) : Prop where
  rotatedA₁ : cell.rotatedA₁ = cell.a₁.rotate twist
  rotatedA₂ : cell.rotatedA₂ = cell.a₂.rotate twist
  rotatedDelta : cell.rotatedDelta = cell.delta.rotate twist
  norm_eq : cell.r₁.norm = cell.r₂.norm
  sixty_degrees : cell.r₂ = cell.r₁.rotate (Real.pi / 3)
  bottom : SpansSublattice cell.a₁ cell.a₂ cell.r₁ cell.r₂ index
  top : SpansSublattice cell.rotatedA₁ cell.rotatedA₂ cell.r₁ cell.r₂ index

/-- The two layers of a supercell are commensurate at the twist angle. The number of cells is the
index of the superlattice, cut off at the largest count. -/
theorem create_commensurate (m0 : ℕ) (hr : 1 ≤ r) (ha0 : 0 < a0) : ∃ index : ℕ,
    (create m0 r a0).CommensurateBilayer (toRadians (commensurateAngle m0 r)) index ∧
      (create m0 r a0).cells = min index largestCount := by
  refine ⟨(bottomLabel m0 r).form.natAbs, ?_, cells_eq_min⟩
  have htop := (top_commensurate hr ha0.ne' : (create m0 r a0).Commensurate _ _ _).spansSublattice
  rw [topLabel_form] at htop
  exact {
    rotatedA₁ := rotatedA₁_eq_rotate
    rotatedA₂ := rotatedA₂_eq_rotate
    rotatedDelta := rotatedDelta_eq_rotate
    norm_eq := by rw [r₂_eq_rotate, norm_rotate]
    sixty_degrees := r₂_eq_rotate
    bottom := (bottom_commensurate hr ha0.ne').spansSublattice
    top := htop }

/-- The smallest supercell whose second count is a multiple of three. -/
theorem create_commensurate_seven : 1 ≤ 3 ∧ (0 : ℝ) < 1 ∧
    (create 1 3 (1 : ℝ)).CommensurateBilayer (toRadians (commensurateAngle 1 3)) 7 ∧
      (create 1 3 (1 : ℝ)).cells = 7 := by
  obtain ⟨index, hbilayer, hcells⟩ :=
    create_commensurate 1 (by decide : 1 ≤ 3) (one_pos : (0 : ℝ) < 1)
  have hseven : index = 7 :=
    hbilayer.bottom.unique (bottom_commensurate (by decide) one_ne_zero).spansSublattice
  subst hseven
  exact ⟨by decide, one_pos, hbilayer, hcells⟩

/-- A supercell with more cells than can be counted: its index is another number than `cells`. -/
theorem cells_below_index :
    let cell := create 3000000000 1 (1 : ℝ)
    SpansSublattice cell.a₁ cell.a₂ cell.r₁ cell.r₂ 27000000009000000001 ∧
      cell.cells = 18446744073709551615 ∧
      ¬ SpansSublattice cell.a₁ cell.a₂ cell.r₁ cell.r₂ cell.cells := by
  intro cell
  have hbottom : cell.Commensurate cell.a₁ cell.a₂ (bottomLabel 3000000000 1) :=
    bottom_commensurate le_rfl one_ne_zero
  have hindex : SpansSublattice cell.a₁ cell.a₂ cell.r₁ cell.r₂ 27000000009000000001 :=
    hbottom.spansSublattice
  have hcells : cell.cells = 18446744073709551615 := cells_eq_min
  refine ⟨hindex, hcells, fun h ↦ ?_⟩
  have heq := hindex.unique h
  rw [hcells] at heq
  norm_num at heq

end Supercell

end Moire
