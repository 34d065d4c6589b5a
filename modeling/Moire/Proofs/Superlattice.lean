import Moire.Lattice
import Moire.Proofs.RealScalar
import Moire.Supercell

/-!
# The superlattice in the coordinates of both layers

Over the reals, the vectors of the superlattice have integer coordinates in the lattice of the
bottom layer, which is how they are made, and in that of the top layer, which is what makes the
twist angle commensurate. `Supercell.Commensurate` says both for one layer: the first vector is a
label of that layer's lattice, and the second one is the first turned by sixty degrees. The main
statements are `bottom_commensurate` and `top_commensurate`, with the labels in closed form, and
`cells_eq`, the number of cells as the quadratic form of either label.
-/

namespace Moire

open RealScalar Constants

/-- The point with given coordinates along two vectors. -/
noncomputable def Vec2.combine (b₁ b₂ : Vec2 ℝ) (x y : ℝ) : Vec2 ℝ :=
  b₁ * x + b₂ * y

@[simp] theorem Vec2.combine_x (b₁ b₂ : Vec2 ℝ) (x y : ℝ) :
    (combine b₁ b₂ x y).x = b₁.x * x + b₂.x * y := rfl

@[simp] theorem Vec2.combine_y (b₁ b₂ : Vec2 ℝ) (x y : ℝ) :
    (combine b₁ b₂ x y).y = b₁.y * x + b₂.y * y := rfl

/-- The signed area of two points is the determinant of their coordinates. -/
theorem Vec2.cross_combine (b₁ b₂ : Vec2 ℝ) (x y z w : ℝ) :
    (combine b₁ b₂ x y).cross (combine b₁ b₂ z w) = (x * w - y * z) * b₁.cross b₂ := by
  simp only [cross, combine_x, combine_y]
  ring

/-- Coordinates along combinations of two vectors are coordinates along the vectors. -/
theorem Vec2.combine_combine (b₁ b₂ : Vec2 ℝ) (p q s t x y : ℝ) :
    combine (combine b₁ b₂ p q) (combine b₁ b₂ s t) x y =
      combine b₁ b₂ (p * x + s * y) (q * x + t * y) := by
  ext <;> simp only [combine_x, combine_y] <;> ring

/-- The squared length of a lattice vector, in units of the lattice constant. -/
def LatticeIndex.form (label : LatticeIndex) : ℤ :=
  label.i ^ 2 + label.i * label.j + label.j ^ 2

/-- The form is not negative. -/
theorem LatticeIndex.form_nonneg (label : LatticeIndex) : 0 ≤ label.form := by
  unfold form
  nlinarith [sq_nonneg label.i, sq_nonneg label.j, sq_nonneg (label.i + label.j)]

namespace Supercell

variable (m0 r : ℕ) (a0 : ℝ)

/-- The first superlattice vector in the lattice of the bottom layer. -/
def bottomLabel : LatticeIndex :=
  if r % 3 = 0 then ⟨m0 + (r / 3 : ℕ), (r / 3 : ℕ)⟩ else ⟨m0, m0 + r⟩

/-- The first superlattice vector in the lattice of the top layer. -/
def topLabel : LatticeIndex :=
  if r % 3 = 0 then ⟨m0 + 2 * (r / 3 : ℕ), -(r / 3 : ℕ)⟩ else ⟨m0 + r, m0⟩

/-- The superlattice vectors are a lattice vector of a layer and the same vector turned by sixty
degrees. -/
structure Commensurate (cell : Supercell ℝ) (b₁ b₂ : Vec2 ℝ) (label : LatticeIndex) : Prop where
  independent : b₁.cross b₂ ≠ 0
  r₁_eq : cell.r₁ = Vec2.combine b₁ b₂ label.i label.j
  r₂_eq : cell.r₂ = Vec2.combine b₁ b₂ (-label.j) (label.i + label.j)
  form_pos : 0 < label.form

/-! ## The twist angle -/

/-- Three times the number of cells in the general case: the denominator of the cosine. -/
noncomputable def labelForm : ℝ :=
  3 * m0 ^ 2 + 3 * m0 * r + r ^ 2

variable {m0 r a0}

/-- The form of the labels is positive. -/
theorem labelForm_pos (m0 : ℕ) (hr : 1 ≤ r) : 0 < labelForm m0 r := by
  have hr' : (0 : ℝ) < r := by exact_mod_cast hr
  unfold labelForm
  positivity

/-- The twist angle is the one whose cosine the labels give. -/
theorem cos_angle (hr : 1 ≤ r) :
    Real.cos (toRadians (commensurateAngle m0 r)) =
      (3 * m0 ^ 2 + 3 * m0 * r + r ^ 2 / 2) / labelForm m0 r := by
  have hform := labelForm_pos m0 hr
  have hcosine : (3 * m0 * m0 + 3 * m0 * r + r * r / 2) / (3 * m0 * m0 + 3 * m0 * r + r * r) =
      (3 * m0 ^ 2 + 3 * m0 * r + r ^ 2 / 2) / labelForm m0 r := by
    unfold labelForm
    congr 1 <;> ring
  have hlow : -1 ≤ (3 * m0 ^ 2 + 3 * m0 * r + r ^ 2 / 2) / labelForm m0 r := by
    have hnonneg : 0 ≤ (3 * m0 ^ 2 + 3 * m0 * r + r ^ 2 / 2) / labelForm m0 r := by positivity
    linarith
  have hhigh : (3 * m0 ^ 2 + 3 * m0 * r + r ^ 2 / 2) / labelForm m0 r ≤ 1 := by
    rw [div_le_one hform]
    unfold labelForm
    nlinarith [sq_nonneg (r : ℝ)]
  unfold commensurateAngle
  rw [toRadians_toDegrees]
  simp only [clampUnit, ofNat_eq, lt_eq, acos_eq, one_eq, decide_eq_true_eq]
  rw [hcosine, if_neg (not_lt.mpr hlow), if_neg (not_lt.mpr hhigh), Real.cos_arccos hlow hhigh]

/-- The sine of the twist angle. -/
theorem sin_angle (hr : 1 ≤ r) :
    Real.sin (toRadians (commensurateAngle m0 r)) =
      √3 / 2 * (r * (2 * m0 + r)) / labelForm m0 r := by
  have hform := labelForm_pos m0 hr
  have hsin : 0 ≤ Real.sin (toRadians (commensurateAngle m0 r)) := by
    unfold commensurateAngle
    rw [toRadians_toDegrees]
    exact Real.sin_nonneg_of_nonneg_of_le_pi (Real.arccos_nonneg _) (Real.arccos_le_pi _)
  have hvalue : 0 ≤ √3 / 2 * (r * (2 * m0 + r)) / labelForm m0 r := by positivity
  rw [← sq_eq_sq₀ hsin hvalue, Real.sin_sq, cos_angle hr]
  have hsqrt : √3 ^ 2 = 3 := Real.sq_sqrt (by norm_num)
  field_simp
  rw [hsqrt]
  unfold labelForm
  ring

/-! ## The lattice vectors of the two layers -/

/-- The first vector of the bottom layer in closed form. -/
theorem create_a₁ : (create m0 r a0).a₁ = ⟨√3 / 2 * a0, -(1 / 2) * a0⟩ := by
  ext
  · simp [create, sqrt3]
  · simp only [create, Vec2.mul_y]
    norm_num

/-- The second vector of the bottom layer in closed form. -/
theorem create_a₂ : (create m0 r a0).a₂ = ⟨√3 / 2 * a0, 1 / 2 * a0⟩ := by
  ext
  · simp [create, sqrt3]
  · simp only [create, Vec2.mul_y]
    norm_num

/-- The area of a graphene cell. -/
theorem cross_a₁_a₂ : (create m0 r a0).a₁.cross (create m0 r a0).a₂ = √3 / 2 * a0 ^ 2 := by
  rw [create_a₁, create_a₂, Vec2.cross]
  ring

/-- The first vector of the top layer in the lattice of the bottom layer. -/
theorem create_rotatedA₁ (hr : 1 ≤ r) :
    (create m0 r a0).rotatedA₁ = Vec2.combine (create m0 r a0).a₁ (create m0 r a0).a₂
      ((3 * m0 ^ 2 + 2 * m0 * r) / labelForm m0 r) (r * (2 * m0 + r) / labelForm m0 r) := by
  have hrotated : (create m0 r a0).rotatedA₁ =
      Vec2.combine (create m0 r a0).a₁ (create m0 r a0).a₂
        (Real.cos (toRadians (commensurateAngle m0 r)) -
          Real.sin (toRadians (commensurateAngle m0 r)) / √3)
        (2 * Real.sin (toRadians (commensurateAngle m0 r)) / √3) := rfl
  have hsqrt : √3 ≠ 0 := by positivity
  have hform := (labelForm_pos m0 hr).ne'
  rw [hrotated, cos_angle hr, sin_angle hr]
  congr 1 <;> field_simp
  ring

/-- The second vector of the top layer by the twist angle. -/
theorem rotatedA₂_eq : (create m0 r a0).rotatedA₂ =
    (create m0 r a0).a₂ * (Real.cos (toRadians (commensurateAngle m0 r)) +
      Real.sin (toRadians (commensurateAngle m0 r)) / √3) -
    (create m0 r a0).a₁ * (2 * Real.sin (toRadians (commensurateAngle m0 r)) / √3) := rfl

/-- The second vector of the top layer in the lattice of the bottom layer. -/
theorem create_rotatedA₂ (hr : 1 ≤ r) :
    (create m0 r a0).rotatedA₂ = Vec2.combine (create m0 r a0).a₁ (create m0 r a0).a₂
      (-(r * (2 * m0 + r)) / labelForm m0 r)
      ((3 * m0 ^ 2 + 4 * m0 * r + r ^ 2) / labelForm m0 r) := by
  have hsqrt : √3 ≠ 0 := by positivity
  have hform := (labelForm_pos m0 hr).ne'
  rw [rotatedA₂_eq, cos_angle hr, sin_angle hr]
  ext <;> simp only [Vec2.sub_x, Vec2.sub_y, Vec2.mul_x, Vec2.mul_y, Vec2.combine_x, Vec2.combine_y]
    <;> field_simp <;> ring

/-! ## The superlattice vectors -/

/-- The first superlattice vector is the label of the bottom layer. -/
theorem create_r₁ : (create m0 r a0).r₁ =
    Vec2.combine (create m0 r a0).a₁ (create m0 r a0).a₂
      (bottomLabel m0 r).i (bottomLabel m0 r).j := by
  by_cases h : r % 3 = 0
  · obtain ⟨n, rfl⟩ := Nat.dvd_of_mod_eq_zero h
    have hr₁ : (create m0 (3 * n) a0).r₁ =
        Vec2.combine (create m0 (3 * n) a0).a₁ (create m0 (3 * n) a0).a₂
          (m0 + ((3 * n : ℕ) : ℝ) / 3) (((3 * n : ℕ) : ℝ) / 3) := by
      simp only [create, if_pos h]
      rfl
    rw [hr₁, bottomLabel, if_pos h, Nat.mul_div_cancel_left n three_pos]
    push_cast
    rw [mul_div_cancel_left₀ (n : ℝ) three_ne_zero]
  · simp only [create, if_neg h, bottomLabel]
    push_cast
    rfl

/-- The second superlattice vector is the label turned by sixty degrees. -/
theorem create_r₂ : (create m0 r a0).r₂ =
    Vec2.combine (create m0 r a0).a₁ (create m0 r a0).a₂
      (-(bottomLabel m0 r).j) ((bottomLabel m0 r).i + (bottomLabel m0 r).j) := by
  by_cases h : r % 3 = 0
  · obtain ⟨n, rfl⟩ := Nat.dvd_of_mod_eq_zero h
    have hr₂ : (create m0 (3 * n) a0).r₂ =
        -(create m0 (3 * n) a0).a₁ * (((3 * n : ℕ) : ℝ) / 3) +
          (create m0 (3 * n) a0).a₂ * ((m0 : ℝ) + 2 * (((3 * n : ℕ) : ℝ) / 3)) := by
      simp only [create, if_pos h]
      rfl
    rw [hr₂, bottomLabel, if_pos h, Nat.mul_div_cancel_left n three_pos]
    ext <;> simp only [Vec2.add_x, Vec2.add_y, Vec2.mul_x, Vec2.mul_y, Vec2.neg_x, Vec2.neg_y,
      Vec2.combine_x, Vec2.combine_y] <;> push_cast <;> ring
  · have hr₂ : (create m0 r a0).r₂ =
        -(create m0 r a0).a₁ * (m0 + r : ℝ) + (create m0 r a0).a₂ * (2 * m0 + r : ℝ) := by
      simp only [create, if_neg h]
      rfl
    rw [hr₂, bottomLabel, if_neg h]
    ext <;> simp only [Vec2.add_x, Vec2.add_y, Vec2.mul_x, Vec2.mul_y, Vec2.neg_x, Vec2.neg_y,
      Vec2.combine_x, Vec2.combine_y] <;> push_cast <;> ring

/-- The labels of the two layers stand for the same vector, and so do their combinations with the
labels that are turned by sixty degrees. -/
theorem combine_topLabel (hr : 1 ≤ r) (s t : ℝ) :
    Vec2.combine (create m0 r a0).rotatedA₁ (create m0 r a0).rotatedA₂
      (s * (topLabel m0 r).i - t * (topLabel m0 r).j)
      (s * (topLabel m0 r).j + t * ((topLabel m0 r).i + (topLabel m0 r).j)) =
    Vec2.combine (create m0 r a0).a₁ (create m0 r a0).a₂
      (s * (bottomLabel m0 r).i - t * (bottomLabel m0 r).j)
      (s * (bottomLabel m0 r).j + t * ((bottomLabel m0 r).i + (bottomLabel m0 r).j)) := by
  have hform := (labelForm_pos m0 hr).ne'
  rw [create_rotatedA₁ hr, create_rotatedA₂ hr, Vec2.combine_combine]
  by_cases h : r % 3 = 0
  · obtain ⟨n, rfl⟩ := Nat.dvd_of_mod_eq_zero h
    rw [bottomLabel, topLabel, if_pos h, if_pos h, Nat.mul_div_cancel_left n three_pos]
    congr 1 <;> push_cast <;> field_simp <;> unfold labelForm <;> push_cast <;> ring
  · rw [bottomLabel, topLabel, if_neg h, if_neg h]
    congr 1 <;> push_cast <;> field_simp <;> unfold labelForm <;> ring

/-- The two layers have the same cell area. -/
theorem cross_rotated (hr : 1 ≤ r) :
    (create m0 r a0).rotatedA₁.cross (create m0 r a0).rotatedA₂ = √3 / 2 * a0 ^ 2 := by
  have hform := (labelForm_pos m0 hr).ne'
  rw [create_rotatedA₁ hr, create_rotatedA₂ hr, Vec2.cross_combine, cross_a₁_a₂]
  field_simp
  unfold labelForm
  ring

/-! ## Both layers are commensurate with the superlattice -/

/-- The form of the label in the bottom layer is positive. -/
theorem bottomLabel_form_pos (hr : 1 ≤ r) : 0 < (bottomLabel m0 r).form := by
  unfold bottomLabel LatticeIndex.form
  split
  · have hn : 0 < ((r / 3 : ℕ) : ℤ) := by omega
    positivity
  · have hr' : 0 < (r : ℤ) := by exact_mod_cast hr
    positivity

/-- A short label has few cells. -/
theorem bottomLabel_form_le : (bottomLabel m0 r).form ≤ (2 * m0 + r) ^ 2 := by
  unfold bottomLabel
  by_cases h : r % 3 = 0
  · obtain ⟨n, rfl⟩ := Nat.dvd_of_mod_eq_zero h
    rw [if_pos h, Nat.mul_div_cancel_left n three_pos, LatticeIndex.form]
    have hrest : 0 ≤ 3 * (m0 : ℤ) ^ 2 + 9 * (m0 * n) + 6 * (n : ℤ) ^ 2 := by positivity
    push_cast
    linarith
  · rw [if_neg h, LatticeIndex.form]
    have hrest : 0 ≤ (m0 : ℤ) ^ 2 + m0 * r := by positivity
    linarith

/-- Both labels have the same length. -/
theorem topLabel_form : (topLabel m0 r).form = (bottomLabel m0 r).form := by
  unfold topLabel bottomLabel LatticeIndex.form
  split <;> ring

/-- The cell is commensurate with the bottom layer. -/
theorem bottom_commensurate (hr : 1 ≤ r) (ha0 : a0 ≠ 0) :
    (create m0 r a0).Commensurate (create m0 r a0).a₁ (create m0 r a0).a₂ (bottomLabel m0 r) where
  independent := by
    rw [cross_a₁_a₂]
    positivity
  r₁_eq := create_r₁
  r₂_eq := create_r₂
  form_pos := bottomLabel_form_pos hr

/-- The cell is commensurate with the top layer. -/
theorem top_commensurate (hr : 1 ≤ r) (ha0 : a0 ≠ 0) :
    (create m0 r a0).Commensurate (create m0 r a0).rotatedA₁ (create m0 r a0).rotatedA₂
      (topLabel m0 r) where
  independent := by
    rw [cross_rotated hr]
    positivity
  r₁_eq := by
    rw [create_r₁]
    simpa using (combine_topLabel hr 1 0).symm
  r₂_eq := by
    rw [create_r₂]
    simpa using (combine_topLabel hr 0 1).symm
  form_pos := topLabel_form.symm ▸ bottomLabel_form_pos hr

/-! ## The number of cells -/

/-- The number of cells is the count nearest to the form of the label. -/
theorem create_cells :
    (create m0 r a0).cells = Scalar.nearest ((bottomLabel m0 r).form : ℝ) := by
  unfold bottomLabel LatticeIndex.form
  by_cases h : r % 3 = 0
  · obtain ⟨k, rfl⟩ := Nat.dvd_of_mod_eq_zero h
    simp only [create, if_pos h, Nat.mul_div_cancel_left k three_pos, ofNat_eq]
    congr 1
    push_cast
    ring
  · simp only [create, if_neg h, ofNat_eq]
    congr 1
    push_cast
    ring

/-- The number of cells is the form of the label, as long as it is a count. -/
theorem cells_eq (hcount : (bottomLabel m0 r).form < countLimit) :
    ((create m0 r a0).cells : ℤ) = (bottomLabel m0 r).form := by
  obtain ⟨n, hn⟩ := Int.eq_ofNat_of_zero_le (bottomLabel m0 r).form_nonneg
  have hreal : ((bottomLabel m0 r).form : ℝ) = n := by exact_mod_cast hn
  rw [create_cells, hreal, nearest_natCast (by omega), hn]

/-- The cell has a lattice cell at least. -/
theorem cells_ne_zero (hr : 1 ≤ r) : (create m0 r a0).cells ≠ 0 := by
  have hform : (1 : ℝ) ≤ (bottomLabel m0 r).form := by exact_mod_cast bottomLabel_form_pos hr
  have hfloor : 1 ≤ ⌊((bottomLabel m0 r).form : ℝ) + 1 / 2⌋₊ := by
    rw [Nat.one_le_floor_iff]
    linarith
  have hcells : (create m0 r a0).cells =
      min ⌊((bottomLabel m0 r).form : ℝ) + 1 / 2⌋₊ largestCount := create_cells
  have hlargest : 1 ≤ largestCount := by decide
  omega

end Supercell

end Moire
