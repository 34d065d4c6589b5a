import Mathlib.LinearAlgebra.FreeModule.Finite.CardQuotient
import Moire.Proofs.HexagonalNorm
import Moire.Proofs.Superlattice

/-!
# The supercell is a fundamental cell of the superlattice

A point of the plane has coordinates along the sides of the supercell, and superlattice vectors
move them by integers. The supercell is half open, so that exactly one superlattice vector leads
from a point into it (`Commensurate.holds_add_iff`). For the lattice of a layer this becomes a
count: the classes of lattice cells modulo the superlattice are as many as the form of the label
(`LatticeIndex.card_classes`), and a list with one cell of each class has that length. The cells
with a site in the supercell are within the norm of the label (`Commensurate.norm_le_of_holds`).
-/

namespace Moire

open RealScalar

/-- Coordinates along independent vectors are unique. -/
theorem Vec2.combine_injective {b₁ b₂ : Vec2 ℝ} (h : b₁.cross b₂ ≠ 0) {x y z w : ℝ}
    (heq : combine b₁ b₂ x y = combine b₁ b₂ z w) : x = z ∧ y = w := by
  have hfirst : (x - z) * b₁.cross b₂ = 0 := by
    have hcross := congrArg (fun p ↦ p.cross b₂) heq
    simp only [cross, combine_x, combine_y] at hcross ⊢
    linarith
  have hsecond : (y - w) * b₁.cross b₂ = 0 := by
    have hcross := congrArg (fun p ↦ b₁.cross p) heq
    simp only [cross, combine_x, combine_y] at hcross ⊢
    linarith
  rw [mul_eq_zero, or_iff_left h, sub_eq_zero] at hfirst hsecond
  exact ⟨hfirst, hsecond⟩

/-- A combination of two bounded numbers whose sum is bounded as well, with coefficients that are
almost between zero and one, keeps the bound. -/
theorem abs_mul_add_mul_le {u v x y slack bound : ℝ} (hslack : 0 ≤ slack ∧ slack ≤ 1 / 2)
    (hu : -slack ≤ u ∧ u ≤ 1 - slack) (hv : -slack ≤ v ∧ v ≤ 1 - slack)
    (hx : |x| ≤ bound) (hy : |y| ≤ bound) (hxy : |x + y| ≤ bound) : |x * u + y * v| ≤ bound := by
  have hbound : 0 ≤ bound := (abs_nonneg x).trans hx
  have hproduct : ∀ {c d limit : ℝ}, |c| ≤ bound → |d| ≤ limit → |c * d| ≤ bound * limit := by
    intro c d limit hc hd
    rw [abs_mul]
    exact mul_le_mul hc hd (abs_nonneg d) hbound
  have hcombine : ∀ {c d limit rest : ℝ}, |c| ≤ bound * limit → |d| ≤ bound * rest →
      limit + rest ≤ 1 → |c + d| ≤ bound := by
    intro c d limit rest hc hd hsum
    calc |c + d| ≤ |c| + |d| := abs_add_le c d
      _ ≤ bound * limit + bound * rest := add_le_add hc hd
      _ = bound * (limit + rest) := by ring
      _ ≤ bound := mul_le_of_le_one_right hbound hsum
  have hneg : ∀ {c : ℝ}, -slack ≤ c → c < 0 → |c| ≤ slack := by
    intro c hlow hc
    rw [abs_of_neg hc]
    linarith
  have habs : ∀ {c : ℝ}, -slack ≤ c → c ≤ 1 - slack → |c| ≤ 1 - slack := by
    intro c hlow hhigh
    rw [abs_le]
    constructor <;> linarith [hslack.2]
  rcases lt_or_ge u 0 with hu0 | hu0
  · exact hcombine (hproduct hx (hneg hu.1 hu0)) (hproduct hy (habs hv.1 hv.2)) (by linarith)
  rcases lt_or_ge v 0 with hv0 | hv0
  · exact hcombine (hproduct hx (habs hu.1 hu.2)) (hproduct hy (hneg hv.1 hv0)) (by linarith)
  -- With both coefficients nonnegative the smaller one takes the sum, the rest is one number.
  rcases le_total u v with huv | huv
  · rw [show x * u + y * v = (x + y) * u + y * (v - u) by ring]
    exact hcombine (hproduct hxy (abs_of_nonneg hu0).le)
      (hproduct hy (abs_of_nonneg (sub_nonneg.mpr huv)).le) (by linarith [hslack.1, hv.2])
  · rw [show x * u + y * v = (x + y) * v + x * (u - v) by ring]
    exact hcombine (hproduct hxy (abs_of_nonneg hv0).le)
      (hproduct hx (abs_of_nonneg (sub_nonneg.mpr huv)).le) (by linarith [hslack.1, hu.2])

namespace LatticeIndex

/-- The cell that a superlattice vector leads to. The vector is `a` times the first side of the
supercell plus `b` times the second, whose labels are `label` and `label` turned by 120 degrees. -/
def shift (index label : LatticeIndex) (a b : ℤ) : LatticeIndex :=
  ⟨index.i + a * label.i - b * (label.i + label.j), index.j + a * label.j + b * label.i⟩

/-- Superlattice vectors as labels, given by their coordinates along the sides. -/
noncomputable def sides (label : LatticeIndex) : (Fin 2 → ℤ) →ₗ[ℤ] (Fin 2 → ℤ) :=
  Matrix.toLin' !![label.i, -(label.i + label.j); label.j, label.i]

/-- The steps along the two sides, in lattice indices. -/
theorem sides_apply (label : LatticeIndex) (step : Fin 2 → ℤ) :
    label.sides step = ![step 0 * label.i - step 1 * (label.i + label.j),
      step 0 * label.j + step 1 * label.i] := by
  ext k
  fin_cases k <;>
    simp [sides, Matrix.toLin'_apply, Matrix.mulVec, dotProduct, Fin.sum_univ_two] <;> ring

/-- The determinant of the sides is the form of the label. -/
theorem det_sides (label : LatticeIndex) : LinearMap.det label.sides = label.form := by
  rw [sides, LinearMap.det_toLin', Matrix.det_fin_two_of, form]
  ring

/-- The labels fall into as many classes modulo the superlattice as the form of its first vector
says. -/
theorem card_classes {label : LatticeIndex} (hpos : 0 < label.form) :
    (Nat.card ((Fin 2 → ℤ) ⧸ LinearMap.range label.sides) : ℤ) = label.form := by
  have hinjective : Function.Injective label.sides := by
    rw [← LinearMap.ker_eq_bot, LinearMap.ker_eq_bot']
    intro step hstep
    refine Matrix.eq_zero_of_mulVec_eq_zero ?_ hstep
    rw [← LinearMap.det_toLin', ← sides, det_sides]
    exact hpos.ne'
  have hcard := Submodule.natAbs_det_equiv (LinearMap.range label.sides)
    (LinearEquiv.ofInjective label.sides hinjective)
  have hmap : (LinearMap.range label.sides).subtype ∘ₗ AddMonoidHom.toIntLinearMap
      (LinearEquiv.ofInjective label.sides hinjective : _ →+ _) = label.sides :=
    LinearMap.ext fun step ↦ rfl
  rw [hmap, det_sides] at hcard
  rw [← hcard, Int.natAbs_of_nonneg hpos.le]

/-- A list with one cell from each class is as long as there are classes. -/
theorem length_of_transversal {label : LatticeIndex} (hpos : 0 < label.form)
    {cells : List LatticeIndex} (hnodup : cells.Nodup)
    (hunique : ∀ index : LatticeIndex, ∃! step : ℤ × ℤ, index.shift label step.1 step.2 ∈ cells) :
    (cells.length : ℤ) = label.form := by
  rw [← card_classes hpos]
  let toClass : {cell // cell ∈ cells} → (Fin 2 → ℤ) ⧸ LinearMap.range label.sides :=
    fun cell ↦ Submodule.Quotient.mk ![cell.1.i, cell.1.j]
  have hbijective : Function.Bijective toClass := by
    constructor
    · rintro ⟨⟨i, j⟩, hcell⟩ ⟨other, hother⟩ hclass
      obtain ⟨step, hstep⟩ := (Submodule.Quotient.eq _).mp hclass
      rw [sides_apply] at hstep
      have hi : step 0 * label.i - step 1 * (label.i + label.j) = i - other.i := congrFun hstep 0
      have hj : step 0 * label.j + step 1 * label.i = j - other.j := congrFun hstep 1
      have hshift : other.shift label (step 0) (step 1) = ⟨i, j⟩ := by
        rw [shift, mk.injEq]
        constructor <;> linarith
      have hleads : other.shift label (step 0) (step 1) ∈ cells := hshift.symm ▸ hcell
      have hstay : other.shift label 0 0 = other := by simp [shift]
      have hstays : other.shift label 0 0 ∈ cells := hstay.symm ▸ hother
      -- Both steps lead from the other cell into the list, so there is no step between the cells.
      have hnone : (step 0, step 1) = ((0, 0) : ℤ × ℤ) := (hunique other).unique hleads hstays
      rw [Prod.mk.injEq] at hnone
      rw [hnone.1, hnone.2, hstay] at hshift
      exact Subtype.ext hshift.symm
    · intro members
      obtain ⟨member, rfl⟩ := Submodule.Quotient.mk_surjective _ members
      obtain ⟨step, hstep, -⟩ := hunique ⟨member 0, member 1⟩
      refine ⟨⟨_, hstep⟩, (Submodule.Quotient.eq _).mpr ⟨![step.1, step.2], ?_⟩⟩
      rw [sides_apply]
      ext k
      fin_cases k <;> simp [shift] <;> ring
  rw [← Nat.card_eq_of_bijective toClass hbijective, Nat.card_congr (hnodup.getEquiv cells).symm,
    Nat.card_fin]

end LatticeIndex

namespace Supercell

/-- The second side of the supercell. -/
noncomputable def r₃ (cell : Supercell ℝ) : Vec2 ℝ := cell.r₂ - cell.r₁

/-- How far the cell reaches over its lower edges. -/
theorem tolerance_eq : (tolerance : ℝ) = 1 / 1000000 := by
  unfold tolerance
  norm_num

/-- A point belongs to the supercell when both of its coordinates, moved by the tolerance, have no
whole part. -/
theorem holds_iff (cell : Supercell ℝ) (p : Vec2 ℝ) :
    cell.holds p = true ↔
      ⌊(cell.fractional p).1 + tolerance⌋ = 0 ∧ ⌊(cell.fractional p).2 + tolerance⌋ = 0 := by
  have hopen : ∀ x : ℝ, halfOpen x = true ↔ ⌊x + tolerance⌋ = 0 := by
    intro x
    rw [Int.floor_eq_zero_iff, Set.mem_Ico, halfOpen, Bool.and_eq_true, le_eq, lt_eq,
      decide_eq_true_eq, decide_eq_true_eq, one_eq]
    constructor <;> rintro ⟨hlow, hhigh⟩ <;> constructor <;> linarith
  show (halfOpen (cell.fractional p).1 && halfOpen (cell.fractional p).2) = true ↔ _
  rw [Bool.and_eq_true, hopen, hopen]

variable {cell : Supercell ℝ} {b₁ b₂ : Vec2 ℝ} {label : LatticeIndex}

namespace Commensurate

variable (h : cell.Commensurate b₁ b₂ label)

include h

/-- The third vector of the cell in lattice vectors. -/
theorem r₃_eq : cell.r₃ = Vec2.combine b₁ b₂ (-(label.i + label.j)) label.i := by
  rw [r₃, h.r₁_eq, h.r₂_eq]
  ext <;> simp only [Vec2.sub_x, Vec2.sub_y, Vec2.combine_x, Vec2.combine_y] <;> ring

/-- The sides of the supercell span the area of as many cells as the form of the label says. -/
theorem cross_sides : cell.r₁.cross cell.r₃ = label.form * b₁.cross b₂ := by
  rw [h.r₃_eq, h.r₁_eq, Vec2.cross_combine]
  unfold LatticeIndex.form
  push_cast
  ring

/-- The sides of the cell are not parallel. -/
theorem sides_independent : cell.r₁.cross cell.r₃ ≠ 0 := by
  rw [h.cross_sides]
  have hform : (label.form : ℝ) ≠ 0 := by exact_mod_cast h.form_pos.ne'
  exact mul_ne_zero hform h.independent

/-- The coordinates of a point along the sides are the ones it is made from. -/
theorem fractional_combine (u v : ℝ) :
    cell.fractional (Vec2.combine cell.r₁ cell.r₃ u v) = (u, v) := by
  have hne := h.sides_independent
  show ((Vec2.combine cell.r₁ cell.r₃ u v).cross cell.r₃ / cell.r₁.cross cell.r₃,
    cell.r₁.cross (Vec2.combine cell.r₁ cell.r₃ u v) / cell.r₁.cross cell.r₃) = (u, v)
  rw [Prod.mk.injEq, div_eq_iff hne, div_eq_iff hne]
  simp only [Vec2.cross, Vec2.combine_x, Vec2.combine_y]
  constructor <;> ring

/-- Every point is made from its coordinates along the sides. -/
theorem combine_fractional (p : Vec2 ℝ) :
    Vec2.combine cell.r₁ cell.r₃ (cell.fractional p).1 (cell.fractional p).2 = p := by
  have hne := h.sides_independent
  show Vec2.combine cell.r₁ cell.r₃ (p.cross cell.r₃ / cell.r₁.cross cell.r₃)
    (cell.r₁.cross p / cell.r₁.cross cell.r₃) = p
  ext <;> simp only [Vec2.combine_x, Vec2.combine_y] <;> field_simp <;>
    simp only [Vec2.cross] <;> ring

/-- A step along the sides moves the coordinates by as much. -/
theorem fractional_add (p : Vec2 ℝ) (u v : ℝ) :
    cell.fractional (p + Vec2.combine cell.r₁ cell.r₃ u v) =
      ((cell.fractional p).1 + u, (cell.fractional p).2 + v) := by
  rw [← h.fractional_combine ((cell.fractional p).1 + u)]
  congr 1
  nth_rewrite 1 [← h.combine_fractional p]
  ext <;> simp only [Vec2.add_x, Vec2.add_y, Vec2.combine_x, Vec2.combine_y] <;> ring

/-- Exactly one superlattice vector leads from a point into the supercell. -/
theorem holds_add_iff (p : Vec2 ℝ) (a b : ℤ) :
    cell.holds (p + Vec2.combine cell.r₁ cell.r₃ a b) = true ↔
      a = -⌊(cell.fractional p).1 + tolerance⌋ ∧ b = -⌊(cell.fractional p).2 + tolerance⌋ := by
  rw [holds_iff, h.fractional_add, add_right_comm, Int.floor_add_intCast, add_right_comm,
    Int.floor_add_intCast]
  constructor <;> rintro ⟨ha, hb⟩ <;> constructor <;> omega

/-- A lattice point with an offset, moved along the sides, is another lattice point with the same
offset. -/
theorem combine_shift (index : LatticeIndex) (offset : ℝ) (a b : ℤ) :
    Vec2.combine b₁ b₂ ((index.shift label a b).i + offset) ((index.shift label a b).j + offset) =
      Vec2.combine b₁ b₂ (index.i + offset) (index.j + offset) +
        Vec2.combine cell.r₁ cell.r₃ a b := by
  rw [h.r₃_eq, h.r₁_eq, Vec2.combine_combine]
  unfold LatticeIndex.shift
  ext <;> simp only [Vec2.add_x, Vec2.add_y, Vec2.combine_x, Vec2.combine_y] <;> push_cast <;> ring

/-- The cells whose sites lie in the supercell are within the norm of the label. The offset of a
site, which is less than one, is lost in the rounding. -/
theorem norm_le_of_holds {index : LatticeIndex} {offset : ℝ} (hoffset : 0 ≤ offset ∧ offset ≤ 1 / 3)
    (hholds : cell.holds (Vec2.combine b₁ b₂ (index.i + offset) (index.j + offset)) = true) :
    index.norm ≤ label.norm := by
  obtain ⟨i, j⟩ := index
  obtain ⟨p, q⟩ := label
  set point := Vec2.combine b₁ b₂ (i + offset) (j + offset) with hpoint
  obtain ⟨hu, hv⟩ := (holds_iff cell point).mp hholds
  rw [Int.floor_eq_zero_iff, Set.mem_Ico, tolerance_eq] at hu hv
  -- The coordinates along the sides are bounded, and those along the layer follow from them.
  have hcoordinates := h.combine_fractional point
  rw [h.r₃_eq, h.r₁_eq, Vec2.combine_combine, hpoint] at hcoordinates
  obtain ⟨hi, hj⟩ := Vec2.combine_injective h.independent hcoordinates
  rw [← hpoint] at hi hj
  obtain ⟨hp, hq, hs⟩ := LatticeIndex.norm_le_iff.mp (Nat.le_refl (LatticeIndex.norm ⟨p, q⟩))
  set bound := LatticeIndex.norm ⟨p, q⟩
  have hp' : |(p : ℝ)| ≤ bound := by exact_mod_cast abs_le.mpr hp
  have hq' : |(q : ℝ)| ≤ bound := by exact_mod_cast abs_le.mpr hq
  have hs' : |(p + q : ℝ)| ≤ bound := by exact_mod_cast abs_le.mpr hs
  set u := (cell.fractional point).1
  set v := (cell.fractional point).2
  have hslack : (0 : ℝ) ≤ 1 / 1000000 ∧ (1 : ℝ) / 1000000 ≤ 1 / 2 := by norm_num
  have hu' : -(1 / 1000000) ≤ u ∧ u ≤ 1 - 1 / 1000000 := ⟨by linarith [hu.1], by linarith [hu.2]⟩
  have hv' : -(1 / 1000000) ≤ v ∧ v ≤ 1 - 1 / 1000000 := ⟨by linarith [hv.1], by linarith [hv.2]⟩
  have hx : |(i : ℝ) + offset| ≤ bound := by
    rw [← hi]
    refine abs_mul_add_mul_le hslack hu' hv' hp' (by rwa [abs_neg]) ?_
    rwa [show (p : ℝ) + -(p + q) = -q by ring, abs_neg]
  have hy : |(j : ℝ) + offset| ≤ bound := by
    rw [← hj]
    refine abs_mul_add_mul_le hslack hu' hv' hq' hp' ?_
    rwa [add_comm]
  have hxy : |((i : ℝ) + offset) + (j + offset)| ≤ bound := by
    rw [← hi, ← hj,
      show (p : ℝ) * u + -(p + q) * v + (q * u + p * v) = (p + q) * u + -q * v by ring]
    refine abs_mul_add_mul_le hslack hu' hv' hs' (by rwa [abs_neg]) ?_
    rwa [show (p : ℝ) + q + -q = p by ring]
  rw [abs_le] at hx hy hxy
  obtain ⟨hoffset, hoffset'⟩ := hoffset
  have hround : ∀ n : ℤ, -(bound : ℝ) - 1 < n → (n : ℝ) ≤ bound → -(bound : ℤ) ≤ n ∧ n ≤ bound := by
    intro n hlow hhigh
    have hlow' : -(bound : ℤ) - 1 < n := by exact_mod_cast hlow
    have hhigh' : n ≤ (bound : ℤ) := by exact_mod_cast hhigh
    omega
  refine LatticeIndex.norm_le_iff.mpr ⟨hround i ?_ ?_, hround j ?_ ?_, hround (i + j) ?_ ?_⟩ <;>
    push_cast <;> linarith

end Commensurate

/-- The points differ by a superlattice vector. -/
def Congruent (cell : Supercell ℝ) (p q : Vec3 ℝ) : Prop :=
  ∃ a b : ℤ, q = p + (Vec2.combine cell.r₁ cell.r₂ a b).lift 0

/-- Every point is congruent to itself. -/
theorem Congruent.refl (cell : Supercell ℝ) (p : Vec3 ℝ) : cell.Congruent p p :=
  ⟨0, 0, by ext <;> simp [Vec2.lift]⟩

/-- Congruence goes both ways. -/
theorem Congruent.symm {p q : Vec3 ℝ} (h : cell.Congruent p q) : cell.Congruent q p := by
  obtain ⟨a, b, rfl⟩ := h
  refine ⟨-a, -b, ?_⟩
  ext <;> simp [Vec2.lift] <;> ring

/-- Points are congruent when their difference is a superlattice vector. -/
theorem Congruent.of_sub {p q : Vec3 ℝ} (h : cell.Congruent (q - p) ⟨0, 0, 0⟩) :
    cell.Congruent p q := by
  obtain ⟨a, b, hzero⟩ := h
  refine ⟨-a, -b, ?_⟩
  simp only [Vec3.ext_iff, Vec3.add_x, Vec3.add_y, Vec3.add_z, Vec3.sub_x, Vec3.sub_y, Vec3.sub_z,
    Vec2.lift, Vec2.combine_x, Vec2.combine_y] at hzero ⊢
  push_cast
  refine ⟨?_, ?_, ?_⟩ <;> linarith

/-- The superlattice is spanned by the sides of the supercell as well. -/
theorem congruent_iff_sides {p q : Vec3 ℝ} :
    cell.Congruent p q ↔ ∃ a b : ℤ, q = p + (Vec2.combine cell.r₁ cell.r₃ a b).lift 0 := by
  have hchange : ∀ a b : ℝ, Vec2.combine cell.r₁ cell.r₂ a b =
      Vec2.combine cell.r₁ cell.r₃ (a + b) b := by
    intro a b
    ext <;> simp only [r₃, Vec2.combine_x, Vec2.combine_y, Vec2.sub_x, Vec2.sub_y] <;> ring
  constructor
  · rintro ⟨a, b, rfl⟩
    exact ⟨a + b, b, by rw [hchange]; push_cast; rfl⟩
  · rintro ⟨a, b, rfl⟩
    exact ⟨a - b, b, by rw [hchange]; push_cast; rw [sub_add_cancel]⟩

end Supercell

end Moire
