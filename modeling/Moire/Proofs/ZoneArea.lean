import Mathlib
import Moire.Proofs.Commensurability
import Moire.Proofs.ContinuumBlocks
import Moire.Proofs.ZonePeriodicity
import Moire.TwistedModel

/-!
# The areas of the zone and of the unit cell

The product of the area of a zone and the area of the unit cell is the square of `2π`. For a
supercell this is a consequence of duality, `Supercell.Dual.cross_mul_cross`, once the area that is
taken from one side alone is known to be that of the parallelogram of both,
`Supercell.area_eq_cross`. For the moire zone it is a computation with its units,
`Continuum.zone_mul_area`. The area of a supercell is that of the graphene cells in it;
`area_ne_cells` is a supercell with more of them than can be counted.
-/

namespace Moire

open RealScalar Constants

/-! ## Parallelograms -/

namespace Vec2

/-- The product of two signed areas is the determinant of the inner products. -/
theorem cross_mul_cross (p q s t : Vec2 ℝ) :
    p.cross q * s.cross t = p.dot s * q.dot t - p.dot t * q.dot s := by
  simp only [cross, dot]
  ring

/-- The vectors `p + q` and `q` span the same area as `p` and `q`. -/
theorem add_cross (p q : Vec2 ℝ) : (p + q).cross q = p.cross q := by
  simp only [cross, add_x, add_y]
  ring

/-- The area of the cell of a hexagonal lattice is given by one of its sides. -/
theorem IsHexagonal.cross_eq {b₁ b₂ : Vec2 ℝ} (h : IsHexagonal b₁ b₂) :
    b₁.cross b₂ = √3 / 2 * b₁.normSq := by
  rw [isHexagonal_iff.mp h]
  simp only [cross, normSq]
  ring

end Vec2

/-! ## Supercells -/

namespace Supercell

/-- A cell and the zone of a dual pair of vectors. -/
theorem Dual.cross_mul_cross {cell : Supercell ℝ} (h : cell.Dual) :
    cell.g₁.cross cell.g₂ * cell.r₁.cross cell.r₂ = (2 * Real.pi) ^ 2 := by
  rw [Vec2.cross_mul_cross, h.g₁_r₁, h.g₁_r₂, h.g₂_r₁, h.g₂_r₂]
  ring

/-- The superlattice has a number of cells of a commensurate layer, the form of the label. -/
theorem Commensurate.cross_eq {cell : Supercell ℝ} {b₁ b₂ : Vec2 ℝ} {label : LatticeIndex}
    (h : cell.Commensurate b₁ b₂ label) :
    cell.r₁.cross cell.r₂ = (label.form.natAbs : ℕ) * b₁.cross b₂ := by
  have hform : ((label.form.natAbs : ℕ) : ℝ) = label.form := by
    rw [Nat.cast_natAbs, abs_of_pos h.form_pos]
  rw [h.r₁_eq, h.r₂_eq, Vec2.cross_combine, hform, LatticeIndex.form]
  push_cast
  ring

variable {m0 r : ℕ} {a0 : ℝ}

/-- The superlattice is hexagonal, so one side gives the area. -/
theorem area_eq_cross : (create m0 r a0).area = (create m0 r a0).r₁.cross (create m0 r a0).r₂ :=
  (Vec2.IsHexagonal.cross_eq r₂_eq_rotate).symm

/-- The area of a supercell is that of its parallelogram, and that of a number of cells of either
layer, which `cells` gives up to the largest count. -/
structure CoversCells (cell : Supercell ℝ) (index : ℕ) : Prop where
  area_eq : cell.area = |cell.r₁.cross cell.r₂|
  bottom : cell.area = index * |cell.a₁.cross cell.a₂|
  top : cell.area = index * |cell.rotatedA₁.cross cell.rotatedA₂|
  cells_eq : cell.cells = min index largestCount

/-- The cell covers as many lattice cells as its form says. -/
theorem create_coversCells (hr : 1 ≤ r) (ha0 : 0 < a0) :
    (create m0 r a0).CoversCells (bottomLabel m0 r).form.natAbs := by
  have hgraphene : 0 ≤ √3 / 2 * a0 ^ 2 := by positivity
  have hcross : (create m0 r a0).r₁.cross (create m0 r a0).r₂ =
      ((bottomLabel m0 r).form.natAbs : ℕ) * (√3 / 2 * a0 ^ 2) := by
    rw [(bottom_commensurate hr ha0.ne').cross_eq, cross_a₁_a₂]
  refine ⟨?_, ?_, ?_, cells_eq_min⟩
  · rw [area_eq_cross, hcross, abs_of_nonneg (by positivity)]
  · rw [area_eq_cross, hcross, cross_a₁_a₂, abs_of_nonneg hgraphene]
  · rw [area_eq_cross, hcross, cross_rotated hr, abs_of_nonneg hgraphene]

/-- Below the largest count, the area of a supercell is that of its cells. -/
theorem CoversCells.area_eq_cells {cell : Supercell ℝ} {index : ℕ} (h : cell.CoversCells index)
    (hindex : index < countLimit) : cell.area = cell.cells * |cell.a₁.cross cell.a₂| := by
  have hcells : cell.cells = index := by
    have hmin := h.cells_eq
    unfold largestCount at hmin
    omega
  rw [hcells, h.bottom]

end Supercell

/-! ## The two models -/

/-- The area of the zone in inverse square Ångströms. -/
noncomputable def BandModel.zoneArea (model : BandModel ℝ) : ℝ :=
  |model.gridVectors.1.cross model.gridVectors.2| * model.momentumScale ^ 2

/-- The moire zone has the area that belongs to the moire cell. -/
theorem Continuum.zone_mul_area {params : Params ℝ} (hvalid : params.validate = .ok ()) :
    (Model.ofParams params).toBandModel.zoneArea *
      (Model.ofParams params).toBandModel.unitCellArea = (2 * Real.pi) ^ 2 := by
  have hconstant := (moireConstant_pos hvalid).ne'
  have hsquare : √3 * √3 = (3 : ℝ) := Real.mul_self_sqrt (by norm_num)
  have hcross : (bPlus : KPoint ℝ).cross bMinus = 3 / 2 * √3 := by
    rw [bPlus_eq, bMinus_eq, Vec2.cross]
    ring
  have harea : (Model.ofParams params).toBandModel.unitCellArea =
      √3 / 2 * (params.moireConstant * params.moireConstant) := rfl
  have hscale : (Model.ofParams params).toBandModel.momentumScale =
      4 * Real.pi / (3 * params.moireConstant) := rfl
  have hvectors : (Model.ofParams params).toBandModel.gridVectors = (bPlus, bMinus) := rfl
  rw [BandModel.zoneArea, hvectors, harea, hscale, hcross, abs_of_nonneg (by positivity)]
  field_simp
  linear_combination 16 * hsquare

/-- The zone of a supercell has the area that belongs to the supercell. -/
theorem TightBinding.zone_mul_area {params : Params ℝ} {model : Model ℝ}
    (hmodel : Model.create params = .ok model) :
    model.toBandModel.zoneArea * model.toBandModel.unitCellArea = (2 * Real.pi) ^ 2 := by
  obtain ⟨hvalid, _, _, _, -, -, -, -, rfl⟩ := Model.create_eq_ok hmodel
  obtain ⟨hr, ha0, -⟩ := validate_eq_ok.mp hvalid
  have hr' : 1 ≤ params.r := Nat.one_le_iff_ne_zero.mpr hr
  have hproduct := (Supercell.create_dual hr' ha0.ne' :
    (Supercell.create params.m0 params.r params.latticeConstant).Dual).cross_mul_cross
  have harea := (Supercell.create_coversCells hr' ha0 :
    (Supercell.create params.m0 params.r params.latticeConstant).CoversCells _).area_eq
  simp only [BandModel.zoneArea, Model.toBandModel, one_eq]
  rw [harea, Vec2.add_cross, one_pow, mul_one, ← abs_mul, hproduct, abs_of_nonneg (by positivity)]

/-! ## Zones and cells -/

section

open Supercell

/-- The reciprocal vectors of a supercell are dual to its sides, and its area is that of its
parallelogram and of its graphene cells. For every model of a twisted bilayer that was built, the
product of the areas of the zone and of the unit cell is `(2π)²`. -/
theorem zone_areas :
    (∀ (m0 r : ℕ) (a0 : ℝ), 1 ≤ r → 0 < a0 → (create m0 r a0).Dual ∧
      ∃ index, (create m0 r a0).CoversCells index ∧
        (index < countLimit → (create m0 r a0).area =
          (create m0 r a0).cells * |(create m0 r a0).a₁.cross (create m0 r a0).a₂|)) ∧
    ∀ (params : TwistedParams ℝ) (model : TwistedModel ℝ),
      TwistedModel.create params = .ok model →
      |model.toBandModel.gridVectors.1.cross model.toBandModel.gridVectors.2| *
        model.toBandModel.momentumScale ^ 2 * model.toBandModel.unitCellArea =
          (2 * Real.pi) ^ 2 := by
  refine ⟨fun m0 r a0 hr ha0 ↦ ⟨create_dual hr ha0.ne', _, create_coversCells hr ha0,
    (create_coversCells hr ha0).area_eq_cells⟩, fun params model hmodel ↦ ?_⟩
  cases params with
  | continuum params =>
      obtain ⟨built, hbuilt, hmodel⟩ := bind_eq_ok.mp hmodel
      cases hmodel
      obtain ⟨hvalid, rfl⟩ := Continuum.Model.create_eq_ok.mp hbuilt
      exact Continuum.zone_mul_area hvalid
  | tightBinding params =>
      obtain ⟨built, hbuilt, hmodel⟩ := bind_eq_ok.mp hmodel
      cases hmodel
      exact TightBinding.zone_mul_area hbuilt

/-- The smallest supercell of the second kind with its model, and a continuum model at sixty
degrees. -/
theorem zone_areas_seven :
    (1 ≤ 3 ∧ (0 : ℝ) < 1 ∧ (create 1 3 (1 : ℝ)).Dual ∧ (create 1 3 (1 : ℝ)).area =
      (7 : ℕ) * |(create 1 3 (1 : ℝ)).a₁.cross (create 1 3 (1 : ℝ)).a₂|) ∧
    (∃ model : TwistedModel ℝ,
      TwistedModel.create (.tightBinding ⟨1, 3, -2700, 480, 1, 2, 1, 5⟩) = .ok model ∧
      |model.toBandModel.gridVectors.1.cross model.toBandModel.gridVectors.2| *
        model.toBandModel.momentumScale ^ 2 * model.toBandModel.unitCellArea =
          (2 * Real.pi) ^ 2) ∧
    ∃ model : TwistedModel ℝ, TwistedModel.create (.continuum ⟨60, 1, 0, 1, 0, 1⟩) = .ok model ∧
      |model.toBandModel.gridVectors.1.cross model.toBandModel.gridVectors.2| *
        model.toBandModel.momentumScale ^ 2 * model.toBandModel.unitCellArea =
          (2 * Real.pi) ^ 2 := by
  obtain ⟨hsupercell, hmodels⟩ := zone_areas
  have hcells : ((create 1 3 (1 : ℝ)).cells : ℤ) = 7 := cells_eq (by decide)
  refine ⟨?_, ?_, ?_⟩
  · obtain ⟨hdual, index, hcovers, -⟩ := hsupercell 1 3 1 (by decide) one_pos
    have hindex : index = 7 := by
      have hmin := hcovers.cells_eq
      unfold largestCount countLimit at hmin
      omega
    exact ⟨by decide, one_pos, hdual, hindex ▸ hcovers.bottom⟩
  · obtain ⟨target, lattice, atoms, htarget, hlattice, hatoms, hall⟩ :=
      TightBinding.exists_placement 2 (by decide : 1 ≤ 3) (one_ne_zero : (1 : ℝ) ≠ 0)
        (by decide : 2 * 1 + 3 ≤ 5) (by decide)
    have hvalid : (⟨1, 3, -2700, 480, 1, 2, 1, 5⟩ : TightBinding.Params ℝ).validate = .ok () :=
      TightBinding.validate_eq_ok.mpr ⟨three_ne_zero, one_pos, two_pos, one_pos⟩
    obtain ⟨model, hmodel, -⟩ := TightBinding.exists_model hvalid htarget hlattice hatoms hall
    have hcreate : TwistedModel.create (.tightBinding ⟨1, 3, -2700, 480, 1, 2, 1, 5⟩) =
        .ok (.tightBinding model) := bind_eq_ok.mpr ⟨model, hmodel, rfl⟩
    exact ⟨_, hcreate, hmodels _ _ hcreate⟩
  · have hcreate : TwistedModel.create (.continuum (⟨60, 1, 0, 1, 0, 1⟩ : Continuum.Params ℝ)) =
        .ok (.continuum (.ofParams ⟨60, 1, 0, 1, 0, 1⟩)) :=
      bind_eq_ok.mpr ⟨_, Continuum.Model.create_eq_ok.mpr
        ⟨Continuum.validate_eq_ok.mpr (by norm_num), rfl⟩, rfl⟩
    exact ⟨_, hcreate, hmodels _ _ hcreate⟩

/-- A supercell with more cells than can be counted: its area is not that of `cells` cells. -/
theorem area_ne_cells :
    let cell := create 3000000000 1 (1 : ℝ)
    cell.area = (27000000009000000001 : ℕ) * |cell.a₁.cross cell.a₂| ∧
      cell.cells = 18446744073709551615 ∧
      cell.area ≠ cell.cells * |cell.a₁.cross cell.a₂| := by
  intro cell
  have hcovers : cell.CoversCells 27000000009000000001 := create_coversCells le_rfl one_pos
  have hcells : cell.cells = 18446744073709551615 := hcovers.cells_eq
  have hgraphene : |cell.a₁.cross cell.a₂| ≠ 0 :=
    abs_ne_zero.mpr (bottom_commensurate le_rfl one_ne_zero).independent
  refine ⟨hcovers.bottom, hcells, ?_⟩
  rw [hcovers.bottom, hcells, Ne, mul_left_inj' hgraphene, Nat.cast_inj]
  decide

end

end Moire
