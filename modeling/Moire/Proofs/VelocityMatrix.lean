import Mathlib
import Moire.Proofs.ContinuumBlocks

/-!
# Velocity matrices of the continuum model

The Hamiltonian of the continuum model depends on the momentum through its Dirac matrices, which are
linear in it, and tunnelling does not depend on it at all. A forward difference is therefore the
derivative, whatever the step: `Continuum.waveBlock_sub` says so for the block of two waves and
`Continuum.quotientAlong_eq` for the stored matrices. The two velocity matrices are tables of the
Dirac matrices of unit momenta, `Continuum.derivatives_velocity`.
-/

namespace Moire

open Matrix RealScalar

/-! ## Stored matrices -/

namespace CMatrix

/-- Blocks are subtracted one by one. -/
theorem block_sub {m n : CMatrix ℝ} {i j : ℕ} (hi : 2 * i + 1 < m.nrows)
    (hj : 2 * j + 1 < m.ncols) : (m.sub n).block i j = m.block i j - n.block i j := by
  ext s t
  rw [Matrix.sub_apply, block, block, block, of_apply, of_apply, of_apply, sub,
    get_ofFn (by omega) (by omega)]
  rfl

/-- Blocks are divided one by one. -/
theorem block_div {m : CMatrix ℝ} (x : ℝ) {i j : ℕ} (hi : 2 * i + 1 < m.nrows)
    (hj : 2 * j + 1 < m.ncols) :
    (m.div (Cplx.ofReal x)).block i j = ((x⁻¹ : ℝ) : ℂ) • m.block i j := by
  ext s t
  rw [Matrix.smul_apply, block, block, of_apply, of_apply, div, get_ofFn (by omega) (by omega),
    Cplx.toComplex_div, Cplx.toComplex_ofReal, smul_eq_mul, Complex.ofReal_inv, div_eq_inv_mul]

/-- Quotients with the same blocks are the same matrix. -/
theorem div_eq_of_block {m m' : CMatrix ℝ} {z z' : Cplx ℝ} {n : ℕ} (hnrows : m.nrows = 2 * n)
    (hncols : m.ncols = 2 * n) (hnrows' : m'.nrows = 2 * n) (hncols' : m'.ncols = 2 * n)
    (hblock : ∀ i < n, ∀ j < n, (m.div z).block i j = (m'.div z').block i j) :
    m.div z = m'.div z' := by
  have hentry : ∀ {m : CMatrix ℝ} {z : Cplx ℝ} {i j : ℕ}, i < m.nrows → j < m.ncols →
      (m.div z).get i j = m.get i j / z := fun hi hj ↦ get_ofFn hi hj
  have hget : ∀ i < 2 * n, ∀ j < 2 * n, (m.div z).get i j = (m'.div z').get i j := by
    intro i hi j hj
    apply Cplx.toComplex_injective
    have hleft := toMatrix_eq_block (2 * n) (m.div z) ⟨i, hi⟩ ⟨j, hj⟩
    have hright := toMatrix_eq_block (2 * n) (m'.div z') ⟨i, hi⟩ ⟨j, hj⟩
    rw [hblock _ (by dsimp only; omega) _ (by dsimp only; omega), ← hright] at hleft
    exact hleft
  rw [div, div, hnrows, hncols, hnrows', hncols']
  refine ofFn_congr fun i hi j hj ↦ ?_
  rw [← hentry (by omega) (by omega), ← hentry (by omega) (by omega), hget i hi j hj]

end CMatrix

namespace Continuum

/-! ## Blocks along a direction -/

/-- The Dirac matrix is linear in the momentum. -/
theorem diracMatrix_add_mul (p direction : KPoint ℝ) (step angle : ℝ) :
    diracMatrix (p + direction * step) angle =
      diracMatrix p angle + (step : ℂ) • diracMatrix direction angle := by
  ext s t
  fin_cases s <;> fin_cases t <;> simp [diracMatrix] <;> ring

variable (params : Params ℝ) (k direction : KPoint ℝ)

/-- Moving the point moves every momentum alike. -/
theorem momentum_add (shift : KPoint ℝ) (u : PlaneWave) :
    momentum (k + shift) u = momentum k u + shift := by
  ext <;> simp only [momentum, Vec2.add_x, Vec2.add_y, Vec2.sub_x, Vec2.sub_y] <;> ring

/-- Along a direction the block of a wave with itself grows by its Dirac matrix, and all other
blocks stay. -/
theorem waveBlock_sub (step : ℝ) (u v : PlaneWave) :
    waveBlock params (k + direction * step) u v - waveBlock params k u v =
      if u = v then
        ((step * params.epsilon : ℝ) : ℂ) • diracMatrix direction (layerAngle params u.layer)
      else 0 := by
  by_cases huv : u = v
  · subst huv
    rw [waveBlock_self, waveBlock_self, momentum_add, diracMatrix_add_mul, if_pos rfl, smul_add,
      add_sub_cancel_left, smul_smul, Complex.ofReal_mul, mul_comm]
  · rw [waveBlock, waveBlock, if_neg huv, if_neg huv, if_neg huv]
    exact sub_self _

/-- The difference quotient of the Hamiltonian along a direction, in meV·Å. -/
noncomputable def quotientAlong (step : ℝ) : CMatrix ℝ :=
  (((Model.ofParams params).hamiltonian (k + direction * step)).sub
    ((Model.ofParams params).hamiltonian k)).div (Cplx.ofReal (step * params.kMoire))

/-- The difference quotient has two rows for each wave. -/
theorem nrows_quotientAlong (step : ℝ) : (quotientAlong params k direction step).nrows =
    2 * (Basis.grow params.loopTimes).toList.length :=
  (isBlockTable_hamiltonian params (k + direction * step)).nrows

/-- The difference quotient has two columns for each wave. -/
theorem ncols_quotientAlong (step : ℝ) : (quotientAlong params k direction step).ncols =
    2 * (Basis.grow params.loopTimes).toList.length :=
  (isBlockTable_hamiltonian params (k + direction * step)).ncols

/-- The quotient has the Dirac matrices of the direction, in units of a velocity. -/
theorem block_quotientAlong {step : ℝ} (hstep : step ≠ 0) {i j : ℕ} {u v : PlaneWave}
    (hi : (Basis.grow params.loopTimes).toList[i]? = some u)
    (hj : (Basis.grow params.loopTimes).toList[j]? = some v) :
    (quotientAlong params k direction step).block i j =
      if u = v then
        ((params.epsilon / params.kMoire : ℝ) : ℂ) •
          diracMatrix direction (layerAngle params u.layer)
      else 0 := by
  have htable := isBlockTable_hamiltonian params (k + direction * step)
  have hi' := (List.getElem?_eq_some_iff.mp hi).1
  have hj' := (List.getElem?_eq_some_iff.mp hj).1
  have hrow : 2 * i + 1 < ((Model.ofParams params).hamiltonian (k + direction * step)).nrows := by
    rw [htable.nrows]
    omega
  have hcol : 2 * j + 1 < ((Model.ofParams params).hamiltonian (k + direction * step)).ncols := by
    rw [htable.ncols]
    omega
  have hunits : (step * params.kMoire)⁻¹ * (step * params.epsilon) =
      params.epsilon / params.kMoire := by
    rw [mul_inv, mul_mul_mul_comm, inv_mul_cancel₀ hstep, one_mul, div_eq_inv_mul]
  rw [quotientAlong, CMatrix.block_div (m := CMatrix.sub _ _) _ hrow hcol,
    CMatrix.block_sub hrow hcol, Model.block_hamiltonian params _ hi hj,
    Model.block_hamiltonian params k hi hj, waveBlock_sub]
  split
  · rw [smul_smul, ← Complex.ofReal_mul, hunits]
  · rw [smul_zero]

/-- A difference quotient is the derivative: neither the momentum nor the step matters. -/
theorem quotientAlong_eq (k' : KPoint ℝ) {step step' : ℝ} (hstep : step ≠ 0) (hstep' : step' ≠ 0) :
    quotientAlong params k direction step = quotientAlong params k' direction step' := by
  refine CMatrix.div_eq_of_block (nrows_quotientAlong params k direction step)
    (ncols_quotientAlong params k direction step) (nrows_quotientAlong params k' direction step')
    (ncols_quotientAlong params k' direction step') fun i hi j hj ↦ ?_
  have hu := List.getElem?_eq_getElem hi
  have hv := List.getElem?_eq_getElem hj
  exact (block_quotientAlong params k direction hstep hu hv).trans
    (block_quotientAlong params k' direction hstep' hu hv).symm

/-! ## The velocity matrices -/

/-- The matrix has a Dirac matrix of the direction for every wave, in units of a velocity and turned
as the layer of the wave, and nothing beside them, in particular nothing that joins the layers. -/
structure IsVelocityTable (waves : List PlaneWave) (m : CMatrix ℝ) : Prop where
  nrows : m.nrows = 2 * waves.length
  ncols : m.ncols = 2 * waves.length
  dirac {i : ℕ} {u : PlaneWave} (hi : waves[i]? = some u) : m.block i i =
    ((params.epsilon / params.kMoire : ℝ) : ℂ) • diracMatrix direction (layerAngle params u.layer)
  zero {i j : ℕ} (hi : i < waves.length) (hj : j < waves.length) (hij : i ≠ j) : m.block i j = 0

/-- The difference quotient of every step is the velocity table. -/
theorem isVelocityTable_quotientAlong {step : ℝ} (hstep : step ≠ 0) :
    IsVelocityTable params direction (Basis.grow params.loopTimes).toList
      (quotientAlong params k direction step) where
  nrows := nrows_quotientAlong params k direction step
  ncols := ncols_quotientAlong params k direction step
  dirac hi := by rw [block_quotientAlong params k direction hstep hi hi, if_pos rfl]
  zero hi hj hij := by
    have hu := List.getElem?_eq_getElem hi
    have hv := List.getElem?_eq_getElem hj
    rw [block_quotientAlong params k direction hstep hu hv,
      if_neg ((Basis.position_inj _ hu hv).not.mp hij)]

/-- A velocity matrix is Hermitian, because its blocks are. -/
theorem IsVelocityTable.isHermitian {params : Params ℝ} {direction : KPoint ℝ}
    {waves : List PlaneWave} {m : CMatrix ℝ} (htable : IsVelocityTable params direction waves m) :
    (m.toMatrix (2 * waves.length)).IsHermitian := by
  refine CMatrix.isHermitian_of_block fun i hi j hj ↦ ?_
  by_cases hij : i = j
  · subst hij
    rw [htable.dirac (List.getElem?_eq_getElem hi), conjTranspose_smul, diracMatrix_conjTranspose,
      Complex.star_def, Complex.conj_ofReal]
  · rw [htable.zero hi hj hij, htable.zero hj hi (Ne.symm hij), conjTranspose_zero]

/-- The forward differences of a model are the difference quotients along the axes. -/
theorem derivatives_eq_quotientAlong :
    ((Model.ofParams params).toBandModel.derivatives k).dx =
        quotientAlong params k ⟨1, 0⟩ params.intervalK ∧
      ((Model.ofParams params).toBandModel.derivatives k).dy =
        quotientAlong params k ⟨0, 1⟩ params.intervalK := by
  have haxes : (⟨1, 0⟩ : KPoint ℝ) * params.intervalK = ⟨params.intervalK, 0⟩ ∧
      (⟨0, 1⟩ : KPoint ℝ) * params.intervalK = ⟨0, params.intervalK⟩ := by
    constructor <;> ext <;> simp
  rw [quotientAlong, quotientAlong, haxes.1, haxes.2, BandModel.derivatives]
  simp only [zero_eq]
  exact ⟨rfl, rfl⟩

/-- The velocity matrices of a continuum model are the tables of the Dirac matrices of the two axes,
and Hermitian. They depend neither on the momentum nor on the step of the differences. -/
theorem derivatives_velocity {params : Params ℝ} {model : Model ℝ}
    (hmodel : Model.create params = .ok model) (k : KPoint ℝ) :
    IsVelocityTable params ⟨1, 0⟩ model.basis.toList (model.toBandModel.derivatives k).dx ∧
    IsVelocityTable params ⟨0, 1⟩ model.basis.toList (model.toBandModel.derivatives k).dy ∧
    ((model.toBandModel.derivatives k).dx.toMatrix (2 * model.basis.size)).IsHermitian ∧
    ((model.toBandModel.derivatives k).dy.toMatrix (2 * model.basis.size)).IsHermitian ∧
    ∀ (step : ℝ) (other : Model ℝ), Model.create { params with intervalK := step } = .ok other →
      ∀ k', (other.toBandModel.derivatives k').dx = (model.toBandModel.derivatives k).dx ∧
        (other.toBandModel.derivatives k').dy = (model.toBandModel.derivatives k).dy := by
  obtain ⟨hvalid, rfl⟩ := Model.create_eq_ok.mp hmodel
  obtain ⟨-, -, -, hstep⟩ := validate_eq_ok.mp hvalid
  obtain ⟨hdx, hdy⟩ := derivatives_eq_quotientAlong params k
  have hx := isVelocityTable_quotientAlong params k ⟨1, 0⟩ hstep.ne'
  have hy := isVelocityTable_quotientAlong params k ⟨0, 1⟩ hstep.ne'
  have hsize : (Basis.grow params.loopTimes).toList.length = (Model.ofParams params).basis.size :=
    Basis.length_toList _
  rw [hdx, hdy, ← hsize]
  refine ⟨hx, hy, hx.isHermitian, hy.isHermitian, fun step other hother k' ↦ ?_⟩
  obtain ⟨hvalid', rfl⟩ := Model.create_eq_ok.mp hother
  obtain ⟨-, -, -, hstep'⟩ := validate_eq_ok.mp hvalid'
  obtain ⟨hdx', hdy'⟩ := derivatives_eq_quotientAlong { params with intervalK := step } k'
  rw [hdx', hdy']
  exact ⟨quotientAlong_eq params k' ⟨1, 0⟩ k hstep'.ne' hstep.ne',
    quotientAlong_eq params k' ⟨0, 1⟩ k hstep'.ne' hstep.ne'⟩

/-- Coupled layers with four waves, differentiated at two momenta with different steps. -/
theorem derivatives_velocity_coupled :
    ∃ model other : Model ℝ, Model.create ⟨60, 1, 1, 1, 1, 1⟩ = .ok model ∧
      Model.create ⟨60, 1, 1, 1, 1, 2⟩ = .ok other ∧ model.basis.size = 4 ∧
      IsVelocityTable ⟨60, 1, 1, 1, 1, 1⟩ ⟨1, 0⟩ model.basis.toList
        (model.toBandModel.derivatives ⟨0, 0⟩).dx ∧
      (other.toBandModel.derivatives ⟨3, 4⟩).dx = (model.toBandModel.derivatives ⟨0, 0⟩).dx := by
  have hmodel : ∀ step : ℝ, 0 < step → Model.create (⟨60, 1, 1, 1, 1, step⟩ : Params ℝ) =
      .ok (.ofParams ⟨60, 1, 1, 1, 1, step⟩) := by
    intro step hstep
    exact Model.create_eq_ok.mpr ⟨validate_eq_ok.mpr ⟨by norm_num, by norm_num, by norm_num, hstep⟩,
      rfl⟩
  obtain ⟨hx, -, -, -, heq⟩ := derivatives_velocity (hmodel 1 one_pos) ⟨0, 0⟩
  exact ⟨_, _, hmodel 1 one_pos, hmodel 2 two_pos, rfl, hx, (heq 2 _ (hmodel 2 two_pos) ⟨3, 4⟩).1⟩

end Continuum

end Moire
