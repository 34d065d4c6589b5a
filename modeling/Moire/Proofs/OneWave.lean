import Mathlib
import Moire.Bands.Structure
import Moire.Proofs.ContinuumBlocks
import Moire.Proofs.ExactSpectrum
import Moire.TwistedModel

/-!
# The continuum model of one wave

Without rounds of growth the basis has only the wave at the valley of the bottom layer, and the
Hamiltonian is the Dirac matrix of that layer. Such a matrix has no diagonal, so its levels can be
written down: `chiralSolver` finds them. The two bands are then a cone over the corner of the zone,
`Continuum.windowAt_oneWave`, whose slope is the energy scale of the model; this is the model in
which the effect of a parameter on the bands is read off at once.
-/

namespace Moire

open Matrix Polynomial RealScalar

/-! ## Two-by-two matrices without a diagonal -/

/-- The level above or below the gap of a Hermitian two-by-two matrix without a diagonal. -/
noncomputable def chiralLevel (h : CMatrix ℝ) (sign : ℝ) : Level ℝ :=
  ⟨sign * (h.get 1 0).norm, #[⟨1 / √2, 0⟩, Cplx.polar (sign / √2) (h.get 1 0).arg]⟩

/-- The solver for Hermitian two-by-two matrices without a diagonal. -/
noncomputable def chiralSolver : Solver ℝ := fun h ↦ some [chiralLevel h (-1), chiralLevel h 1]

/-- The solver returns the levels in order. -/
theorem spectrum_chiral {h : CMatrix ℝ} (hnrows : h.nrows = 2) (hncols : h.ncols = 2) :
    Spectrum.ofHamiltonian chiralSolver h = .ok ⟨#[chiralLevel h (-1), chiralLevel h 1]⟩ := by
  refine Spectrum.ofHamiltonian_eq_ok.mpr
    ⟨hnrows.trans hncols.symm, hnrows ▸ two_ne_zero, _, rfl, ?_⟩
  rw [Number.sortBy_of_sorted]
  have hnorm : 0 ≤ (h.get 1 0).norm := by
    rw [Cplx.norm_eq]
    exact norm_nonneg _
  refine List.pairwise_pair.mpr ?_
  show -1 * (h.get 1 0).norm ≤ 1 * (h.get 1 0).norm
  linarith

/-- The solver finds the energies of a Hermitian matrix of size two with a zero diagonal. -/
theorem findsEnergies_chiral {h : CMatrix ℝ} (hnrows : h.nrows = 2)
    (hdiagonal : ∀ s, h.toMatrix 2 s s = 0) (hhermitian : (h.toMatrix 2).IsHermitian) :
    chiralSolver.FindsEnergies h := by
  refine ⟨_, rfl, ?_⟩
  have hproduct : h.toMatrix 2 0 1 * h.toMatrix 2 1 0 = ((h.get 1 0).norm : ℂ) ^ 2 := by
    rw [← hhermitian.apply 0 1, Complex.star_def, Complex.conj_mul', Cplx.norm_eq]
    rfl
  rw [CMatrix.HasEnergies, hnrows, charpoly_fin_two, trace_fin_two, det_fin_two, hdiagonal,
    hdiagonal, hproduct]
  simp [chiralLevel]
  ring

/-- The window of both bands of a spectrum of two levels. -/
theorem Spectrum.window_pair (a b : Level ℝ) :
    (⟨#[a, b]⟩ : Spectrum ℝ).window (-1) 1 = .ok [a.energy, b.energy] := by
  simp [window, Word.add, Word.check, Word.holds, Word.signed64, mid, size, energies]
  rfl

/-! ## The bands -/

namespace Continuum

/-- The energy scale and the momentum of a wave give the size of its Dirac matrix. -/
theorem IsBlockTable.norm_get {params : Params ℝ} {k : KPoint ℝ} {waves : List PlaneWave}
    {h : CMatrix ℝ} (htable : IsBlockTable params k waves h) {i : ℕ} {u : PlaneWave}
    (hi : waves[i]? = some u) :
    (h.get (2 * i + 1) (2 * i)).norm = |params.epsilon| * (momentum k u).norm := by
  have hentry : (h.get (2 * i + 1) (2 * i)).toComplex =
      params.epsilon * (Complex.exp (layerAngle params u.layer * Complex.I) *
        ((momentum k u).x + (momentum k u).y * Complex.I)) := by
    have hentry := congrFun₂ (htable.dirac hi) 1 0
    simpa [CMatrix.block, diracMatrix] using hentry
  rw [Cplx.norm_eq, hentry, norm_mul, norm_mul, Complex.norm_exp_ofReal_mul_I, one_mul,
    Complex.norm_real, Real.norm_eq_abs, Complex.norm_add_mul_I, pow_two, pow_two]
  rfl

/-- The momentum of the origin is measured from the valley of the bottom layer. -/
theorem momentum_origin (k : KPoint ℝ) : momentum k .origin = k - kBottom := by
  ext <;> simp [momentum, PlaneWave.origin, valley]

section

variable {params : Params ℝ} (hloop : params.loopTimes = 0) (k : KPoint ℝ)

include hloop

/-- The origin is the first wave of the basis. -/
theorem origin_oneWave : (Basis.grow params.loopTimes).toList[0]? = some .origin := by
  rw [hloop]
  rfl

/-- The Hamiltonian of one wave is its scaled Dirac matrix. -/
theorem toMatrix_oneWave : ((Model.ofParams params).hamiltonian k).toMatrix 2 =
    (params.epsilon : ℂ) • diracMatrix (k - kBottom) (layerAngle params .bottom) := by
  have hblock := (isBlockTable_hamiltonian params k).dirac (origin_oneWave hloop)
  rw [momentum_origin] at hblock
  rw [show PlaneWave.origin.layer = .bottom from rfl] at hblock
  rw [← hblock]
  ext s t
  rw [CMatrix.block, of_apply, mul_zero, zero_add, zero_add, CMatrix.toMatrix_apply]

/-- The Hamiltonian of one wave has size two. -/
theorem size_oneWave : ((Model.ofParams params).hamiltonian k).nrows = 2 ∧
    ((Model.ofParams params).hamiltonian k).ncols = 2 := by
  have htable := isBlockTable_hamiltonian params k
  rw [htable.nrows, htable.ncols, hloop]
  exact ⟨rfl, rfl⟩

/-- The coupling of the two components goes with the distance from the valley. -/
theorem norm_oneWave : (((Model.ofParams params).hamiltonian k).get 1 0).norm =
    |params.epsilon| * (k - kBottom).norm := by
  have hnorm := (isBlockTable_hamiltonian params k).norm_get (origin_oneWave hloop)
  rwa [momentum_origin] at hnorm

/-- The solver finds the energies of one wave. -/
theorem findsEnergies_oneWave :
    chiralSolver.FindsEnergies ((Model.ofParams params).hamiltonian k) := by
  have hmatrix := toMatrix_oneWave hloop k
  refine findsEnergies_chiral (size_oneWave hloop k).1 (fun s ↦ ?_) ?_
  · rw [hmatrix]
    fin_cases s <;> simp [diracMatrix]
  · rw [hmatrix, IsHermitian, conjTranspose_smul, diracMatrix_conjTranspose, Complex.star_def,
      Complex.conj_ofReal]

/-- The spectrum of one wave has a level on either side of zero. -/
theorem spectrum_oneWave : (Model.ofParams params).toBandModel.spectrum chiralSolver k =
    .ok ⟨#[chiralLevel ((Model.ofParams params).hamiltonian k) (-1),
      chiralLevel ((Model.ofParams params).hamiltonian k) 1]⟩ :=
  spectrum_chiral (size_oneWave hloop k).1 (size_oneWave hloop k).2

/-- The bands are a cone over the corner of the zone. -/
theorem windowAt_oneWave :
    windowAt (Model.ofParams params).toBandModel chiralSolver ⟨-1, 1⟩ k =
      .ok [-(|params.epsilon| * (k - kBottom).norm), |params.epsilon| * (k - kBottom).norm] := by
  refine bind_eq_ok.mpr ⟨_, spectrum_oneWave hloop k, ?_⟩
  rw [← norm_oneWave hloop k, Spectrum.window_pair]
  simp [chiralLevel]

end

/-! ## The velocity -/

/-- A model of one wave at an angle of sixty degrees. -/
noncomputable def oneWave (velocity : ℝ) : Params ℝ := ⟨60, velocity, 0, 1, 0, 1⟩

/-- The parameters of one wave are accepted when the velocity is positive. -/
theorem create_oneWave {velocity : ℝ} (hvelocity : 0 < velocity) :
    TwistedModel.create (.continuum (oneWave velocity)) =
      .ok (.continuum (.ofParams (oneWave velocity))) := by
  refine bind_eq_ok.mpr ⟨_, Model.create_eq_ok.mpr ⟨validate_eq_ok.mpr ?_, rfl⟩, rfl⟩
  exact ⟨by norm_num [oneWave], hvelocity, by norm_num [oneWave], by norm_num [oneWave]⟩

/-- The bands are as steep as the velocity says. -/
theorem epsilon_oneWave (velocity : ℝ) :
    (oneWave velocity).epsilon = velocity * (oneWave 1).epsilon := by
  show Constants.hbar * velocity * _ * _ * _ = velocity * (Constants.hbar * 1 * _ * _ * _)
  rw [show (oneWave velocity).kMoire = (oneWave 1).kMoire from rfl]
  ring

/-- The energy scale of one wave is not zero. -/
theorem epsilon_oneWave_ne_zero : (oneWave 1).epsilon ≠ 0 := by
  have hsin : Real.sin (toRadians (60 : ℝ) / 2) = 1 / 2 := by
    have hangle : toRadians (60 : ℝ) / 2 = Real.pi / 6 := by
      show 60 * (Real.pi / 180) / 2 = Real.pi / 6
      ring
    rw [hangle, Real.sin_pi_div_six]
  have hconstant : (oneWave 1).moireConstant = 1 := by
    show 1 / (2 * Real.sin (toRadians (60 : ℝ) / 2)) = 1
    rw [hsin]
    norm_num
  have hmoire : (oneWave 1).kMoire = 4 * Real.pi / 3 := by
    show 4 * Real.pi / (3 * (oneWave 1).moireConstant) = 4 * Real.pi / 3
    rw [hconstant, mul_one]
  have hpi := Real.pi_ne_zero
  rw [Params.epsilon, hmoire]
  simp [oneWave, Constants.hbar, Constants.metreToAngstrom, Constants.evToMev, hpi]
  norm_num

end Continuum

end Moire
