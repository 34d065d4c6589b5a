import Mathlib
import Moire.Berry.Curvature
import Moire.Proofs.ExactSpectrum

/-!
# The states of a band along the zone

A solver returns one normalised eigenvector of a band at each point, with a phase of its own choice.
Where the Hamiltonian at two points is conjugated by a diagonal matrix of phases, the band has the
same energy at both, `SolvesBand.energy_eq`, and if that energy is simple, the state at the second
point is the moved state of the first point up to one phase, `SolvesBand.exists_gauge`. Overlaps of
moved states are known from those of the states, `inner_gauge`.
-/

namespace Moire

open Matrix Polynomial RealScalar

/-! ## Directions -/

/-- The unit complex number in the direction of another one. -/
noncomputable def unitPart (z : ℂ) : Circle := Circle.exp z.arg

/-- The unit part of a number other than zero is the number divided by its norm. -/
theorem coe_unitPart {z : ℂ} (hz : z ≠ 0) : (unitPart z : ℂ) = z / ‖z‖ := by
  rw [unitPart, Circle.coe_exp, eq_div_iff (Complex.ofReal_ne_zero.mpr (norm_ne_zero_iff.mpr hz)),
    mul_comm, Complex.norm_mul_exp_arg_mul_I]

/-- A factor of modulus one stays a factor. -/
theorem unitPart_mul (c : Circle) {z : ℂ} (hz : z ≠ 0) : unitPart (c * z) = c * unitPart z := by
  have hcz : (c : ℂ) * z ≠ 0 := mul_ne_zero (Circle.coe_ne_zero c) hz
  apply Circle.ext
  rw [Circle.coe_mul, coe_unitPart hcz, coe_unitPart hz, norm_mul, Circle.norm_coe, one_mul,
    mul_div_assoc]

/-! ## Moved states -/

section

variable {n : ℕ}

/-- The state with its components turned by given phases, and the whole turned by another. -/
noncomputable def gauge (c : Circle) (d x : Fin n → ℂ) : Fin n → ℂ := fun j ↦ c * (d j * x j)

/-- Turning components by phases keeps overlaps, so that only the common phases show. -/
theorem inner_gauge {d : Fin n → ℂ} (hd : ∀ j, ‖d j‖ = 1) (c c' : Circle) (x y : Fin n → ℂ) :
    star (gauge c d x) ⬝ᵥ gauge c' d y = (c⁻¹ * c' : Circle) * (star x ⬝ᵥ y) := by
  simp only [dotProduct, Finset.mul_sum]
  refine Finset.sum_congr rfl fun j _ ↦ ?_
  have hunit := mul_star_of_norm (hd j)
  simp only [gauge, Pi.star_apply, star_mul', Circle.coe_mul, Circle.coe_inv_eq_conj,
    Complex.star_def] at hunit ⊢
  linear_combination (starRingEnd ℂ (c : ℂ)) * c' * (starRingEnd ℂ (x j)) * y j * hunit

/-- The energy of the matrix is simple: its eigenvectors are multiples of each other. -/
def IsSimple (h : Matrix (Fin n) (Fin n) ℂ) (energy : ℂ) : Prop :=
  ∀ x y, h *ᵥ x = energy • x → h *ᵥ y = energy • y → x ≠ 0 → ∃ c : ℂ, y = c • x

variable {h h' : Matrix (Fin n) (Fin n) ℂ} {d : Fin n → ℂ} (hd : ∀ j, ‖d j‖ = 1)
  (hconj : h' = diagonal d * h * (diagonal d)ᴴ) {energy : ℂ}

include hd

/-- A diagonal of phases is unitary. -/
theorem diagonal_mul_conjTranspose : diagonal d * (diagonal d)ᴴ = 1 :=
  mem_unitaryGroup_iff.mp (diagonal_mem_unitaryGroup hd)

/-- A diagonal of phases is unitary from the other side. -/
theorem conjTranspose_mul_diagonal : (diagonal d)ᴴ * diagonal d = 1 :=
  mem_unitaryGroup_iff'.mp (diagonal_mem_unitaryGroup hd)

include hconj

/-- Moved back, an eigenvector of the conjugated matrix is one of the matrix. -/
theorem mulVec_moved {y : Fin n → ℂ} (hy : h' *ᵥ y = energy • y) :
    h *ᵥ ((diagonal d)ᴴ *ᵥ y) = energy • ((diagonal d)ᴴ *ᵥ y) := by
  have hback : (diagonal d)ᴴ * h' = h * (diagonal d)ᴴ := by
    rw [hconj, ← mul_assoc, ← mul_assoc, conjTranspose_mul_diagonal hd, one_mul]
  rw [mulVec_mulVec, ← hback, ← mulVec_mulVec, hy, mulVec_smul]

/-- Conjugation keeps a simple energy simple. -/
theorem IsSimple.conj (hsimple : IsSimple h energy) : IsSimple h' energy := by
  intro x y hx hy hne
  have hrestore : ∀ z : Fin n → ℂ, diagonal d *ᵥ ((diagonal d)ᴴ *ᵥ z) = z := by
    intro z
    rw [mulVec_mulVec, diagonal_mul_conjTranspose hd, one_mulVec]
  have hmoved : (diagonal d)ᴴ *ᵥ x ≠ 0 := by
    intro hzero
    apply hne
    rw [← hrestore x, hzero, mulVec_zero]
  obtain ⟨c, hc⟩ := hsimple _ _ (mulVec_moved hd hconj hx) (mulVec_moved hd hconj hy) hmoved
  refine ⟨c, ?_⟩
  rw [← hrestore y, hc, mulVec_smul, hrestore]

/-- A normalised eigenvector of the conjugated matrix is the moved one of the matrix, up to a
phase. -/
theorem IsSimple.exists_gauge (hsimple : IsSimple h energy) {x y : Fin n → ℂ}
    (hx : h *ᵥ x = energy • x) (hxx : star x ⬝ᵥ x = 1) (hy : h' *ᵥ y = energy • y)
    (hyy : star y ⬝ᵥ y = 1) : ∃ c : Circle, y = gauge c d x := by
  have hne : x ≠ 0 := by
    rintro rfl
    simp at hxx
  obtain ⟨c, hc⟩ := hsimple _ _ hx (mulVec_moved hd hconj hy) hne
  have hyc : y = c • (diagonal d *ᵥ x) := by
    rw [← mulVec_smul, ← hc, mulVec_mulVec, diagonal_mul_conjTranspose hd, one_mulVec]
  -- Both vectors are normalised, so that the factor between them is a phase.
  have hnorm : star c * c = 1 := by
    have hmoved : star (diagonal d *ᵥ x) ⬝ᵥ (diagonal d *ᵥ x) = 1 := by
      rw [star_mulVec, ← dotProduct_mulVec, mulVec_mulVec, conjTranspose_mul_diagonal hd,
        one_mulVec, hxx]
    rw [hyc, star_smul, smul_dotProduct, dotProduct_smul, hmoved] at hyy
    simpa using hyy
  have hone : ‖c‖ = 1 := by
    have hsquare := congrArg norm hnorm
    rw [norm_mul, norm_star, norm_one] at hsquare
    rcases mul_self_eq_one_iff.mp hsquare with hone | hneg
    · exact hone
    · linarith [norm_nonneg c]
  have hcne : c ≠ 0 := norm_ne_zero_iff.mp (hone ▸ one_ne_zero)
  refine ⟨unitPart c, ?_⟩
  rw [hyc]
  funext j
  rw [gauge, coe_unitPart hcne, hone, Complex.ofReal_one, div_one, Pi.smul_apply, mulVec_diagonal,
    smul_eq_mul]

end

/-! ## The band that a solver returns -/

/-- The state of the level is a normalised eigenvector for its energy. -/
structure Level.IsEigen (level : Level ℝ) (n : ℕ) (h : CMatrix ℝ) : Prop where
  size : level.state.size = n
  eigen : h.toMatrix n *ᵥ level.state.toVec n = (level.energy : ℂ) • level.state.toVec n
  unit : star (level.state.toVec n) ⬝ᵥ level.state.toVec n = 1

/-- At a point the solver finds the energies, the band is one of them, and its level has a
normalised eigenvector. -/
structure BandModel.SolvesBand (model : BandModel ℝ) (solve : Solver ℝ) (band : ℤ) (k : KPoint ℝ)
    (level : Level ℝ) : Prop where
  found : ∃ spectrum index, model.spectrum solve k = .ok spectrum ∧
    (model.hamiltonian k).HasEnergies spectrum.levels.toList ∧
    spectrum.bandIndex band = .ok index ∧ spectrum.levels[index]? = some level
  isEigen : level.IsEigen model.dimension (model.hamiltonian k)

/-- A step along a vector conjugates the Hamiltonian, always by the same diagonal matrix of
phases. -/
structure BandModel.Periodic (model : BandModel ℝ) (v : KPoint ℝ) (d : Fin model.dimension → ℂ) :
    Prop where
  norm_eq : ∀ j, ‖d j‖ = 1
  hamiltonian_add : ∀ k, (model.hamiltonian (k + v)).toMatrix model.dimension =
    diagonal d * (model.hamiltonian k).toMatrix model.dimension * (diagonal d)ᴴ

/-- A Hamiltonian that a step does not change is conjugated by nothing. -/
theorem BandModel.Periodic.of_eq {model : BandModel ℝ} {v : KPoint ℝ}
    (h : ∀ k, model.hamiltonian (k + v) = model.hamiltonian k) : model.Periodic v 1 where
  norm_eq _ := norm_one
  hamiltonian_add k := by
    rw [h k, show diagonal (1 : Fin model.dimension → ℂ) = 1 from diagonal_one, conjTranspose_one,
      one_mul, mul_one]

/-- The index of a band depends on the number of levels alone. -/
theorem Spectrum.bandIndex_congr {spectrum spectrum' : Spectrum ℝ}
    (h : spectrum.size = spectrum'.size) (band : ℤ) :
    spectrum.bandIndex band = spectrum'.bandIndex band := by
  unfold bandIndex mid
  rw [h]

namespace BandModel

variable {model : BandModel ℝ} {solve : Solver ℝ} {band : ℤ} {k : KPoint ℝ} {level : Level ℝ}

/-- The state of a band that is solved is that of its level. -/
theorem SolvesBand.stateAt_eq (h : model.SolvesBand solve band k level) :
    stateAt model solve band k = .ok level.state := by
  obtain ⟨spectrum, index, hspectrum, -, hindex, hlevel⟩ := h.found
  refine bind_eq_ok.mpr ⟨spectrum, hspectrum, bind_eq_ok.mpr ⟨index, hindex, ?_⟩⟩
  rw [Spectrum.state, hlevel]
  rfl

section

variable {v : KPoint ℝ} {d : Fin model.dimension → ℂ} {level' : Level ℝ}
  (hsquare : ∀ k, (model.hamiltonian k).nrows = model.dimension) (hperiodic : model.Periodic v d)
  (h : model.SolvesBand solve band k level) (h' : model.SolvesBand solve band (k + v) level')

include hsquare hperiodic h h'

/-- A step that conjugates the Hamiltonian keeps the energy of the band. -/
theorem SolvesBand.energy_eq : level'.energy = level.energy := by
  obtain ⟨spectrum, index, hspectrum, henergies, hindex, hlevel⟩ := h.found
  obtain ⟨spectrum', index', hspectrum', henergies', hindex', hlevel'⟩ := h'.found
  -- The two lists of energies are in order and belong to one characteristic polynomial, and the
  -- index of the band depends on their length alone.
  have hcharpoly := charpoly_conj (diagonal_mem_unitaryGroup hperiodic.norm_eq)
    ((model.hamiltonian k).toMatrix model.dimension)
  rw [← hperiodic.hamiltonian_add] at hcharpoly
  have hsame : spectrum'.energies = spectrum.energies :=
    Spectrum.energies_eq_of_charpoly_eq hspectrum' hspectrum henergies' henergies (hsquare _)
      (hsquare _) hcharpoly
  have hsize : spectrum'.size = spectrum.size := by
    have hlength := congrArg List.length hsame
    simpa [Spectrum.energies, Spectrum.size] using hlength
  rw [Spectrum.bandIndex_congr hsize, hindex] at hindex'
  cases hindex'
  have hentry := congrArg (·[index]?) hsame
  simpa [Spectrum.energies, hlevel, hlevel'] using hentry

/-- A step that conjugates the Hamiltonian moves the state of a simple band, up to a phase. -/
theorem SolvesBand.exists_gauge
    (hsimple : IsSimple ((model.hamiltonian k).toMatrix model.dimension) level.energy) :
    ∃ c : Circle, level'.state.toVec model.dimension =
      gauge c d (level.state.toVec model.dimension) := by
  have heigen := h'.isEigen.eigen
  rw [SolvesBand.energy_eq hsquare hperiodic h h'] at heigen
  exact hsimple.exists_gauge hperiodic.norm_eq (hperiodic.hamiltonian_add k) h.isEigen.eigen
    h.isEigen.unit heigen h'.isEigen.unit

/-- A step that conjugates the Hamiltonian keeps a simple band simple. -/
theorem SolvesBand.isSimple_add
    (hsimple : IsSimple ((model.hamiltonian k).toMatrix model.dimension) level.energy) :
    IsSimple ((model.hamiltonian (k + v)).toMatrix model.dimension) level'.energy := by
  rw [SolvesBand.energy_eq hsquare hperiodic h h']
  exact hsimple.conj hperiodic.norm_eq (hperiodic.hamiltonian_add k)

end

end BandModel

end Moire
