import Mathlib
import Moire.Proofs.ComplexMatrix
import Moire.Proofs.Sorting
import Moire.Spectrum.Basic

/-!
# Exact spectra

A solver finds the energies of a Hamiltonian when it returns the roots of the characteristic
polynomial with their multiplicities, `Solver.FindsEnergies`. The order of the levels is then the
library's own, so a characteristic polynomial fixes the whole list of energies: two Hamiltonians
that share one have the same bands, `Spectrum.energies_eq_of_charpoly_eq`.
-/

namespace Moire

open Matrix Polynomial RealScalar

/-! ## Energies -/

/-- Over the reals every matrix is finite. -/
theorem CMatrix.isFinite_real (m : CMatrix ℝ) : m.isFinite = true := by
  simp [CMatrix.isFinite, Cplx.isFinite]

/-- The energies of the levels are the eigenvalues of the Hamiltonian with their multiplicities. -/
def CMatrix.HasEnergies (h : CMatrix ℝ) (levels : List (Level ℝ)) : Prop :=
  (h.toMatrix h.nrows).charpoly = (levels.map fun level ↦ X - C (level.energy : ℂ)).prod

/-- The solver finds the energies of a Hamiltonian. -/
def Solver.FindsEnergies (solve : Solver ℝ) (h : CMatrix ℝ) : Prop :=
  ∃ levels, solve h = some levels ∧ h.HasEnergies levels

/-- The order of the levels does not matter. -/
theorem CMatrix.HasEnergies.perm {h : CMatrix ℝ} {levels levels' : List (Level ℝ)}
    (henergies : h.HasEnergies levels) (hperm : levels'.Perm levels) : h.HasEnergies levels' :=
  henergies.trans (hperm.map _).prod_eq.symm

namespace Spectrum

/-- A Hamiltonian has a spectrum if it is square and has rows and the solver returns levels. -/
theorem ofHamiltonian_eq_ok {solve : Solver ℝ} {h : CMatrix ℝ} {spectrum : Spectrum ℝ} :
    ofHamiltonian solve h = .ok spectrum ↔ h.nrows = h.ncols ∧ h.nrows ≠ 0 ∧
      ∃ levels, solve h = some levels ∧
        spectrum = ⟨(Number.sortBy Level.energy levels).toArray⟩ := by
  unfold ofHamiltonian
  by_cases hsquare : h.nrows = h.ncols
  · by_cases hempty : h.nrows = 0
    · simp only [hsquare ▸ hempty, hempty, h.isFinite_real]
      exact iff_of_false nofun fun hok ↦ hok.2.1 rfl
    · simp only [hsquare, hsquare ▸ hempty, h.isFinite_real, ne_eq, not_true_eq_false, if_false,
        Bool.not_true, Bool.false_eq_true, not_false_eq_true, true_and]
      cases solve h with
      | none => exact iff_of_false nofun nofun
      | some levels =>
          constructor
          · intro hok
            cases hok
            exact ⟨levels, rfl, rfl⟩
          · rintro ⟨_, hlevels, rfl⟩
            cases hlevels
            rfl
  · simp only [ne_eq, hsquare, not_false_eq_true, if_true, false_and, iff_false]
    exact nofun

/-- The zeros of a product of linear factors are known up to their order. -/
theorem perm_of_prod_eq {values values' : List ℝ}
    (hprod : (values.map fun x : ℝ ↦ X - C (x : ℂ)).prod =
      (values'.map fun x : ℝ ↦ X - C (x : ℂ)).prod) : values.Perm values' := by
  have hroots : ∀ zeros : List ℝ, (zeros.map fun x : ℝ ↦ X - C (x : ℂ)).prod.roots =
      ((zeros.map fun x : ℝ ↦ (x : ℂ) : List ℂ) : Multiset ℂ) := by
    intro zeros
    have hroots := roots_multiset_prod_X_sub_C
      ((zeros.map fun x : ℝ ↦ (x : ℂ) : List ℂ) : Multiset ℂ)
    rwa [Multiset.map_coe, Multiset.prod_coe, List.map_map] at hroots
  have hcomplex : (values.map fun x : ℝ ↦ (x : ℂ)).Perm (values'.map fun x : ℝ ↦ (x : ℂ)) := by
    rw [← Multiset.coe_eq_coe, ← hroots, ← hroots, hprod]
  have hreal := hcomplex.map Complex.re
  simpa [List.map_map, Function.comp_def] using hreal

/-- The energies of a Hamiltonian are the zeros of its characteristic polynomial. -/
theorem energies_perm {h : CMatrix ℝ} {levels : List (Level ℝ)}
    (henergies : h.HasEnergies levels) {values : List ℝ}
    (hcharpoly : (h.toMatrix h.nrows).charpoly = (values.map fun x : ℝ ↦ X - C (x : ℂ)).prod) :
    (levels.map Level.energy).Perm values := by
  refine perm_of_prod_eq ?_
  rw [List.map_map, ← hcharpoly]
  exact henergies.symm

/-- Two lists of levels in ascending order with the same polynomial have the same energies. -/
theorem map_energy_eq {levels levels' : List (Level ℝ)}
    (hsorted : levels.Pairwise fun a b ↦ a.energy ≤ b.energy)
    (hsorted' : levels'.Pairwise fun a b ↦ a.energy ≤ b.energy)
    (hprod : (levels.map fun level ↦ X - C (level.energy : ℂ)).prod =
      (levels'.map fun level ↦ X - C (level.energy : ℂ)).prod) :
    levels.map Level.energy = levels'.map Level.energy := by
  have hperm : (levels.map Level.energy).Perm (levels'.map Level.energy) := by
    refine perm_of_prod_eq ?_
    rwa [List.map_map, List.map_map]
  exact List.Perm.eq_of_pairwise (fun a b _ _ hab hba ↦ le_antisymm hab hba)
    (List.pairwise_map.mpr hsorted) (List.pairwise_map.mpr hsorted') hperm

/-- The levels of a spectrum are in ascending order. -/
theorem sorted_of_ofHamiltonian {solve : Solver ℝ} {h : CMatrix ℝ} {spectrum : Spectrum ℝ}
    (hspectrum : ofHamiltonian solve h = .ok spectrum) :
    spectrum.levels.toList.Pairwise fun a b ↦ a.energy ≤ b.energy := by
  obtain ⟨-, -, levels, -, rfl⟩ := ofHamiltonian_eq_ok.mp hspectrum
  exact Number.sortBy_sorted Level.energy levels

/-- Hamiltonians with the same characteristic polynomial have the same energies, in order. -/
theorem energies_eq_of_charpoly_eq {solve : Solver ℝ} {n : ℕ} {h h' : CMatrix ℝ}
    {spectrum spectrum' : Spectrum ℝ} (hspectrum : ofHamiltonian solve h = .ok spectrum)
    (hspectrum' : ofHamiltonian solve h' = .ok spectrum')
    (henergies : h.HasEnergies spectrum.levels.toList)
    (henergies' : h'.HasEnergies spectrum'.levels.toList)
    (hnrows : h.nrows = n) (hnrows' : h'.nrows = n)
    (hcharpoly : (h.toMatrix n).charpoly = (h'.toMatrix n).charpoly) :
    spectrum.energies = spectrum'.energies := by
  refine map_energy_eq (sorted_of_ofHamiltonian hspectrum) (sorted_of_ofHamiltonian hspectrum') ?_
  rw [← henergies, ← henergies', hnrows, hnrows', hcharpoly]

/-- A solver that finds the energies of a square Hamiltonian gives its spectrum. -/
theorem exists_spectrum {solve : Solver ℝ} {h : CMatrix ℝ} (hsquare : h.nrows = h.ncols)
    (hnonempty : h.nrows ≠ 0) (hfinds : solve.FindsEnergies h) :
    ∃ spectrum, ofHamiltonian solve h = .ok spectrum ∧ h.HasEnergies spectrum.levels.toList := by
  obtain ⟨levels, hsolve, henergies⟩ := hfinds
  exact ⟨_, ofHamiltonian_eq_ok.mpr ⟨hsquare, hnonempty, levels, hsolve, rfl⟩,
    henergies.perm (Number.sortBy_perm Level.energy levels)⟩

end Spectrum

end Moire
