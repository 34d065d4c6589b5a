import Mathlib
import Moire.Proofs.RankedNumbers
import Moire.Proofs.Sorting
import Moire.Spectrum.Basic

/-!
# Levels that are sorted with their states

A solver returns energies and states in any order. In a spectrum they are in ascending order of the
energies, each energy with its state, and levels of one energy stand as the solver returned them,
`Spectrum.Arranges`. This is what one gets from sorting the indices of the levels and picking first
the energies and then the states by them, `sortBy_energy_eq`. So every state of the spectrum is
stationary for the energy at its index if all levels of the solver are stationary. What else can
happen to a Hamiltonian is listed in `Spectrum.ofHamiltonian_cases`.
-/

namespace Moire

variable {α : Type} [Number α]

/-- The Hamiltonian takes the state of the level to its multiple by the energy. -/
def Level.IsStationary (level : Level α) (h : CMatrix α) : Prop :=
  h.apply level.state = level.state.map (Cplx.scale level.energy)

/-- Some entry of the matrix is not finite. -/
def CMatrix.HasNonfinite (h : CMatrix α) : Prop := ∃ row ∈ h.rows, ∃ z ∈ row, z.isFinite = false

/-- A matrix is finite just if none of its entries is not. -/
theorem CMatrix.isFinite_iff {h : CMatrix α} : h.isFinite = true ↔ ¬ h.HasNonfinite := by
  simp only [CMatrix.isFinite, CMatrix.HasNonfinite, Array.all_eq_true_iff_forall_mem, not_exists,
    not_and, Bool.not_eq_false]

/-! ## Sorting by indices -/

/-- The indices of levels in ascending order of the energies. -/
def levelOrder (levels : List (Level α)) : List ℕ :=
  Number.sortBy (fun i ↦ (levels.map Level.energy).getD i 0) (List.range levels.length)

/-- The level that is put together from the energy and the state at an index. -/
def levelAt (levels : List (Level α)) (i : ℕ) : Level α :=
  ⟨(levels.map Level.energy).getD i 0, (levels.map Level.state).getD i #[]⟩

/-- The levels are listed by their indices. -/
theorem map_levelAt_range (levels : List (Level α)) :
    (List.range levels.length).map (levelAt levels) = levels := by
  refine List.ext_getElem? fun i ↦ ?_
  by_cases hi : i < levels.length
  · rw [List.getElem?_map, List.getElem?_range hi, List.getElem?_eq_getElem hi]
    simp [levelAt, hi]
  · rw [List.getElem?_eq_none (by simpa using hi), List.getElem?_eq_none (not_lt.mp hi)]

/-- Sorting levels is the same as picking them by their sorted indices. -/
theorem sortBy_energy_eq (levels : List (Level α)) :
    Number.sortBy Level.energy levels = (levelOrder levels).map (levelAt levels) := by
  conv_lhs => rw [← map_levelAt_range levels]
  exact Number.sortBy_comp Level.energy (levelAt levels) _

/-! ## Spectra -/

namespace Spectrum

/-- The spectrum holds the levels of a solver, all of them, from the lowest energy to the highest.
Levels of one energy are in the order of the solver, and energies and states are picked by the same
indices. -/
structure Arranges (spectrum : Spectrum α) (levels : List (Level α)) : Prop where
  perm : spectrum.levels.toList.Perm levels
  ascending : spectrum.energies.Pairwise fun a b ↦ Number.le a b = true
  stable : ∀ e, Number.isNumber e = true →
    spectrum.levels.toList.filter (fun level ↦ Number.eq level.energy e) =
      levels.filter fun level ↦ Number.eq level.energy e
  energies_eq : spectrum.energies =
    (levelOrder levels).map fun i ↦ (levels.map Level.energy).getD i 0
  states_eq : spectrum.levels.toList.map Level.state =
    (levelOrder levels).map fun i ↦ (levels.map Level.state).getD i #[]

/-- Sorted levels are arranged if their energies are numbers. -/
theorem arranges_sortBy [Number.Ranked α] {levels : List (Level α)}
    (hnumber : ∀ level ∈ levels, Number.isNumber level.energy = true) :
    Arranges ⟨(Number.sortBy Level.energy levels).toArray⟩ levels where
  perm := Number.sortBy_perm Level.energy levels
  ascending := by
    have hdecides : Number.Decides Level.energy
        (fun level : Level α ↦ Number.isNumber level.energy = true)
        (fun a b ↦ Number.le b.energy a.energy = true) := by
      refine ⟨fun hx hy hz hxy hyz ↦ ?_, fun hx hy hlt ↦ ?_, fun hx hy hlt ↦ ?_⟩
      · exact Number.Ranked.le_trans hz hy hx hyz hxy
      · exact Number.Ranked.le_of_lt hx hy hlt
      · exact Number.Ranked.le_of_not_lt hx hy hlt
    exact List.pairwise_map.mpr (hdecides.sortBy hnumber)
  stable e he := by
    refine Number.filter_sortBy Level.energy fun x hx y hy hxe hye ↦ ?_
    exact Number.Ranked.not_lt_of_eq (hnumber x hx) (hnumber y hy) he hxe hye
  energies_eq := by
    show (Number.sortBy Level.energy levels).map Level.energy = _
    rw [sortBy_energy_eq, List.map_map]
    rfl
  states_eq := by
    show (Number.sortBy Level.energy levels).map Level.state = _
    rw [sortBy_energy_eq, List.map_map]
    rfl

/-- A property of all levels of a solver is one of the energy and the state at every index. -/
theorem Arranges.at_index {spectrum : Spectrum α} {levels : List (Level α)}
    (h : spectrum.Arranges levels) {P : Level α → Prop} (hlevels : ∀ level ∈ levels, P level)
    {i : ℕ} (hi : i < spectrum.size) : P ⟨spectrum.energy i, spectrum.state i⟩ := by
  unfold size at hi
  have hlevel : (⟨spectrum.energy i, spectrum.state i⟩ : Level α) = spectrum.levels[i] := by
    simp [energy, state, hi]
  rw [hlevel]
  exact hlevels _ (h.perm.mem_iff.mp (Array.getElem_mem_toList hi))

/-- What becomes of a Hamiltonian. -/
theorem ofHamiltonian_cases (solve : Solver α) (h : CMatrix α) :
    (h.nrows ≠ h.ncols ∧
      ofHamiltonian solve h = fail (.dimensionMismatch "Hamiltonian" h.nrows h.ncols)) ∨
    (h.nrows = h.ncols ∧ h.HasNonfinite ∧ ofHamiltonian solve h =
      fail (.numerical .assembly "Hamiltonian has non-finite entries")) ∨
    (h.nrows = h.ncols ∧ ¬ h.HasNonfinite ∧ h.nrows = 0 ∧
      ofHamiltonian solve h = breakDown .emptyMatrix) ∨
    (h.nrows = h.ncols ∧ ¬ h.HasNonfinite ∧ h.nrows ≠ 0 ∧ solve h = none ∧
      ofHamiltonian solve h =
        fail (.numerical .eigen s!"no convergence for a {h.nrows}x{h.nrows} Hamiltonian")) ∨
    (h.nrows = h.ncols ∧ ¬ h.HasNonfinite ∧ h.nrows ≠ 0 ∧ ∃ levels, solve h = some levels ∧
      ofHamiltonian solve h = .ok ⟨(Number.sortBy Level.energy levels).toArray⟩) := by
  unfold ofHamiltonian
  by_cases hsquare : h.nrows = h.ncols
  · rw [if_neg (not_not.mpr hsquare)]
    by_cases hfinite : h.isFinite = true
    · have hnone := CMatrix.isFinite_iff.mp hfinite
      rw [hfinite]
      by_cases hempty : h.nrows = 0
      · refine Or.inr (Or.inr (Or.inl ⟨hsquare, hnone, hempty, ?_⟩))
        rw [if_pos hempty]
        rfl
      · rw [if_neg hempty]
        cases hsolve : solve h with
        | none => exact Or.inr (Or.inr (Or.inr (Or.inl ⟨hsquare, hnone, hempty, rfl, rfl⟩)))
        | some levels =>
            exact Or.inr (Or.inr (Or.inr (Or.inr ⟨hsquare, hnone, hempty, levels, rfl, rfl⟩)))
    · have hsome : h.HasNonfinite := not_not.mp (mt CMatrix.isFinite_iff.mpr hfinite)
      rw [Bool.not_eq_true] at hfinite
      rw [hfinite]
      exact Or.inr (Or.inl ⟨hsquare, hsome, rfl⟩)
  · rw [if_pos hsquare]
    exact Or.inl ⟨hsquare, rfl⟩

/-- The refusals of a Hamiltonian, each with its cause. -/
theorem ofHamiltonian_refusals (solve : Solver α) (h : CMatrix α) :
    ((∃ context expected found,
        ofHamiltonian solve h = fail (.dimensionMismatch context expected found)) ↔
      h.nrows ≠ h.ncols) ∧
    ((∃ reason, ofHamiltonian solve h = fail (.numerical .assembly reason)) ↔
      h.nrows = h.ncols ∧ h.HasNonfinite) ∧
    ((∃ reason, ofHamiltonian solve h = fail (.numerical .eigen reason)) ↔
      h.nrows = h.ncols ∧ ¬ h.HasNonfinite ∧ h.nrows ≠ 0 ∧ solve h = none) := by
  obtain ⟨hshape, hrun⟩ | ⟨hsquare, hsome, hrun⟩ | ⟨hsquare, hnone, hempty, hrun⟩ |
    ⟨hsquare, hnone, hne, hsolve, hrun⟩ | ⟨hsquare, hnone, hne, levels, hsolve, hrun⟩ :=
      ofHamiltonian_cases solve h
  · simp [hrun, fail, hshape]
  · simp [hrun, fail, hsquare, hsome]
  · simp [hrun, fail, breakDown, ← hsquare, hnone, hempty]
  · simp [hrun, fail, ← hsquare, hnone, hne, hsolve]
  · simp [hrun, fail, ← hsquare, hnone, hsolve]

/-- A Hamiltonian is refused for its shape if it is not square, for its entries if they are not
finite, and for its solver if that gives up. Otherwise, unless it is empty, its spectrum has the
levels of the solver in ascending order, and the state at every index is stationary for the energy
at that index if all levels of the solver are stationary. -/
theorem ofHamiltonian_pairs [Number.Ranked α] (solve : Solver α) (h : CMatrix α) :
    ((∃ context expected found,
        ofHamiltonian solve h = fail (.dimensionMismatch context expected found)) ↔
      h.nrows ≠ h.ncols) ∧
    ((∃ reason, ofHamiltonian solve h = fail (.numerical .assembly reason)) ↔
      h.nrows = h.ncols ∧ h.HasNonfinite) ∧
    ((∃ reason, ofHamiltonian solve h = fail (.numerical .eigen reason)) ↔
      h.nrows = h.ncols ∧ ¬ h.HasNonfinite ∧ h.nrows ≠ 0 ∧ solve h = none) ∧
    ∀ levels, h.nrows = h.ncols → ¬ h.HasNonfinite → h.nrows ≠ 0 → solve h = some levels →
      (∀ level ∈ levels, Number.isNumber level.energy = true) →
      (∀ level ∈ levels, level.IsStationary h) →
      ∃ spectrum, ofHamiltonian solve h = .ok spectrum ∧ spectrum.Arranges levels ∧
        ∀ i < spectrum.size, h.apply (spectrum.state i) =
          (spectrum.state i).map (Cplx.scale (spectrum.energy i)) := by
  obtain ⟨hshape, hentries, hsolver⟩ := ofHamiltonian_refusals solve h
  refine ⟨hshape, hentries, hsolver, fun levels hsquare hfinite hne hsolve hnumber hstationary ↦ ?_⟩
  obtain ⟨hother, -⟩ | ⟨-, hother, -⟩ | ⟨-, -, hother, -⟩ | ⟨-, -, -, hother, -⟩ |
    ⟨-, -, -, found, hfound, hok⟩ := ofHamiltonian_cases solve h
  · exact absurd hsquare hother
  · exact absurd hother hfinite
  · exact absurd hother hne
  · cases hsolve.symm.trans hother
  · cases hsolve.symm.trans hfound
    have harranges := arranges_sortBy hnumber
    exact ⟨_, hok, harranges, fun i hi ↦ harranges.at_index hstationary hi⟩

/-- Three orbitals that are not coupled, the one in the middle lower than the others. -/
def threeOrbitals : CMatrix Float :=
  CMatrix.ofFn 3 3 fun i j ↦ if i ≠ j then ⟨0, 0⟩ else if i = 1 then ⟨1, 0⟩ else ⟨2, 0⟩

/-- The levels of the three orbitals in the order of the orbitals. -/
def threeLevels : List (Level Float) :=
  [⟨2, #[⟨1, 0⟩, ⟨0, 0⟩, ⟨0, 0⟩]⟩, ⟨1, #[⟨0, 0⟩, ⟨1, 0⟩, ⟨0, 0⟩]⟩, ⟨2, #[⟨0, 0⟩, ⟨0, 0⟩, ⟨1, 0⟩]⟩]

/-- The lower level comes first, and the two others stay in their order. -/
theorem ofHamiltonian_pairs_three :
    (threeOrbitals.nrows = threeOrbitals.ncols ∧ ¬ threeOrbitals.HasNonfinite ∧
      threeOrbitals.nrows ≠ 0 ∧ (∀ level ∈ threeLevels, Number.isNumber level.energy = true) ∧
      ∀ level ∈ threeLevels, level.IsStationary threeOrbitals) ∧
    ∃ spectrum, ofHamiltonian (fun _ ↦ some threeLevels) threeOrbitals = .ok spectrum ∧
      spectrum.energies = [1, 2, 2] ∧
      spectrum.levels.toList.filter (fun level ↦ Number.eq level.energy 2) =
        threeLevels.filter (fun level ↦ Number.eq level.energy 2) ∧
      ∀ i < spectrum.size, threeOrbitals.apply (spectrum.state i) =
        (spectrum.state i).map (Cplx.scale (spectrum.energy i)) := by
  have hfinite : ¬ threeOrbitals.HasNonfinite := CMatrix.isFinite_iff.mp (by decide +kernel)
  have hnumber : ∀ level ∈ threeLevels, Number.isNumber level.energy = true := by
    decide +kernel
  have hstationary : ∀ level ∈ threeLevels, level.IsStationary threeOrbitals := by
    unfold Level.IsStationary
    decide +kernel
  obtain ⟨-, -, -, hpairs⟩ := ofHamiltonian_pairs (fun _ ↦ some threeLevels) threeOrbitals
  obtain ⟨spectrum, hok, harranges, heach⟩ :=
    hpairs threeLevels rfl hfinite (by decide) rfl hnumber hstationary
  have henergies : spectrum.energies = [1, 2, 2] := harranges.energies_eq.trans rfl
  exact ⟨⟨rfl, hfinite, by decide, hnumber, hstationary⟩, spectrum, hok, henergies,
    harranges.stable 2 (by decide +kernel), heach⟩

end Spectrum

end Moire
