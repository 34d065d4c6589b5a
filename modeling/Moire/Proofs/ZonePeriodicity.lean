import Moire.Proofs.ExactSpectrum
import Moire.Proofs.MinimumImage

/-!
# The zone of the tight-binding model

The reciprocal vectors of the supercell are dual to the superlattice, `Supercell.create_dual`, so a
reciprocal vector turns congruent displacements by the same phase. A Hamiltonian entry depends on
the wave vector through the phase of the displacement of its pair, which is congruent to the
difference of the two atoms. A step by a reciprocal vector therefore multiplies each entry by the
phases of its atoms, `Model.pairEntry_shift`, and `hamiltonian_zone_periodic` says so for the whole
matrix: it is conjugated by the diagonal matrix of these phases, and the bands stay where they are.
-/

namespace Moire

open Matrix RealScalar

/-! ## The reciprocal lattice -/

theorem Vec2.dot_combine (p b₁ b₂ : Vec2 ℝ) (x y : ℝ) :
    p.dot (combine b₁ b₂ x y) = p.dot b₁ * x + p.dot b₂ * y := by
  simp only [dot, combine_x, combine_y]
  ring

theorem Vec2.combine_dot (b₁ b₂ p : Vec2 ℝ) (x y : ℝ) :
    (combine b₁ b₂ x y).dot p = b₁.dot p * x + b₂.dot p * y := by
  simp only [dot, combine_x, combine_y]
  ring

theorem Vec2.div_dot (p q : Vec2 ℝ) (x : ℝ) : (p / x).dot q = p.dot q / x := by
  simp only [dot, div_x, div_y]
  ring

theorem Vec2.add_dot (p q s : Vec2 ℝ) : (p + q).dot s = p.dot s + q.dot s := by
  simp only [dot, add_x, add_y]
  ring

/-- The phase by which a wave vector turns a point of the plane. -/
noncomputable def Vec2.phase (g p : Vec2 ℝ) : ℂ := Complex.exp (g.dot p * Complex.I)

/-- Phases have norm one. -/
theorem Vec2.norm_phase (g p : Vec2 ℝ) : ‖g.phase p‖ = 1 :=
  Complex.norm_exp_ofReal_mul_I _

/-- The conjugate of a phase has the opposite angle. -/
theorem Vec2.star_phase (g p : Vec2 ℝ) : star (g.phase p) = Complex.exp (-g.dot p * Complex.I) := by
  rw [phase, Complex.star_def, ← Complex.exp_conj]
  simp

/-- Phases of a sum of wave vectors multiply. -/
theorem Vec2.add_phase (g k p : Vec2 ℝ) : (g + k).phase p = g.phase p * k.phase p := by
  rw [phase, phase, phase, ← Complex.exp_add, add_dot]
  push_cast
  ring_nf

/-- The phase of a difference of places is that of the first times the conjugate of the second. -/
theorem Vec2.phase_sub (g p q : Vec2 ℝ) : g.phase (p - q) = g.phase p * star (g.phase q) := by
  have hdot : g.dot (p - q) = g.dot p - g.dot q := by
    simp only [dot, sub_x, sub_y]
    ring
  rw [star_phase, phase, phase, ← Complex.exp_add, hdot]
  push_cast
  ring_nf

namespace Supercell

/-- The first reciprocal vector of the bottom layer. -/
noncomputable def reciprocal₁ (a0 : ℝ) : Vec2 ℝ := (⟨1 / √3, -1⟩ : Vec2 ℝ) * (2 * Real.pi / a0)

/-- The second reciprocal vector of the bottom layer. -/
noncomputable def reciprocal₂ (a0 : ℝ) : Vec2 ℝ := (⟨1 / √3, 1⟩ : Vec2 ℝ) * (2 * Real.pi / a0)

variable {m0 r : ℕ} {a0 : ℝ}

/-- The first reciprocal vector of the superlattice, from the label of the bottom layer. -/
theorem create_g₁ : (create m0 r a0).g₁ =
    Vec2.combine (reciprocal₁ a0) (reciprocal₂ a0)
      ((bottomLabel m0 r).i + (bottomLabel m0 r).j) (bottomLabel m0 r).j /
        ((bottomLabel m0 r).form : ℝ) := by
  unfold LatticeIndex.form
  by_cases h : r % 3 = 0
  · obtain ⟨n, rfl⟩ := Nat.dvd_of_mod_eq_zero h
    have hg₁ : (create m0 (3 * n) a0).g₁ =
        Vec2.combine (reciprocal₁ a0) (reciprocal₂ a0)
          ((m0 : ℝ) + 2 * (((3 * n : ℕ) : ℝ) / 3)) (((3 * n : ℕ) : ℝ) / 3) /
        (m0 * m0 + m0 * (3 * n : ℕ) + (3 * n : ℕ) * (3 * n : ℕ) / 3 : ℝ) := by
      simp only [create, if_pos h, one_eq]
      rfl
    rw [hg₁, bottomLabel, if_pos h, Nat.mul_div_cancel_left n three_pos]
    congr 2 <;> push_cast <;> ring
  · have hg₁ : (create m0 r a0).g₁ =
        Vec2.combine (reciprocal₁ a0) (reciprocal₂ a0) (2 * m0 + r) (m0 + r) /
        (3 * m0 * m0 + 3 * m0 * r + r * r : ℝ) := by
      simp only [create, if_neg h, one_eq]
      rfl
    rw [hg₁, bottomLabel, if_neg h]
    congr 2 <;> push_cast <;> ring

/-- The second reciprocal vector of the superlattice, from the label of the bottom layer. -/
theorem create_g₂ : (create m0 r a0).g₂ =
    Vec2.combine (reciprocal₁ a0) (reciprocal₂ a0) (-(bottomLabel m0 r).j) (bottomLabel m0 r).i /
      ((bottomLabel m0 r).form : ℝ) := by
  unfold LatticeIndex.form
  by_cases h : r % 3 = 0
  · obtain ⟨n, rfl⟩ := Nat.dvd_of_mod_eq_zero h
    have hg₂ : (create m0 (3 * n) a0).g₂ =
        (-reciprocal₁ a0 * (((3 * n : ℕ) : ℝ) / 3) +
          reciprocal₂ a0 * ((m0 : ℝ) + ((3 * n : ℕ) : ℝ) / 3)) /
        (m0 * m0 + m0 * (3 * n : ℕ) + (3 * n : ℕ) * (3 * n : ℕ) / 3 : ℝ) := by
      simp only [create, if_pos h, one_eq]
      rfl
    rw [hg₂, bottomLabel, if_pos h, Nat.mul_div_cancel_left n three_pos]
    congr 1
    · ext <;> simp only [Vec2.add_x, Vec2.add_y, Vec2.mul_x, Vec2.mul_y, Vec2.neg_x, Vec2.neg_y,
        Vec2.combine_x, Vec2.combine_y] <;> push_cast <;> ring
    · push_cast
      ring
  · have hg₂ : (create m0 r a0).g₂ =
        (-reciprocal₁ a0 * (m0 + r : ℝ) + reciprocal₂ a0 * (m0 : ℝ)) /
        (3 * m0 * m0 + 3 * m0 * r + r * r : ℝ) := by
      simp only [create, if_neg h, one_eq]
      rfl
    rw [hg₂, bottomLabel, if_neg h]
    congr 1
    · ext <;> simp only [Vec2.add_x, Vec2.add_y, Vec2.mul_x, Vec2.mul_y, Vec2.neg_x, Vec2.neg_y,
        Vec2.combine_x, Vec2.combine_y] <;> push_cast <;> ring
    · push_cast
      ring

/-- The reciprocal vectors are dual to the vectors of the superlattice. -/
structure Dual (cell : Supercell ℝ) : Prop where
  g₁_r₁ : cell.g₁.dot cell.r₁ = 2 * Real.pi
  g₁_r₂ : cell.g₁.dot cell.r₂ = 0
  g₂_r₁ : cell.g₂.dot cell.r₁ = 0
  g₂_r₂ : cell.g₂.dot cell.r₂ = 2 * Real.pi

/-- Within a layer the two pairs of vectors are dual, and so are their combinations. -/
theorem combine_reciprocal_dot (m0 r : ℕ) (ha0 : a0 ≠ 0) (s t x y : ℝ) :
    (Vec2.combine (reciprocal₁ a0) (reciprocal₂ a0) s t).dot
      (Vec2.combine (create m0 r a0).a₁ (create m0 r a0).a₂ x y) =
        2 * Real.pi * (s * x + t * y) := by
  have hsqrt : √3 ≠ 0 := by positivity
  rw [create_a₁, create_a₂]
  simp only [Vec2.dot, Vec2.combine_x, Vec2.combine_y, reciprocal₁, reciprocal₂, Vec2.mul_x,
    Vec2.mul_y]
  field_simp
  ring

/-- The reciprocal vectors are dual to the sides of the cell. -/
theorem create_dual (hr : 1 ≤ r) (ha0 : a0 ≠ 0) : (create m0 r a0).Dual := by
  have hform : ((bottomLabel m0 r).form : ℝ) ≠ 0 := by
    exact_mod_cast (bottomLabel_form_pos hr).ne'
  have hdot : ∀ s t x y : ℝ,
      (Vec2.combine (reciprocal₁ a0) (reciprocal₂ a0) s t / ((bottomLabel m0 r).form : ℝ)).dot
        (Vec2.combine (create m0 r a0).a₁ (create m0 r a0).a₂ x y) =
          2 * Real.pi * (s * x + t * y) / (bottomLabel m0 r).form := by
    intro s t x y
    rw [← combine_reciprocal_dot m0 r ha0 s t x y, Vec2.div_dot]
  constructor
  all_goals
    simp only [create_g₁, create_g₂, create_r₁, create_r₂, hdot]
    rw [div_eq_iff hform]
    unfold LatticeIndex.form
    push_cast
    ring

/-- A vector that spans the zone in whole steps. -/
noncomputable def zoneStep (cell : Supercell ℝ) (a b : ℤ) : Vec2 ℝ :=
  (cell.g₁ + cell.g₂) * (a : ℝ) + cell.g₂ * (b : ℝ)

variable {cell : Supercell ℝ}

/-- A step of the zone meets a superlattice vector in a whole number of turns. -/
theorem Dual.zoneStep_dot_combine (h : cell.Dual) (a b c d : ℤ) :
    (cell.zoneStep a b).dot (Vec2.combine cell.r₁ cell.r₂ c d) =
      (a * c + (a + b) * d : ℤ) * (2 * Real.pi) := by
  have hstep : cell.zoneStep a b = Vec2.combine cell.g₁ cell.g₂ a (a + b) := by
    ext <;> simp only [zoneStep, Vec2.add_x, Vec2.add_y, Vec2.mul_x, Vec2.mul_y, Vec2.combine_x,
      Vec2.combine_y] <;> ring
  rw [hstep, Vec2.combine_dot, Vec2.dot_combine, Vec2.dot_combine, h.g₁_r₁, h.g₁_r₂, h.g₂_r₁,
    h.g₂_r₂]
  push_cast
  ring

/-- Congruent points are turned by the same phase. -/
theorem Dual.phase_eq (h : cell.Dual) (a b : ℤ) {p q : Vec3 ℝ} (hcongruent : cell.Congruent p q) :
    (cell.zoneStep a b).phase q.planar = (cell.zoneStep a b).phase p.planar := by
  obtain ⟨c, d, rfl⟩ := hcongruent
  have hdot : (cell.zoneStep a b).dot (p + (Vec2.combine cell.r₁ cell.r₂ c d).lift 0).planar =
      (cell.zoneStep a b).dot p.planar + (a * c + (a + b) * d : ℤ) * (2 * Real.pi) := by
    rw [← h.zoneStep_dot_combine]
    simp only [Vec2.dot, Vec3.planar, Vec2.lift, Vec3.add_x, Vec3.add_y]
    ring
  rw [Vec2.phase, Vec2.phase, Complex.exp_eq_exp_iff_exists_int]
  refine ⟨a * c + (a + b) * d, ?_⟩
  rw [hdot]
  push_cast
  ring

end Supercell

/-! ## The Hamiltonian -/

namespace TightBinding

namespace Model

variable {model : Model ℝ}
  (hhoppings : model.hoppings = pairHoppings model.params model.cell model.atoms)

include hhoppings

/-- The entry of a pair carries the phase of the shortest image of its displacement. -/
theorem pairEntry_eq (k : KPoint ℝ) {i j : ℕ} (hij : i < j) (hj : j < model.atoms.size) :
    let d := shortestImage model.cell.translations (model.atoms[j] - model.atoms[i])
    (model.pairEntry k i j).toComplex =
      (hoppingAlong model.params d).amplitude * star (k.phase d.planar) := by
  intro d
  rw [pairEntry, hhoppings, pairHoppings_getElem? model.params model.cell model.atoms hij hj,
    Vec2.star_phase]
  simp only [Cplx.toComplex_polar, Complex.ofReal_neg]
  rfl

/-- A step of the zone turns the entry of a pair by the phases of its atoms. -/
theorem pairEntry_shift (hdual : model.cell.Dual) (k : KPoint ℝ) (a b : ℤ) {i j : ℕ}
    (hij : i < j) (hj : j < model.atoms.size) :
    (model.pairEntry (k + model.cell.zoneStep a b) i j).toComplex =
      (model.cell.zoneStep a b).phase model.atoms[i].planar * (model.pairEntry k i j).toComplex *
        star ((model.cell.zoneStep a b).phase model.atoms[j].planar) := by
  -- The shortest image is congruent to the displacement of the atoms, so that its phase is theirs.
  rw [pairEntry_eq hhoppings k hij hj, pairEntry_eq hhoppings (k + model.cell.zoneStep a b) hij hj,
    Vec2.add_phase, hdual.phase_eq a b (model.cell.congruent_shortestImage _)]
  have hplanar : (model.atoms[j] - model.atoms[i]).planar =
      model.atoms[j].planar - model.atoms[i].planar := rfl
  rw [hplanar, Vec2.phase_sub, star_mul, star_mul, star_star]
  ring

/-- A step of the zone conjugates the Hamiltonian by the phases of the atoms. -/
theorem hamiltonian_shift (hdual : model.cell.Dual) (k : KPoint ℝ) (a b : ℤ) :
    (model.hamiltonian (k + model.cell.zoneStep a b)).toMatrix model.atoms.size =
      diagonal (fun j : Fin model.atoms.size ↦
        (model.cell.zoneStep a b).phase (model.atoms[j]).planar) *
        (model.hamiltonian k).toMatrix model.atoms.size *
        (diagonal fun j : Fin model.atoms.size ↦
          (model.cell.zoneStep a b).phase (model.atoms[j]).planar)ᴴ := by
  ext i j
  rw [diagonal_conjTranspose, mul_diagonal, diagonal_mul, CMatrix.toMatrix_apply,
    CMatrix.toMatrix_apply, hamiltonian, hamiltonian, CMatrix.get_ofFn i.isLt j.isLt,
    CMatrix.get_ofFn i.isLt j.isLt]
  -- Above the diagonal there are the entries of pairs, below it their conjugates.
  rcases lt_trichotomy i.val j.val with hij | hij | hij
  · rw [if_pos hij, if_pos hij, pairEntry_shift hhoppings hdual k a b hij j.isLt]
    rfl
  · rw [if_neg hij.not_lt, if_neg hij.not_gt, if_neg hij.not_lt, if_neg hij.not_gt]
    simp
  · rw [if_neg hij.not_gt, if_pos hij, if_neg hij.not_gt, if_pos hij, Cplx.toComplex_conj,
      Cplx.toComplex_conj, pairEntry_shift hhoppings hdual k a b hij i.isLt, star_mul, star_mul,
      star_star, ← mul_assoc]
    rfl

end Model

/-- A step by a vector of the reciprocal lattice conjugates the Hamiltonian of a model that was
built by the diagonal matrix of the phases of its atoms. The two matrices have the same
characteristic polynomial, so that a solver that finds the energies finds the same ones at both
points. -/
theorem hamiltonian_zone_periodic (params : Params ℝ) {model : Model ℝ}
    (hmodel : Model.create params = .ok model) (k : KPoint ℝ) (a b : ℤ) :
    let bands := model.toBandModel
    let n := model.atoms.size
    let step : KPoint ℝ := bands.gridVectors.1 * (a : ℝ) + bands.gridVectors.2 * (b : ℝ)
    let phases : Matrix (Fin n) (Fin n) ℂ :=
      diagonal fun j : Fin model.atoms.size ↦
        Complex.exp (Complex.I * step.dot (model.atoms[j]).planar)
    (∀ q, (bands.hamiltonian q).nrows = n ∧ (bands.hamiltonian q).ncols = n) ∧
      phases ∈ unitaryGroup (Fin n) ℂ ∧
      (bands.hamiltonian (k + step)).toMatrix n =
        phases * (bands.hamiltonian k).toMatrix n * phasesᴴ ∧
      ((bands.hamiltonian (k + step)).toMatrix n).charpoly =
        ((bands.hamiltonian k).toMatrix n).charpoly ∧
      ∀ solve : Solver ℝ, solve.FindsEnergies (bands.hamiltonian k) →
        solve.FindsEnergies (bands.hamiltonian (k + step)) →
        ∃ spectrum spectrum', bands.spectrum solve k = .ok spectrum ∧
          bands.spectrum solve (k + step) = .ok spectrum' ∧
          spectrum.energies = spectrum'.energies := by
  obtain ⟨hvalid, target, lattice, atoms, -, -, hatoms, hcount, rfl⟩ := Model.create_eq_ok hmodel
  intro bands n step phases
  obtain ⟨hr, ha0, -⟩ := validate_eq_ok.mp hvalid
  have hdual : (Supercell.create params.m0 params.r params.latticeConstant).Dual :=
    Supercell.create_dual (Nat.one_le_iff_ne_zero.mpr hr) ha0.ne'
  have hsize : n ≠ 0 := by
    have hcells : (Supercell.create params.m0 params.r params.latticeConstant).cells ≠ 0 :=
      Supercell.cells_ne_zero (Nat.one_le_iff_ne_zero.mpr hr)
    have hfour : 4 * _ = n :=
      Except.ok.inj ((atomCount_of_placeAtoms hatoms).symm.trans hcount)
    omega
  have hphases : phases = diagonal fun j : Fin n ↦ step.phase (atoms[j]).planar := by
    refine congrArg diagonal (funext fun j ↦ ?_)
    exact congrArg Complex.exp (mul_comm _ _)
  have hunitary : phases ∈ unitaryGroup (Fin n) ℂ := by
    rw [hphases]
    exact diagonal_mem_unitaryGroup fun j ↦ Vec2.norm_phase _ _
  have hshift : (bands.hamiltonian (k + step)).toMatrix n =
      phases * (bands.hamiltonian k).toMatrix n * phasesᴴ := by
    rw [hphases]
    exact Model.hamiltonian_shift rfl hdual k a b
  have hcharpoly : ((bands.hamiltonian (k + step)).toMatrix n).charpoly =
      ((bands.hamiltonian k).toMatrix n).charpoly := by
    rw [hshift, charpoly_conj hunitary]
  refine ⟨fun q ↦ ⟨rfl, rfl⟩, hunitary, hshift, hcharpoly, fun solve hfinds hfinds' ↦ ?_⟩
  obtain ⟨spectrum, hspectrum, henergies⟩ := Spectrum.exists_spectrum rfl hsize hfinds
  obtain ⟨spectrum', hspectrum', henergies'⟩ := Spectrum.exists_spectrum rfl hsize hfinds'
  exact ⟨spectrum, spectrum', hspectrum, hspectrum', Spectrum.energies_eq_of_charpoly_eq hspectrum
    hspectrum' henergies henergies' rfl rfl hcharpoly.symm⟩

/-- The model of the smallest supercell of the second kind, two steps along the first vector of the
zone and one back along the second. -/
theorem hamiltonian_zone_periodic_seven :
    ∃ model : Model ℝ, Model.create ⟨1, 3, -2700, 480, 1, 2, 1, 5⟩ = .ok model ∧
      model.atoms.size = 28 ∧
      ((model.hamiltonian (⟨1 / 2, 1 / 3⟩ + ((model.cell.g₁ + model.cell.g₂) * ((2 : ℤ) : ℝ) +
          model.cell.g₂ * ((-1 : ℤ) : ℝ)))).toMatrix model.atoms.size).charpoly =
        ((model.hamiltonian ⟨1 / 2, 1 / 3⟩).toMatrix model.atoms.size).charpoly := by
  obtain ⟨target, lattice, atoms, htarget, hlattice, hatoms, hall⟩ :=
    exists_placement 2 (by decide : 1 ≤ 3) (one_ne_zero : (1 : ℝ) ≠ 0)
      (by decide : 2 * 1 + 3 ≤ 5) (by decide)
  have hvalid : (⟨1, 3, -2700, 480, 1, 2, 1, 5⟩ : Params ℝ).validate = .ok () :=
    validate_eq_ok.mpr ⟨three_ne_zero, one_pos, two_pos, one_pos⟩
  obtain ⟨model, hmodel, hmodelAtoms⟩ := exists_model hvalid htarget hlattice hatoms hall
  have hcells : ((Supercell.create 1 3 (1 : ℝ)).cells : ℤ) = 7 := Supercell.cells_eq (by decide)
  have hsize : model.atoms.size = 28 := by
    rw [hmodelAtoms]
    have hcount := size_eq (perm_of_placeAtoms hatoms) hall
    omega
  exact ⟨model, hmodel, hsize, (hamiltonian_zone_periodic _ hmodel ⟨1 / 2, 1 / 3⟩ 2 (-1)).2.2.2.1⟩

end TightBinding

end Moire
