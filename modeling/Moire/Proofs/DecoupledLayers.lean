import Mathlib
import Moire.Berry.Chern
import Moire.Proofs.Evaluation
import Moire.Proofs.OneWave
import Moire.Proofs.PlaquetteSum

/-!
# Layers without tunnelling

Without tunnelling the Hamiltonian of the continuum model is made of the Dirac matrices of its
waves, and `coneSolver` finds two levels for each of them (`Continuum.isEigen_coneLevel`). A band
then changes from one wave to another where their cones cross, and states of different waves are
orthogonal (`inner_coneLevel`). In a basis of one round this happens between two corners of the
zone, so that the sum of curvatures of the lowest conduction band exists and the sum of its phases
does not: `Continuum.kubo_decoupled` and `Continuum.plaquette_decoupled`.
-/

namespace Moire

open Matrix RealScalar

/-! ## The levels of one wave -/

/-- The level above or below the gap of the Dirac matrix of a wave. -/
noncomputable def coneLevel (h : CMatrix ℝ) (i : ℕ) (sign : ℝ) : Level ℝ where
  energy := sign * (h.get (2 * i + 1) (2 * i)).norm
  state := Array.ofFn fun t : Fin h.nrows ↦
    if t.val = 2 * i then ⟨1 / √2, 0⟩
    else if t.val = 2 * i + 1 then Cplx.polar (sign / √2) (h.get (2 * i + 1) (2 * i)).arg
    else Cplx.zero

/-- The solver for matrices made of Dirac matrices, valence levels before conduction levels. -/
noncomputable def coneSolver : Solver ℝ := fun h ↦
  some ((List.range (h.nrows / 2)).reverse.map (coneLevel h · (-1)) ++
    (List.range (h.nrows / 2)).map (coneLevel h · 1))

section

variable {h : CMatrix ℝ} {n : ℕ} (hnrows : h.nrows = n)

include hnrows

/-- The state on a cone has a component for each row. -/
theorem size_coneLevel (i : ℕ) (sign : ℝ) : (coneLevel h i sign).state.size = n :=
  Array.size_ofFn.trans hnrows

/-- The state on a cone lives on the two components of its wave. -/
theorem toVec_coneLevel (i : ℕ) (sign : ℝ) (t : Fin n) :
    (coneLevel h i sign).state.toVec n t =
      if t.val = 2 * i then ((1 / √2 : ℝ) : ℂ)
      else if t.val = 2 * i + 1 then
        ((sign / √2 : ℝ) : ℂ) * Complex.exp ((h.get (2 * i + 1) (2 * i)).arg * Complex.I)
      else 0 := by
  subst hnrows
  have hget : (coneLevel h i sign).state.get t = if t.val = 2 * i then ⟨1 / √2, 0⟩
      else if t.val = 2 * i + 1 then Cplx.polar (sign / √2) (h.get (2 * i + 1) (2 * i)).arg
      else Cplx.zero := by
    simp [coneLevel, CVector.get, Array.getD]
  rw [CVector.toVec, hget]
  split
  · rfl
  split
  · exact Cplx.toComplex_polar _ _
  · exact Cplx.toComplex_zero

/-- A sum over a state of a wave has two terms. -/
theorem sum_coneLevel {i : ℕ} (hi : 2 * i + 1 < n) (sign : ℝ) (f : Fin n → ℂ) :
    ∑ t, f t * (coneLevel h i sign).state.toVec n t =
      f ⟨2 * i, by omega⟩ * ((1 / √2 : ℝ) : ℂ) + f ⟨2 * i + 1, hi⟩ * (((sign / √2 : ℝ) : ℂ) *
        Complex.exp ((h.get (2 * i + 1) (2 * i)).arg * Complex.I)) := by
  have hvec := toVec_coneLevel hnrows i sign
  have hne : (⟨2 * i, by omega⟩ : Fin n) ≠ ⟨2 * i + 1, hi⟩ :=
    fun heq ↦ absurd (Fin.mk.inj heq) (by omega)
  rw [Fintype.sum_eq_add _ _ hne fun t ht ↦ ?_, hvec, hvec, if_pos rfl,
    if_neg (Nat.succ_ne_self _), if_pos rfl]
  rw [hvec, if_neg fun heq ↦ ht.1 (Fin.ext heq), if_neg fun heq ↦ ht.2 (Fin.ext heq), mul_zero]

/-- States of different waves have no component in common. -/
theorem inner_coneLevel {h' : CMatrix ℝ} (hnrows' : h'.nrows = n) {i j : ℕ} (hij : i ≠ j)
    (sign sign' : ℝ) :
    ((coneLevel h i sign).state.inner (coneLevel h' j sign').state).toComplex = 0 := by
  rw [CVector.toComplex_inner (size_coneLevel hnrows i sign) (size_coneLevel hnrows' j sign')]
  refine Finset.sum_eq_zero fun t _ ↦ ?_
  rw [Pi.star_apply, toVec_coneLevel hnrows, toVec_coneLevel hnrows']
  by_cases hi : t.val = 2 * i ∨ t.val = 2 * i + 1
  · rw [if_neg (show ¬ t.val = 2 * j by omega), if_neg (show ¬ t.val = 2 * j + 1 by omega),
      mul_zero]
  · rw [if_neg fun h ↦ hi (Or.inl h), if_neg fun h ↦ hi (Or.inr h), star_zero, zero_mul]

end

/-! ## Waves that do not tunnel -/

/-- A sorted list of numbers that are not negative, behind its mirror image. -/
theorem pairwise_mirrored {values : List ℝ} (hsorted : values.Pairwise (· ≤ ·))
    (hnonneg : ∀ x ∈ values, 0 ≤ x) :
    ((values.map Neg.neg).reverse ++ values).Pairwise (· ≤ ·) := by
  refine List.pairwise_append.mpr ⟨?_, hsorted, fun a ha b hb ↦ ?_⟩
  · rw [List.pairwise_reverse, List.pairwise_map]
    exact hsorted.imp neg_le_neg
  · obtain ⟨x, hx, rfl⟩ := List.mem_map.mp (List.mem_reverse.mp ha)
    exact (neg_nonpos.mpr (hnonneg x hx)).trans (hnonneg b hb)

namespace Continuum

/-- How far the levels of a wave are from the gap. -/
noncomputable def coneHeight (params : Params ℝ) (k : KPoint ℝ) (u : PlaneWave) : ℝ :=
  params.epsilon * (momentum k u).norm

/-- The levels of a wave lie on its cone. -/
theorem energy_coneLevel {params : Params ℝ} {k : KPoint ℝ} {waves : List PlaneWave} {h : CMatrix ℝ}
    (htable : IsBlockTable params k waves h) (hepsilon : 0 ≤ params.epsilon) {i : ℕ} {u : PlaneWave}
    (hi : waves[i]? = some u) (sign : ℝ) :
    (coneLevel h i sign).energy = sign * coneHeight params k u := by
  rw [coneLevel, htable.norm_get hi, abs_of_nonneg hepsilon, coneHeight]

/-- The squared distance of a momentum from the valley of a wave. -/
theorem normSq_momentum (x y : ℝ) (u : PlaneWave) : (momentum ⟨√3 / 2 * x, y⟩ u).normSq =
    3 / 4 * (x + u.m - u.n + 1) ^ 2 +
      (y + 3 / 2 * (u.m + u.n) - (valley u.layer : KPoint ℝ).y) ^ 2 := by
  have hsqrt : √3 * √3 = (3 : ℝ) := Real.mul_self_sqrt (by norm_num)
  have hvalley : (valley u.layer : KPoint ℝ).x = -(√3 / 2) := by cases u.layer <;> rfl
  simp only [Vec2.normSq, momentum, bPlus_eq, bMinus_eq, Vec2.sub_x, Vec2.sub_y, Vec2.add_x,
    Vec2.add_y, Vec2.mul_x, Vec2.mul_y, hvalley]
  linear_combination (1 / 4 * (x + u.m - u.n + 1) ^ 2) * hsqrt

section

variable {params : Params ℝ} (hcoupling : params.interlayerCoupling = 0) {k : KPoint ℝ}
  {waves : List PlaneWave} {h : CMatrix ℝ} (htable : IsBlockTable params k waves h)

include hcoupling htable

/-- Different waves do not see each other. -/
theorem block_eq_zero {i j : ℕ} (hi : i < waves.length) (hj : j < waves.length) (hij : i ≠ j) :
    h.block i j = 0 := by
  have hu : waves[i]? = some waves[i] := List.getElem?_eq_getElem hi
  have hv : waves[j]? = some waves[j] := List.getElem?_eq_getElem hj
  have htunnelling : ∀ hop, tunnelling params.interlayerCoupling hop = 0 := by
    intro hop
    rw [hcoupling]
    cases hop <;> simp [tunnelling]
  by_cases hup : ∃ hop, PlaneWave.Tunnels hop waves[i] waves[j]
  · obtain ⟨hop, hup⟩ := hup
    rw [htable.tunnels hu hv hup, htunnelling]
  by_cases hdown : ∃ hop, PlaneWave.Tunnels hop waves[j] waves[i]
  · obtain ⟨hop, hdown⟩ := hdown
    rw [htable.tunnels_back hv hu hdown, htunnelling, conjTranspose_zero]
  · exact htable.zero hu hv (fun heq ↦ hij (htable.nodup.getElem_inj_iff.mp heq))
      (not_exists.mp hup) (not_exists.mp hdown)

omit hcoupling in
/-- The Dirac matrix of a wave has no diagonal, and it is Hermitian. -/
theorem diagonal_block {i : ℕ} (hi : i < waves.length) :
    (h.get (2 * i) (2 * i)).toComplex = 0 ∧ (h.get (2 * i + 1) (2 * i + 1)).toComplex = 0 ∧
      (h.get (2 * i) (2 * i + 1)).toComplex = star (h.get (2 * i + 1) (2 * i)).toComplex := by
  have hdirac := htable.dirac (List.getElem?_eq_getElem hi)
  have hhermitian : (h.block i i)ᴴ = h.block i i := by
    rw [hdirac, conjTranspose_smul, diracMatrix_conjTranspose, Complex.star_def,
      Complex.conj_ofReal]
  refine ⟨?_, ?_, ?_⟩
  · simpa [CMatrix.block, diracMatrix] using congrFun₂ hdirac 0 0
  · simpa [CMatrix.block, diracMatrix] using congrFun₂ hdirac 1 1
  · exact (congrFun₂ hhermitian 0 1).symm

/-- A row that belongs to another wave has nothing in the columns of a wave. -/
theorem get_eq_zero {i : ℕ} (hi : i < waves.length) {s : ℕ} (hs : s < 2 * waves.length)
    (hne : s / 2 ≠ i) (t : Fin 2) : (h.get s (2 * i + t)).toComplex = 0 := by
  have hzero := congrFun₂ (block_eq_zero hcoupling htable (by omega) hi hne)
    ⟨s % 2, Nat.mod_lt s two_pos⟩ t
  rwa [CMatrix.block, of_apply, Nat.div_add_mod] at hzero

/-- The levels of a wave are eigenstates. -/
theorem isEigen_coneLevel {i : ℕ} (hi : i < waves.length) {sign : ℝ} (hsign : sign * sign = 1) :
    (coneLevel h i sign).IsEigen (2 * waves.length) h := by
  obtain ⟨hdiagonal, hdiagonal', hstar⟩ := diagonal_block htable hi
  have hvec := toVec_coneLevel htable.nrows i sign
  have hsum := sum_coneLevel htable.nrows (show 2 * i + 1 < 2 * waves.length by omega) sign
  set z := h.get (2 * i + 1) (2 * i)
  set e := Complex.exp (z.arg * Complex.I) with he
  have hpolar : z.toComplex = z.norm * e := by
    rw [he, Cplx.arg_eq, Cplx.norm_eq]
    exact (Complex.norm_mul_exp_arg_mul_I z.toComplex).symm
  have hunit : (starRingEnd ℂ) e * e = 1 := by
    rw [← Complex.normSq_eq_conj_mul_self, Complex.normSq_eq_norm_sq, he,
      Complex.norm_exp_ofReal_mul_I, one_pow, Complex.ofReal_one]
  have hsquare : (sign : ℂ) * sign = 1 := by
    rw [← Complex.ofReal_mul, hsign, Complex.ofReal_one]
  refine ⟨size_coneLevel htable.nrows i sign, funext fun s ↦ ?_, ?_⟩
  · refine (hsum (h.toMatrix (2 * waves.length) s)).trans ?_
    show (h.get s (2 * i)).toComplex * _ + (h.get s (2 * i + 1)).toComplex * _ =
      ((sign * z.norm : ℝ) : ℂ) * (coneLevel h i sign).state.toVec (2 * waves.length) s
    rw [hvec]
    split
    next hs =>
      rw [hs, hdiagonal, hstar, hpolar, star_mul', Complex.star_def, Complex.conj_ofReal]
      push_cast
      linear_combination (sign * z.norm / √2 : ℂ) * hunit
    split
    next hs =>
      rw [hs, hdiagonal', hpolar]
      push_cast
      linear_combination -(z.norm * e / √2 : ℂ) * hsquare
    next hs hs' =>
      have hother : s.val / 2 ≠ i := by omega
      have hleft : (h.get s (2 * i)).toComplex = 0 :=
        get_eq_zero hcoupling htable hi s.isLt hother 0
      have hright : (h.get s (2 * i + 1)).toComplex = 0 :=
        get_eq_zero hcoupling htable hi s.isLt hother 1
      rw [hleft, hright]
      ring
  · refine (hsum _).trans ?_
    have hhalf : (1 / (√2 : ℝ) * (1 / (√2 : ℝ)) : ℂ) = 1 / 2 := by
      rw [div_mul_div_comm, ← Complex.ofReal_mul, Real.mul_self_sqrt zero_le_two]
      norm_num
    rw [Pi.star_apply, Pi.star_apply, hvec, hvec, if_pos rfl, if_neg (Nat.succ_ne_self _),
      if_pos rfl, star_mul', Complex.star_def, Complex.conj_ofReal, Complex.conj_ofReal]
    push_cast
    linear_combination 2 * hhalf + (sign * sign / (√2 * √2) : ℂ) * hunit +
      (1 / √2 * (1 / √2) : ℂ) * hsquare

end

/-! ## A basis of one round -/

/-- A model of one round at an angle of sixty degrees whose layers are decoupled. -/
noncomputable def decoupled : Params ℝ := { oneWave 1 with loopTimes := 1 }

/-- The Hamiltonian of the model. -/
noncomputable def decoupledHamiltonian (k : KPoint ℝ) : CMatrix ℝ :=
  (Model.ofParams decoupled).hamiltonian k

/-- The Hamiltonian of the decoupled layers is the block table of its four waves. -/
theorem isBlockTable_decoupled (k : KPoint ℝ) : IsBlockTable decoupled k
    [⟨.bottom, 0, 0⟩, ⟨.top, 0, 0⟩, ⟨.top, 0, 1⟩, ⟨.top, 1, 0⟩] (decoupledHamiltonian k) :=
  isBlockTable_hamiltonian decoupled k

/-- The levels at a point as the solver lists them. -/
noncomputable def coneLevels (k : KPoint ℝ) : List (Level ℝ) :=
  [3, 2, 1, 0].map (coneLevel (decoupledHamiltonian k) · (-1)) ++
    [0, 1, 2, 3].map (coneLevel (decoupledHamiltonian k) · 1)

/-- The levels on the cones are eigenstates of the decoupled layers. -/
theorem isEigen_decoupled (k : KPoint ℝ) {level : Level ℝ} (h : level ∈ coneLevels k) :
    level.IsEigen 8 (decoupledHamiltonian k) := by
  have heigen : ∀ i < 4, ∀ sign : ℝ, sign * sign = 1 →
      (coneLevel (decoupledHamiltonian k) i sign).IsEigen 8 (decoupledHamiltonian k) :=
    fun i hi _ hsign ↦ isEigen_coneLevel rfl (isBlockTable_decoupled k) hi hsign
  rcases List.mem_append.mp h with h | h
  · obtain ⟨i, hi, rfl⟩ := List.mem_map.mp h
    exact heigen i (by simp at hi; omega) (-1) (by norm_num)
  · obtain ⟨i, hi, rfl⟩ := List.mem_map.mp h
    exact heigen i (by simp at hi; omega) 1 (by norm_num)

/-- The solver lists the levels on the cones. -/
theorem coneSolver_decoupled (k : KPoint ℝ) :
    coneSolver (decoupledHamiltonian k) = some (coneLevels k) := by
  rw [coneSolver, (isBlockTable_decoupled k).nrows]
  rfl

/-- The spectrum of the decoupled layers is that of the cones, sorted. -/
theorem spectrum_decoupled (k : KPoint ℝ) :
    (Model.ofParams decoupled).toBandModel.spectrum coneSolver k =
      .ok ⟨(Number.sortBy Level.energy (coneLevels k)).toArray⟩ := by
  have htable := isBlockTable_decoupled k
  have hnrows : (decoupledHamiltonian k).nrows = 8 := htable.nrows
  have hncols : (decoupledHamiltonian k).ncols = 8 := htable.ncols
  exact Spectrum.ofHamiltonian_eq_ok.mpr ⟨hnrows.trans hncols.symm, hnrows.trans_ne (by decide),
    coneLevels k, coneSolver_decoupled k, rfl⟩

/-- There are eight levels. -/
theorem length_sortBy_coneLevels (k : KPoint ℝ) :
    (Number.sortBy Level.energy (coneLevels k)).length = 8 :=
  (Number.sortBy_perm Level.energy (coneLevels k)).length_eq

/-- The first band above the gap is the fifth level. -/
theorem bandIndex_decoupled (k : KPoint ℝ) :
    (⟨(Number.sortBy Level.energy (coneLevels k)).toArray⟩ : Spectrum ℝ).bandIndex 1 = .ok 4 := by
  have hsize : (⟨(Number.sortBy Level.energy (coneLevels k)).toArray⟩ : Spectrum ℝ).size = 8 :=
    length_sortBy_coneLevels k
  rw [Spectrum.bandIndex, Spectrum.mid, hsize]
  rfl

/-- The state of the lowest conduction band is the one in the middle of the sorted levels. -/
theorem stateAt_decoupled (k : KPoint ℝ) :
    ∃ level, (Number.sortBy Level.energy (coneLevels k))[4]? = some level ∧
      stateAt (Model.ofParams decoupled).toBandModel coneSolver 1 k = .ok level.state := by
  have hlength := length_sortBy_coneLevels k
  obtain ⟨level, hlevel⟩ : ∃ level, (Number.sortBy Level.energy (coneLevels k))[4]? = some level :=
    ⟨_, List.getElem?_eq_getElem (by omega)⟩
  refine ⟨level, hlevel, bind_eq_ok.mpr ⟨_, spectrum_decoupled k, bind_eq_ok.mpr
    ⟨4, bandIndex_decoupled k, ?_⟩⟩⟩
  show Except.ok (Spectrum.state _ 4) = _
  rw [Spectrum.state, List.getElem?_toArray, hlevel]
  rfl

/-- The energy scale of the decoupled layers is positive. -/
theorem epsilon_decoupled_pos : 0 < decoupled.epsilon :=
  epsilon_pos (validate_eq_ok.mpr (by norm_num [decoupled, oneWave]))

/-- The energies of the levels, in the order of the solver. -/
theorem energies_coneLevels (k : KPoint ℝ) : (coneLevels k).map Level.energy =
    [-coneHeight decoupled k ⟨.top, 1, 0⟩, -coneHeight decoupled k ⟨.top, 0, 1⟩,
      -coneHeight decoupled k ⟨.top, 0, 0⟩, -coneHeight decoupled k ⟨.bottom, 0, 0⟩,
      coneHeight decoupled k ⟨.bottom, 0, 0⟩, coneHeight decoupled k ⟨.top, 0, 0⟩,
      coneHeight decoupled k ⟨.top, 0, 1⟩, coneHeight decoupled k ⟨.top, 1, 0⟩] := by
  have henergy := fun i u ↦
    energy_coneLevel (isBlockTable_decoupled k) epsilon_decoupled_pos.le (i := i) (u := u)
  simp only [coneLevels, List.map_cons, List.map_nil, List.cons_append, List.nil_append]
  rw [henergy 3 _ rfl, henergy 2 _ rfl, henergy 1 _ rfl, henergy 0 _ rfl, henergy 0 _ rfl,
    henergy 1 _ rfl, henergy 2 _ rfl, henergy 3 _ rfl]
  simp only [neg_one_mul, one_mul]

/-- A point on the line through the centres of the zone and of the next one. -/
noncomputable def along (a : ℝ) : KPoint ℝ := (bPlus : KPoint ℝ) * a

/-- The cone of a wave over a point of the line, from the squared distance to the valley. -/
theorem coneHeight_along {a r : ℝ} {u : PlaneWave} (hr : 0 ≤ r)
    (h : 3 / 4 * (a + u.m - u.n + 1) ^ 2 +
      (3 / 2 * (a + u.m + u.n) - (valley u.layer : KPoint ℝ).y) ^ 2 = r * r) :
    coneHeight decoupled (along a) u = decoupled.epsilon * r := by
  have hpoint : along a = ⟨√3 / 2 * a, 3 / 2 * a⟩ := by
    rw [along, bPlus_eq]
    rfl
  have hsquare : (momentum (along a) u).normSq = r * r := by
    rw [hpoint, normSq_momentum, ← h]
    ring
  rw [coneHeight, Vec2.norm, hsquare, sqrt_eq, Real.sqrt_mul_self hr]

/-- At the centre of the zone three cones have the same energy. -/
theorem coneHeight_centre :
    coneHeight decoupled (along 0) ⟨.bottom, 0, 0⟩ = decoupled.epsilon * 1 ∧
    coneHeight decoupled (along 0) ⟨.top, 0, 0⟩ = decoupled.epsilon * 1 ∧
    coneHeight decoupled (along 0) ⟨.top, 0, 1⟩ = decoupled.epsilon * 1 ∧
    coneHeight decoupled (along 0) ⟨.top, 1, 0⟩ = decoupled.epsilon * 2 := by
  refine ⟨coneHeight_along zero_le_one ?_, coneHeight_along zero_le_one ?_,
    coneHeight_along zero_le_one ?_, coneHeight_along zero_le_two ?_⟩
  all_goals norm_num [valley, kBottom_eq, kTop_eq]

/-- At the centre of the next zone the cone of another wave is the lowest. -/
theorem coneHeight_next :
    coneHeight decoupled (along 1) ⟨.bottom, 0, 0⟩ = decoupled.epsilon * √7 ∧
    coneHeight decoupled (along 1) ⟨.top, 0, 0⟩ = decoupled.epsilon * 2 ∧
    coneHeight decoupled (along 1) ⟨.top, 0, 1⟩ = decoupled.epsilon * √7 ∧
    coneHeight decoupled (along 1) ⟨.top, 1, 0⟩ = decoupled.epsilon * √13 := by
  have hseven : √7 * √7 = (7 : ℝ) := Real.mul_self_sqrt (by norm_num)
  have hthirteen : √13 * √13 = (13 : ℝ) := Real.mul_self_sqrt (by norm_num)
  refine ⟨coneHeight_along (Real.sqrt_nonneg 7) ?_, coneHeight_along zero_le_two ?_,
    coneHeight_along (Real.sqrt_nonneg 7) ?_, coneHeight_along (Real.sqrt_nonneg 13) ?_⟩
  all_goals norm_num [valley, kBottom_eq, kTop_eq, hseven, hthirteen]

/-- The state of the lowest conduction band at the centre of the zone, of the three waves with this
energy the one that the solver lists first. -/
theorem stateAt_centre : stateAt (Model.ofParams decoupled).toBandModel coneSolver 1 (along 0) =
    .ok (coneLevel (decoupledHamiltonian (along 0)) 0 1).state := by
  obtain ⟨level, hlevel, hstate⟩ := stateAt_decoupled (along 0)
  obtain ⟨h₀, h₁, h₂, h₃⟩ := coneHeight_centre
  have hscale := epsilon_decoupled_pos
  have hcones : [decoupled.epsilon * 1, decoupled.epsilon * 1, decoupled.epsilon * 1,
      decoupled.epsilon * 2].Pairwise (· ≤ ·) := by
    refine List.isChain_iff_pairwise.mp ?_
    simp only [List.isChain_cons_cons, List.isChain_singleton, le_refl, true_and, and_true]
    linarith
  have hsorted : (coneLevels (along 0)).Pairwise fun a b ↦ a.energy ≤ b.energy := by
    refine List.pairwise_map.mp ?_
    rw [energies_coneLevels, h₀, h₁, h₂, h₃]
    exact pairwise_mirrored hcones (by simp [hscale.le])
  rw [Number.sortBy_of_sorted Level.energy hsorted] at hlevel
  cases hlevel
  exact hstate

/-- At the centre of the next zone the state belongs to another wave. -/
theorem stateAt_next : ∃ j sign, 0 ≠ j ∧
    stateAt (Model.ofParams decoupled).toBandModel coneSolver 1 (along 1) =
      .ok (coneLevel (decoupledHamiltonian (along 1)) j sign).state := by
  obtain ⟨level, hlevel, hstate⟩ := stateAt_decoupled (along 1)
  obtain ⟨h₀, h₁, h₂, h₃⟩ := coneHeight_next
  have hscale := epsilon_decoupled_pos
  set scale := decoupled.epsilon
  have hlow : scale * 2 < scale * √7 :=
    mul_lt_mul_of_pos_left (Real.lt_sqrt_of_sq_lt (by norm_num)) hscale
  have hhigh : scale * √7 ≤ scale * √13 :=
    mul_le_mul_of_nonneg_left (Real.sqrt_le_sqrt (by norm_num)) hscale.le
  have hperm : ((coneLevels (along 1)).map Level.energy).Perm
      [-(scale * √13), -(scale * √7), -(scale * √7), -(scale * 2), scale * 2, scale * √7,
        scale * √7, scale * √13] := by
    rw [energies_coneLevels, h₀, h₁, h₂, h₃]
    exact .cons _ (.cons _ ((List.Perm.swap _ _ _).trans (.cons _ (.cons _ (.swap _ _ _)))))
  have hcones : [scale * 2, scale * √7, scale * √7, scale * √13].Pairwise (· ≤ ·) := by
    refine List.isChain_iff_pairwise.mp ?_
    simp only [List.isChain_cons_cons, List.isChain_singleton, le_refl, true_and, and_true]
    exact ⟨hlow.le, hhigh⟩
  have henergies := Number.map_sortBy Level.energy hperm
    (pairwise_mirrored hcones (by simp [hscale.le]))
  have henergy : level.energy = scale * 2 := by
    have hfourth := congrArg (·[4]?) henergies
    simpa [hlevel] using hfourth
  have hmem : level ∈ coneLevels (along 1) :=
    (Number.sortBy_perm Level.energy _).mem_iff.mp (List.mem_of_getElem? hlevel)
  have hother : ∀ j sign, coneLevel (decoupledHamiltonian (along 1)) j sign = level →
      sign = 1 ∨ sign = -1 → 0 ≠ j := by
    rintro _ sign heq hsign rfl
    have hzero :=
      energy_coneLevel (isBlockTable_decoupled (along 1)) hscale.le (i := 0) rfl sign
    rw [heq, henergy, h₀] at hzero
    rcases hsign with rfl | rfl <;> linarith
  rcases List.mem_append.mp hmem with hmem | hmem
  · obtain ⟨j, -, heq⟩ := List.mem_map.mp hmem
    exact ⟨j, -1, hother j (-1) heq (Or.inr rfl), heq ▸ hstate⟩
  · obtain ⟨j, -, heq⟩ := List.mem_map.mp hmem
    exact ⟨j, 1, hother j 1 heq (Or.inl rfl), heq ▸ hstate⟩

/-! ## Chern numbers -/

/-- There is no phase around a cell at whose first side the states are orthogonal. -/
theorem plaquettePhase_eq_fail {model : BandModel ℝ} {solve : Solver ℝ} {band : ℤ}
    {k step₁ step₂ : KPoint ℝ} {u₀₀ u₁₀ u₁₁ u₀₁ : CVector ℝ}
    (h₀₀ : stateAt model solve band k = .ok u₀₀)
    (h₁₀ : stateAt model solve band (k + step₁) = .ok u₁₀)
    (h₁₁ : stateAt model solve band (k + step₁ + step₂) = .ok u₁₁)
    (h₀₁ : stateAt model solve band (k + step₂) = .ok u₀₁)
    (horthogonal : (u₀₀.inner u₁₀).toComplex = 0) :
    plaquettePhase model solve step₁ step₂ band k =
      fail (.numerical .aggregation "vanishing overlap between neighbouring eigenstates") := by
  have hlink : link u₀₀ u₁₀ =
      fail (.numerical .aggregation "vanishing overlap between neighbouring eigenstates") := by
    have hlt : Number.lt (u₀₀.inner u₁₀).norm overlapThreshold = true := by
      refine decide_eq_true ?_
      rw [Cplx.norm_eq, horthogonal, norm_zero]
      exact overlapThreshold_pos
    rw [link, if_pos hlt]
    rfl
  rw [plaquettePhase, h₀₀, h₁₀, h₁₁, h₀₁]
  dsimp only [bind, Except.bind]
  rw [hlink]
  rfl

/-- The grid of density one is a single point. -/
theorem grid_decoupled :
    Chern.grid (Model.ofParams decoupled).toBandModel 1 = .ok [along 0] := by
  have hpoint : (bPlus : KPoint ℝ) * (Number.ofNat 0 / Number.ofNat 1 : ℝ) +
      (bMinus : KPoint ℝ) * (Number.ofNat 0 / Number.ofNat 1 : ℝ) = along 0 := by
    ext <;> simp [along]
  rw [← hpoint]
  rfl

/-- The curvature can be summed. -/
theorem kubo_decoupled (evaluator : Evaluator) : ∃ kubo,
    Chern.kubo (Model.ofParams decoupled).toBandModel coneSolver evaluator 1 1 = .ok kubo := by
  have hcurvature : ∃ curvature,
      berryCurvature (Model.ofParams decoupled).toBandModel coneSolver 1 (along 0) =
        .ok curvature :=
    ⟨_, bind_eq_ok.mpr ⟨_, spectrum_decoupled (along 0), bind_eq_ok.mpr
      ⟨4, bandIndex_decoupled (along 0), rfl⟩⟩⟩
  obtain ⟨curvature, hcurvature⟩ := hcurvature
  exact ⟨_, bind_eq_ok.mpr ⟨_, grid_decoupled, bind_eq_ok.mpr
    ⟨[curvature], evaluator.evaluate_eq_ok (congrArg (fun row ↦ [row]) hcurvature.symm), rfl⟩⟩⟩

/-- The phases cannot be summed: the states at two corners of the cell are orthogonal. -/
theorem plaquette_decoupled :
    Chern.plaquette (Model.ofParams decoupled).toBandModel coneSolver ⟨1⟩ 1 1 =
      fail (.worker 0 .aggregation "vanishing overlap between neighbouring eigenstates") := by
  let model := (Model.ofParams decoupled).toBandModel
  let step₁ := (bPlus : KPoint ℝ) / (Number.ofNat 1 : ℝ)
  let step₂ := (bMinus : KPoint ℝ) / (Number.ofNat 1 : ℝ)
  have hphase : plaquettePhase model coneSolver step₁ step₂ 1 (along 0) =
      fail (.numerical .aggregation "vanishing overlap between neighbouring eigenstates") := by
    have hstep : along 0 + step₁ = along 1 := by ext <;> simp [along, step₁]
    obtain ⟨j, sign, hj, hnext⟩ := stateAt_next
    obtain ⟨_, -, h₁₁⟩ := stateAt_decoupled (along 0 + step₁ + step₂)
    obtain ⟨_, -, h₀₁⟩ := stateAt_decoupled (along 0 + step₂)
    rw [← hstep] at hnext
    exact plaquettePhase_eq_fail stateAt_centre hnext h₁₁ h₀₁
      (inner_coneLevel (isBlockTable_decoupled _).nrows (isBlockTable_decoupled _).nrows hj 1 sign)
  have hevaluate : (⟨1⟩ : Evaluator).evaluate [along 0]
      (plaquettePhase model coneSolver step₁ step₂ 1) =
        fail (.worker 0 .aggregation "vanishing overlap between neighbouring eigenstates") :=
    (assemble_serial (List.Perm.refl _)).report 0 _
      ⟨[], [], along 0, [], [], rfl, rfl, nofun, hphase⟩
  rw [Chern.plaquette, grid_decoupled]
  show ((⟨1⟩ : Evaluator).evaluate [along 0]
    (plaquettePhase model coneSolver step₁ step₂ 1) >>= _) = _
  rw [hevaluate]
  rfl

end Continuum

end Moire
