import Moire.Proofs.ContinuumBlocks

/-!
# The threefold rotation of the continuum Hamiltonian

A turn by 120 degrees about the valley of the bottom layer permutes the plane waves,
`PlaneWave.turn`, and the three processes, `Hop.turn`. It keeps the number of processes from the
origin, so the basis is closed under it. The block of two turned waves at a turned momentum is the
old block, turned in its two components, `waveBlock_turn`. All blocks together give
`hamiltonian_threefold`: the rotation of the momentum conjugates the Hamiltonian by a unitary
matrix that moves the components of each wave.
-/

namespace Moire

open Matrix RealScalar

/-! ## Turned waves -/

/-- The process between the turned ends of a process. -/
def Hop.turn : Hop → Hop
  | .same => .alongPlus
  | .alongPlus => .alongMinus
  | .alongMinus => .same

/-- Every process is the turn of one. -/
theorem Hop.turn_surjective : Function.Surjective Hop.turn := by
  intro hop
  cases hop with
  | same => exact ⟨.alongMinus, rfl⟩
  | alongPlus => exact ⟨.same, rfl⟩
  | alongMinus => exact ⟨.alongPlus, rfl⟩

/-- The hexagonal norm does not change in a turn. -/
theorem LatticeIndex.norm_turn (i j : ℤ) : norm ⟨-i - j, i⟩ = norm ⟨i, j⟩ := by
  have hfirst : (-i - j).natAbs = (i + j).natAbs := by rw [← neg_add', Int.natAbs_neg]
  have hsum : (-i - j + i).natAbs = j.natAbs := by
    rw [sub_add_eq_add_sub, neg_add_cancel, zero_sub, Int.natAbs_neg]
  simp only [norm, hfirst, hsum]
  rw [max_comm (i + j).natAbs, max_right_comm]

namespace PlaneWave

/-- The wave turned by 120 degrees about the valley of the bottom layer. -/
def turn (u : PlaneWave) : PlaneWave :=
  match u.layer with
  | .bottom => ⟨.bottom, -u.m - u.n, u.m⟩
  | .top => ⟨.top, 1 - u.m - u.n, u.m⟩

@[simp] theorem layer_turn (u : PlaneWave) : u.turn.layer = u.layer := by
  obtain ⟨side, m, n⟩ := u
  cases side <;> rfl

/-- Different waves are turned to different ones. -/
theorem turn_injective : Function.Injective turn := by
  rintro ⟨side, m, n⟩ ⟨side', m', n'⟩ h
  cases side <;> cases side' <;>
    simp only [turn, mk.injEq, reduceCtorEq, false_and, true_and] at h ⊢
  all_goals omega

/-- The partners of a turned wave are the turned partners. -/
theorem turn_partner (hop : Hop) (u : PlaneWave) :
    (u.partner hop).turn = u.turn.partner hop.turn := by
  obtain ⟨side, m, n⟩ := u
  cases hop <;> cases side <;> unfold partner turn direction <;>
    dsimp only [Layer.other, Hop.turn] <;> congr 1 <;> omega

/-- A turn keeps the distance from the origin. -/
theorem distance_turn (u : PlaneWave) : u.turn.distance = u.distance := by
  obtain ⟨side, m, n⟩ := u
  cases side with
  | bottom => exact congrArg (2 * ·) (LatticeIndex.norm_turn m n)
  | top =>
      -- The three bottom partners change places.
      have hfirst := LatticeIndex.norm_turn m n
      have hsecond := LatticeIndex.norm_turn (m - 1) n
      have hthird := LatticeIndex.norm_turn m (n - 1)
      show distance ⟨.top, 1 - m - n, m⟩ = distance ⟨.top, m, n⟩
      rw [distance_top, distance_top]
      rw [show -(m - 1) - n = 1 - m - n by ring] at hsecond
      rw [show -m - (n - 1) = 1 - m - n by ring] at hthird
      rw [show 1 - m - n - 1 = -m - n by ring]
      omega

end PlaneWave

/-- The basis is closed under turns. -/
theorem Basis.grow_contains_turn (rounds : ℕ) (u : PlaneWave) :
    (grow rounds).contains u.turn = (grow rounds).contains u := by
  rw [Bool.eq_iff_iff, grow_contains, grow_contains, PlaneWave.distance_turn]

namespace Continuum

/-! ## Turned blocks -/

/-- The momentum turned by 120 degrees. -/
noncomputable def rotate (p : KPoint ℝ) : KPoint ℝ :=
  ⟨Real.cos (2 * Real.pi / 3) * p.x - Real.sin (2 * Real.pi / 3) * p.y,
    Real.sin (2 * Real.pi / 3) * p.x + Real.cos (2 * Real.pi / 3) * p.y⟩

/-- The rotation by a third in closed form. -/
theorem rotate_eq (p : KPoint ℝ) :
    rotate p = ⟨-(1 / 2) * p.x - √3 / 2 * p.y, √3 / 2 * p.x + -(1 / 2) * p.y⟩ := by
  have hangle : 2 * Real.pi / 3 = Real.pi - Real.pi / 3 := by ring
  rw [rotate, hangle, Real.cos_pi_sub, Real.sin_pi_sub, Real.cos_pi_div_three,
    Real.sin_pi_div_three]

/-- The momentum of a turned wave is the turned momentum. -/
theorem momentum_turn (q : KPoint ℝ) (u : PlaneWave) :
    momentum (kBottom + rotate q) u.turn = rotate (momentum (kBottom + q) u) := by
  have hsqrt : √3 * √3 = 3 := Real.mul_self_sqrt (by norm_num)
  obtain ⟨side, m, n⟩ := u
  cases side <;>
    simp only [momentum, valley, PlaneWave.turn, rotate_eq, bPlus_eq, bMinus_eq, kBottom_eq,
      kTop_eq] <;>
    ext <;> simp only [Vec2.add_x, Vec2.add_y, Vec2.sub_x, Vec2.sub_y, Vec2.mul_x, Vec2.mul_y] <;>
    push_cast
  · ring
  · linear_combination ((n - m) / 4 : ℝ) * hsqrt
  · ring
  · linear_combination ((n - m) / 4 : ℝ) * hsqrt

/-- The turn of the two components of a wave. -/
noncomputable def componentTurn : Matrix (Fin 2) (Fin 2) ℂ := diagonal ![1, thirdRoot]

/-- The third root of one is a phase. -/
theorem norm_thirdRoot : ‖thirdRoot‖ = 1 := by
  rw [thirdRoot, Complex.norm_exp_ofReal_mul_I]

/-- The third root of one times its conjugate is one. -/
theorem thirdRoot_mul_star : thirdRoot * star thirdRoot = 1 :=
  mul_star_of_norm norm_thirdRoot

/-- The square of the third root of one is its conjugate. -/
theorem thirdRoot_sq : thirdRoot * thirdRoot = star thirdRoot := by
  have hsqrt : √3 * √3 = 3 := Real.mul_self_sqrt (by norm_num)
  rw [thirdRoot_eq]
  apply Complex.ext
  · simp only [Complex.mul_re, Complex.star_def, Complex.conj_re]
    linear_combination (-1 / 4 : ℝ) * hsqrt
  · simp only [Complex.mul_im, Complex.star_def, Complex.conj_im]
    ring

/-- Turning the components multiplies each entry by a phase. -/
theorem componentTurn_conj_apply (h : Matrix (Fin 2) (Fin 2) ℂ) (s t : Fin 2) :
    (componentTurn * h * componentTurnᴴ) s t =
      ![1, thirdRoot] s * h s t * star (![1, thirdRoot] t) := by
  rw [componentTurn, diagonal_conjTranspose, mul_diagonal, diagonal_mul]
  rfl

/-- In the complex plane the turn is a multiplication. -/
theorem rotate_complex (p : KPoint ℝ) : ((rotate p).x + (rotate p).y * Complex.I : ℂ) =
    thirdRoot * (p.x + p.y * Complex.I) := by
  rw [rotate_eq, thirdRoot_eq]
  apply Complex.ext
  · simp
  · simp [add_comm]

/-- A rotation of the momentum multiplies its conjugate number by the conjugate root. -/
theorem rotate_complex_conj (p : KPoint ℝ) : ((rotate p).x - (rotate p).y * Complex.I : ℂ) =
    star thirdRoot * (p.x - p.y * Complex.I) := by
  have hconj := congrArg star (rotate_complex p)
  simpa [sub_eq_add_neg, mul_comm] using hconj

/-- The Dirac matrix of a turned momentum. -/
theorem diracMatrix_rotate (p : KPoint ℝ) (angle : ℝ) :
    diracMatrix (rotate p) angle = componentTurn * diracMatrix p angle * componentTurnᴴ := by
  ext s t
  rw [componentTurn_conj_apply, diracMatrix, rotate_complex, rotate_complex_conj]
  fin_cases s <;> fin_cases t <;> simp [diracMatrix] <;> ring

/-- The tunnelling matrix of a turned process. -/
theorem tunnelling_turn (w : ℝ) (hop : Hop) :
    tunnelling w hop.turn = componentTurn * tunnelling w hop * componentTurnᴴ := by
  ext s t
  rw [componentTurn_conj_apply]
  have hunit := thirdRoot_mul_star
  have hsq := thirdRoot_sq
  have hsq' : star thirdRoot * star thirdRoot = thirdRoot := by
    rw [← star_mul, thirdRoot_sq, star_star]
  rw [Complex.star_def] at hunit hsq hsq'
  cases hop <;> fin_cases s <;> fin_cases t <;> simp [tunnelling, Hop.turn] <;> grind

/-- The same in the row of either layer. -/
theorem rowTunnelling_turn (w : ℝ) (side : Layer) (hop : Hop) :
    rowTunnelling w side hop.turn =
      componentTurn * rowTunnelling w side hop * componentTurnᴴ := by
  cases side with
  | bottom => exact tunnelling_turn w hop
  | top =>
      show (tunnelling w hop.turn)ᴴ = componentTurn * (tunnelling w hop)ᴴ * componentTurnᴴ
      rw [tunnelling_turn, conjTranspose_mul, conjTranspose_mul, conjTranspose_conjTranspose,
        mul_assoc]

/-- The block of two turned waves at a turned momentum is the old block, turned in its
components. -/
theorem waveBlock_turn (params : Params ℝ) (q : KPoint ℝ) (u v : PlaneWave) :
    waveBlock params (kBottom + rotate q) u.turn v.turn =
      componentTurn * waveBlock params (kBottom + q) u v * componentTurnᴴ := by
  by_cases heq : u = v
  · subst heq
    rw [waveBlock_self, waveBlock_self, momentum_turn, diracMatrix_rotate, PlaneWave.layer_turn,
      Matrix.mul_smul, Matrix.smul_mul]
  by_cases hpartner : ∃ hop, v = u.partner hop
  · obtain ⟨hop, rfl⟩ := hpartner
    rw [PlaneWave.turn_partner, waveBlock_partner, waveBlock_partner, PlaneWave.layer_turn,
      rowTunnelling_turn]
  · rw [waveBlock_eq_zero params _ heq (not_exists.mp hpartner), mul_zero, zero_mul]
    -- Every process is the turned one of another, so turned waves are not joined either.
    refine waveBlock_eq_zero params _ (PlaneWave.turn_injective.ne heq) fun hop hturn ↦ hpartner ?_
    obtain ⟨hop, rfl⟩ := Hop.turn_surjective hop
    rw [← PlaneWave.turn_partner] at hturn
    exact ⟨hop, PlaneWave.turn_injective hturn⟩

/-! ## The matrix of the rotation -/

/-- The component `a` belongs to the turned wave of the component `b`, in the same place. -/
def TurnedFrom (waves : List PlaneWave) (a b : ℕ) : Prop :=
  waves[a / 2]? = waves[b / 2]?.map PlaneWave.turn ∧ a % 2 = b % 2

instance (waves : List PlaneWave) (a b : ℕ) : Decidable (TurnedFrom waves a b) :=
  inferInstanceAs (Decidable (_ ∧ _))

/-- The matrix that sends the two components of each wave to those of the turned wave, the first
one as it is and the second one times the third root of unity. -/
noncomputable def turnMatrix (waves : List PlaneWave) (n : ℕ) : Matrix (Fin n) (Fin n) ℂ :=
  of fun a b ↦
    if TurnedFrom waves a b then if (b : ℕ) % 2 = 0 then 1 else thirdRoot else 0

/-- A component is known from its wave and its parity. -/
theorem component_ext (basis : Basis) {a b : Fin (2 * basis.size)}
    (hwave : basis.toList[(a : ℕ) / 2]? = basis.toList[(b : ℕ) / 2]?)
    (hparity : (a : ℕ) % 2 = b % 2) : a = b := by
  have hhalf := (List.getElem?_inj (basis.half_lt_length a.isLt) basis.toList_nodup).mp hwave
  omega

section

variable {basis : Basis} (hturn : ∀ u, basis.contains u = true → basis.contains u.turn = true)

include hturn

/-- Every component has a place to which the rotation sends it. -/
theorem exists_turned_component (b : Fin (2 * basis.size)) :
    ∃ a : Fin (2 * basis.size), TurnedFrom basis.toList a b := by
  have hb := basis.half_lt_length b.isLt
  obtain ⟨c, hc⟩ := List.mem_iff_getElem?.mp (basis.mem_toList.mpr
    (hturn _ (basis.mem_toList.mp (List.getElem_mem hb))))
  have hclt : c < basis.toList.length := (List.getElem?_eq_some_iff.mp hc).1
  rw [basis.length_toList] at hclt
  refine ⟨⟨2 * c + b % 2, by omega⟩, ?_, ?_⟩
  · rw [List.getElem?_eq_getElem hb, Option.map_some, ← hc]
    congr 1
    dsimp only
    omega
  · dsimp only
    omega

/-- The rotation moves the components by a permutation. -/
theorem exists_turn_perm : ∃ σ : Equiv.Perm (Fin (2 * basis.size)), ∀ a b,
    a = σ b ↔ TurnedFrom basis.toList a b := by
  choose f hf using exists_turned_component hturn
  -- On finitely many components an injective map is a permutation.
  have hinjective : Function.Injective f := by
    intro b b' h
    have hwave := (hf b).1
    rw [h, (hf b').1] at hwave
    have hparity := (hf b).2
    rw [h, (hf b').2] at hparity
    exact component_ext basis (Option.map_injective PlaneWave.turn_injective hwave.symm)
      hparity.symm
  refine ⟨Equiv.ofBijective f (Finite.injective_iff_bijective.mp hinjective), fun a b ↦ ?_⟩
  constructor
  · rintro rfl
    exact hf b
  · rintro ⟨hwave, hparity⟩
    exact component_ext basis (hwave.trans (hf b).1.symm) (hparity.trans (hf b).2.symm)

end

/-- The factor of a component. -/
noncomputable def componentFactor (n : ℕ) (b : Fin n) : ℂ :=
  ![1, thirdRoot] ⟨b % 2, Nat.mod_lt _ two_pos⟩

/-- The factors of the components are phases. -/
theorem norm_componentFactor (n : ℕ) (b : Fin n) : ‖componentFactor n b‖ = 1 := by
  have hfactor : ∀ s : Fin 2, ‖![1, thirdRoot] s‖ = 1 := by
    intro s
    fin_cases s
    · exact norm_one
    · exact norm_thirdRoot
  exact hfactor _

/-- The matrix of the rotation is the one of the permutation with the factors of the components. -/
theorem turnMatrix_eq_monomial {basis : Basis} {σ : Equiv.Perm (Fin (2 * basis.size))}
    (hσ : ∀ a b, a = σ b ↔ TurnedFrom basis.toList a b) :
    turnMatrix basis.toList (2 * basis.size) = monomial σ (componentFactor _) := by
  ext a b
  have hfactor : (if (b : ℕ) % 2 = 0 then 1 else thirdRoot) = componentFactor _ b := by
    unfold componentFactor
    rcases Nat.mod_two_eq_zero_or_one b with hb | hb <;> simp [hb]
  simp only [turnMatrix, monomial, of_apply, ← hσ a b, hfactor]

/-- The entries at turned components are the old ones times the factors of the components. -/
theorem toMatrix_rotate (params : Params ℝ) (q : KPoint ℝ)
    {σ : Equiv.Perm (Fin (2 * (Basis.grow params.loopTimes).size))}
    (hσ : ∀ a b, a = σ b ↔ TurnedFrom (Basis.grow params.loopTimes).toList a b)
    (a b : Fin (2 * (Basis.grow params.loopTimes).size)) :
    ((Model.ofParams params).hamiltonian (kBottom + rotate q)).toMatrix _ (σ a) (σ b) =
      componentFactor _ a * ((Model.ofParams params).hamiltonian (kBottom + q)).toMatrix _ a b *
        star (componentFactor _ b) := by
  have hwave : ∀ c : Fin (2 * (Basis.grow params.loopTimes).size), ∃ u,
      (Basis.grow params.loopTimes).toList[(c : ℕ) / 2]? = some u ∧
        (Basis.grow params.loopTimes).toList[(σ c : ℕ) / 2]? = some u.turn := by
    intro c
    have hc := (Basis.grow params.loopTimes).half_lt_length c.isLt
    refine ⟨_, List.getElem?_eq_getElem hc, ?_⟩
    rw [((hσ _ c).mp rfl).1, List.getElem?_eq_getElem hc, Option.map_some]
  obtain ⟨u, hu, hu'⟩ := hwave a
  obtain ⟨v, hv, hv'⟩ := hwave b
  have ha := ((hσ _ a).mp rfl).2
  have hb := ((hσ _ b).mp rfl).2
  rw [CMatrix.toMatrix_eq_block, CMatrix.toMatrix_eq_block,
    Model.block_hamiltonian params _ hu' hv', Model.block_hamiltonian params _ hu hv,
    waveBlock_turn, componentTurn_conj_apply]
  simp only [componentFactor, ha, hb]

/-- A turn of the momentum by 120 degrees about the valley of the bottom layer conjugates the
Hamiltonian of a continuum model by the matrix of the rotation, which is unitary because every
turned wave is again in the basis. -/
theorem hamiltonian_threefold (params : Params ℝ) {model : Model ℝ}
    (hmodel : Model.create params = .ok model) (q : KPoint ℝ) :
    let n := 2 * model.basis.size
    let rotation := turnMatrix model.basis.toList n
    (∀ u, model.basis.contains u = true → model.basis.contains u.turn = true) ∧
      (∀ k, (model.hamiltonian k).nrows = n ∧ (model.hamiltonian k).ncols = n) ∧
      rotation ∈ unitaryGroup (Fin n) ℂ ∧
      (model.hamiltonian (kBottom + rotate q)).toMatrix n =
        rotation * (model.hamiltonian (kBottom + q)).toMatrix n * rotationᴴ := by
  obtain ⟨-, rfl⟩ := Model.create_eq_ok.mp hmodel
  intro n rotation
  have hturn : ∀ u, (Basis.grow params.loopTimes).contains u = true →
      (Basis.grow params.loopTimes).contains u.turn = true := by
    intro u hu
    rwa [Basis.grow_contains_turn]
  obtain ⟨σ, hσ⟩ := exists_turn_perm hturn
  have hrotation : rotation = monomial σ (componentFactor _) := turnMatrix_eq_monomial hσ
  refine ⟨hturn, fun k ↦ ⟨Model.nrows_hamiltonian params k, Model.ncols_hamiltonian params k⟩, ?_,
    ?_⟩
  · rw [hrotation]
    exact monomial_mem_unitaryGroup σ (norm_componentFactor n)
  · rw [hrotation]
    ext a b
    obtain ⟨a, rfl⟩ := σ.surjective a
    obtain ⟨b, rfl⟩ := σ.surjective b
    exact (toMatrix_rotate params q hσ a b).trans (monomial_conj_apply σ _ _ a b).symm

/-- A strongly coupled model of two rounds, at a momentum off the symmetry axes. -/
theorem hamiltonian_threefold_two :
    ∃ model : Model ℝ, Model.create ⟨60, 1, 118, 1, 2, 1⟩ = .ok model ∧
      model.basis.contains ⟨.bottom, 1, -1⟩ = true ∧
      model.basis.contains (PlaneWave.turn ⟨.bottom, 1, -1⟩) = true ∧
      (model.hamiltonian (kBottom + rotate ⟨1, 2⟩)).toMatrix (2 * model.basis.size) =
        turnMatrix model.basis.toList (2 * model.basis.size) *
          (model.hamiltonian (kBottom + ⟨1, 2⟩)).toMatrix (2 * model.basis.size) *
          (turnMatrix model.basis.toList (2 * model.basis.size))ᴴ := by
  have hcreate : Model.create ⟨60, 1, 118, 1, 2, 1⟩ =
      .ok (Model.ofParams (⟨60, 1, 118, 1, 2, 1⟩ : Params ℝ)) :=
    Model.create_eq_ok.mpr ⟨validate_eq_ok.mpr (by norm_num), rfl⟩
  have hmem : (Basis.grow 2).contains ⟨.bottom, 1, -1⟩ = true := by decide
  obtain ⟨hturn, -, -, hmatrix⟩ := hamiltonian_threefold ⟨60, 1, 118, 1, 2, 1⟩ hcreate ⟨1, 2⟩
  exact ⟨_, hcreate, hmem, hturn _ hmem, hmatrix⟩

end Continuum

end Moire
