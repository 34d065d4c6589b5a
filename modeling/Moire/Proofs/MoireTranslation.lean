import Moire.Proofs.ContinuumBlocks

/-!
# Translations of the continuum Hamiltonian

A vector of the moire reciprocal lattice can be added to the momentum of an electron or to the
labels of its waves. Both change the momentum of every wave by the same amount, `momentum_shift`,
and a shift of the labels keeps the processes between waves, `PlaneWave.shift_partner`. The block of
two waves at a translated momentum is therefore the block of the shifted waves, `waveBlock_shift`.
A truncated basis is not closed under shifts, so `hamiltonian_translated` carries this over to the
matrix at the places whose shifted waves are still in the basis.
-/

namespace Moire

open Matrix RealScalar

/-! ## Shifted waves -/

namespace PlaneWave

variable (a b : ℤ)

@[simp] theorem layer_shift (u : PlaneWave) : (u.shift a b).layer = u.layer := rfl

/-- Different waves are shifted to different ones. -/
theorem shift_injective : Function.Injective fun u : PlaneWave ↦ u.shift a b := by
  rintro ⟨side, m, n⟩ ⟨side', m', n'⟩ h
  simpa [shift] using h

/-- A process between two waves is the same process between the shifted ones. -/
theorem shift_partner (hop : Hop) (u : PlaneWave) :
    (u.partner hop).shift a b = (u.shift a b).partner hop := by
  cases hop with
  | same => rfl
  | alongPlus => exact congrArg (PlaneWave.mk _ · _) (Int.add_right_comm _ _ _)
  | alongMinus => exact congrArg (PlaneWave.mk _ _ ·) (Int.add_right_comm _ _ _)

end PlaneWave

namespace Continuum

/-! ## Translated blocks -/

/-- The momentum moved by a vector of the reciprocal lattice. -/
noncomputable def translate (k : KPoint ℝ) (a b : ℤ) : KPoint ℝ :=
  k + (bPlus : KPoint ℝ) * (a : ℝ) + (bMinus : KPoint ℝ) * (b : ℝ)

/-- A shifted wave has the momentum that the wave has at the translated point. -/
theorem momentum_shift (k : KPoint ℝ) (a b : ℤ) (u : PlaneWave) :
    momentum k (u.shift a b) = momentum (translate k a b) u := by
  ext <;> simp only [momentum, translate, PlaneWave.shift, Vec2.add_x, Vec2.add_y, Vec2.sub_x,
    Vec2.sub_y, Vec2.mul_x, Vec2.mul_y] <;> push_cast <;> ring

/-- The block of two waves at a translated momentum is that of the shifted waves. -/
theorem waveBlock_shift (params : Params ℝ) (k : KPoint ℝ) (a b : ℤ) (u v : PlaneWave) :
    waveBlock params (translate k a b) u v =
      waveBlock params k (u.shift a b) (v.shift a b) := by
  by_cases heq : u = v
  · subst heq
    rw [waveBlock_self, waveBlock_self, momentum_shift, PlaneWave.layer_shift]
  by_cases hpartner : ∃ hop, v = u.partner hop
  · obtain ⟨hop, rfl⟩ := hpartner
    rw [PlaneWave.shift_partner, waveBlock_partner, waveBlock_partner, PlaneWave.layer_shift]
  · rw [waveBlock_eq_zero params _ heq (not_exists.mp hpartner)]
    -- A process between the shifted waves would be one between the waves.
    refine (waveBlock_eq_zero params _ ((PlaneWave.shift_injective a b).ne heq)
      fun hop hshift ↦ hpartner ⟨hop, ?_⟩).symm
    rw [← PlaneWave.shift_partner] at hshift
    exact PlaneWave.shift_injective a b hshift

/-- The grid vectors of a continuum model span the lattice of its translations: at a momentum moved
by a combination of them, the block of two waves of the basis is the block that the shifted waves
have at the momentum itself, wherever these are in the basis as well. -/
theorem hamiltonian_translated (params : Params ℝ) {model : Model ℝ}
    (hmodel : Model.create params = .ok model) (k : KPoint ℝ) (a b : ℤ) :
    model.toBandModel.gridVectors = (bPlus, bMinus) ∧
      ∀ (i j i' j' : ℕ) (u v : PlaneWave), model.basis.toList[i]? = some u →
        model.basis.toList[j]? = some v → model.basis.toList[i']? = some (u.shift a b) →
        model.basis.toList[j']? = some (v.shift a b) →
        (model.hamiltonian (translate k a b)).block i j = (model.hamiltonian k).block i' j' := by
  obtain ⟨-, rfl⟩ := Model.create_eq_ok.mp hmodel
  refine ⟨rfl, fun i j i' j' u v hi hj hi' hj' ↦ ?_⟩
  rw [Model.block_hamiltonian params k hi' hj', ← waveBlock_shift]
  exact Model.block_hamiltonian params (translate k a b) hi hj

/-- In the basis of two rounds, a process at the valley and the one it is shifted to. -/
theorem hamiltonian_translated_two :
    ∃ (model : Model ℝ) (i j i' j' : ℕ), Model.create ⟨60, 1, 118, 1, 2, 1⟩ = .ok model ∧
      model.basis.toList[i]? = some ⟨.bottom, -1, 1⟩ ∧ model.basis.toList[j]? = some ⟨.top, 0, 1⟩ ∧
      model.basis.toList[i']? = some ⟨.bottom, 0, 0⟩ ∧ model.basis.toList[j']? = some ⟨.top, 1, 0⟩ ∧
      (model.hamiltonian (translate ⟨1, 2⟩ 1 (-1))).block i j =
        (model.hamiltonian ⟨1, 2⟩).block i' j' := by
  have hcreate : Model.create ⟨60, 1, 118, 1, 2, 1⟩ =
      .ok (Model.ofParams (⟨60, 1, 118, 1, 2, 1⟩ : Params ℝ)) :=
    Model.create_eq_ok.mpr ⟨validate_eq_ok.mpr (by norm_num), rfl⟩
  have hposition : ∀ u, (Basis.grow 2).contains u = true →
      ∃ i : ℕ, (Basis.grow 2).toList[i]? = some u :=
    fun u hu ↦ List.mem_iff_getElem?.mp ((Basis.mem_toList _).mpr hu)
  obtain ⟨i, hi⟩ := hposition ⟨.bottom, -1, 1⟩ (by decide)
  obtain ⟨j, hj⟩ := hposition ⟨.top, 0, 1⟩ (by decide)
  obtain ⟨i', hi'⟩ := hposition ⟨.bottom, 0, 0⟩ (by decide)
  obtain ⟨j', hj'⟩ := hposition ⟨.top, 1, 0⟩ (by decide)
  have htranslated := (hamiltonian_translated ⟨60, 1, 118, 1, 2, 1⟩ hcreate ⟨1, 2⟩ 1 (-1)).2
  exact ⟨_, i, j, i', j', hcreate, hi, hj, hi', hj', htranslated i j i' j' _ _ hi hj hi' hj'⟩

end Continuum

end Moire
