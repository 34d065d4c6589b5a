import Moire.CMatrix
import Moire.Sampling.Path

/-!
# Band models

A band model is a Hermitian matrix that depends on a point of the zone, together with the data
that observables need: the vectors that span the zone, the area of a unit cell, and the scale of
the model's momentum coordinates.
-/

namespace Moire

/-- A Hamiltonian over the zone. -/
structure BandModel (α : Type) where
  /-- The name of the kind of model, which is part of keys. -/
  name : String
  /-- The twist angle in degrees. -/
  twistAngle : α
  dimension : Nat
  hamiltonian : KPoint α → CMatrix α
  /-- The vectors that span the zone, in the model's momentum units. -/
  gridVectors : KPoint α × KPoint α
  /-- The area of a unit cell in Å². -/
  unitCellArea : α
  /-- Inverse Ångströms in one momentum unit. -/
  momentumScale : α
  /-- The length that path densities refer to, in momentum units. -/
  pathUnit : α
  /-- The step of finite differences in momentum units. -/
  intervalK : α
  valleyDegeneracy : α

/-- A Hamiltonian with its derivatives along the two momentum axes, in meV·Å. -/
structure Derivatives (α : Type) where
  h : CMatrix α
  dx : CMatrix α
  dy : CMatrix α

/-- The Hamiltonian with its forward differences. -/
def BandModel.derivatives {α : Type} [Scalar α] (model : BandModel α) (k : KPoint α) :
    Derivatives α :=
  let step := model.intervalK
  let scale := Cplx.ofReal (step * model.momentumScale)
  let h := model.hamiltonian k
  let difference (shift : KPoint α) := ((model.hamiltonian (k + shift)).sub h).div scale
  { h, dx := difference ⟨step, 0⟩, dy := difference ⟨0, step⟩ }

end Moire
