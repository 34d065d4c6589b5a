import Moire.Bands.Density
import Moire.Bands.Structure
import Moire.Berry.Chern
import Moire.Optics.Conductivity
import Moire.Optics.Raman

/-!
# Reports

All that a run has computed about a model. A section is missing until its task has been run.
-/

namespace Moire

/-- The results of a run. -/
structure Report (α : Type) where
  /-- The name of the model. -/
  model : String
  /-- The twist angle in degrees. -/
  twistAngle : α
  /-- The dimension of the Hamiltonian. -/
  dimension : Nat
  /-- The area of a unit cell in Å². -/
  unitCellArea : α
  bands : Option (BandStructure α)
  dos : Option (DensityOfStates α)
  jdos : Option (DensityOfStates α)
  absorption : Option (AbsorptionSpectrum α)
  conductivity : Option (ConductivitySpectrum α)
  raman : Option (RamanSpectrum α)
  chern : List (ChernResult α)
  /-- In m/s. -/
  fermiVelocity : Option α
  /-- The windowed energies on a patch, a row for each point. -/
  patch : Option (List (List α))
  energyDifference : Option (List α)
  deriving Repr, Inhabited

/-- The report on a model before any task. -/
def Report.create {α : Type} (model : BandModel α) : Report α where
  model := model.name
  twistAngle := model.twistAngle
  dimension := model.dimension
  unitCellArea := model.unitCellArea
  bands := none
  dos := none
  jdos := none
  absorption := none
  conductivity := none
  raman := none
  chern := []
  fermiVelocity := none
  patch := none
  energyDifference := none

end Moire
