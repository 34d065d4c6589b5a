import Moire.Documents.Geometry
import Moire.Optics.Transition
import Moire.Report.Document
import Moire.TwistedModel

/-!
# Models and spectra as JSON

Models are described by the data that observables need, with the data of their kind behind it.
-/

namespace Moire

/-- The constants under their names. -/
def Constants.table : Json :=
  .object [
    ("hbar", .real hbar), ("c", .real speedOfLight), ("epsilon_0", .real vacuumPermittivity),
    ("e", .real elementaryCharge), ("m_to_angstrom", .real metreToAngstrom),
    ("ev_to_mev", .real evToMev), ("lattice", .real grapheneLattice),
    ("distance", .real interlayerDistance), ("sqrt_3", .real sqrt3),
    ("absorption_prefactor", .real absorptionPrefactor)]

/-- What observables need of a model. -/
def BandModel.description (model : BandModel Float) : List (String × Json) := [
  ("name", .string model.name), ("twist_angle", .real model.twistAngle),
  ("dimension", .count model.dimension), ("v1", model.gridVectors.1.toJson),
  ("v2", model.gridVectors.2.toJson), ("unit_cell_area", .real model.unitCellArea),
  ("momentum_scale", .real model.momentumScale), ("path_unit", .real model.pathUnit),
  ("interval_k", .real model.intervalK), ("valley_degeneracy", .real model.valleyDegeneracy)]

/-- What is there of a model of a twisted bilayer, by its kind. -/
def TwistedModel.description : TwistedModel Float → List (String × Json)
  | .continuum model => [
      ("epsilon", .real model.epsilon), ("moire_lattice_constant", .real model.moireConstant),
      ("k_moire", .real model.kMoire), ("moire_area", .real model.moireArea),
      ("basis_len", .count model.basis.size), ("loop_times", .count model.basis.hops)]
  | .tightBinding model => [
      ("lattice_len", .count model.lattice.indices.size),
      ("rounds", .count model.lattice.rounds), ("m0", .count model.params.m0)]

/-- The positions of the atoms of a model that has some. -/
def TwistedModel.atoms : TwistedModel Float → List (Vec3 Float)
  | .continuum _ => []
  | .tightBinding model => model.atoms.toList

/-- Some rows of a matrix. -/
def CMatrix.rowsJson (matrix : CMatrix Float) (rows : List Nat) : Json :=
  .array (rows.map fun i ↦ .array ((matrix.rows.getD i #[]).toList.map Cplx.toJson))

/-- The energies of a spectrum with its sizes. -/
def Spectrum.description (spectrum : Spectrum Float) : List (String × Json) := [
  ("len", .count spectrum.size), ("empty", .bool (spectrum.size == 0)),
  ("mid", .count spectrum.mid), ("energies", .reals spectrum.energies)]

/-- The weights of the states of a spectrum on the basis. -/
def Spectrum.weights (spectrum : Spectrum Float) : List (List Float) :=
  spectrum.levels.toList.map fun level ↦ level.state.toList.map Cplx.normSq

/-- A transition. -/
def Transition.toJson (t : Transition Float) : Json :=
  .object [
    ("valence", .count t.valence), ("conduction", .count t.conduction), ("energy", .real t.energy),
    ("x2", .real t.velocityX.normSq), ("y2", .real t.velocityY.normSq),
    ("strength", .real t.strength)]

end Moire
