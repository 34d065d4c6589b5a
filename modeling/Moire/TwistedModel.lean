import Moire.Continuum.Basic
import Moire.Spectrum.Basic
import Moire.TightBinding.Basic

/-!
# Models of twisted bilayers

The two models of a twisted bilayer, with what they share beyond being band models: the paths that
are drawn for them, and the velocity of their electrons at a corner of the zone.
-/

namespace Moire

open Constants

/-- A model of a twisted bilayer. -/
inductive TwistedModel (α : Type) where
  | continuum (model : Continuum.Model α)
  | tightBinding (model : TightBinding.Model α)

/-- The inputs of a model of a twisted bilayer. -/
inductive TwistedParams (α : Type) where
  | continuum (params : Continuum.Params α)
  | tightBinding (params : TightBinding.Params α)

/-- The velocity from one point to another along the lowest conduction band, given the length of
the step in inverse Ångströms. -/
def slope {α : Type} [Scalar α] (model : BandModel α) (solve : Solver α) (start stop : KPoint α)
    (length : α) : Outcome α := do
  let first ← model.spectrum solve start
  let second ← model.spectrum solve stop
  return velocity (second.energy first.mid - first.energy first.mid) length

/-- The Fermi velocity of the continuum model in m/s, from the corner of the zone to the midpoint of
its side. -/
def Continuum.Model.slopeVelocity {α : Type} [Scalar α] (model : Continuum.Model α)
    (solve : Solver α) : Outcome α :=
  let start : KPoint α := kBottom
  let stop : KPoint α := mPoint
  slope model.toBandModel solve start stop ((stop - start).norm * model.kMoire)

/-- The Fermi velocity of the tight-binding model in m/s, over a proportion of the way from the
corner of the zone to the midpoint of its side. -/
def TightBinding.Model.slopeVelocity {α : Type} [Scalar α] (model : TightBinding.Model α)
    (solve : Solver α) (proportion : α) : Outcome α := do
  let start := model.cell.k₁
  let stop := start + (model.cell.mPoint - start) * proportion
  let length := (stop - start).norm
  let result ← slope model.toBandModel solve start stop length
  if Number.eq length 0 then refuse "proportion_k_to_m" "must move away from K1"
  return result

namespace TwistedModel

variable {α : Type} [Scalar α]

/-- Build a model. -/
def create : TwistedParams α → Outcome (TwistedModel α)
  | .continuum params => do
      let model ← Continuum.Model.create params
      return .continuum model
  | .tightBinding params => do
      let model ← TightBinding.Model.create params
      return .tightBinding model

/-- The model as a band model. -/
def toBandModel : TwistedModel α → BandModel α
  | .continuum model => model.toBandModel
  | .tightBinding model => model.toBandModel

/-- The path of band structures. -/
def defaultPath : TwistedModel α → HighSymmetryPath α
  | .continuum _ => Continuum.defaultPath
  | .tightBinding model => model.defaultPath

/-- The path of Raman spectra. -/
def ramanPath : TwistedModel α → HighSymmetryPath α
  | .continuum _ => Continuum.ramanPath
  | .tightBinding model => model.defaultPath

/-- The Fermi velocity in m/s. The proportion of the way is fixed for the continuum model. -/
def fermiVelocity (model : TwistedModel α) (solve : Solver α) (proportion : α) : Outcome α :=
  match model with
  | .continuum model => model.slopeVelocity solve
  | .tightBinding model => model.slopeVelocity solve proportion

end TwistedModel

end Moire
