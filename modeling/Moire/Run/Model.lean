import Moire.Log
import Moire.TwistedModel

/-!
# Building the model of a run

The model is built with messages on its inputs and its size.
-/

namespace Moire

variable {α : Type} [Scalar α]

/-- What is told before a model is built. -/
def TwistedParams.announcement : TwistedParams α → String
  | .continuum params =>
      "Building continuum model: θ = " ++ Number.text params.twistAngle ++ "°, w = " ++
        Number.text params.interlayerCoupling ++ s!" meV, {params.loopTimes} hops"
  | .tightBinding params => s!"Building tight-binding model: m0 = {params.m0}, r = {params.r}"

/-- What is told of a model that has been built. -/
def TwistedModel.announcement : TwistedModel α → String
  | .continuum model =>
      let bottom := (model.basis.layer .bottom).length
      let top := (model.basis.layer .top).length
      "Continuum model at " ++ Number.fixed 4 model.params.twistAngle ++
        s!"°: {model.basis.size} plane waves ({bottom} bottom, {top} top), dimension " ++
        s!"{model.toBandModel.dimension}"
  | .tightBinding model =>
      s!"Tight-binding model (m0={model.params.m0}, r={model.params.r}) at " ++
        Number.fixed 4 model.toBandModel.twistAngle ++
        s!"°: {model.atoms.size} atoms, cell area " ++
        Number.fixed 2 model.toBandModel.unitCellArea ++ " Å²"

/-- Build a model and tell of it. -/
def TwistedModel.build (params : TwistedParams α) : Logged (TwistedModel α) := do
  say params.announcement
  let model ← TwistedModel.create params
  say model.announcement
  say s!"Hamiltonian dimension: {model.toBandModel.dimension}"
  return model

end Moire
