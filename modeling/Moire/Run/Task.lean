import Moire.Config.Basic
import Moire.Report.Basic
import Moire.Sampling.Grid
import Moire.Store.Cache

/-!
# Tasks

A task computes one section of the report. Tables of energies, spectra and Raman amplitudes are
taken from the store if they are there, and stored after they have been computed; a stored spectrum
is used only if it is for the photon energies that are asked for. What a task did before it failed
is kept.
-/

namespace Moire

/-- What all tasks of a run share. -/
structure TaskContext (α : Type) where
  model : TwistedModel α
  evaluator : Evaluator
  solve : Solver α
  sort : Sorter α
  params : ObservableParams α
  /-- Compute again what is stored. -/
  refresh : Bool

/-- The store, the log and the report in the course of a run. -/
structure Bench (σ α : Type) where
  session : Session σ
  report : Report α

/-- A step of a run. What it did before it stopped is kept. -/
abbrev Run (σ α : Type) := ExceptT Failure (StateM (Bench σ α))

namespace Run

variable {σ α β : Type}

/-- Carry out a computation on the store. -/
def ofJob (job : Job σ β) : Run σ α β := fun bench ↦
  let (result, session) := job bench.session
  (result, { bench with session })

/-- Computations on a store are steps of a run. -/
instance : MonadLift (Job σ) (Run σ α) := ⟨ofJob⟩

/-- Change the report. -/
def amend (change : Report α → Report α) : Run σ α Unit := fun bench ↦
  (.ok (), { bench with report := change bench.report })

end Run

/-- The row in which the parts of complex numbers take turns. -/
def splitParts {α : Type} (row : List (Cplx α)) : List α :=
  row.flatMap fun z ↦ [z.re, z.im]

/-- The row in which the parts take turns, for which memory is asked first. -/
def splitRow {α : Type} (row : List (Cplx α)) : Outcome (List α) := do
  reserve (2 * row.length) 8
  return splitParts row

/-- The complex numbers whose parts take turns in a row. -/
def pairParts {α : Type} : List α → List (Cplx α)
  | re :: im :: rest => ⟨re, im⟩ :: pairParts rest
  | _ => []

namespace TaskContext

variable {α : Type} [Scalar α] (ctx : TaskContext α)

/-- The model as a band model. -/
def bands : BandModel α := ctx.model.toBandModel

/-- The points of the grid along each vector of the zone. -/
def kpNum : Nat := ctx.params.kpNum.getD 70

/-- The window of bands. -/
def window : BandWindow := ctx.params.bandWindow.getD .standard

/-- The bands on each side of the gap. -/
def half : Nat := ctx.params.numHalf.getD 2

/-- The photon energies of spectra. -/
def photons : List α := ctx.params.photonEnergies.getD []

/-- The points of a path per momentum unit of the model. -/
def density : α := ctx.params.pathDensity.getD 100 / ctx.bands.pathUnit

/-- The inputs of the Raman sum. -/
def raman : RamanParams α where
  photonEnergy := ctx.params.ramanPhotonEnergy.getD 2000
  phononEnergy := ctx.params.ramanPhononEnergy.getD 196
  gamma := ctx.params.ramanGamma.getD 100
  half := ctx.half
  inner := ctx.params.ramanInnerTransitions

/-- The broadening of absorption spectra. -/
def broadening : α := ctx.params.broadening.getD 100

/-- The broadening of conductivity spectra. -/
def eta : α := ctx.params.conductivityEta.getD 20

/-- The key of a table that depends on the window. -/
def windowKey (kind : String) (density : Nat) : String :=
  resultKey ctx.bands kind density ++ s!"_{ctx.window.lower}_{ctx.window.upper}"

/-- The key of an absorption spectrum. The photon energies are not part of it. -/
def absorptionKey : String :=
  resultKey ctx.bands "absorption" ctx.kpNum ++ s!"_half{ctx.half}_delta" ++
    Number.text ctx.broadening

/-- The key of a conductivity spectrum. The photon energies are not part of it. -/
def conductivityKey : String :=
  resultKey ctx.bands "conductivity" ctx.kpNum ++ s!"_half{ctx.half}_eta" ++ Number.text ctx.eta

/-- The key of Raman amplitudes at a number of points. Without a number of inner bands all of them
count. -/
def ramanKey (points : Nat) : String :=
  resultKey ctx.bands "raman" points ++
    s!"_half{ctx.half}_inner{ctx.raman.inner.getD ctx.half}_e" ++
    Number.text ctx.raman.photonEnergy ++ "_ph" ++ Number.text ctx.raman.phononEnergy ++ "_g" ++
    Number.text ctx.raman.gamma

/-- The grid over the zone. -/
def grid : Outcome (List (KPoint α)) :=
  uniformGrid ctx.bands.gridVectors.1 ctx.bands.gridVectors.2 ctx.kpNum

/-- Compute energies at given points. -/
def energiesAt (points : List (KPoint α)) : Logged (List (List α)) := do
  say (ctx.evaluator.announcement points.length)
  bandEnergies ctx.bands ctx.solve ctx.evaluator points ctx.window

/-- Compute energies over the grid. -/
def energiesOverGrid : Logged (List (List α)) := do
  let points ← ctx.grid
  ctx.energiesAt points

/-- Compute energies along a path. -/
def energiesAlong (path : KPath α) : Logged (List (List α)) := do
  say path.announcement
  pathEnergies ctx.bands ctx.solve ctx.evaluator path ctx.window

/-- An absorption spectrum as rows of a photon energy and the absorption. -/
def absorptionTable (points : List (KPoint α)) : Outcome (List (List α)) := do
  let spectrum ← Absorption.spectrum ctx.bands ctx.solve ctx.evaluator points ctx.half ctx.photons
    ctx.broadening
  return spectrum.photonEnergies.zipWith (fun e a ↦ [e, a]) spectrum.absorption

/-- Compute an absorption spectrum over the grid. -/
def absorptionRows : Logged (List (List α)) := do
  let points ← ctx.grid
  if !ctx.photons.isEmpty then
    validateSpectrum points ctx.photons ctx.broadening "broadening"
    say (Absorption.announcement ctx.half ctx.photons.length ctx.broadening)
    say (ctx.evaluator.announcement points.length)
  ctx.absorptionTable points

/-- A conductivity spectrum as rows of a photon energy and the two parts of the response. -/
def conductivityTable (points : List (KPoint α)) : Outcome (List (List α)) := do
  let spectrum ← Conductivity.spectrum ctx.bands ctx.solve ctx.evaluator points ctx.half
    ctx.photons ctx.eta
  return spectrum.photonEnergies.zipWith (fun e z ↦ [e, z.re, z.im]) spectrum.response

/-- Compute a conductivity spectrum over the grid. -/
def conductivityRows : Logged (List (List α)) := do
  let points ← ctx.grid
  if !ctx.photons.isEmpty then
    validateSpectrum points ctx.photons ctx.eta "eta"
    say (ctx.evaluator.announcement points.length)
  ctx.conductivityTable points

/-- Compute Raman amplitudes as rows in which real and imaginary parts take turns. -/
def ramanRows (points : List (KPoint α)) : Logged (List (List α)) := do
  Raman.validate points ctx.raman
  say (Raman.announcement ctx.raman)
  say (ctx.evaluator.announcement points.length)
  let rows ← Raman.termRows ctx.bands ctx.solve ctx.evaluator points ctx.raman
  reserve rows.length StoredArray.rowSize
  rows.mapM (m := Outcome) splitRow

end TaskContext

/-- The rows are for the given photon energies: as many of them, of a given width, each beginning
with its energy. -/
def answersPhotons {α : Type} [Number α] (photons : List α) (width : Nat)
    (rows : List (List α)) : Bool :=
  rows.length == photons.length &&
    (rows.zip photons).all fun (row, photon) ↦
      row.length == width && (row.head?.map (Number.eq · photon)).getD false

/-- The response in a row of a conductivity spectrum. -/
def responseEntry {α : Type} (row : List α) : Outcome (Cplx α) := do
  let re ← entry row 1
  let im ← entry row 2
  return ⟨re, im⟩

/-- The complex row of a stored one, which must have an even width. -/
def ramanRow {α : Type} (key : String) (row : List α) : Outcome (List (Cplx α)) :=
  if row.length % 2 = 0 then .ok (pairParts row)
  else fail (.store key s!"odd Raman row width {row.length}")

namespace Task

variable {σ α : Type} [Scalar α] [ResultCache σ α] (ctx : TaskContext α)

/-- The energies over the grid, which several tasks share. -/
def gridEnergies : Job σ (List (List α)) :=
  cachedRows (ctx.windowKey "energies" ctx.kpNum) ctx.refresh ctx.energiesOverGrid

/-- The rows of a spectrum. A stored one is used if it is for the photon energies asked for. -/
def spectrumRows (key : String) (width : Nat) (compute : Logged (List (List α))) :
    Job σ (List (List α)) := do
  if ctx.refresh then computeRows key compute
  else
    match ← Job.load key with
    | none => computeRows key compute
    | some hit => do
        let rows ← hit.toRows
        if answersPhotons ctx.photons width rows then do
          say s!"Loaded {key} from cache"
          return rows
        else computeRows key compute

/-- The band structure along the model's path. -/
def runBands : Run σ α Unit := do
  let path ← ctx.model.defaultPath.sample ctx.density true
  let key := ctx.windowKey "bands" path.length
  let energies ← Run.ofJob (cachedRows key ctx.refresh (ctx.energiesAlong path))
  let shifted := ctx.params.shiftToHalfFilling.getD true
  let bands ← BandStructure.ofPathEnergies ctx.sort energies path.labels path.labelPositions shifted
  Run.amend ({ · with bands := some bands })

/-- The density of states. -/
def runDos : Run σ α Unit := do
  let energies ← Run.ofJob (gridEnergies ctx)
  let bins := ctx.params.dosBins.getD 200
  let dos ← densityOfStates energies bins ctx.params.dosRange ctx.bands.unitCellArea
  Run.amend ({ · with dos := some dos })

/-- The joint density of states. -/
def runJdos : Run σ α Unit := do
  let energies ← Run.ofJob (gridEnergies ctx)
  let bins := ctx.params.dosBins.getD 200
  let jdos ← jointDensityOfStates energies ctx.window bins ctx.params.jdosRange
    ctx.bands.unitCellArea
  Run.amend ({ · with jdos := some jdos })

/-- The absorption spectrum. -/
def runAbsorption : Run σ α Unit := do
  let rows ← Run.ofJob (spectrumRows ctx ctx.absorptionKey 2 ctx.absorptionRows)
  let photonEnergies ← rows.mapM (m := Outcome) (entry · 0)
  let absorption ← rows.mapM (m := Outcome) (entry · 1)
  Run.amend ({ · with absorption := some ⟨photonEnergies, absorption⟩ })

/-- The conductivity spectrum. -/
def runConductivity : Run σ α Unit := do
  let rows ← Run.ofJob (spectrumRows ctx ctx.conductivityKey 3 ctx.conductivityRows)
  let response ← rows.mapM (m := Outcome) responseEntry
  let photonEnergies ← rows.mapM (m := Outcome) (entry · 0)
  Run.amend ({ · with conductivity := some (Conductivity.ofResponse photonEnergies response) })

/-- The Raman spectrum along the model's path. -/
def runRaman : Run σ α Unit := do
  let path ← ctx.model.ramanPath.sample ctx.density false
  let key := ctx.ramanKey path.length
  let rows ← Run.ofJob (cachedRows key ctx.refresh (ctx.ramanRows path.points))
  let terms ← rows.mapM (m := Outcome) (ramanRow key)
  let spectrum ← Raman.ofTerms terms ctx.bands.unitCellArea
  Run.amend ({ · with raman := some spectrum })

/-- Both Chern numbers, each of which is added to the report as soon as it is there. -/
def runChern : Run σ α Unit := do
  let band := ctx.params.chernBand.getD 1
  let kpNum := ctx.params.chernKpNum.getD 30
  let estimate (method : String)
      (compute : BandModel α → Solver α → Evaluator → Nat → Int → Outcome (ChernResult α)) :
      Logged (ChernResult α) := do
    let points ← Chern.grid ctx.bands kpNum
    say (Chern.announcement method kpNum band)
    say (ctx.evaluator.announcement points.length)
    compute ctx.bands ctx.solve ctx.evaluator kpNum band
  let kubo ← estimate "Kubo" Chern.kubo
  Run.amend fun report ↦ { report with chern := report.chern ++ [kubo] }
  let plaquette ← estimate "plaquette" Chern.plaquette
  Run.amend fun report ↦ { report with chern := report.chern ++ [plaquette] }

/-- The Fermi velocity. -/
def runFermiVelocity : Run σ α Unit := do
  let proportion := ctx.params.fermiProportion.getD 0.01
  let v ← ctx.model.fermiVelocity ctx.solve proportion
  Run.amend ({ · with fermiVelocity := some v })

/-- The energies on a patch around the first vertex of the model's path. -/
def runPatch : Run σ α Unit := do
  let center := ctx.model.defaultPath.vertices.head?.getD .zero
  let radius := ctx.params.patchRadius.getD 0.1 * ctx.bands.pathUnit
  let points ← Moire.patch center ⟨radius, 0⟩ (ctx.params.patchDensity.getD 20)
  let rows ← ctx.energiesAt points
  Run.amend ({ · with patch := some rows })

/-- The energy difference of a pair of bands over the grid. -/
def runEnergyDifference : Run σ α Unit := do
  let (valence, conduction) := ctx.params.transitionPair.getD (1, 1)
  let energies ← Run.ofJob (gridEnergies ctx)
  let differences ← energyDifferences energies ctx.window valence conduction
  Run.amend ({ · with energyDifference := some differences })

/-- What a task does. -/
def body : Task → Run σ α Unit
  | .bands => runBands ctx
  | .dos => runDos ctx
  | .jdos => runJdos ctx
  | .absorption => runAbsorption ctx
  | .conductivity => runConductivity ctx
  | .raman => runRaman ctx
  | .chern => runChern ctx
  | .fermiVelocity => runFermiVelocity ctx
  | .patch => runPatch ctx
  | .energyDifference => runEnergyDifference ctx

/-- Run a task. -/
def run (task : Task) : Run σ α Unit := do
  say ("\n" ++ ruler)
  say ("       Starting task: " ++ task.title)
  say ruler
  task.body ctx

end Task

end Moire
