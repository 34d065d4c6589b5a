import Moire.Bands.Window
import Moire.TwistedModel

/-!
# Settings of a run

A run is set up by the model, the list of tasks, the parameters of the observables, the number of
workers and the place of stored results. Any parameter of an observable may be missing; defaults
fill the gaps.
-/

namespace Moire

/-- The parameters of a continuum model from their fields. A real and a count are read by name,
with a default for a field that is missing. -/
def Continuum.Params.ofFields {α : Type} [Scalar α] {m : Type → Type} [Monad m]
    (real : String → α → m α) (count : String → Nat → m Nat) : m (Continuum.Params α) := do
  let d : Continuum.Params α := .default
  return {
    twistAngle := ← real "twist_angle" d.twistAngle
    fermiVelocity := ← real "fermi_velocity" d.fermiVelocity
    interlayerCoupling := ← real "interlayer_coupling" d.interlayerCoupling
    latticeConstant := ← real "lattice_constant" d.latticeConstant
    loopTimes := ← count "loop_times" d.loopTimes
    intervalK := ← real "interval_k" d.intervalK }

/-- The parameters of a tight-binding model from their fields. The two labels of the supercell are
counts of a smaller range. -/
def TightBinding.Params.ofFields {α : Type} [Scalar α] {m : Type → Type} [Monad m]
    (real : String → α → m α) (count label : String → Nat → m Nat) :
    m (TightBinding.Params α) := do
  let d : TightBinding.Params α := .default
  return {
    m0 := ← label "m0" d.m0
    r := ← label "r" d.r
    intraHopping := ← real "intra_hopping" d.intraHopping
    interHopping := ← real "inter_hopping" d.interHopping
    latticeConstant := ← real "lattice_constant" d.latticeConstant
    interlayerDistance := ← real "interlayer_distance" d.interlayerDistance
    intervalK := ← real "interval_k" d.intervalK
    maxLatticeRounds := ← count "max_lattice_rounds" d.maxLatticeRounds }

/-- What a run can compute. -/
inductive Task where
  | bands
  | dos
  | jdos
  | absorption
  | conductivity
  | raman
  | chern
  | fermiVelocity
  | patch
  | energyDifference
  deriving DecidableEq, Repr, Inhabited

namespace Task

/-- All tasks. -/
def all : List Task :=
  [bands, dos, jdos, absorption, conductivity, raman, chern, fermiVelocity, patch,
    energyDifference]

/-- The name of a task in settings and in reports. -/
def name : Task → String
  | bands => "bands"
  | dos => "dos"
  | jdos => "jdos"
  | absorption => "absorption"
  | conductivity => "conductivity"
  | raman => "raman"
  | chern => "chern"
  | fermiVelocity => "fermi_velocity"
  | patch => "patch"
  | energyDifference => "energy_difference"

/-- The name of a task in messages. -/
def title : Task → String
  | bands => "Bands"
  | dos => "Dos"
  | jdos => "Jdos"
  | absorption => "Absorption"
  | conductivity => "Conductivity"
  | raman => "Raman"
  | chern => "Chern"
  | fermiVelocity => "FermiVelocity"
  | patch => "Patch"
  | energyDifference => "EnergyDifference"

/-- The task of a name. -/
def ofName? (name : String) : Option Task :=
  all.find? fun task ↦ task.name = name

end Task

/-- The parameters of the observables, any of which may be missing. Energies are in meV. -/
structure ObservableParams (α : Type) where
  /-- The points of the grid along each vector of the zone. -/
  kpNum : Option Nat
  /-- The points of a path per unit length. -/
  pathDensity : Option α
  bandWindow : Option BandWindow
  shiftToHalfFilling : Option Bool
  dosBins : Option Nat
  dosRange : Option (α × α)
  jdosRange : Option (α × α)
  /-- The bands on each side of the gap between which transitions are taken. -/
  numHalf : Option Nat
  photonEnergies : Option (List α)
  broadening : Option α
  conductivityEta : Option α
  ramanPhotonEnergy : Option α
  ramanPhononEnergy : Option α
  ramanGamma : Option α
  ramanInnerTransitions : Option Nat
  chernBand : Option Int
  chernKpNum : Option Nat
  /-- The part of the way from the corner to the midpoint over which the velocity is taken. -/
  fermiProportion : Option α
  /-- Half the width of the patch in path units. -/
  patchRadius : Option α
  patchDensity : Option Nat
  /-- A valence and a conduction band, both counted from the gap. -/
  transitionPair : Option (Nat × Nat)
  deriving Repr, Inhabited

namespace ObservableParams

variable {α : Type} [Scalar α]

/-- The parameters with nothing given. -/
def empty : ObservableParams α where
  kpNum := none
  pathDensity := none
  bandWindow := none
  shiftToHalfFilling := none
  dosBins := none
  dosRange := none
  jdosRange := none
  numHalf := none
  photonEnergies := none
  broadening := none
  conductivityEta := none
  ramanPhotonEnergy := none
  ramanPhononEnergy := none
  ramanGamma := none
  ramanInnerTransitions := none
  chernBand := none
  chernKpNum := none
  fermiProportion := none
  patchRadius := none
  patchDensity := none
  transitionPair := none

/-- The defaults. The ranges of densities and the inner bands of Raman spectra have none. -/
def default : ObservableParams α :=
  { (empty : ObservableParams α) with
    kpNum := some 70
    pathDensity := some 100
    bandWindow := some .standard
    shiftToHalfFilling := some true
    dosBins := some 200
    numHalf := some 2
    photonEnergies := some ((List.range 50).map fun i ↦ 20 * Number.ofNat (i + 1))
    broadening := some 100
    conductivityEta := some 20
    ramanPhotonEnergy := some 2000
    ramanPhononEnergy := some 196
    ramanGamma := some 100
    chernBand := some 1
    chernKpNum := some 30
    fermiProportion := some 0.01
    patchRadius := some 0.1
    patchDensity := some 20
    transitionPair := some (1, 1) }

/-- The parameters with the defaults in place of what is missing. -/
def withDefaults (params : ObservableParams α) : ObservableParams α :=
  let d : ObservableParams α := default
  { kpNum := params.kpNum.or d.kpNum
    pathDensity := params.pathDensity.or d.pathDensity
    bandWindow := params.bandWindow.or d.bandWindow
    shiftToHalfFilling := params.shiftToHalfFilling.or d.shiftToHalfFilling
    dosBins := params.dosBins.or d.dosBins
    dosRange := params.dosRange
    jdosRange := params.jdosRange
    numHalf := params.numHalf.or d.numHalf
    photonEnergies := params.photonEnergies.or d.photonEnergies
    broadening := params.broadening.or d.broadening
    conductivityEta := params.conductivityEta.or d.conductivityEta
    ramanPhotonEnergy := params.ramanPhotonEnergy.or d.ramanPhotonEnergy
    ramanPhononEnergy := params.ramanPhononEnergy.or d.ramanPhononEnergy
    ramanGamma := params.ramanGamma.or d.ramanGamma
    ramanInnerTransitions := params.ramanInnerTransitions
    chernBand := params.chernBand.or d.chernBand
    chernKpNum := params.chernKpNum.or d.chernKpNum
    fermiProportion := params.fermiProportion.or d.fermiProportion
    patchRadius := params.patchRadius.or d.patchRadius
    patchDensity := params.patchDensity.or d.patchDensity
    transitionPair := params.transitionPair.or d.transitionPair }

end ObservableParams

/-- How the work is shared out. -/
structure ParallelParams where
  workers : Option Nat
  deriving Repr, Inhabited

/-- Where results are stored. -/
structure CacheParams where
  enabled : Option Bool
  directory : Option String
  /-- Compute and store again what is stored already. -/
  refresh : Option Bool
  deriving Repr, Inhabited

/-- The defaults of storing. -/
def CacheParams.default : CacheParams := ⟨some true, some "cache", some false⟩

/-- The parameters with the defaults in place of what is missing. -/
def CacheParams.withDefaults (params : CacheParams) : CacheParams :=
  { enabled := params.enabled.or CacheParams.default.enabled
    directory := params.directory.or CacheParams.default.directory
    refresh := params.refresh.or CacheParams.default.refresh }

/-- The settings of a run. -/
structure Config (α : Type) where
  model : TwistedParams α
  tasks : List Task
  observables : Option (ObservableParams α)
  parallel : Option ParallelParams
  cache : Option CacheParams

namespace Config

variable {α : Type} [Scalar α] (config : Config α)

/-- The settings with defaults in every section. Without tasks the bands are drawn. -/
def withDefaults : Config α :=
  { config with
    tasks := if config.tasks.isEmpty then [.bands] else config.tasks
    observables := some (config.observables.getD .default).withDefaults
    parallel := some (config.parallel.getD ⟨none⟩)
    cache := some (config.cache.getD .default).withDefaults }

/-- The parameters of the observables, with defaults. -/
def observableParams : ObservableParams α :=
  (config.observables.getD .default).withDefaults

/-- The number of workers that is asked for. -/
def workers : Option Nat := config.parallel.bind ParallelParams.workers

/-- Results are stored in files. -/
def cacheEnabled : Bool := (config.cache.bind CacheParams.enabled).getD true

/-- The folder of stored results. -/
def cacheDirectory : String := (config.cache.bind CacheParams.directory).getD "cache"

/-- Stored results are computed again. -/
def cacheRefresh : Bool := (config.cache.bind CacheParams.refresh).getD false

end Config

end Moire
