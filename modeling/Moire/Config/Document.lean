import Moire.Config.Basic
import Moire.Json.Record
import Moire.Number.Machine

/-!
# Settings as JSON

Settings are written as a record of records, with null for what is missing. The parameters of the
observables are read back as well.
-/

namespace Moire

/-- A window of bands. -/
def BandWindow.toJson (window : BandWindow) : Json :=
  .object [("lower", .integer window.lower), ("upper", .integer window.upper)]

/-- Read a window of bands. -/
def BandWindow.ofJson? (value : Json) : Option BandWindow := do
  match ← value.fields? ["lower", "upper"] with
  | [lower, upper] =>
      let bound := Json.required (Json.intIn? Word.signed64)
      return ⟨← bound lower, ← bound upper⟩
  | _ => none

/-- The parameters of a model, with its kind. -/
def TwistedParams.toJson : TwistedParams Float → Json
  | .continuum p => .object [
      ("type", .string "continuum"),
      ("twist_angle", .real p.twistAngle),
      ("fermi_velocity", .real p.fermiVelocity),
      ("interlayer_coupling", .real p.interlayerCoupling),
      ("lattice_constant", .real p.latticeConstant),
      ("loop_times", .count p.loopTimes),
      ("interval_k", .real p.intervalK)]
  | .tightBinding p => .object [
      ("type", .string "tight_binding"),
      ("m0", .count p.m0),
      ("r", .count p.r),
      ("intra_hopping", .real p.intraHopping),
      ("inter_hopping", .real p.interHopping),
      ("lattice_constant", .real p.latticeConstant),
      ("interlayer_distance", .real p.interlayerDistance),
      ("interval_k", .real p.intervalK),
      ("max_lattice_rounds", .count p.maxLatticeRounds)]

namespace ObservableParams

/-- The names of the parameters in order. -/
def fieldNames : List String := [
  "kp_num", "path_density", "band_window", "shift_to_half_filling", "dos_bins", "dos_range",
  "jdos_range", "num_half", "photon_energies", "broadening", "conductivity_eta",
  "raman_photon_energy", "raman_phonon_energy", "raman_gamma", "raman_inner_transitions",
  "chern_band", "chern_kp_num", "fermi_proportion", "patch_radius", "patch_density",
  "transition_pair"]

/-- The parameters of the observables. -/
def toJson (p : ObservableParams Float) : Json :=
  let real := Json.optional Json.real
  let count := Json.optional Json.count
  let range := Json.optional fun (range : Float × Float) ↦ Json.reals [range.1, range.2]
  .object (fieldNames.zip [
    count p.kpNum,
    real p.pathDensity,
    .optional BandWindow.toJson p.bandWindow,
    .optional .bool p.shiftToHalfFilling,
    count p.dosBins,
    range p.dosRange,
    range p.jdosRange,
    count p.numHalf,
    .optional .reals p.photonEnergies,
    real p.broadening,
    real p.conductivityEta,
    real p.ramanPhotonEnergy,
    real p.ramanPhononEnergy,
    real p.ramanGamma,
    count p.ramanInnerTransitions,
    .optional .integer p.chernBand,
    count p.chernKpNum,
    real p.fermiProportion,
    real p.patchRadius,
    count p.patchDensity,
    .optional (fun pair ↦ .counts [pair.1, pair.2]) p.transitionPair])

/-- Read the parameters of the observables. -/
def ofJson? (value : Json) : Option (ObservableParams Float) := do
  let real := Json.nullable Json.real?
  let count := Json.nullable Json.count?
  let range := Json.nullable (Json.pair? Json.real?)
  match ← value.fields? fieldNames with
  | [kpNum, pathDensity, bandWindow, shift, dosBins, dosRange, jdosRange, numHalf, photons,
      broadening, eta, ramanPhoton, ramanPhonon, ramanGamma, ramanInner, chernBand, chernKpNum,
      proportion, patchRadius, patchDensity, transitionPair] =>
      return {
        kpNum := ← count kpNum
        pathDensity := ← real pathDensity
        bandWindow := ← Json.nullable BandWindow.ofJson? bandWindow
        shiftToHalfFilling := ← Json.nullable Json.bool? shift
        dosBins := ← count dosBins
        dosRange := ← range dosRange
        jdosRange := ← range jdosRange
        numHalf := ← count numHalf
        photonEnergies := ← Json.nullable (Json.list? Json.real?) photons
        broadening := ← real broadening
        conductivityEta := ← real eta
        ramanPhotonEnergy := ← real ramanPhoton
        ramanPhononEnergy := ← real ramanPhonon
        ramanGamma := ← real ramanGamma
        ramanInnerTransitions := ← count ramanInner
        chernBand := ← Json.nullable (Json.intIn? Word.signed32) chernBand
        chernKpNum := ← count chernKpNum
        fermiProportion := ← real proportion
        patchRadius := ← real patchRadius
        patchDensity := ← count patchDensity
        transitionPair := ← Json.nullable (Json.pair? Json.count?) transitionPair }
  | _ => none

end ObservableParams

/-- The settings of a run. -/
def Config.toJson (config : Config Float) : Json :=
  .object [
    ("model", config.model.toJson),
    ("tasks", .strings (config.tasks.map Task.name)),
    ("observables", .optional ObservableParams.toJson config.observables),
    ("parallel", .optional
      (fun p ↦ .object [("workers", .optional .count p.workers)]) config.parallel),
    ("cache", .optional
      (fun p ↦ .object [
        ("enabled", .optional .bool p.enabled),
        ("directory", .optional .string p.directory),
        ("refresh", .optional .bool p.refresh)]) config.cache)]

end Moire
